import CssText.Proofs.Token.Tiling
import CssText.Token.Reader
import Mathlib.Data.Nat.Find
import Mathlib.Logic.Function.Iterate

/-!
# A reader is a bookmark in the list of lexemes

What a reader hands out depends on a cursor, a pushed-back lexeme and two flags. For those
who use it there is less to know: a bookmark is an index into the lexemes of the text, the
end of the input repeated forever, which reading moves forward and pushing back moves one
step back. Whatever is asked of the two, and in whatever order, they answer the same.
-/

namespace CssText

/-- The lexeme with the number `i`. After the last one comes the end of the input, always. -/
def lexemeAt (css : Bytes) (i : Nat) : Lexeme :=
  (tokenize css)[i]?.getD (Lexeme.endOf css)

theorem lexemeAt_of_length_le {css : Bytes} {i : Nat} (h : (tokenize css).length ≤ i) :
    lexemeAt css i = Lexeme.endOf css := by
  rw [lexemeAt, List.getElem?_eq_none h]
  rfl

theorem exists_significant (css : Bytes) (i : Nat) :
    ∃ j, i ≤ j ∧ (lexemeAt css j).kind.isBlank = false := by
  refine ⟨i + (tokenize css).length, Nat.le_add_right _ _, ?_⟩
  rw [lexemeAt_of_length_le (Nat.le_add_left _ _)]
  rfl

/-- The number of the first lexeme from `i` on that is neither white space nor a comment. -/
def significantFrom (css : Bytes) (i : Nat) : Nat :=
  Nat.find (exists_significant css i)

/-!
## Calls

A call answers with a lexeme, or with none when it pushes one back. What can be seen after a
call is its answer, the lexeme returned last and where the next lexeme begins.
-/

namespace Reader

inductive Call where
  | next
  | nextSignificant
  | pushBack

structure View where
  answer : Option Lexeme
  current : Lexeme
  offset : Nat

def call (r : Reader) : Call → Option Lexeme × Reader
  | .next => (some r.next.1, r.next.2)
  | .nextSignificant => (some r.nextSignificant.1, r.nextSignificant.2)
  | .pushBack => (none, r.pushBack)

def run (r : Reader) : List Call → List View
  | [] => []
  | c :: calls =>
      let step := r.call c
      { answer := step.1, current := step.2.current, offset := step.2.offset } ::
        step.2.run calls

end Reader

structure Bookmark where
  /-- The number of the next lexeme. -/
  index : Nat := 0
  /-- The lexeme returned last. -/
  last : Lexeme := {}
  /-- A lexeme has been returned, and none was pushed back since. -/
  fresh : Bool := false

namespace Bookmark

def past (css : Bytes) (i : Nat) : Bookmark :=
  { index := i + 1, last := lexemeAt css i, fresh := true }

def call (css : Bytes) (m : Bookmark) : Reader.Call → Option Lexeme × Bookmark
  | .next => (some (lexemeAt css m.index), past css m.index)
  | .nextSignificant =>
      let i := significantFrom css m.index
      (some (lexemeAt css i), past css i)
  | .pushBack => (none, if m.fresh then { m with index := m.index - 1, fresh := false } else m)

def run (css : Bytes) (m : Bookmark) : List Reader.Call → List Reader.View
  | [] => []
  | c :: calls =>
      let step := m.call css c
      { answer := step.1, current := step.2.last, offset := (lexemeAt css step.2.index).start } ::
        step.2.run css calls

end Bookmark

/-!
## Cursors
-/

namespace Cursor

theorem start_next (c : Cursor) : c.next.1.start = c.offset := by
  rw [next]
  split
  · rfl
  · rfl

/-- The cursor before the lexeme with the number `i`. -/
def before (css : Bytes) (i : Nat) : Cursor :=
  (fun c => c.next.2)^[i] (between [] css)

theorem before_succ (css : Bytes) (i : Nat) : before css (i + 1) = (before css i).next.2 :=
  Function.iterate_succ_apply' _ i _

theorem next_iterate (read rest : Bytes) (i : Nat) :
    ((fun c => c.next.2)^[i] (between read rest)).next.1 =
      ((between read rest).lexemes ++ [Lexeme.endOf (read ++ rest)])[i]?.getD
        (Lexeme.endOf (read ++ rest)) := by
  induction rest using Token.text_induction generalizing read i with
  | nil =>
      have hend : (between read []).next = (Lexeme.endOf read, between read []) := rfl
      rw [lexemes_between_nil, List.append_nil,
        Function.iterate_fixed (congrArg Prod.snd hend), hend]
      cases i with
      | zero => rfl
      | succ i => rfl
  | reads w t rest h ih =>
      rw [lexemes_between h]
      cases i with
      | zero => exact congrArg Prod.fst (next_between h read)
      | succ i =>
          rw [Function.iterate_succ_apply, next_between h, ih, List.append_assoc]
          rfl

theorem next_before (css : Bytes) (i : Nat) : (before css i).next.1 = lexemeAt css i :=
  next_iterate [] css i

theorem offset_before (css : Bytes) (i : Nat) : (before css i).offset = (lexemeAt css i).start := by
  rw [← start_next, next_before]

end Cursor

/-!
## The states of a reader

The end of the input is not blank, so a reader that passes over blank lexemes stops. It is in
one of three states after a call, and each answer is the same as that of the bookmark.
-/

namespace Reader

theorem remaining_pos {r : Reader} (h : r.next.1.kind.isBlank = true) : 0 < r.remaining := by
  rw [remaining]
  rw [next] at h
  cases hp : r.pushedBack with
  | some l => simp
  | none =>
      rw [hp] at h
      cases hrest : r.cursor.rest with
      | nil =>
          simp only [Cursor.next, hrest] at h
          cases h
      | cons b bs => simp

theorem nextSignificant_eq (r : Reader) :
    r.nextSignificant =
      if r.next.1.kind.isBlank = true then r.next.2.nextSignificant else r.next := by
  rw [nextSignificant]
  by_cases hblank : r.next.1.kind.isBlank = true
  · rw [dif_pos ⟨hblank, remaining_pos hblank⟩, if_pos hblank]
  · rw [dif_neg (fun h => hblank h.1), if_neg hblank]

def past (css : Bytes) (i : Nat) : Reader :=
  { cursor := Cursor.before css (i + 1), current := lexemeAt css i, hasRead := true }

/-- The three states that a reader of the text gets into, and the bookmark in each of them. -/
inductive Follows (css : Bytes) : Reader → Bookmark → Prop where
  | start : Follows css (ofText css) {}
  | past (i : Nat) : Follows css (past css i) (Bookmark.past css i)
  | pushedBack (i : Nat) :
      Follows css { past css i with pushedBack := some (lexemeAt css i) }
        { index := i, last := lexemeAt css i, fresh := false }

variable {css : Bytes} {r : Reader} {m : Bookmark}

theorem Follows.next (h : Follows css r m) :
    r.next = (lexemeAt css m.index, Reader.past css m.index) := by
  have hread (i : Nat) (r : Reader) (hcursor : r.cursor = Cursor.before css i)
      (hp : r.pushedBack = none) : r.next = (lexemeAt css i, Reader.past css i) := by
    rw [Reader.next, hp]
    simp only [hcursor, Cursor.next_before, ← Cursor.before_succ]
    rw [Reader.past]
  cases h with
  | start => exact hread 0 (ofText css) rfl rfl
  | past i => exact hread (i + 1) (Reader.past css i) rfl rfl
  | pushedBack i => rfl

theorem Follows.nextSignificant (h : Follows css r m) {n : Nat}
    (hblank : ∀ i < n, (lexemeAt css (m.index + i)).kind.isBlank = true)
    (hstop : (lexemeAt css (m.index + n)).kind.isBlank = false) :
    r.nextSignificant = (lexemeAt css (m.index + n), Reader.past css (m.index + n)) := by
  induction n generalizing r m with
  | zero =>
      have hfirst : ¬ (lexemeAt css m.index).kind.isBlank = true :=
        Bool.eq_false_iff.mp hstop
      rw [nextSignificant_eq, h.next, if_neg hfirst]
      rfl
  | succ n ih =>
      have hfirst : (lexemeAt css m.index).kind.isBlank = true := hblank 0 n.succ_pos
      have hindex (i : Nat) : (Bookmark.past css m.index).index + i = m.index + (i + 1) :=
        Nat.succ_add_eq_add_succ m.index i
      have hmore := ih (.past m.index)
      simp only [hindex] at hmore
      rw [nextSignificant_eq, h.next, if_pos hfirst]
      exact hmore (fun i hi => hblank (i + 1) (Nat.succ_lt_succ hi)) hstop

theorem Follows.current (h : Follows css r m) : r.current = m.last := by
  cases h with
  | start => rfl
  | past i => rfl
  | pushedBack i => rfl

theorem Follows.offset (h : Follows css r m) : r.offset = (lexemeAt css m.index).start := by
  cases h with
  | start => exact Cursor.offset_before css 0
  | past i => exact Cursor.offset_before css (i + 1)
  | pushedBack i => rfl

/-- A call has the same answer from both, and leaves a reader that the bookmark follows. -/
theorem Follows.call (h : Follows css r m) (c : Call) :
    (r.call c).1 = (m.call css c).1 ∧ Follows css (r.call c).2 (m.call css c).2 := by
  cases c with
  | next =>
      simp only [Reader.call, h.next]
      exact ⟨rfl, .past _⟩
  | nextSignificant =>
      have hfind := Nat.find_spec (exists_significant css m.index)
      have hmin (i : Nat) (hi : m.index + i < significantFrom css m.index) :
          (lexemeAt css (m.index + i)).kind.isBlank = true := by
        have hnot := Nat.find_min (exists_significant css m.index) hi
        simpa using fun hfalse => hnot ⟨Nat.le_add_right _ _, hfalse⟩
      obtain ⟨n, hn⟩ := Nat.exists_eq_add_of_le hfind.1
      have hn : significantFrom css m.index = m.index + n := hn
      have hstop : (lexemeAt css (m.index + n)).kind.isBlank = false := hn ▸ hfind.2
      have hread := h.nextSignificant (n := n) (fun i hi => hmin i (by omega)) hstop
      simp only [Reader.call, Bookmark.call, hread, hn]
      exact ⟨trivial, .past _⟩
  | pushBack =>
      constructor
      · rfl
      · cases h with
        | start => exact .start
        | past i => exact .pushedBack i
        | pushedBack i => exact .pushedBack i

theorem Follows.run (h : Follows css r m) (calls : List Call) : r.run calls = m.run css calls := by
  induction calls generalizing r m with
  | nil => rfl
  | cons c calls ih =>
      rcases h.call c with ⟨hanswer, hafter⟩
      simp only [Reader.run, Bookmark.run, hanswer, hafter.current, hafter.offset, ih hafter]

/-- Whatever is asked of a reader of the text, it answers as the bookmark at its start. -/
theorem run_ofText (css : Bytes) (calls : List Call) :
    (ofText css).run calls = Bookmark.run css {} calls :=
  Follows.start.run calls

end Reader
end CssText
