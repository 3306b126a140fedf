import CssText.Proofs.Token.Stream
import Mathlib.Data.List.Chain

/-!
# The lexemes of a text tile it

A cursor that has passed the first part of a text knows how many bytes and lines it has
passed, however these were read. From there the lexemes follow each other without a gap up
to the end of the input, and the line of each counts the newlines before it.
-/

namespace CssText

namespace Token

theorem ne_endOfInput_of_punctuation : ∀ b : UInt8, ∀ kind ∈ punctuation? b,
    kind ≠ .endOfInput :=
  forall_punctuation (by decide)

theorem ne_endOfInput_of_operator : ∀ b : UInt8, ∀ kind ∈ matchOperator? b [Byte.equals],
    kind ≠ .endOfInput :=
  forall_operator (by decide)

theorem Reads.ne_endOfInput {text rest : Bytes} {t : Token} (h : Reads text t rest) :
    t.kind ≠ .endOfInput := by
  cases h with
  | punctuation hp => exact ne_endOfInput_of_punctuation _ _ hp
  | operator ho =>
      have hoperator : matchOperator? _ [Byte.equals] = some _ := ho
      exact ne_endOfInput_of_operator _ _ hoperator
  | _ => exact Kind.noConfusion

end Token

namespace Cursor

/-- The cursor in a text of which `read` has been read and `rest` has not. -/
def between (read rest : Bytes) : Cursor :=
  { rest, line := 1 + read.count Byte.newline, offset := read.length }

theorem lexemes_between_nil (read : Bytes) : (between read []).lexemes = [] :=
  lexemes_nil _ _

theorem next_between {w rest : Bytes} {t : Token} (h : Token.Reads (w ++ rest) t rest)
    (read : Bytes) :
    (between read (w ++ rest)).next =
      ({ toToken := t, line := 1 + read.count Byte.newline, start := read.length,
         stop := (read ++ w).length }, between (read ++ w) rest) := by
  have hnext := next_of_reads h (1 + read.count Byte.newline) read.length
  rw [Nat.add_assoc, ← List.count_append, ← List.length_append] at hnext
  exact hnext

theorem lexemes_between {w rest : Bytes} {t : Token} (h : Token.Reads (w ++ rest) t rest)
    (read : Bytes) :
    (between read (w ++ rest)).lexemes =
      { toToken := t, line := 1 + read.count Byte.newline, start := read.length,
        stop := (read ++ w).length } :: (between (read ++ w) rest).lexemes := by
  have hne : (between read (w ++ rest)).rest ≠ [] := h.ne_nil
  rw [lexemes, dif_neg hne]
  simp only [next_between h]

theorem mem_between (read rest : Bytes) :
    ∀ l ∈ (between read rest).lexemes, l.kind ≠ .endOfInput ∧ l.start < l.stop ∧
      l.line = 1 + ((read ++ rest).take l.start).count Byte.newline := by
  induction rest using Token.text_induction generalizing read with
  | nil =>
      intro l hl
      rw [lexemes_between_nil] at hl
      cases hl
  | reads w t rest h ih =>
      intro l hl
      rw [lexemes_between h] at hl
      rcases List.mem_cons.mp hl with rfl | hl
      · have hlength := h.length_lt
        rw [List.length_append] at hlength
        refine ⟨h.ne_endOfInput, ?_, ?_⟩
        · show read.length < (read ++ w).length
          rw [List.length_append]
          omega
        · show _ = 1 + ((read ++ (w ++ rest)).take read.length).count Byte.newline
          rw [List.take_left']
          rfl
      · rw [← List.append_assoc]
        exact ih (read ++ w) l hl

/-- From the cursor to the end of the input no byte lies between two lexemes. -/
theorem isChain_between (read rest : Bytes) :
    (∀ l ∈ ((between read rest).lexemes ++ [Lexeme.endOf (read ++ rest)]).head?,
        l.start = read.length) ∧
      ((between read rest).lexemes ++ [Lexeme.endOf (read ++ rest)]).IsChain
        (fun l m => l.stop = m.start) := by
  induction rest using Token.text_induction generalizing read with
  | nil =>
      rw [lexemes_between_nil, List.append_nil, List.nil_append]
      constructor
      · intro l hl
        cases hl
        rfl
      · exact List.IsChain.singleton _
  | reads w t rest h ih =>
      rcases ih (read ++ w) with ⟨hfirst, hchain⟩
      rw [List.append_assoc] at hfirst hchain
      rw [lexemes_between h, List.cons_append]
      constructor
      · intro l hl
        cases hl
        rfl
      · cases hrun : (between (read ++ w) rest).lexemes ++ [Lexeme.endOf (read ++ (w ++ rest))] with
        | nil => exact List.IsChain.singleton _
        | cons m ms =>
            rw [hrun] at hfirst hchain
            exact List.IsChain.cons_cons (hfirst m rfl).symm hchain

end Cursor

/--
The lexemes of a text end with the only end of the input, which takes no bytes. The others
take some, from the first byte to the last without a gap, and the line of each counts the
newlines before it.
-/
theorem tokenize_tiles (css : Bytes) :
    (∃ run final, tokenize css = run ++ [final] ∧ final.kind = .endOfInput ∧
        final.start = css.length ∧ final.stop = css.length ∧
        ∀ l ∈ run, l.kind ≠ .endOfInput ∧ l.start < l.stop) ∧
      (tokenize css).head?.map Lexeme.start = some 0 ∧
      (tokenize css).IsChain (fun l m => l.stop = m.start) ∧
      ∀ l ∈ tokenize css, l.line = 1 + (css.take l.start).count Byte.newline := by
  have hmem := Cursor.mem_between [] css
  rcases Cursor.isChain_between [] css with ⟨hfirst, hchain⟩
  refine ⟨⟨Lexeme.ofText css, Lexeme.endOf css, rfl, rfl, rfl, rfl, ?_⟩, ?_, hchain, ?_⟩
  · intro l hl
    exact ⟨(hmem l hl).1, (hmem l hl).2.1⟩
  · cases hrun : tokenize css with
    | nil => exact absurd hrun (List.append_ne_nil_of_right_ne_nil _ (List.cons_ne_nil _ _))
    | cons l ls =>
        exact congrArg some (hfirst l (congrArg List.head? hrun))
  · intro l hl
    rcases List.mem_append.mp hl with hl | hl
    · exact (hmem l hl).2.2
    · rw [List.mem_singleton.mp hl]
      show _ = 1 + (css.take css.length).count Byte.newline
      rw [List.take_length]
      rfl

/-- The newline that closes an escape counts, and so does the one that a comment holds. -/
example : (tokenize (ascii "\\62\n/*\n*/:")).map (fun l => (l.line, l.start, l.stop)) =
    [(1, 0, 4), (2, 4, 9), (3, 9, 10), (3, 10, 10)] := by
  decide +kernel

/-!
## Cutting a text

Where a lexeme begins with a stop byte a text falls into two: what stands before that byte is
read in the same way whether the byte, some other text that begins with it or nothing follows.
-/

namespace Cursor

open Token (isStop Halts)

theorem le_start (text : Bytes) (line offset : Nat) :
    ∀ l ∈ lexemes { rest := text, line, offset }, offset ≤ l.start := by
  induction text using Token.text_induction generalizing line offset with
  | nil =>
      rw [lexemes_nil]
      intro l hl
      cases hl
  | reads w t rest h ih =>
      intro l hl
      rw [lexemes_of_reads h] at hl
      rcases List.mem_cons.mp hl with rfl | hl
      · exact Nat.le_refl offset
      · exact Nat.le_trans (Nat.le_add_right offset w.length) (ih _ _ l hl)

theorem lexemes_cut {c : UInt8} {p q s : Bytes} (hc : isStop c = true) {line offset : Nat}
    (h : ∃ l ∈ lexemes { rest := p ++ c :: q, line, offset }, l.start = offset + p.length)
    (hs : Halts c s) :
    lexemes { rest := p ++ s, line, offset } =
      lexemes { rest := p, line, offset } ++
        lexemes { rest := s, line := line + p.count Byte.newline,
                  offset := offset + p.length } := by
  induction hn : p.length using Nat.strongRecOn generalizing p line offset with
  | ind n ih =>
      subst hn
      by_cases hp : p = []
      · subst hp
        rw [lexemes_nil]
        rfl
      obtain ⟨w, t, rest, htext, hreads⟩ :=
        Token.exists_reads (List.append_ne_nil_of_left_ne_nil hp (c :: q))
      rcases h with ⟨l, hl, hstart⟩
      rw [htext, lexemes_of_reads hreads] at hl
      have hpositive := List.length_pos_iff.mpr hp
      have hl : l ∈ lexemes
          { rest, line := line + w.count Byte.newline, offset := offset + w.length } := by
        rcases List.mem_cons.mp hl with rfl | hl
        · exact absurd hstart (by show offset ≠ offset + p.length; omega)
        · exact hl
      -- The lexeme at the stop byte begins no earlier than the first one ends.
      have hlength : w.length ≤ p.length := by
        have hle := le_start rest _ _ l hl
        omega
      obtain ⟨p', rfl⟩ : ∃ p', p = w ++ p' := by
        rcases List.append_eq_append_iff.mp htext with ⟨v, rfl, -⟩ | ⟨v, rfl, -⟩
        · rw [List.length_append] at hlength
          obtain rfl := List.length_eq_zero_iff.mp (show v.length = 0 by omega)
          exact ⟨[], by rw [List.append_nil, List.append_nil]⟩
        · exact ⟨v, rfl⟩
      rw [List.append_assoc] at htext
      obtain rfl := List.append_cancel_left htext
      have hlt : p'.length < (w ++ p').length := by
        have hshorter := hreads.length_lt
        simp only [List.length_append] at hshorter ⊢
        omega
      rw [List.length_append, ← Nat.add_assoc] at hstart
      rw [← List.append_assoc] at hreads
      have halone := hreads.of_stop hc (Token.halts_nil c)
      have hfollowed := hreads.of_stop hc hs
      rw [List.append_nil, List.append_nil] at halone
      rw [List.append_assoc] at hfollowed ⊢
      rw [lexemes_of_reads halone, lexemes_of_reads hfollowed, List.cons_append,
        ih p'.length hlt ⟨l, hl, hstart⟩ rfl, List.count_append, List.length_append,
        Nat.add_assoc, Nat.add_assoc]

end Cursor

namespace Lexeme

theorem ofText_cut {c : UInt8} {p q s : Bytes} (hc : Token.isStop c = true)
    (h : ∃ l ∈ ofText (p ++ c :: q), l.start = p.length) (hs : Token.Halts c s) :
    ofText (p ++ s) = ofText p ++ (ofText s).map (Shift.past p).lexeme := by
  rw [← Nat.zero_add p.length] at h
  rw [ofText, Cursor.lexemes_cut hc h hs]
  exact congrArg (ofText p ++ ·) (Cursor.lexemes_shift (Shift.past p) s 1 0)

end Lexeme

end CssText
