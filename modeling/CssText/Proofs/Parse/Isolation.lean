import CssText.Proofs.Parse.FrameSheet
import CssText.Proofs.Parse.Runs
import CssText.Proofs.Token.RoundTrip

/-!
# Rules do not depend on the rules before them

A text that ends with a right brace or a semicolon, and about the end of which there is
nothing to say, can be read apart from what follows it. Whatever was wrong inside it, reading
goes on after it as at the beginning of a text.
-/

namespace CssText

/-!
## Trees that were moved

Moving a tree changes no token, so the moved tree equals the first one, unless a number in it
differs from itself.
-/

namespace Lexeme

/-- Every lexeme of the run equals itself. -/
def Regular (run : List Lexeme) : Prop :=
  ∀ t ∈ tokens run, t.same t = true

theorem same_self (l : Lexeme) : l.toToken.same l.toToken = l.number.same l.number := by
  simp [Token.same, BEq.beq]

theorem regular_iff {run : List Lexeme} :
    Regular run ↔ ∀ l ∈ run, l.number.same l.number = true := by
  rw [Regular, tokens, List.forall_mem_map]
  simp only [same_self]

theorem Regular.mono {run run' : List Lexeme} (h : Regular run) (hs : run' ⊆ run) :
    Regular run' := by
  rw [regular_iff] at h ⊢
  intro l hl
  exact h l (hs hl)

theorem regular_ofText (css : Bytes) : Regular (ofText css) := by
  intro t ht
  exact Token.same_self_of_mem ht

theorem tokens_move (run : List Lexeme) (p : Shift) : tokens (run.map p.lexeme) = tokens run := by
  rw [tokens, List.map_map]
  rfl

theorem beq_move {run : List Lexeme} (p : Shift) (h : Regular run) :
    (run.map p.lexeme == run) = true := by
  rw [Regular, ← tokens_move run p] at h
  exact beq_of_tokens_eq (tokens_move run p) h

end Lexeme

namespace Parse

theorem exists_of_mem_collapse {ts : List Lexeme} {m : Lexeme} (h : m ∈ collapse ts) :
    ∃ l ∈ ts, m.number = l.number := by
  have hwiden (gap : Lexeme) (run : List Lexeme) :
      (run.foldl widen gap).number = gap.number := by
    induction run generalizing gap with
    | nil => rfl
    | cons l run ih =>
        rw [List.foldl_cons, ih, widen]
        split
        · rfl
        · rfl
  fun_induction collapse ts with
  | case1 => cases h
  | case2 l rest hl run ih =>
      rcases List.mem_cons.mp h with rfl | h
      · refine ⟨l, List.mem_cons_self, ?_⟩
        rw [hwiden, separator]
        split
        · rfl
        · rfl
      · rcases ih h with ⟨l', hl', hnumber⟩
        have hmem := (dropInsignificant_suffix rest).subset hl'
        exact ⟨l', List.mem_cons_of_mem l hmem, hnumber⟩
  | case3 l rest hl ih =>
      rcases List.mem_cons.mp h with rfl | h
      · exact ⟨m, List.mem_cons_self, rfl⟩
      · rcases ih h with ⟨l', hl', hnumber⟩
        exact ⟨l', List.mem_cons_of_mem l hl', hnumber⟩

theorem regular_terms {run : List Lexeme} (h : Lexeme.Regular run) :
    Lexeme.Regular (terms run) := by
  have hcollapse : Lexeme.Regular (collapse run) := by
    rw [Lexeme.regular_iff] at h ⊢
    intro m hm
    rcases exists_of_mem_collapse hm with ⟨l, hl, hnumber⟩
    rw [hnumber]
    exact h l hl
  exact hcollapse.mono (Lexeme.trim_infix_self (collapse run)).subset

end Parse

namespace Shift

variable (p : Shift)

theorem selector_beq {s : Selector} (h : s.Runs Lexeme.Regular) :
    (p.selector s == s) = true := by
  induction s with
  | pseudoFunction name args =>
      show (name == name && args.map p.lexeme == args) = true
      rw [Lexeme.beq_move p h, beq_self_eq_true]
      rfl
  | negation name inner ih =>
      show (name == name && p.selector inner == inner) = true
      rw [ih h, beq_self_eq_true]
      rfl
  | combine how left right ihl ihr =>
      show (how == how && (p.selector left == left && p.selector right == right)) = true
      rw [ihl h.1, ihr h.2, beq_self_eq_true]
      rfl
  | missing => rfl
  | universal => rfl
  | nothing => rfl
  | attr name test value =>
      show (name == name && (test == test && value == value)) = true
      rw [beq_self_eq_true, beq_self_eq_true, beq_self_eq_true]
      rfl
  | _ => exact beq_self_eq_true (α := Bytes) _

theorem map_beq {α : Type} [BEq α] {f : α → α} {as : List α}
    (h : ∀ a ∈ as, (f a == a) = true) : (as.map f == as) = true := by
  induction as with
  | nil => rfl
  | cons a as ih =>
      rw [List.map_cons, List.cons_beq_cons, h a List.mem_cons_self,
        ih fun b hb => h b (List.mem_cons_of_mem a hb)]
      rfl

theorem append_beq {α : Type} [BEq α] {as as' bs bs' : List α} (ha : (as == as') = true)
    (hb : (bs == bs') = true) : (as ++ bs == as' ++ bs') = true := by
  induction as generalizing as' with
  | nil =>
      cases as' with
      | nil => exact hb
      | cons a' as' => cases ha
  | cons a as ih =>
      cases as' with
      | nil => cases ha
      | cons a' as' =>
          rw [List.cons_beq_cons, Bool.and_eq_true] at ha
          rw [List.cons_append, List.cons_append, List.cons_beq_cons, ha.1, ih ha.2]
          rfl

theorem declaration_beq {d : Declaration} (h : d.Runs Lexeme.Regular) :
    (p.declaration d == d) = true := by
  rcases h with ⟨run, hrun, hterms⟩
  have hd : Lexeme.Regular d.terms := hterms ▸ Parse.regular_terms hrun
  show (d.property == d.property && d.terms.map p.lexeme == d.terms) = true
  rw [Lexeme.beq_move p hd, beq_self_eq_true]
  rfl

theorem beq_declaration {d : Declaration} (h : d.Runs Lexeme.Regular) :
    (d == p.declaration d) = true := by
  rcases h with ⟨run, hrun, hterms⟩
  have hd : Lexeme.Regular d.terms := hterms ▸ Parse.regular_terms hrun
  show (d.property == d.property && d.terms == d.terms.map p.lexeme) = true
  rw [Lexeme.beq_of_tokens_eq (Lexeme.tokens_move d.terms p).symm hd, beq_self_eq_true]
  rfl

theorem rule_beq {rule : Rule} (h : rule.Runs Lexeme.Regular) : (p.rule rule == rule) = true := by
  cases rule with
  | style rule =>
      have hselectors := map_beq fun s hs => p.selector_beq (h.selectors s hs)
      have hdeclarations := map_beq fun d hd => p.declaration_beq (h.declarations d hd)
      show (rule.selectors.map p.selector == rule.selectors &&
        rule.declarations.map p.declaration == rule.declarations) = true
      rw [hselectors, hdeclarations]
      rfl
  | atRule rule =>
      have hblock : (rule.block.map (List.map p.lexeme) == rule.block) = true := by
        cases hb : rule.block with
        | none => rfl
        | some run => exact Lexeme.beq_move p (h.block run hb)
      show (rule.keyword == rule.keyword && rule.header.map p.lexeme == rule.header &&
        rule.block.map (List.map p.lexeme) == rule.block) = true
      rw [Lexeme.beq_move p h.header, hblock, beq_self_eq_true]
      rfl

theorem sheet_beq (limit : Nat) (css : Bytes) :
    ((Sheet.parse limit css).value.map p.rule == (Sheet.parse limit css).value) = true := by
  apply map_beq
  intro rule hrule
  apply p.rule_beq
  have hruns := Parse.rules_runs (Bounds.ofText limit css) (Lexeme.ofText css) rule hrule
  exact hruns.mono fun run hrun => (Lexeme.regular_ofText css).mono hrun.subset

end Shift

/-!
## Places in a text

Two texts that follow each other are two parts of one: the lexemes of the second one come after
the first part, and the end of the input after the second.
-/

namespace Cursor

theorem start_lt (text : Bytes) (line offset : Nat) :
    ∀ l ∈ lexemes { rest := text, line, offset }, l.start < offset + text.length := by
  induction text using Token.text_induction generalizing line offset with
  | nil =>
      rw [lexemes_nil]
      intro l hl
      cases hl
  | reads w t rest h ih =>
      have hlength := h.length_lt
      intro l hl
      rw [lexemes_of_reads h] at hl
      rw [List.length_append] at hlength ⊢
      rcases List.mem_cons.mp hl with rfl | hl
      · show offset < offset + (w.length + rest.length)
        omega
      · have hrest := ih _ _ l hl
        omega

end Cursor

namespace Shift

def error (p : Shift) (e : ParseError) : ParseError :=
  { e with line := e.line + p.lines, position := e.position + p.bytes }

theorem endOf_append (a b : Bytes) :
    (Shift.past a).lexeme (Lexeme.endOf b) = Lexeme.endOf (a ++ b) := by
  simp only [Shift.lexeme, Lexeme.endOf, Shift.past, List.count_append, List.length_append,
    Nat.add_comm, Nat.add_left_comm]

end Shift

namespace Frame

def first (limit : Nat) (a b : Bytes) : Frame where
  inner := Bounds.ofText limit a
  outer := Bounds.ofText limit (a ++ b)
  move := ⟨0, 0⟩
  after := (Lexeme.ofText b).map (Shift.past a).lexeme
  limit := rfl

def second (limit : Nat) (a b : Bytes) : Frame where
  inner := Bounds.ofText limit b
  outer := Bounds.ofText limit (a ++ b)
  move := Shift.past a
  after := []
  limit := rfl

theorem first_placed (limit : Nat) (a b : Bytes) :
    (first limit a b).Placed (Lexeme.ofText a) where
  before l hl := by
    have h := Cursor.start_lt a 1 0 l hl
    rw [Nat.zero_add] at h
    exact h
  beyond := by
    show a.length ≤ ((Bounds.ofText limit (a ++ b)).front
      ((Lexeme.ofText b).map (Shift.past a).lexeme)).start
    cases Lexeme.ofText b with
    | nil =>
        show a.length ≤ (a ++ b).length
        rw [List.length_append]
        exact Nat.le_add_right a.length b.length
    | cons l rest => exact Nat.le_add_left a.length l.start

theorem second_placed (limit : Nat) (a b : Bytes) :
    (second limit a b).Placed (Lexeme.ofText b) where
  before l hl := by
    have h := Cursor.start_lt b 1 0 l hl
    rw [Nat.zero_add] at h
    exact h
  beyond := by
    show b.length + a.length ≤ (a ++ b).length
    rw [List.length_append]
    exact Nat.le_of_eq (Nat.add_comm b.length a.length)

theorem second_closed (limit : Nat) (a b : Bytes) : (second limit a b).Closed :=
  ⟨rfl, (Shift.endOf_append a b).symm⟩

end Frame

namespace Sheet

/--
What is read from two texts, the first of which ends with a right brace or a semicolon.
Unless something is wrong at its end, the first one is read as if it stood alone, and so is
the second, only further down.
-/
theorem parse_append (limit : Nat) (a b : Bytes) {last : Lexeme}
    (hlast : (Lexeme.ofText a).getLast? = some last)
    (hkind : last.kind = .rightBrace ∨ last.kind = .semicolon)
    (hend : ∀ e ∈ (parse limit a).errors, e.position ≠ a.length) :
    ((parse limit (a ++ b)).value == (parse limit a).value ++ (parse limit b).value) = true ∧
      (parse limit (a ++ b)).errors =
        (parse limit a).errors ++ (parse limit b).errors.map (Shift.past a).error := by
  have hquiet : (Frame.first limit a b).Quiet
      (Parse.rules (Bounds.ofText limit a) (Lexeme.ofText a)).issues := by
    right
    rintro ⟨i, hi, hplace⟩
    exact hend i.report (List.mem_map_of_mem hi) (congrArg Lexeme.start hplace)
  have hpunctuation : Token.isPunctuation last.kind = true := by
    rcases hkind with h | h
    · rw [h]
      rfl
    · rw [h]
      rfl
  rcases List.getLast?_eq_some_iff.mp hlast with ⟨ls, hls⟩
  have htokens : Token.ofText a = Lexeme.tokens ls ++ [last.toToken] := by
    rw [Token.ofText, hls, Lexeme.tokens, List.map_append]
    rfl
  have hlexemes : Lexeme.ofText (a ++ b) = (Frame.first limit a b).run (Lexeme.ofText a) := by
    rw [Lexeme.ofText_append htokens hpunctuation]
    show _ = (Lexeme.ofText a).map id ++ (Lexeme.ofText b).map (Shift.past a).lexeme
    rw [List.map_id]
  have hfirst : Parse.rules (Bounds.ofText limit (a ++ b)) (Lexeme.ofText (a ++ b)) =
      (Frame.first limit a b).sheet
        (Parse.rules (Bounds.ofText limit a) (Lexeme.ofText a)) := by
    rw [hlexemes]
    exact (Frame.first limit a b).rules_frame (Frame.first_placed limit a b) hquiet
  have hsecond : Parse.rules (Frame.first limit a b).outer (Frame.first limit a b).after =
      (Frame.second limit a b).sheet
        (Parse.rules (Bounds.ofText limit b) (Lexeme.ofText b)) := by
    have h := (Frame.second limit a b).rules_frame (Frame.second_placed limit a b)
      (Or.inl (Frame.second_closed limit a b))
    rw [Frame.run, Frame.second, List.append_nil] at h
    exact h
  have hnothing : Parse.rules (Frame.second limit a b).outer (Frame.second limit a b).after =
      ⟨[], [], []⟩ := by
    rw [Parse.rules_eq]
    rfl
  rw [Frame.sheet, hsecond, Frame.sheet, hnothing, List.append_nil, List.append_nil] at hfirst
  constructor
  · have hvalue : (parse limit (a ++ b)).value =
        (parse limit a).value.map (Shift.mk 0 0).rule ++
          (parse limit b).value.map (Shift.past a).rule :=
      congrArg Reading.value hfirst
    rw [hvalue]
    exact Shift.append_beq (Shift.sheet_beq _ limit a) (Shift.sheet_beq _ limit b)
  · have hissues : (parse limit (a ++ b)).issues =
        (parse limit a).issues ++ (parse limit b).issues.map (Shift.past a).issue := by
      have h := congrArg Reading.issues hfirst
      have hunmoved : (Parse.rules (Bounds.ofText limit a) (Lexeme.ofText a)).issues.map
          (Shift.mk 0 0).issue = (parse limit a).issues :=
        List.map_id _
      rw [← hunmoved]
      exact h
    rw [Parsed.errors, hissues, List.map_append, List.map_map, Parsed.errors, Parsed.errors,
      List.map_map]
    rfl

/-- A value that closes what it did not open loses its declaration and no more. -/
theorem parse_append_unmatched :
    (parse 2 (ascii "a\x7bb:)\x7d")).errors.map ParseError.position = [4] ∧
    ((parse 2 (ascii "a\x7bb:)\x7d" ++ ascii "p\x7bq:r\x7d")).value ==
        (parse 2 (ascii "a\x7bb:)\x7d")).value ++ (parse 2 (ascii "p\x7bq:r\x7d")).value) =
      true ∧
      (parse 2 (ascii "a\x7bb:)\x7d" ++ ascii "p\x7bq:r\x7d")).errors =
        (parse 2 (ascii "a\x7bb:)\x7d")).errors ++
          (parse 2 (ascii "p\x7bq:r\x7d")).errors.map
            (Shift.past (ascii "a\x7bb:)\x7d")).error := by
  have hlast : (Lexeme.ofText (ascii "a\x7bb:)\x7d")).getLast? =
      some { kind := .rightBrace, value := [Byte.rightBrace], start := 5, stop := 6 } := by
    decide +kernel
  have hend : ∀ e ∈ (parse 2 (ascii "a\x7bb:)\x7d")).errors,
      e.position ≠ (ascii "a\x7bb:)\x7d").length := by
    decide +kernel
  constructor
  · decide +kernel
  · exact parse_append 2 _ _ hlast (Or.inl rfl) hend

end Sheet
end CssText
