import CssText.Proofs.Parse.Collapse
import CssText.Proofs.Token.Unescaped

/-!
# Lexemes of plain text

The lexemes of a text without escapes, comments, markup brackets and broken strings. White
space is the only thing between the others and never stands twice, names are spelled as they
are, and what was cut out of the text can be printed elsewhere.
-/

namespace CssText

open Token

structure IsPlainName (name : Bytes) : Prop extends Selector.IsName name where
  plain : Escape.identifier name = name

namespace Lexeme

def isForeign (kind : Kind) : Bool :=
  kind = .comment || kind = .cdo || kind = .cdc || kind = .badString

structure Clean (ls : List Lexeme) : Prop where
  text : ∃ text, Covers ls text ∧ Unescaped text
  kinds : ∀ l ∈ ls, isForeign l.kind = false

variable {l m : Lexeme} {ls run after : List Lexeme}

theorem Clean.suffix (h : Clean ls) (hs : after <:+ ls) : Clean after := by
  rcases h.text with ⟨text, hcovers, hu⟩
  rcases hs with ⟨pre, rfl⟩
  rw [Covers, tokens, List.map_append] at hcovers
  rcases exists_suffix_of_ofText hcovers.symm with ⟨rest, hsuffix, hrest⟩
  constructor
  · exact ⟨rest, hrest.symm, hu.suffix hsuffix⟩
  · intro l hl
    exact h.kinds l (List.mem_append_right pre hl)

theorem Clean.tail (h : Clean (l :: ls)) : Clean ls :=
  h.suffix (List.suffix_cons l ls)

theorem Clean.exists_reads (h : Clean (l :: ls)) :
    ∃ text rest, Unescaped text ∧ Reads text l.toToken rest ∧ Covers ls rest := by
  rcases h.text with ⟨text, hcovers, hu⟩
  rcases exists_reads_of_ofText hcovers.symm with ⟨rest, hreads, hrest⟩
  exact ⟨text, rest, hu, hreads, hrest.symm⟩

theorem Clean.sourced (h : Clean ls) : Sourced ls := by
  rcases h.text with ⟨text, hcovers, -⟩
  exact ⟨text, hcovers⟩

theorem Clean.isPlainName (h : Clean (l :: ls)) (hk : l.kind = .ident ∨ l.kind = .atKeyword) :
    IsPlainName l.value := by
  have hnamed : isNamed l.kind = true := by
    rcases hk with hk | hk <;> rw [hk] <;> rfl
  rcases h.exists_reads with ⟨text, rest, hu, hreads, -⟩
  constructor
  · exact h.sourced.isName hnamed
  · exact hreads.identifier_eq hu hk

theorem Clean.not_beginsName (h : Clean (l :: ls)) (hk : l.kind = .ident ∨ l.kind = .hash) :
    ∀ m ∈ ls.head?, beginsName m.kind = false := by
  intro m hm
  rcases List.head?_eq_some_iff.mp hm with ⟨ms, rfl⟩
  rcases h.text with ⟨text, hcovers, hu⟩
  exact not_beginsName_after hu hcovers.symm hk

theorem Clean.isBlank_eq (h : Clean (l :: ls)) :
    l.kind.isBlank = (l.kind = .whitespace : Bool) := by
  have hforeign := h.kinds l List.mem_cons_self
  simp only [isForeign, Bool.or_eq_false_iff] at hforeign
  rw [Kind.isBlank, hforeign.1.1.1, Bool.or_false]

theorem Clean.isInsignificant_eq (h : Clean (l :: ls)) :
    l.kind.isInsignificant = l.kind.isBlank := by
  have hforeign := h.kinds l List.mem_cons_self
  simp only [isForeign, Bool.or_eq_false_iff] at hforeign
  rw [Kind.isInsignificant, hforeign.1.1.2, hforeign.1.2, Bool.or_false, Bool.or_false]

theorem Clean.not_blank (h : Clean (l :: m :: ls)) (hk : l.kind = .whitespace) :
    m.kind.isBlank = false := by
  rcases h.text with ⟨text, hcovers, hu⟩
  rw [h.tail.isBlank_eq, decide_eq_false_iff_not]
  exact not_whitespace_after hu hcovers.symm hk

theorem Clean.tidy (h : Clean (run ++ after)) : Parse.tidy (Lexeme.kinds run) = true := by
  induction run with
  | nil => rfl
  | cons l run ih =>
      rw [List.cons_append] at h
      rw [Lexeme.kinds, List.map_cons, Parse.tidy, Bool.and_eq_true]
      constructor
      · rw [h.isInsignificant_eq, h.isBlank_eq]
        by_cases hk : l.kind = .whitespace
        · cases run with
          | nil => simp [hk]
          | cons m run =>
              have hm := h.not_blank hk
              rw [← h.tail.isInsignificant_eq] at hm
              simp [hk, hm]
        · simp [hk]
      · exact ih h.tail

/-- What was cut out of plain text can be printed in another place. -/
theorem Clean.portable (h : Clean (run ++ after)) : Token.Portable (tokens run) := by
  rcases h.text with ⟨text, hcovers, hu⟩
  rw [Covers, tokens, List.map_append] at hcovers
  apply portable_of_unescaped hu hcovers.symm
  intro t ht
  rcases List.mem_map.mp (List.mem_of_getLast? ht) with ⟨l, hl, rfl⟩
  have hforeign := h.kinds l (List.mem_append_left after hl)
  simp only [isForeign, Bool.or_eq_false_iff, decide_eq_false_iff_not] at hforeign
  exact hforeign.2

theorem Clean.portable_trim (h : Clean (run ++ after)) :
    Token.Portable (tokens (Lexeme.trim run)) := by
  rcases trim_infix_self run with ⟨pre, post, hrun⟩
  have htrim : Clean (Lexeme.trim run ++ (post ++ after)) := by
    apply h.suffix
    refine ⟨pre, ?_⟩
    rw [← List.append_assoc, ← List.append_assoc, hrun]
  exact htrim.portable

/-- The terms of a plain value are the value as it was written. -/
theorem Clean.terms_eq (h : Clean (run ++ after)) : Parse.terms run = Lexeme.trim run := by
  rw [Parse.terms, Parse.collapse_eq_self h.tidy]

end Lexeme

end CssText
