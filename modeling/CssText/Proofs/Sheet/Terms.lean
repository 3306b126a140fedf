import CssText.Proofs.Sheet.Source

/-!
# Terms are read back

The terms of a declaration are read back from their own printed form, whatever its property is
called and whatever else there is in its text. No line break is lost for that: a value may end
in a lone backslash, behind which nothing is printed. Only what an escape kept apart in the
source runs together (`Token.Legible`).
-/

namespace CssText
namespace Declaration

/--
The terms of a declaration of a list, or of a style rule of a sheet, are the tokens of their
printed form, if none of them run together in it.
-/
theorem retokenizes_terms {limit : Nat} {css : Bytes} {d : Declaration}
    (hd : d ∈ (parseList limit css).value ∨
      ∃ rule, Rule.style rule ∈ (Sheet.parse limit css).value ∧ d ∈ rule.declarations)
    (hlegible : Token.Legible (Lexeme.tokens d.terms)) : retokenizes d.terms = true := by
  rcases origin_of_parse hd with ⟨property, rest, hs, -, hvalue⟩
  have hsource := (Lexeme.sourced_ofText css).suffix hs
  have hread := Parse.declaration_terms hsource hvalue hlegible
  apply Lexeme.beq_of_tokens_eq hread
  intro t ht
  exact Token.same_self_of_mem ht

theorem retokenizes_terms_commented :
    ∃ d ∈ (parseList 1 (ascii "a\\:b:\\63/**/d!\\\n;")).value,
      Token.Legible (Lexeme.tokens d.terms) ∧ retokenizes d.terms = true := by
  have hread : ∃ d ∈ (parseList 1 (ascii "a\\:b:\\63/**/d!\\\n;")).value,
      Token.Legible (Lexeme.tokens d.terms) := by
    decide +kernel
  rcases hread with ⟨d, hd, hlegible⟩
  exact ⟨d, hd, hlegible, retokenizes_terms (Or.inl hd) hlegible⟩

/-- A name of hyphens that an escape kept apart from the sign behind it is printed as a markup
bracket. -/
theorem retokenizes_terms_escaped :
    ∃ d ∈ (parseList defaultLimit (ascii "a:\\-->")).value, retokenizes d.terms = false := by
  decide +kernel

end Declaration
end CssText
