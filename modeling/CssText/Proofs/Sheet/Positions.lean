import CssText.Proofs.Parse.Isolation
import CssText.Proofs.Parse.Walk
import CssText.Proofs.Token.Tiling

/-!
# Where errors stand

The lexemes of a text ascend, and readers walk along them. So an error stands at a token of
the text, in the line that this begins in, and no error is reported before one that stands
further up (`parse_errors_located`).
-/

namespace CssText

namespace Cursor

theorem pairwise_start (text : Bytes) (line offset : Nat) :
    (lexemes { rest := text, line, offset }).Pairwise fun l m => l.start < m.start := by
  induction text using Token.text_induction generalizing line offset with
  | nil =>
      rw [lexemes_nil]
      exact List.Pairwise.nil
  | reads w t rest h ih =>
      rw [lexemes_of_reads h]
      refine List.Pairwise.cons ?_ (ih _ _)
      intro l hl
      have hle := le_start rest _ _ l hl
      have hlength := h.length_lt
      rw [List.length_append] at hlength
      show offset < l.start
      omega

end Cursor

namespace Parse

theorem ascending_ofText (limit : Nat) (css : Bytes) :
    Ascending (Bounds.ofText limit css) (Lexeme.ofText css) := by
  refine List.pairwise_append.mpr ⟨Cursor.pairwise_start css 1 0, List.pairwise_singleton _ _, ?_⟩
  intro l hl m hm
  have hlt := Cursor.start_lt css 1 0 l hl
  rw [List.mem_singleton.mp hm]
  rw [Nat.zero_add] at hlt
  exact hlt

end Parse

namespace ParseError

/--
Each error stands at a token of the text, in the line where this token begins, and the errors
stand in the order of their places.
-/
structure Located (css : Bytes) (errors : List ParseError) : Prop where
  position_le : ∀ e ∈ errors, e.position ≤ css.length
  line_eq : ∀ e ∈ errors, e.line = 1 + (css.take e.position).count Byte.newline
  token : ∀ e ∈ errors, ∃ l ∈ tokenize css, l.start = e.position
  order : (errors.map position).Pairwise (· ≤ ·)

theorem located_of_walk {limit : Nat} {css : Bytes} {issues : List Issue} {rest : List Lexeme}
    (h : Parse.Walk (Bounds.ofText limit css) (Lexeme.ofText css) issues rest) :
    Located css (issues.map Issue.report) := by
  have hplace : ∀ e ∈ issues.map Issue.report,
      ∃ l ∈ tokenize css, l.start = e.position ∧ l.line = e.line := by
    intro e he
    rcases List.mem_map.mp he with ⟨i, hi, rfl⟩
    exact ⟨i.place, h.place_mem i hi, rfl, rfl⟩
  constructor
  · intro e he
    rcases hplace e he with ⟨l, hl, hstart, -⟩
    rw [← hstart]
    rcases List.mem_append.mp hl with hl | hl
    · have hlt := Cursor.start_lt css 1 0 l hl
      omega
    · rw [List.mem_singleton.mp hl]
      exact Nat.le_refl _
  · intro e he
    rcases hplace e he with ⟨l, hl, hstart, hline⟩
    rw [← hstart, ← hline]
    rcases List.mem_append.mp hl with hl | hl
    · exact (Cursor.mem_between [] css l hl).2.2
    · rw [List.mem_singleton.mp hl]
      show _ = 1 + (css.take css.length).count Byte.newline
      rw [List.take_length]
      rfl
  · intro e he
    rcases hplace e he with ⟨l, hl, hstart, -⟩
    exact ⟨l, hl, hstart⟩
  · rw [List.pairwise_map, List.pairwise_map]
    exact h.order (Parse.ascending_ofText limit css)

end ParseError

/--
Whatever text is read, and under whatever limit: its errors stand at tokens of the text and
come in the order of the text.
-/
theorem parse_errors_located (limit : Nat) (css : Bytes) :
    ParseError.Located css (Sheet.parse limit css).errors ∧
      ParseError.Located css (Declaration.parseList limit css).errors ∧
      ParseError.Located css (SelectorGroup.parse limit css).errors := by
  refine ⟨?_, ?_, ?_⟩
  · exact ParseError.located_of_walk (Parse.rules_walk (Parse.ascending_ofText limit css))
  · exact ParseError.located_of_walk (Parse.declarations_walk false (Lexeme.ofText css))
  · have hgroup := @Parse.alternatives_walk (Bounds.ofText limit css) (Lexeme.ofText css)
    unfold SelectorGroup.parse
    simp only
    split
    · exact ParseError.located_of_walk hgroup
    · split
      · exact ParseError.located_of_walk hgroup
      · rename_i l rest h
        have hend := @Parse.Walk.blame (Bounds.ofText limit css) _
          (.expected .selectorGroup .endOfInput) (l :: rest) (List.suffix_refl _)
        exact ParseError.located_of_walk
          (hgroup.trans (hend.after (h ▸ Parse.dropBlank_suffix _)))

end CssText
