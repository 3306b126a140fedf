import CssText.Proofs.Parse.Turns

/-!
# How rules fail

Within a rule nearly every failure is caught where it happens. Selectors that cannot be read
become `nothing`, declarations are skipped, and what selectors and declarations leave is what
the rule goes on with. So a rule fails for two reasons only: something in it nests deeper than
the limit, or the input gives out (`FailsLate`). The branches of a rule for another lexeme in
place of a comma or a brace are never taken.
-/

namespace CssText
namespace Parse

/--
If the production fails, it does so with the last issue that it raised. That issue is about the
limit, or about the end of the input, and then nothing is left.
-/
def FailsLate {α : Type} (bounds : Bounds) (r : Reading (Option α)) : Prop :=
  r.value = none → ∃ raised last, r.issues = raised ++ [last] ∧
    (last.complaint = .tooDeep bounds.limit ∨ (last.place = bounds.final ∧ r.rest = []))

section

variable {bounds : Bounds} {α β : Type} {ts : List Lexeme}

theorem failsLate_some (value : α) (issues : List Issue) (rest : List Lexeme) :
    FailsLate bounds { value := some value, issues, rest } := by
  intro h
  cases h

theorem failsLate_tooDeep (place : Lexeme) (rest : List Lexeme) :
    FailsLate bounds
      ({ value := none, issues := [⟨.tooDeep bounds.limit, place⟩], rest } :
        Reading (Option α)) := by
  intro _
  exact ⟨[], _, rfl, Or.inl rfl⟩

theorem failsLate_end (complaint : Complaint) (raised : List Issue) :
    FailsLate bounds
      ({ value := none, issues := raised ++ [⟨complaint, bounds.final⟩], rest := [] } :
        Reading (Option α)) := by
  intro _
  exact ⟨raised, _, rfl, Or.inr ⟨rfl, rfl⟩⟩

theorem FailsLate.map {r : Reading (Option α)} (h : FailsLate bounds r) (f : α → β) :
    FailsLate bounds { r with value := r.value.map f } := by
  intro hnone
  exact h (Option.map_eq_none_iff.mp hnone)

theorem FailsLate.after {r : Reading (Option α)} (h : FailsLate bounds r)
    (issues : List Issue) : FailsLate bounds { r with issues := issues ++ r.issues } := by
  intro hnone
  rcases h hnone with ⟨raised, last, hissues, hlast⟩
  refine ⟨issues ++ raised, last, ?_, hlast⟩
  rw [hissues, List.append_assoc]

/-!
## At-rules
-/

theorem components_failsLate (around : List Bracket) (ends : Kind → Bool)
    (opened : List Bracket) (ts : List Lexeme) :
    FailsLate bounds (components bounds around ends opened ts) := by
  refine components_induction (motive := fun _ r => FailsLate bounds r)
    opened ts ?missing ?stop ?take ?refuse
  case missing =>
    intro opened
    exact failsLate_end _ []
  case stop =>
    intro l rest hl
    exact failsLate_some _ _ _
  case take =>
    intro l rest more ih
    exact ih.map (l :: ·)
  case refuse =>
    intro l rest
    exact failsLate_tooDeep l (l :: rest)

theorem block_failsLate (ts : List Lexeme) : FailsLate bounds (block bounds ts) := by
  have hbody := @components_failsLate bounds [.curly] endsBlock [] ts
  unfold block
  simp only
  split
  · exact hbody
  · exact failsLate_some _ _ _

theorem atRule_failsLate (keyword : Bytes) (ts : List Lexeme) :
    FailsLate bounds (atRule bounds keyword ts) := by
  have hrun := @components_failsLate bounds [] endsHeader [] ts
  unfold atRule
  simp only
  split
  · rename_i header l rest _ _
    split
    · exact failsLate_some _ _ _
    · split
      · exact failsLate_tooDeep l (l :: rest)
      · exact (block_failsLate rest).map _
  · rename_i hnot
    -- a header that was read ends before a lexeme, so here none was
    have hnone : (components bounds [] endsHeader [] ts).value = none := by
      cases hv : (components bounds [] endsHeader [] ts).value with
      | none => rfl
      | some header =>
          rcases components_stop hv with ⟨l, rest, hrest, -⟩
          exact absurd hrest (hnot header l rest hv)
    intro _
    exact hrun hnone

/-!
## Selectors

A group that was read ends before a left brace or nothing at all.
-/

theorem chain_failsLate (depth : Nat) (place : Lexeme) (ts : List Lexeme) :
    FailsLate bounds (chain bounds depth place ts) := by
  induction depth generalizing place ts with
  | zero => exact failsLate_tooDeep place ts
  | succ depth ih =>
      rw [chain]
      simp only
      split
      · exact failsLate_some _ _ _
      · rename_i link _
        exact ((ih link.place link.rest).map _).after _

theorem alternatives_failsLate (hts : Unended ts) :
    FailsLate bounds (alternatives bounds ts) := by
  fun_induction alternatives bounds ts with
  | case1 ts first hv =>
      intro _
      exact chain_failsLate bounds.limit (bounds.front ts) ts hv
  | case2 ts first selector hv h => exact failsLate_some _ _ _
  | case3 ts first selector hv l rest h hk => exact failsLate_some _ _ _
  | case4 ts first selector hv l rest h hk hk' hlt more ih =>
      have hrest : l :: rest <:+ ts :=
        h ▸ chain_suffix bounds bounds.limit (bounds.front ts) ts
      have hmore := (dropInsignificant_suffix rest).trans ((List.suffix_cons l rest).trans hrest)
      exact ((ih (hts.mono hmore)).map _).after _
  | case5 ts first selector hv l rest h hk hk' =>
      have hsome : (chain bounds bounds.limit (bounds.front ts) ts).value ≠ none :=
        fun hnone => Option.some_ne_none selector (hv.symm.trans hnone)
      have hmem : l ∈ (chain bounds bounds.limit (bounds.front ts) ts).rest.head? :=
        congrArg List.head? h
      exact absurd (chain_stop hts hsome l hmem) (not_or.mpr ⟨hk, hk'⟩)

theorem alternatives_stop (hv : (alternatives bounds ts).value ≠ none) :
    ∀ l ∈ (alternatives bounds ts).rest.head?, l.kind = .leftBrace := by
  fun_induction alternatives bounds ts with
  | case1 ts first hnone => exact absurd rfl hv
  | case2 ts first selector hs h =>
      intro l hl
      cases hl
  | case3 ts first selector hs l rest h hk =>
      rintro _ ⟨⟩
      exact hk
  | case4 ts first selector hs l rest h hk hk' hlt more ih =>
      exact ih fun hnone => hv (Option.map_eq_none_iff.mpr hnone)
  | case5 ts first selector hs l rest h hk hk' => exact absurd rfl hv

theorem ruleSelectors_failsLate (hts : Unended ts) :
    FailsLate bounds (ruleSelectors bounds ts) := by
  unfold ruleSelectors
  split
  · exact failsLate_some _ _ _
  · exact alternatives_failsLate hts

theorem ruleSelectors_stop (hv : (ruleSelectors bounds ts).value ≠ none) :
    ∀ l ∈ (ruleSelectors bounds ts).rest.head?, l.kind = .leftBrace := by
  unfold ruleSelectors at hv ⊢
  split at hv
  · rename_i hbrace
    rw [if_pos hbrace]
    intro l hl
    rw [Bounds.front, hl] at hbrace
    exact hbrace
  · rename_i hbrace
    rw [if_neg hbrace]
    exact alternatives_stop hv

/-!
## Style rules

Nothing is dropped in front of a left brace. The block of a rule ends with the input or with its
brace, so nothing has to be skipped.
-/

theorem brace_of_dropInsignificant {us rest : List Lexeme} {l : Lexeme}
    (h : ∀ m ∈ us.head?, m.kind = .leftBrace) (hrest : dropInsignificant us = l :: rest) :
    l.kind = .leftBrace := by
  cases us with
  | nil => cases hrest
  | cons m us =>
      have hm : m.kind = .leftBrace := h m rfl
      rw [dropInsignificant_self (by rw [hm]; rfl)] at hrest
      rw [← (List.cons.inj hrest).1]
      exact hm

/-- The block of a rule ends with the input or with its brace, and nothing has to be skipped. -/
theorem ruleBody_cases (selectors : SelectorGroup) (ts : List Lexeme) :
    ((declarations bounds true ts).rest = [] ∧
        ruleBody bounds selectors ts =
          { value := none
            issues := (declarations bounds true ts).issues ++
              [⟨.expected .styleRule .closeBrace, bounds.final⟩]
            rest := [] }) ∨
      ∃ rest, ruleBody bounds selectors ts =
        { value := some { selectors, declarations := (declarations bounds true ts).value }
          issues := (declarations bounds true ts).issues
          rest } := by
  unfold ruleBody
  simp only
  rcases declarations_stop bounds ts with hnil | ⟨l, rest, hrest, hbrace⟩
  · rw [hnil]
    exact Or.inl ⟨rfl, rfl⟩
  · have hsignificant : l.kind.isInsignificant = false := by
      rw [hbrace]
      rfl
    rw [hrest, dropInsignificant_self hsignificant]
    simp only [hbrace, if_true]
    exact Or.inr ⟨rest, rfl⟩

theorem ruleBody_failsLate (selectors : SelectorGroup) (ts : List Lexeme) :
    FailsLate bounds (ruleBody bounds selectors ts) := by
  rcases @ruleBody_cases bounds selectors ts with ⟨-, hbody⟩ | ⟨rest, hbody⟩
  · rw [hbody]
    exact failsLate_end _ _
  · rw [hbody]
    exact failsLate_some _ _ _

theorem styleRule_failsLate (hts : Unended ts) : FailsLate bounds (styleRule bounds ts) := by
  have hselectors := @ruleSelectors_failsLate bounds ts hts
  have hstop := @ruleSelectors_stop bounds ts
  unfold styleRule
  simp only
  split
  · rename_i hnone
    intro _
    exact hselectors hnone
  · rename_i group hgroup
    split
    · exact failsLate_end _ _
    · rename_i l rest hrest
      have hsome : (ruleSelectors bounds ts).value ≠ none := hgroup ▸ Option.some_ne_none group
      have hbrace : l.kind = .leftBrace := brace_of_dropInsignificant (hstop hsome) hrest
      rw [if_pos hbrace]
      exact (ruleBody_failsLate group rest).after _

end

end Parse
end CssText
