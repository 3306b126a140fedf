import CssText.Proofs.Parse.Failure
import CssText.Proofs.Sheet.HigherLimit
import CssText.Proofs.Sheet.Progress

/-!
# Rules that are dropped

A sheet is read rule by rule (`ruleStarts`). A rule that fails without being too deep has met
the end of the text, so it is the last one, and a block that was open has no lexeme left to be
skipped (`parse_failures`).
-/

namespace CssText
namespace Parse

/-!
## Where rules begin

A sheet is its first rule, whatever its form, and the sheet that follows it. So each rule of a
sheet was begun somewhere, and what the rules that are begun object to is what the sheet reports.
-/

def readRule (bounds : Bounds) (ts : List Lexeme) : Reading (Option Rule) :=
  if (bounds.front ts).kind = .atKeyword then
    let rule := atRule bounds (bounds.front ts).value ts.tail
    { rule with value := rule.value.map .atRule }
  else
    let rule := styleRule bounds ts
    { rule with value := rule.value.map .style }

def afterRule (bounds : Bounds) (l : Lexeme) (rest : List Lexeme) : List Lexeme :=
  let rule := readRule bounds (l :: rest)
  if l.kind = .atKeyword || rule.value.isSome then rule.rest
  else resume bounds l rest rule.rest

theorem afterRule_suffix (bounds : Bounds) (l : Lexeme) (rest : List Lexeme) :
    afterRule bounds l rest <:+ rest := by
  have hfront : bounds.front (l :: rest) = l := rfl
  have hstyle := styleRule_passed bounds l rest
  rw [afterRule, readRule, hfront]
  by_cases hat : l.kind = .atKeyword
  · simp only [hat, if_true, decide_true, Bool.true_or]
    exact atRule_suffix bounds l.value rest
  · simp only [hat, if_false, decide_false, Bool.false_or, Option.isSome_map]
    exact hstyle

/-- The places in a sheet where a rule is begun. -/
def ruleStarts (bounds : Bounds) (ts : List Lexeme) : List (List Lexeme) :=
  match h : dropInsignificant ts with
  | [] => []
  | l :: rest =>
      have hlt : rest.length < ts.length := (Passed.of_dropInsignificant h (List.suffix_refl _)).2
      if l.kind = .rightBrace then
        ruleStarts bounds rest
      else
        have : (afterRule bounds l rest).length < ts.length :=
          Nat.lt_of_le_of_lt (afterRule_suffix bounds l rest).length_le hlt
        (l :: rest) :: ruleStarts bounds (afterRule bounds l rest)
termination_by ts.length

variable {bounds : Bounds} {ts rest : List Lexeme} {l : Lexeme}

theorem rules_nil (h : dropInsignificant ts = []) :
    rules bounds ts = { value := [], issues := [], rest := [] } := by
  rw [rules_eq, h]
  rfl

theorem rules_brace (h : dropInsignificant ts = l :: rest) (hl : l.kind = .rightBrace) :
    rules bounds ts = consIssue ⟨.strayBrace .styleSheet, l⟩ (rules bounds rest) := by
  rw [rules_eq, h, rulesAfter, if_pos hl]

theorem rules_rule (h : dropInsignificant ts = l :: rest) (hl : l.kind ≠ .rightBrace) :
    rules bounds ts =
      consRule (readRule bounds (l :: rest)).value (readRule bounds (l :: rest)).issues
        (rules bounds (afterRule bounds l rest)) := by
  have hfront : bounds.front (l :: rest) = l := rfl
  rw [rules_eq, h, rulesAfter, if_neg hl, afterRule, readRule, hfront]
  by_cases hat : l.kind = .atKeyword
  · simp only [hat, if_true, decide_true, Bool.true_or]
    rfl
  · simp only [hat, if_false, decide_false, Bool.false_or, Option.isSome_map]
    cases hv : (styleRule bounds (l :: rest)).value with
    | none => rfl
    | some rule => rfl

theorem rules_starts (bounds : Bounds) (ts : List Lexeme) :
    (rules bounds ts).value =
      (ruleStarts bounds ts).filterMap fun us => (readRule bounds us).value := by
  fun_induction ruleStarts bounds ts with
  | case1 ts h => rw [rules_nil h, List.filterMap_nil]
  | case2 ts l rest h hlt hbrace ih =>
      rw [rules_brace h hbrace]
      exact ih
  | case3 ts l rest h hlt hbrace hlt' ih =>
      rw [rules_rule h hbrace, consRule, ih, List.filterMap_cons]
      cases (readRule bounds (l :: rest)).value with
      | none => rfl
      | some rule => rfl

theorem ruleStarts_suffix : ∀ us ∈ ruleStarts bounds ts, us <:+ ts := by
  fun_induction ruleStarts bounds ts with
  | case1 ts h =>
      intro us hus
      cases hus
  | case2 ts l rest h hlt hbrace ih =>
      intro us hus
      exact (ih us hus).trans (suffix_of_dropInsignificant h)
  | case3 ts l rest h hlt hbrace hlt' ih =>
      intro us hus
      rcases List.mem_cons.mp hus with rfl | hus
      · exact h ▸ dropInsignificant_suffix ts
      · exact (ih us hus).trans
          ((afterRule_suffix bounds l rest).trans (suffix_of_dropInsignificant h))

theorem ruleStarts_issues :
    ∀ us ∈ ruleStarts bounds ts, (readRule bounds us).issues ⊆ (rules bounds ts).issues := by
  fun_induction ruleStarts bounds ts with
  | case1 ts h =>
      intro us hus
      cases hus
  | case2 ts l rest h hlt hbrace ih =>
      rw [rules_brace h hbrace]
      intro us hus
      exact List.subset_cons_of_subset _ (ih us hus)
  | case3 ts l rest h hlt hbrace hlt' ih =>
      rw [rules_rule h hbrace]
      intro us hus
      rcases List.mem_cons.mp hus with rfl | hus
      · exact List.subset_append_left _ _
      · exact List.subset_append_of_subset_right _ (ih us hus)

/-!
## Rules that fail

A rule that leaves nothing is the last one. So where nothing is too deep every rule but the last
that is begun is read.
-/

theorem readRule_failsLate (hts : Unended ts) : FailsLate bounds (readRule bounds ts) := by
  unfold readRule
  split
  · exact (atRule_failsLate _ ts.tail).map Rule.atRule
  · exact (styleRule_failsLate hts).map Rule.style

theorem afterRule_nil (hts : Ascending bounds (l :: rest))
    (hrest : (readRule bounds (l :: rest)).rest = []) : afterRule bounds l rest = [] := by
  rw [afterRule]
  simp only [hrest]
  split
  · rfl
  · exact List.suffix_nil.mp (resume_suffix_after hts List.nil_suffix)

theorem ruleStarts_nil : ruleStarts bounds [] = [] := by
  rw [ruleStarts]
  rfl

theorem readRule_of_not_last (hunended : Unended ts) (hts : Ascending bounds ts)
    (hshallow : Shallow (rules bounds ts).issues) :
    ∀ us ∈ (ruleStarts bounds ts).dropLast, (readRule bounds us).value ≠ none := by
  fun_induction ruleStarts bounds ts with
  | case1 ts h =>
      intro us hus
      cases hus
  | case2 ts l rest h hlt hbrace ih =>
      have hrest := suffix_of_dropInsignificant h
      rw [rules_brace h hbrace] at hshallow
      exact ih (hunended.mono hrest) (hts.mono hrest) hshallow.tail
  | case3 ts l rest h hlt hbrace hlt' ih =>
      have hcons : l :: rest <:+ ts := h ▸ dropInsignificant_suffix ts
      have hafter := (afterRule_suffix bounds l rest).trans (suffix_of_dropInsignificant h)
      rw [rules_rule h hbrace] at hshallow
      have hmore := ih (hunended.mono hafter) (hts.mono hafter) hshallow.right
      intro us hus
      cases hstarts : ruleStarts bounds (afterRule bounds l rest) with
      | nil =>
          rw [hstarts] at hus
          cases hus
      | cons vs starts =>
          rw [hstarts] at hus hmore
          rcases List.mem_cons.mp hus with rfl | hus
          · intro hnone
            rcases readRule_failsLate (hunended.mono hcons) hnone with
              ⟨raised, last, hissues, hdeep | ⟨-, hrest⟩⟩
            · have hlast : last ∈ (readRule bounds (l :: rest)).issues :=
                hissues ▸ List.mem_append_right raised (List.mem_singleton_self last)
              have hnot := hshallow.left last hlast
              rw [hdeep] at hnot
              cases hnot
            · rw [afterRule_nil (hts.mono hcons) hrest, ruleStarts_nil] at hstarts
              cases hstarts
          · exact hmore us hus

/-!
## Open blocks

A style rule that fails in its block has come to the end of the input there.
-/

/-- The lexemes behind the brace of a style rule, once its block has been opened. -/
def openBlock? (bounds : Bounds) (ts : List Lexeme) : Option (List Lexeme) :=
  match (ruleSelectors bounds ts).value, dropInsignificant (ruleSelectors bounds ts).rest with
  | some _, l :: block => if l.kind = .leftBrace then some block else none
  | _, _ => none

theorem styleRule_of_openBlock {block : List Lexeme} (hopen : openBlock? bounds ts = some block)
    (hnone : (styleRule bounds ts).value = none) :
    (declarations bounds true block).rest = [] ∧ (styleRule bounds ts).rest = [] := by
  unfold openBlock? at hopen
  unfold styleRule at hnone ⊢
  simp only at hnone ⊢
  split at hopen
  · rename_i group l rest hgroup hrest
    simp only [hgroup, hrest] at hnone ⊢
    split at hopen
    · rename_i hbrace
      obtain rfl : rest = block := Option.some.inj hopen
      simp only [hbrace, if_true] at hnone ⊢
      rcases @ruleBody_cases bounds group rest with ⟨hnil, hbody⟩ | ⟨after, hbody⟩
      · rw [hbody]
        exact ⟨hnil, rfl⟩
      · rw [hbody] at hnone
        cases hnone
    · cases hopen
  · cases hopen

end Parse

/-!
## Sheets
-/

open Parse

def Issue.IsLate (limit : Nat) (css : Bytes) (i : Issue) : Prop :=
  i.complaint = .tooDeep limit ∨ (i.place.kind = .endOfInput ∧ i.report.position = css.length)

/-- How the rules of a sheet fail, and what becomes of them. -/
structure Sheet.Failures (limit : Nat) (css : Bytes) : Prop where
  /-- A rule fails with the last issue that it raised, wherever in the text it is read. -/
  late : ∀ us, us <:+ Lexeme.ofText css →
    (readRule (Bounds.ofText limit css) us).value = none →
      ∃ raised last, (readRule (Bounds.ofText limit css) us).issues = raised ++ [last] ∧
        last.IsLate limit css
  starts : ∀ us ∈ ruleStarts (Bounds.ofText limit css) (Lexeme.ofText css),
    us <:+ Lexeme.ofText css ∧
      (readRule (Bounds.ofText limit css) us).issues ⊆ (Sheet.parse limit css).issues
  /-- The rules of a sheet are those that were begun, without those that failed. -/
  kept : (Sheet.parse limit css).value =
    (ruleStarts (Bounds.ofText limit css) (Lexeme.ofText css)).filterMap fun us =>
      (readRule (Bounds.ofText limit css) us).value
  dropped : (∀ e ∈ (Sheet.parse limit css).errors, e.isTooDeep = false) →
    ∀ us ∈ (ruleStarts (Bounds.ofText limit css) (Lexeme.ofText css)).dropLast,
      (readRule (Bounds.ofText limit css) us).value ≠ none
  /-- Where a block was opened, the declarations leave nothing that could be skipped. -/
  block : ∀ us block,
    openBlock? (Bounds.ofText limit css) us = some block →
      (styleRule (Bounds.ofText limit css) us).value = none →
        (declarations (Bounds.ofText limit css) true block).rest = [] ∧
          (styleRule (Bounds.ofText limit css) us).rest = []

theorem parse_failures (limit : Nat) (css : Bytes) : Sheet.Failures limit css := by
  have hunended := unended_ofText css
  have horder := ascending_ofText limit css
  constructor
  · intro us hus hnone
    rcases readRule_failsLate (hunended.mono hus) hnone with
      ⟨raised, last, hissues, hdeep | ⟨hplace, -⟩⟩
    · exact ⟨raised, last, hissues, Or.inl hdeep⟩
    · refine ⟨raised, last, hissues, Or.inr ?_⟩
      rw [Issue.report, hplace]
      exact ⟨rfl, rfl⟩
  · intro us hus
    exact ⟨ruleStarts_suffix us hus, ruleStarts_issues us hus⟩
  · exact rules_starts _ _
  · intro herrors
    exact readRule_of_not_last hunended horder (shallow_of_errors herrors)
  · intro us block hopen hnone
    exact styleRule_of_openBlock hopen hnone

/-- The second rule is not closed. It is dropped, and its error stands at the end. -/
example :
    (Sheet.parse 1 (ascii "a\x7b\x7db\x7bc:d")).value.length = 1 ∧
      (Sheet.parse 1 (ascii "a\x7b\x7db\x7bc:d")).errors.map ParseError.position = [8] := by
  decide +kernel

end CssText
