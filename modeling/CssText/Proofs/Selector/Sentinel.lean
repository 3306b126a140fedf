import CssText.Proofs.Parse.Runs

/-!
# What is left of selectors that could not be read

An issue of a selector leaves `nothing` somewhere in the tree, or it gives up the group: no
later production hides it, and nothing else puts `nothing` there. So a group is whole just
when it was read without an issue. What follows a group in its text is blamed on the text,
with a complaint of its own, and leaves the tree as it is.
-/

namespace CssText

namespace Selector

def isWhole : Selector → Bool
  | nothing => false
  | negation _ inner => inner.isWhole
  | combine _ left right => left.isWhole && right.isWhole
  | _ => true

end Selector

/-- The complaint about a text that goes on behind its selector group. -/
def Complaint.isTrailing : Complaint → Bool
  | .expected .selectorGroup .endOfInput => true
  | _ => false

def Complaint.isOfGroup : Complaint → Bool
  | .expected .selectorGroup _ => true
  | _ => false

theorem Complaint.not_isTrailing {c : Complaint} (h : c.isOfGroup = false) :
    c.isTrailing = false := by
  unfold isTrailing
  split
  · cases h
  · rfl

namespace Parse

open Selector

/-!
## Marks

The two sides of the argument go together through every production: what an issue does to
the value, and that the issue is about the production itself. A chain raises no issue about its
group, and a group raises none about what follows it.
-/

/-- A value is whole just when its reading raised no issue, and no issue is an outside one. -/
structure Marks {α : Type} (outside : Complaint → Bool) (whole : α → Bool) (r : Reading α) :
    Prop where
  whole_iff : whole r.value = true ↔ r.issues = []
  inside : ∀ i ∈ r.issues, outside i.complaint = false

section

variable {bounds : Bounds} {α : Type} {whole : α → Bool} {outside : Complaint → Bool}

theorem Marks.mono {outside' : Complaint → Bool} {r : Reading α} (h : Marks outside whole r)
    (hle : ∀ {c}, outside c = false → outside' c = false) : Marks outside' whole r :=
  ⟨h.whole_iff, fun i hi => hle (h.inside i hi)⟩

theorem marks_clean {value : α} (h : whole value = true) (rest : List Lexeme) :
    Marks outside whole { value, issues := [], rest } := by
  constructor
  · exact iff_of_true h rfl
  · intro i hi
    cases hi

/-- What fails with one more issue is marked, whatever happened before. -/
theorem marks_failed {value : α} {issues : List Issue} {i : Issue} (h : whole value = false)
    (hissues : ∀ j ∈ issues, outside j.complaint = false) (hi : outside i.complaint = false)
    (rest : List Lexeme) : Marks outside whole { value, issues := issues ++ [i], rest } := by
  constructor
  · rw [h]
    exact iff_of_false Bool.false_ne_true (List.append_ne_nil_of_right_ne_nil _ (by simp))
  · intro j hj
    rcases List.mem_append.mp hj with hj | hj
    · exact hissues j hj
    · rw [List.mem_singleton.mp hj]
      exact hi

theorem marks_single {value : α} {i : Issue} (h : whole value = false)
    (hi : outside i.complaint = false) (rest : List Lexeme) :
    Marks outside whole { value, issues := [i], rest } := by
  have hnil : ∀ j ∈ ([] : List Issue), outside j.complaint = false :=
    fun j hj => absurd hj List.not_mem_nil
  exact marks_failed h hnil hi rest

theorem Marks.both {β γ : Type} {whole' : β → Bool} {whole'' : γ → Bool} {first : Reading α}
    {next : Reading β} {value : γ} (h : Marks outside whole first)
    (h' : Marks outside whole' next)
    (hvalue : whole'' value = (whole first.value && whole' next.value)) :
    Marks outside whole'' { value, issues := first.issues ++ next.issues, rest := next.rest } := by
  constructor
  · rw [hvalue, Bool.and_eq_true, h.whole_iff, h'.whole_iff, List.append_eq_nil_iff]
  · intro i hi
    rcases List.mem_append.mp hi with hi | hi
    · exact h.inside i hi
    · exact h'.inside i hi

/-!
## Simple selectors

The issues of an inner selector stay where a negation fails, and so does its mark.
-/

theorem reject_marks {production : Production} {wanted : Wanted}
    (h : (Complaint.expected production wanted).isOfGroup = false) (ts : List Lexeme) :
    Marks Complaint.isOfGroup isWhole (reject bounds production wanted ts) :=
  marks_single rfl h _

theorem attributeSelector_marks (ts : List Lexeme) :
    Marks Complaint.isOfGroup isWhole (attributeSelector bounds ts) := by
  rcases attributeSelector_cases bounds ts with
    ⟨wanted, us, -, hread⟩ | ⟨name, after, test, value, rest, -, -, -, -, -, hread⟩
  · rw [hread]
    exact reject_marks rfl us
  · rw [hread]
    exact marks_clean rfl rest

theorem pseudoFunction_marks (name : Bytes) (ts : List Lexeme) :
    Marks Complaint.isOfGroup isWhole (pseudoFunction bounds name ts) := by
  rcases pseudoFunction_cases bounds name ts with ⟨args, -, hread⟩ | hread
  · rw [hread]
    exact marks_clean rfl _
  · rw [hread]
    exact marks_single rfl rfl _

theorem negation_marks (name : Bytes) {inner : Reading Selector}
    (h : Marks Complaint.isOfGroup isWhole inner) :
    Marks Complaint.isOfGroup isWhole (negation bounds name inner) := by
  rcases negation_cases bounds name inner with ⟨us, -, hread⟩ | ⟨rest, -, hread⟩
  · rw [hread]
    exact marks_failed rfl h.inside rfl _
  · rw [hread]
    exact ⟨h.whole_iff, h.inside⟩

theorem className_marks (ts : List Lexeme) :
    Marks Complaint.isOfGroup isWhole (className bounds ts) := by
  rcases className_cases bounds ts with hread | ⟨name, rest, -, -, hread⟩
  · rw [hread]
    exact reject_marks rfl ts
  · rw [hread]
    exact marks_clean rfl rest

theorem simple_marks (depth : Nat) (ts : List Lexeme) :
    Marks Complaint.isOfGroup isWhole (simple bounds depth ts) := by
  fun_induction simple bounds depth ts with
  | case1 depth ts hts => exact reject_marks rfl []
  | case2 depth ts l rest hts hk => exact marks_clean rfl rest
  | case3 depth ts l rest hts hk => exact marks_clean rfl rest
  | case4 depth ts l rest hts hk => exact attributeSelector_marks rest
  | case5 depth ts l hk hts => exact reject_marks rfl []
  | case6 depth ts l hk name rest hn hts => exact marks_clean rfl rest
  | case7 ts l hk name rest hn hf hname hts =>
      exact marks_single rfl rfl rest
  | case8 ts l hk name rest hn hf hname depth hts ih => exact negation_marks name.value ih
  | case9 depth ts l hk name rest hn hf hname hts => exact pseudoFunction_marks name.value rest
  | case10 depth ts l hk name rest hn hf hts => exact reject_marks rfl (name :: rest)
  | case11 depth ts l rest hts hd => exact marks_clean rfl rest
  | case12 depth ts l rest hts hd hd' => exact className_marks rest
  | case13 depth ts l rest hts hd hd' => exact reject_marks rfl (l :: rest)

/-!
## Chains and groups
-/

theorem chain_marks (depth : Nat) (place : Lexeme) (ts : List Lexeme) :
    Marks Complaint.isOfGroup (Option.any isWhole) (chain bounds depth place ts) := by
  induction depth generalizing place ts with
  | zero =>
      exact marks_single rfl rfl ts
  | succ depth ih =>
      have hfirst := @simple_marks bounds depth ts
      rw [chain]
      simp only
      split
      · exact ⟨hfirst.whole_iff, hfirst.inside⟩
      · rename_i link _
        apply hfirst.both (ih link.place link.rest)
        cases (chain bounds depth link.place link.rest).value with
        | none => exact (Bool.and_false _).symm
        | some right => rfl

theorem alternatives_marks (ts : List Lexeme) :
    Marks Complaint.isTrailing (Option.any (List.all · isWhole)) (alternatives bounds ts) := by
  have hchain (ts : List Lexeme) : Marks Complaint.isTrailing (Option.any isWhole)
      (chain bounds bounds.limit (bounds.front ts) ts) :=
    (chain_marks bounds.limit (bounds.front ts) ts).mono Complaint.not_isTrailing
  have hone {ts rest : List Lexeme} {selector : Selector}
      (hv : (chain bounds bounds.limit (bounds.front ts) ts).value = some selector) :
      Marks Complaint.isTrailing (Option.any (List.all · isWhole))
        { value := some [selector]
          issues := (chain bounds bounds.limit (bounds.front ts) ts).issues, rest } := by
    constructor
    · rw [← (hchain ts).whole_iff, hv, Option.any_some, Option.any_some,
        List.all_cons, List.all_nil, Bool.and_true]
    · exact (hchain ts).inside
  fun_induction alternatives bounds ts with
  | case1 ts first hv =>
      constructor
      · rw [← (hchain ts).whole_iff]
        exact iff_of_eq (congrArg (Option.any isWhole · = true) hv.symm)
      · exact (hchain ts).inside
  | case2 ts first selector hv h => exact hone hv
  | case3 ts first selector hv l rest h hk => exact hone hv
  | case4 ts first selector hv l rest h hk hk' hlt more ih =>
      apply (hchain ts).both ih
      rw [hv, Option.any_some]
      cases hmore : more.value with
      | none => exact (Bool.and_false _).symm
      | some group => rfl
  | case5 ts first selector hv l rest h hk hk' =>
      exact marks_failed rfl (hchain ts).inside rfl rest

theorem alternatives_ne_nil {ts : List Lexeme} {group : SelectorGroup}
    (h : (alternatives bounds ts).value = some group) : group ≠ [] := by
  rw [alternatives_eq, alternativesAfter] at h
  split at h
  · cases h
  · cases h
    exact List.cons_ne_nil _ _
  · split at h
    · cases h
      exact List.cons_ne_nil _ _
    · split at h
      · rcases Option.map_eq_some_iff.mp h with ⟨more, -, rfl⟩
        exact List.cons_ne_nil _ more
      · cases h

end

end Parse

/-!
## The trailing error

Errors are texts. That one begins with the words of the trailing complaint says which
complaint it came from, since any two complaints differ early on.
-/

def ParseError.IsTrailing (e : ParseError) : Prop :=
  ascii "SelectorGroup: end of input expected" <+: e.message

/-- Words that are neither a part nor a continuation of the trailing ones rule them out. -/
theorem not_isTrailing_of_words {i : Issue} {words rest : Bytes}
    (hmessage : i.message = words ++ rest)
    (hwords : (ascii "SelectorGroup: end of input expected").isPrefixOf words = false)
    (hwords' : words.isPrefixOf (ascii "SelectorGroup: end of input expected") = false) :
    ¬ i.report.IsTrailing := by
  rw [ParseError.IsTrailing, Issue.report, hmessage]
  intro h
  rcases List.prefix_or_prefix_of_prefix h (List.prefix_append words rest) with h | h
  · rw [List.isPrefixOf_iff_prefix.mpr h] at hwords
    cases hwords
  · rw [List.isPrefixOf_iff_prefix.mpr h] at hwords'
    cases hwords'

theorem isTrailing_report (i : Issue) :
    i.report.IsTrailing ↔ i.complaint.isTrailing = true := by
  rcases i with ⟨complaint, place⟩
  cases complaint with
  | expected production wanted =>
      cases production with
      | selectorGroup =>
          cases wanted with
          | endOfInput =>
              refine iff_of_true ?_ rfl
              exact ⟨ascii ", found " ++ place.describe, (List.append_assoc _ _ _).symm⟩
          | _ => exact iff_of_false (not_isTrailing_of_words rfl rfl rfl) Bool.false_ne_true
      | _ => exact iff_of_false (not_isTrailing_of_words rfl rfl rfl) Bool.false_ne_true
  | unexpected =>
      exact iff_of_false (not_isTrailing_of_words rfl rfl rfl) Bool.false_ne_true
  | unmatched =>
      exact iff_of_false (not_isTrailing_of_words rfl rfl rfl) Bool.false_ne_true
  | strayBrace production =>
      have hmessage := (List.append_nil (production.name ++ ascii ": unexpected '\x7d'")).symm
      cases production with
      | _ => exact iff_of_false (not_isTrailing_of_words hmessage rfl rfl) Bool.false_ne_true
  | tooDeep limit =>
      have hmessage := List.append_assoc (ascii "nesting deeper than ") (decimal limit)
        (ascii " levels")
      exact iff_of_false (not_isTrailing_of_words hmessage rfl rfl) Bool.false_ne_true

namespace SelectorGroup

theorem not_isTrailing_single {issues : List Issue} {e : ParseError}
    (h : ∀ i ∈ issues, i.complaint.isTrailing = false) (he : issues.map Issue.report = [e]) :
    ¬ e.IsTrailing := by
  rcases List.map_eq_singleton_iff.mp he with ⟨i, rfl, rfl⟩
  rw [isTrailing_report, h i (List.mem_singleton_self i)]
  exact Bool.false_ne_true

/--
A group that was read is whole just when no error was raised, but for the one that says what
is left of the text.
-/
theorem parse_whole_iff (limit : Nat) (css : Bytes) :
    ((parse limit css).value ≠ [] ∧ ∀ s ∈ (parse limit css).value, s.isWhole = true) ↔
      (parse limit css).errors = [] ∨
        ∃ e, (parse limit css).errors = [e] ∧ e.IsTrailing := by
  have hmarks := @Parse.alternatives_marks (Bounds.ofText limit css) (Lexeme.ofText css)
  have hne := @Parse.alternatives_ne_nil (Bounds.ofText limit css) (Lexeme.ofText css)
  have hparse : parse limit css = Parse.endGroup
      (Parse.alternatives (Bounds.ofText limit css) (Lexeme.ofText css)) := rfl
  rw [hparse, Parsed.errors]
  generalize Parse.alternatives (Bounds.ofText limit css) (Lexeme.ofText css) = group
    at hmarks hne ⊢
  rcases hmarks with ⟨hwhole, hinside⟩
  rcases Parse.endGroup_cases group with
    ⟨hvalue, hend⟩ | ⟨selectors, hvalue, hend⟩
  · rw [hend]
    rw [hvalue] at hwhole
    refine iff_of_false (fun h => h.1 rfl) ?_
    rintro (h | ⟨e, he, htrailing⟩)
    · exact Bool.false_ne_true (hwhole.mpr (List.map_eq_nil_iff.mp h))
    · exact not_isTrailing_single hinside he htrailing
  · have hgroup : (selectors ≠ [] ∧ ∀ s ∈ selectors, s.isWhole = true) ↔ group.issues = [] := by
      rw [← hwhole, hvalue, Option.any_some, List.all_eq_true]
      exact and_iff_right (hne hvalue)
    rcases hend with hend | ⟨l, hend⟩
    · rw [hend, hgroup]
      constructor
      · intro h
        exact Or.inl (List.map_eq_nil_iff.mpr h)
      · rintro (h | ⟨e, he, htrailing⟩)
        · exact List.map_eq_nil_iff.mp h
        · exact absurd htrailing (not_isTrailing_single hinside he)
    · rw [hend, hgroup, List.map_append, List.map_singleton]
      constructor
      · intro h
        rw [h]
        exact Or.inr ⟨_, rfl, (isTrailing_report _).mpr rfl⟩
      · rintro (h | ⟨e, he, -⟩)
        · exact absurd (List.append_eq_nil_iff.mp h).2 (List.cons_ne_nil _ _)
        · have hlength := congrArg List.length he
          rw [List.length_append, List.length_map] at hlength
          exact List.length_eq_zero_iff.mp (Nat.succ.inj hlength)

end SelectorGroup
end CssText
