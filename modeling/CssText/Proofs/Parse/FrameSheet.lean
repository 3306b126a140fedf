import CssText.Proofs.Parse.FrameValue

/-!
# Reading rules inside a longer text

A rule that is read without a word about the end of its text reads the same in a frame. Of
the rules of a whole part this says that they come first, and that the rules of what follows
are read as if it stood alone (`rules_frame`).
-/

namespace CssText

namespace Shift

variable (p : Shift)

def styleRule (rule : StyleRule) : StyleRule :=
  { selectors := rule.selectors.map p.selector
    declarations := rule.declarations.map p.declaration }

def rule : Rule → Rule
  | .style r => .style (p.styleRule r)
  | .atRule r => .atRule (p.atRule r)

end Shift

namespace Frame

open Parse

variable (F : Frame)

theorem ruleSelectors_frame {ts : List Lexeme} (hts : F.Fits ts)
    (h : (ruleSelectors F.inner ts).value = none ∨ F.Fits (ruleSelectors F.inner ts).rest) :
    ruleSelectors F.outer (F.run ts) =
      F.reading (Option.map (List.map F.move.selector)) (ruleSelectors F.inner ts) := by
  rw [ruleSelectors] at h
  rw [ruleSelectors, ruleSelectors]
  simp only [F.front_run hts, Shift.lexeme_toToken]
  by_cases hbrace : (F.inner.front ts).kind = .leftBrace
  · simp only [hbrace, if_true]
    rfl
  · simp only [hbrace, if_false] at h ⊢
    exact F.alternatives_frame hts h

variable {F}

theorem Quiet.left {a b : List Issue} (h : F.Quiet (a ++ b)) : F.Quiet a := by
  rcases h with h | h
  · exact Or.inl h
  · right
    rintro ⟨i, hi, hplace⟩
    exact h ⟨i, List.mem_append_left b hi, hplace⟩

theorem Quiet.right {a b : List Issue} (h : F.Quiet (a ++ b)) : F.Quiet b := by
  rcases h with h | h
  · exact Or.inl h
  · right
    rintro ⟨i, hi, hplace⟩
    exact h ⟨i, List.mem_append_right a hi, hplace⟩

theorem Quiet.closed {a : List Issue} {complaint : Complaint}
    (h : F.Quiet (a ++ [⟨complaint, F.inner.final⟩])) : F.Closed := by
  rcases h with h | h
  · exact h
  · exact absurd ⟨_, List.mem_append_right a (List.mem_singleton_self _), rfl⟩ h

variable (F)

theorem ruleBody_frame (selectors : SelectorGroup) {ts : List Lexeme}
    (h : F.Quiet (ruleBody F.inner selectors ts).issues) :
    ruleBody F.outer (selectors.map F.move.selector) (F.run ts) =
      F.reading (Option.map F.move.styleRule) (ruleBody F.inner selectors ts) := by
  have hbody := F.declarations_frame true ts
  rw [ruleBody] at h
  rw [ruleBody, ruleBody]
  rcases declarations_stop F.inner ts with hrest | ⟨l, rest, hrest, hl⟩
  · rw [hrest] at h hbody
    have hc := Quiet.closed h
    have hnil := F.run_nil hc
    simp only [hbody (Or.inr hc), reading_rest, reading_issues, hrest, hnil, dropInsignificant,
      List.dropWhile_nil, hc.2]
    rw [reading, hnil, List.map_append]
    rfl
  · have hdrop (m : Lexeme) (ms : List Lexeme) (hm : m.kind = .rightBrace) :
        dropInsignificant (m :: ms) = m :: ms := by
      rw [dropInsignificant, List.dropWhile_cons, hm]
      rfl
    rw [hrest] at hbody
    simp only [hbody (Or.inl (List.cons_ne_nil l rest)), reading_rest, hrest, run_cons,
      hdrop l rest hl, hdrop (F.move.lexeme l) (F.run rest) hl, Shift.lexeme_toToken, hl, if_true]
    rfl

theorem styleRule_frame {ts : List Lexeme} (hts : ts ≠ [])
    (h : F.Quiet (styleRule F.inner ts).issues) :
    styleRule F.outer (F.run ts) =
      F.reading (Option.map F.move.styleRule) (styleRule F.inner ts) := by
  have hselectors := F.ruleSelectors_frame (Or.inl hts)
  rw [styleRule] at h
  rw [styleRule, styleRule]
  cases hv : (ruleSelectors F.inner ts).value with
  | none =>
      simp only [hselectors (Or.inl hv), reading_value, hv, Option.map_none]
      rfl
  | some group =>
      simp only [hv] at h
      cases hrest : dropInsignificant (ruleSelectors F.inner ts).rest with
      | nil =>
          simp only [hrest] at h
          have hc := Quiet.closed h
          have hnil := F.run_nil hc
          simp only [hselectors (Or.inr (Or.inr hc)), reading_value, hv, Option.map_some,
            reading_rest, F.dropInsignificant_nil hc hrest, hc.2]
          rw [reading, reading, hnil, List.map_append]
          rfl
      | cons l rest =>
          have hne : (ruleSelectors F.inner ts).rest ≠ [] := by
            intro hnil
            rw [hnil] at hrest
            cases hrest
          simp only [hrest] at h
          simp only [hselectors (Or.inr (Or.inl hne)), reading_value, hv, Option.map_some,
            reading_rest, F.dropInsignificant_cons hrest, Shift.lexeme_toToken]
          by_cases hbrace : l.kind = .leftBrace
          · simp only [hbrace, if_true] at h ⊢
            rw [F.ruleBody_frame group h.right, reading, reading, reading, List.map_append]
          · simp only [hbrace, if_false]
            rw [reading, reading, List.map_append]
            rfl

/-!
## Sheets
-/

/-- A sheet that is read in the frame: its rules, then those of the lexemes that follow. -/
def sheet (r : Reading Sheet) : Reading Sheet :=
  { value := r.value.map F.move.rule ++ (rules F.outer F.after).value
    issues := r.issues.map F.move.issue ++ (rules F.outer F.after).issues
    rest := (rules F.outer F.after).rest }

/-- The lexemes of the part stand before its end, and those that follow after it. -/
structure Placed (ts : List Lexeme) : Prop where
  before : ∀ l ∈ ts, l.start < F.inner.final.start
  beyond : F.inner.final.start + F.move.bytes ≤ (F.outer.front F.after).start

variable {F}

theorem Placed.mono {ts rest : List Lexeme} (h : F.Placed ts) (hs : rest <:+ ts) :
    F.Placed rest where
  before l hl := h.before l (hs.subset hl)
  beyond := h.beyond

variable (F)

theorem resume_frame {l : Lexeme} {rest after : List Lexeme} (h : F.Placed (l :: rest)) :
    resume F.outer (F.move.lexeme l) (F.run rest) (F.run after) =
      F.run (resume F.inner l rest after) := by
  have hl := h.before l List.mem_cons_self
  have hbeyond := h.beyond
  cases after with
  | nil =>
      have hinner : (F.inner.front []).start ≠ l.start := Nat.ne_of_gt hl
      have houter : (F.outer.front (F.run [])).start ≠ (F.move.lexeme l).start :=
        Nat.ne_of_gt (Nat.lt_of_lt_of_le (Nat.add_lt_add_right hl F.move.bytes) hbeyond)
      rw [resume, resume, if_neg hinner, if_neg houter]
  | cons a after =>
      have hiff : (F.outer.front (F.run (a :: after))).start = (F.move.lexeme l).start ↔
          (F.inner.front (a :: after)).start = l.start :=
        Nat.add_right_cancel_iff
      rw [resume, resume, apply_ite F.run]
      simp only [hiff]

theorem sheet_consIssue (issue : Issue) (more : Reading Sheet) :
    F.sheet (consIssue issue more) = consIssue (F.move.issue issue) (F.sheet more) :=
  rfl

theorem sheet_consRule (rule : Option Rule) (issues : List Issue) (more : Reading Sheet) :
    F.sheet (consRule rule issues more) =
      consRule (rule.map F.move.rule) (issues.map F.move.issue) (F.sheet more) := by
  cases rule with
  | none =>
      simp only [sheet, consRule, Option.map_none, Option.toList_none, List.nil_append,
        List.map_append, List.append_assoc]
  | some rule =>
      simp only [sheet, consRule, Option.map_some, Option.toList_some, List.map_append,
        List.append_assoc, List.map_cons, List.map_nil]

theorem rules_frame {ts : List Lexeme} (hplaced : F.Placed ts)
    (h : F.Quiet (rules F.inner ts).issues) :
    rules F.outer (F.run ts) = F.sheet (rules F.inner ts) := by
  induction hn : ts.length using Nat.strongRecOn generalizing ts with
  | ind n ih =>
      subst hn
      rw [rules_eq] at h ⊢
      rw [rules_eq F.inner]
      cases hts : dropInsignificant ts with
      | nil =>
          rw [dropInsignificant, F.dropWhile_after Kind.isInsignificant hts, ← dropInsignificant,
            ← rules_eq]
          rfl
      | cons l rest =>
          have hsuffix : l :: rest <:+ ts := hts ▸ dropInsignificant_suffix ts
          have hrest : rest <:+ ts := suffix_of_dropInsignificant hts
          have hlt : rest.length < ts.length := hsuffix.length_le
          rw [hts] at h
          rw [F.dropInsignificant_cons hts]
          simp only [rulesAfter, Shift.lexeme_toToken] at h ⊢
          by_cases hbrace : l.kind = .rightBrace
          · simp only [hbrace, if_true] at h ⊢
            have hmore := ih _ hlt (hplaced.mono hrest) (Quiet.right (a := [_]) h) rfl
            rw [hmore, sheet_consIssue]
            rfl
          · simp only [hbrace, if_false] at h ⊢
            by_cases hat : l.kind = .atKeyword
            · simp only [hat, if_true] at h ⊢
              have hafter := atRule_suffix F.inner l.value rest
              have hmore := ih _ (Nat.lt_of_le_of_lt hafter.length_le hlt)
                (hplaced.mono (hafter.trans hrest)) h.right rfl
              rw [F.atRule_frame l.value h.left, sheet_consRule]
              simp only [reading_value, reading_issues, reading_rest, hmore, Option.map_map]
              rfl
            · simp only [hat, if_false] at h ⊢
              have hafter := styleRule_suffix F.inner (l :: rest)
              have hstyle := F.styleRule_frame (List.cons_ne_nil l rest)
              rw [run_cons] at hstyle
              cases hv : (styleRule F.inner (l :: rest)).value with
              | some style =>
                  simp only [hv] at h
                  have hlength := length_styleRule_lt hv
                  have hmore := ih _ (Nat.lt_of_lt_of_le hlength hsuffix.length_le)
                    (hplaced.mono (hafter.trans hsuffix)) h.right rfl
                  rw [hstyle h.left]
                  simp only [reading_value, hv, Option.map_some, reading_issues, reading_rest,
                    hmore, sheet_consRule]
                  rfl
              | none =>
                  simp only [hv] at h
                  have hresume : resume F.inner l rest _ <:+ rest := resume_suffix hafter
                  have hmore := ih _ (Nat.lt_of_le_of_lt hresume.length_le hlt)
                    (hplaced.mono (hresume.trans hrest)) h.right rfl
                  rw [hstyle h.left]
                  simp only [reading_value, hv, Option.map_none, reading_issues, reading_rest,
                    F.resume_frame (hplaced.mono hsuffix), hmore, sheet_consRule]

end Frame
end CssText
