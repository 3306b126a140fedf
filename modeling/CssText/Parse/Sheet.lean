import CssText.Parse.AtRule
import CssText.Parse.Declaration
import CssText.Parse.SelectorGroup

/-!
# Reading style sheets

A sheet is read rule by rule, and a rule that fails is dropped with an issue. A style rule
that meets something else than its closing brace is skipped to that brace. After any other
failure reading goes on where the rule broke off, past one lexeme at least; so the rest of an
at-rule that broke off in its block is read as rules.
-/

namespace CssText
namespace Parse

def closeBlocks : Nat → List Lexeme → List Lexeme
  | 0, ts => ts
  | _, [] => []
  | n + 1, l :: rest =>
      if l.kind = .leftBrace then closeBlocks (n + 2) rest
      else if l.kind = .rightBrace then closeBlocks n rest
      else closeBlocks (n + 1) rest

/-- The selectors of a rule. A bare block applies to every element. -/
def ruleSelectors (bounds : Bounds) (ts : List Lexeme) : Reading (Option SelectorGroup) :=
  if (bounds.front ts).kind = .leftBrace then
    { value := some [.universal], issues := [], rest := ts }
  else
    alternatives bounds ts

/-- The declarations of a rule and the brace that closes it, the opening one already taken. -/
def ruleBody (bounds : Bounds) (selectors : SelectorGroup) (ts : List Lexeme) :
    Reading (Option StyleRule) :=
  let body := declarations bounds true ts
  match dropInsignificant body.rest with
  | [] =>
      { value := none
        issues := body.issues ++ [⟨.expected .styleRule .closeBrace, bounds.final⟩]
        rest := [] }
  | l :: rest =>
      if l.kind = .rightBrace then
        { value := some { selectors, declarations := body.value }, issues := body.issues, rest }
      else
        { value := none
          issues := body.issues ++ [⟨.expected .styleRule .closeBrace, l⟩]
          rest := closeBlocks 1 rest }

def styleRule (bounds : Bounds) (ts : List Lexeme) : Reading (Option StyleRule) :=
  let selectors := ruleSelectors bounds ts
  match selectors.value with
  | none => { value := none, issues := selectors.issues, rest := selectors.rest }
  | some group =>
      match dropInsignificant selectors.rest with
      | [] =>
          { value := none
            issues := selectors.issues ++ [⟨.expected .styleRule .openBrace, bounds.final⟩]
            rest := [] }
      | l :: rest =>
          if l.kind = .leftBrace then
            let body := ruleBody bounds group rest
            { body with issues := selectors.issues ++ body.issues }
          else
            { value := none
              issues := selectors.issues ++ [⟨.expected .styleRule .openBrace, l⟩]
              rest }

/-!
## What reading a rule leaves
-/

theorem closeBlocks_suffix (n : Nat) (ts : List Lexeme) : closeBlocks n ts <:+ ts := by
  fun_induction closeBlocks n ts with
  | case1 ts =>
      exact List.suffix_refl ts
  | case2 n h =>
      exact List.suffix_refl []
  | case3 n l rest h ih =>
      exact ih.trans (List.suffix_cons l rest)
  | case4 n l rest h h' ih =>
      exact ih.trans (List.suffix_cons l rest)
  | case5 n l rest h h' ih =>
      exact ih.trans (List.suffix_cons l rest)

theorem ruleSelectors_suffix (bounds : Bounds) (ts : List Lexeme) :
    (ruleSelectors bounds ts).rest <:+ ts := by
  unfold ruleSelectors
  split
  · exact List.suffix_refl ts
  · exact alternatives_suffix bounds ts

theorem ruleBody_suffix (bounds : Bounds) (selectors : SelectorGroup) (ts : List Lexeme) :
    (ruleBody bounds selectors ts).rest <:+ ts := by
  unfold ruleBody
  simp only
  split
  · exact List.nil_suffix
  · rename_i l rest h
    have hr := (suffix_of_dropInsignificant h).trans (declarations_suffix bounds true ts)
    split
    · exact hr
    · exact (closeBlocks_suffix 1 rest).trans hr

theorem styleRule_suffix (bounds : Bounds) (ts : List Lexeme) :
    (styleRule bounds ts).rest <:+ ts := by
  have hs := ruleSelectors_suffix bounds ts
  unfold styleRule
  simp only
  split
  · exact hs
  · split
    · exact List.nil_suffix
    · rename_i l rest h
      have hr := (suffix_of_dropInsignificant h).trans hs
      split
      · exact (ruleBody_suffix bounds _ rest).trans hr
      · exact hr

theorem length_styleRule_lt {bounds : Bounds} {ts : List Lexeme} {rule : StyleRule}
    (h : (styleRule bounds ts).value = some rule) :
    (styleRule bounds ts).rest.length < ts.length := by
  have hs := (ruleSelectors_suffix bounds ts).length_le
  unfold styleRule at h ⊢
  simp only at h ⊢
  cases hv : (ruleSelectors bounds ts).value with
  | none =>
      simp [hv] at h
  | some group =>
      simp only [hv] at h ⊢
      cases hl : dropInsignificant (ruleSelectors bounds ts).rest with
      | nil =>
          simp [hl] at h
      | cons l rest =>
          have hd := (dropInsignificant_suffix (ruleSelectors bounds ts).rest).length_le
          rw [hl, List.length_cons] at hd
          simp only [hl] at h ⊢
          by_cases hk : l.kind = .leftBrace
          · have hb := (ruleBody_suffix bounds group rest).length_le
            simp only [hk, if_true]
            omega
          · simp [hk] at h

/-!
## Sheets
-/

/--
Where to go on after a rule that failed at `after`: there, but past the lexeme `l` at least,
with which the rule began.
-/
def resume (bounds : Bounds) (l : Lexeme) (rest after : List Lexeme) : List Lexeme :=
  if (bounds.front after).start = l.start then rest else after

theorem resume_suffix {bounds : Bounds} {l : Lexeme} {rest after : List Lexeme}
    (h : after <:+ l :: rest) : resume bounds l rest after <:+ rest := by
  unfold resume
  split
  · exact List.suffix_refl rest
  · rename_i hne
    rcases List.suffix_cons_iff.mp h with rfl | h
    · exact absurd rfl hne
    · exact h

def consRule (rule : Option Rule) (issues : List Issue) (more : Reading Sheet) :
    Reading Sheet :=
  { more with value := rule.toList ++ more.value, issues := issues ++ more.issues }

def rules (bounds : Bounds) (ts : List Lexeme) : Reading Sheet :=
  match h : dropInsignificant ts with
  | [] => { value := [], issues := [], rest := [] }
  | l :: rest =>
      have hle : (l :: rest).length ≤ ts.length := h ▸ (dropInsignificant_suffix ts).length_le
      have hlt : rest.length < ts.length := hle
      if l.kind = .rightBrace then
        consIssue ⟨.strayBrace .styleSheet, l⟩ (rules bounds rest)
      else if l.kind = .atKeyword then
        let rule := atRule bounds l.value rest
        have : rule.rest.length < ts.length :=
          Nat.lt_of_le_of_lt (atRule_suffix bounds l.value rest).length_le hlt
        consRule (rule.value.map .atRule) rule.issues (rules bounds rule.rest)
      else
        let rule := styleRule bounds (l :: rest)
        match hv : rule.value with
        | some style =>
            have : rule.rest.length < ts.length :=
              Nat.lt_of_lt_of_le (length_styleRule_lt hv) hle
            consRule (some (.style style)) rule.issues (rules bounds rule.rest)
        | none =>
            let after := resume bounds l rest rule.rest
            have : after.length < ts.length :=
              Nat.lt_of_le_of_lt
                (resume_suffix (styleRule_suffix bounds (l :: rest))).length_le hlt
            consRule none rule.issues (rules bounds after)
termination_by ts.length

end Parse

namespace Sheet

def parse (limit : Nat) (css : Bytes) : Parsed Sheet :=
  let reading := Parse.rules (Bounds.ofText limit css) (Lexeme.ofText css)
  { value := reading.value, issues := reading.issues }

end Sheet
end CssText
