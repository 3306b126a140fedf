import CssText.Proofs.Parse.Nesting
import CssText.Proofs.Parse.Sourced

/-!
# The grammar of at-rules

An at-rule is a header and then a semicolon or a block in braces, and both parts are runs of
the grammar of brackets (`AtRule.Written`). Exactly those are read, with the lexemes of both
parts as they stand but for the white space at their ends (`atRule_iff`).
-/

namespace CssText

open Lexeme (kinds)

namespace Lexeme

/-!
## Trimmed parts
-/

def TrimsTo (run core : List Lexeme) : Prop :=
  ∃ pre post, run = pre ++ core ++ post ∧ (∀ l ∈ pre, l.kind.isBlank = true) ∧
    (∀ l ∈ post, l.kind.isBlank = true) ∧ Trimmed core

theorem trimsTo_iff {run core : List Lexeme} : TrimsTo run core ↔ trim run = core := by
  constructor
  · intro h
    rcases h with ⟨pre, post, rfl, hpre, hpost, htrimmed⟩
    exact trim_between hpre hpost htrimmed
  · rintro rfl
    rcases dropBlank_eq_trim run with ⟨post, hpost, hback⟩
    have hsplit := List.takeWhile_append_dropWhile (p := fun l : Lexeme => l.kind.isBlank)
      (l := run)
    have hfront := List.all_eq_true.mp
      (List.all_takeWhile (p := fun l : Lexeme => l.kind.isBlank) (l := run))
    refine ⟨_, post, ?_, hfront, hback, trimmed_trim run⟩
    rw [List.append_assoc, ← hpost]
    exact hsplit.symm

end Lexeme

namespace Parse

/-!
## Parts
-/

/-- The runs that at-rules are made of: everything but what ends them stands outside of
brackets, and anything inside. -/
def IsPart (ends : Kind → Bool) (depth : Nat) (run : List Lexeme) : Prop :=
  Nests (admitsInPart ends) none depth (kinds run)

section

variable {bounds : Bounds} {around : List Bracket} {ends : Kind → Bool} {keyword : Bytes}
  {ts run body rest : List Lexeme}

theorem components_eq (h : (components bounds around ends [] ts).value = some run) :
    ∃ l rest, ts = run ++ l :: rest ∧ ends l.kind = true ∧
      IsPart ends (bounds.limit - around.length) run ∧
      components bounds around ends [] ts =
        { value := some run, issues := [], rest := l :: rest } := by
  have hcloses := closes_of_components h
  rcases components_stop h with ⟨l, rest, hrest, hl⟩
  have happend := components_append h
  rw [hrest] at happend
  have hread := components_of_closes hcloses hl rest
  rw [← happend] at hread
  exact ⟨l, rest, happend, hl, closes_iff_nests.mp hcloses, hread⟩

variable (around) in
theorem components_of_part {l : Lexeme} (hl : ends l.kind = true)
    (h : IsPart ends (bounds.limit - around.length) run) (rest : List Lexeme) :
    components bounds around ends [] (run ++ l :: rest) =
      { value := some run, issues := [], rest := l :: rest } :=
  components_of_closes (closes_iff_nests.mpr h) hl rest

theorem block_iff :
    ((block bounds ts).value = some body ∧ (block bounds ts).rest = rest) ↔
      ∃ run l, ts = run ++ l :: rest ∧ l.kind = .rightBrace ∧
        IsPart endsBlock (bounds.limit - 1) run ∧ Lexeme.TrimsTo run body := by
  constructor
  · intro h
    rcases h with ⟨hv, hrest⟩
    cases hrun : (components bounds [.curly] endsBlock [] ts).value with
    | none =>
        simp only [block, hrun] at hv
        cases hv
    | some run =>
        rcases components_eq hrun with ⟨l, after, hts, hl, hpart, hread⟩
        simp only [block, hread] at hv hrest
        obtain rfl : after = rest := hrest
        exact ⟨run, l, hts, of_decide_eq_true hl, hpart,
          Lexeme.trimsTo_iff.mpr (Option.some.inj hv)⟩
  · intro h
    rcases h with ⟨run, l, rfl, hl, hpart, htrims⟩
    have hends : endsBlock l.kind = true := decide_eq_true hl
    rw [block, components_of_part _ hends hpart]
    constructor
    · exact congrArg some (Lexeme.trimsTo_iff.mp htrims)
    · rfl

end

end Parse

/-!
## At-rules
-/

open Parse

/-- What may follow the keyword of an at-rule, with brackets up to the depth, and the rule it
stands for. The braces of a block count as one bracket. -/
inductive AtRule.Written (keyword : Bytes) : Nat → List Lexeme → AtRule → Prop where
  | statement {depth : Nat} {run header : List Lexeme} {semicolon : Lexeme}
      (hrun : IsPart endsHeader depth run) (hsemicolon : semicolon.kind = .semicolon)
      (hheader : Lexeme.TrimsTo run header) :
      AtRule.Written keyword depth (run ++ [semicolon]) { keyword, header, block := none }
  | block {depth : Nat} {run header inner body : List Lexeme} {opening closing : Lexeme}
      (hrun : IsPart endsHeader (depth + 1) run) (hopening : opening.kind = .leftBrace)
      (hinner : IsPart endsBlock depth inner) (hclosing : closing.kind = .rightBrace)
      (hheader : Lexeme.TrimsTo run header) (hbody : Lexeme.TrimsTo inner body) :
      AtRule.Written keyword (depth + 1) (run ++ opening :: (inner ++ [closing]))
        { keyword, header, block := some body }

namespace Parse

variable {bounds : Bounds} {keyword : Bytes} {ts rest : List Lexeme} {rule : AtRule}

theorem written_of_atRule (hv : (atRule bounds keyword ts).value = some rule)
    (hrest : (atRule bounds keyword ts).rest = rest) :
    ∃ run, ts = run ++ rest ∧ AtRule.Written keyword bounds.limit run rule := by
  cases hheader : (components bounds [] endsHeader [] ts).value with
  | none =>
      simp only [atRule, hheader] at hv
      cases hv
  | some run =>
      rcases components_eq hheader with ⟨l, after, rfl, hends, hpart, hread⟩
      simp only [atRule, hread] at hv hrest
      have htrims : Lexeme.TrimsTo run (Lexeme.trim run) := Lexeme.trimsTo_iff.mpr rfl
      by_cases hsemicolon : l.kind = .semicolon
      · rw [if_pos hsemicolon] at hv hrest
        cases hv
        cases hrest
        refine ⟨run ++ [l], List.append_cons run l after, ?_⟩
        exact AtRule.Written.statement hpart hsemicolon htrims
      · have hopening : l.kind = .leftBrace := by
          rw [endsHeader, Bool.or_eq_true, decide_eq_true_eq, decide_eq_true_eq] at hends
          exact hends.resolve_left hsemicolon
        rw [if_neg hsemicolon] at hv hrest
        cases hlimit : bounds.limit with
        | zero =>
            rw [if_pos hlimit] at hv
            cases hv
        | succ depth =>
            have hne : bounds.limit ≠ 0 := by
              rw [hlimit]
              exact Nat.succ_ne_zero depth
            rw [if_neg hne] at hv hrest
            rcases Option.map_eq_some_iff.mp hv with ⟨body, hbody, rfl⟩
            rcases block_iff.mp ⟨hbody, hrest⟩ with ⟨inner, closing, rfl, hclosing, hinner, htrim⟩
            rw [hlimit] at hpart hinner
            refine ⟨run ++ l :: (inner ++ [closing]), by simp, ?_⟩
            exact AtRule.Written.block hpart hopening hinner hclosing htrims htrim

theorem atRule_of_written {run : List Lexeme}
    (h : AtRule.Written keyword bounds.limit run rule) (rest : List Lexeme) :
    (atRule bounds keyword (run ++ rest)).value = some rule ∧
      (atRule bounds keyword (run ++ rest)).rest = rest := by
  generalize hlimit : bounds.limit = limit at h
  cases h with
  | @statement _ run header semicolon hrun hsemicolon hheader =>
      have hends : endsHeader semicolon.kind = true := by
        rw [hsemicolon]
        rfl
      have hread := components_of_part [] hends (hlimit ▸ hrun) rest
      rw [← List.append_cons, atRule, hread]
      simp only [hsemicolon, if_true]
      rw [Lexeme.trimsTo_iff.mp hheader]
      exact ⟨rfl, trivial⟩
  | @block depth run header inner body opening closing hrun hopening hinner hclosing hheader
      hbody =>
      have hends : endsHeader opening.kind = true := by
        rw [hopening]
        rfl
      have hsplit : run ++ opening :: (inner ++ [closing]) ++ rest =
          run ++ opening :: (inner ++ closing :: rest) := by
        simp
      have hread := components_of_part [] hends (hlimit ▸ hrun)
        (inner ++ closing :: rest)
      have hblock : (Parse.block bounds (inner ++ closing :: rest)).value = some body ∧
          (Parse.block bounds (inner ++ closing :: rest)).rest = rest := by
        apply block_iff.mpr
        rw [hlimit]
        exact ⟨inner, closing, rfl, hclosing, hinner, hbody⟩
      have hne : bounds.limit ≠ 0 := by
        rw [hlimit]
        exact Nat.succ_ne_zero depth
      have hkind : opening.kind ≠ .semicolon := by
        rw [hopening]
        exact Kind.noConfusion
      rw [hsplit, atRule, hread]
      simp only [if_neg hkind, if_neg hne]
      rw [hblock.1, Lexeme.trimsTo_iff.mp hheader]
      exact ⟨rfl, hblock.2⟩

/-- Reading an at-rule succeeds on what the grammar says may follow its keyword. -/
theorem atRule_iff :
    ((atRule bounds keyword ts).value = some rule ∧ (atRule bounds keyword ts).rest = rest) ↔
      ∃ run, ts = run ++ rest ∧ AtRule.Written keyword bounds.limit run rule := by
  constructor
  · intro h
    exact written_of_atRule h.1 h.2
  · intro h
    rcases h with ⟨run, rfl, hwritten⟩
    exact atRule_of_written hwritten rest

end Parse
end CssText
