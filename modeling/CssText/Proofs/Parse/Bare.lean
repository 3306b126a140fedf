import CssText.Proofs.Parse.Steps

/-!
# Reading does not depend on places

A lexeme says where it stands, and an issue and a declaration pass that on, but no reader
decides anything by it. Here the places are taken away, from the lexemes before they are read
or from what was read of them; both come to the same (`declarations_bare`). So two runs with
the same tokens are read alike, wherever they stand.
-/

namespace CssText

namespace Lexeme

def bare (l : Lexeme) : Lexeme :=
  { toToken := l.toToken }

@[simp] theorem bare_toToken (l : Lexeme) : l.bare.toToken = l.toToken :=
  rfl

theorem map_bare_eq (run : List Lexeme) :
    run.map bare = (tokens run).map fun t => { toToken := t } := by
  rw [tokens, List.map_map]
  rfl

theorem map_bare_of_tokens {run run' : List Lexeme} (h : tokens run = tokens run') :
    run.map bare = run'.map bare := by
  rw [map_bare_eq, map_bare_eq, h]

end Lexeme

open Lexeme (bare)

def Bounds.bare (bounds : Bounds) : Bounds :=
  { bounds with final := bounds.final.bare }

def Issue.bare (i : Issue) : Issue :=
  { i with place := i.place.bare }

def Declaration.bare (d : Declaration) : Declaration :=
  { property := d.property, terms := d.terms.map Lexeme.bare, start := 0, stop := 0 }

namespace Parse

def Fault.bare (fault : Fault) : Fault :=
  { fault with issue := fault.issue.bare }

def bareOutcome {α : Type} (f : α → α) : Except Fault α → Except Fault α
  | .ok a => .ok (f a)
  | .error fault => .error fault.bare

def bareReading (r : Reading (List Declaration)) : Reading (List Declaration) :=
  { value := r.value.map Declaration.bare
    issues := r.issues.map Issue.bare
    rest := r.rest.map bare }

variable (bounds : Bounds)

/-!
## Values
-/

theorem relocates_bare : Relocates bare where
  token _ := rfl
  separator_eq l := by
    rw [separator, separator, apply_ite bare]
    rfl
  widen_eq gap l := by
    rw [widen, widen, apply_ite bare]
    rfl

theorem front_bare (ts : List Lexeme) :
    bounds.bare.front (ts.map bare) = (bounds.front ts).bare := by
  cases ts with
  | nil => rfl
  | cons l ts => rfl

theorem passUnlessBrace_bare (l : Lexeme) (rest : List Lexeme) :
    passUnlessBrace l.bare (rest.map bare) = (passUnlessBrace l rest).map bare := by
  rw [passUnlessBrace, passUnlessBrace, apply_ite (List.map bare)]
  rfl

theorem balanced_bare (opened : List Bracket) (ts : List Lexeme) :
    balanced bounds.bare opened (ts.map bare) =
      (bareOutcome (List.map bare) (balanced bounds opened ts).1,
        (balanced bounds opened ts).2.map bare) := by
  induction ts generalizing opened with
  | nil =>
      cases opened with
      | nil => rfl
      | cons b opened => rfl
  | cons l rest ih =>
      have htake (opened : List Bracket) :
          ((balanced bounds.bare opened (rest.map bare)).1.map (l.bare :: ·),
            (balanced bounds.bare opened (rest.map bare)).2) =
          (bareOutcome (List.map bare) ((balanced bounds opened rest).1.map (l :: ·)),
            (balanced bounds opened rest).2.map bare) := by
        rw [ih opened]
        cases (balanced bounds opened rest).1 with
        | ok run => rfl
        | error fault => rfl
      have hobject : objection? bounds.bare opened l.kind = objection? bounds opened l.kind := by
        unfold objection?
        rfl
      rw [List.map_cons, balanced, balanced]
      simp only [Lexeme.bare_toToken, hobject]
      by_cases hend : (opened.isEmpty && endsValue l.kind) = true
      · simp only [hend, if_true]
        rfl
      · simp only [hend, Bool.false_eq_true, if_false]
        by_cases hclose : opened.head?.map Bracket.closer = some l.kind
        · simp only [hclose, if_true]
          exact htake _
        · simp only [hclose, if_false]
          cases objection? bounds opened l.kind with
          | none => exact htake _
          | some complaint =>
              simp only [passUnlessBrace_bare]
              rfl

/-!
## Declarations
-/

theorem declaration_bare (property : Lexeme) (ts : List Lexeme) :
    declaration bounds.bare property.bare (ts.map bare) =
      (bareOutcome Declaration.bare (declaration bounds property ts).1,
        (declaration bounds property ts).2.map bare) := by
  unfold declaration
  cases hts : dropBlank ts with
  | nil =>
      simp only [dropBlank_relocated relocates_bare, hts]
      rfl
  | cons l rest =>
      simp only [dropBlank_relocated relocates_bare, hts, List.map_cons, Lexeme.bare_toToken]
      by_cases hcolon : l.kind = .colon
      · simp only [hcolon, if_true, balanced_bare, front_bare]
        cases (balanced bounds [] rest).1 with
        | error fault => rfl
        | ok run =>
            simp only [bareOutcome, Except.map, terms_relocated relocates_bare, List.getLast?_map]
            cases (terms run).getLast? with
            | none => rfl
            | some last => rfl
      · simp only [hcolon, if_false]
        rw [apply_ite (List.map bare)]
        rfl

theorem skipDeclaration_bare (opened : List Bracket) (ts : List Lexeme) :
    skipDeclaration opened (ts.map bare) = (skipDeclaration opened ts).map bare := by
  induction ts generalizing opened with
  | nil => rfl
  | cons l rest ih =>
      rw [List.map_cons, skipDeclaration_cons, skipDeclaration_cons]
      simp only [Lexeme.bare_toToken, ih]
      rw [apply_ite (List.map bare), apply_ite (List.map bare)]
      rfl

theorem declarations_bare (inBlock : Bool) (ts : List Lexeme) :
    declarations bounds.bare inBlock (ts.map bare) =
      bareReading (declarations bounds inBlock ts) := by
  induction hn : ts.length using Nat.strongRecOn generalizing ts with
  | ind n ih =>
      subst hn
      rw [declarations_eq, declarations_eq, dropBlank_relocated relocates_bare]
      cases hts : dropBlank ts with
      | nil => rfl
      | cons l rest =>
          have hlt : rest.length < ts.length := length_lt_of_dropBlank hts
          simp only [List.map_cons, declarationsAfter, Lexeme.bare_toToken]
          by_cases hbrace : l.kind = .rightBrace
          · simp only [hbrace, if_true]
            cases inBlock with
            | true => rfl
            | false =>
                simp only [Bool.false_eq_true, if_false]
                rw [ih _ hlt rest rfl]
                rfl
          · simp only [hbrace, if_false]
            by_cases hsep : separatesDeclarations l.kind = true
            · simp only [hsep, if_true]
              exact ih _ hlt rest rfl
            · simp only [hsep, Bool.false_eq_true, if_false]
              by_cases hid : l.kind = .ident
              · simp only [hid, if_true, declaration_bare]
                rcases hd : declaration bounds l rest with ⟨result, after⟩
                have hafter := length_declaration_lt hlt hd
                cases result with
                | ok d =>
                    simp only [bareOutcome, ih _ hafter after rfl]
                    rfl
                | error fault =>
                    have hskip := (skipDeclaration_suffix fault.opened after).length_le
                    have hmore := ih _ (Nat.lt_of_le_of_lt hskip hafter) _ rfl
                    simp only [bareOutcome, Fault.bare, skipDeclaration_bare, hmore]
                    rfl
              · simp only [hid, if_false]
                have hskip := (skipDeclaration_cons_suffix hbrace [] rest).length_le
                have hmore := ih _ (Nat.lt_of_le_of_lt hskip hlt) _ rfl
                rw [← List.map_cons, skipDeclaration_bare, hmore]
                rfl

/-- Runs with the same tokens are read alike, in texts that are read under the same limit. -/
theorem bareReading_declarations {bounds bounds' : Bounds} (hbounds : bounds.bare = bounds'.bare)
    (inBlock : Bool) {ts ts' : List Lexeme} (h : Lexeme.tokens ts = Lexeme.tokens ts') :
    bareReading (declarations bounds inBlock ts) =
      bareReading (declarations bounds' inBlock ts') := by
  rw [← declarations_bare, ← declarations_bare, hbounds, Lexeme.map_bare_of_tokens h]

end Parse
end CssText
