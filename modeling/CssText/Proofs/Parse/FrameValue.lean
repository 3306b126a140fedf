import CssText.Proofs.Parse.Frame

/-!
# Reading declarations and at-rules inside a longer text

The frame lemmas for the parts of a rule that keep their lexemes: the values of declarations
and the headers and blocks of at-rules.
-/

namespace CssText

namespace Shift

variable (p : Shift)

def declaration (d : Declaration) : Declaration :=
  { d with terms := d.terms.map p.lexeme, start := d.start + p.bytes, stop := d.stop + p.bytes }

def fault (f : Parse.Fault) : Parse.Fault :=
  { f with issue := p.issue f.issue }

def outcome {α β : Type} (f : α → β) : Except Parse.Fault α → Except Parse.Fault β
  | .ok a => .ok (f a)
  | .error e => .error (p.fault e)

def atRule (rule : AtRule) : AtRule :=
  { rule with header := rule.header.map p.lexeme, block := rule.block.map (List.map p.lexeme) }

end Shift

namespace Frame

open Parse

variable (F : Frame)

/-!
## Blocks and at-rules
-/

theorem components_frame (around : List Bracket) (ends : Kind → Bool) (opened : List Bracket)
    (ts : List Lexeme) (h : F.Fits (components F.inner around ends opened ts).rest) :
    components F.outer around ends opened (F.run ts) =
      F.reading (Option.map (List.map F.move.lexeme))
        (components F.inner around ends opened ts) := by
  induction ts generalizing opened with
  | nil =>
      rw [components] at h
      rw [F.run_nil h.closed, components, components, h.closed.2, reading, F.run_nil h.closed]
      rfl
  | cons l rest ih =>
      have htake (opened : List Bracket)
          (h : F.Fits (components F.inner around ends opened rest).rest) :
          { components F.outer around ends opened (F.run rest) with
            value := (components F.outer around ends opened (F.run rest)).value.map
              (F.move.lexeme l :: ·) } =
          F.reading (Option.map (List.map F.move.lexeme))
            { components F.inner around ends opened rest with
              value := (components F.inner around ends opened rest).value.map (l :: ·) } := by
        rw [ih opened h]
        cases hv : (components F.inner around ends opened rest).value with
        | none => simp [reading, hv]
        | some run => simp [reading, hv]
      rw [components] at h
      rw [run_cons, components, components]
      simp only [Shift.lexeme_toToken]
      by_cases hend : (opened.isEmpty && ends l.kind) = true
      · simp only [hend, if_true]
        rfl
      · simp only [hend, Bool.false_eq_true, if_false] at h ⊢
        by_cases hclose : opened.head?.map Bracket.closer = some l.kind
        · simp only [hclose, if_true] at h ⊢
          exact htake _ h
        · simp only [hclose, if_false] at h ⊢
          cases hopen : Bracket.ofOpener? l.kind with
          | none =>
              simp only [hopen] at h ⊢
              exact htake _ h
          | some b =>
              simp only [hopen, F.limit] at h ⊢
              by_cases hlimit : opened.length + around.length < F.inner.limit
              · simp only [hlimit, if_true] at h ⊢
                exact htake _ h
              · simp only [hlimit, if_false]
                rfl

/-- Nothing is said about the end of the part, or it is the end of both texts. -/
def Quiet (issues : List Issue) : Prop :=
  F.Closed ∨ ¬ blamesEnd F.inner issues

variable {F}

theorem Quiet.fits {issues : List Issue} (h : F.Quiet issues) {rest : List Lexeme}
    (hend : rest = [] → blamesEnd F.inner issues) : F.Fits rest := by
  rcases h with h | h
  · exact Or.inr h
  · exact Or.inl fun hnil => h (hend hnil)

variable (F)

theorem block_frame {ts : List Lexeme} (h : F.Quiet (block F.inner ts).issues) :
    block F.outer (F.run ts) =
      F.reading (Option.map (List.map F.move.lexeme)) (block F.inner ts) := by
  have hend := components_end F.inner [.curly] endsBlock [] ts
  have hrun := F.components_frame [.curly] endsBlock [] ts
  rw [block] at h
  rw [block, block]
  cases hv : (components F.inner [.curly] endsBlock [] ts).value with
  | none =>
      simp only [hv] at h
      have hfits := h.fits fun hnil => (hend hnil).2
      simp only [hrun hfits, reading_value, hv, Option.map_none]
  | some run =>
      have hne : (components F.inner [.curly] endsBlock [] ts).rest ≠ [] := by
        intro hnil
        rw [(hend hnil).1] at hv
        cases hv
      rcases List.exists_cons_of_ne_nil hne with ⟨l, rest, hrest⟩
      simp only [hrun (Or.inl hne), reading_value, reading_rest, hv, hrest, Option.map_some,
        trim_relocated F.move.relocates, run_cons, List.tail_cons]
      rfl

theorem atRule_frame (keyword : Bytes) {ts : List Lexeme}
    (h : F.Quiet (atRule F.inner keyword ts).issues) :
    atRule F.outer keyword (F.run ts) =
      F.reading (Option.map F.move.atRule) (atRule F.inner keyword ts) := by
  have hend := components_end F.inner [] endsHeader [] ts
  have hrun := F.components_frame [] endsHeader [] ts
  rw [atRule] at h
  rw [atRule, atRule]
  cases hrest : (components F.inner [] endsHeader [] ts).rest with
  | nil =>
      have hv := (hend hrest).1
      simp only [hv, hrest] at h
      have hc := (h.fits fun _ => (hend hrest).2).closed
      simp only [hrun (Or.inr hc), reading_value, reading_rest, hv, hrest, Option.map_none]
      rfl
  | cons l rest =>
      have hfits : F.Fits (components F.inner [] endsHeader [] ts).rest := by
        rw [hrest]
        exact Or.inl (List.cons_ne_nil l rest)
      cases hv : (components F.inner [] endsHeader [] ts).value with
      | none =>
          simp only [hrun hfits, reading_value, reading_rest, hv, hrest, Option.map_none]
          rfl
      | some header =>
          simp only [hv, hrest] at h
          simp only [hrun hfits, reading_value, reading_rest, hv, hrest, Option.map_some,
            run_cons, Shift.lexeme_toToken, F.limit]
          by_cases hsemicolon : l.kind = .semicolon
          · simp only [hsemicolon, if_true, trim_relocated F.move.relocates]
            rfl
          · simp only [hsemicolon, if_false] at h ⊢
            by_cases hzero : F.inner.limit = 0
            · simp only [hzero, if_true]
              rfl
            · simp only [hzero, if_false] at h ⊢
              rw [F.block_frame h, trim_relocated F.move.relocates]
              simp only [reading, Option.map_map]
              rfl

/-!
## Values
-/

theorem passUnlessBrace_frame (l : Lexeme) (rest : List Lexeme) :
    passUnlessBrace (F.move.lexeme l) (F.run rest) = F.run (passUnlessBrace l rest) := by
  rw [passUnlessBrace, passUnlessBrace, apply_ite F.run]
  rfl

theorem balanced_frame (opened : List Bracket) {ts : List Lexeme}
    (h : F.Fits (balanced F.inner opened ts).2) :
    balanced F.outer opened (F.run ts) =
      (F.move.outcome (List.map F.move.lexeme) (balanced F.inner opened ts).1,
        F.run (balanced F.inner opened ts).2) := by
  induction ts generalizing opened with
  | nil =>
      cases opened with
      | nil =>
          have hrun := F.run_nil h.closed
          rw [balanced, hrun]
          rfl
      | cons b opened =>
          have hc : F.Closed := h.closed
          have hrun := F.run_nil hc
          rw [balanced, hrun, balanced, hc.2]
          rfl
  | cons l rest ih =>
      have htake (opened : List Bracket) (h : F.Fits (balanced F.inner opened rest).2) :
          ((balanced F.outer opened (F.run rest)).1.map (F.move.lexeme l :: ·),
            (balanced F.outer opened (F.run rest)).2) =
          (F.move.outcome (List.map F.move.lexeme)
              ((balanced F.inner opened rest).1.map (l :: ·)),
            F.run (balanced F.inner opened rest).2) := by
        rw [ih opened h]
        cases (balanced F.inner opened rest).1 with
        | ok run => rfl
        | error fault => rfl
      have hobject : objection? F.outer opened l.kind = objection? F.inner opened l.kind := by
        unfold objection?
        rw [F.limit]
      rw [balanced] at h
      rw [run_cons, balanced, balanced]
      simp only [Shift.lexeme_toToken, hobject]
      by_cases hend : (opened.isEmpty && endsValue l.kind) = true
      · simp only [hend, if_true]
        rfl
      · simp only [hend, Bool.false_eq_true, if_false] at h ⊢
        by_cases hclose : opened.head?.map Bracket.closer = some l.kind
        · simp only [hclose, if_true] at h ⊢
          exact htake _ h
        · simp only [hclose, if_false] at h ⊢
          cases hobjection : objection? F.inner opened l.kind with
          | none =>
              simp only [hobjection] at h ⊢
              exact htake _ h
          | some complaint =>
              simp only [passUnlessBrace_frame]
              rfl

/-!
## Declarations
-/

theorem valued_map (p : Shift) (property : Lexeme) (run : List Lexeme) {stop stop' : Lexeme}
    (h : stop'.start = stop.start + p.bytes) :
    valued (p.lexeme property) (run.map p.lexeme) stop' =
      p.declaration (valued property run stop) := by
  rw [valued, valued, terms_relocated p.relocates, List.getLast?_map, h]
  cases hlast : (terms run).getLast? with
  | none => rfl
  | some last => rfl

theorem declaration_frame (property : Lexeme) (ts : List Lexeme)
    (h : F.Fits (declaration F.inner property ts).2) :
    declaration F.outer (F.move.lexeme property) (F.run ts) =
      (F.move.outcome F.move.declaration (declaration F.inner property ts).1,
        F.run (declaration F.inner property ts).2) := by
  unfold declaration at h ⊢
  cases hts : dropBlank ts with
  | nil =>
      simp only [hts] at h
      have hc : F.Closed := h.closed
      simp only [F.dropBlank_nil hc hts, F.run_nil hc, hc.2]
      rfl
  | cons l rest =>
      simp only [hts] at h
      simp only [F.dropBlank_cons hts, Shift.lexeme_toToken]
      by_cases hcolon : l.kind = .colon
      · simp only [hcolon, if_true] at h ⊢
        simp only [F.balanced_frame [] h, F.front_run h]
        cases (balanced F.inner [] rest).1 with
        | error fault => rfl
        | ok run =>
            simp only [Shift.outcome, Except.map, terms_relocated F.move.relocates,
              List.getLast?_map]
            cases (terms run).getLast? with
            | none => rfl
            | some last => rfl
      · simp only [hcolon, if_false]
        rw [apply_ite F.run]
        rfl

theorem skipDeclaration_frame (opened : List Bracket) {ts : List Lexeme}
    (h : F.Fits (skipDeclaration opened ts)) :
    skipDeclaration opened (F.run ts) = F.run (skipDeclaration opened ts) := by
  induction ts generalizing opened with
  | nil =>
      rw [F.run_nil h.closed]
      exact (F.run_nil h.closed).symm
  | cons l rest ih =>
      rw [skipDeclaration_cons] at h ⊢
      rw [run_cons, skipDeclaration_cons]
      simp only [Shift.lexeme_toToken]
      by_cases hsemicolon : l.kind = .semicolon ∧ opened = []
      · simp only [hsemicolon, and_self, if_true]
      · simp only [hsemicolon, if_false] at h ⊢
        by_cases hbrace : l.kind = .rightBrace ∧ closeInnermost? .rightBrace opened = none
        · simp only [hbrace, and_self, if_true]
          rfl
        · simp only [hbrace, if_false] at h ⊢
          exact ih _ h

theorem declarations_frame (inBlock : Bool) (ts : List Lexeme)
    (h : F.Fits (declarations F.inner inBlock ts).rest) :
    declarations F.outer inBlock (F.run ts) =
      F.reading (List.map F.move.declaration) (declarations F.inner inBlock ts) := by
  induction hn : ts.length using Nat.strongRecOn generalizing ts with
  | ind n ih =>
      subst hn
      rw [declarations_eq] at h ⊢
      rw [declarations_eq]
      cases hts : dropBlank ts with
      | nil =>
          rw [hts] at h
          have hc : F.Closed := h.closed
          rw [F.dropBlank_nil hc hts, declarationsAfter, declarationsAfter, reading, F.run_nil hc]
          rfl
      | cons l rest =>
          rw [hts] at h
          rw [F.dropBlank_cons hts]
          have hlt : rest.length < ts.length := length_lt_of_dropBlank hts
          simp only [declarationsAfter, Shift.lexeme_toToken] at h ⊢
          by_cases hbrace : l.kind = .rightBrace
          · simp only [hbrace, if_true] at h ⊢
            cases inBlock with
            | true =>
                rfl
            | false =>
                simp only [Bool.false_eq_true, if_false] at h ⊢
                rw [ih _ hlt _ h rfl]
                rfl
          · simp only [hbrace, if_false] at h ⊢
            by_cases hsep : separatesDeclarations l.kind = true
            · simp only [hsep, if_true] at h ⊢
              exact ih _ hlt _ h rfl
            · simp only [hsep, Bool.false_eq_true, if_false] at h ⊢
              by_cases hid : l.kind = .ident
              · simp only [hid, if_true] at h ⊢
                rcases hd : declaration F.inner l rest with ⟨result, after⟩
                have hafter := length_declaration_lt hlt hd
                have hdeclaration := F.declaration_frame l rest
                rw [hd] at h hdeclaration
                cases result with
                | ok d =>
                    have hrest : F.Fits (declarations F.inner inBlock after).rest := h
                    have hread := hrest.mono (declarations_suffix F.inner inBlock after)
                    rw [hdeclaration hread]
                    simp only [Shift.outcome, ih _ hafter _ hrest rfl]
                    rfl
                | error fault =>
                    have hskip := skipDeclaration_suffix fault.opened after
                    have hrest : F.Fits (declarations F.inner inBlock
                        (skipDeclaration fault.opened after)).rest := h
                    have hskipped := hrest.mono (declarations_suffix F.inner inBlock _)
                    rw [hdeclaration (hskipped.mono hskip)]
                    have hmore := ih _ (Nat.lt_of_le_of_lt hskip.length_le hafter) _ hrest rfl
                    simp only [Shift.outcome, Shift.fault,
                      F.skipDeclaration_frame _ hskipped, hmore]
                    rfl
              · simp only [hid, if_false] at h ⊢
                have hskip := skipDeclaration_cons_suffix hbrace [] rest
                have hskipped := h.mono (declarations_suffix F.inner inBlock _)
                have hmore := ih _ (Nat.lt_of_le_of_lt hskip.length_le hlt) _ h rfl
                rw [← run_cons, F.skipDeclaration_frame [] hskipped, hmore]
                rfl

end Frame
end CssText
