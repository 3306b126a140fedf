import CssText.Proofs.Parse.Steps
import CssText.Proofs.Token.Stream

/-!
# Reading inside a longer text

A frame puts the lexemes of one text into a longer one: they move down by the text before
them, and other lexemes follow. A production that stops before its own lexemes run out
reads the same in the frame, and so does every production when nothing follows. This module
says so for the selector grammar, production by production.
-/

namespace CssText

/-!
## Moving values
-/

namespace Shift

variable (p : Shift)

def issue (i : Issue) : Issue :=
  { i with place := p.lexeme i.place }

def selector : Selector → Selector
  | .pseudoFunction name args => .pseudoFunction name (args.map p.lexeme)
  | .negation name inner => .negation name (selector inner)
  | .combine how left right => .combine how (selector left) (selector right)
  | s => s

theorem relocates : Parse.Relocates p.lexeme where
  token _ := rfl
  separator_eq l := by
    rw [Parse.separator, Parse.separator, apply_ite p.lexeme]
    rfl
  widen_eq gap l := by
    rw [Parse.widen, Parse.widen, apply_ite p.lexeme]
    rfl

end Shift

/-- A text with the bounds `inner` as a part of one with the bounds `outer`. -/
structure Frame where
  inner : Bounds
  outer : Bounds
  move : Shift
  after : List Lexeme
  limit : outer.limit = inner.limit

namespace Frame

variable (F : Frame)

def run (ts : List Lexeme) : List Lexeme :=
  ts.map F.move.lexeme ++ F.after

def reading {α β : Type} (f : α → β) (r : Reading α) : Reading β :=
  { value := f r.value, issues := r.issues.map F.move.issue, rest := F.run r.rest }

def Closed : Prop :=
  F.after = [] ∧ F.outer.final = F.move.lexeme F.inner.final

/-- Lexemes are left, or no more can follow. -/
def Fits (rest : List Lexeme) : Prop :=
  rest ≠ [] ∨ F.Closed

variable {F}

theorem Fits.closed (h : F.Fits []) : F.Closed := by
  rcases h with h | h
  · exact absurd rfl h
  · exact h

theorem Fits.mono {rest rest' : List Lexeme} (h : F.Fits rest) (hs : rest <:+ rest') :
    F.Fits rest' := by
  rcases h with h | h
  · left
    rintro rfl
    exact h (List.suffix_nil.mp hs)
  · exact Or.inr h

variable (F)

@[simp] theorem run_cons (l : Lexeme) (ts : List Lexeme) :
    F.run (l :: ts) = F.move.lexeme l :: F.run ts :=
  rfl

theorem run_nil (h : F.Closed) : F.run [] = [] :=
  h.1

@[simp] theorem reading_value {α β : Type} (f : α → β) (r : Reading α) :
    (F.reading f r).value = f r.value :=
  rfl

@[simp] theorem reading_issues {α β : Type} (f : α → β) (r : Reading α) :
    (F.reading f r).issues = r.issues.map F.move.issue :=
  rfl

@[simp] theorem reading_rest {α β : Type} (f : α → β) (r : Reading α) :
    (F.reading f r).rest = F.run r.rest :=
  rfl

theorem dropWhile_cons (test : Kind → Bool) {ts rest : List Lexeme} {l : Lexeme}
    (h : (ts.dropWhile fun m => test m.kind) = l :: rest) :
    (F.run ts).dropWhile (fun m => test m.kind) = F.move.lexeme l :: F.run rest := by
  induction ts with
  | nil => cases h
  | cons t ts ih =>
      rw [List.dropWhile_cons] at h
      rw [run_cons, List.dropWhile_cons]
      by_cases ht : test t.kind = true
      · rw [if_pos ht] at h
        rw [if_pos (show test (F.move.lexeme t).kind = true from ht)]
        exact ih h
      · rw [if_neg ht] at h
        rw [if_neg (show ¬ test (F.move.lexeme t).kind = true from ht)]
        cases h
        rfl

theorem dropWhile_after (test : Kind → Bool) {ts : List Lexeme}
    (h : (ts.dropWhile fun m => test m.kind) = []) :
    (F.run ts).dropWhile (fun m => test m.kind) = F.after.dropWhile fun m => test m.kind := by
  induction ts with
  | nil => rfl
  | cons t ts ih =>
      rw [List.dropWhile_cons] at h
      rw [run_cons, List.dropWhile_cons]
      by_cases ht : test t.kind = true
      · rw [if_pos ht] at h
        rw [if_pos (show test (F.move.lexeme t).kind = true from ht)]
        exact ih h
      · rw [if_neg ht] at h
        cases h

theorem dropWhile_nil (test : Kind → Bool) {ts : List Lexeme} (hc : F.Closed)
    (h : (ts.dropWhile fun m => test m.kind) = []) :
    (F.run ts).dropWhile (fun m => test m.kind) = [] := by
  rw [F.dropWhile_after test h, hc.1]
  rfl

theorem dropBlank_cons {ts rest : List Lexeme} {l : Lexeme}
    (h : Parse.dropBlank ts = l :: rest) :
    Parse.dropBlank (F.run ts) = F.move.lexeme l :: F.run rest :=
  F.dropWhile_cons Kind.isBlank h

theorem dropBlank_nil {ts : List Lexeme} (hc : F.Closed) (h : Parse.dropBlank ts = []) :
    Parse.dropBlank (F.run ts) = [] :=
  F.dropWhile_nil Kind.isBlank hc h

theorem dropInsignificant_cons {ts rest : List Lexeme} {l : Lexeme}
    (h : Parse.dropInsignificant ts = l :: rest) :
    Parse.dropInsignificant (F.run ts) = F.move.lexeme l :: F.run rest :=
  F.dropWhile_cons Kind.isInsignificant h

theorem dropInsignificant_nil {ts : List Lexeme} (hc : F.Closed)
    (h : Parse.dropInsignificant ts = []) : Parse.dropInsignificant (F.run ts) = [] :=
  F.dropWhile_nil Kind.isInsignificant hc h

theorem front_run {ts : List Lexeme} (h : F.Fits ts) :
    F.outer.front (F.run ts) = F.move.lexeme (F.inner.front ts) := by
  cases ts with
  | nil =>
      have hc := h.closed
      rw [F.run_nil hc]
      exact hc.2
  | cons t ts => rfl

theorem dropWhile_run (test : Kind → Bool) {ts : List Lexeme}
    (h : F.Fits (ts.dropWhile fun m => test m.kind)) :
    (F.run ts).dropWhile (fun m => test m.kind) =
      F.run (ts.dropWhile fun m => test m.kind) := by
  cases hts : ts.dropWhile fun m => test m.kind with
  | nil =>
      rw [hts] at h
      rw [F.dropWhile_nil test h.closed hts, F.run_nil h.closed]
  | cons l rest =>
      rw [F.dropWhile_cons test hts, run_cons]

theorem dropBlank_run {ts : List Lexeme} (h : F.Fits (Parse.dropBlank ts)) :
    Parse.dropBlank (F.run ts) = F.run (Parse.dropBlank ts) :=
  F.dropWhile_run Kind.isBlank h

theorem dropInsignificant_run {ts : List Lexeme} (h : F.Fits (Parse.dropInsignificant ts)) :
    Parse.dropInsignificant (F.run ts) = F.run (Parse.dropInsignificant ts) :=
  F.dropWhile_run Kind.isInsignificant h

/-!
## Selectors
-/

open Parse

/-- A lexeme that does not fit is rejected in the frame too, if it is not the last one. -/
theorem reject_frame (production : Production) (wanted : Wanted) (ts : List Lexeme)
    (h : F.Fits (reject F.inner production wanted ts).rest) :
    reject F.outer production wanted (F.run ts) =
      F.reading F.move.selector (reject F.inner production wanted ts) := by
  have hfront := F.front_run (h.mono (reject_suffix F.inner production wanted ts))
  have hpass : passUnlessEnd (F.run ts) = F.run (passUnlessEnd ts) := by
    cases ts with
    | nil =>
        rw [F.run_nil h.closed, passUnlessEnd, F.run_nil h.closed]
    | cons t ts =>
        rw [run_cons, passUnlessEnd, passUnlessEnd]
        split
        · rename_i ht
          rw [if_pos (show endsSelector t.kind = true from ht)]
          rfl
        · rename_i ht
          rw [if_neg (show ¬ endsSelector t.kind = true from ht)]
  rw [reject, reject, hfront, hpass]
  rfl

theorem reject_nil_frame (hc : F.Closed) (production : Production) (wanted : Wanted) :
    reject F.outer production wanted [] =
      F.reading F.move.selector (reject F.inner production wanted []) := by
  have h := F.reject_frame production wanted [] (Or.inr hc)
  rw [F.run_nil hc] at h
  exact h

theorem attributeValue_frame (name : Bytes) (test : AttributeTest) {ts : List Lexeme}
    (h : F.Fits (attributeValue F.inner name test ts).rest) :
    attributeValue F.outer name test (F.run ts) =
      F.reading F.move.selector (attributeValue F.inner name test ts) := by
  unfold attributeValue at h ⊢
  cases hv : dropBlank ts with
  | nil =>
      simp only [hv] at h
      simp only [F.dropBlank_nil h.closed hv]
      exact F.reject_nil_frame h.closed _ _
  | cons value rest =>
      simp only [hv] at h
      simp only [F.dropBlank_cons hv, Shift.lexeme_toToken]
      by_cases hk : isAttributeValue value.kind = true
      · simp only [hk, if_true] at h ⊢
        cases hr : dropBlank rest with
        | nil =>
            simp only [hr] at h
            simp only [F.dropBlank_nil h.closed hr]
            exact F.reject_nil_frame h.closed _ _
        | cons close rest =>
            simp only [hr] at h
            simp only [F.dropBlank_cons hr, Shift.lexeme_toToken]
            by_cases hclose : close.kind = .rightBracket
            · simp only [hclose, if_true]
              rfl
            · simp only [hclose, if_false] at h ⊢
              exact F.reject_frame _ _ _ h
      · simp only [hk] at h ⊢
        exact F.reject_frame _ _ _ h

theorem attributeSelector_frame {ts : List Lexeme}
    (h : F.Fits (attributeSelector F.inner ts).rest) :
    attributeSelector F.outer (F.run ts) =
      F.reading F.move.selector (attributeSelector F.inner ts) := by
  unfold attributeSelector at h ⊢
  cases hn : dropBlank ts with
  | nil =>
      simp only [hn] at h
      simp only [F.dropBlank_nil h.closed hn]
      exact F.reject_nil_frame h.closed _ _
  | cons name rest =>
      simp only [hn] at h
      simp only [F.dropBlank_cons hn, Shift.lexeme_toToken]
      by_cases hk : name.kind = .ident
      · simp only [hk, if_true] at h ⊢
        cases ho : dropBlank rest with
        | nil =>
            simp only [ho] at h
            simp only [F.dropBlank_nil h.closed ho]
            exact F.reject_nil_frame h.closed _ _
        | cons op rest =>
            have htest : attributeTest? (F.move.lexeme op) = attributeTest? op := rfl
            simp only [ho] at h
            simp only [F.dropBlank_cons ho, Shift.lexeme_toToken, htest]
            by_cases hop : op.kind = .rightBracket
            · simp only [hop, if_true]
              rfl
            · simp only [hop, if_false] at h ⊢
              cases ht : attributeTest? op with
              | none =>
                  simp only [ht] at h
                  exact F.reject_frame _ _ _ h
              | some test =>
                  simp only [ht] at h
                  exact F.attributeValue_frame _ _ h
      · simp only [hk, if_false] at h ⊢
        exact F.reject_frame _ _ _ h

theorem arguments_frame (nesting : Nat) {ts : List Lexeme}
    (h : F.Fits (arguments nesting ts).2) :
    arguments nesting (F.run ts) =
      ((arguments nesting ts).1.map (List.map F.move.lexeme), F.run (arguments nesting ts).2) := by
  induction ts generalizing nesting with
  | nil =>
      rw [F.run_nil h.closed, arguments, F.run_nil h.closed]
      rfl
  | cons l rest ih =>
      rw [arguments_cons] at h ⊢
      rw [run_cons, arguments_cons]
      simp only [Shift.lexeme_toToken]
      by_cases hcut : cutsArguments l.kind = true
      · simp only [hcut, if_true]
        rfl
      · simp only [hcut] at h ⊢
        by_cases hclose : l.kind = .rightParen ∧ nesting = 0
        · simp only [hclose, and_self, if_true]
          rfl
        · simp only [hclose, if_false] at h ⊢
          rw [ih _ h]
          cases (arguments (nestingAfter l.kind nesting) rest).1 with
          | none => rfl
          | some args => rfl

theorem className_frame {ts : List Lexeme} (h : F.Fits (className F.inner ts).rest) :
    className F.outer (F.run ts) = F.reading F.move.selector (className F.inner ts) := by
  cases ts with
  | nil =>
      rw [F.run_nil h.closed]
      exact F.reject_nil_frame h.closed _ _
  | cons name rest =>
      rw [run_cons]
      unfold className at h ⊢
      simp only [Shift.lexeme_toToken]
      by_cases hk : name.kind = .ident
      · simp only [hk, if_true]
        rfl
      · simp only [hk, if_false] at h ⊢
        exact F.reject_frame _ _ _ h

theorem negation_frame (name : Bytes) {inner : Reading Selector}
    (h : F.Fits (negation F.inner name inner).rest) :
    negation F.outer name (F.reading F.move.selector inner) =
      F.reading F.move.selector (negation F.inner name inner) := by
  unfold negation at h ⊢
  simp only [reading_rest, reading_value, reading_issues]
  cases hc : dropBlank inner.rest with
  | nil =>
      simp only [hc] at h
      simp only [F.dropBlank_nil h.closed hc]
      rw [F.reject_nil_frame h.closed, reading, reading, List.map_append]
  | cons close rest =>
      simp only [hc] at h
      simp only [F.dropBlank_cons hc, Shift.lexeme_toToken]
      by_cases hk : close.kind = .rightParen
      · simp only [hk, if_true]
        rfl
      · simp only [hk, if_false] at h ⊢
        rw [← run_cons, F.reject_frame _ _ _ h, reading, reading, List.map_append]

theorem pseudoFunction_frame (name : Bytes) {ts : List Lexeme}
    (h : F.Fits (pseudoFunction F.inner name ts).rest) :
    pseudoFunction F.outer name (F.run ts) =
      F.reading F.move.selector (pseudoFunction F.inner name ts) := by
  have hrest : (pseudoFunction F.inner name ts).rest = (arguments 0 ts).2 := by
    unfold pseudoFunction
    simp only
    split
    · rfl
    · rfl
  rw [hrest] at h
  rw [pseudoFunction, pseudoFunction]
  simp only [F.arguments_frame 0 h]
  cases (arguments 0 ts).1 with
  | none =>
      simp only [Option.map_none, F.front_run h]
      rfl
  | some args =>
      simp only [Option.map_some, trim_relocated F.move.relocates]
      rfl

theorem simple_frame (depth : Nat) {ts : List Lexeme}
    (h : F.Fits (simple F.inner depth ts).rest) :
    simple F.outer depth (F.run ts) = F.reading F.move.selector (simple F.inner depth ts) := by
  fun_induction simple F.inner depth ts with
  | case1 depth ts hts =>
      rw [simple.eq_def]
      simp only [F.dropInsignificant_nil h.closed hts]
      exact F.reject_nil_frame h.closed _ _
  | case2 depth ts l rest hts hk =>
      rw [simple.eq_def]
      simp only [F.dropInsignificant_cons hts, Shift.lexeme_toToken, hk]
      rfl
  | case3 depth ts l rest hts hk =>
      rw [simple.eq_def]
      simp only [F.dropInsignificant_cons hts, Shift.lexeme_toToken, hk]
      rfl
  | case4 depth ts l rest hts hk =>
      rw [simple.eq_def]
      simp only [F.dropInsignificant_cons hts, Shift.lexeme_toToken, hk]
      exact F.attributeSelector_frame h
  | case5 depth ts l hk hts =>
      rw [simple.eq_def]
      simp only [F.dropInsignificant_cons hts, Shift.lexeme_toToken, hk, F.run_nil h.closed]
      exact F.reject_nil_frame h.closed _ _
  | case6 depth ts l hk name rest hn hts =>
      rw [simple.eq_def]
      simp only [F.dropInsignificant_cons hts, Shift.lexeme_toToken, hk, run_cons, hn, if_true]
      rfl
  | case7 ts l hk name rest hn hf hname hts =>
      rw [simple.eq_def]
      simp only [F.dropInsignificant_cons hts, Shift.lexeme_toToken, hk, run_cons, hf, hname,
        if_true]
      rw [F.limit]
      rfl
  | case8 ts l hk name rest hn hf hname depth hts ih =>
      rw [simple.eq_def]
      simp only [F.dropInsignificant_cons hts, Shift.lexeme_toToken, hk, run_cons, hf, hname,
        if_true]
      have hinner := ih (h.mono (negation_suffix F.inner name.value _))
      exact (congrArg (negation F.outer name.value) hinner).trans (F.negation_frame _ h)
  | case9 depth ts l hk name rest hn hf hname hts =>
      rw [simple.eq_def]
      simp only [F.dropInsignificant_cons hts, Shift.lexeme_toToken, hk, run_cons, hf, hname,
        if_true]
      exact F.pseudoFunction_frame _ h
  | case10 depth ts l hk name rest hn hf hts =>
      rw [simple.eq_def]
      simp only [F.dropInsignificant_cons hts, Shift.lexeme_toToken, hk, run_cons, hn, hf,
        if_false]
      rw [← run_cons]
      exact F.reject_frame _ _ _ h
  | case11 depth ts l rest hts hd _ _ _ _ =>
      rw [simple.eq_def]
      simp only [F.dropInsignificant_cons hts, Shift.lexeme_toToken, hd, if_true]
      rfl
  | case12 depth ts l rest hts hd hd' _ _ _ _ =>
      rw [simple.eq_def]
      simp only [F.dropInsignificant_cons hts, Shift.lexeme_toToken, hd, hd', if_true]
      exact F.className_frame h
  | case13 depth ts l rest hts hd hd' _ _ _ _ =>
      rw [simple.eq_def]
      simp only [F.dropInsignificant_cons hts, Shift.lexeme_toToken, hd, hd']
      exact F.reject_frame _ _ _ h

def link (link : Link) : Link :=
  { how := link.how, place := F.move.lexeme link.place, rest := F.run link.rest }

theorem takeWhile_run (test : Kind → Bool) {ts : List Lexeme}
    (h : F.Fits (ts.dropWhile fun m => test m.kind)) :
    (F.run ts).takeWhile (fun m => test m.kind) =
      (ts.takeWhile fun m => test m.kind).map F.move.lexeme := by
  induction ts with
  | nil =>
      rw [F.run_nil h.closed]
      rfl
  | cons t ts ih =>
      rw [List.dropWhile_cons] at h
      rw [run_cons, List.takeWhile_cons, List.takeWhile_cons]
      by_cases ht : test t.kind = true
      · rw [if_pos ht] at h
        rw [if_pos (show test (F.move.lexeme t).kind = true from ht), if_pos ht, ih h]
        rfl
      · rw [if_neg (show ¬ test (F.move.lexeme t).kind = true from ht), if_neg ht]
        rfl

theorem link?_frame {ts : List Lexeme} (h : F.Fits (dropBlank ts)) :
    link? (F.run ts) = (link? ts).map F.link := by
  have hspace : ((F.run ts).takeWhile fun l => l.kind.isBlank).any (fun l => l.kind = .whitespace)
      = (ts.takeWhile fun l => l.kind.isBlank).any fun l => l.kind = .whitespace := by
    rw [F.takeWhile_run Kind.isBlank h, List.any_map]
    rfl
  unfold link?
  rw [hspace]
  cases hts : dropBlank ts with
  | nil =>
      rw [hts] at h
      simp only [F.dropBlank_nil h.closed hts]
      rfl
  | cons l rest =>
      simp only [F.dropBlank_cons hts, Shift.lexeme_toToken, apply_ite (Option.map F.link)]
      rfl

/--
A chain reads the same in the frame. One that got too long has raised its issue before the
lexemes ran out.
-/
theorem chain_frame (depth : Nat) (place : Lexeme) (ts : List Lexeme)
    (h : (chain F.inner depth place ts).value = none ∨
      F.Fits (chain F.inner depth place ts).rest) :
    chain F.outer depth (F.move.lexeme place) (F.run ts) =
      F.reading (Option.map F.move.selector) (chain F.inner depth place ts) := by
  induction depth generalizing place ts with
  | zero =>
      rw [chain, chain, F.limit]
      rfl
  | succ depth ih =>
      rw [chain] at h ⊢
      rw [chain]
      cases hlink : link? (simple F.inner depth ts).rest with
      | none =>
          simp only [hlink, reduceCtorEq, false_or] at h ⊢
          have hfirst := F.simple_frame depth (h.mono (dropBlank_suffix _))
          have houter := F.link?_frame h
          rw [hlink] at houter
          simp only [hfirst, reading_rest, houter, Option.map_none, F.dropBlank_run h]
          rfl
      | some link =>
          simp only [hlink] at h ⊢
          have hrest := link?_rest_ne_nil hlink
          have hfirst := F.simple_frame depth (Or.inl fun hnil => hrest (by rw [hnil]; rfl))
          have houter := F.link?_frame (Or.inl hrest)
          rw [hlink] at houter
          have hnext := ih link.place link.rest (by
            rcases h with h | h
            · exact Or.inl (Option.map_eq_none_iff.mp h)
            · exact Or.inr h)
          simp only [hfirst, reading_rest, houter, Option.map_some, Frame.link, hnext]
          rw [reading, reading, reading, List.map_append]
          simp only [Option.map_map]
          rfl

theorem alternatives_frame {ts : List Lexeme} (hts : F.Fits ts)
    (h : (alternatives F.inner ts).value = none ∨ F.Fits (alternatives F.inner ts).rest) :
    alternatives F.outer (F.run ts) =
      F.reading (Option.map (List.map F.move.selector)) (alternatives F.inner ts) := by
  induction hn : ts.length using Nat.strongRecOn generalizing ts with
  | ind n ih =>
      subst hn
      have hsuffix := chain_suffix F.inner F.inner.limit (F.inner.front ts) ts
      have hfirst := F.chain_frame F.inner.limit (F.inner.front ts) ts
      rw [alternatives_eq] at h
      rw [alternatives_eq, alternatives_eq, F.limit, F.front_run hts]
      rcases hchain : chain F.inner F.inner.limit (F.inner.front ts) ts with
        ⟨value, issues, rest⟩
      rw [hchain] at h hsuffix hfirst
      cases value with
      | none =>
          rw [hfirst (Or.inl rfl)]
          rfl
      | some selector =>
          cases rest with
          | nil =>
              have hc := (h.resolve_left (Option.some_ne_none _)).closed
              rw [hfirst (Or.inr (Or.inr hc)), reading, F.run_nil hc]
              show _ = F.reading _ ({ value := some [selector], issues, rest := [] } : Reading _)
              rw [reading, F.run_nil hc]
              rfl
          | cons l rest =>
              rw [hfirst (Or.inr (Or.inl (List.cons_ne_nil l rest)))]
              simp only [alternativesAfter, reading_value, reading_rest, run_cons, Option.map_some,
                Shift.lexeme_toToken] at h ⊢
              by_cases hk : l.kind = .leftBrace
              · simp only [hk, if_true]
                rfl
              · by_cases hk' : l.kind = .comma
                · simp only [hk', if_true, reduceCtorEq, if_false] at h ⊢
                  have hmore : (alternatives F.inner (dropInsignificant rest)).value = none ∨
                      F.Fits (alternatives F.inner (dropInsignificant rest)).rest := by
                    rcases h with h | h
                    · exact Or.inl (Option.map_eq_none_iff.mp h)
                    · exact Or.inr h
                  have hfits : F.Fits (dropInsignificant rest) := by
                    by_cases hnil : dropInsignificant rest = []
                    · rw [hnil] at hmore ⊢
                      have hlimit : F.inner.limit ≠ 0 := by
                        intro hzero
                        rw [hzero] at hchain
                        cases hchain
                      have hend := alternatives_nil hlimit
                      exact hend.2 ▸ hmore.resolve_left hend.1
                    · exact Or.inl hnil
                  have hlt : (dropInsignificant rest).length < ts.length :=
                    Nat.lt_of_le_of_lt (dropInsignificant_suffix rest).length_le
                      hsuffix.length_le
                  rw [F.dropInsignificant_run hfits, ih _ hlt hfits hmore rfl]
                  rw [reading, reading, reading, List.map_append]
                  simp only [Option.map_map]
                  rfl
                · simp only [hk, hk', if_false]
                  rw [reading, reading, List.map_append]
                  rfl

end Frame
end CssText
