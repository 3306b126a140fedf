import CssText.Proofs.Parse.Accepted
import CssText.Proofs.Parse.Walk

/-!
# The turns of the loops

Three productions repeat a step until the input gives out: a sheet takes rule after rule, a
block declaration after declaration, and a group selector after selector, a comma before
each. Here each of the three is a loop with a body of its own, and what the reader returns
is shown to be what the turns of its loop found (`rules_turns`, `declarations_turns`,
`alternatives_turns`). A body takes a turn only if it passes over a lexeme, so no loop goes on
for ever, and the lexemes that a turn passes over pay for it and for the loops inside of it.
-/

namespace CssText
namespace Parse

/-- Lexemes of the list `ts` have been passed over, one at least, and `rest` is left. -/
def Passed (ts rest : List Lexeme) : Prop :=
  rest <:+ ts ∧ rest.length < ts.length

section

variable {bounds : Bounds} {ts us rest : List Lexeme} {l : Lexeme}

def Unended (ts : List Lexeme) : Prop :=
  ∀ l ∈ ts, l.kind ≠ .endOfInput

theorem Unended.mono (h : Unended ts) (hs : us <:+ ts) : Unended us :=
  fun l hl => h l (hs.subset hl)

theorem Passed.of_cons (h : us <:+ rest) : Passed (l :: rest) us :=
  ⟨h.trans (List.suffix_cons l rest), Nat.lt_succ_of_le h.length_le⟩

theorem Passed.of_suffix (h : Passed us rest) (hs : us <:+ ts) : Passed ts rest :=
  ⟨h.1.trans hs, Nat.lt_of_lt_of_le h.2 hs.length_le⟩

theorem Passed.of_dropBlank (h : dropBlank ts = l :: rest) (hs : us <:+ rest) : Passed ts us :=
  (Passed.of_cons hs).of_suffix (h ▸ dropBlank_suffix ts)

theorem Passed.of_dropInsignificant (h : dropInsignificant ts = l :: rest) (hs : us <:+ rest) :
    Passed ts us :=
  (Passed.of_cons hs).of_suffix (h ▸ dropInsignificant_suffix ts)

theorem Passed.front_lt (h : Passed ts rest) (hts : Ascending bounds ts) :
    (bounds.front ts).start < (bounds.front rest).start := by
  rcases h with ⟨hs, hlt⟩
  cases ts with
  | nil => exact absurd hlt (Nat.not_lt_zero _)
  | cons l ts =>
      rcases List.suffix_cons_iff.mp hs with rfl | hs
      · exact absurd hlt (Nat.lt_irrefl _)
      · exact hts.lt_front hs

end

/-!
## Loops
-/

/-- One turn of a loop: what it found, the issues it raised and the lexemes it left. -/
structure Turn (α : Type) where
  value : Option α
  issues : List Issue
  rest : List Lexeme
  /-- The loop ends with this turn, whatever it left. -/
  last : Bool := false
  /-- The turns that loops inside of this turn took. -/
  inner : Nat := 0

/-- A loop over lexemes. It ends where its body takes no turn. -/
structure Loop (α : Type) where
  body : List Lexeme → Option (Turn α)
  passed : ∀ {ts turn}, body ts = some turn → Passed ts turn.rest

namespace Loop

variable {α : Type}

def turns (loop : Loop α) (ts : List Lexeme) : List (Turn α) :=
  match h : loop.body ts with
  | none => []
  | some turn =>
      have : turn.rest.length < ts.length := (loop.passed h).2
      if turn.last then [turn] else turn :: loop.turns turn.rest
termination_by ts.length

def gather (loop : Loop α) (ts : List Lexeme) : Parsed (List α) :=
  { value := (loop.turns ts).filterMap Turn.value
    issues := (loop.turns ts).flatMap Turn.issues }

/-- The turns of a loop and of the loops inside of it. -/
def cost (loop : Loop α) (ts : List Lexeme) : Nat :=
  (loop.turns ts).foldr (fun turn more => turn.inner + 1 + more) 0

variable {loop : Loop α} {ts : List Lexeme} {turn : Turn α}

theorem turns_none (h : loop.body ts = none) : loop.turns ts = [] := by
  rw [turns.eq_def]
  split
  · rfl
  · rename_i h'
    rw [h] at h'
    cases h'

theorem turns_some (h : loop.body ts = some turn) :
    loop.turns ts = if turn.last then [turn] else turn :: loop.turns turn.rest := by
  rw [turns.eq_def]
  split
  · rename_i h'
    rw [h] at h'
    cases h'
  · rename_i h'
    rw [h] at h'
    cases h'
    rfl

theorem turns_last (h : loop.body ts = some turn) (hlast : turn.last = true) :
    loop.turns ts = [turn] := by
  rw [turns_some h, if_pos hlast]

theorem turns_next (h : loop.body ts = some turn) (hlast : turn.last = false) :
    loop.turns ts = turn :: loop.turns turn.rest := by
  rw [turns_some h, hlast]
  rfl

theorem body_nil (loop : Loop α) : loop.body [] = none := by
  cases h : loop.body [] with
  | none => rfl
  | some turn => exact absurd (loop.passed h).2 (Nat.not_lt_zero _)

theorem gather_none (h : loop.body ts = none) : loop.gather ts = { value := [], issues := [] } := by
  rw [gather, turns_none h]
  rfl

theorem gather_last (h : loop.body ts = some turn) (hlast : turn.last = true) :
    loop.gather ts = { value := turn.value.toList, issues := turn.issues } := by
  rw [gather, turns_last h hlast, List.flatMap_singleton, List.filterMap_cons]
  cases turn.value with
  | none => rfl
  | some a => rfl

theorem gather_next (h : loop.body ts = some turn) (hlast : turn.last = false) :
    loop.gather ts =
      { value := turn.value.toList ++ (loop.gather turn.rest).value
        issues := turn.issues ++ (loop.gather turn.rest).issues } := by
  rw [gather, turns_next h hlast, List.flatMap_cons, List.filterMap_cons]
  cases turn.value with
  | none => rfl
  | some a => rfl

theorem cost_nil (loop : Loop α) : loop.cost [] = 0 := by
  rw [cost, turns_none loop.body_nil]
  rfl

theorem cost_last (h : loop.body ts = some turn) (hlast : turn.last = true) :
    loop.cost ts = turn.inner + 1 := by
  rw [cost, turns_last h hlast]
  rfl

theorem cost_next (h : loop.body ts = some turn) (hlast : turn.last = false) :
    loop.cost ts = turn.inner + 1 + loop.cost turn.rest := by
  rw [cost, turns_next h hlast]
  rfl

/--
A reader gathers what the turns of a loop find if it returns what a turn finds and after it,
unless the turn is the last one, what it returns for the lexemes that the turn leaves.
-/
theorem gather_eq (read : List Lexeme → Parsed (List α))
    (hnone : ∀ ts, loop.body ts = none → read ts = { value := [], issues := [] })
    (hlast : ∀ ts turn, loop.body ts = some turn → turn.last = true →
      read ts = { value := turn.value.toList, issues := turn.issues })
    (hnext : ∀ ts turn, loop.body ts = some turn → turn.last = false →
      read ts =
        { value := turn.value.toList ++ (read turn.rest).value
          issues := turn.issues ++ (read turn.rest).issues })
    (ts : List Lexeme) : loop.gather ts = read ts := by
  induction ts using turns.induct loop with
  | case1 ts h => rw [gather_none h, hnone ts h]
  | case2 ts turn h hlt hl => rw [gather_last h hl, hlast ts turn h hl]
  | case3 ts turn h hlt hl ih =>
      have hl := eq_false_of_ne_true hl
      rw [gather_next h hl, hnext ts turn h hl, ih]

/-- Each turn of a loop is paid for by a lexeme. -/
theorem length_turns_le (loop : Loop α) (ts : List Lexeme) :
    (loop.turns ts).length ≤ ts.length := by
  induction ts using turns.induct loop with
  | case1 ts h =>
      rw [turns_none h]
      exact Nat.zero_le _
  | case2 ts turn h hlt hlast =>
      rw [turns_last h hlast]
      exact Nat.lt_of_le_of_lt (Nat.zero_le _) hlt
  | case3 ts turn h hlt hlast ih =>
      rw [turns_next h (eq_false_of_ne_true hlast), List.length_cons]
      exact Nat.lt_of_le_of_lt ih hlt

/--
If the lexemes that a turn passes over pay for it and for the loops inside of it, then the
lexemes pay for all turns. A turn that leaves nothing may take one more, since it is the last.
-/
theorem cost_le
    (hturn : ∀ us turn, us <:+ ts → loop.body us = some turn →
      turn.inner + 1 + turn.rest.length ≤ us.length ∨
        (turn.rest = [] ∧ turn.inner ≤ us.length)) :
    loop.cost ts ≤ ts.length + 1 := by
  induction ts using turns.induct loop with
  | case1 ts h =>
      rw [cost, turns_none h]
      exact Nat.zero_le _
  | case2 ts turn h hlt hlast =>
      have hpaid := hturn ts turn (List.suffix_refl ts) h
      rw [cost_last h hlast]
      omega
  | case3 ts turn h hlt hlast ih =>
      have hmore := ih fun us turn hus => hturn us turn (hus.trans (loop.passed h).1)
      rw [cost_next h (eq_false_of_ne_true hlast)]
      rcases hturn ts turn (List.suffix_refl ts) h with hpaid | ⟨hnil, hinner⟩
      · omega
      · rw [hnil, cost_nil]
        omega

end Loop

/-!
## The loop over declarations

The brace that is handed back at the end of a block has paid for the turn that took it.
-/

def declarationBody (bounds : Bounds) (inBlock : Bool) (ts : List Lexeme) :
    Option (Turn Declaration) :=
  match dropBlank ts with
  | [] => none
  | l :: rest =>
      some <|
        if l.kind = .rightBrace then
          if inBlock then
            { value := none, issues := [], rest, last := true }
          else
            { value := none, issues := [⟨.strayBrace .declarationList, l⟩], rest }
        else if separatesDeclarations l.kind then
          { value := none, issues := [], rest }
        else if l.kind = .ident then
          match declaration bounds l rest with
          | (.ok d, after) => { value := some d, issues := [], rest := after }
          | (.error fault, after) =>
              { value := none
                issues := [fault.issue]
                rest := skipDeclaration fault.opened after }
        else
          { value := none
            issues := [⟨.expected .declarationList .declaration, l⟩]
            rest := skipDeclaration [] (l :: rest) }

theorem declarationBody_passed (bounds : Bounds) (inBlock : Bool) {ts : List Lexeme}
    {turn : Turn Declaration} (h : declarationBody bounds inBlock ts = some turn) :
    Passed ts turn.rest := by
  unfold declarationBody at h
  split at h
  · cases h
  · rename_i l rest hts
    refine Passed.of_dropBlank hts ?_
    have hturn := Option.some.inj h
    split at hturn
    · split at hturn
      · exact hturn ▸ List.suffix_refl rest
      · exact hturn ▸ List.suffix_refl rest
    · rename_i hbrace
      split at hturn
      · exact hturn ▸ List.suffix_refl rest
      · split at hturn
        · have hafter := declaration_suffix bounds l rest
          split at hturn
          · rename_i d after hd
            rw [hd] at hafter
            exact hturn ▸ hafter
          · rename_i fault after hd
            rw [hd] at hafter
            exact hturn ▸ (skipDeclaration_suffix fault.opened after).trans hafter
        · exact hturn ▸ skipDeclaration_cons_suffix hbrace [] rest

/-- The loop of a declaration list. In a block it ends with the turn that takes the brace. -/
def declarationLoop (bounds : Bounds) (inBlock : Bool) : Loop Declaration where
  body := declarationBody bounds inBlock
  passed := declarationBody_passed bounds inBlock

theorem declarationBody_none {bounds : Bounds} {inBlock : Bool} {ts : List Lexeme} :
    declarationBody bounds inBlock ts = none ↔ dropBlank ts = [] := by
  unfold declarationBody
  split
  · rename_i h
    exact iff_of_true rfl h
  · rename_i h
    rw [h]
    exact iff_of_false (Option.some_ne_none _) (List.cons_ne_nil _ _)

def declarationsNext (bounds : Bounds) (inBlock : Bool) (ts : List Lexeme)
    (turn : Turn Declaration) : Reading (List Declaration) :=
  if turn.last then
    { value := [], issues := [], rest := dropBlank ts }
  else
    let more := declarations bounds inBlock turn.rest
    { value := turn.value.toList ++ more.value
      issues := turn.issues ++ more.issues
      rest := more.rest }

theorem declarations_next {bounds : Bounds} {inBlock : Bool} {ts : List Lexeme}
    {turn : Turn Declaration} (h : declarationBody bounds inBlock ts = some turn) :
    declarations bounds inBlock ts = declarationsNext bounds inBlock ts turn ∧
      (turn.last = true → turn.value = none ∧ turn.issues = [] ∧
        turn.rest = (dropBlank ts).tail) := by
  rw [declarations_eq]
  unfold declarationBody at h
  split at h
  · cases h
  · rename_i l rest hts
    have hturn := Option.some.inj h
    subst hturn
    rw [declarationsNext, hts, declarationsAfter]
    by_cases hbrace : l.kind = .rightBrace
    · rw [if_pos hbrace, if_pos hbrace]
      cases inBlock with
      | true => exact ⟨rfl, fun _ => ⟨rfl, rfl, rfl⟩⟩
      | false => exact ⟨rfl, fun h => Bool.noConfusion h⟩
    · rw [if_neg hbrace, if_neg hbrace]
      by_cases hsep : separatesDeclarations l.kind = true
      · rw [if_pos hsep, if_pos hsep]
        exact ⟨rfl, fun h => Bool.noConfusion h⟩
      · rw [if_neg hsep, if_neg hsep]
        by_cases hident : l.kind = .ident
        · rw [if_pos hident, if_pos hident]
          rcases declaration bounds l rest with ⟨result, after⟩
          cases result with
          | ok d => exact ⟨rfl, fun h => Bool.noConfusion h⟩
          | error fault => exact ⟨rfl, fun h => Bool.noConfusion h⟩
        · rw [if_neg hident, if_neg hident]
          exact ⟨rfl, fun h => Bool.noConfusion h⟩

theorem declarations_turns (bounds : Bounds) (inBlock : Bool) (ts : List Lexeme) :
    (declarationLoop bounds inBlock).gather ts =
      { value := (declarations bounds inBlock ts).value
        issues := (declarations bounds inBlock ts).issues } := by
  refine Loop.gather_eq
    (fun ts =>
      { value := (declarations bounds inBlock ts).value
        issues := (declarations bounds inBlock ts).issues })
    (fun ts h => ?_) (fun ts turn h hlast => ?_) (fun ts turn h hlast => ?_) ts
  · rw [declarations_eq, declarationBody_none.mp h]
    rfl
  · rcases declarations_next h with ⟨hnext, hends⟩
    rcases hends hlast with ⟨hvalue, hissues, -⟩
    rw [hnext, declarationsNext, if_pos hlast, hvalue, hissues]
    rfl
  · rw [(declarations_next h).1, declarationsNext, hlast]
    rfl

theorem length_declaration_turns_le (bounds : Bounds) (inBlock : Bool) (ts : List Lexeme) :
    ((declarationLoop bounds inBlock).turns ts).length +
      (declarations bounds inBlock ts).rest.tail.length ≤ ts.length := by
  induction ts using Loop.turns.induct (declarationLoop bounds inBlock) with
  | case1 ts h =>
      rw [Loop.turns_none h, declarations_eq, declarationBody_none.mp h]
      exact Nat.zero_le _
  | case2 ts turn h hlt hlast =>
      rcases declarations_next h with ⟨hnext, hends⟩
      rw [(hends hlast).2.2] at hlt
      rw [Loop.turns_last h hlast, hnext, declarationsNext, if_pos hlast]
      exact Nat.add_comm 1 _ ▸ hlt
  | case3 ts turn h hlt hlast ih =>
      rw [Loop.turns_next h (eq_false_of_ne_true hlast), (declarations_next h).1,
        declarationsNext, if_neg hlast, List.length_cons]
      simp only
      omega

/-!
## The loop over commas

A chain that was read ends before a left brace, a comma or the end of the input, and a simple
selector leaves its first lexeme only there. So a group ends with its first chain, which may
have failed, or goes on behind a comma. The lexemes that a group passes over pay for the turns
of its loop, and for one more if the group fails, unless no chain fits the limit.
-/

theorem endsSelector_of_link? {ts rest : List Lexeme} {l : Lexeme} (h : link? ts = none)
    (hts : dropBlank ts = l :: rest) : endsSelector l.kind = true := by
  cases hends : endsSelector l.kind with
  | true => rfl
  | false =>
      simp only [link?, hts, hends, Bool.false_eq_true, if_false] at h
      repeat' split at h
      all_goals cases h

theorem endsChain_of_chain {bounds : Bounds} {depth : Nat} {place : Lexeme} {ts : List Lexeme}
    (hv : (chain bounds depth place ts).value ≠ none) :
    EndsChain (chain bounds depth place ts).rest := by
  induction depth generalizing place ts with
  | zero => exact absurd rfl hv
  | succ depth ih =>
      rw [chain] at hv ⊢
      simp only at hv ⊢
      split at hv
      · rename_i hlink
        intro l hl
        rcases List.head?_eq_some_iff.mp hl with ⟨rest, hrest⟩
        exact endsSelector_of_link? hlink hrest
      · exact ih fun hnone => hv (Option.map_eq_none_iff.mpr hnone)

theorem chain_stop {bounds : Bounds} {depth : Nat} {place : Lexeme} {ts : List Lexeme}
    (hts : Unended ts) (hv : (chain bounds depth place ts).value ≠ none) :
    ∀ l ∈ (chain bounds depth place ts).rest.head?, l.kind = .leftBrace ∨ l.kind = .comma := by
  intro l hl
  have hends := endsChain_of_chain hv l hl
  have hend := hts.mono (chain_suffix bounds depth place ts) l (List.mem_of_mem_head? hl)
  simpa [endsSelector, hend] using hends

theorem simple_moves (bounds : Bounds) (depth : Nat) (ts : List Lexeme) :
    link? (simple bounds depth ts).rest = none ∨
      (simple bounds depth ts).rest.length < ts.length := by
  fun_induction simple bounds depth ts with
  | case1 depth ts h => exact Or.inl rfl
  | case2 depth ts l rest h hk =>
      exact Or.inr (Passed.of_dropInsignificant h (List.suffix_refl rest)).2
  | case3 depth ts l rest h hk =>
      exact Or.inr (Passed.of_dropInsignificant h (List.suffix_refl rest)).2
  | case4 depth ts l rest h hk =>
      exact Or.inr (Passed.of_dropInsignificant h (attributeSelector_suffix bounds rest)).2
  | case5 depth ts l hk h => exact Or.inl rfl
  | case6 depth ts l hk name rest hn h =>
      exact Or.inr (Passed.of_dropInsignificant h (List.suffix_cons name rest)).2
  | case7 ts l hk name rest hn hf hname h =>
      exact Or.inr (Passed.of_dropInsignificant h (List.suffix_cons name rest)).2
  | case8 ts l hk name rest hn hf hname depth h ih =>
      have hinner := (negation_suffix bounds name.value (simple bounds depth rest)).trans
        (simple_suffix bounds depth rest)
      exact Or.inr (Passed.of_dropInsignificant h (hinner.trans (List.suffix_cons name rest))).2
  | case9 depth ts l hk name rest hn hf hname h =>
      have hinner := pseudoFunction_suffix bounds name.value rest
      exact Or.inr (Passed.of_dropInsignificant h (hinner.trans (List.suffix_cons name rest))).2
  | case10 depth ts l hk name rest hn hf h =>
      exact Or.inr (Passed.of_dropInsignificant h (reject_suffix bounds _ _ (name :: rest))).2
  | case11 depth ts l rest h hd =>
      exact Or.inr (Passed.of_dropInsignificant h (List.suffix_refl rest)).2
  | case12 depth ts l rest h hd hd' =>
      exact Or.inr (Passed.of_dropInsignificant h (className_suffix bounds rest)).2
  | case13 depth ts l rest h hd hd' =>
      rw [reject, passUnlessEnd]
      split
      · rename_i hends
        left
        rw [link?, dropBlank_self (isBlank_of_endsSelector hends)]
        exact if_pos hends
      · exact Or.inr (Passed.of_dropInsignificant h (List.suffix_refl rest)).2

/-- A chain that is too deep has passed over a lexeme, unless nothing fits the limit. -/
theorem chain_none_lt {bounds : Bounds} {depth : Nat} {place : Lexeme} {ts : List Lexeme}
    (hv : (chain bounds (depth + 1) place ts).value = none) :
    (chain bounds (depth + 1) place ts).rest.length < ts.length := by
  rw [chain] at hv ⊢
  simp only at hv ⊢
  split at hv
  · cases hv
  · rename_i link hlink
    rcases simple_moves bounds depth ts with hnone | hlt
    · rw [hnone] at hlink
      cases hlink
    · have hchain := chain_suffix bounds depth link.place link.rest
      exact Nat.lt_of_le_of_lt (hchain.trans (link?_suffix hlink)).length_le hlt

def commaTurn (bounds : Bounds) (rest : List Lexeme) : Turn Selector :=
  let start := dropInsignificant rest
  let next := chain bounds bounds.limit (bounds.front start) start
  { value := next.value
    issues := next.issues
    rest := next.rest
    last := next.value.isNone }

def commaBody (bounds : Bounds) : List Lexeme → Option (Turn Selector)
  | [] => none
  | l :: rest =>
      if l.kind = .leftBrace then
        none
      else if l.kind = .comma then
        some (commaTurn bounds rest)
      else
        some { value := none
               issues := [⟨.expected .selectorGroup .comma, l⟩]
               rest
               last := true }

theorem commaBody_passed (bounds : Bounds) {ts : List Lexeme} {turn : Turn Selector}
    (h : commaBody bounds ts = some turn) : Passed ts turn.rest := by
  unfold commaBody at h
  split at h
  · cases h
  · rename_i l rest
    refine Passed.of_cons ?_
    split at h
    · cases h
    · split at h
      · cases h
        exact (chain_suffix bounds _ _ _).trans (dropInsignificant_suffix rest)
      · cases h
        exact List.suffix_refl rest

/--
The loop of a group, before which its first chain has been read. It ends with a turn that
fails, before a left brace and at the end of the input.
-/
def commaLoop (bounds : Bounds) : Loop Selector where
  body := commaBody bounds
  passed := commaBody_passed bounds

def groupTurns (bounds : Bounds) (ts : List Lexeme) : List (Turn Selector) :=
  let first := chain bounds bounds.limit (bounds.front ts) ts
  if first.value.isSome then (commaLoop bounds).turns first.rest else []

def groupOf (first : Reading (Option Selector)) (turns : List (Turn Selector)) :
    Reading (Option SelectorGroup) :=
  { value := first.value.bind fun selector => (turns.mapM Turn.value).map (selector :: ·)
    issues := first.issues ++ turns.flatMap Turn.issues
    rest := (turns.getLast?.map Turn.rest).getD first.rest }

section

variable {bounds : Bounds} {ts rest : List Lexeme} {l : Lexeme}

theorem groupTurns_none (hv : (chain bounds bounds.limit (bounds.front ts) ts).value = none) :
    groupTurns bounds ts = [] := by
  rw [groupTurns, hv]
  rfl

theorem groupTurns_some {selector : Selector}
    (hv : (chain bounds bounds.limit (bounds.front ts) ts).value = some selector) :
    groupTurns bounds ts =
      (commaLoop bounds).turns (chain bounds bounds.limit (bounds.front ts) ts).rest := by
  rw [groupTurns, hv]
  rfl

theorem turns_comma (hl : l.kind = .comma) :
    (commaLoop bounds).turns (l :: rest) =
      commaTurn bounds rest :: groupTurns bounds (dropInsignificant rest) := by
  have hbody : (commaLoop bounds).body (l :: rest) = some (commaTurn bounds rest) := by
    show commaBody bounds (l :: rest) = _
    rw [commaBody, hl]
    rfl
  cases hv : (commaTurn bounds rest).value with
  | none =>
      rw [Loop.turns_last hbody (Option.isNone_iff_eq_none.mpr hv), groupTurns_none hv]
  | some selector =>
      rw [Loop.turns_next hbody (Option.isNone_eq_false_iff.mpr (Option.isSome_of_eq_some hv)),
        groupTurns_some hv]
      rfl

theorem turns_leftBrace (hl : l.kind = .leftBrace) : (commaLoop bounds).turns (l :: rest) = [] := by
  refine Loop.turns_none ?_
  show commaBody bounds (l :: rest) = none
  rw [commaBody, if_pos hl]

theorem group_cases (hts : Unended ts) {first : Reading (Option Selector)}
    (hfirst : chain bounds bounds.limit (bounds.front ts) ts = first) :
    (groupTurns bounds ts = [] ∧
        alternatives bounds ts =
          { value := first.value.map ([·]), issues := first.issues, rest := first.rest }) ∨
      ∃ selector rest, first.value = some selector ∧ Passed ts (dropInsignificant rest) ∧
        groupTurns bounds ts =
          commaTurn bounds rest :: groupTurns bounds (dropInsignificant rest) ∧
        alternatives bounds ts =
          let more := alternatives bounds (dropInsignificant rest)
          { value := more.value.map (selector :: ·)
            issues := first.issues ++ more.issues
            rest := more.rest } := by
  have hstop := @chain_stop bounds bounds.limit (bounds.front ts) ts hts
  have hnone := @groupTurns_none bounds ts
  have hsome := @groupTurns_some bounds ts
  have hsuffix := chain_suffix bounds bounds.limit (bounds.front ts) ts
  rw [alternatives_eq, alternativesAfter]
  rw [hfirst] at hstop hnone hsome hsuffix ⊢
  rcases first with ⟨value, issues, after⟩
  cases value with
  | none => exact Or.inl ⟨hnone rfl, rfl⟩
  | some selector =>
      rw [hsome rfl]
      cases after with
      | nil => exact Or.inl ⟨Loop.turns_none rfl, rfl⟩
      | cons l rest =>
          simp only
          by_cases hbrace : l.kind = .leftBrace
          · rw [if_pos hbrace]
            exact Or.inl ⟨turns_leftBrace hbrace, rfl⟩
          · have hcomma : l.kind = .comma :=
              (hstop (Option.some_ne_none _) l rfl).resolve_left hbrace
            have hpassed := (Passed.of_cons (dropInsignificant_suffix rest)).of_suffix hsuffix
            rw [if_neg hbrace, if_pos hcomma]
            exact Or.inr ⟨selector, rest, rfl, hpassed, turns_comma hcomma, rfl⟩

/-- Induction along the commas of a group. -/
theorem group_induction {motive : ∀ ts, Unended ts → Prop}
    (ends : ∀ ts hts, groupTurns bounds ts = [] →
      (let first := chain bounds bounds.limit (bounds.front ts) ts
       alternatives bounds ts =
        { value := first.value.map ([·]), issues := first.issues, rest := first.rest }) →
      motive ts hts)
    (comma : ∀ ts hts selector rest (hpassed : Passed ts (dropInsignificant rest)),
      (chain bounds bounds.limit (bounds.front ts) ts).value = some selector →
      groupTurns bounds ts =
        commaTurn bounds rest :: groupTurns bounds (dropInsignificant rest) →
      (let more := alternatives bounds (dropInsignificant rest)
       alternatives bounds ts =
        { value := more.value.map (selector :: ·)
          issues := (chain bounds bounds.limit (bounds.front ts) ts).issues ++ more.issues
          rest := more.rest }) →
      motive (dropInsignificant rest) (hts.mono hpassed.1) → motive ts hts)
    (ts : List Lexeme) (hts : Unended ts) : motive ts hts := by
  induction hn : ts.length using Nat.strongRecOn generalizing ts with
  | ind n ih =>
      subst hn
      rcases group_cases hts rfl with
        ⟨hturns, hgroup⟩ | ⟨selector, rest, hv, hpassed, hturns, hgroup⟩
      · exact ends ts hts hturns hgroup
      · exact comma ts hts selector rest hpassed hv hturns hgroup (ih _ hpassed.2 _ _ rfl)

theorem groupOf_cons {first : Reading (Option Selector)} {selector : Selector}
    (hv : first.value = some selector) (rest : List Lexeme) (turns : List (Turn Selector)) :
    groupOf first (commaTurn bounds rest :: turns) =
      let start := dropInsignificant rest
      let more := groupOf (chain bounds bounds.limit (bounds.front start) start) turns
      { value := more.value.map (selector :: ·)
        issues := first.issues ++ more.issues
        rest := more.rest } := by
  rw [groupOf, hv, List.mapM_cons, List.flatMap_cons]
  simp only [groupOf, commaTurn, Reading.mk.injEq, List.getLast?_cons, true_and]
  constructor
  · refine congrArg (Option.map (selector :: ·)) ?_
    cases turns.mapM Turn.value with
    | none => rfl
    | some selectors => rfl
  · cases turns.getLast? with
    | none => rfl
    | some turn => rfl

theorem alternatives_turns (hts : Unended ts) :
    alternatives bounds ts =
      groupOf (chain bounds bounds.limit (bounds.front ts) ts) (groupTurns bounds ts) := by
  induction ts, hts using @group_induction bounds with
  | ends ts hts hturns hgroup =>
      rw [hturns, hgroup, groupOf, List.mapM_nil, List.flatMap_nil, List.append_nil]
      cases (chain bounds bounds.limit (bounds.front ts) ts).value with
      | none => rfl
      | some selector => rfl
  | comma ts hts selector rest hpassed hv hturns hgroup ih =>
      rw [hturns, hgroup, groupOf_cons hv, ih]

theorem length_groupTurns_le (hts : Unended ts) :
    (groupTurns bounds ts).length + (alternatives bounds ts).rest.length ≤ ts.length := by
  induction ts, hts using @group_induction bounds with
  | ends ts hts hturns hgroup =>
      rw [hturns, hgroup]
      exact Nat.zero_add _ ▸ (chain_suffix bounds _ _ ts).length_le
  | comma ts hts selector rest hpassed hv hturns hgroup ih =>
      have hlt := hpassed.2
      rw [hturns, hgroup, List.length_cons]
      simp only
      omega

theorem length_groupTurns_lt (hts : Unended ts) (hlimit : bounds.limit ≠ 0)
    (hv : (alternatives bounds ts).value = none) :
    (groupTurns bounds ts).length + (alternatives bounds ts).rest.length < ts.length := by
  induction ts, hts using @group_induction bounds with
  | ends ts hts hturns hgroup =>
      rw [hgroup] at hv
      have hfirst := Option.map_eq_none_iff.mp hv
      rcases Nat.exists_eq_succ_of_ne_zero hlimit with ⟨depth, hdepth⟩
      rw [hturns, hgroup]
      rw [hdepth] at hfirst ⊢
      exact Nat.zero_add _ ▸ chain_none_lt hfirst
  | comma ts hts selector rest hpassed hfirst hturns hgroup ih =>
      rw [hgroup] at hv
      have hmore := ih (Option.map_eq_none_iff.mp hv)
      have hlt := hpassed.2
      rw [hturns, hgroup, List.length_cons]
      simp only
      omega

end

/-!
## The loop over rules

Inside of a style rule there are the loop over the commas of its selectors and the one over the
declarations of its block. A bare block has no selectors to loop over.
-/

def selectorTurns (bounds : Bounds) (ts : List Lexeme) : Nat :=
  if (bounds.front ts).kind = .leftBrace then 0 else (groupTurns bounds ts).length

def blockTurns (bounds : Bounds) (selectors : Reading (Option SelectorGroup)) : Nat :=
  match selectors.value, dropInsignificant selectors.rest with
  | some _, l :: rest =>
      if l.kind = .leftBrace then ((declarationLoop bounds true).turns rest).length else 0
  | _, _ => 0

def ruleTurns (bounds : Bounds) (ts : List Lexeme) : Nat :=
  selectorTurns bounds ts + blockTurns bounds (ruleSelectors bounds ts)

/-- White space between rules takes a turn for each of its lexemes. -/
def sheetBody (bounds : Bounds) : List Lexeme → Option (Turn Rule)
  | [] => none
  | l :: rest =>
      some <|
        if l.kind.isInsignificant then
          { value := none, issues := [], rest }
        else if l.kind = .rightBrace then
          { value := none, issues := [⟨.strayBrace .styleSheet, l⟩], rest }
        else if l.kind = .atKeyword then
          let rule := atRule bounds l.value rest
          { value := rule.value.map .atRule, issues := rule.issues, rest := rule.rest }
        else
          let rule := styleRule bounds (l :: rest)
          { value := rule.value.map .style
            issues := rule.issues
            rest := if rule.value.isSome then rule.rest else resume bounds l rest rule.rest
            inner := ruleTurns bounds (l :: rest) }

theorem styleRule_passed (bounds : Bounds) (l : Lexeme) (rest : List Lexeme) :
    (if (styleRule bounds (l :: rest)).value.isSome then (styleRule bounds (l :: rest)).rest
      else resume bounds l rest (styleRule bounds (l :: rest)).rest) <:+ rest := by
  have hsuffix := styleRule_suffix bounds (l :: rest)
  cases hv : (styleRule bounds (l :: rest)).value with
  | none => exact resume_suffix hsuffix
  | some rule =>
      have hlt := length_styleRule_lt hv
      rcases List.suffix_cons_iff.mp hsuffix with heq | hrest
      · exact absurd hlt (Nat.not_lt_of_le (Nat.le_of_eq (congrArg List.length heq).symm))
      · exact hrest

theorem sheetBody_passed (bounds : Bounds) {ts : List Lexeme} {turn : Turn Rule}
    (h : sheetBody bounds ts = some turn) : Passed ts turn.rest := by
  unfold sheetBody at h
  split at h
  · cases h
  · rename_i l rest
    refine Passed.of_cons ?_
    have hturn := Option.some.inj h
    split at hturn
    · exact hturn ▸ List.suffix_refl rest
    · split at hturn
      · exact hturn ▸ List.suffix_refl rest
      · split at hturn
        · exact hturn ▸ atRule_suffix bounds l.value rest
        · exact hturn ▸ styleRule_passed bounds l rest

def sheetLoop (bounds : Bounds) : Loop Rule where
  body := sheetBody bounds
  passed := sheetBody_passed bounds

theorem rules_next {bounds : Bounds} {ts : List Lexeme} {turn : Turn Rule}
    (h : sheetBody bounds ts = some turn) :
    turn.last = false ∧
      rules bounds ts = consRule turn.value turn.issues (rules bounds turn.rest) := by
  unfold sheetBody at h
  split at h
  · cases h
  · rename_i l rest
    have hturn := Option.some.inj h
    subst hturn
    rw [rules_eq]
    cases hblank : l.kind.isInsignificant with
    | true =>
        refine ⟨rfl, ?_⟩
        rw [if_pos rfl, dropInsignificant, List.dropWhile_cons, if_pos hblank]
        exact (rules_eq bounds rest).symm
    | false =>
        rw [dropInsignificant_self hblank, rulesAfter]
        simp only [Bool.false_eq_true, if_false]
        by_cases hbrace : l.kind = .rightBrace
        · rw [if_pos hbrace, if_pos hbrace]
          exact ⟨rfl, rfl⟩
        · rw [if_neg hbrace, if_neg hbrace]
          by_cases hat : l.kind = .atKeyword
          · rw [if_pos hat, if_pos hat]
            exact ⟨rfl, rfl⟩
          · rw [if_neg hat, if_neg hat]
            refine ⟨rfl, ?_⟩
            cases hv : (styleRule bounds (l :: rest)).value with
            | none => rfl
            | some rule => rfl

theorem rules_turns (bounds : Bounds) (ts : List Lexeme) :
    (sheetLoop bounds).gather ts =
      { value := (rules bounds ts).value, issues := (rules bounds ts).issues } := by
  refine Loop.gather_eq
    (fun ts => { value := (rules bounds ts).value, issues := (rules bounds ts).issues })
    (fun ts h => ?_) (fun ts turn h hlast => ?_) (fun ts turn h hlast => ?_) ts
  · cases ts with
    | nil =>
        rw [rules_eq]
        rfl
    | cons l rest => cases h
  · rw [(rules_next h).1] at hlast
    cases hlast
  · rw [(rules_next h).2]
    rfl

end Parse
end CssText
