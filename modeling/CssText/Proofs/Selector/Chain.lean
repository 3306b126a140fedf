import CssText.Proofs.Selector.Sentinel
import CssText.Proofs.Selector.Shape
import CssText.Proofs.Sheet.Progress

/-!
# The loop of a chain

A chain can also be read by a loop: read a simple selector, and as long as a link follows, read
the rest of the chain by a call of its own and combine the first selector with what it returned.
A second turn of that loop would combine the first selector anew and lose what the first turn
found. Here the loop keeps an account of what it has read and how often it has combined. There
never is a second turn, because the rest of a chain ends only where no link follows, so the loop
reads chains as `chain` does, and every simple selector that was read is in the tree
(`chain_loop`).
-/

namespace CssText
namespace Parse

/-!
## Calls

A loop stops where no link follows, and what was passed over to see that stays passed over.
Else it calls for the rest of the chain. It is given up with that call, or replaces what it has
by the first selector combined with what the call returned.
-/

/-- What a call for a chain returns, and what it has done for it. -/
structure Account where
  /-- The chain so far. There is none once it is too deep. -/
  value : Option Selector
  issues : List Issue
  rest : List Lexeme
  /-- How often the call has combined its first selector with something. -/
  combined : Nat := 0
  /-- The simple selectors that were read, by the call itself and by its calls for the rest. -/
  simples : List Selector

namespace Account

def reading (a : Account) : Reading (Option Selector) :=
  { value := a.value, issues := a.issues, rest := a.rest }

def stop (a : Account) : Account :=
  { a with rest := dropBlank a.rest }

def giveUp (a next : Account) : Account :=
  { value := none
    issues := a.issues ++ next.issues
    rest := next.rest
    combined := a.combined
    simples := a.simples ++ next.simples }

def combine (a : Account) (how : Combinator) (first right : Selector) (next : Account) : Account :=
  { value := some (.combine how first right)
    issues := a.issues ++ next.issues
    rest := next.rest
    combined := a.combined + 1
    simples := a.simples ++ next.simples }

def ofFirst (first : Reading Selector) : Account :=
  { value := some first.value
    issues := first.issues
    rest := first.rest
    simples := [first.value] }

end Account

/-- The loop behind the first selector. The rest of the chain is read by `call`. -/
inductive ChainLoop (call : Lexeme → List Lexeme → Account → Prop) (first : Selector) :
    Account → Account → Prop where
  | stop {a : Account} : link? a.rest = none → ChainLoop call first a a.stop
  | giveUp {a next : Account} {link : Link} : link? a.rest = some link →
      call link.place link.rest next → next.value = none →
      ChainLoop call first a (a.giveUp next)
  | turn {a next result : Account} {link : Link} {right : Selector} :
      link? a.rest = some link → call link.place link.rest next → next.value = some right →
      ChainLoop call first (a.combine link.how first right next) result →
      ChainLoop call first a result

/-- The calls for a chain, by the depth that is left. -/
def ChainCall (bounds : Bounds) : Nat → Lexeme → List Lexeme → Account → Prop
  | 0, place, ts, a =>
      a = { value := none, issues := [⟨.tooDeep bounds.limit, place⟩], rest := ts, simples := [] }
  | depth + 1, _, ts, a =>
      ChainLoop (ChainCall bounds depth) (simple bounds depth ts).value
        (.ofFirst (simple bounds depth ts)) a

/-!
## One turn

If calls return only where a chain ends, a loop that starts takes one turn at the most.
-/

section

variable {bounds : Bounds} {call : Lexeme → List Lexeme → Account → Prop} {first : Selector}
  {a result : Account} {ts : List Lexeme}

theorem EndsChain.link?_eq_none (h : EndsChain ts) : link? ts = none := by
  rw [← List.nil_append ts, h.link?_append]
  rfl

theorem EndsChain.dropBlank_eq (h : EndsChain ts) : dropBlank ts = ts := by
  rw [← List.nil_append ts, h.dropBlank_append]
  rfl

theorem ChainLoop.eq_of_endsChain (h : ChainLoop call first a result) (hends : EndsChain a.rest) :
    result = a := by
  have hnone := hends.link?_eq_none
  cases h with
  | stop _ => rw [Account.stop, hends.dropBlank_eq]
  | giveUp hlink _ _ =>
      rw [hnone] at hlink
      cases hlink
  | turn hlink _ _ _ =>
      rw [hnone] at hlink
      cases hlink

theorem chainLoop_iff
    (hcall : ∀ place ts next, call place ts next → next.value ≠ none → EndsChain next.rest) :
    ChainLoop call first a result ↔
      (link? a.rest = none ∧ result = a.stop) ∨
        ∃ link next, link? a.rest = some link ∧ call link.place link.rest next ∧
          ((next.value = none ∧ result = a.giveUp next) ∨
            ∃ right, next.value = some right ∧
              result = a.combine link.how first right next) := by
  constructor
  · intro h
    cases h with
    | stop hlink => exact Or.inl ⟨hlink, rfl⟩
    | giveUp hlink hnext hnone => exact Or.inr ⟨_, _, hlink, hnext, Or.inl ⟨hnone, rfl⟩⟩
    | turn hlink hnext hright hmore =>
        -- a second turn would begin where the first call returned, and no link follows there
        have hends := hcall _ _ _ hnext (hright ▸ Option.some_ne_none _)
        exact Or.inr ⟨_, _, hlink, hnext, Or.inr ⟨_, hright, hmore.eq_of_endsChain hends⟩⟩
  · intro h
    rcases h with ⟨hlink, rfl⟩ | ⟨link, next, hlink, hnext, ⟨hnone, rfl⟩ | ⟨right, hright, rfl⟩⟩
    · exact .stop hlink
    · exact .giveUp hlink hnext hnone
    · have hends : EndsChain next.rest := hcall _ _ _ hnext (hright ▸ Option.some_ne_none _)
      have hstop : ChainLoop call first (a.combine link.how first right next)
          (a.combine link.how first right next).stop := .stop hends.link?_eq_none
      rw [hstop.eq_of_endsChain hends] at hstop
      exact .turn hlink hnext hright hstop

/-!
## All calls

A call has one account: it ends, it can end in one way only, and it reads as `chain` does.
-/

variable {depth : Nat} {place : Lexeme}

theorem Account.endsChain (hread : a.reading = chain bounds depth place ts)
    (hv : a.value ≠ none) : EndsChain a.rest := by
  have hvalue : a.value = (chain bounds depth place ts).value := congrArg Reading.value hread
  have hrest : a.rest = (chain bounds depth place ts).rest := congrArg Reading.rest hread
  rw [hrest]
  exact endsChain_of_chain (hvalue ▸ hv)

theorem ChainCall.reading_eq (h : ChainCall bounds depth place ts a) :
    a.reading = chain bounds depth place ts := by
  induction depth generalizing place ts a with
  | zero =>
      rw [ChainCall] at h
      rw [h]
      rfl
  | succ depth ih =>
      rw [chain]
      rcases (chainLoop_iff fun _ _ _ hnext => Account.endsChain (ih hnext)).mp h with
        ⟨hlink, rfl⟩ | ⟨link, next, hlink, hnext, hresult⟩
      · change link? (simple bounds depth ts).rest = none at hlink
        simp only [hlink]
        rfl
      · change link? (simple bounds depth ts).rest = some link at hlink
        simp only [hlink, ← ih hnext]
        rcases hresult with ⟨hnone, rfl⟩ | ⟨right, hright, rfl⟩
        · simp only [Account.reading, hnone]
          rfl
        · simp only [Account.reading, hright]
          rfl

/-- A call stops behind its first selector, or it ends with its call for the rest. -/
theorem chainCall_succ :
    ChainCall bounds (depth + 1) place ts a ↔
      (link? (simple bounds depth ts).rest = none ∧
          a = (Account.ofFirst (simple bounds depth ts)).stop) ∨
        ∃ link next, link? (simple bounds depth ts).rest = some link ∧
          ChainCall bounds depth link.place link.rest next ∧
          ((next.value = none ∧ a = (Account.ofFirst (simple bounds depth ts)).giveUp next) ∨
            ∃ right, next.value = some right ∧
              a = (Account.ofFirst (simple bounds depth ts)).combine link.how
                (simple bounds depth ts).value right next) :=
  chainLoop_iff fun _ _ _ hnext => Account.endsChain hnext.reading_eq

theorem exists_account (bounds : Bounds) (depth : Nat) (place : Lexeme) (ts : List Lexeme) :
    ∃ a, ∀ a', ChainCall bounds depth place ts a' ↔ a' = a := by
  induction depth generalizing place ts with
  | zero => exact ⟨_, fun _ => Iff.rfl⟩
  | succ depth ih =>
      cases hlink : link? (simple bounds depth ts).rest with
      | none =>
          refine ⟨(Account.ofFirst (simple bounds depth ts)).stop, fun a' => ?_⟩
          simp [chainCall_succ, hlink]
      | some link =>
          rcases ih link.place link.rest with ⟨next, hnext⟩
          cases hv : next.value with
          | none =>
              refine ⟨(Account.ofFirst (simple bounds depth ts)).giveUp next, fun a' => ?_⟩
              simp [chainCall_succ, hlink, hnext, hv]
          | some right =>
              refine ⟨(Account.ofFirst (simple bounds depth ts)).combine link.how
                (simple bounds depth ts).value right next, fun a' => ?_⟩
              simp [chainCall_succ, hlink, hnext, hv]

/-- What a call that returned a chain has done for it. -/
structure Account.Returned (bounds : Bounds) (a : Account) (s : Selector) : Prop where
  /-- What is read next is a left brace, a comma or the end of the input. -/
  ends : endsSelector (bounds.front a.rest).kind = true
  /-- The chain was not replaced once the first selector was combined. -/
  combined : a.combined ≤ 1
  /-- No selector that was read is missing from the chain. -/
  operands : s.operands = a.simples
  simple : ∀ operand ∈ a.simples, operand.isSimple = true

theorem front_endsChain (hfinal : bounds.final.kind = .endOfInput) (h : EndsChain ts) :
    endsSelector (bounds.front ts).kind = true := by
  cases ts with
  | nil =>
      show endsSelector bounds.final.kind = true
      rw [hfinal]
      rfl
  | cons l rest => exact h l rfl

theorem ChainCall.returned (hfinal : bounds.final.kind = .endOfInput)
    (h : ChainCall bounds depth place ts a) {s : Selector} (hv : a.value = some s) :
    a.Returned bounds s := by
  have hends := front_endsChain hfinal (Account.endsChain h.reading_eq (hv ▸ Option.some_ne_none s))
  induction depth generalizing place ts a s with
  | zero =>
      rw [ChainCall] at h
      rw [h] at hv
      cases hv
  | succ depth ih =>
      have hfirst := (simple_withinDepth bounds depth ts).1
      rcases chainCall_succ.mp h with
        ⟨-, rfl⟩ | ⟨link, next, -, hnext, ⟨-, rfl⟩ | ⟨right, hright, rfl⟩⟩
      · obtain rfl : (simple bounds depth ts).value = s := Option.some.inj hv
        exact ⟨hends, Nat.zero_le 1, Selector.operands_of_isSimple hfirst,
          List.forall_mem_singleton.mpr hfirst⟩
      · cases hv
      · obtain rfl := Option.some.inj hv
        have hmore := ih hnext hright hends
        exact ⟨hends, Nat.le_refl 1, congrArg _ hmore.operands,
          List.forall_mem_cons.mpr ⟨hfirst, hmore.simple⟩⟩

/-- Between the chains of a group there are commas, so a group raises no issue of its own. -/
theorem alternatives_inside (hts : Unended ts) :
    ∀ i ∈ (alternatives bounds ts).issues, i.complaint.isOfGroup = false := by
  have hchain (ts : List Lexeme) := (@chain_marks bounds bounds.limit (bounds.front ts) ts).inside
  fun_induction alternatives bounds ts with
  | case1 ts first hv => exact hchain ts
  | case2 ts first selector hv h => exact hchain ts
  | case3 ts first selector hv l rest h hk => exact hchain ts
  | case4 ts first selector hv l rest h hk hk' hlt more ih =>
      have hrest : l :: rest <:+ ts := h ▸ chain_suffix bounds bounds.limit (bounds.front ts) ts
      have hmore := (dropInsignificant_suffix rest).trans ((List.suffix_cons l rest).trans hrest)
      exact List.forall_mem_append.mpr ⟨hchain ts, ih (hts.mono hmore)⟩
  | case5 ts first selector hv l rest h hk hk' =>
      have hsome : first.value ≠ none := hv ▸ Option.some_ne_none selector
      exact absurd (chain_stop hts hsome l (congrArg List.head? h)) (not_or.mpr ⟨hk, hk'⟩)

/-- Reading chains by the loop, at some place and with any depth that is left there. -/
structure ChainLoops (bounds : Bounds) (ts : List Lexeme) : Prop where
  /-- A call ends, and it can end in one way only. -/
  account : ∀ depth place, ∃ a, ∀ a', ChainCall bounds depth place ts a' ↔ a' = a
  reading : ∀ depth place a, ChainCall bounds depth place ts a →
    a.reading = chain bounds depth place ts
  returned : ∀ depth place a s, ChainCall bounds depth place ts a → a.value = some s →
    a.Returned bounds s
  /-- The group that begins there misses no comma. -/
  comma : ∀ i ∈ (alternatives bounds ts).issues,
    i.complaint ≠ .expected .selectorGroup .comma

/-- Wherever in a text a chain is read, its loop ends at a boundary and loses no selector. -/
theorem chain_loop (limit : Nat) (css : Bytes) (n : Nat) :
    ChainLoops (Bounds.ofText limit css) ((Lexeme.ofText css).drop n) := by
  have hunended := (unended_ofText css).mono (List.drop_suffix n _)
  constructor
  · exact fun depth place => exists_account _ depth place _
  · exact fun depth place a h => h.reading_eq
  · exact fun depth place a s h hv => h.returned rfl hv
  · intro i hi hcomma
    have hinside := alternatives_inside hunended i hi
    rw [hcomma] at hinside
    cases hinside

/-- What is no selector has a place in its chain as well, and the chain goes on behind it. -/
example :
    let css := ascii "a>)b,c"
    ((chain (Bounds.ofText 3 css) 3 (Lexeme.endOf css) (Lexeme.ofText css)).value.map
      fun s => s.operands.map Selector.label) =
        some [ascii "Type", ascii "SelectNothing", ascii "Type"] := by
  decide +kernel

end

end Parse
end CssText
