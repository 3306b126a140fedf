import CssText.Proofs.Parse.Kinds
import Mathlib.Data.List.DropRight

/-!
# Text that is read without an issue

A production that raised no issue has not met the end of its text, and it needs no more depth
than the tree it returned. So it reads the same where other lexemes follow, in other bounds
and at any depth that leaves room for the tree. A chain or a group has to know that it ends:
what follows has to begin with a lexeme that ends selectors.
-/

namespace CssText

def Reading.before {α : Type} (r : Reading α) (after : List Lexeme) : Reading α :=
  { r with rest := r.rest ++ after }

theorem Reading.before_nil {α : Type} (r : Reading α) : r.before [] = r := by
  rw [before, List.append_nil]

namespace Parse

theorem dropWhile_before {test : Lexeme → Bool} {ts rest : List Lexeme} {l : Lexeme}
    (h : ts.dropWhile test = l :: rest) (after : List Lexeme) :
    (ts ++ after).dropWhile test = l :: (rest ++ after) := by
  rw [List.dropWhile_append, h]
  rfl

theorem dropBlank_before {ts rest : List Lexeme} {l : Lexeme} (h : dropBlank ts = l :: rest)
    (after : List Lexeme) : dropBlank (ts ++ after) = l :: (rest ++ after) :=
  dropWhile_before h after

theorem dropInsignificant_before {ts rest : List Lexeme} {l : Lexeme}
    (h : dropInsignificant ts = l :: rest) (after : List Lexeme) :
    dropInsignificant (ts ++ after) = l :: (rest ++ after) :=
  dropWhile_before h after

/-!
## Simple selectors
-/

section

variable {bounds : Bounds} (bounds' : Bounds) {ts : List Lexeme} (after : List Lexeme)

theorem attributeValue_before {name : Bytes} {test : AttributeTest}
    (h : (attributeValue bounds name test ts).issues = []) :
    attributeValue bounds' name test (ts ++ after) =
      (attributeValue bounds name test ts).before after := by
  unfold attributeValue at h ⊢
  cases hv : dropBlank ts with
  | nil =>
      simp only [hv] at h
      cases h
  | cons value rest =>
      simp only [hv, dropBlank_before hv] at h ⊢
      by_cases hk : isAttributeValue value.kind = true
      · simp only [hk, if_true] at h ⊢
        cases hc : dropBlank rest with
        | nil =>
            simp only [hc] at h
            cases h
        | cons close rest =>
            simp only [hc, dropBlank_before hc] at h ⊢
            by_cases hclose : close.kind = .rightBracket
            · simp only [hclose, if_true]
              rfl
            · simp only [hclose, if_false] at h
              cases h
      · simp only [hk] at h
        cases h

theorem attributeSelector_before (h : (attributeSelector bounds ts).issues = []) :
    attributeSelector bounds' (ts ++ after) = (attributeSelector bounds ts).before after := by
  unfold attributeSelector at h ⊢
  cases hn : dropBlank ts with
  | nil =>
      simp only [hn] at h
      cases h
  | cons name rest =>
      simp only [hn, dropBlank_before hn] at h ⊢
      by_cases hk : name.kind = .ident
      · simp only [hk, if_true] at h ⊢
        cases ho : dropBlank rest with
        | nil =>
            simp only [ho] at h
            cases h
        | cons op rest =>
            simp only [ho, dropBlank_before ho] at h ⊢
            by_cases hop : op.kind = .rightBracket
            · simp only [hop, if_true]
              rfl
            · simp only [hop, if_false] at h ⊢
              cases ht : attributeTest? op with
              | none =>
                  simp only [ht] at h
                  cases h
              | some test =>
                  simp only [ht] at h
                  exact attributeValue_before bounds' after h
      · simp only [hk, if_false] at h
        cases h

theorem arguments_before {nesting : Nat} {args : List Lexeme}
    (h : (arguments nesting ts).1 = some args) :
    arguments nesting (ts ++ after) = (some args, (arguments nesting ts).2 ++ after) := by
  induction ts generalizing nesting args with
  | nil => cases h
  | cons l rest ih =>
      rw [arguments_cons] at h ⊢
      rw [List.cons_append, arguments_cons]
      split at h
      · cases h
      · rename_i hcut
        rw [if_neg hcut, if_neg hcut]
        split at h
        · rename_i hclose
          cases h
          rw [if_pos hclose, if_pos hclose]
        · rename_i hclose
          rcases Option.map_eq_some_iff.mp h with ⟨more, hmore, rfl⟩
          rw [if_neg hclose, if_neg hclose, ih hmore]
          rfl

theorem pseudoFunction_before {name : Bytes} (h : (pseudoFunction bounds name ts).issues = []) :
    pseudoFunction bounds' name (ts ++ after) =
      (pseudoFunction bounds name ts).before after := by
  rw [pseudoFunction] at h ⊢
  rw [pseudoFunction]
  cases hargs : (arguments 0 ts).1 with
  | none =>
      simp only [hargs] at h
      cases h
  | some args =>
      simp only [arguments_before after hargs]
      rfl

theorem className_before (h : (className bounds ts).issues = []) :
    className bounds' (ts ++ after) = (className bounds ts).before after := by
  cases ts with
  | nil => cases h
  | cons name rest =>
      unfold className at h ⊢
      by_cases hk : name.kind = .ident
      · simp only [hk, if_true, List.cons_append]
        rfl
      · simp only [hk, if_false] at h
        cases h

/-- A negation that was read without an issue was closed. -/
theorem negation_closed {name : Bytes} {inner : Reading Selector}
    (h : (negation bounds name inner).issues = []) :
    inner.issues = [] ∧ ∃ close rest, dropBlank inner.rest = close :: rest ∧
      close.kind = .rightParen := by
  unfold negation at h
  split at h
  · exact absurd (List.append_eq_nil_iff.mp h).2 (List.cons_ne_nil _ _)
  · rename_i close rest hc
    split at h
    · rename_i hk
      exact ⟨h, close, rest, hc, hk⟩
    · exact absurd (List.append_eq_nil_iff.mp h).2 (List.cons_ne_nil _ _)

theorem negation_eq {name : Bytes} {inner : Reading Selector} {close : Lexeme}
    {rest : List Lexeme} (hc : dropBlank inner.rest = close :: rest)
    (hk : close.kind = .rightParen) :
    negation bounds name inner =
      { value := .negation name inner.value, issues := inner.issues, rest } := by
  rw [negation]
  simp only [hc, hk, if_true]

theorem simple_before {depth depth' : Nat} (h : (simple bounds depth ts).issues = [])
    (hd : (simple bounds depth ts).value.nesting ≤ depth') :
    simple bounds' depth' (ts ++ after) = (simple bounds depth ts).before after := by
  fun_induction simple bounds depth ts generalizing depth' with
  | case1 depth ts hts => cases h
  | case2 depth ts l rest hts hk =>
      rw [simple.eq_def]
      simp only [dropInsignificant_before hts, hk]
      rfl
  | case3 depth ts l rest hts hk =>
      rw [simple.eq_def]
      simp only [dropInsignificant_before hts, hk]
      rfl
  | case4 depth ts l rest hts hk =>
      rw [simple.eq_def]
      simp only [dropInsignificant_before hts, hk]
      exact attributeSelector_before bounds' after h
  | case5 depth ts l hk hts => cases h
  | case6 depth ts l hk name rest hn hts =>
      rw [simple.eq_def]
      simp only [dropInsignificant_before hts, hk, List.cons_append, hn, if_true]
      rfl
  | case7 ts l hk name rest hn hf hname hts => cases h
  | case8 ts l hk name rest hn hf hname depth hts ih =>
      rcases negation_closed h with ⟨hissues, close, more, hc, hclose⟩
      rw [negation_eq hc hclose] at hd ⊢
      cases depth' with
      | zero => exact absurd hd (Nat.not_succ_le_zero _)
      | succ depth' =>
          have hinner := ih hissues (Nat.le_of_succ_le_succ hd)
          have hc' : dropBlank ((simple bounds depth rest).before after).rest =
              close :: (more ++ after) := dropBlank_before hc after
          rw [simple.eq_def]
          simp only [dropInsignificant_before hts, hk, List.cons_append, hf, hname, if_true,
            reduceCtorEq, if_false, hinner, negation_eq hc' hclose]
          rfl
  | case9 depth ts l hk name rest hn hf hname hts =>
      rw [simple.eq_def]
      simp only [dropInsignificant_before hts, hk, List.cons_append, hf, hname, if_true,
        reduceCtorEq, if_false]
      exact pseudoFunction_before bounds' after h
  | case10 depth ts l hk name rest hn hf hts => cases h
  | case11 depth ts l rest hts hd' _ _ _ _ =>
      rw [simple.eq_def]
      simp only [dropInsignificant_before hts, hd', if_true]
      rfl
  | case12 depth ts l rest hts hd' hd'' _ _ _ _ =>
      rw [simple.eq_def]
      simp only [dropInsignificant_before hts, hd', hd'', if_true]
      exact className_before bounds' after h
  | case13 depth ts l rest hts hd' hd'' _ _ _ _ => cases h

end

/-!
## The depth that a tree needs
-/

/-- A simple selector of which no more than `depth` negations stand in each other. -/
def WithinDepth (depth : Nat) (s : Selector) : Prop :=
  s.isSimple = true ∧ s.nesting ≤ depth

theorem negation_withinDepth (bounds : Bounds) (name : Bytes) {inner : Reading Selector}
    {depth : Nat} (h : WithinDepth depth inner.value) :
    WithinDepth (depth + 1) (negation bounds name inner).value := by
  rcases negation_cases bounds name inner with ⟨us, -, hread⟩ | ⟨rest, -, hread⟩
  · rw [hread]
    exact ⟨rfl, Nat.zero_le _⟩
  · rw [hread]
    exact ⟨rfl, Nat.succ_le_succ h.2⟩

theorem simple_withinDepth (bounds : Bounds) (depth : Nat) (ts : List Lexeme) :
    WithinDepth depth (simple bounds depth ts).value := by
  fun_induction simple bounds depth ts with
  | case4 depth ts l rest hts hk =>
      rcases attributeSelector_cases bounds rest with
        ⟨wanted, us, -, hread⟩ | ⟨name, after, test, value, rest', -, -, -, -, -, hread⟩
      · rw [hread]
        exact ⟨rfl, Nat.zero_le depth⟩
      · rw [hread]
        exact ⟨rfl, Nat.zero_le depth⟩
  | case8 ts l hk name rest hn hf hname depth hts ih => exact negation_withinDepth bounds _ ih
  | case9 depth ts l hk name rest hn hf hname hts =>
      rcases pseudoFunction_cases bounds name.value rest with ⟨args, -, hread⟩ | hread
      · rw [hread]
        exact ⟨rfl, Nat.zero_le depth⟩
      · rw [hread]
        exact ⟨rfl, Nat.zero_le depth⟩
  | case12 depth ts l rest hts hd hd' =>
      rcases className_cases bounds rest with hread | ⟨name, rest', -, -, hread⟩
      · rw [hread]
        exact ⟨rfl, Nat.zero_le depth⟩
      · rw [hread]
        exact ⟨rfl, Nat.zero_le depth⟩
  | _ => exact ⟨rfl, Nat.zero_le _⟩

theorem chain_isSome (bounds : Bounds) (depth : Nat) (place : Lexeme) (ts : List Lexeme)
    (hi : (chain bounds depth place ts).issues = []) :
    (chain bounds depth place ts).value.isSome = true := by
  induction depth generalizing place ts with
  | zero => cases hi
  | succ depth ih =>
      rw [chain] at hi ⊢
      simp only at hi ⊢
      split at hi
      · rfl
      · rename_i link _
        simp only [Option.isSome_map]
        exact ih link.place link.rest (List.append_eq_nil_iff.mp hi).2

theorem chain_depth {bounds : Bounds} {depth : Nat} {place : Lexeme} {ts : List Lexeme}
    {s : Selector} (hv : (chain bounds depth place ts).value = some s) : s.depth ≤ depth := by
  induction depth generalizing place ts s with
  | zero => cases hv
  | succ depth ih =>
      have hfirst := simple_withinDepth bounds depth ts
      rcases chain_parts hv with ⟨-, rfl⟩ | ⟨link, right, -, hright, rfl⟩
      · rw [Selector.depth_of_isSimple hfirst.1]
        exact Nat.succ_le_succ hfirst.2
      · exact Nat.max_le.mpr ⟨Nat.succ_le_succ hfirst.2, Nat.succ_le_succ (ih hright)⟩

/-!
## Chains

A chain that ends is read at every depth that has room for it.
-/

def EndsChain (after : List Lexeme) : Prop :=
  ∀ l ∈ after.head?, endsSelector l.kind = true

section

variable {bounds : Bounds} (bounds' : Bounds) {ts after : List Lexeme}

theorem isBlank_of_endsSelector {kind : Kind} (h : endsSelector kind = true) :
    kind.isBlank = false := by
  cases kind <;> first | rfl | cases h

theorem EndsChain.dropBlank_append (h : EndsChain after) :
    dropBlank (ts ++ after) = dropBlank ts ++ after := by
  cases after with
  | nil => rw [List.append_nil, List.append_nil]
  | cons l after => exact Lexeme.dropBlank_append (isBlank_of_endsSelector (h l rfl)) after

theorem EndsChain.link?_append (h : EndsChain after) :
    link? (ts ++ after) =
      (link? ts).map fun link => { link with rest := link.rest ++ after } := by
  rw [link?, link?, h.dropBlank_append]
  cases hts : dropBlank ts with
  | nil =>
      cases after with
      | nil => rfl
      | cons l after =>
          simp only [List.nil_append, h l rfl, if_true]
          rfl
  | cons l rest =>
      have hblank : ((ts ++ after).takeWhile fun l => l.kind.isBlank) =
          ts.takeWhile fun l => l.kind.isBlank := by
        rw [List.takeWhile_append, if_neg]
        intro hlength
        have hall := (List.takeWhile_prefix _).eq_of_length hlength
        have hsplit := List.takeWhile_append_dropWhile (p := fun l : Lexeme => l.kind.isBlank)
          (l := ts)
        rw [hall] at hsplit
        have hnil := List.append_cancel_left (hsplit.trans (List.append_nil ts).symm)
        exact absurd (hts.symm.trans hnil) (List.cons_ne_nil l rest)
      simp only [List.cons_append, hblank,
        apply_ite (Option.map fun link : Link => { link with rest := link.rest ++ after })]
      rfl

theorem chain_before {depth depth' : Nat} {place : Lexeme} (place' : Lexeme) {s : Selector}
    (hv : (chain bounds depth place ts).value = some s)
    (hi : (chain bounds depth place ts).issues = []) (hd : s.depth ≤ depth')
    (hafter : EndsChain after) :
    chain bounds' depth' place' (ts ++ after) = (chain bounds depth place ts).before after := by
  induction depth generalizing depth' place place' ts s with
  | zero => cases hv
  | succ depth ih =>
      cases depth' with
      | zero => exact absurd hd (Nat.not_le_of_lt s.depth_pos)
      | succ depth' =>
          rcases chain_cases hv hi with
            ⟨hfirst, ⟨hlink, rfl⟩ | ⟨link, right, hlink, hright, hnext, rfl⟩⟩
          · have hsimple := simple_withinDepth bounds depth ts
            rw [Selector.depth_of_isSimple hsimple.1] at hd
            have hbefore := simple_before bounds' after hfirst (Nat.le_of_succ_le_succ hd)
            rw [chain, chain]
            simp only [hbefore, Reading.before, hafter.link?_append, hlink, Option.map_none,
              hafter.dropBlank_append]
          · rcases Nat.max_le.mp hd with ⟨hleft, hright'⟩
            have hbefore := simple_before bounds' after hfirst (Nat.le_of_succ_le_succ hleft)
            have hmore := ih link.place hright hnext (Nat.le_of_succ_le_succ hright')
            rw [chain, chain]
            simp only [hbefore, Reading.before, hafter.link?_append, hlink, Option.map_some,
              hmore]

/-!
## Groups

A group that was read without an issue leaves nothing or a block. It is read in front of a block
as it is at the end of the text, and white space in front of it does not matter.
-/

theorem dropInsignificant_append (h : ∀ l ∈ after.head?, l.kind.isInsignificant = false) :
    dropInsignificant (ts ++ after) = dropInsignificant ts ++ after := by
  rw [dropInsignificant, List.dropWhile_append]
  split
  · rename_i hnil
    rw [List.isEmpty_iff] at hnil
    rw [dropInsignificant, hnil, List.nil_append]
    cases after with
    | nil => rfl
    | cons l after => exact dropInsignificant_self (h l rfl) after
  · rfl

theorem alternatives_depth {group : SelectorGroup}
    (h : (alternatives bounds ts).value = some group) : ∀ s ∈ group, s.depth ≤ bounds.limit := by
  intro s hs
  rcases alternatives_origin h s hs with ⟨us, -, hread⟩
  exact chain_depth hread

/-- A group that was read without an issue, chain by chain, and what was left. -/
inductive GroupReads (bounds : Bounds) : List Lexeme → SelectorGroup → List Lexeme → Prop where
  | last {ts rest : List Lexeme} {s : Selector}
      (hchain : chain bounds bounds.limit (bounds.front ts) ts =
        { value := some s, issues := [], rest })
      (hrest : ∀ l ∈ rest.head?, l.kind = .leftBrace) : GroupReads bounds ts [s] rest
  | comma {ts tail rest : List Lexeme} {l : Lexeme} {s : Selector} {group : SelectorGroup}
      (hchain : chain bounds bounds.limit (bounds.front ts) ts =
        { value := some s, issues := [], rest := l :: tail })
      (hl : l.kind = .comma) (more : GroupReads bounds (dropInsignificant tail) group rest) :
      GroupReads bounds ts (s :: group) rest

theorem GroupReads.alternatives_eq {rest : List Lexeme} {group : SelectorGroup}
    (h : GroupReads bounds ts group rest) :
    alternatives bounds ts = { value := some group, issues := [], rest } := by
  induction h with
  | @last ts rest s hchain hrest =>
      rw [Parse.alternatives_eq, hchain]
      cases rest with
      | nil => rfl
      | cons l rest => simp only [alternativesAfter, hrest l rfl, if_true]
  | comma hchain hl more ih =>
      rw [Parse.alternatives_eq, hchain]
      simp only [alternativesAfter, hl, reduceCtorEq, if_false, if_true, ih]
      rfl

theorem chain_tail_suffix {depth : Nat} {place l : Lexeme} {tail : List Lexeme}
    (h : (chain bounds depth place ts).rest = l :: tail) : dropInsignificant tail <:+ ts := by
  have hsuffix := chain_suffix bounds depth place ts
  rw [h] at hsuffix
  exact (dropInsignificant_suffix tail).trans ((List.suffix_cons l tail).trans hsuffix)

theorem groupReads_of_alternatives (hi : (alternatives bounds ts).issues = []) :
    ∃ group, GroupReads bounds ts group (alternatives bounds ts).rest := by
  induction hn : ts.length using Nat.strongRecOn generalizing ts with
  | ind n ih =>
      subst hn
      have hsuffix := chain_suffix bounds bounds.limit (bounds.front ts) ts
      have hsome := chain_isSome bounds bounds.limit (bounds.front ts) ts
      rw [Parse.alternatives_eq] at hi ⊢
      rcases hchain : chain bounds bounds.limit (bounds.front ts) ts with ⟨value, issues, rest⟩
      rw [hchain] at hi hsuffix hsome
      cases value with
      | none => cases hsome hi
      | some s =>
          cases rest with
          | nil =>
              obtain rfl : issues = [] := hi
              refine ⟨[s], GroupReads.last hchain ?_⟩
              intro l hl
              cases hl
          | cons l tail =>
              simp only [alternativesAfter] at hi ⊢
              by_cases hbrace : l.kind = .leftBrace
              · simp only [hbrace, if_true] at hi ⊢
                obtain rfl : issues = [] := hi
                refine ⟨[s], GroupReads.last hchain ?_⟩
                intro m hm
                cases hm
                exact hbrace
              · simp only [hbrace, if_false] at hi ⊢
                by_cases hcomma : l.kind = .comma
                · simp only [hcomma, if_true] at hi ⊢
                  rcases List.append_eq_nil_iff.mp hi with ⟨rfl, hnext⟩
                  have hdrop := dropInsignificant_suffix tail
                  have hlt := Nat.lt_of_le_of_lt hdrop.length_le hsuffix.length_le
                  rcases ih _ hlt hnext rfl with ⟨group, hmore⟩
                  exact ⟨s :: group, GroupReads.comma hchain hcomma hmore⟩
                · simp only [hcomma, if_false] at hi
                  cases List.append_eq_nil_iff.mp hi |>.2

theorem GroupReads.depth {rest : List Lexeme} {group : SelectorGroup}
    (h : GroupReads bounds ts group rest) : ∀ s ∈ group, s.depth ≤ bounds.limit :=
  alternatives_depth (congrArg Reading.value h.alternatives_eq)

theorem GroupReads.brace {rest : List Lexeme} {group : SelectorGroup}
    (h : GroupReads bounds ts group rest) : ∀ l ∈ rest.head?, l.kind = .leftBrace := by
  induction h with
  | last hchain hrest => exact hrest
  | comma hchain hl more ih => exact ih

theorem GroupReads.before {rest : List Lexeme} {group : SelectorGroup}
    (h : GroupReads bounds ts group rest) (hd : ∀ s ∈ group, s.depth ≤ bounds'.limit)
    (hafter : ∀ l ∈ after.head?, l.kind = .leftBrace) :
    GroupReads bounds' (ts ++ after) group (rest ++ after) := by
  have hends : EndsChain after := by
    intro l hl
    rw [hafter l hl]
    rfl
  have hsignificant : ∀ l ∈ after.head?, l.kind.isInsignificant = false := by
    intro l hl
    rw [hafter l hl]
    rfl
  have hfirst {ts rest : List Lexeme} {s : Selector} (hs : s.depth ≤ bounds'.limit)
      (hchain : chain bounds bounds.limit (bounds.front ts) ts =
        { value := some s, issues := [], rest }) :
      chain bounds' bounds'.limit (bounds'.front (ts ++ after)) (ts ++ after) =
        { value := some s, issues := [], rest := rest ++ after } := by
    have hbefore := chain_before bounds' (bounds'.front (ts ++ after))
      (congrArg Reading.value hchain) (congrArg Reading.issues hchain) hs hends
    rw [hchain] at hbefore
    exact hbefore
  induction h with
  | @last ts rest s hchain hrest =>
      refine GroupReads.last (hfirst (hd s (List.mem_singleton_self s)) hchain) ?_
      cases rest with
      | nil => exact hafter
      | cons l rest => exact hrest
  | @comma ts tail rest l s group hchain hl more ih =>
      have hmore := ih fun t ht => hd t (List.mem_cons_of_mem s ht)
      rw [← dropInsignificant_append hsignificant] at hmore
      exact GroupReads.comma (hfirst (hd s List.mem_cons_self) hchain) hl hmore

def beginsSelector (kind : Kind) : Bool :=
  kind = .ident || kind = .hash || kind = .leftBracket || kind = .colon || kind = .delim

theorem simple_front {depth : Nat} (h : (simple bounds depth ts).issues = []) :
    ∃ l rest, dropInsignificant ts = l :: rest ∧ beginsSelector l.kind = true := by
  have hdelim {l : Lexeme} {b : UInt8} (h : l.isDelim b = true) : beginsSelector l.kind = true := by
    rw [Token.isDelim, Bool.and_eq_true, decide_eq_true_eq] at h
    rw [h.1]
    rfl
  rw [simple.eq_def] at h
  split at h
  · cases h
  · rename_i l rest hts
    refine ⟨l, rest, hts, ?_⟩
    split at h
    · rename_i hk
      rw [hk]
      rfl
    · rename_i hk
      rw [hk]
      rfl
    · rename_i hk
      rw [hk]
      rfl
    · rename_i hk
      rw [hk]
      rfl
    · split at h
      · rename_i hd
        exact hdelim hd
      · split at h
        · rename_i hd
          exact hdelim hd
        · cases h

theorem dropInsignificant_idem (ts : List Lexeme) :
    dropInsignificant (dropInsignificant ts) = dropInsignificant ts :=
  List.dropWhile_idempotent _ ts

theorem simple_dropInsignificant (depth : Nat) :
    simple bounds depth (dropInsignificant ts) = simple bounds depth ts := by
  rw [simple.eq_def, simple.eq_def bounds depth ts, dropInsignificant_idem]

theorem GroupReads.front {rest : List Lexeme} {group : SelectorGroup}
    (h : GroupReads bounds ts group rest) :
    (∃ l more, dropInsignificant ts = l :: more ∧ beginsSelector l.kind = true) ∧
      GroupReads bounds (dropInsignificant ts) group rest := by
  have hfirst {ts : List Lexeme} {s : Selector} {rest : List Lexeme}
      (hchain : chain bounds bounds.limit (bounds.front ts) ts =
        { value := some s, issues := [], rest }) :
      (∃ l more, dropInsignificant ts = l :: more ∧ beginsSelector l.kind = true) ∧
        chain bounds bounds.limit (bounds.front (dropInsignificant ts)) (dropInsignificant ts) =
          { value := some s, issues := [], rest } := by
    cases hlimit : bounds.limit with
    | zero =>
        rw [hlimit] at hchain
        cases hchain
    | succ depth =>
        rw [hlimit] at hchain
        have hissues := chain_cases (congrArg Reading.value hchain)
          (congrArg Reading.issues hchain)
        refine ⟨simple_front hissues.1, ?_⟩
        rw [chain, simple_dropInsignificant]
        rw [chain] at hchain
        exact hchain
  cases h with
  | last hchain hrest =>
      exact ⟨(hfirst hchain).1, GroupReads.last (hfirst hchain).2 hrest⟩
  | comma hchain hl more =>
      exact ⟨(hfirst hchain).1, GroupReads.comma (hfirst hchain).2 hl more⟩

end

/-!
## Rules

An at-rule has a value and no issue, or an issue and no value. A style rule is its selectors, a
block and the brace that closes it, and a sheet without issues is its first rule and the rest.
-/

def Decided {α : Type} (r : Reading (Option α)) : Prop :=
  (r.value.isSome = true ∧ r.issues = []) ∨ (r.value = none ∧ r.issues ≠ [])

theorem Decided.exists_value {α : Type} {r : Reading (Option α)} (h : Decided r)
    (hi : r.issues = []) : ∃ a, r.value = some a := by
  rcases h with h | h
  · exact Option.isSome_iff_exists.mp h.1
  · exact absurd hi h.2

section

variable (bounds : Bounds)

theorem components_decided (around : List Bracket) (ends : Kind → Bool) (opened : List Bracket)
    (ts : List Lexeme) : Decided (components bounds around ends opened ts) := by
  refine components_induction (motive := fun _ r => Decided r)
    opened ts ?missing ?stop ?take ?refuse
  case missing =>
    intro opened
    exact Or.inr ⟨rfl, List.cons_ne_nil _ _⟩
  case stop =>
    intro l rest hl
    exact Or.inl ⟨rfl, rfl⟩
  case take =>
    intro l rest more ih
    exact ih.imp (And.imp_left Option.isSome_map.trans) (And.imp_left Option.map_eq_none_iff.mpr)
  case refuse =>
    intro l rest
    exact Or.inr ⟨rfl, List.cons_ne_nil _ _⟩

theorem block_decided (ts : List Lexeme) : Decided (block bounds ts) := by
  have hbody := components_decided bounds [.curly] endsBlock [] ts
  unfold block
  simp only
  split
  · exact hbody
  · exact Or.inl ⟨rfl, rfl⟩

theorem atRule_decided (keyword : Bytes) (ts : List Lexeme) :
    Decided (atRule bounds keyword ts) := by
  have hheader := components_decided bounds [] endsHeader [] ts
  have hend := components_end bounds [] endsHeader [] ts
  unfold atRule
  simp only
  split
  · rename_i header l rest hv hrest
    split
    · exact Or.inl ⟨rfl, rfl⟩
    · split
      · exact Or.inr ⟨rfl, List.cons_ne_nil _ _⟩
      · rcases block_decided bounds rest with h | h
        · exact Or.inl ⟨Option.isSome_map.trans h.1, h.2⟩
        · exact Or.inr ⟨Option.map_eq_none_iff.mpr h.1, h.2⟩
  · rename_i hnot
    right
    refine ⟨rfl, ?_⟩
    rcases hheader with h | h
    · rcases Option.isSome_iff_exists.mp h.1 with ⟨header, hv⟩
      cases hrest : (components bounds [] endsHeader [] ts).rest with
      | nil =>
          rw [(hend hrest).1] at hv
          cases hv
      | cons l rest => exact absurd hrest (hnot header l rest hv)
    · exact h.2

variable {bounds} {ts rest block after : List Lexeme} {brace close : Lexeme}
  {group : SelectorGroup}

theorem styleRule_eq
    (hgroup : ruleSelectors bounds ts = { value := some group, issues := [], rest })
    (hrest : dropInsignificant rest = brace :: block) (hbrace : brace.kind = .leftBrace)
    (hblock : (declarations bounds true block).rest = close :: after)
    (hclose : close.kind = .rightBrace) :
    styleRule bounds ts =
      { value := some { selectors := group, declarations := (declarations bounds true block).value }
        issues := (declarations bounds true block).issues
        rest := after } := by
  have hsignificant : close.kind.isInsignificant = false := by
    rw [hclose]
    rfl
  rw [styleRule, hgroup]
  simp only [hrest, hbrace, if_true, ruleBody, hblock, dropInsignificant_self hsignificant, hclose,
    List.nil_append]

theorem ruleSelectors_isSome (hi : (ruleSelectors bounds ts).issues = []) :
    ∃ group, (ruleSelectors bounds ts).value = some group := by
  unfold ruleSelectors at hi ⊢
  split
  · exact ⟨_, rfl⟩
  · rename_i hbrace
    rw [if_neg hbrace] at hi
    rcases groupReads_of_alternatives hi with ⟨group, hgroup⟩
    exact ⟨group, congrArg Reading.value hgroup.alternatives_eq⟩

theorem styleRule_read (hi : (styleRule bounds ts).issues = []) :
    ∃ group rest brace block close after,
      ruleSelectors bounds ts = { value := some group, issues := [], rest } ∧
      dropInsignificant rest = brace :: block ∧ brace.kind = .leftBrace ∧
      (declarations bounds true block).issues = [] ∧
      (declarations bounds true block).rest = close :: after ∧ close.kind = .rightBrace := by
  have hsome := @ruleSelectors_isSome bounds ts
  unfold styleRule at hi
  rcases hselectors : ruleSelectors bounds ts with ⟨value, issues, rest⟩
  rw [hselectors] at hi hsome
  cases value with
  | none =>
      rcases hsome hi with ⟨group, hgroup⟩
      cases hgroup
  | some group =>
      simp only at hi
      cases hrest : dropInsignificant rest with
      | nil =>
          simp only [hrest] at hi
          exact absurd (List.append_eq_nil_iff.mp hi).2 (List.cons_ne_nil _ _)
      | cons brace block =>
          simp only [hrest] at hi
          by_cases hbrace : brace.kind = .leftBrace
          · simp only [hbrace, if_true] at hi
            rcases List.append_eq_nil_iff.mp hi with ⟨rfl, hbody⟩
            rcases declarations_stop bounds block with hnil | ⟨close, after, hblock, hclose⟩
            · rw [ruleBody] at hbody
              simp only [hnil, dropInsignificant, List.dropWhile_nil] at hbody
              exact absurd (List.append_eq_nil_iff.mp hbody).2 (List.cons_ne_nil _ _)
            · have hsignificant : close.kind.isInsignificant = false := by
                rw [hclose]
                rfl
              rw [ruleBody] at hbody
              simp only [hblock, dropInsignificant_self hsignificant, hclose, if_true] at hbody
              exact ⟨group, rest, brace, block, close, after, rfl, hrest, hbrace, hbody, hblock,
                hclose⟩
          · simp only [hbrace, if_false] at hi
            exact absurd (List.append_eq_nil_iff.mp hi).2 (List.cons_ne_nil _ _)

theorem rules_cases (hi : (rules bounds ts).issues = []) :
    (dropInsignificant ts = [] ∧ rules bounds ts = { value := [], issues := [], rest := [] }) ∨
      ∃ l rest, dropInsignificant ts = l :: rest ∧ l.kind ≠ .rightBrace ∧
        ((l.kind = .atKeyword ∧ ∃ rule after,
            atRule bounds l.value rest = { value := some rule, issues := [], rest := after } ∧
            rules bounds ts = consRule (some (.atRule rule)) [] (rules bounds after)) ∨
          (l.kind ≠ .atKeyword ∧ ∃ rule after,
            styleRule bounds (l :: rest) = { value := some rule, issues := [], rest := after } ∧
            rules bounds ts = consRule (some (.style rule)) [] (rules bounds after))) := by
  rw [rules_eq] at hi ⊢
  cases hts : dropInsignificant ts with
  | nil => exact Or.inl ⟨rfl, rfl⟩
  | cons l rest =>
      rw [hts] at hi
      simp only [rulesAfter] at hi ⊢
      refine Or.inr ⟨l, rest, rfl, ?_⟩
      by_cases hbrace : l.kind = .rightBrace
      · simp only [hbrace, if_true] at hi
        cases hi
      · refine ⟨hbrace, ?_⟩
        simp only [hbrace, if_false] at hi ⊢
        by_cases hat : l.kind = .atKeyword
        · rw [if_pos hat] at hi ⊢
          have hissues := (List.append_eq_nil_iff.mp hi).1
          rcases (atRule_decided bounds l.value rest).exists_value hissues with ⟨rule, hv⟩
          rcases hrule : atRule bounds l.value rest with ⟨value, issues, after⟩
          rw [hrule] at hv hissues
          obtain rfl : value = some rule := hv
          obtain rfl : issues = [] := hissues
          exact Or.inl ⟨hat, rule, after, rfl, rfl⟩
        · rw [if_neg hat] at hi ⊢
          have hissues : (styleRule bounds (l :: rest)).issues = [] := by
            split at hi
            · exact (List.append_eq_nil_iff.mp hi).1
            · exact (List.append_eq_nil_iff.mp hi).1
          rcases styleRule_read hissues with
            ⟨group, more, brace, block, close, after, hgroup, hmore, hleft, hbody, hblock, hclose⟩
          have hrule := styleRule_eq hgroup hmore hleft hblock hclose
          rw [hbody] at hrule
          refine Or.inr ⟨hat, _, after, hrule, ?_⟩
          simp only [hrule]

end

end Parse
end CssText
