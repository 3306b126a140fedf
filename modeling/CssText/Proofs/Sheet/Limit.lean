import CssText.Proofs.Parse.Accepted
import CssText.Proofs.Parse.Enclosed

/-!
# Reading under another limit

A text that is read without an issue under one limit is read in the same way under every
other, or reading stops short at the first bracket or selector that is too deep. What becomes
of the rule then depends on where that was: a declaration is lost and the rule stays, but an
at-rule or the selectors of a rule are given up, and what is left of them is read as if it were
the beginning of a text.
-/

namespace CssText

namespace Bounds

def within (bounds : Bounds) (limit : Nat) : Bounds :=
  { bounds with limit }

end Bounds

namespace Rule

def negationFree : Rule → Bool
  | .style rule => rule.selectors.all Selector.negationFree
  | .atRule _ => true

/-- A style rule with the same selectors, or the same at-rule. -/
def agrees : Rule → Rule → Bool
  | .style r, .style s => r.selectors == s.selectors
  | .atRule r, .atRule s => r == s
  | _, _ => false

end Rule

namespace Parse

variable {bounds : Bounds} (d : Nat) {ts : List Lexeme}

/-- Reading was given up because something is too deep, and some lexemes are left. -/
def GivenUp {α : Type} (bounds : Bounds) (ts : List Lexeme) (r : Reading (Option α)) : Prop :=
  ∃ place rest, rest <:+ ts ∧
    r = { value := none, issues := [⟨.tooDeep bounds.limit, place⟩], rest }

theorem GivenUp.mono {α : Type} {ts' : List Lexeme} {r : Reading (Option α)}
    (h : GivenUp bounds ts r) (hs : ts <:+ ts') : GivenUp bounds ts' r := by
  rcases h with ⟨place, rest, hrest, hr⟩
  exact ⟨place, rest, hrest.trans hs, hr⟩

theorem GivenUp.map {α β : Type} {r : Reading (Option α)} (h : GivenUp bounds ts r) (f : α → β) :
    GivenUp bounds ts { r with value := r.value.map f } := by
  rcases h with ⟨place, rest, hrest, rfl⟩
  exact ⟨place, rest, hrest, rfl⟩

/-!
## At-rules
-/

theorem components_limit {around : List Bracket} {ends : Kind → Bool} {opened : List Bracket}
    {run : List Lexeme} (hv : (components bounds around ends opened ts).value = some run) :
    components (bounds.within d) around ends opened ts = components bounds around ends opened ts ∨
      GivenUp (bounds.within d) ts (components (bounds.within d) around ends opened ts) := by
  induction ts generalizing opened run with
  | nil => cases hv
  | cons l rest ih =>
      have hmore {opened : List Bracket} {run : List Lexeme}
          (hv : (components bounds around ends opened rest).value.map (l :: ·) = some run) :
          ({ components (bounds.within d) around ends opened rest with
              value := (components (bounds.within d) around ends opened rest).value.map (l :: ·) } =
            ({ components bounds around ends opened rest with
              value := (components bounds around ends opened rest).value.map (l :: ·) } :
                Reading (Option (List Lexeme)))) ∨
          GivenUp (bounds.within d) (l :: rest)
            { components (bounds.within d) around ends opened rest with
              value :=
                (components (bounds.within d) around ends opened rest).value.map (l :: ·) } := by
        rcases Option.map_eq_some_iff.mp hv with ⟨more, hmore, -⟩
        rcases ih hmore with hsame | hup
        · rw [hsame]
          exact Or.inl rfl
        · exact Or.inr ((hup.mono (List.suffix_cons l rest)).map _)
      rw [components] at hv
      rw [components, components]
      by_cases hend : (opened.isEmpty && ends l.kind) = true
      · left
        simp only [hend, if_true]
      · simp only [hend, Bool.false_eq_true, if_false] at hv ⊢
        by_cases hclose : opened.head?.map Bracket.closer = some l.kind
        · simp only [hclose, if_true] at hv ⊢
          exact hmore hv
        · simp only [hclose, if_false] at hv ⊢
          cases hopen : Bracket.ofOpener? l.kind with
          | none =>
              simp only [hopen] at hv ⊢
              exact hmore hv
          | some b =>
              simp only [hopen] at hv ⊢
              by_cases hlimit : opened.length + around.length < bounds.limit
              · simp only [hlimit, if_true] at hv ⊢
                by_cases hlimit' : opened.length + around.length < (bounds.within d).limit
                · simp only [hlimit', if_true]
                  exact hmore hv
                · simp only [hlimit', if_false]
                  exact Or.inr ⟨l, l :: rest, List.suffix_refl _, rfl⟩
              · simp only [hlimit, if_false] at hv
                cases hv

theorem block_limit {run : List Lexeme} (hv : (block bounds ts).value = some run) :
    block (bounds.within d) ts = block bounds ts ∨
      GivenUp (bounds.within d) ts (block (bounds.within d) ts) := by
  cases hbody : (components bounds [.curly] endsBlock [] ts).value with
  | none =>
      rw [block] at hv
      simp only [hbody] at hv
      cases hv
  | some body =>
      rw [block, block]
      rcases components_limit d hbody with hsame | hup
      · rw [hsame]
        exact Or.inl rfl
      · right
        rcases hup with ⟨place, rest, hrest, hread⟩
        rw [hread]
        exact ⟨place, rest, hrest, rfl⟩

theorem atRule_limit {keyword : Bytes} {rule : AtRule}
    (hv : (atRule bounds keyword ts).value = some rule) :
    atRule (bounds.within d) keyword ts = atRule bounds keyword ts ∨
      GivenUp (bounds.within d) ts (atRule (bounds.within d) keyword ts) := by
  rw [atRule] at hv
  rw [atRule, atRule]
  cases hheader : (components bounds [] endsHeader [] ts).value with
  | none =>
      simp only [hheader] at hv
      cases hv
  | some header =>
      rcases components_limit d hheader with hsame | hup
      · rw [hsame]
        cases hrest : (components bounds [] endsHeader [] ts).rest with
        | nil =>
            simp only [hheader, hrest] at hv
            cases hv
        | cons l rest =>
            have hsuffix := components_suffix bounds [] endsHeader [] ts
            rw [hrest] at hsuffix
            simp only [hheader, hrest] at hv ⊢
            by_cases hsemicolon : l.kind = .semicolon
            · left
              simp only [hsemicolon, if_true]
            · simp only [hsemicolon, if_false] at hv ⊢
              by_cases hzero : bounds.limit = 0
              · simp only [hzero, if_true] at hv
                cases hv
              · simp only [hzero, if_false] at hv ⊢
                by_cases hzero' : (bounds.within d).limit = 0
                · simp only [hzero', if_true]
                  exact Or.inr ⟨l, l :: rest, hsuffix, by rw [hzero']⟩
                · simp only [hzero', if_false]
                  rcases Option.map_eq_some_iff.mp hv with ⟨body, hbody, -⟩
                  rcases block_limit d hbody with hsame | hup
                  · rw [hsame]
                    exact Or.inl rfl
                  · exact Or.inr ((hup.mono ((List.suffix_cons l rest).trans hsuffix)).map _)
      · right
        rcases hup with ⟨place, rest, hrest, hread⟩
        rw [hread]
        exact ⟨place, rest, hrest, rfl⟩

/-!
## Selectors

A chain without negations is given up under every limit that it is too long for, and a group at
its first chain that is too long.
-/

theorem chain_givenUp {depth depth' : Nat} {place : Lexeme} (place' : Lexeme) {s : Selector}
    (hv : (chain bounds depth place ts).value = some s)
    (hi : (chain bounds depth place ts).issues = []) (hs : s.negationFree = true)
    (hd : depth' < s.depth) :
    GivenUp (bounds.within d) ts (chain (bounds.within d) depth' place' ts) := by
  induction depth' generalizing depth place place' ts s with
  | zero => exact ⟨place', ts, List.suffix_refl ts, rfl⟩
  | succ depth' ih =>
      cases depth with
      | zero => cases hv
      | succ depth =>
          have hsimple := simple_withinDepth bounds depth ts
          rcases chain_cases hv hi with
            ⟨hfirst, ⟨hlink, rfl⟩ | ⟨link, right, hlink, hright, hnext, rfl⟩⟩
          · rw [Selector.depth_of_isSimple hsimple.1, Selector.nesting_of_negationFree hs] at hd
            omega
          · rw [Selector.negationFree, Bool.and_eq_true] at hs
            have hnesting := Selector.nesting_of_negationFree hs.1
            have hbefore := simple_before (bounds.within d) [] hfirst
              (Nat.le_trans (Nat.le_of_eq hnesting) (Nat.zero_le depth'))
            rw [List.append_nil, Reading.before_nil] at hbefore
            have hright' : depth' < right.depth := by
              rw [Selector.depth, hnesting] at hd
              omega
            have hsuffix := (link?_suffix hlink).trans (simple_suffix bounds depth ts)
            rcases ih link.place hright hnext hs.2 hright' with ⟨place'', rest, hrest, hmore⟩
            refine ⟨place'', rest, hrest.trans hsuffix, ?_⟩
            rw [chain]
            simp only [hbefore, hlink, hmore, hfirst]
            rfl

theorem chain_within {s : Selector} {rest : List Lexeme}
    (h : chain bounds bounds.limit (bounds.front ts) ts = { value := some s, issues := [], rest })
    (hs : s.negationFree = true) :
    chain (bounds.within d) d ((bounds.within d).front ts) ts =
        { value := some s, issues := [], rest } ∨
      GivenUp (bounds.within d) ts
        (chain (bounds.within d) d ((bounds.within d).front ts) ts) := by
  have hv := congrArg Reading.value h
  have hi := congrArg Reading.issues h
  rcases Nat.lt_or_ge d s.depth with hd | hd
  · exact Or.inr (chain_givenUp d _ hv hi hs hd)
  · left
    have hends : EndsChain [] := by
      intro l hl
      cases hl
    have hbefore := chain_before (bounds.within d) ((bounds.within d).front ts) hv hi hd hends
    rw [List.append_nil, Reading.before_nil] at hbefore
    rw [hbefore, h]

theorem GroupReads.within {group : SelectorGroup} {rest : List Lexeme}
    (h : GroupReads bounds ts group rest) (hs : ∀ s ∈ group, s.negationFree = true) :
    GroupReads (bounds.within d) ts group rest ∨
      GivenUp (bounds.within d) ts (alternatives (bounds.within d) ts) := by
  have hfirst {ts : List Lexeme} (hup : GivenUp (bounds.within d) ts
      (chain (bounds.within d) d ((bounds.within d).front ts) ts)) :
      GivenUp (bounds.within d) ts (alternatives (bounds.within d) ts) := by
    rcases hup with ⟨place, after, hsuffix, hup⟩
    refine ⟨place, after, hsuffix, ?_⟩
    rw [Parse.alternatives_eq]
    exact congrArg (alternativesAfter (bounds.within d)) hup
  induction h with
  | last hchain hrest =>
      rcases chain_within d hchain (hs _ (List.mem_singleton_self _)) with hread | hup
      · exact Or.inl (GroupReads.last hread hrest)
      · exact Or.inr (hfirst hup)
  | @comma ts tail rest l s group hchain hl more ih =>
      rcases chain_within d hchain (hs s List.mem_cons_self) with hread | hup
      · rcases ih fun t ht => hs t (List.mem_cons_of_mem s ht) with hmore | hup
        · exact Or.inl (GroupReads.comma hread hl hmore)
        · right
          have htail := chain_tail_suffix (congrArg Reading.rest hchain)
          rcases hup with ⟨place, after, hsuffix, hmore⟩
          refine ⟨place, after, hsuffix.trans htail, ?_⟩
          have hread' : chain (bounds.within d) (bounds.within d).limit
              ((bounds.within d).front ts) ts = _ := hread
          rw [Parse.alternatives_eq, hread']
          simp only [alternativesAfter, hl, reduceCtorEq, if_false, if_true, hmore]
          rfl
      · exact Or.inr (hfirst hup)

/-!
## Declarations

A block that is read without an issue is read under every limit, or its first issue is about
something too deep.
-/

theorem objection?_within {opened : List Bracket} {kind : Kind}
    (h : objection? bounds opened kind = none) :
    objection? (bounds.within d) opened kind = none ∨
      objection? (bounds.within d) opened kind = some (.tooDeep d) := by
  have hopener (h : objection? bounds opened kind = none) :
      objection? (bounds.within d) opened kind =
        if (Bracket.ofOpener? kind).isSome && d ≤ opened.length then some (.tooDeep d)
        else none := by
    cases kind <;> first | rfl | cases h
  rw [hopener h]
  split
  · exact Or.inr rfl
  · exact Or.inl rfl

theorem balanced_limit {opened : List Bracket} {run : List Lexeme}
    (hv : (balanced bounds opened ts).1 = .ok run) :
    balanced (bounds.within d) opened ts = balanced bounds opened ts ∨
      ∃ place inner, (balanced (bounds.within d) opened ts).1 =
        .error ⟨⟨.tooDeep d, place⟩, inner⟩ := by
  induction ts generalizing opened run with
  | nil =>
      cases opened with
      | nil => exact Or.inl rfl
      | cons b opened => cases hv
  | cons l rest ih =>
      have hmore {opened : List Bracket} {run : List Lexeme}
          (hv : (balanced bounds opened rest).1.map (l :: ·) = .ok run) :
          ((balanced (bounds.within d) opened rest).1.map (l :: ·),
              (balanced (bounds.within d) opened rest).2) =
            ((balanced bounds opened rest).1.map (l :: ·), (balanced bounds opened rest).2) ∨
          ∃ place inner, (balanced (bounds.within d) opened rest).1.map (l :: ·) =
            .error ⟨⟨.tooDeep d, place⟩, inner⟩ := by
        cases hvalue : (balanced bounds opened rest).1 with
        | error fault =>
            rw [hvalue] at hv
            cases hv
        | ok more =>
            rcases ih hvalue with hsame | ⟨place, inner, hfault⟩
            · rw [hsame, hvalue]
              exact Or.inl rfl
            · rw [hfault]
              exact Or.inr ⟨place, inner, rfl⟩
      rw [balanced] at hv
      rw [balanced, balanced]
      by_cases hend : (opened.isEmpty && endsValue l.kind) = true
      · left
        simp only [hend, if_true]
      · simp only [hend, Bool.false_eq_true, if_false] at hv ⊢
        by_cases hclose : opened.head?.map Bracket.closer = some l.kind
        · simp only [hclose, if_true] at hv ⊢
          exact hmore hv
        · simp only [hclose, if_false] at hv ⊢
          cases hobjection : objection? bounds opened l.kind with
          | some complaint =>
              simp only [hobjection] at hv
              cases hv
          | none =>
              simp only [hobjection] at hv ⊢
              rcases objection?_within d hobjection with hobjection' | hobjection'
              · simp only [hobjection']
                exact hmore hv
              · simp only [hobjection']
                exact Or.inr ⟨l, opened, rfl⟩

theorem declaration_limit {property : Lexeme} {e : Declaration} {after : List Lexeme}
    (hd : declaration bounds property ts = (.ok e, after)) :
    declaration (bounds.within d) property ts = declaration bounds property ts ∨
      ∃ place inner, (declaration (bounds.within d) property ts).1 =
        .error ⟨⟨.tooDeep d, place⟩, inner⟩ := by
  unfold declaration at hd ⊢
  cases hts : dropBlank ts with
  | nil =>
      simp only [hts] at hd
      cases hd
  | cons l rest =>
      simp only [hts] at hd ⊢
      by_cases hcolon : l.kind = .colon
      · simp only [hcolon, if_true] at hd ⊢
        cases hv : (balanced bounds [] rest).1 with
        | error fault =>
            simp only [hv] at hd
            cases hd
        | ok run =>
            rcases balanced_limit d hv with hsame | ⟨place, inner, hfault⟩
            · rw [hsame, hv]
              exact Or.inl rfl
            · rw [hfault]
              exact Or.inr ⟨place, inner, rfl⟩
      · simp only [hcolon, if_false] at hd
        cases hd

theorem declarations_limit (hi : (declarations bounds true ts).issues = []) :
    declarations (bounds.within d) true ts = declarations bounds true ts ∨
      ∃ place issues, (declarations (bounds.within d) true ts).issues =
        ⟨.tooDeep d, place⟩ :: issues := by
  induction hn : ts.length using Nat.strongRecOn generalizing ts with
  | ind n ih =>
      subst hn
      rw [declarations_eq] at hi
      rw [declarations_eq, declarations_eq]
      cases hts : dropBlank ts with
      | nil => exact Or.inl rfl
      | cons l rest =>
          have hlt : rest.length < ts.length := length_lt_of_dropBlank hts
          rw [hts] at hi
          simp only [declarationsAfter] at hi ⊢
          by_cases hbrace : l.kind = .rightBrace
          · left
            simp only [hbrace, if_true]
          · simp only [hbrace, if_false] at hi ⊢
            by_cases hsep : separatesDeclarations l.kind = true
            · simp only [hsep, if_true] at hi ⊢
              exact ih _ hlt hi rfl
            · simp only [hsep, Bool.false_eq_true, if_false] at hi ⊢
              by_cases hid : l.kind = .ident
              · simp only [hid, if_true] at hi ⊢
                rcases hd : declaration bounds l rest with ⟨result, after⟩
                rw [hd] at hi
                cases result with
                | error fault => cases hi
                | ok e =>
                    rcases declaration_limit d hd with hsame | ⟨place, inner, hfault⟩
                    · rw [hsame, hd]
                      have hafter := ih _ (length_declaration_lt hlt hd) hi rfl
                      rcases hafter with hmore | ⟨place, issues, hmore⟩
                      · left
                        simp only [hmore]
                      · right
                        exact ⟨place, issues, hmore⟩
                    · rcases hd' : declaration (bounds.within d) l rest with ⟨result', after'⟩
                      rw [hd'] at hfault
                      obtain rfl := hfault
                      exact Or.inr ⟨place, _, rfl⟩
              · simp only [hid, if_false] at hi
                cases hi

/-!
## Rules
-/

theorem ruleSelectors_within {group : SelectorGroup} {rest : List Lexeme}
    (h : ruleSelectors bounds ts = { value := some group, issues := [], rest })
    (hs : ∀ s ∈ group, s.negationFree = true) :
    ruleSelectors (bounds.within d) ts = { value := some group, issues := [], rest } ∨
      GivenUp (bounds.within d) ts (ruleSelectors (bounds.within d) ts) := by
  have hfront : (bounds.within d).front ts = bounds.front ts := rfl
  rw [ruleSelectors] at h
  rw [ruleSelectors, hfront]
  by_cases hbrace : (bounds.front ts).kind = .leftBrace
  · rw [if_pos hbrace] at h ⊢
    exact Or.inl h
  · rw [if_neg hbrace] at h ⊢
    rcases groupReads_of_alternatives (congrArg Reading.issues h) with ⟨group', hgroup⟩
    have heq := hgroup.alternatives_eq
    rw [h] at heq hgroup
    cases heq
    rcases hgroup.within d hs with hread | hup
    · exact Or.inl hread.alternatives_eq
    · exact Or.inr hup

theorem styleRule_limit {rule : StyleRule} {after : List Lexeme}
    (h : styleRule bounds ts = { value := some rule, issues := [], rest := after })
    (hs : ∀ s ∈ rule.selectors, s.negationFree = true) :
    styleRule (bounds.within d) ts = styleRule bounds ts ∨
      (∃ declarations place issues rest, rest <:+ ts ∧
        styleRule (bounds.within d) ts =
          { value := some { rule with declarations }
            issues := ⟨.tooDeep d, place⟩ :: issues
            rest }) ∨
      GivenUp (bounds.within d) ts (styleRule (bounds.within d) ts) := by
  rcases styleRule_read (congrArg Reading.issues h) with
    ⟨group, more, brace, block, close, tail, hgroup, hmore, hbrace, hbody, hblock, hclose⟩
  have hrule := styleRule_eq hgroup hmore hbrace hblock hclose
  have hselectors : rule.selectors = group := by
    have hvalue := congrArg Reading.value (h.symm.trans hrule)
    exact congrArg StyleRule.selectors (Option.some.inj hvalue)
  rw [hselectors] at hs
  rcases ruleSelectors_within d hgroup hs with hread | ⟨place, rest, hrest, hup⟩
  · have hnested : Nested [] block := by
      apply nested_of_declarations hbody
      rw [hblock]
      exact List.cons_ne_nil close tail
    rcases declarations_enclosed (bounds.within d) ⟨[], List.Sublist.refl [], hnested⟩ with
      ⟨close', tail', hblock', hclose'⟩
    have hrule' := styleRule_eq hread hmore hbrace hblock' hclose'
    rcases declarations_limit d hbody with hsame | ⟨place, issues, hissues⟩
    · left
      rw [hsame, hblock] at hblock'
      cases hblock'
      rw [hrule', hrule, hsame]
    · have hsuffix := styleRule_suffix (bounds.within d) ts
      rw [hissues, ← hselectors] at hrule'
      rw [hrule'] at hsuffix
      exact Or.inr (Or.inl ⟨_, place, issues, tail', hsuffix, hrule'⟩)
  · refine Or.inr (Or.inr ⟨place, rest, hrest, ?_⟩)
    rw [styleRule, hup]

/-!
## Sheets
-/

theorem rules_within_of_nil (hv : (rules bounds ts).value = [])
    (hi : (rules bounds ts).issues = []) :
    rules (bounds.within d) ts = rules bounds ts := by
  rcases rules_cases hi with
    ⟨hts, hrules⟩ | ⟨l, rest, -, -, ⟨-, rule, after, -, hrules⟩ | ⟨-, rule, after, -, hrules⟩⟩
  · rw [hrules, rules_eq, hts]
    rfl
  · rw [hrules] at hv
    cases hv
  · rw [hrules] at hv
    cases hv

/--
A sheet of one rule is read under every limit, or its rule is cut short: then the reading goes
on in what is left, after the style rule `first` or after nothing.
-/
theorem rules_limit {r : Rule} (hv : (rules bounds ts).value = [r])
    (hi : (rules bounds ts).issues = []) (hr : r.negationFree = true) :
    rules (bounds.within d) ts = rules bounds ts ∨
      ∃ first place issues rest, rest <:+ ts ∧
        rules (bounds.within d) ts =
          consRule first (⟨.tooDeep d, place⟩ :: issues) (rules (bounds.within d) rest) ∧
        ((first = none ∧ issues = []) ∨
          ∃ rule declarations, r = .style rule ∧
            first = some (.style { rule with declarations })) := by
  rcases rules_cases hi with ⟨-, hrules⟩ | ⟨l, rest, hts, hbrace, hcases⟩
  · rw [hrules] at hv
    cases hv
  · have hsuffix : l :: rest <:+ ts := hts ▸ dropInsignificant_suffix ts
    have htail := (List.suffix_cons l rest).trans hsuffix
    have hd := rules_eq (bounds.within d) ts
    rw [hts, rulesAfter, if_neg hbrace] at hd
    rcases hcases with ⟨hat, rule, after, hrule, hrules⟩ | ⟨hat, rule, after, hrule, hrules⟩
    · rw [if_pos hat] at hd
      rw [hrules] at hv hi ⊢
      have hmore := rules_within_of_nil d (List.cons.inj hv).2 hi
      have hlimit := atRule_limit d (congrArg Reading.value hrule)
      rcases hlimit with hsame | ⟨place, after', hafter, hup⟩
      · left
        rw [hd, hsame, hrule, ← hmore]
        rfl
      · right
        rw [hup] at hd
        exact ⟨none, place, [], after', hafter.trans htail, hd, Or.inl ⟨rfl, rfl⟩⟩
    · rw [if_neg hat] at hd
      rw [hrules] at hv hi ⊢
      have hmore := rules_within_of_nil d (List.cons.inj hv).2 hi
      obtain rfl : Rule.style rule = r := (List.cons.inj hv).1
      have hlimit := styleRule_limit d hrule (List.all_eq_true.mp hr)
      rcases hlimit with hsame | ⟨declarations, place, issues, after', hafter, hkept⟩ |
        ⟨place, after', hafter, hup⟩
      · left
        rw [hsame, hrule] at hd
        rw [hd, ← hmore]
      · right
        rw [hkept] at hd
        exact ⟨_, place, issues, after', hafter.trans hsuffix, hd,
          Or.inr ⟨rule, declarations, rfl, rfl⟩⟩
      · right
        rw [hup] at hd
        exact ⟨none, place, [], _, (resume_suffix hafter).trans htail, hd, Or.inl ⟨rfl, rfl⟩⟩

end Parse

namespace Sheet

/--
A text that is one rule under some limit is the same rule under the limit `d`, or something in
it is too deep. In that case a rest of the text is read as if it were a sheet, and whatever
rules it seems to hold are returned. Before them stands nothing, or the style rule with its
selectors if it was a declaration that is too deep.
-/
theorem parse_limit {limit : Nat} {css : Bytes} {r : Rule}
    (hv : (parse limit css).value = [r]) (hi : (parse limit css).errors = [])
    (hr : r.negationFree = true) (d : Nat) :
    ((parse d css).value = [r] ∧ (parse d css).errors = []) ∨
      ∃ first place issues rest, rest <:+ Lexeme.ofText css ∧
        (parse d css).value =
          first.toList ++ (Parse.rules (Bounds.ofText d css) rest).value ∧
        (parse d css).issues = ⟨.tooDeep d, place⟩ ::
          (issues ++ (Parse.rules (Bounds.ofText d css) rest).issues) ∧
        ((first = none ∧ issues = []) ∨
          ∃ rule declarations, r = .style rule ∧
            first = some (.style { rule with declarations })) := by
  have hclean : (parse limit css).issues = [] := List.map_eq_nil_iff.mp hi
  have hbounds : (Bounds.ofText limit css).within d = Bounds.ofText d css := rfl
  have hlimit := Parse.rules_limit d hv hclean hr
  rcases hlimit with hsame | ⟨first, place, issues, rest, hrest, hread, hfirst⟩
  · left
    rw [hbounds] at hsame
    have hvalue : (parse d css).value = (parse limit css).value := congrArg Reading.value hsame
    have hissues : (parse d css).issues = (parse limit css).issues :=
      congrArg Reading.issues hsame
    refine ⟨hvalue.trans hv, ?_⟩
    rw [Parsed.errors, hissues, hclean]
    rfl
  · right
    rw [hbounds] at hread
    exact ⟨first, place, issues, rest, hrest, congrArg Reading.value hread,
      congrArg Reading.issues hread, hfirst⟩

/-- The brackets of the block `@a{{}}` are two deep. -/
theorem parse_limit_block :
    ∃ r, (parse 2 (ascii "@a\x7b\x7b\x7d\x7d")).value = [r] ∧
      (parse 2 (ascii "@a\x7b\x7b\x7d\x7d")).errors = [] ∧ r.negationFree = true ∧
      (((parse 1 (ascii "@a\x7b\x7b\x7d\x7d")).value = [r] ∧
          (parse 1 (ascii "@a\x7b\x7b\x7d\x7d")).errors = []) ∨
        ∃ first place issues rest, rest <:+ Lexeme.ofText (ascii "@a\x7b\x7b\x7d\x7d") ∧
          (parse 1 (ascii "@a\x7b\x7b\x7d\x7d")).value = first.toList ++
            (Parse.rules (Bounds.ofText 1 (ascii "@a\x7b\x7b\x7d\x7d")) rest).value ∧
          (parse 1 (ascii "@a\x7b\x7b\x7d\x7d")).issues = ⟨.tooDeep 1, place⟩ ::
            (issues ++ (Parse.rules (Bounds.ofText 1 (ascii "@a\x7b\x7b\x7d\x7d")) rest).issues) ∧
          ((first = none ∧ issues = []) ∨
            ∃ rule declarations, r = .style rule ∧
              first = some (.style { rule with declarations }))) := by
  have hlength : (parse 2 (ascii "@a\x7b\x7b\x7d\x7d")).value.length = 1 := by decide +kernel
  have herrors : (parse 2 (ascii "@a\x7b\x7b\x7d\x7d")).errors = [] := by decide +kernel
  have hfree : (parse 2 (ascii "@a\x7b\x7b\x7d\x7d")).value.all Rule.negationFree = true := by
    decide +kernel
  rcases List.length_eq_one_iff.mp hlength with ⟨r, hr⟩
  have hfree : r.negationFree = true := by
    rw [hr, List.all_cons, List.all_nil, Bool.and_true] at hfree
    exact hfree
  exact ⟨r, hr, herrors, hfree, parse_limit hr herrors hfree 1⟩

/--
What is left of a rule that was given up can be a rule of its own: the inner block of `@a{{}}`
is returned as a bare block.
-/
theorem parse_leaves_inner_block :
    ¬ ∀ (limit : Nat) (css : Bytes) (r : Rule), (parse limit css).value = [r] →
      (parse limit css).errors = [] → r.negationFree = true → ∀ d : Nat,
        (∃ r', (parse d css).value = [r'] ∧ r'.agrees r = true) ∨
          ((parse d css).value = [] ∧ (parse d css).errors ≠ []) := by
  intro h
  have hlength : (parse 2 (ascii "@a\x7b\x7b\x7d\x7d")).value.length = 1 := by decide +kernel
  have herrors : (parse 2 (ascii "@a\x7b\x7b\x7d\x7d")).errors = [] := by decide +kernel
  have hfree : (parse 2 (ascii "@a\x7b\x7b\x7d\x7d")).value.all Rule.negationFree = true := by
    decide +kernel
  have hother : (parse 1 (ascii "@a\x7b\x7b\x7d\x7d")).value.length = 1 := by decide +kernel
  have hdiffer : (parse 1 (ascii "@a\x7b\x7b\x7d\x7d")).value.all (fun r' =>
      (parse 2 (ascii "@a\x7b\x7b\x7d\x7d")).value.all fun r => !r'.agrees r) = true := by
    decide +kernel
  rcases List.length_eq_one_iff.mp hlength with ⟨r, hr⟩
  rw [hr] at hfree hdiffer
  simp only [List.all_cons, List.all_nil, Bool.and_true] at hfree hdiffer
  rcases h 2 _ r hr herrors hfree 1 with ⟨r', hr', hagrees⟩ | ⟨hnone, -⟩
  · rw [hr', List.all_cons, hagrees] at hdiffer
    cases hdiffer
  · rw [hnone] at hother
    cases hother

end Sheet

end CssText
