import CssText.Proofs.Parse.Steps

/-!
# The runs that a tree keeps

Trees keep lexemes as they were read: the arguments of a function, the header and the block
of an at-rule, the value of a declaration. Each of these is a run of the lexemes that the
tree was read from, the last one up to its white space.
-/

namespace CssText

def Selector.Runs (P : List Lexeme → Prop) : Selector → Prop
  | .pseudoFunction _ args => P args
  | .negation _ inner => inner.Runs P
  | .combine _ left right => left.Runs P ∧ right.Runs P
  | _ => True

def Declaration.Runs (P : List Lexeme → Prop) (d : Declaration) : Prop :=
  ∃ run, P run ∧ d.terms = Parse.terms run

structure StyleRule.Runs (P : List Lexeme → Prop) (rule : StyleRule) : Prop where
  selectors : ∀ s ∈ rule.selectors, s.Runs P
  declarations : ∀ d ∈ rule.declarations, d.Runs P

structure AtRule.Runs (P : List Lexeme → Prop) (rule : AtRule) : Prop where
  header : P rule.header
  block : ∀ run, rule.block = some run → P run

def Rule.Runs (P : List Lexeme → Prop) : Rule → Prop
  | .style rule => rule.Runs P
  | .atRule rule => rule.Runs P

section Mono

variable {P Q : List Lexeme → Prop} (hPQ : ∀ run, P run → Q run)
include hPQ

theorem Selector.Runs.mono {s : Selector} (h : s.Runs P) : s.Runs Q := by
  induction s with
  | pseudoFunction name args => exact hPQ args h
  | negation name inner ih => exact ih h
  | combine how left right ihl ihr =>
      constructor
      · exact ihl h.1
      · exact ihr h.2
  | _ => trivial

theorem Declaration.Runs.mono {d : Declaration} (h : d.Runs P) : d.Runs Q := by
  rcases h with ⟨run, hrun, hterms⟩
  exact ⟨run, hPQ run hrun, hterms⟩

theorem Rule.Runs.mono {rule : Rule} (h : rule.Runs P) : rule.Runs Q := by
  cases rule with
  | style rule =>
      constructor
      · intro s hs
        exact (h.selectors s hs).mono hPQ
      · intro d hd
        exact (h.declarations d hd).mono hPQ
  | atRule rule =>
      constructor
      · exact hPQ _ h.header
      · intro run hrun
        exact hPQ run (h.block run hrun)

end Mono

theorem Lexeme.trim_infix_self (run : List Lexeme) : Lexeme.trim run <:+: run := by
  have hfront := List.dropWhile_suffix (fun l : Lexeme => l.kind.isBlank) (l := run)
  have hback := List.dropWhile_suffix (fun l : Lexeme => l.kind.isBlank)
    (l := (run.dropWhile fun l => l.kind.isBlank).reverse)
  have hprefix := List.reverse_prefix.mpr hback
  rw [List.reverse_reverse] at hprefix
  exact hprefix.isInfix.trans hfront.isInfix

namespace Parse

/-!
## Selectors

Each selector of a group was read as a chain, from its place in the group.
-/

theorem arguments_start {nesting : Nat} {ts args : List Lexeme}
    (h : (arguments nesting ts).1 = some args) : args <+: ts := by
  induction ts generalizing nesting args with
  | nil =>
      rw [arguments] at h
      cases h
  | cons l rest ih =>
      rw [arguments_cons] at h
      split at h
      · cases h
      · split at h
        · cases h
          exact List.nil_prefix
        · simp only [Option.map_eq_some_iff] at h
          rcases h with ⟨more, hmore, rfl⟩
          exact List.prefix_cons_inj l |>.mpr (ih hmore)

theorem pseudoFunction_runs (bounds : Bounds) (name : Bytes) (ts : List Lexeme) :
    (pseudoFunction bounds name ts).value.Runs (· <:+: ts) := by
  rcases pseudoFunction_cases bounds name ts with ⟨args, hargs, hread⟩ | hread
  · rw [hread]
    exact (Lexeme.trim_infix_self args).trans (arguments_start hargs).isInfix
  · rw [hread]
    trivial

theorem negation_runs {bounds : Bounds} {name : Bytes} {inner : Reading Selector}
    {P : List Lexeme → Prop} (h : inner.value.Runs P) :
    (negation bounds name inner).value.Runs P := by
  rcases negation_cases bounds name inner with ⟨us, -, hread⟩ | ⟨rest, -, hread⟩
  · rw [hread]
    trivial
  · rw [hread]
    exact h

theorem simple_runs (bounds : Bounds) (depth : Nat) (ts : List Lexeme) :
    (simple bounds depth ts).value.Runs (· <:+: ts) := by
  fun_induction simple bounds depth ts with
  | case4 depth ts l rest h hk =>
      rcases attributeSelector_cases bounds rest with
        ⟨wanted, us, -, hread⟩ | ⟨name, after, test, value, rest', -, -, -, -, -, hread⟩
      · rw [hread]
        trivial
      · rw [hread]
        trivial
  | case8 ts l hk name rest hn hf hname depth h ih =>
      have hrest := (List.suffix_cons name rest).trans (suffix_of_dropInsignificant h)
      exact negation_runs (ih.mono fun run hrun => hrun.trans hrest.isInfix)
  | case9 depth ts l hk name rest hn hf hname h =>
      have hrest := (List.suffix_cons name rest).trans (suffix_of_dropInsignificant h)
      exact (pseudoFunction_runs bounds name.value rest).mono fun run hrun =>
        hrun.trans hrest.isInfix
  | case12 depth ts l rest h hd hd' =>
      rcases className_cases bounds rest with hread | ⟨name, rest', -, -, hread⟩
      · rw [hread]
        trivial
      · rw [hread]
        trivial
  | _ => trivial

theorem chain_runs {bounds : Bounds} {depth : Nat} {place : Lexeme} {ts : List Lexeme}
    {s : Selector} (h : (chain bounds depth place ts).value = some s) :
    s.Runs (· <:+: ts) := by
  induction depth generalizing place ts s with
  | zero => cases h
  | succ depth ih =>
      have hfirst := simple_runs bounds depth ts
      rcases chain_parts h with ⟨-, rfl⟩ | ⟨link, right, hlink, hright, rfl⟩
      · exact hfirst
      · have hrest := (link?_suffix hlink).trans (simple_suffix bounds depth ts)
        constructor
        · exact hfirst
        · exact (ih hright).mono fun run hrun => hrun.trans hrest.isInfix

theorem alternatives_origin {bounds : Bounds} {ts : List Lexeme} {group : SelectorGroup}
    (h : (alternatives bounds ts).value = some group) :
    ∀ s ∈ group, ∃ us, us <:+ ts ∧
      (chain bounds bounds.limit (bounds.front us) us).value = some s := by
  induction hn : ts.length using Nat.strongRecOn generalizing ts group with
  | ind n ih =>
      subst hn
      have hsuffix := chain_suffix bounds bounds.limit (bounds.front ts) ts
      rw [alternatives_eq] at h
      rcases hchain : chain bounds bounds.limit (bounds.front ts) ts with ⟨value, issues, rest⟩
      rw [hchain] at h hsuffix
      cases value with
      | none => cases h
      | some selector =>
          have hselector : ∃ us, us <:+ ts ∧
              (chain bounds bounds.limit (bounds.front us) us).value = some selector :=
            ⟨ts, List.suffix_refl ts, congrArg Reading.value hchain⟩
          have hone (h : some [selector] = some group) : ∀ s ∈ group, ∃ us, us <:+ ts ∧
              (chain bounds bounds.limit (bounds.front us) us).value = some s := by
            cases h
            intro s hs
            rw [List.mem_singleton.mp hs]
            exact hselector
          cases rest with
          | nil => exact hone h
          | cons l rest =>
              simp only [alternativesAfter] at h
              split at h
              · exact hone h
              · split at h
                · rcases Option.map_eq_some_iff.mp h with ⟨more, hmore, rfl⟩
                  have hdrop := dropInsignificant_suffix rest
                  have hrest : dropInsignificant rest <:+ ts :=
                    hdrop.trans ((List.suffix_cons l rest).trans hsuffix)
                  have hlt := Nat.lt_of_le_of_lt hdrop.length_le hsuffix.length_le
                  intro s hs
                  rcases List.mem_cons.mp hs with rfl | hs
                  · exact hselector
                  · rcases ih _ hlt hmore rfl s hs with ⟨us, hus, hread⟩
                    exact ⟨us, hus.trans hrest, hread⟩
                · cases h

theorem alternatives_runs {bounds : Bounds} {ts : List Lexeme} {group : SelectorGroup}
    (h : (alternatives bounds ts).value = some group) :
    ∀ s ∈ group, s.Runs (· <:+: ts) := by
  intro s hs
  rcases alternatives_origin h s hs with ⟨us, hus, hread⟩
  exact (chain_runs hread).mono fun run hrun => hrun.trans hus.isInfix

/-!
## At-rules
-/

theorem components_append {bounds : Bounds} {around : List Bracket} {ends : Kind → Bool}
    {opened : List Bracket} {ts run : List Lexeme}
    (h : (components bounds around ends opened ts).value = some run) :
    ts = run ++ (components bounds around ends opened ts).rest := by
  refine components_induction
    (motive := fun ts r => ∀ run, r.value = some run → ts = run ++ r.rest)
    opened ts ?missing ?stop ?take ?refuse run h
  case missing =>
    intro opened run hrun
    cases hrun
  case stop =>
    intro l rest hl run hrun
    cases hrun
    rfl
  case take =>
    intro l rest more ih run hrun
    rcases Option.map_eq_some_iff.mp hrun with ⟨run', hrun', rfl⟩
    exact congrArg (l :: ·) (ih run' hrun')
  case refuse =>
    intro l rest run hrun
    cases hrun

theorem block_runs {bounds : Bounds} {ts run : List Lexeme}
    (h : (block bounds ts).value = some run) : run <:+: ts := by
  rcases block_some h with ⟨body, hbody, rfl⟩
  have hprefix : body <+: ts := ⟨_, (components_append hbody).symm⟩
  exact (Lexeme.trim_infix_self body).trans hprefix.isInfix

theorem atRule_runs {bounds : Bounds} {keyword : Bytes} {ts : List Lexeme} {rule : AtRule}
    (h : (atRule bounds keyword ts).value = some rule) : rule.Runs (· <:+: ts) := by
  rcases atRule_some h with ⟨run, l, rest, hrun, hrest, -, hheader, hblock⟩
  have hwhole := components_append hrun
  rw [hrest] at hwhole
  have htail : rest <:+ ts := ⟨run ++ [l], by rw [hwhole, List.append_assoc]; rfl⟩
  constructor
  · rw [hheader]
    exact (Lexeme.trim_infix_self run).trans (List.IsPrefix.isInfix ⟨_, hwhole.symm⟩)
  · intro body hbody
    exact (block_runs (hblock body hbody).2).trans htail.isInfix

/-!
## Declarations

A declaration of a list was read after its property, which stands in the list.
-/

theorem balanced_append {bounds : Bounds} {opened : List Bracket} {ts run : List Lexeme}
    (h : (balanced bounds opened ts).1 = .ok run) :
    ts = run ++ (balanced bounds opened ts).2 := by
  refine balanced_induction (motive := fun ts r => ∀ run, r.1 = .ok run → ts = run ++ r.2)
    opened ts ?finish ?missing ?stop ?take ?refuse run h
  case finish =>
    intro run hrun
    cases hrun
    rfl
  case missing =>
    intro b opened run hrun
    cases hrun
  case stop =>
    intro l rest hl run hrun
    cases hrun
    rfl
  case take =>
    intro l rest more ih run hrun
    rcases exists_of_map_ok hrun with ⟨run', hrun', rfl⟩
    exact congrArg (l :: ·) (ih run' hrun')
  case refuse =>
    intro l rest opened complaint hcomplaint run hrun
    cases hrun

theorem declaration_runs {bounds : Bounds} {property : Lexeme} {ts : List Lexeme}
    {d : Declaration} (h : (declaration bounds property ts).1 = .ok d) :
    d.Runs (· <:+: ts) := by
  rcases declaration_ok h with ⟨colon, rest, run, hts, -, hvalue, rfl⟩
  have hprefix : run <+: rest := ⟨_, (balanced_append hvalue).symm⟩
  exact ⟨run, hprefix.isInfix.trans (suffix_of_dropBlank hts).isInfix, rfl⟩

theorem declaration_property {bounds : Bounds} {property : Lexeme} {ts : List Lexeme}
    {d : Declaration} (h : (declaration bounds property ts).1 = .ok d) :
    d.property = property.value := by
  rcases declaration_ok h with ⟨colon, rest, run, -, -, -, rfl⟩
  rfl

theorem declarations_origin {bounds : Bounds} {inBlock : Bool} {ts : List Lexeme}
    {d : Declaration} (h : d ∈ (declarations bounds inBlock ts).value) :
    ∃ property rest, property :: rest <:+ ts ∧ property.kind = .ident ∧
      (declaration bounds property rest).1 = .ok d := by
  fun_induction declarations bounds inBlock ts with
  | case1 ts hts => cases h
  | case2 ts l rest hts hlt hbrace hin => cases h
  | case3 ts l rest hts hlt hbrace hin ih =>
      rcases ih h with ⟨property, after, hs, hd⟩
      exact ⟨property, after, hs.trans (suffix_of_dropBlank hts), hd⟩
  | case4 ts l rest hts hlt hbrace hsep ih =>
      rcases ih h with ⟨property, after, hs, hd⟩
      exact ⟨property, after, hs.trans (suffix_of_dropBlank hts), hd⟩
  | case5 ts l rest hts hlt hbrace hsep hid e after he hlt' ih =>
      have hafter := declaration_suffix bounds l rest
      rw [he] at hafter
      rcases List.mem_cons.mp h with rfl | h
      · exact ⟨l, rest, hts ▸ dropBlank_suffix ts, hid, congrArg Prod.fst he⟩
      · rcases ih h with ⟨property, rest', hs, hd⟩
        exact ⟨property, rest', hs.trans (hafter.trans (suffix_of_dropBlank hts)), hd⟩
  | case6 ts l rest hts hlt hbrace hsep hid fault after he hlt' ih =>
      have hafter := declaration_suffix bounds l rest
      rw [he] at hafter
      have hskip := (skipDeclaration_suffix fault.opened after).trans hafter
      rcases ih h with ⟨property, rest', hs, hd⟩
      exact ⟨property, rest', hs.trans (hskip.trans (suffix_of_dropBlank hts)), hd⟩
  | case7 ts l rest hts hlt hbrace hsep hid hlt' ih =>
      have hskip := skipDeclaration_cons_suffix hbrace [] rest
      rcases ih h with ⟨property, rest', hs, hd⟩
      exact ⟨property, rest', hs.trans (hskip.trans (suffix_of_dropBlank hts)), hd⟩

/-- What holds between a declaration and all that are read from what it left holds between
each declaration of a list and all that follow it. -/
theorem declarations_pairwise {bounds : Bounds} {inBlock : Bool} {ts : List Lexeme}
    {R : Declaration → Declaration → Prop}
    (h : ∀ property rest after d, property :: rest <:+ ts → property.kind = .ident →
      declaration bounds property rest = (.ok d, after) →
      ∀ e ∈ (declarations bounds inBlock after).value, R d e) :
    (declarations bounds inBlock ts).value.Pairwise R := by
  fun_induction declarations bounds inBlock ts with
  | case1 ts hts => exact List.Pairwise.nil
  | case2 ts l rest hts hlt hbrace hin => exact List.Pairwise.nil
  | case3 ts l rest hts hlt hbrace hin ih =>
      have hs := suffix_of_dropBlank hts
      exact ih fun property rest after d hus => h property rest after d (hus.trans hs)
  | case4 ts l rest hts hlt hbrace hsep ih =>
      have hs := suffix_of_dropBlank hts
      exact ih fun property rest after d hus => h property rest after d (hus.trans hs)
  | case5 ts l rest hts hlt hbrace hsep hid d after hd hlt' ih =>
      have hafter := declaration_suffix bounds l rest
      rw [hd] at hafter
      have hs := hafter.trans (suffix_of_dropBlank hts)
      apply List.Pairwise.cons
      · exact h l rest after d (hts ▸ dropBlank_suffix ts) hid hd
      · exact ih fun property rest after d hus => h property rest after d (hus.trans hs)
  | case6 ts l rest hts hlt hbrace hsep hid fault after hd hlt' ih =>
      have hafter := declaration_suffix bounds l rest
      rw [hd] at hafter
      have hskip := (skipDeclaration_suffix fault.opened after).trans hafter
      have hs := hskip.trans (suffix_of_dropBlank hts)
      exact ih fun property rest after d hus => h property rest after d (hus.trans hs)
  | case7 ts l rest hts hlt hbrace hsep hid hlt' ih =>
      have hskip := skipDeclaration_cons_suffix hbrace [] rest
      have hs := hskip.trans (suffix_of_dropBlank hts)
      exact ih fun property rest after d hus => h property rest after d (hus.trans hs)

theorem declarations_runs (bounds : Bounds) (inBlock : Bool) (ts : List Lexeme) :
    ∀ d ∈ (declarations bounds inBlock ts).value, d.Runs (· <:+: ts) := by
  intro d hd
  rcases declarations_origin hd with ⟨property, rest, hs, -, hvalue⟩
  have hrest := (List.suffix_cons property rest).trans hs
  exact (declaration_runs hvalue).mono fun run hrun => hrun.trans hrest.isInfix

/-!
## Rules

A style rule was read as a selector group and, further down, as a list of declarations.
-/

theorem ruleSelectors_runs {bounds : Bounds} {ts : List Lexeme} {group : SelectorGroup}
    (h : (ruleSelectors bounds ts).value = some group) :
    ∀ s ∈ group, s.Runs (· <:+: ts) := by
  unfold ruleSelectors at h
  split at h
  · cases h
    intro s hs
    rw [List.mem_singleton.mp hs]
    trivial
  · exact alternatives_runs h

theorem styleRule_origin {bounds : Bounds} {ts : List Lexeme} {rule : StyleRule}
    (h : (styleRule bounds ts).value = some rule) :
    (ruleSelectors bounds ts).value = some rule.selectors ∧
      ∃ rest, rest <:+ ts ∧ rule.declarations = (declarations bounds true rest).value := by
  unfold styleRule at h
  simp only at h
  split at h
  · cases h
  · rename_i group hgroup
    split at h
    · cases h
    · rename_i l rest hrest
      split at h
      · have htail := (suffix_of_dropInsignificant hrest).trans (ruleSelectors_suffix bounds ts)
        simp only [ruleBody] at h
        split at h
        · cases h
        · split at h
          · cases h
            exact ⟨hgroup, rest, htail, rfl⟩
          · cases h
      · cases h

theorem styleRule_runs {bounds : Bounds} {ts : List Lexeme} {rule : StyleRule}
    (h : (styleRule bounds ts).value = some rule) : rule.Runs (· <:+: ts) := by
  rcases styleRule_origin h with ⟨hgroup, rest, hs, hdeclarations⟩
  constructor
  · exact ruleSelectors_runs hgroup
  · intro d hd
    rw [hdeclarations] at hd
    exact (declarations_runs bounds true rest d hd).mono fun run hrun =>
      hrun.trans hs.isInfix

/-- The ways in which a rule of a sheet can have been read from its lexemes. -/
inductive RuleReads (bounds : Bounds) (ts : List Lexeme) : Rule → Prop where
  | atRule {l : Lexeme} {rest : List Lexeme} {rule : AtRule} (hs : l :: rest <:+ ts)
      (hl : l.kind = .atKeyword) (hv : (atRule bounds l.value rest).value = some rule) :
      RuleReads bounds ts (.atRule rule)
  | style {us : List Lexeme} {rule : StyleRule} (hs : us <:+ ts)
      (hv : (styleRule bounds us).value = some rule) : RuleReads bounds ts (.style rule)

theorem RuleReads.mono {bounds : Bounds} {ts us : List Lexeme} {rule : Rule}
    (h : RuleReads bounds us rule) (hs : us <:+ ts) : RuleReads bounds ts rule := by
  cases h with
  | atRule hrest hl hv => exact RuleReads.atRule (hrest.trans hs) hl hv
  | style hrest hv => exact RuleReads.style (hrest.trans hs) hv

theorem rules_origin {bounds : Bounds} {ts : List Lexeme} {rule : Rule}
    (h : rule ∈ (rules bounds ts).value) : RuleReads bounds ts rule := by
  fun_induction rules bounds ts with
  | case1 ts hts => cases h
  | case2 ts l rest hts hle hlt hbrace ih => exact (ih h).mono (suffix_of_dropInsignificant hts)
  | case3 ts l rest hts hle hlt hbrace hat read hlt' ih =>
      have hcons : l :: rest <:+ ts := hts ▸ dropInsignificant_suffix ts
      have hafter := (atRule_suffix bounds l.value rest).trans (suffix_of_dropInsignificant hts)
      rcases List.mem_append.mp h with h | h
      · simp only [Option.mem_toList, Option.map_eq_some_iff] at h
        rcases h with ⟨at', hvalue, rfl⟩
        exact RuleReads.atRule hcons hat hvalue
      · exact (ih h).mono hafter
  | case4 ts l rest hts hle hlt hbrace hat read style hv hlt' ih =>
      have hcons : l :: rest <:+ ts := hts ▸ dropInsignificant_suffix ts
      rcases List.mem_append.mp h with h | h
      · rw [Option.toList_some, List.mem_singleton] at h
        exact h ▸ RuleReads.style hcons hv
      · exact (ih h).mono ((styleRule_suffix bounds (l :: rest)).trans hcons)
  | case5 ts l rest hts hle hlt hbrace hat read hv after hlt' ih =>
      have hresume : after <:+ rest := resume_suffix (styleRule_suffix bounds (l :: rest))
      exact (ih h).mono (hresume.trans (suffix_of_dropInsignificant hts))

theorem rules_runs (bounds : Bounds) (ts : List Lexeme) :
    ∀ rule ∈ (rules bounds ts).value, rule.Runs (· <:+: ts) := by
  intro rule hrule
  cases rules_origin hrule with
  | @atRule l rest rule hs hl hv =>
      have hruns : (Rule.atRule rule).Runs (· <:+: rest) := atRule_runs hv
      have hrest := (List.suffix_cons l rest).trans hs
      exact hruns.mono fun run hrun => hrun.trans hrest.isInfix
  | @style us rule hs hv =>
      have hruns : (Rule.style rule).Runs (· <:+: us) := styleRule_runs hv
      exact hruns.mono fun run hrun => hrun.trans hs.isInfix

end Parse
end CssText
