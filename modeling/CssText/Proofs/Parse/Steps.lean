import CssText.Parse.Sheet

/-!
# One step of a reader

Readers that look at the kind of the lexeme in front have one equation here for all kinds,
so that an argument about a run of lexemes has as many cases as the reader has things to do.
The readers of values and of parts of at-rules take lexemes one by one and have an induction
principle each (`balanced_induction`, `components_induction`).
-/

namespace CssText

def Lexeme.kinds (run : List Lexeme) : List Kind :=
  run.map fun l => l.kind

namespace Parse

/-!
## White space
-/

open Lexeme (kinds)

theorem insignificant_of_blank {kind : Kind} (h : kind.isBlank = true) :
    kind.isInsignificant = true := by
  rw [Kind.isInsignificant, h]
  rfl

theorem not_blank_of_significant {kind : Kind} (h : kind.isInsignificant = false) :
    kind.isBlank = false := by
  rw [Kind.isInsignificant, Bool.or_eq_false_iff, Bool.or_eq_false_iff] at h
  exact h.1.1

theorem dropBlank_self {l : Lexeme} (h : l.kind.isBlank = false) (ls : List Lexeme) :
    dropBlank (l :: ls) = l :: ls := by
  rw [dropBlank, List.dropWhile_cons, h]
  rfl

theorem dropInsignificant_self {l : Lexeme} (h : l.kind.isInsignificant = false)
    (ls : List Lexeme) : dropInsignificant (l :: ls) = l :: ls := by
  rw [dropInsignificant, List.dropWhile_cons, h]
  rfl

theorem dropInsignificant_whitespace {l : Lexeme} (h : l.kind = .whitespace)
    (ls : List Lexeme) : dropInsignificant (l :: ls) = dropInsignificant ls := by
  rw [dropInsignificant, List.dropWhile_cons, h]
  rfl

theorem dropBlank_whitespace {l : Lexeme} (h : l.kind = .whitespace) (ls : List Lexeme) :
    dropBlank (l :: ls) = dropBlank ls := by
  rw [dropBlank, List.dropWhile_cons, h]
  rfl

theorem trim_eq_self {run : List Lexeme} (hf : ∀ kind ∈ (kinds run).head?, kind.isBlank = false)
    (hl : ∀ kind ∈ (kinds run).getLast?, kind.isBlank = false) : Lexeme.trim run = run := by
  have hdrop (run : List Lexeme) (h : ∀ kind ∈ (kinds run).head?, kind.isBlank = false) :
      (run.dropWhile fun l => l.kind.isBlank) = run := by
    cases run with
    | nil => rfl
    | cons l run => exact dropBlank_self (h l.kind rfl) run
  have hback : ∀ kind ∈ (kinds run.reverse).head?, kind.isBlank = false := by
    rw [kinds, List.map_reverse, List.head?_reverse]
    exact hl
  rw [Lexeme.trim, hdrop run hf, hdrop run.reverse hback, List.reverse_reverse]

/-!
## Places

A map that gives lexemes other places and leaves their tokens alone makes no difference to what
is white space. So values can be trimmed and collapsed before it or after it.
-/

structure Relocates (f : Lexeme → Lexeme) : Prop where
  token (l : Lexeme) : (f l).toToken = l.toToken
  separator_eq (l : Lexeme) : separator (f l) = f (separator l)
  widen_eq (gap l : Lexeme) : widen (f gap) (f l) = f (widen gap l)

section

variable {f : Lexeme → Lexeme}

theorem Relocates.test_comp (hf : Relocates f) (test : Kind → Bool) :
    (fun l : Lexeme => test l.kind) ∘ f = fun l => test l.kind := by
  funext l
  exact congrArg (fun t : Token => test t.kind) (hf.token l)

theorem dropWhile_relocated (hf : Relocates f) (test : Kind → Bool) (ts : List Lexeme) :
    ((ts.map f).dropWhile fun l => test l.kind) = (ts.dropWhile fun l => test l.kind).map f := by
  rw [List.dropWhile_map, hf.test_comp]

theorem dropBlank_relocated (hf : Relocates f) (ts : List Lexeme) :
    dropBlank (ts.map f) = (dropBlank ts).map f :=
  dropWhile_relocated hf Kind.isBlank ts

theorem trim_relocated (hf : Relocates f) (ts : List Lexeme) :
    Lexeme.trim (ts.map f) = (Lexeme.trim ts).map f := by
  have hdrop := dropWhile_relocated hf Kind.isBlank
  rw [Lexeme.trim, Lexeme.trim, hdrop, ← List.map_reverse, hdrop, List.map_reverse]

theorem foldl_widen_relocated (hf : Relocates f) (gap : Lexeme) (run : List Lexeme) :
    (run.map f).foldl widen (f gap) = f (run.foldl widen gap) := by
  rw [List.foldl_map]
  exact List.foldl_hom f hf.widen_eq

theorem collapse_relocated (hf : Relocates f) (ts : List Lexeme) :
    collapse (ts.map f) = (collapse ts).map f := by
  fun_induction collapse ts with
  | case1 => rw [List.map_nil, collapse]
  | case2 l rest hl run ih =>
      have hrun : ((rest.map f).takeWhile fun m => m.kind.isInsignificant) = run.map f := by
        rw [List.takeWhile_map, hf.test_comp]
      have hdrop : dropInsignificant (rest.map f) = (dropInsignificant rest).map f :=
        dropWhile_relocated hf Kind.isInsignificant rest
      have hl' : (f l).kind.isInsignificant = true := by rwa [hf.token]
      rw [List.map_cons, collapse, if_pos hl']
      simp only [hrun, hdrop, ih, hf.separator_eq, foldl_widen_relocated hf, List.map_cons]
  | case3 l rest hl ih =>
      have hl' : ¬ (f l).kind.isInsignificant = true := by rwa [hf.token]
      rw [List.map_cons, collapse, if_neg hl', ih, List.map_cons]

theorem terms_relocated (hf : Relocates f) (ts : List Lexeme) :
    terms (ts.map f) = (terms ts).map f := by
  rw [terms, terms, collapse_relocated hf, trim_relocated hf]

end

/-!
## Simple selectors

A form of simple selectors is read, or the lexeme in front of some rest of it is rejected.
-/

theorem attributeTest?_ne_present {l : Lexeme} {test : AttributeTest}
    (h : attributeTest? l = some test) : test ≠ .present := by
  unfold attributeTest? at h
  split at h
  · cases h
    decide
  · cases h
    decide
  · cases h
    decide
  · cases h
    decide
  · cases h
    decide
  · split at h
    · cases h
      decide
    · cases h

theorem attributeValue_cases (bounds : Bounds) (name : Bytes) (test : AttributeTest)
    (ts : List Lexeme) :
    (∃ wanted us, us <:+ ts ∧
        attributeValue bounds name test ts = reject bounds .attributeSelector wanted us) ∨
      ∃ value rest, value ∈ ts ∧ rest <:+ ts ∧
        attributeValue bounds name test ts = accept (.attr name test value.value) rest := by
  unfold attributeValue
  split
  · exact Or.inl ⟨_, [], List.nil_suffix, rfl⟩
  · rename_i value rest hv
    have hvalue : value :: rest <:+ ts := hv ▸ dropBlank_suffix ts
    have hrest := (List.suffix_cons value rest).trans hvalue
    split
    · split
      · exact Or.inl ⟨_, [], List.nil_suffix, rfl⟩
      · rename_i close rest' hc
        have hclose : close :: rest' <:+ rest := hc ▸ dropBlank_suffix rest
        split
        · exact Or.inr ⟨value, rest', hvalue.subset List.mem_cons_self,
            ((List.suffix_cons close rest').trans hclose).trans hrest, rfl⟩
        · exact Or.inl ⟨_, close :: rest', hclose.trans hrest, rfl⟩
    · exact Or.inl ⟨_, value :: rest, hvalue, rfl⟩

theorem attributeSelector_cases (bounds : Bounds) (ts : List Lexeme) :
    (∃ wanted us, us <:+ ts ∧
        attributeSelector bounds ts = reject bounds .attributeSelector wanted us) ∨
      ∃ name after test value rest, dropBlank ts = name :: after ∧ name.kind = .ident ∧
        rest <:+ after ∧ (∀ v ∈ value, ∃ l ∈ after, l.value = v) ∧
        (value.isSome = true ↔ test ≠ .present) ∧
        attributeSelector bounds ts = accept (.attr name.value test value) rest := by
  unfold attributeSelector
  split
  · exact Or.inl ⟨_, [], List.nil_suffix, rfl⟩
  · rename_i name after hts
    have hname : name :: after <:+ ts := hts ▸ dropBlank_suffix ts
    have hafter := (List.suffix_cons name after).trans hname
    split
    · rename_i hk
      split
      · exact Or.inl ⟨_, [], List.nil_suffix, rfl⟩
      · rename_i op rest ho
        have hop : op :: rest <:+ after := ho ▸ dropBlank_suffix after
        have hrest := (List.suffix_cons op rest).trans hop
        split
        · refine Or.inr ⟨name, after, .present, none, rest, hts, hk, hrest, ?_, ?_, rfl⟩
          · rintro v ⟨⟩
          · exact iff_of_false Bool.false_ne_true fun h => h rfl
        · split
          · rename_i test htest
            rcases attributeValue_cases bounds name.value test rest with
              ⟨wanted, us, hus, hread⟩ | ⟨value, rest', hvalue, hrest', hread⟩
            · exact Or.inl ⟨wanted, us, (hus.trans hrest).trans hafter, hread⟩
            · refine Or.inr ⟨name, after, test, value.value, rest', hts, hk,
                hrest'.trans hrest, ?_, ?_, hread⟩
              · rintro v ⟨⟩
                exact ⟨value, hrest.subset hvalue, rfl⟩
              · exact iff_of_true rfl (attributeTest?_ne_present htest)
          · exact Or.inl ⟨_, op :: rest, hop.trans hafter, rfl⟩
    · exact Or.inl ⟨_, name :: after, hname, rfl⟩

theorem pseudoFunction_cases (bounds : Bounds) (name : Bytes) (ts : List Lexeme) :
    (∃ args, (arguments 0 ts).1 = some args ∧
        pseudoFunction bounds name ts =
          accept (.pseudoFunction name (Lexeme.trim args)) (arguments 0 ts).2) ∨
      pseudoFunction bounds name ts =
        { value := .nothing
          issues := [⟨.expected (.functionSelector name) .closeParen,
            bounds.front (arguments 0 ts).2⟩]
          rest := (arguments 0 ts).2 } := by
  unfold pseudoFunction
  simp only
  split
  · rename_i args hargs
    exact Or.inl ⟨args, hargs, rfl⟩
  · exact Or.inr rfl

theorem negation_cases (bounds : Bounds) (name : Bytes) (inner : Reading Selector) :
    (∃ us, us <:+ inner.rest ∧
        negation bounds name inner =
          { reject bounds (.functionSelector name) .closeParen us with
            issues := inner.issues ++
              [⟨.expected (.functionSelector name) .closeParen, bounds.front us⟩] }) ∨
      ∃ rest, rest <:+ inner.rest ∧
        negation bounds name inner =
          { value := .negation name inner.value, issues := inner.issues, rest } := by
  unfold negation
  split
  · exact Or.inl ⟨[], List.nil_suffix, rfl⟩
  · rename_i close rest hc
    split
    · exact Or.inr ⟨rest, suffix_of_dropBlank hc, rfl⟩
    · exact Or.inl ⟨close :: rest, hc ▸ dropBlank_suffix inner.rest, rfl⟩

theorem className_cases (bounds : Bounds) (ts : List Lexeme) :
    className bounds ts = reject bounds .simpleSelector .identifier ts ∨
      ∃ name rest, ts = name :: rest ∧ name.kind = .ident ∧
        className bounds ts = accept (.className name.value) rest := by
  unfold className
  split
  · exact Or.inl rfl
  · rename_i name rest
    split
    · rename_i hk
      exact Or.inr ⟨name, rest, rfl, hk, rfl⟩
    · exact Or.inl rfl

/-!
## Arguments
-/

def nestingAfter (kind : Kind) (nesting : Nat) : Nat :=
  if kind = .leftParen || kind = .function then nesting + 1
  else if kind = .rightParen then nesting - 1
  else nesting

def cutsArguments (kind : Kind) : Bool :=
  kind = .leftBrace || kind = .rightBrace

theorem arguments_cons (nesting : Nat) (l : Lexeme) (rest : List Lexeme) :
    arguments nesting (l :: rest) =
      if cutsArguments l.kind then (none, l :: rest)
      else if l.kind = .rightParen ∧ nesting = 0 then (some [], rest)
      else ((arguments (nestingAfter l.kind nesting) rest).1.map (l :: ·),
        (arguments (nestingAfter l.kind nesting) rest).2) := by
  rw [arguments.eq_def]
  cases hk : l.kind with
  | rightParen => cases nesting <;> simp [hk, cutsArguments, nestingAfter]
  | _ => simp [hk, cutsArguments, nestingAfter]

/-!
## Chains

A chain that was read is its first selector, or that one combined with the rest of the chain. It
raises the issues of its first selector and then those of the rest.
-/

theorem chain_parts {bounds : Bounds} {depth : Nat} {place : Lexeme} {ts : List Lexeme}
    {s : Selector} (hv : (chain bounds (depth + 1) place ts).value = some s) :
    (link? (simple bounds depth ts).rest = none ∧ s = (simple bounds depth ts).value) ∨
      ∃ link right, link? (simple bounds depth ts).rest = some link ∧
        (chain bounds depth link.place link.rest).value = some right ∧
        s = .combine link.how (simple bounds depth ts).value right := by
  rw [chain] at hv
  simp only at hv
  split at hv
  · rename_i hlink
    exact Or.inl ⟨hlink, (Option.some.inj hv).symm⟩
  · rename_i link hlink
    rcases Option.map_eq_some_iff.mp hv with ⟨right, hright, rfl⟩
    exact Or.inr ⟨link, right, hlink, hright, rfl⟩

theorem chain_issues {bounds : Bounds} {depth : Nat} (place : Lexeme) {ts : List Lexeme} :
    (chain bounds (depth + 1) place ts).issues = (simple bounds depth ts).issues ++
      ((link? (simple bounds depth ts).rest).map fun link =>
        (chain bounds depth link.place link.rest).issues).getD [] := by
  rw [chain]
  simp only
  split
  · rename_i hlink
    rw [hlink, Option.map_none, Option.getD_none, List.append_nil]
  · rename_i link hlink
    rw [hlink, Option.map_some, Option.getD_some]

theorem chain_cases {bounds : Bounds} {depth : Nat} {place : Lexeme}
    {ts : List Lexeme} {s : Selector}
    (hv : (chain bounds (depth + 1) place ts).value = some s)
    (hi : (chain bounds (depth + 1) place ts).issues = []) :
    (simple bounds depth ts).issues = [] ∧
      ((link? (simple bounds depth ts).rest = none ∧ s = (simple bounds depth ts).value) ∨
        ∃ link right, link? (simple bounds depth ts).rest = some link ∧
          (chain bounds depth link.place link.rest).value = some right ∧
          (chain bounds depth link.place link.rest).issues = [] ∧
          s = .combine link.how (simple bounds depth ts).value right) := by
  rw [chain_issues] at hi
  rcases List.append_eq_nil_iff.mp hi with ⟨hfirst, hmore⟩
  refine ⟨hfirst, ?_⟩
  rcases chain_parts hv with ⟨hlink, hs⟩ | ⟨link, right, hlink, hright, hs⟩
  · exact Or.inl ⟨hlink, hs⟩
  · rw [hlink] at hmore
    exact Or.inr ⟨link, right, hlink, hright, hmore, hs⟩

/-!
## Groups

What comes after the first chain of a group decides how the group goes on. Unless no chain fits
the limit, a group without lexemes ends at once.
-/

def alternativesAfter (bounds : Bounds) (first : Reading (Option Selector)) :
    Reading (Option SelectorGroup) :=
  match first.value, first.rest with
  | none, rest => { value := none, issues := first.issues, rest }
  | some selector, [] => { value := some [selector], issues := first.issues, rest := [] }
  | some selector, l :: rest =>
      if l.kind = .leftBrace then
        { value := some [selector], issues := first.issues, rest := l :: rest }
      else if l.kind = .comma then
        let more := alternatives bounds (dropInsignificant rest)
        { value := more.value.map (selector :: ·)
          issues := first.issues ++ more.issues
          rest := more.rest }
      else
        { value := none
          issues := first.issues ++ [⟨.expected .selectorGroup .comma, l⟩]
          rest }

theorem alternatives_eq (bounds : Bounds) (ts : List Lexeme) :
    alternatives bounds ts =
      alternativesAfter bounds (chain bounds bounds.limit (bounds.front ts) ts) := by
  rw [alternatives.eq_def, alternativesAfter]
  simp only
  split
  · rename_i hv
    simp only [hv]
  · rename_i selector hv
    simp only [hv]
    split
    · rename_i hr
      simp only [hr]
    · rename_i l rest hr
      simp only [hr]

theorem alternatives_nil {bounds : Bounds} (h : bounds.limit ≠ 0) :
    (alternatives bounds []).value ≠ none ∧ (alternatives bounds []).rest = [] := by
  cases hlimit : bounds.limit with
  | zero => exact absurd hlimit h
  | succ depth =>
      have hfirst (place : Lexeme) : chain bounds (depth + 1) place [] =
          { value := some .nothing
            issues := (reject bounds .simpleSelector .simpleSelector []).issues
            rest := [] } := by
        rw [chain, simple.eq_def]
        rfl
      rw [alternatives_eq, hlimit, hfirst]
      constructor
      · intro hnone
        cases hnone
      · rfl

def endGroup (group : Reading (Option SelectorGroup)) : Parsed SelectorGroup :=
  match group.value with
  | none => { value := [], issues := group.issues }
  | some selectors =>
      match dropBlank group.rest with
      | [] => { value := selectors, issues := group.issues }
      | l :: _ =>
          { value := selectors
            issues := group.issues ++ [⟨.expected .selectorGroup .endOfInput, l⟩] }

/-- A text is returned as its group, with one more issue if something follows the group. -/
theorem endGroup_cases (group : Reading (Option SelectorGroup)) :
    (group.value = none ∧ endGroup group = { value := [], issues := group.issues }) ∨
      ∃ selectors, group.value = some selectors ∧
        (endGroup group = { value := selectors, issues := group.issues } ∨
          ∃ l, endGroup group =
            { value := selectors
              issues := group.issues ++ [⟨.expected .selectorGroup .endOfInput, l⟩] }) := by
  rw [endGroup]
  split
  · rename_i hvalue
    exact Or.inl ⟨hvalue, rfl⟩
  · rename_i selectors hvalue
    refine Or.inr ⟨selectors, hvalue, ?_⟩
    split
    · exact Or.inl rfl
    · exact Or.inr ⟨_, rfl⟩

theorem link?_rest_ne_nil {ts : List Lexeme} {link : Link} (h : link? ts = some link) :
    dropBlank ts ≠ [] := by
  intro hts
  rw [link?, hts] at h
  cases h

/-!
## Skipping
-/

def openedAfter (kind : Kind) (opened : List Bracket) : List Bracket :=
  match kind with
  | .rightBrace | .rightParen | .rightBracket => (closeInnermost? kind opened).getD opened
  | _ => openedBy kind opened

theorem skipDeclaration_cons (opened : List Bracket) (l : Lexeme) (rest : List Lexeme) :
    skipDeclaration opened (l :: rest) =
      if l.kind = .semicolon ∧ opened = [] then rest
      else if l.kind = .rightBrace ∧ closeInnermost? .rightBrace opened = none then l :: rest
      else skipDeclaration (openedAfter l.kind opened) rest := by
  rw [skipDeclaration.eq_def]
  cases hk : l.kind with
  | semicolon =>
      cases opened <;> simp [hk, openedAfter, openedBy, Bracket.ofOpener?]
  | rightBrace =>
      cases hc : closeInnermost? .rightBrace opened <;> simp [hk, hc, openedAfter]
  | _ => simp [hk, openedAfter]

/-!
## Declarations

A declaration is read where a colon stands before a value that is read. It fails as its value
does, or because something stands in place of its colon. In a block a declaration list leaves
nothing or a right brace.
-/

def valued (property : Lexeme) (run : List Lexeme) (stop : Lexeme) : Declaration :=
  { property := property.value
    terms := terms run
    start := property.start
    stop := ((terms run).getLast?.map Lexeme.stop).getD stop.start }

theorem declaration_iff {bounds : Bounds} {property : Lexeme} {ts after : List Lexeme}
    {d : Declaration} :
    declaration bounds property ts = (.ok d, after) ↔
      ∃ colon rest run, dropBlank ts = colon :: rest ∧ colon.kind = .colon ∧
        balanced bounds [] rest = (.ok run, after) ∧
        d = valued property run (bounds.front after) := by
  constructor
  · intro h
    unfold declaration at h
    split at h
    · cases h
    · rename_i l rest hts
      split at h
      · rename_i hcolon
        cases hvalue : (balanced bounds [] rest).1 with
        | error fault =>
            simp only [hvalue] at h
            cases h
        | ok run =>
            simp only [hvalue] at h
            cases h
            exact ⟨l, rest, run, hts, hcolon, Prod.ext hvalue rfl, rfl⟩
      · cases h
  · intro h
    rcases h with ⟨colon, rest, run, hts, hcolon, hvalue, rfl⟩
    unfold declaration
    simp only [hts, hcolon, if_true, hvalue]
    rfl

theorem declaration_ok {bounds : Bounds} {property : Lexeme} {ts : List Lexeme}
    {d : Declaration} (h : (declaration bounds property ts).1 = .ok d) :
    ∃ colon rest run, dropBlank ts = colon :: rest ∧ colon.kind = .colon ∧
      (balanced bounds [] rest).1 = .ok run ∧
      d = valued property run (bounds.front (balanced bounds [] rest).2) := by
  have hread : declaration bounds property ts = (.ok d, (declaration bounds property ts).2) :=
    Prod.ext h rfl
  rcases declaration_iff.mp hread with ⟨colon, rest, run, hts, hcolon, hvalue, hd⟩
  have hafter : (balanced bounds [] rest).2 = _ := congrArg Prod.snd hvalue
  exact ⟨colon, rest, run, hts, hcolon, congrArg Prod.fst hvalue, hafter ▸ hd⟩

theorem declaration_error {bounds : Bounds} {property : Lexeme} {ts after : List Lexeme}
    {fault : Fault} (h : declaration bounds property ts = (.error fault, after)) :
    (∃ colon rest, dropBlank ts = colon :: rest ∧
        balanced bounds [] rest = (.error fault, after)) ∨
      (fault.issue = ⟨.expected .declaration .colon, bounds.front (dropBlank ts)⟩ ∧
        after <:+ dropBlank ts) := by
  unfold declaration at h
  split at h
  · rename_i hts
    cases h
    rw [hts]
    exact Or.inr ⟨rfl, List.nil_suffix⟩
  · rename_i l rest hts
    rw [hts]
    split at h
    · cases hvalue : (balanced bounds [] rest).1 with
      | ok run =>
          simp only [hvalue] at h
          cases h
      | error fault' =>
          simp only [hvalue] at h
          cases h
          exact Or.inl ⟨l, rest, rfl, Prod.ext hvalue rfl⟩
    · cases h
      refine Or.inr ⟨rfl, ?_⟩
      split
      · exact List.suffix_refl _
      · exact List.suffix_cons l rest

def declarationsAfter (bounds : Bounds) (inBlock : Bool) :
    List Lexeme → Reading (List Declaration)
  | [] => { value := [], issues := [], rest := [] }
  | l :: rest =>
      if l.kind = .rightBrace then
        if inBlock then
          { value := [], issues := [], rest := l :: rest }
        else
          consIssue ⟨.strayBrace .declarationList, l⟩ (declarations bounds inBlock rest)
      else if separatesDeclarations l.kind then
        declarations bounds inBlock rest
      else if l.kind = .ident then
        match declaration bounds l rest with
        | (.ok d, after) => consDeclaration d (declarations bounds inBlock after)
        | (.error fault, after) =>
            consIssue fault.issue
              (declarations bounds inBlock (skipDeclaration fault.opened after))
      else
        consIssue ⟨.expected .declarationList .declaration, l⟩
          (declarations bounds inBlock (skipDeclaration [] (l :: rest)))

theorem declarations_eq (bounds : Bounds) (inBlock : Bool) (ts : List Lexeme) :
    declarations bounds inBlock ts = declarationsAfter bounds inBlock (dropBlank ts) := by
  rw [declarations.eq_def]
  split
  · rename_i h
    rw [h]
    rfl
  · rename_i l rest h
    refine Eq.trans ?_ (congrArg (declarationsAfter bounds inBlock) h.symm)
    rw [declarationsAfter]
    split
    · rfl
    · split
      · rfl
      · split
        · split
          · rename_i hd
            simp only [hd]
          · rename_i hd
            simp only [hd]
        · rfl

theorem declarations_stop (bounds : Bounds) (ts : List Lexeme) :
    (declarations bounds true ts).rest = [] ∨
      ∃ l rest, (declarations bounds true ts).rest = l :: rest ∧ l.kind = .rightBrace := by
  induction hn : ts.length using Nat.strongRecOn generalizing ts with
  | ind n ih =>
      subst hn
      rw [declarations_eq]
      cases hts : dropBlank ts with
      | nil =>
          left
          rfl
      | cons l rest =>
          have hlt : rest.length < ts.length := length_lt_of_dropBlank hts
          rw [declarationsAfter]
          split
          · rename_i hbrace
            right
            exact ⟨l, rest, rfl, hbrace⟩
          · rename_i hbrace
            split
            · exact ih _ hlt rest rfl
            · split
              · split
                · rename_i hd
                  exact ih _ (length_declaration_lt hlt hd) _ rfl
                · rename_i fault after hd
                  have hskip := (skipDeclaration_suffix fault.opened after).length_le
                  exact ih _ (Nat.lt_of_le_of_lt hskip (length_declaration_lt hlt hd)) _ rfl
              · have hskip := (skipDeclaration_cons_suffix hbrace [] rest).length_le
                exact ih _ (Nat.lt_of_le_of_lt hskip hlt) _ rfl

/-!
## Sheets
-/

def rulesAfter (bounds : Bounds) : List Lexeme → Reading Sheet
  | [] => { value := [], issues := [], rest := [] }
  | l :: rest =>
      if l.kind = .rightBrace then
        consIssue ⟨.strayBrace .styleSheet, l⟩ (rules bounds rest)
      else if l.kind = .atKeyword then
        let rule := atRule bounds l.value rest
        consRule (rule.value.map .atRule) rule.issues (rules bounds rule.rest)
      else
        let rule := styleRule bounds (l :: rest)
        match rule.value with
        | some style => consRule (some (.style style)) rule.issues (rules bounds rule.rest)
        | none => consRule none rule.issues (rules bounds (resume bounds l rest rule.rest))

theorem rules_eq (bounds : Bounds) (ts : List Lexeme) :
    rules bounds ts = rulesAfter bounds (dropInsignificant ts) := by
  rw [rules.eq_def]
  split
  · rename_i h
    rw [h]
    rfl
  · rename_i l rest h
    refine Eq.trans ?_ (congrArg (rulesAfter bounds) h.symm)
    rw [rulesAfter]
    split
    · rfl
    · split
      · rfl
      · simp only
        split
        · rename_i hv
          simp only [hv]
        · rename_i hv
          simp only [hv]

/-!
## Runs of lexemes

A value and a part of an at-rule are read by two readers that differ in what ends a run and in
what they object to. Apart from that each of them takes lexeme after lexeme, and most facts
about them do not depend on which brackets a lexeme opens and closes.
-/

theorem exists_of_map_ok {α β ε : Type} {f : α → β} {x : Except ε α} {b : β}
    (h : x.map f = .ok b) : ∃ a, x = .ok a ∧ b = f a := by
  cases x with
  | error e => cases h
  | ok a =>
      cases h
      exact ⟨a, rfl, rfl⟩

theorem error_of_map {α β ε : Type} {f : α → β} {x : Except ε α} {e : ε}
    (h : x.map f = .error e) : x = .error e := by
  cases x with
  | error e' =>
      cases h
      rfl
  | ok a => cases h

/--
Induction along a part of an at-rule: lexemes are taken up to one that ends the part, to a
bracket that is one too many, or to the end of the input.
-/
theorem components_induction {bounds : Bounds} {around : List Bracket} {ends : Kind → Bool}
    {motive : List Lexeme → Reading (Option (List Lexeme)) → Prop}
    (opened : List Bracket) (ts : List Lexeme)
    (missing : ∀ opened,
      motive [] { value := none, issues := [⟨unclosed opened, bounds.final⟩], rest := [] })
    (stop : ∀ l rest, ends l.kind = true →
      motive (l :: rest) { value := some [], issues := [], rest := l :: rest })
    (take : ∀ l rest more, motive rest more →
      motive (l :: rest) { more with value := more.value.map (l :: ·) })
    (refuse : ∀ l rest, motive (l :: rest)
      { value := none, issues := [⟨.tooDeep bounds.limit, l⟩], rest := l :: rest }) :
    motive ts (components bounds around ends opened ts) := by
  induction ts generalizing opened with
  | nil => exact missing (opened ++ around)
  | cons l rest ih =>
      rw [components]
      split
      · rename_i hend
        exact stop l rest (Bool.and_eq_true_iff.mp hend).2
      · split
        · exact take l rest _ (ih opened.tail)
        · split
          · exact take l rest _ (ih opened)
          · rename_i b hopen
            split
            · exact take l rest _ (ih (b :: opened))
            · exact refuse l rest

/--
Induction along a value: lexemes are taken up to one that ends the value or is objected to, or
to the end of the input, where brackets that are still open are missed.
-/
theorem balanced_induction {bounds : Bounds}
    {motive : List Lexeme → Except Fault (List Lexeme) × List Lexeme → Prop}
    (opened : List Bracket) (ts : List Lexeme)
    (finish : motive [] (.ok [], []))
    (missing : ∀ (b : Bracket) opened,
      motive [] (.error ⟨⟨.expected .terms b.wanted, bounds.final⟩, opened⟩, []))
    (stop : ∀ l rest, endsValue l.kind = true → motive (l :: rest) (.ok [], l :: rest))
    (take : ∀ l rest more, motive rest more →
      motive (l :: rest) (more.1.map (l :: ·), more.2))
    (refuse : ∀ l rest opened complaint, objection? bounds opened l.kind = some complaint →
      motive (l :: rest) (.error ⟨⟨complaint, l⟩, opened⟩, passUnlessBrace l rest)) :
    motive ts (balanced bounds opened ts) := by
  induction ts generalizing opened with
  | nil =>
      cases opened with
      | nil => exact finish
      | cons b opened => exact missing b (b :: opened)
  | cons l rest ih =>
      rw [balanced]
      split
      · rename_i hend
        exact stop l rest (Bool.and_eq_true_iff.mp hend).2
      · split
        · exact take l rest _ (ih opened.tail)
        · split
          · rename_i complaint hcomplaint
            exact refuse l rest opened complaint hcomplaint
          · exact take l rest _ (ih _)

/-!
## At-rules that were read

A block is only read behind the header if the limit allows for its braces.
-/

theorem block_some {bounds : Bounds} {ts body : List Lexeme}
    (h : (block bounds ts).value = some body) :
    ∃ run, (components bounds [.curly] endsBlock [] ts).value = some run ∧
      body = Lexeme.trim run := by
  unfold block at h
  simp only at h
  split at h
  · rename_i hnone
    rw [hnone] at h
    cases h
  · rename_i run hrun
    cases h
    exact ⟨run, hrun, rfl⟩

theorem atRule_some {bounds : Bounds} {keyword : Bytes} {ts : List Lexeme} {rule : AtRule}
    (h : (atRule bounds keyword ts).value = some rule) :
    ∃ run l rest, (components bounds [] endsHeader [] ts).value = some run ∧
      (components bounds [] endsHeader [] ts).rest = l :: rest ∧
      rule.keyword = keyword ∧ rule.header = Lexeme.trim run ∧
      ∀ body, rule.block = some body →
        bounds.limit ≠ 0 ∧ (block bounds rest).value = some body := by
  unfold atRule at h
  simp only at h
  split at h
  · rename_i run l rest hrun hrest
    refine ⟨run, l, rest, hrun, hrest, ?_⟩
    split at h
    · cases h
      refine ⟨rfl, rfl, ?_⟩
      intro body hbody
      cases hbody
    · split at h
      · cases h
      · rename_i hlimit
        rcases Option.map_eq_some_iff.mp h with ⟨body, hbody, rfl⟩
        refine ⟨rfl, rfl, ?_⟩
        intro body' hbody'
        cases hbody'
        exact ⟨hlimit, hbody⟩
  · cases h

/-!
## The end of the input

A run of an at-rule that meets the end of the input has no value and blames the end.
-/

def blamesEnd (bounds : Bounds) (issues : List Issue) : Prop :=
  ∃ i ∈ issues, i.place = bounds.final

theorem components_end (bounds : Bounds) (around : List Bracket) (ends : Kind → Bool)
    (opened : List Bracket) (ts : List Lexeme) :
    (components bounds around ends opened ts).rest = [] →
      (components bounds around ends opened ts).value = none ∧
        blamesEnd bounds (components bounds around ends opened ts).issues := by
  refine components_induction
    (motive := fun _ r => r.rest = [] → r.value = none ∧ blamesEnd bounds r.issues)
    opened ts ?missing ?stop ?take ?refuse
  case missing =>
    intro opened _
    exact ⟨rfl, _, List.mem_singleton_self _, rfl⟩
  case stop =>
    intro l rest hl hrest
    cases hrest
  case take =>
    intro l rest more ih hrest
    rcases ih hrest with ⟨hnone, hblames⟩
    exact ⟨Option.map_eq_none_iff.mpr hnone, hblames⟩
  case refuse =>
    intro l rest hrest
    cases hrest

end Parse
end CssText
