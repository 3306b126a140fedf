import CssText.Proofs.Sheet.Limit

/-!
# Reading under a higher limit

The limit is asked for in three places: at a bracket, at a step of a chain and at a negation.
Where none of them refuses, nothing that is read depends on the limit, however many issues of
another kind there are. So a text that is nowhere too deep is read alike under every higher
limit (`parse_of_limit_le`).
-/

namespace CssText

namespace Complaint

/-- The complaint is about the limit. -/
def isTooDeep : Complaint → Bool
  | .tooDeep _ => true
  | _ => false

end Complaint

namespace Parse

def Shallow (issues : List Issue) : Prop :=
  ∀ i ∈ issues, i.complaint.isTooDeep = false

theorem shallow_nil : Shallow [] := by
  intro i hi
  cases hi

theorem Shallow.left {issues issues' : List Issue} (h : Shallow (issues ++ issues')) :
    Shallow issues := by
  intro i hi
  exact h i (List.mem_append_left issues' hi)

theorem Shallow.right {issues issues' : List Issue} (h : Shallow (issues ++ issues')) :
    Shallow issues' := by
  intro i hi
  exact h i (List.mem_append_right issues hi)

theorem Shallow.tail {i : Issue} {issues : List Issue} (h : Shallow (i :: issues)) :
    Shallow issues :=
  @Shallow.right [i] issues h

theorem not_shallow_tooDeep {limit : Nat} {place : Lexeme} {issues : List Issue} :
    ¬ Shallow (⟨.tooDeep limit, place⟩ :: issues) := by
  intro h
  have htoo := h _ List.mem_cons_self
  cases htoo

variable {bounds : Bounds} {d : Nat}

/-!
## Selectors

A negation with something too deep inside is not shallow itself.
-/

theorem Shallow.inner {name : Bytes} {inner : Reading Selector}
    (h : Shallow (negation bounds name inner).issues) : Shallow inner.issues := by
  rcases negation_cases bounds name inner with ⟨us, -, hread⟩ | ⟨rest, -, hread⟩
  · rw [hread] at h
    exact h.left
  · rw [hread] at h
    exact h

theorem simple_higher {depth depth' : Nat} (hdepth : depth ≤ depth') (ts : List Lexeme)
    (h : Shallow (simple bounds depth ts).issues) :
    simple (bounds.within d) depth' ts = simple bounds depth ts := by
  fun_induction simple bounds depth ts generalizing depth' with
  | case1 depth ts hts =>
      rw [simple.eq_def]
      simp only [hts]
      rfl
  | case2 depth ts l rest hts hk =>
      rw [simple.eq_def]
      simp only [hts, hk]
  | case3 depth ts l rest hts hk =>
      rw [simple.eq_def]
      simp only [hts, hk]
  | case4 depth ts l rest hts hk =>
      rw [simple.eq_def]
      simp only [hts, hk]
      rfl
  | case5 depth ts l hk hts =>
      rw [simple.eq_def]
      simp only [hts, hk]
      rfl
  | case6 depth ts l hk name rest hn hts =>
      rw [simple.eq_def]
      simp only [hts, hk, hn, if_true]
  | case7 ts l hk name rest hn hf hname hts => exact absurd h not_shallow_tooDeep
  | case8 ts l hk name rest hn hf hname depth hts ih =>
      cases depth' with
      | zero => exact absurd hdepth (Nat.not_succ_le_zero depth)
      | succ depth' =>
          rw [simple.eq_def]
          simp only [hts, hk, hf, hname, if_true, reduceCtorEq, if_false,
            ih (Nat.le_of_succ_le_succ hdepth) h.inner]
          rfl
  | case9 depth ts l hk name rest hn hf hname hts =>
      rw [simple.eq_def]
      simp only [hts, hk, hf, hname, if_true, reduceCtorEq, if_false]
      rfl
  | case10 depth ts l hk name rest hn hf hts =>
      rw [simple.eq_def]
      simp only [hts, hk, hn, hf, if_false]
      rfl
  | case11 depth ts l rest hts hd _ _ _ _ =>
      rw [simple.eq_def]
      simp only [hts, hd, if_true]
  | case12 depth ts l rest hts hd hd' _ _ _ _ =>
      rw [simple.eq_def]
      simp only [hts, hd, hd', if_true]
      rfl
  | case13 depth ts l rest hts hd hd' _ _ _ _ =>
      rw [simple.eq_def]
      simp only [hts, hd, hd']
      rfl

theorem chain_higher {depth depth' : Nat} (hdepth : depth ≤ depth') (place : Lexeme)
    (ts : List Lexeme) (h : Shallow (chain bounds depth place ts).issues) :
    chain (bounds.within d) depth' place ts = chain bounds depth place ts := by
  induction depth generalizing depth' place ts with
  | zero => exact absurd h not_shallow_tooDeep
  | succ depth ih =>
      cases depth' with
      | zero => exact absurd hdepth (Nat.not_succ_le_zero depth)
      | succ depth' =>
          have hle := Nat.le_of_succ_le_succ hdepth
          rw [chain] at h ⊢
          rw [chain]
          cases hlink : link? (simple bounds depth ts).rest with
          | none =>
              simp only [hlink] at h
              have hfirst := simple_higher (d := d) hle ts h
              simp only [hfirst, hlink]
          | some link =>
              simp only [hlink] at h
              have hfirst := simple_higher (d := d) hle ts h.left
              have hnext := ih hle link.place link.rest h.right
              simp only [hfirst, hlink, hnext]

theorem alternatives_higher (hd : bounds.limit ≤ d) (ts : List Lexeme)
    (h : Shallow (alternatives bounds ts).issues) :
    alternatives (bounds.within d) ts = alternatives bounds ts := by
  induction hn : ts.length using Nat.strongRecOn generalizing ts with
  | ind n ih =>
      subst hn
      have hsuffix := chain_suffix bounds bounds.limit (bounds.front ts) ts
      have hchain := @chain_higher bounds d _ _ hd (bounds.front ts) ts
      rw [alternatives_eq] at h
      rw [alternatives_eq, alternatives_eq bounds]
      rcases hfirst : chain bounds bounds.limit (bounds.front ts) ts with ⟨value, issues, rest⟩
      rw [hfirst] at h hsuffix hchain
      have hread (hissues : Shallow issues) :
          chain (bounds.within d) (bounds.within d).limit ((bounds.within d).front ts) ts =
            { value, issues, rest } :=
        hchain hissues
      cases value with
      | none =>
          rw [hread h]
          rfl
      | some selector =>
          cases rest with
          | nil =>
              rw [hread h]
              rfl
          | cons l rest =>
              simp only [alternativesAfter] at h ⊢
              by_cases hbrace : l.kind = .leftBrace
              · simp only [hbrace, if_true] at h
                simp only [hread h, hbrace, if_true]
              · by_cases hcomma : l.kind = .comma
                · simp only [hcomma, reduceCtorEq, if_false, if_true] at h
                  have hlt : (dropInsignificant rest).length < ts.length :=
                    Nat.lt_of_le_of_lt (dropInsignificant_suffix rest).length_le
                      hsuffix.length_le
                  simp only [hread h.left, hcomma, reduceCtorEq, if_false, if_true,
                    ih _ hlt _ h.right rfl]
                · simp only [hbrace, hcomma, if_false] at h
                  simp only [hread h.left, hbrace, hcomma, if_false]

/-!
## At-rules
-/

theorem components_higher (hd : bounds.limit ≤ d) (around : List Bracket) (ends : Kind → Bool)
    (opened : List Bracket) (ts : List Lexeme)
    (h : Shallow (components bounds around ends opened ts).issues) :
    components (bounds.within d) around ends opened ts =
      components bounds around ends opened ts := by
  induction ts generalizing opened with
  | nil => rfl
  | cons l rest ih =>
      rw [components] at h ⊢
      rw [components]
      by_cases hend : (opened.isEmpty && ends l.kind) = true
      · simp only [hend, if_true]
      · simp only [hend, Bool.false_eq_true, if_false] at h ⊢
        by_cases hclose : opened.head?.map Bracket.closer = some l.kind
        · simp only [hclose, if_true] at h ⊢
          rw [ih _ h]
        · simp only [hclose, if_false] at h ⊢
          cases hopen : Bracket.ofOpener? l.kind with
          | none =>
              simp only [hopen] at h ⊢
              rw [ih _ h]
          | some b =>
              simp only [hopen] at h ⊢
              by_cases hlimit : opened.length + around.length < bounds.limit
              · have hlimit' : opened.length + around.length < (bounds.within d).limit :=
                  Nat.lt_of_lt_of_le hlimit hd
                simp only [hlimit, if_true] at h
                simp only [hlimit, hlimit', if_true]
                rw [ih _ h]
              · simp only [hlimit, if_false] at h
                exact absurd h not_shallow_tooDeep

theorem block_higher (hd : bounds.limit ≤ d) (ts : List Lexeme)
    (h : Shallow (block bounds ts).issues) :
    block (bounds.within d) ts = block bounds ts := by
  have hbody : Shallow (components bounds [.curly] endsBlock [] ts).issues := by
    rcases components_decided bounds [.curly] endsBlock [] ts with ⟨-, hi⟩ | ⟨hnone, -⟩
    · rw [hi]
      exact shallow_nil
    · rw [block] at h
      simp only [hnone] at h
      exact h
  rw [block, block, components_higher hd _ _ _ ts hbody]

theorem atRule_higher (hd : bounds.limit ≤ d) (keyword : Bytes) (ts : List Lexeme)
    (h : Shallow (atRule bounds keyword ts).issues) :
    atRule (bounds.within d) keyword ts = atRule bounds keyword ts := by
  rw [atRule] at h
  have hrun : Shallow (components bounds [] endsHeader [] ts).issues := by
    rcases components_decided bounds [] endsHeader [] ts with ⟨-, hi⟩ | ⟨hnone, -⟩
    · rw [hi]
      exact shallow_nil
    · simp only [hnone] at h
      exact h
  rw [atRule, atRule, components_higher hd _ _ _ ts hrun]
  simp only at h ⊢
  split
  · rename_i header l rest hv hrest
    simp only [hv, hrest] at h
    by_cases hsemicolon : l.kind = .semicolon
    · simp only [hsemicolon, if_true]
    · simp only [hsemicolon, if_false] at h ⊢
      by_cases hzero : bounds.limit = 0
      · simp only [hzero, if_true] at h
        exact absurd h not_shallow_tooDeep
      · have hzero' : (bounds.within d).limit ≠ 0 :=
          Nat.ne_of_gt (Nat.lt_of_lt_of_le (Nat.pos_of_ne_zero hzero) hd)
        simp only [hzero, if_false] at h
        simp only [hzero, hzero', if_false, block_higher hd rest h]
  · rfl

/-!
## Declarations
-/

theorem objection?_higher (hd : bounds.limit ≤ d) (opened : List Bracket) (kind : Kind) :
    objection? (bounds.within d) opened kind = objection? bounds opened kind ∨
      objection? bounds opened kind = some (.tooDeep bounds.limit) := by
  by_cases hopen : (Bracket.ofOpener? kind).isSome = true
  · rw [objection?_opener hopen, objection?_opener hopen]
    by_cases hlimit : bounds.limit ≤ opened.length
    · rw [if_pos hlimit]
      exact Or.inr rfl
    · have hlimit' : ¬ (bounds.within d).limit ≤ opened.length :=
        fun hle => hlimit (Nat.le_trans hd hle)
      rw [if_neg hlimit, if_neg hlimit']
      exact Or.inl rfl
  · left
    cases kind <;> first | rfl | exact absurd rfl hopen

theorem balanced_higher (hd : bounds.limit ≤ d) (opened : List Bracket) (ts : List Lexeme)
    (h : ∀ fault, (balanced bounds opened ts).1 = .error fault →
      fault.issue.complaint.isTooDeep = false) :
    balanced (bounds.within d) opened ts = balanced bounds opened ts := by
  induction ts generalizing opened with
  | nil =>
      cases opened with
      | nil => rfl
      | cons b opened => rfl
  | cons l rest ih =>
      have hmore {result : Except Fault (List Lexeme)}
          (h : ∀ fault, result.map (l :: ·) = .error fault →
            fault.issue.complaint.isTooDeep = false) :
          ∀ fault, result = .error fault → fault.issue.complaint.isTooDeep = false := by
        intro fault hfault
        exact h fault (by rw [hfault]; rfl)
      rw [balanced] at h ⊢
      rw [balanced]
      by_cases hend : (opened.isEmpty && endsValue l.kind) = true
      · simp only [hend, if_true]
      · simp only [hend, Bool.false_eq_true, if_false] at h ⊢
        by_cases hclose : opened.head?.map Bracket.closer = some l.kind
        · simp only [hclose, if_true] at h ⊢
          rw [ih _ (hmore h)]
        · simp only [hclose, if_false] at h ⊢
          rcases objection?_higher hd opened l.kind with hsame | hdeep
          · rw [hsame]
            cases hobjection : objection? bounds opened l.kind with
            | some complaint => rfl
            | none =>
                simp only [hobjection] at h ⊢
                rw [ih _ (hmore h)]
          · simp only [hdeep] at h
            have htoo := h _ rfl
            cases htoo

theorem declaration_higher (hd : bounds.limit ≤ d) (property : Lexeme) (ts : List Lexeme)
    (h : ∀ fault, (declaration bounds property ts).1 = .error fault →
      fault.issue.complaint.isTooDeep = false) :
    declaration (bounds.within d) property ts = declaration bounds property ts := by
  unfold declaration at h ⊢
  cases hts : dropBlank ts with
  | nil => rfl
  | cons l rest =>
      simp only [hts] at h ⊢
      by_cases hcolon : l.kind = .colon
      · simp only [hcolon, if_true] at h ⊢
        rw [balanced_higher hd [] rest]
        · rfl
        · intro fault hfault
          exact h fault (by rw [hfault]; rfl)
      · simp only [hcolon, if_false]

theorem declarations_higher (hd : bounds.limit ≤ d) (inBlock : Bool) (ts : List Lexeme)
    (h : Shallow (declarations bounds inBlock ts).issues) :
    declarations (bounds.within d) inBlock ts = declarations bounds inBlock ts := by
  induction hn : ts.length using Nat.strongRecOn generalizing ts with
  | ind n ih =>
      subst hn
      rw [declarations_eq] at h
      rw [declarations_eq, declarations_eq bounds]
      cases hts : dropBlank ts with
      | nil => rfl
      | cons l rest =>
          have hlt : rest.length < ts.length := length_lt_of_dropBlank hts
          rw [hts] at h
          simp only [declarationsAfter] at h ⊢
          by_cases hbrace : l.kind = .rightBrace
          · simp only [hbrace, if_true] at h ⊢
            cases inBlock with
            | true => simp only [if_true]
            | false =>
                simp only [Bool.false_eq_true, if_false] at h ⊢
                rw [ih _ hlt rest h.tail rfl]
          · simp only [hbrace, if_false] at h ⊢
            by_cases hsep : separatesDeclarations l.kind = true
            · simp only [hsep, if_true] at h ⊢
              exact ih _ hlt rest h rfl
            · simp only [hsep, Bool.false_eq_true, if_false] at h ⊢
              by_cases hid : l.kind = .ident
              · simp only [hid, if_true] at h ⊢
                have hread := declaration_higher hd l rest
                rcases hdeclaration : declaration bounds l rest with ⟨result, after⟩
                have hafter := length_declaration_lt hlt hdeclaration
                rw [hdeclaration] at h hread
                cases result with
                | ok e =>
                    have hread := hread fun fault hfault => by cases hfault
                    simp only [hread, ih _ hafter after h rfl]
                | error fault =>
                    have hread := hread fun fault' hfault => by
                      cases hfault
                      exact h _ List.mem_cons_self
                    have hskip := (skipDeclaration_suffix fault.opened after).length_le
                    simp only [hread, ih _ (Nat.lt_of_le_of_lt hskip hafter) _ h.tail rfl]
              · simp only [hid, if_false] at h ⊢
                have hskip := (skipDeclaration_cons_suffix hbrace [] rest).length_le
                rw [ih _ (Nat.lt_of_le_of_lt hskip hlt) _ h.tail rfl]

/-!
## Rules
-/

theorem ruleSelectors_higher (hd : bounds.limit ≤ d) (ts : List Lexeme)
    (h : Shallow (ruleSelectors bounds ts).issues) :
    ruleSelectors (bounds.within d) ts = ruleSelectors bounds ts := by
  unfold ruleSelectors at h ⊢
  by_cases hbrace : (bounds.front ts).kind = .leftBrace
  · have hbrace' : ((bounds.within d).front ts).kind = .leftBrace := hbrace
    rw [if_pos hbrace, if_pos hbrace']
  · have hbrace' : ((bounds.within d).front ts).kind ≠ .leftBrace := hbrace
    rw [if_neg hbrace] at h
    rw [if_neg hbrace, if_neg hbrace']
    exact alternatives_higher hd ts h

theorem ruleBody_higher (hd : bounds.limit ≤ d) (selectors : SelectorGroup) (ts : List Lexeme)
    (h : Shallow (ruleBody bounds selectors ts).issues) :
    ruleBody (bounds.within d) selectors ts = ruleBody bounds selectors ts := by
  have hbody : Shallow (declarations bounds true ts).issues := by
    rw [ruleBody] at h
    split at h
    · exact h.left
    · split at h
      · exact h
      · exact h.left
  rw [ruleBody, ruleBody, declarations_higher hd true ts hbody]
  rfl

theorem styleRule_higher (hd : bounds.limit ≤ d) (ts : List Lexeme)
    (h : Shallow (styleRule bounds ts).issues) :
    styleRule (bounds.within d) ts = styleRule bounds ts := by
  have hselectors := ruleSelectors_higher hd ts
  rw [styleRule] at h
  rw [styleRule, styleRule]
  cases hv : (ruleSelectors bounds ts).value with
  | none =>
      simp only [hv] at h
      simp only [hselectors h, hv]
  | some group =>
      simp only [hv] at h
      cases hrest : dropInsignificant (ruleSelectors bounds ts).rest with
      | nil =>
          simp only [hrest] at h
          simp only [hselectors h.left, hv, hrest]
          rfl
      | cons l rest =>
          simp only [hrest] at h
          by_cases hbrace : l.kind = .leftBrace
          · simp only [hbrace, if_true] at h
            simp only [hselectors h.left, hv, hrest, hbrace, if_true,
              ruleBody_higher hd group rest h.right]
          · simp only [hbrace, if_false] at h
            simp only [hselectors h.left, hv, hrest, hbrace, if_false]

theorem rules_higher (hd : bounds.limit ≤ d) (ts : List Lexeme)
    (h : Shallow (rules bounds ts).issues) : rules (bounds.within d) ts = rules bounds ts := by
  induction hn : ts.length using Nat.strongRecOn generalizing ts with
  | ind n ih =>
      subst hn
      rw [rules_eq] at h
      rw [rules_eq, rules_eq bounds]
      cases hts : dropInsignificant ts with
      | nil => rfl
      | cons l rest =>
          have hle : (l :: rest).length ≤ ts.length :=
            hts ▸ (dropInsignificant_suffix ts).length_le
          rw [hts] at h
          simp only [rulesAfter] at h ⊢
          by_cases hbrace : l.kind = .rightBrace
          · simp only [hbrace, if_true] at h ⊢
            rw [ih _ hle rest h.tail rfl]
          · simp only [hbrace, if_false] at h ⊢
            by_cases hat : l.kind = .atKeyword
            · simp only [hat, if_true] at h ⊢
              have hafter := (atRule_suffix bounds l.value rest).length_le
              rw [atRule_higher hd l.value rest h.left,
                ih _ (Nat.lt_of_le_of_lt hafter hle) _ h.right rfl]
            · simp only [hat, if_false] at h ⊢
              have hafter := styleRule_suffix bounds (l :: rest)
              cases hv : (styleRule bounds (l :: rest)).value with
              | some style =>
                  simp only [hv] at h
                  have hlt := Nat.lt_of_lt_of_le (length_styleRule_lt hv) hle
                  simp only [styleRule_higher hd _ h.left, hv, ih _ hlt _ h.right rfl]
              | none =>
                  simp only [hv] at h
                  have hresume := (@resume_suffix bounds _ _ _ hafter).length_le
                  have hlt := Nat.lt_of_le_of_lt hresume hle
                  have hsame (after : List Lexeme) :
                      resume (bounds.within d) l rest after = resume bounds l rest after := rfl
                  simp only [styleRule_higher hd _ h.left, hv, hsame, ih _ hlt _ h.right rfl]

end Parse

/-!
## Whole texts
-/

namespace ParseError

/-- The message says that something nests too deep. -/
def isTooDeep (e : ParseError) : Bool :=
  (ascii "nesting deeper than").isPrefixOf e.message

end ParseError

theorem Parse.shallow_of_errors {issues : List Issue}
    (h : ∀ e ∈ issues.map Issue.report, e.isTooDeep = false) : Parse.Shallow issues := by
  have hword : ascii "nesting deeper than" <+: ascii "nesting deeper than " :=
    ⟨ascii " ", by decide +kernel⟩
  intro i hi
  have hreport := h i.report (List.mem_map_of_mem hi)
  cases hcomplaint : i.complaint with
  | tooDeep limit =>
      have hdeep : i.report.isTooDeep = true := by
        rw [ParseError.isTooDeep, Issue.report, Issue.message, hcomplaint,
          List.isPrefixOf_iff_prefix]
        exact hword.trans ((List.prefix_append _ _).trans (List.prefix_append _ _))
      rw [hdeep] at hreport
      cases hreport
  | _ => rfl

/--
A text in which nothing nests too deep is read alike under every higher limit: the same trees
with all their places, and the same issues in the same order.
-/
theorem parse_of_limit_le {d d' : Nat} (h : d ≤ d') (css : Bytes) :
    ((∀ e ∈ (Sheet.parse d css).errors, e.isTooDeep = false) →
        Sheet.parse d' css = Sheet.parse d css) ∧
      ((∀ e ∈ (Declaration.parseList d css).errors, e.isTooDeep = false) →
        Declaration.parseList d' css = Declaration.parseList d css) ∧
      ((∀ e ∈ (SelectorGroup.parse d css).errors, e.isTooDeep = false) →
        SelectorGroup.parse d' css = SelectorGroup.parse d css) := by
  have hbounds : Bounds.ofText d' css = (Bounds.ofText d css).within d' := rfl
  refine ⟨?_, ?_, ?_⟩
  · intro hdeep
    have hread := Parse.rules_higher h (Lexeme.ofText css) (Parse.shallow_of_errors hdeep)
    rw [Sheet.parse, Sheet.parse, hbounds, hread]
  · intro hdeep
    have hread := Parse.declarations_higher h false (Lexeme.ofText css)
      (Parse.shallow_of_errors hdeep)
    rw [Declaration.parseList, Declaration.parseList, hbounds, hread]
  · intro hdeep
    have hissues : Parse.Shallow
        (Parse.alternatives (Bounds.ofText d css) (Lexeme.ofText css)).issues := by
      have hall := Parse.shallow_of_errors hdeep
      unfold SelectorGroup.parse at hall
      simp only at hall
      split at hall
      · exact hall
      · split at hall
        · exact hall
        · exact hall.left
    have hread := Parse.alternatives_higher h (Lexeme.ofText css) hissues
    rw [SelectorGroup.parse, SelectorGroup.parse, hbounds, hread]

/-- Issues of other kinds, in a chain, in a negation and in brackets, stay as they are. -/
theorem parse_of_limit_le_broken :
    (3 ≤ 4 ∧
      (∀ e ∈ (Sheet.parse 3 (ascii "a:not(,b\x7bc:[d)(;e:f")).errors, e.isTooDeep = false) ∧
      (∀ e ∈ (Declaration.parseList 3 (ascii "a:not(,b\x7bc:[d)(;e:f")).errors,
        e.isTooDeep = false) ∧
      (∀ e ∈ (SelectorGroup.parse 3 (ascii "a:not(,b\x7bc:[d)(;e:f")).errors,
        e.isTooDeep = false)) ∧
    ((∀ e ∈ (Sheet.parse 3 (ascii "a:not(,b\x7bc:[d)(;e:f")).errors, e.isTooDeep = false) →
        Sheet.parse 4 (ascii "a:not(,b\x7bc:[d)(;e:f") =
          Sheet.parse 3 (ascii "a:not(,b\x7bc:[d)(;e:f")) ∧
      ((∀ e ∈ (Declaration.parseList 3 (ascii "a:not(,b\x7bc:[d)(;e:f")).errors,
          e.isTooDeep = false) →
        Declaration.parseList 4 (ascii "a:not(,b\x7bc:[d)(;e:f") =
          Declaration.parseList 3 (ascii "a:not(,b\x7bc:[d)(;e:f")) ∧
      ((∀ e ∈ (SelectorGroup.parse 3 (ascii "a:not(,b\x7bc:[d)(;e:f")).errors,
          e.isTooDeep = false) →
        SelectorGroup.parse 4 (ascii "a:not(,b\x7bc:[d)(;e:f") =
          SelectorGroup.parse 3 (ascii "a:not(,b\x7bc:[d)(;e:f")) := by
  refine ⟨⟨?_, ?_, ?_, ?_⟩, ?_⟩
  · decide
  · decide +kernel
  · decide +kernel
  · decide +kernel
  · exact parse_of_limit_le (by decide) _

end CssText
