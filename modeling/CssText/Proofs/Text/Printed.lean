import CssText.Proofs.Parse.Runs
import CssText.Proofs.Parse.Walk
import CssText.Proofs.Text.Scanned

/-!
# Trees and messages of well-formed texts

A tree holds payloads of the lexemes it was read from and runs of them, and a complaint
names a lexeme or quotes one. So what is printed for a well-formed text is well-formed.
-/

namespace CssText

open Utf8 (Valid valid_of_isAscii)

theorem Utf8.valid_intercalate {sep : Bytes} {texts : List Bytes} (hsep : Valid sep)
    (h : ∀ text ∈ texts, Valid text) : Valid (sep.intercalate texts) := by
  rw [List.intercalate]
  induction texts with
  | nil => exact Utf8.valid_nil
  | cons text texts ih =>
      have htext := h text List.mem_cons_self
      have hrest := ih fun other hother => h other (List.mem_cons_of_mem text hother)
      cases texts with
      | nil => exact htext.append Utf8.valid_nil
      | cons next texts => exact htext.append (hsep.append hrest)

/-!
## Runs of lexemes
-/

namespace Lexeme

def Encoded (run : List Lexeme) : Prop :=
  ∀ l ∈ run, l.toToken.Encoded

theorem Encoded.mono {run run' : List Lexeme} (h : Encoded run) (hs : run' ⊆ run) :
    Encoded run' :=
  fun l hl => h l (hs hl)

theorem Encoded.serialize {run : List Lexeme} (h : Encoded run) : Valid (serialize run) := by
  apply Utf8.valid_flatMap
  intro t ht
  rcases List.mem_map.mp ht with ⟨l, hl, rfl⟩
  exact (h l hl).css

end Lexeme

namespace Parse

open Lexeme (Encoded)

theorem encoded_of_whitespace {t : Token} (ht : t.kind = .whitespace) (hvalue : Valid t.value)
    (hunit : Valid t.unit) : t.Encoded where
  value := hvalue
  unit := hunit
  css := by
    rw [Token.toCss, ht]
    exact hvalue

theorem encoded_separator {l : Lexeme} (h : l.toToken.Encoded) :
    (separator l).kind = .whitespace ∧ (separator l).toToken.Encoded := by
  unfold separator
  split
  · rename_i hl
    exact ⟨hl, h⟩
  · exact ⟨rfl, encoded_of_whitespace rfl (valid_of_isAscii rfl) h.unit⟩

theorem encoded_widen {gap : Lexeme} {run : List Lexeme} (hk : gap.kind = .whitespace)
    (hgap : gap.toToken.Encoded) (hrun : Encoded run) :
    (run.foldl widen gap).toToken.Encoded := by
  induction run generalizing gap with
  | nil => exact hgap
  | cons l run ih =>
      rw [List.foldl_cons]
      have hl := hrun l List.mem_cons_self
      have hmore := hrun.mono (List.subset_cons_self l run)
      unfold widen
      split
      · exact ih hk (encoded_of_whitespace hk (hgap.value.append hl.value) hgap.unit) hmore
      · exact ih hk hgap hmore

theorem encoded_collapse {ts : List Lexeme} (h : Encoded ts) : Encoded (collapse ts) := by
  fun_induction collapse ts with
  | case1 => exact h
  | case2 l rest hl run ih =>
      rcases encoded_separator (h l List.mem_cons_self) with ⟨hk, hgap⟩
      have hrest := h.mono (List.subset_cons_self l rest)
      have hrun : Encoded run := hrest.mono (List.takeWhile_prefix _).subset
      intro m hm
      rcases List.mem_cons.mp hm with rfl | hm
      · exact encoded_widen hk hgap hrun
      · exact ih (hrest.mono (dropInsignificant_suffix rest).subset) m hm
  | case3 l rest hl ih =>
      intro m hm
      rcases List.mem_cons.mp hm with rfl | hm
      · exact h m List.mem_cons_self
      · exact ih (h.mono (List.subset_cons_self l rest)) m hm

theorem encoded_terms {run : List Lexeme} (h : Encoded run) : Encoded (terms run) :=
  (encoded_collapse h).mono (Lexeme.trim_infix_self (collapse run)).subset

end Parse

/-!
## Selectors
-/

namespace Selector

def Encoded : Selector → Prop
  | .type name | .id name | .className name | .pseudoClass name => Valid name
  | .attr name _ value => Valid name ∧ ∀ v ∈ value, Valid v
  | .pseudoFunction name args => Valid name ∧ Lexeme.Encoded args
  | .negation name inner => Valid name ∧ inner.Encoded
  | .combine _ left right => left.Encoded ∧ right.Encoded
  | _ => True

theorem valid_call {name inside : Bytes} (hname : Valid name) (hinside : Valid inside) :
    Valid (Byte.colon :: Escape.identifier name ++ [Byte.leftParen] ++ inside ++
      [Byte.rightParen]) :=
  ((((Escape.valid_identifier hname).cons (by decide)).append
    (valid_of_isAscii (by decide))).append hinside).append
      (valid_of_isAscii (by decide))

theorem Encoded.text {s : Selector} (h : s.Encoded) : Valid s.text := by
  induction s with
  | missing => exact Utf8.valid_nil
  | universal => exact valid_of_isAscii (by decide)
  | nothing => exact valid_of_isAscii (by decide)
  | type name => exact Escape.valid_identifier h
  | id name => exact (Escape.valid_name h).cons (by decide)
  | className name => exact (Escape.valid_identifier h).cons (by decide)
  | attr name test value =>
      have hopened := (Escape.valid_identifier h.1).cons (b := Byte.leftBracket) (by decide)
      have hvalue : Valid (value.getD []) := by
        cases value with
        | none => exact Utf8.valid_nil
        | some value => exact h.2 value rfl
      have hstring : Valid (Token.plain .string (value.getD [])).toCss :=
        (Token.encoded_plain .string hvalue).css
      have hsymbol : Utf8.isAscii test.symbol = true := by cases test <;> decide
      have hclose : Valid [Byte.rightBracket] := valid_of_isAscii (by decide)
      cases test with
      | present => exact hopened.append hclose
      | _ => exact ((hopened.append (valid_of_isAscii hsymbol)).append hstring).append hclose
  | pseudoClass name => exact (Escape.valid_identifier h).cons (by decide)
  | pseudoFunction name args => exact valid_call h.1 h.2.serialize
  | negation name inner ih => exact valid_call h.1 (ih h.2)
  | combine how left right ihl ihr =>
      have hsymbol : Utf8.isAscii how.symbol = true := by cases how <;> decide
      exact ((ihl h.1).append (valid_of_isAscii hsymbol)).append (ihr h.2)

end Selector

/-!
## Complaints

The productions with a name of their own have an ASCII one. The production of a function has the
name that the function has in the text.
-/

def Complaint.Encoded : Complaint → Prop
  | .expected production _ => Valid production.name
  | .strayBrace production => Valid production.name
  | _ => True

theorem isAscii_decimal (n : Nat) : Utf8.isAscii (decimal n) = true := by
  have hdigit : ∀ d : Nat, d < 10 → UInt8.ofNat (0x30 + d) < 0x80 := by decide
  fun_induction decimal n with
  | case1 n hn =>
      rw [Utf8.isAscii, List.all_cons, List.all_nil, decide_eq_true (hdigit n hn)]
      rfl
  | case2 n hn ih =>
      rw [Utf8.isAscii_append, ih, Utf8.isAscii, List.all_cons, List.all_nil,
        decide_eq_true (hdigit (n % 10) (Nat.mod_lt n (by decide)))]
      rfl

theorem Issue.valid_message {i : Issue} (hc : i.complaint.Encoded)
    (hp : i.place.toToken.Encoded) : Valid i.message := by
  unfold Issue.message
  split
  · rename_i production wanted hcomplaint
    rw [hcomplaint] at hc
    have hwanted : Valid wanted.text := valid_of_isAscii (by cases wanted <;> decide)
    exact (((Valid.append hc (valid_of_isAscii (by decide))).append hwanted).append
      (valid_of_isAscii (by decide))).append hp.describe
  · exact (valid_of_isAscii (by decide)).append hp.describe
  · exact (valid_of_isAscii (by decide)).append hp.describe
  · rename_i production hcomplaint
    rw [hcomplaint] at hc
    exact Valid.append hc (valid_of_isAscii (by decide))
  · exact ((valid_of_isAscii (by decide)).append (valid_of_isAscii (isAscii_decimal _))).append
      (valid_of_isAscii (by decide))

/-- A reading of which the value and the complaints are well-formed. -/
structure Reading.Encoded {α : Type} (P : α → Prop) (r : Reading α) : Prop where
  value : P r.value
  complaints : ∀ i ∈ r.issues, i.complaint.Encoded

namespace Parse

open Lexeme (Encoded)

variable {bounds : Bounds} {ts : List Lexeme}

theorem encoded_expected {production : Production} (wanted : Wanted)
    (h : Utf8.isAscii production.name = true) : (Complaint.expected production wanted).Encoded :=
  valid_of_isAscii h

/-!
## Readings of selectors
-/

theorem accept_encoded {s : Selector} {rest : List Lexeme} (h : s.Encoded) :
    (accept s rest).Encoded Selector.Encoded :=
  ⟨h, List.forall_mem_nil _⟩

theorem reject_encoded {production : Production} (h : Valid production.name) (wanted : Wanted)
    (ts : List Lexeme) : (reject bounds production wanted ts).Encoded Selector.Encoded :=
  ⟨trivial, List.forall_mem_singleton.mpr h⟩

theorem attributeSelector_encoded (h : Encoded ts) :
    (attributeSelector bounds ts).Encoded Selector.Encoded := by
  have hproduction : Valid Production.attributeSelector.name := valid_of_isAscii (by decide)
  rcases attributeSelector_cases bounds ts with
    ⟨wanted, us, -, hread⟩ | ⟨name, after, test, value, rest, hts, -, -, hvalue, -, hread⟩
  · rw [hread]
    exact reject_encoded hproduction _ _
  · rw [hread]
    have hname := h name ((dropBlank_suffix ts).subset (hts ▸ List.mem_cons_self))
    refine accept_encoded ⟨hname.value, ?_⟩
    intro v hv
    rcases hvalue v hv with ⟨l, hl, rfl⟩
    exact (h l ((suffix_of_dropBlank hts).subset hl)).value

theorem valid_functionSelector {name : Bytes} (hname : Valid name) :
    Valid (Production.functionSelector name).name :=
  (hname.cons (by decide)).append (valid_of_isAscii (by decide))

theorem pseudoFunction_encoded {name : Bytes} (hname : Valid name) (h : Encoded ts) :
    (pseudoFunction bounds name ts).Encoded Selector.Encoded := by
  rcases pseudoFunction_cases bounds name ts with ⟨args, hargs, hread⟩ | hread
  · rw [hread]
    have hrun := h.mono (arguments_start hargs).subset
    have htrim := hrun.mono (Lexeme.trim_infix_self args).subset
    exact accept_encoded ⟨hname, htrim⟩
  · rw [hread]
    exact ⟨trivial, List.forall_mem_singleton.mpr (valid_functionSelector hname)⟩

theorem negation_encoded {name : Bytes} {inner : Reading Selector} (hname : Valid name)
    (h : inner.Encoded Selector.Encoded) :
    (negation bounds name inner).Encoded Selector.Encoded := by
  rcases negation_cases bounds name inner with ⟨us, -, hread⟩ | ⟨rest, -, hread⟩
  · rw [hread]
    refine ⟨trivial, List.forall_mem_append.mpr ⟨h.complaints, ?_⟩⟩
    exact List.forall_mem_singleton.mpr (valid_functionSelector hname)
  · rw [hread]
    exact ⟨⟨hname, h.value⟩, h.complaints⟩

theorem className_encoded (h : Encoded ts) : (className bounds ts).Encoded Selector.Encoded := by
  have hproduction : Valid Production.simpleSelector.name := valid_of_isAscii (by decide)
  rcases className_cases bounds ts with hread | ⟨name, rest, rfl, -, hread⟩
  · rw [hread]
    exact reject_encoded hproduction _ _
  · rw [hread]
    exact accept_encoded (h name List.mem_cons_self).value

theorem simple_encoded (depth : Nat) (h : Encoded ts) :
    (simple bounds depth ts).Encoded Selector.Encoded := by
  have hsimple : Valid Production.simpleSelector.name := valid_of_isAscii (by decide)
  have hpseudo : Valid Production.pseudoClassSelector.name := valid_of_isAscii (by decide)
  have hfront {ts rest : List Lexeme} {l : Lexeme} (h : Encoded ts)
      (hts : dropInsignificant ts = l :: rest) : Valid l.value ∧ Encoded rest :=
    ⟨(h l ((dropInsignificant_suffix ts).subset (hts ▸ List.mem_cons_self))).value,
      h.mono (suffix_of_dropInsignificant hts).subset⟩
  fun_induction simple bounds depth ts with
  | case1 depth ts hts => exact reject_encoded hsimple _ _
  | case2 depth ts l rest hts hk =>
      exact accept_encoded (hfront h hts).1
  | case3 depth ts l rest hts hk =>
      exact accept_encoded (hfront h hts).1
  | case4 depth ts l rest hts hk => exact attributeSelector_encoded (hfront h hts).2
  | case5 depth ts l hk hts => exact reject_encoded hpseudo _ _
  | case6 depth ts l hk name rest hn hts =>
      exact accept_encoded ((hfront h hts).2 name List.mem_cons_self).value
  | case7 ts l hk name rest hn hf hname hts =>
      exact ⟨trivial, List.forall_mem_singleton.mpr trivial⟩
  | case8 ts l hk name rest hn hf hnot depth hts ih =>
      have hrest := (hfront h hts).2
      exact negation_encoded (hrest name List.mem_cons_self).value
        (ih (hrest.mono (List.subset_cons_self name rest)))
  | case9 depth ts l hk name rest hn hf hname hts =>
      have hrest := (hfront h hts).2
      exact pseudoFunction_encoded (hrest name List.mem_cons_self).value
        (hrest.mono (List.subset_cons_self name rest))
  | case10 depth ts l hk name rest hn hf hts => exact reject_encoded hpseudo _ _
  | case11 depth ts l rest hts hd => exact accept_encoded trivial
  | case12 depth ts l rest hts hd hd' => exact className_encoded (hfront h hts).2
  | case13 depth ts l rest hts hd hd' => exact reject_encoded hsimple _ _

theorem chain_encoded (depth : Nat) (place : Lexeme) (h : Encoded ts) :
    (chain bounds depth place ts).Encoded fun value => ∀ s ∈ value, s.Encoded := by
  induction depth generalizing place ts with
  | zero =>
      refine ⟨?_, List.forall_mem_singleton.mpr trivial⟩
      intro s hs
      cases hs
  | succ depth ih =>
      have hfirst := @simple_encoded bounds ts depth h
      have hrest := h.mono (simple_suffix bounds depth ts).subset
      unfold chain
      simp only
      split
      · refine ⟨?_, hfirst.complaints⟩
        rintro s ⟨⟩
        exact hfirst.value
      · rename_i link hlink
        have hnext := ih link.place (hrest.mono (link?_suffix hlink).subset)
        refine ⟨?_, List.forall_mem_append.mpr ⟨hfirst.complaints, hnext.complaints⟩⟩
        intro s hs
        rcases Option.map_eq_some_iff.mp hs with ⟨right, hright, rfl⟩
        exact ⟨hfirst.value, hnext.value right hright⟩

theorem alternatives_encoded (h : Encoded ts) :
    (alternatives bounds ts).Encoded fun value =>
      ∀ group ∈ value, ∀ s ∈ group, s.Encoded := by
  fun_induction alternatives bounds ts with
  | case1 ts first hv =>
      refine ⟨?_, (chain_encoded bounds.limit _ h).complaints⟩
      intro group hgroup
      cases hgroup
  | case2 ts first selector hv hr =>
      have hfirst := @chain_encoded bounds ts bounds.limit (bounds.front ts) h
      refine ⟨?_, hfirst.complaints⟩
      rintro group ⟨⟩
      exact List.forall_mem_singleton.mpr (hfirst.value selector hv)
  | case3 ts first selector hv l rest hr hk =>
      have hfirst := @chain_encoded bounds ts bounds.limit (bounds.front ts) h
      refine ⟨?_, hfirst.complaints⟩
      rintro group ⟨⟩
      exact List.forall_mem_singleton.mpr (hfirst.value selector hv)
  | case4 ts first selector hv l rest hr hk hk' hlt more ih =>
      have hfirst := @chain_encoded bounds ts bounds.limit (bounds.front ts) h
      have hsuffix : l :: rest <:+ ts := hr ▸ chain_suffix bounds bounds.limit (bounds.front ts) ts
      have hrest := ((dropInsignificant_suffix rest).trans (List.suffix_cons l rest)).trans hsuffix
      have hmore := ih (h.mono hrest.subset)
      refine ⟨?_, List.forall_mem_append.mpr ⟨hfirst.complaints, hmore.complaints⟩⟩
      intro group hgroup
      rcases Option.map_eq_some_iff.mp hgroup with ⟨others, hothers, rfl⟩
      exact List.forall_mem_cons.mpr ⟨hfirst.value selector hv, hmore.value others hothers⟩
  | case5 ts first selector hv l rest hr hk hk' =>
      have hfirst := @chain_encoded bounds ts bounds.limit (bounds.front ts) h
      refine ⟨fun group hgroup => ?_, List.forall_mem_append.mpr ⟨hfirst.complaints, ?_⟩⟩
      · cases hgroup
      · exact List.forall_mem_singleton.mpr (encoded_expected _ (by decide))

/-!
## At-rules and declarations
-/

theorem unclosed_encoded (opened : List Bracket) : (unclosed opened).Encoded := by
  cases opened with
  | nil => exact encoded_expected _ (by decide)
  | cons b opened => cases b <;> exact encoded_expected _ (by decide)

theorem components_encoded (around : List Bracket) (ends : Kind → Bool) (opened : List Bracket)
    (ts : List Lexeme) :
    ∀ i ∈ (components bounds around ends opened ts).issues, i.complaint.Encoded := by
  refine components_induction (motive := fun _ r => ∀ i ∈ r.issues, i.complaint.Encoded)
    opened ts ?missing ?stop ?take ?refuse
  case missing =>
    intro opened
    exact List.forall_mem_singleton.mpr (unclosed_encoded opened)
  case stop =>
    intro l rest hl
    exact List.forall_mem_nil _
  case take =>
    intro l rest more ih
    exact ih
  case refuse =>
    intro l rest
    exact List.forall_mem_singleton.mpr trivial

theorem block_encoded (ts : List Lexeme) :
    ∀ i ∈ (block bounds ts).issues, i.complaint.Encoded := by
  unfold block
  simp only
  split
  · exact components_encoded _ _ _ ts
  · exact List.forall_mem_nil _

theorem atRule_encoded (keyword : Bytes) (ts : List Lexeme) :
    ∀ i ∈ (atRule bounds keyword ts).issues, i.complaint.Encoded := by
  unfold atRule
  simp only
  split
  · split
    · exact List.forall_mem_nil _
    · split
      · exact List.forall_mem_singleton.mpr trivial
      · exact block_encoded _
  · exact components_encoded _ _ _ ts

theorem objection?_encoded {opened : List Bracket} {kind : Kind} {complaint : Complaint}
    (h : objection? bounds opened kind = some complaint) : complaint.Encoded := by
  unfold objection? at h
  split at h
  · cases h
    trivial
  · cases h
    trivial
  · cases h
    split
    · trivial
    · exact encoded_expected _ (by decide)
  · cases h
    split
    · trivial
    · exact encoded_expected _ (by decide)
  · cases h
    split
    · trivial
    · exact encoded_expected _ (by decide)
  · split at h
    · cases h
      trivial
    · cases h

theorem balanced_encoded {opened : List Bracket} {fault : Fault}
    (h : (balanced bounds opened ts).1 = .error fault) : fault.issue.complaint.Encoded := by
  refine balanced_induction
    (motive := fun _ r => ∀ fault, r.1 = .error fault → fault.issue.complaint.Encoded)
    opened ts ?finish ?missing ?stop ?take ?refuse fault h
  case finish =>
    intro fault hfault
    cases hfault
  case missing =>
    intro b opened fault hfault
    cases hfault
    exact encoded_expected _ (by decide)
  case stop =>
    intro l rest hl fault hfault
    cases hfault
  case take =>
    intro l rest more ih fault hfault
    exact ih fault (error_of_map hfault)
  case refuse =>
    intro l rest opened complaint hcomplaint fault hfault
    cases hfault
    exact objection?_encoded hcomplaint

theorem declaration_encoded {property : Lexeme} {fault : Fault} {after : List Lexeme}
    (h : declaration bounds property ts = (.error fault, after)) :
    fault.issue.complaint.Encoded := by
  rcases declaration_error h with ⟨colon, rest, -, hvalue⟩ | ⟨hissue, -⟩
  · exact balanced_encoded (congrArg Prod.fst hvalue)
  · rw [hissue]
    exact encoded_expected _ (by decide)

theorem declarations_encoded (inBlock : Bool) (ts : List Lexeme) :
    ∀ i ∈ (declarations bounds inBlock ts).issues, i.complaint.Encoded := by
  have hstray : (Complaint.strayBrace .declarationList).Encoded := valid_of_isAscii (by decide)
  fun_induction declarations bounds inBlock ts with
  | case1 ts h => exact List.forall_mem_nil _
  | case2 ts l rest h hlt hbrace hin => exact List.forall_mem_nil _
  | case3 ts l rest h hlt hbrace hin ih => exact List.forall_mem_cons.mpr ⟨hstray, ih⟩
  | case4 ts l rest h hlt hbrace hsep ih => exact ih
  | case5 ts l rest h hlt hbrace hsep hid d after hd hlt' ih => exact ih
  | case6 ts l rest h hlt hbrace hsep hid fault after hd hlt' ih =>
      exact List.forall_mem_cons.mpr ⟨declaration_encoded hd, ih⟩
  | case7 ts l rest h hlt hbrace hsep hid hlt' ih =>
      exact List.forall_mem_cons.mpr ⟨encoded_expected _ (by decide), ih⟩

/-!
## Rules
-/

theorem ruleSelectors_encoded (h : Encoded ts) :
    (ruleSelectors bounds ts).Encoded fun value =>
      ∀ group ∈ value, ∀ s ∈ group, s.Encoded := by
  unfold ruleSelectors
  split
  · refine ⟨?_, List.forall_mem_nil _⟩
    rintro group ⟨⟩
    exact List.forall_mem_singleton.mpr trivial
  · exact alternatives_encoded h

theorem ruleBody_encoded (selectors : SelectorGroup) (ts : List Lexeme) :
    ∀ i ∈ (ruleBody bounds selectors ts).issues, i.complaint.Encoded := by
  have hbody := @declarations_encoded bounds true ts
  unfold ruleBody
  simp only
  split
  · refine List.forall_mem_append.mpr ⟨hbody, List.forall_mem_singleton.mpr ?_⟩
    exact encoded_expected _ (by decide)
  · split
    · exact hbody
    · refine List.forall_mem_append.mpr ⟨hbody, List.forall_mem_singleton.mpr ?_⟩
      exact encoded_expected _ (by decide)

theorem styleRule_encoded (h : Encoded ts) :
    ∀ i ∈ (styleRule bounds ts).issues, i.complaint.Encoded := by
  have hselectors := (@ruleSelectors_encoded bounds ts h).complaints
  unfold styleRule
  simp only
  split
  · exact hselectors
  · split
    · refine List.forall_mem_append.mpr ⟨hselectors, List.forall_mem_singleton.mpr ?_⟩
      exact encoded_expected _ (by decide)
    · split
      · exact List.forall_mem_append.mpr ⟨hselectors, ruleBody_encoded _ _⟩
      · refine List.forall_mem_append.mpr ⟨hselectors, List.forall_mem_singleton.mpr ?_⟩
        exact encoded_expected _ (by decide)

theorem rules_encoded (h : Encoded ts) :
    ∀ i ∈ (rules bounds ts).issues, i.complaint.Encoded := by
  have hstray : (Complaint.strayBrace .styleSheet).Encoded := valid_of_isAscii (by decide)
  fun_induction rules bounds ts with
  | case1 ts hts => exact List.forall_mem_nil _
  | case2 ts l rest hts hle hlt hbrace ih =>
      have hrest := h.mono (suffix_of_dropInsignificant hts).subset
      exact List.forall_mem_cons.mpr ⟨hstray, ih hrest⟩
  | case3 ts l rest hts hle hlt hbrace hat rule hlt' ih =>
      have hafter := (atRule_suffix bounds l.value rest).trans (suffix_of_dropInsignificant hts)
      exact List.forall_mem_append.mpr
        ⟨atRule_encoded l.value rest, ih (h.mono hafter.subset)⟩
  | case4 ts l rest hts hle hlt hbrace hat rule style hv hlt' ih =>
      have hcons : l :: rest <:+ ts := hts ▸ dropInsignificant_suffix ts
      have hafter := (styleRule_suffix bounds (l :: rest)).trans hcons
      exact List.forall_mem_append.mpr
        ⟨styleRule_encoded (h.mono hcons.subset), ih (h.mono hafter.subset)⟩
  | case5 ts l rest hts hle hlt hbrace hat rule hv after hlt' ih =>
      have hcons : l :: rest <:+ ts := hts ▸ dropInsignificant_suffix ts
      have hresume : after <:+ rest := resume_suffix (styleRule_suffix bounds (l :: rest))
      have hafter := hresume.trans (suffix_of_dropInsignificant hts)
      exact List.forall_mem_append.mpr
        ⟨styleRule_encoded (h.mono hcons.subset), ih (h.mono hafter.subset)⟩

end Parse

/-!
## Printed trees
-/

structure Declaration.Encoded (d : Declaration) : Prop where
  property : Valid d.property
  value : Valid d.valueText

theorem Declaration.Encoded.text {d : Declaration} (h : d.Encoded) : Valid d.text :=
  (h.property.append (valid_of_isAscii (by decide))).append h.value

structure Rule.Encoded (rule : Rule) : Prop where
  text : Valid rule.text
  declarations : ∀ style, rule = .style style → ∀ d ∈ style.declarations, d.Encoded

theorem StyleRule.valid_text {rule : StyleRule} (hs : ∀ s ∈ rule.selectors, s.Encoded)
    (hd : ∀ d ∈ rule.declarations, d.Encoded) : Valid rule.text := by
  have hgroup : Valid (SelectorGroup.text rule.selectors) :=
    Utf8.valid_intercalate (valid_of_isAscii (by decide)) <|
      List.forall_mem_map.mpr fun s hmem => (hs s hmem).text
  have hlines : Valid (rule.declarations.flatMap fun d =>
      [Byte.newline, Byte.space, Byte.space] ++ d.text ++ [Byte.semicolon]) :=
    Utf8.valid_flatMap fun d hmem =>
      ((valid_of_isAscii (by decide)).append (hd d hmem).text).append (valid_of_isAscii (by decide))
  have hend : Valid (if rule.declarations.isEmpty then [] else [Byte.newline]) := by
    split
    · exact Utf8.valid_nil
    · exact valid_of_isAscii (by decide)
  exact (((hgroup.append (valid_of_isAscii (by decide))).append hlines).append hend).append
    (valid_of_isAscii (by decide))

theorem AtRule.valid_text {rule : AtRule} (hkeyword : Valid rule.keyword)
    (hheader : Lexeme.Encoded rule.header)
    (hblock : ∀ run, rule.block = some run → Lexeme.Encoded run) :
    Valid rule.text := by
  have hfront : Valid (Byte.commercialAt :: rule.keyword ++
      (if rule.header.isEmpty then [] else Byte.space :: Lexeme.serialize rule.header)) := by
    apply (hkeyword.cons (by decide)).append
    split
    · exact Utf8.valid_nil
    · exact hheader.serialize.cons (by decide)
  apply hfront.append
  split
  · exact valid_of_isAscii (by decide)
  · rename_i body hbody
    apply ((valid_of_isAscii (by decide)).append _).append (valid_of_isAscii (by decide))
    split
    · exact Utf8.valid_nil
    · exact ((hblock body hbody).serialize.cons (by decide)).append (valid_of_isAscii (by decide))

namespace Parse

open Lexeme (Encoded)

variable {bounds : Bounds} {ts : List Lexeme}

theorem declarations_value_encoded {inBlock : Bool} (h : Encoded ts) :
    ∀ d ∈ (declarations bounds inBlock ts).value, d.Encoded := by
  intro d hd
  rcases declarations_origin hd with ⟨property, rest, hs, -, hvalue⟩
  rcases declaration_runs hvalue with ⟨run, hrun, hterms⟩
  have hrest := (List.suffix_cons property rest).trans hs
  constructor
  · rw [declaration_property hvalue]
    exact (h property (hs.subset List.mem_cons_self)).value
  · rw [Declaration.valueText, hterms]
    exact (encoded_terms (h.mono (hrun.trans hrest.isInfix).subset)).serialize

theorem rules_value_encoded (h : Encoded ts) :
    ∀ rule ∈ (rules bounds ts).value, rule.Encoded := by
  intro rule hrule
  cases rules_origin hrule with
  | @atRule l rest rule hs hl hv =>
      have hruns := atRule_runs hv
      rcases atRule_some hv with ⟨-, -, -, -, -, hkeyword, -⟩
      have hrest := h.mono ((List.suffix_cons l rest).trans hs).subset
      constructor
      · apply AtRule.valid_text
        · rw [hkeyword]
          exact (h l (hs.subset List.mem_cons_self)).value
        · exact hrest.mono hruns.header.subset
        · intro run hrun
          exact hrest.mono (hruns.block run hrun).subset
      · intro style hstyle
        cases hstyle
  | @style us rule hs hv =>
      have hus := h.mono hs.subset
      rcases styleRule_origin hv with ⟨hgroup, rest, hsuffix, hdeclarations⟩
      have hd : ∀ d ∈ rule.declarations, d.Encoded := by
        rw [hdeclarations]
        exact declarations_value_encoded (hus.mono hsuffix.subset)
      constructor
      · exact StyleRule.valid_text ((ruleSelectors_encoded hus).value _ hgroup) hd
      · rintro style ⟨⟩
        exact hd

end Parse

end CssText
