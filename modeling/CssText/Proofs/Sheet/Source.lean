import CssText.Proofs.Parse.Collapse
import CssText.Proofs.Sheet.Printed

/-!
# Declarations and at-rules that are read can be printed

Names are printed as they are in declarations and at-rules, and values, headers and blocks
without the white space around them. Where that makes no difference to how the text is read
(`Portable`), a declaration or an at-rule that is read is one that can be printed, whatever
else there is in its text. So each of them is read back from its own text.
-/

namespace CssText

open Token Selector Lexeme

namespace Declaration

/-- The name needs no escapes and the value can be moved. -/
structure Portable (d : Declaration) : Prop where
  name : Escape.identifier d.property = d.property
  terms : Token.Portable (Lexeme.tokens d.terms)

instance (d : Declaration) : Decidable d.Portable :=
  decidable_of_iff
    (Escape.identifier d.property = d.property ∧ Token.Portable (Lexeme.tokens d.terms))
    ⟨fun ⟨name, terms⟩ => ⟨name, terms⟩, fun h => ⟨h.name, h.terms⟩⟩

end Declaration

namespace AtRule

/-- The keyword needs no escapes and the parts of the rule can be moved. -/
structure Portable (rule : AtRule) : Prop where
  keyword : Escape.identifier rule.keyword = rule.keyword
  header : Token.Portable (Lexeme.tokens rule.header)
  block : ∀ body ∈ rule.block, Token.Portable (Lexeme.tokens body)

instance (rule : AtRule) : Decidable rule.Portable :=
  decidable_of_iff
    (Escape.identifier rule.keyword = rule.keyword ∧
      Token.Portable (Lexeme.tokens rule.header) ∧
      ∀ body ∈ rule.block, Token.Portable (Lexeme.tokens body))
    ⟨fun ⟨keyword, header, block⟩ => ⟨keyword, header, block⟩,
      fun h => ⟨h.keyword, h.header, h.block⟩⟩

end AtRule

namespace Parse

variable {bounds : Bounds} {ts : List Lexeme}

/-!
## Declarations

The value of a declaration stands in the text up to what ends it. Its terms are read back from
their printed form if none of them run together in it.
-/

theorem separates_of_endsValue {kind : Kind} (h : endsValue kind = true) :
    separates kind = true := by
  cases kind <;> first | rfl | cases h

theorem declaration_source {property : Lexeme} {d : Declaration} (h : Sourced (property :: ts))
    (hd : (declaration bounds property ts).1 = .ok d) :
    ∃ run after, d.terms = terms run ∧ Sourced (run ++ after) ∧
      (∀ l ∈ after.head?, separates l.kind = true) ∧
      balances bounds.limit [] (kinds (terms run)) = true := by
  rcases declaration_ok hd with ⟨colon, rest, run, hts, -, hvalue, rfl⟩
  have hsource := (h.tail.dropBlank hts).tail
  rw [balanced_append hvalue] at hsource
  refine ⟨run, _, rfl, hsource, ?_, ?_⟩
  · exact fun l hl => separates_of_endsValue (balanced_stop hvalue l hl)
  · rw [balances_terms]
    exact balances_of_balanced hvalue

theorem declaration_sound {property : Lexeme} {d : Declaration} (h : Sourced (property :: ts))
    (hk : property.kind = .ident) (hd : (declaration bounds property ts).1 = .ok d)
    (hportable : d.Portable) : d.Printable bounds.limit := by
  have hname : IsName property.value := h.isName (by rw [hk]; rfl)
  have hproperty : d.property = property.value := declaration_property hd
  rcases declaration_source h hd with ⟨run, after, hterms, hsource, hafter, hbalances⟩
  have hmoves := hportable.terms
  rw [hterms] at hmoves
  constructor
  · exact { toIsName := hproperty ▸ hname, plain := hportable.name }
  · rw [hterms]
    exact steady_terms hsource hafter hmoves (balances_last hbalances)
  · rw [hterms]
    exact trimmed_trim (collapse run)
  · rw [hterms]
    exact tidy_terms fun n hn => hsource.formed_of_mem (List.mem_append_left _ hn)
  · rw [hterms]
    exact hbalances

theorem declaration_terms {property : Lexeme} {d : Declaration} (h : Sourced (property :: ts))
    (hd : (declaration bounds property ts).1 = .ok d)
    (hlegible : Token.Legible (Lexeme.tokens d.terms)) :
    Token.ofText (Lexeme.serialize d.terms) = Lexeme.tokens d.terms := by
  rcases declaration_source h hd with ⟨run, after, hterms, hsource, hafter, hbalances⟩
  rw [hterms] at hlegible ⊢
  apply ofText_serialize_terms hsource hafter hlegible
  exact fun kind hkind => (balances_last hbalances kind hkind).1

theorem declarations_sound {inBlock : Bool} {d : Declaration} (h : Sourced ts)
    (hd : d ∈ (declarations bounds inBlock ts).value) (hportable : d.Portable) :
    d.Printable bounds.limit := by
  rcases declarations_origin hd with ⟨property, rest, hs, hk, hvalue⟩
  exact declaration_sound (h.suffix hs) hk hvalue hportable

/-!
## At-rules
-/

theorem part_of_components {around : List Bracket} {ends : Kind → Bool} {run : List Lexeme}
    (h : Sourced ts) (hblank : ∀ kind : Kind, kind.isBlank = true → ends kind = false)
    (hends : ∀ kind : Kind, ends kind = true → separates kind = true)
    (hv : (components bounds around ends [] ts).value = some run)
    (hportable : Token.Portable (tokens (trim run))) :
    AtRule.PrintablePart bounds.limit around ends (trim run) := by
  have hcloses : closes bounds.limit around ends [] (kinds (trim run)) = true := by
    rw [← closes_significant hblank, significant_trim, closes_significant hblank]
    exact closes_of_components hv
  rcases components_stop hv with ⟨l, rest, hrest, hl⟩
  rw [components_append hv, hrest] at h
  constructor
  · exact steady_trim h (hends l.kind hl) hportable (closes_last hcloses)
  · exact trimmed_trim run
  · exact hcloses

theorem separates_of_endsHeader (kind : Kind) (h : endsHeader kind = true) :
    separates kind = true := by
  cases kind <;> first | rfl | cases h

theorem separates_of_endsBlock (kind : Kind) (h : endsBlock kind = true) :
    separates kind = true := by
  cases kind <;> first | rfl | cases h

theorem block_sound {body : List Lexeme} (h : Sourced ts)
    (hv : (block bounds ts).value = some body) (hportable : Token.Portable (tokens body)) :
    AtRule.PrintablePart bounds.limit [.curly] endsBlock body := by
  rcases block_some hv with ⟨run, hrun, rfl⟩
  exact part_of_components h (fun _ => not_endsBlock_blank) separates_of_endsBlock hrun hportable

theorem atRule_sound {keyword : Lexeme} {rule : AtRule} (h : Sourced (keyword :: ts))
    (hk : keyword.kind = .atKeyword)
    (hv : (atRule bounds keyword.value ts).value = some rule) (hportable : rule.Portable) :
    rule.Printable bounds.limit ∧ (rule.block ≠ none → bounds.limit ≠ 0) := by
  rcases atRule_some hv with ⟨run, l, rest, hrun, hrest, hkeyword, hheader, hblock⟩
  have hsuffix := components_suffix bounds [] endsHeader [] ts
  rw [hrest] at hsuffix
  have hsource := (h.tail.suffix hsuffix).tail
  constructor
  · constructor
    · constructor
      · rw [hkeyword]
        exact h.isName (by rw [hk]; rfl)
      · exact hportable.keyword
    · have hmoves := hportable.header
      rw [hheader] at hmoves ⊢
      exact part_of_components h.tail (fun _ => not_endsHeader_blank) separates_of_endsHeader hrun
        hmoves
    · intro body hbody
      exact block_sound hsource (hblock body hbody).2 (hportable.block body hbody)
  · intro hne
    rcases Option.ne_none_iff_exists'.mp hne with ⟨body, hbody⟩
    exact (hblock body hbody).1

/-!
## Texts of one item

A declaration that can be printed is read back from a text that holds nothing else, and so is an
at-rule.
-/

theorem declarations_single {d : Declaration} (hd : d.Printable bounds.limit)
    (hts : Covers ts (d.text ++ [Byte.semicolon])) :
    ∃ d', declarations bounds false ts = { value := [d'], issues := [], rest := [] } ∧
      d'.Same d := by
  rcases declaration_text hd hts with
    ⟨property, ls, d', semicolon, rest, rfl, hproperty, hread, hsemicolon, hsame, hrest⟩
  have hend : declarations bounds false (semicolon :: rest) =
      { value := [], issues := [], rest := [] } := by
    rw [declarations_eq, dropBlank_self (by rw [hsemicolon]; rfl), declarationsAfter, hsemicolon,
      hrest.eq_nil, declarations_eq]
    rfl
  refine ⟨d', ?_, hsame⟩
  rw [declarations_eq, dropBlank_self (by rw [hproperty]; rfl), declarationsAfter, hproperty]
  simp only [hread, hend, consDeclaration]
  rfl

theorem rules_single {rule : AtRule} (hr : rule.Printable bounds.limit)
    (hl : rule.block ≠ none → bounds.limit ≠ 0) (hts : Covers ts rule.text) :
    ∃ rule', rules bounds ts = { value := [rule'], issues := [], rest := [] } ∧
      Rule.Same rule' (.atRule rule) := by
  rw [← List.append_nil rule.text] at hts
  rcases atRule_text hr hl hts with ⟨l, ls, rule', rest, rfl, hk, hread, hsame, hrest⟩
  have hend : rules bounds rest = { value := [], issues := [], rest := [] } := by
    rw [hrest.eq_nil, rules_eq]
    rfl
  refine ⟨.atRule rule', ?_, hsame⟩
  rw [rules_eq, dropInsignificant_self (by rw [hk]; rfl), rulesAfter, hk, hread]
  simp only [hend]
  rfl

end Parse

namespace Declaration

theorem list_of_parse {limit : Nat} {css : Bytes} {ds : List Declaration}
    (hds : ds = (parseList limit css).value ∨
      ∃ rule, Rule.style rule ∈ (Sheet.parse limit css).value ∧ ds = rule.declarations) :
    ∃ inBlock ts, ts <:+ Lexeme.ofText css ∧
      ds = (Parse.declarations (Bounds.ofText limit css) inBlock ts).value := by
  rcases hds with rfl | ⟨rule, hrule, rfl⟩
  · exact ⟨false, _, List.suffix_refl _, rfl⟩
  · cases Parse.rules_origin hrule with
    | style hs hv =>
        rcases Parse.styleRule_origin hv with ⟨-, rest, hrest, hdeclarations⟩
        exact ⟨true, rest, hrest.trans hs, hdeclarations⟩

theorem origin_of_parse {limit : Nat} {css : Bytes} {d : Declaration}
    (hd : d ∈ (parseList limit css).value ∨
      ∃ rule, Rule.style rule ∈ (Sheet.parse limit css).value ∧ d ∈ rule.declarations) :
    ∃ property rest, property :: rest <:+ Lexeme.ofText css ∧ property.kind = .ident ∧
      (Parse.declaration (Bounds.ofText limit css) property rest).1 = .ok d := by
  have hlist : ∃ ds, d ∈ ds ∧ (ds = (parseList limit css).value ∨
      ∃ rule, Rule.style rule ∈ (Sheet.parse limit css).value ∧ ds = rule.declarations) := by
    rcases hd with hd | ⟨rule, hrule, hd⟩
    · exact ⟨_, hd, Or.inl rfl⟩
    · exact ⟨_, hd, Or.inr ⟨rule, hrule, rfl⟩⟩
  rcases hlist with ⟨ds, hd, hds⟩
  rcases list_of_parse hds with ⟨inBlock, ts, hts, rfl⟩
  rcases Parse.declarations_origin hd with ⟨property, rest, hs, hk, hvalue⟩
  exact ⟨property, rest, hs.trans hts, hk, hvalue⟩

/-- Every declaration of a list, or of a style rule of a sheet, can be printed if it is
portable. -/
theorem printable_of_parse {limit : Nat} {css : Bytes} {d : Declaration}
    (hd : d ∈ (parseList limit css).value ∨
      ∃ rule, Rule.style rule ∈ (Sheet.parse limit css).value ∧ d ∈ rule.declarations)
    (hportable : d.Portable) : d.Printable limit := by
  rcases origin_of_parse hd with ⟨property, rest, hs, hk, hvalue⟩
  have hsource := (Lexeme.sourced_ofText css).suffix hs
  exact Parse.declaration_sound hsource hk hvalue hportable

/--
A declaration of a list, or of a style rule of a sheet, is read back from its own text and a
semicolon, if its name needs no escapes and its value can be moved.
-/
theorem parseList_text_portable {limit : Nat} {css : Bytes} {d : Declaration}
    (hd : d ∈ (parseList limit css).value ∨
      ∃ rule, Rule.style rule ∈ (Sheet.parse limit css).value ∧ d ∈ rule.declarations)
    (hportable : d.Portable) :
    (parseList limit (d.text ++ [Byte.semicolon])).errors = [] ∧
      ((parseList limit (d.text ++ [Byte.semicolon])).value == [d]) = true := by
  have hprintable : d.Printable (Bounds.ofText limit (d.text ++ [Byte.semicolon])).limit :=
    printable_of_parse hd hportable
  rcases Parse.declarations_single hprintable (Lexeme.covers_ofText _) with ⟨d', hread, hsame⟩
  have hparse : parseList limit (d.text ++ [Byte.semicolon]) = { value := [d'], issues := [] } := by
    rw [parseList]
    simp only [hread]
  rw [hparse]
  exact ⟨rfl, beq_of_forall (List.Forall₂.cons hsame List.Forall₂.nil)⟩

def commented : Bytes :=
  ascii "a/**/:\\62 /**/c<!-- url( 'x') \\\n!d"

theorem parseList_text_commented :
    ∃ d ∈ (parseList 1 commented).value,
      (d.Portable ∧ d.text = ascii "a: b c  url( \"x\") \\\n!d") ∧
        (parseList 1 (d.text ++ [Byte.semicolon])).errors = [] ∧
        ((parseList 1 (d.text ++ [Byte.semicolon])).value == [d]) = true := by
  have hread : ∃ d ∈ (parseList 1 commented).value,
      d.Portable ∧ d.text = ascii "a: b c  url( \"x\") \\\n!d" := by
    decide +kernel
  rcases hread with ⟨d, hd, hportable, htext⟩
  exact ⟨d, hd, ⟨hportable, htext⟩, parseList_text_portable (Or.inl hd) hportable⟩

/-- The colon that an escape kept in a name ends the printed name. -/
theorem parseList_text_escaped :
    ∃ d ∈ (parseList defaultLimit (ascii "a\\:b:c")).value, d.text = ascii "a:b: c" ∧
      ((parseList defaultLimit (d.text ++ [Byte.semicolon])).value == [d]) = false := by
  decide +kernel

end Declaration

namespace Sheet

theorem mem_of_mem_atRules {sheet : Sheet} {rule : AtRule} (h : rule ∈ sheet.atRules) :
    Rule.atRule rule ∈ sheet := by
  rcases List.mem_filterMap.mp h with ⟨r, hr, hrule⟩
  cases r with
  | style r => cases hrule
  | atRule r =>
      cases hrule
      exact hr

/--
An at-rule of a sheet is read back from its own text, if its keyword needs no escapes and its
header and block can be moved.
-/
theorem parse_text_atRule {limit : Nat} {css : Bytes} {rule : AtRule}
    (hrule : Rule.atRule rule ∈ (parse limit css).value) (hportable : rule.Portable) :
    (parse limit rule.text).errors = [] ∧
      ((parse limit rule.text).value == [Rule.atRule rule]) = true := by
  cases Parse.rules_origin hrule with
  | atRule hs hk hv =>
      have hsource := (Lexeme.sourced_ofText css).suffix hs
      rcases Parse.atRule_sound hsource hk hv hportable with ⟨hprintable, hlimit⟩
      have hprintable : rule.Printable (Bounds.ofText limit rule.text).limit := hprintable
      rcases Parse.rules_single hprintable hlimit (Lexeme.covers_ofText _) with
        ⟨rule', hread, hsame⟩
      have hparse : parse limit rule.text = { value := [rule'], issues := [] } := by
        rw [parse]
        simp only [hread]
      rw [hparse]
      exact ⟨rfl, beq_of_forall (List.Forall₂.cons hsame List.Forall₂.nil)⟩

def unusual : Bytes :=
  ascii "@media/**/( a) <!--\x7b b\x7bc:'d'\x7d) \\\n-->/**/ \x7d"

theorem parse_text_atRule_unusual :
    ∃ rule ∈ (parse 2 unusual).value.atRules,
      (rule.Portable ∧
        rule.text = ascii "@media ( a) <!-- \x7b b\x7bc:\"d\"\x7d) \\\n--> \x7d") ∧
        (parse 2 rule.text).errors = [] ∧
        ((parse 2 rule.text).value == [Rule.atRule rule]) = true := by
  have hread : ∃ rule ∈ (parse 2 unusual).value.atRules, rule.Portable ∧
      rule.text = ascii "@media ( a) <!-- \x7b b\x7bc:\"d\"\x7d) \\\n--> \x7d" := by
    decide +kernel
  rcases hread with ⟨rule, hrule, hportable, htext⟩
  exact ⟨rule, hrule, ⟨hportable, htext⟩, parse_text_atRule (mem_of_mem_atRules hrule) hportable⟩

/-- The colon that an escape kept in a keyword ends the printed keyword. -/
theorem parse_text_atRule_escaped :
    ∃ rule ∈ (parse defaultLimit (ascii "@a\\:b;")).value.atRules, rule.text = ascii "@a:b;" ∧
      ((parse defaultLimit rule.text).value == [Rule.atRule rule]) = false := by
  decide +kernel

end Sheet

end CssText
