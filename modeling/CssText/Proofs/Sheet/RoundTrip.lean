import CssText.Proofs.Selector.Clean
import CssText.Proofs.Sheet.Source

/-!
# Sheets are read back from their text

The rules that are read from plain text can all be printed, provided that no issue was raised
(`rules_sound`). So the text of such a sheet is read as the same sheet.
-/

namespace CssText
namespace Parse

open Token Selector Lexeme

variable {bounds : Bounds} {ts : List Lexeme}

/-!
## Declarations
-/

theorem declaration_portable {property : Lexeme} {d : Declaration}
    (h : Clean (property :: ts)) (hk : property.kind = .ident)
    (hd : (declaration bounds property ts).1 = .ok d) : d.Portable := by
  rcases declaration_ok hd with ⟨colon, rest, run, hts, -, hvalue, rfl⟩
  have hclean := (clean_dropBlank h.tail hts).tail
  rw [balanced_append hvalue] at hclean
  have hterms : terms run = Lexeme.trim run := hclean.terms_eq
  constructor
  · exact (h.isPlainName (Or.inl hk)).plain
  · rw [valued, hterms]
    exact hclean.portable_trim

theorem declarations_printable (h : Clean ts) (inBlock : Bool) :
    ∀ d ∈ (declarations bounds inBlock ts).value, d.Printable bounds.limit := by
  intro d hd
  apply declarations_sound h.sourced hd
  rcases declarations_origin hd with ⟨property, rest, hs, hk, hvalue⟩
  exact declaration_portable (h.suffix hs) hk hvalue

/-!
## At-rules
-/

theorem components_portable {around : List Bracket} {ends : Kind → Bool} {run : List Lexeme}
    (h : Clean ts) (hv : (components bounds around ends [] ts).value = some run) :
    Token.Portable (tokens (Lexeme.trim run)) := by
  rw [components_append hv] at h
  exact h.portable_trim

theorem atRule_portable {keyword : Lexeme} {rule : AtRule} (h : Clean (keyword :: ts))
    (hk : keyword.kind = .atKeyword)
    (hv : (atRule bounds keyword.value ts).value = some rule) : rule.Portable := by
  rcases atRule_some hv with ⟨run, l, rest, hrun, hrest, hkeyword, hheader, hblock⟩
  have hsuffix := components_suffix bounds [] endsHeader [] ts
  rw [hrest] at hsuffix
  constructor
  · rw [hkeyword]
    exact (h.isPlainName (Or.inr hk)).plain
  · rw [hheader]
    exact components_portable h.tail hrun
  · intro body hbody
    rcases block_some (hblock body hbody).2 with ⟨inner, hinner, rfl⟩
    exact components_portable (h.tail.suffix hsuffix).tail hinner

theorem atRule_printable {keyword : Lexeme} {rule : AtRule} (h : Clean (keyword :: ts))
    (hk : keyword.kind = .atKeyword)
    (hv : (atRule bounds keyword.value ts).value = some rule) : rule.Printable bounds.limit :=
  (atRule_sound h.sourced hk hv (atRule_portable h hk hv)).1

/-!
## Style rules
-/

theorem ruleSelectors_sound {group : SelectorGroup} (h : Clean ts) (hl : 1 ≤ bounds.limit)
    (hv : (ruleSelectors bounds ts).value = some group)
    (hi : (ruleSelectors bounds ts).issues = []) :
    group ≠ [] ∧ ∀ s ∈ group, s.WellFormed ∧ s.depth ≤ bounds.limit := by
  unfold ruleSelectors at hv hi
  split at hv
  · cases hv
    constructor
    · exact List.cons_ne_nil _ _
    · intro s hs
      rw [List.mem_singleton.mp hs]
      exact ⟨trivial, hl⟩
  · rename_i hbrace
    rw [if_neg hbrace] at hi
    exact alternatives_sound h.sourced hv hi (alternatives_portable h hv hi)

theorem styleRule_sound {rule : StyleRule} (h : Clean ts) (hl : 1 ≤ bounds.limit)
    (hv : (styleRule bounds ts).value = some rule) (hi : (styleRule bounds ts).issues = []) :
    rule.Printable bounds.limit := by
  rcases styleRule_read hi with
    ⟨group, rest, brace, block, close, after, hgroup, hrest, hbrace, -, hblock, hclose⟩
  rw [styleRule_eq hgroup hrest hbrace hblock hclose] at hv
  cases hv
  have hsuffix := ruleSelectors_suffix bounds ts
  rw [hgroup] at hsuffix
  rcases ruleSelectors_sound h hl (congrArg Reading.value hgroup) (congrArg Reading.issues hgroup)
    with ⟨hne, hall⟩
  constructor
  · exact hne
  · intro s hs
    exact (hall s hs).1
  · intro s hs
    exact (hall s hs).2
  · exact declarations_printable (h.suffix ((suffix_of_dropInsignificant hrest).trans hsuffix)) true

/-!
## Sheets
-/

theorem rules_sound (h : Clean ts) (hl : 1 ≤ bounds.limit) (hi : (rules bounds ts).issues = []) :
    ∀ r ∈ (rules bounds ts).value, r.Printable bounds.limit := by
  induction hn : ts.length using Nat.strongRecOn generalizing ts with
  | ind n ih =>
      subst hn
      rcases rules_cases hi with ⟨-, hrules⟩ | ⟨l, rest, hts, -, hcases⟩
      · rw [hrules]
        intro r hr
        cases hr
      · have hclean := clean_dropInsignificant h hts
        have hcons : l :: rest <:+ ts := hts ▸ dropInsignificant_suffix ts
        -- each rule leaves a shorter rest, which is clean and raises no issue
        have hmore {after : List Lexeme} {rule : Rule}
            (hrules : rules bounds ts = consRule (some rule) [] (rules bounds after))
            (hs : after <:+ ts) (hlt : after.length < ts.length)
            (hrule : rule.Printable bounds.limit) :
            ∀ r ∈ (rules bounds ts).value, r.Printable bounds.limit := by
          rw [hrules] at hi ⊢
          exact List.forall_mem_cons.mpr ⟨hrule, ih _ hlt (h.suffix hs) hi rfl⟩
        rcases hcases with ⟨hk, rule, after, hread, hrules⟩ | ⟨-, rule, after, hread, hrules⟩
        · have hafter := atRule_suffix bounds l.value rest
          rw [hread] at hafter
          exact hmore hrules (hafter.trans (suffix_of_dropInsignificant hts))
            (Nat.lt_of_le_of_lt hafter.length_le hcons.length_le)
            (atRule_printable hclean hk (congrArg Reading.value hread))
        · have hafter := styleRule_suffix bounds (l :: rest)
          have hlt := length_styleRule_lt (congrArg Reading.value hread)
          rw [hread] at hafter hlt
          exact hmore hrules (hafter.trans hcons) (Nat.lt_of_lt_of_le hlt hcons.length_le)
            (styleRule_sound hclean hl (congrArg Reading.value hread)
              (congrArg Reading.issues hread))

end Parse

namespace Sheet

/--
A sheet that was read without an issue from a text without escapes, comments, markup brackets
and broken strings is read back from its own text, and so prints the same text again.
-/
theorem parse_text_parse {limit : Nat} {css : Bytes} (hl : 1 ≤ limit) (hcss : Byte.backslash ∉ css)
    (hkinds : ∀ l ∈ tokenize css, l.kind ≠ .comment ∧ l.kind ≠ .cdo ∧ l.kind ≠ .cdc ∧
      l.kind ≠ .badString) (herrors : (parse limit css).errors = []) :
    (parse limit (parse limit css).value.text).errors = [] ∧
      ((parse limit (parse limit css).value.text).value == (parse limit css).value) = true ∧
      (parse limit (parse limit css).value.text).value.text = (parse limit css).value.text := by
  have hclean : Lexeme.Clean (Lexeme.ofText css) := by
    constructor
    · exact ⟨css, Lexeme.covers_ofText css, hcss⟩
    · intro l hmem
      rcases hkinds l (List.mem_append_left _ hmem) with ⟨hcomment, hcdo, hcdc, hstring⟩
      simp [Lexeme.isForeign, hcomment, hcdo, hcdc, hstring]
  have hissues : (Parse.rules (Bounds.ofText limit css) (Lexeme.ofText css)).issues = [] :=
    List.map_eq_nil_iff.mp herrors
  have hsound : ∀ r ∈ (parse limit css).value, r.Printable limit :=
    Parse.rules_sound hclean hl hissues
  generalize (parse limit css).value = sheet at hsound ⊢
  have hblank : ∀ b ∈ ([] : Bytes), isBlank b = true := by
    intro b hb
    cases hb
  rcases Parse.rules_text (Bounds.ofText limit (text sheet)) hsound (Nat.one_le_iff_ne_zero.mp hl)
    hblank (Lexeme.covers_ofText (text sheet)) with ⟨sheet', hread, hsame⟩
  have hparse : parse limit (text sheet) = { value := sheet', issues := [] } := by
    rw [parse]
    simp only [hread]
  rw [hparse]
  exact ⟨rfl, beq_of_forall hsame, text_eq_of_forall hsame⟩

/-- A bare block, a unit that needs an escape, an address, a string in single quotes. -/
def sample : Bytes :=
  ascii "\x7ba:1e5e3\x7d@b url( x );#c>d\x7be:'f'\x7d"

theorem parse_text_parse_sample :
    (Byte.backslash ∉ sample ∧
      (∀ l ∈ tokenize sample, l.kind ≠ .comment ∧ l.kind ≠ .cdo ∧ l.kind ≠ .cdc ∧
        l.kind ≠ .badString) ∧
      (parse 2 sample).errors = []) ∧
    (parse 2 sample).value.text = ascii "* \x7b\n  a: 1e5\\65 3;\n\x7d\n\n@b url(x);\n\n" ++
      ascii "#c > d \x7b\n  e: \"f\";\n\x7d\n" ∧
    (parse 2 (parse 2 sample).value.text).errors = [] ∧
      ((parse 2 (parse 2 sample).value.text).value == (parse 2 sample).value) = true ∧
      (parse 2 (parse 2 sample).value.text).value.text = (parse 2 sample).value.text := by
  have hcss : Byte.backslash ∉ sample := by
    decide +kernel
  have hkinds : ∀ l ∈ tokenize sample, l.kind ≠ .comment ∧ l.kind ≠ .cdo ∧ l.kind ≠ .cdc ∧
      l.kind ≠ .badString := by
    decide +kernel
  have herrors : (parse 2 sample).errors = [] := by
    decide +kernel
  constructor
  · exact ⟨hcss, hkinds, herrors⟩
  · constructor
    · decide +kernel
    · exact parse_text_parse (by decide) hcss hkinds herrors

end Sheet

end CssText
