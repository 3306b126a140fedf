import CssText.Proofs.Selector.Source
import CssText.Proofs.Token.Tiling

/-!
# The shape of selectors that are read

Whatever the text is like, what is read from it as a selector has a certain shape, also where
issues were raised and parts of the tree are `nothing`. Its chains lean right, its names are
names, and an operand that stands far down in its chain has few negations in it: its place
and its negations together keep to the limit.
-/

namespace CssText

open Lexeme

namespace Lexeme

theorem Sourced.ne_endOfInput {ls : List Lexeme} (h : Sourced ls) :
    ∀ l ∈ ls, l.kind ≠ .endOfInput := by
  intro l hl
  rcases List.append_of_mem hl with ⟨pre, post, rfl⟩
  rcases (h.suffix (List.suffix_append pre _)).exists_reads with ⟨text, rest, hreads, -⟩
  exact hreads.ne_endOfInput

end Lexeme

namespace Selector

/-!
## Shapes
-/

/-- Lexemes that can stand between the parentheses of a functional pseudo-class. -/
structure IsArguments (args : List Lexeme) : Prop where
  parens : parensClose 0 (kinds args) = true
  inside : ∀ l ∈ args, l.kind ≠ .leftBrace ∧ l.kind ≠ .rightBrace ∧ l.kind ≠ .endOfInput
  trimmed : Trimmed args

/-- No operand is missing, and every part of the tree is one that is read from text. -/
def Shaped : Selector → Prop
  | missing => False
  | universal | nothing => True
  | type name | id name | className name | pseudoClass name => IsName name
  | attr name test value => IsName name ∧ (value.isSome = true ↔ test ≠ .present)
  | pseudoFunction name args =>
      IsName name ∧ lowerCase name ≠ ascii "not" ∧ IsArguments args
  | negation name inner =>
      IsName name ∧ lowerCase name = ascii "not" ∧ inner.isSimple = true ∧ inner.Shaped
  | combine _ left right => left.isSimple = true ∧ left.Shaped ∧ right.Shaped

def operands : Selector → List Selector
  | combine _ left right => left :: right.operands
  | s => [s]

/-- The place of each operand, counted from one, and its negations keep to the limit. -/
def Fits (limit : Nat) (s : Selector) : Prop :=
  ∀ k operand, s.operands[k]? = some operand → k + 1 + operand.nesting ≤ limit

theorem operands_of_isSimple {s : Selector} (h : s.isSimple = true) : s.operands = [s] := by
  cases s with
  | combine how left right => cases h
  | _ => rfl

theorem fits_of_isSimple {limit : Nat} {s : Selector} (h : s.isSimple = true)
    (hs : s.nesting + 1 ≤ limit) : s.Fits limit := by
  intro k operand hk
  rw [operands_of_isSimple h] at hk
  cases k with
  | zero =>
      obtain rfl : s = operand := Option.some.inj hk
      omega
  | succ k => cases hk

/-- A chain fits if no operand stands deeper than the limit. -/
theorem fits_of_depth {limit : Nat} {s : Selector} (h : s.depth ≤ limit) : s.Fits limit := by
  induction s generalizing limit with
  | combine how left right ihl ihr =>
      rcases Nat.max_le.mp h with ⟨hleft, hright⟩
      intro k operand hk
      cases k with
      | zero =>
          obtain rfl : left = operand := Option.some.inj hk
          omega
      | succ k =>
          have hmore := ihr (Nat.le_sub_one_of_lt hright) k operand hk
          omega
  | negation name inner ih => exact fits_of_isSimple rfl h
  | _ => exact fits_of_isSimple rfl h

end Selector

namespace Parse

open Selector

variable {bounds : Bounds} {ts : List Lexeme}

/-!
## Simple selectors

Whatever does not fit becomes `nothing`, which has the shape of a selector.
-/

theorem attributeSelector_shaped (h : Sourced ts) :
    (attributeSelector bounds ts).value.Shaped := by
  rcases attributeSelector_cases bounds ts with
    ⟨wanted, us, -, hread⟩ | ⟨name, after, test, value, rest, hts, hk, -, -, htest, hread⟩
  · rw [hread]
    exact trivial
  · rw [hread]
    exact ⟨(h.dropBlank hts).isName (by rw [hk]; rfl), htest⟩

theorem isArguments_trim {args : List Lexeme} (h : Sourced ts)
    (hargs : (arguments 0 ts).1 = some args) : IsArguments (trim args) := by
  rcases arguments_trim hargs with ⟨hparens, hbraces⟩
  constructor
  · exact hparens
  · intro l hl
    have hcuts := hbraces l.kind (List.mem_map_of_mem hl)
    have hend := h.ne_endOfInput l
      ((arguments_start hargs).subset ((trim_infix_self args).subset hl))
    simp only [cutsArguments, Bool.or_eq_false_iff, decide_eq_false_iff_not] at hcuts
    exact ⟨hcuts.1, hcuts.2, hend⟩
  · exact trimmed_trim args

theorem pseudoFunction_shaped {name : Bytes} (hn : IsName name)
    (hnot : lowerCase name ≠ ascii "not") (h : Sourced ts) :
    (pseudoFunction bounds name ts).value.Shaped := by
  rcases pseudoFunction_cases bounds name ts with ⟨args, hargs, hread⟩ | hread
  · rw [hread]
    exact ⟨hn, hnot, isArguments_trim h hargs⟩
  · rw [hread]
    exact trivial

theorem negation_shaped {name : Bytes} {inner : Reading Selector} (hn : IsName name)
    (hnot : lowerCase name = ascii "not") (hsimple : inner.value.isSimple = true)
    (hinner : inner.value.Shaped) : (negation bounds name inner).value.Shaped := by
  rcases negation_cases bounds name inner with ⟨us, -, hread⟩ | ⟨rest, -, hread⟩
  · rw [hread]
    exact trivial
  · rw [hread]
    exact ⟨hn, hnot, hsimple, hinner⟩

theorem className_shaped (h : Sourced ts) : (className bounds ts).value.Shaped := by
  rcases className_cases bounds ts with hread | ⟨name, rest, rfl, hk, hread⟩
  · rw [hread]
    exact trivial
  · rw [hread]
    exact h.isName (by rw [hk]; rfl)

theorem simple_shaped (bounds : Bounds) (h : Sourced ts) (depth : Nat) :
    (simple bounds depth ts).value.Shaped := by
  fun_induction simple bounds depth ts with
  | case2 depth ts l rest hts hk =>
      exact (h.dropInsignificant hts).isName (by rw [hk]; rfl)
  | case3 depth ts l rest hts hk =>
      exact (h.dropInsignificant hts).isName (by rw [hk]; rfl)
  | case4 depth ts l rest hts hk =>
      exact attributeSelector_shaped (h.dropInsignificant hts).tail
  | case6 depth ts l hk name rest hn hts =>
      exact (h.dropInsignificant hts).tail.isName (by rw [hn]; rfl)
  | case8 ts l hk name rest hn hf hname depth hts ih =>
      have hsource := (h.dropInsignificant hts).tail
      exact negation_shaped (hsource.isName (by rw [hf]; rfl)) hname
        (simple_withinDepth bounds depth rest).1 (ih hsource.tail)
  | case9 depth ts l hk name rest hn hf hname hts =>
      have hsource := (h.dropInsignificant hts).tail
      exact pseudoFunction_shaped (hsource.isName (by rw [hf]; rfl)) hname hsource.tail
  | case12 depth ts l rest hts hd hd' =>
      exact className_shaped (h.dropInsignificant hts).tail
  | _ => exact trivial

/-!
## Chains and groups
-/

theorem chain_shaped {depth : Nat} {place : Lexeme} {s : Selector} (h : Sourced ts)
    (hv : (chain bounds depth place ts).value = some s) : s.Shaped := by
  induction depth generalizing place ts s with
  | zero => cases hv
  | succ depth ih =>
      have hfirst := simple_shaped bounds h depth
      rcases chain_parts hv with ⟨-, rfl⟩ | ⟨link, right, hlink, hright, rfl⟩
      · exact hfirst
      · have hrest := (link?_suffix hlink).trans (simple_suffix bounds depth ts)
        exact ⟨(simple_withinDepth bounds depth ts).1, hfirst, ih (h.suffix hrest) hright⟩

theorem alternatives_shaped {group : SelectorGroup} (h : Sourced ts)
    (hv : (alternatives bounds ts).value = some group) :
    ∀ s ∈ group, s.Shaped ∧ s.Fits bounds.limit := by
  intro s hs
  rcases alternatives_origin hv s hs with ⟨us, hus, hread⟩
  exact ⟨chain_shaped (h.suffix hus) hread, fits_of_depth (chain_depth hread)⟩

end Parse

/-!
## Selectors of a text

The selectors of a rule were read, unless no selectors stand in front of its block. Such a bare
block applies to every element.
-/

namespace SelectorGroup

theorem mem_of_parse {limit : Nat} {css : Bytes} {s : Selector}
    (h : s ∈ (parse limit css).value) :
    ∃ group, (Parse.alternatives (Bounds.ofText limit css) (ofText css)).value = some group ∧
      s ∈ group := by
  have hparse : parse limit css = Parse.endGroup
      (Parse.alternatives (Bounds.ofText limit css) (ofText css)) := rfl
  rw [hparse] at h
  rcases Parse.endGroup_cases (Parse.alternatives (Bounds.ofText limit css) (ofText css)) with
    ⟨-, hend⟩ | ⟨selectors, hvalue, hend | ⟨l, hend⟩⟩
  · rw [hend] at h
    cases h
  · rw [hend] at h
    exact ⟨selectors, hvalue, h⟩
  · rw [hend] at h
    exact ⟨selectors, hvalue, h⟩

end SelectorGroup

namespace StyleRule

def IsBare (limit : Nat) (css : Bytes) (rule : StyleRule) : Prop :=
  ∃ brace rest, brace :: rest <:+ ofText css ∧ brace.kind = .leftBrace ∧
    (Parse.styleRule (Bounds.ofText limit css) (brace :: rest)).value = some rule ∧
    rule.selectors = [.universal]

theorem selectors_cases {limit : Nat} {css : Bytes} {us : List Lexeme} {rule : StyleRule}
    (hus : us <:+ ofText css)
    (hv : (Parse.styleRule (Bounds.ofText limit css) us).value = some rule) :
    rule.IsBare limit css ∨
      (Parse.alternatives (Bounds.ofText limit css) us).value = some rule.selectors := by
  have hgroup := (Parse.styleRule_origin hv).1
  unfold Parse.ruleSelectors at hgroup
  split at hgroup
  · rename_i hbrace
    left
    cases us with
    | nil => cases hbrace
    | cons brace rest =>
        exact ⟨brace, rest, hus, hbrace, hv, (Option.some.inj hgroup).symm⟩
  · right
    exact hgroup

end StyleRule

/-- Selectors that are read have the shape of one and fit the limit, alone or in a rule. -/
theorem parse_selectors_shaped (limit : Nat) (css : Bytes) :
    (∀ s ∈ (SelectorGroup.parse limit css).value, s.Shaped ∧ s.Fits limit) ∧
      ∀ rule, .style rule ∈ (Sheet.parse limit css).value → ∀ s ∈ rule.selectors,
        s.Shaped ∧ (s.Fits limit ∨ rule.IsBare limit css) := by
  have hsource := sourced_ofText css
  constructor
  · intro s hs
    rcases SelectorGroup.mem_of_parse hs with ⟨group, hgroup, hmem⟩
    exact Parse.alternatives_shaped hsource hgroup s hmem
  · intro rule hrule s hs
    cases Parse.rules_origin hrule with
    | @style us rule hus hv =>
        rcases StyleRule.selectors_cases hus hv with hbare | hgroup
        · refine ⟨?_, Or.inr hbare⟩
          rcases hbare with ⟨-, -, -, -, -, huniversal⟩
          rw [huniversal, List.mem_singleton] at hs
          rw [hs]
          exact trivial
        · rcases Parse.alternatives_shaped (hsource.suffix hus) hgroup s hs with
            ⟨hshaped, hfits⟩
          exact ⟨hshaped, Or.inl hfits⟩

end CssText
