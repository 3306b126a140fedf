import CssText.Parse.Selector
import CssText.Selector.Printer

/-!
# Reading selector groups

Alternatives are separated by commas. A group ends before a left brace or the end of the
input; standing alone it must reach the latter.
-/

namespace CssText
namespace Parse

/-- The alternatives of a group. Nothing is returned once a chain is too deep. -/
def alternatives (bounds : Bounds) (ts : List Lexeme) : Reading (Option SelectorGroup) :=
  let first := chain bounds bounds.limit (bounds.front ts) ts
  match first.value with
  | none => { value := none, issues := first.issues, rest := first.rest }
  | some selector =>
      match h : first.rest with
      | [] => { value := some [selector], issues := first.issues, rest := [] }
      | l :: rest =>
          if l.kind = .leftBrace then
            { value := some [selector], issues := first.issues, rest := l :: rest }
          else if l.kind = .comma then
            have : (dropInsignificant rest).length < ts.length := by
              have hd := (dropInsignificant_suffix rest).length_le
              have hc : first.rest.length ≤ ts.length :=
                (chain_suffix bounds bounds.limit (bounds.front ts) ts).length_le
              rw [h, List.length_cons] at hc
              omega
            let more := alternatives bounds (dropInsignificant rest)
            { value := more.value.map (selector :: ·)
              issues := first.issues ++ more.issues
              rest := more.rest }
          else
            { value := none
              issues := first.issues ++ [⟨.expected .selectorGroup .comma, l⟩]
              rest }
termination_by ts.length

theorem alternatives_suffix (bounds : Bounds) (ts : List Lexeme) :
    (alternatives bounds ts).rest <:+ ts := by
  fun_induction alternatives bounds ts with
  | case1 ts first hv =>
      exact chain_suffix bounds bounds.limit (bounds.front ts) ts
  | case2 ts first selector hv h =>
      exact List.nil_suffix
  | case3 ts first selector hv l rest h hk =>
      exact h ▸ chain_suffix bounds bounds.limit (bounds.front ts) ts
  | case4 ts first selector hv l rest h hk hk' hlt more ih =>
      have hc : first.rest <:+ ts := chain_suffix bounds bounds.limit (bounds.front ts) ts
      rw [h] at hc
      exact (ih.trans (dropInsignificant_suffix rest)).trans
        ((List.suffix_cons l rest).trans hc)
  | case5 ts first selector hv l rest h hk hk' =>
      have hc : first.rest <:+ ts := chain_suffix bounds bounds.limit (bounds.front ts) ts
      rw [h] at hc
      exact (List.suffix_cons l rest).trans hc

end Parse

namespace SelectorGroup

/-- Read a text that holds nothing but a selector group. -/
def parse (limit : Nat) (css : Bytes) : Parsed SelectorGroup :=
  let bounds := Bounds.ofText limit css
  let group := Parse.alternatives bounds (Lexeme.ofText css)
  match group.value with
  | none => { value := [], issues := group.issues }
  | some selectors =>
      match Parse.dropBlank group.rest with
      | [] => { value := selectors, issues := group.issues }
      | l :: _ =>
          { value := selectors
            issues := group.issues ++ [⟨.expected .selectorGroup .endOfInput, l⟩] }

end SelectorGroup
end CssText
