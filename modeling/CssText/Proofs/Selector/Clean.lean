import CssText.Proofs.Parse.Clean
import CssText.Proofs.Selector.Source

/-!
# Selectors of plain text

Nothing keeps two names apart in a text without comments but white space, and that is a
combinator. So the text of every selector that is read from plain text can be read again.
-/

namespace CssText
namespace Parse

open Token Selector Lexeme

variable {bounds : Bounds} {ts : List Lexeme}

theorem clean_dropBlank (h : Clean ts) {l : Lexeme} {rest : List Lexeme}
    (hl : dropBlank ts = l :: rest) : Clean (l :: rest) :=
  h.suffix (hl ▸ dropBlank_suffix ts)

theorem clean_dropInsignificant (h : Clean ts) {l : Lexeme} {rest : List Lexeme}
    (hl : dropInsignificant ts = l :: rest) : Clean (l :: rest) :=
  h.suffix (hl ▸ dropInsignificant_suffix ts)

/-!
## Simple selectors

After a selector that ends with a name no other name begins. If it is the name of a type, the
selector begins with it as well.
-/

theorem simple_portable (bounds : Bounds) (h : Clean ts) (depth : Nat) :
    (simple bounds depth ts).value.Portable := by
  fun_induction simple bounds depth ts with
  | case4 depth ts l rest hts hk =>
      rcases attributeSelector_cases bounds rest with
        ⟨wanted, us, -, hread⟩ | ⟨name, after, test, value, rest', -, -, -, -, -, hread⟩
      · rw [hread]
        exact trivial
      · rw [hread]
        exact trivial
  | case8 ts l hk name rest hn hf hname depth hts ih =>
      have hinner := ih (clean_dropInsignificant h hts).tail.tail
      rcases negation_cases bounds name.value (simple bounds depth rest) with
        ⟨us, -, hread⟩ | ⟨rest', -, hread⟩
      · rw [hread]
        exact trivial
      · rw [hread]
        exact hinner
  | case9 depth ts l hk name rest hn hf hname hts =>
      have hclean := (clean_dropInsignificant h hts).tail.tail
      rcases pseudoFunction_cases bounds name.value rest with ⟨args, hargs, hread⟩ | hread
      · rw [hread]
        rcases arguments_spec hargs with ⟨⟨close, hrest, -⟩, -⟩
        rw [hrest] at hclean
        exact hclean.portable_trim
      · rw [hread]
        exact trivial
  | case12 depth ts l rest hts hd hd' =>
      rcases className_cases bounds rest with hread | ⟨name, rest', -, -, hread⟩
      · rw [hread]
        exact trivial
      · rw [hread]
        exact trivial
  | _ => exact trivial

theorem attributeSelector_endsInName (bounds : Bounds) (rest : List Lexeme) :
    (attributeSelector bounds rest).value.endsInName = false := by
  rcases attributeSelector_cases bounds rest with
    ⟨wanted, us, -, hread⟩ | ⟨name, after, test, value, rest', -, -, -, -, -, hread⟩
  · rw [hread]
    rfl
  · rw [hread]
    rfl

theorem pseudoFunction_endsInName (bounds : Bounds) (name : Bytes) (rest : List Lexeme) :
    (pseudoFunction bounds name rest).value.endsInName = false := by
  rcases pseudoFunction_cases bounds name rest with ⟨args, -, hread⟩ | hread
  · rw [hread]
    rfl
  · rw [hread]
    rfl

theorem negation_endsInName (bounds : Bounds) (name : Bytes) (inner : Reading Selector) :
    (negation bounds name inner).value.endsInName = false := by
  rcases negation_cases bounds name inner with ⟨us, -, hread⟩ | ⟨rest, -, hread⟩
  · rw [hread]
    rfl
  · rw [hread]
    rfl

theorem simple_endsInName (bounds : Bounds) (h : Clean ts) (depth : Nat)
    (hs : (simple bounds depth ts).value.endsInName = true) :
    (∀ l ∈ (simple bounds depth ts).rest.head?, beginsName l.kind = false) ∧
      ((simple bounds depth ts).value.beginsWithType = true →
        ∃ l rest, dropInsignificant ts = l :: rest ∧ l.kind = .ident) := by
  fun_induction simple bounds depth ts with
  | case2 depth ts l rest hts hk =>
      constructor
      · exact (clean_dropInsignificant h hts).not_beginsName (Or.inl hk)
      · intro _
        exact ⟨l, rest, hts, hk⟩
  | case3 depth ts l rest hts hk =>
      constructor
      · exact (clean_dropInsignificant h hts).not_beginsName (Or.inr hk)
      · rintro ⟨⟩
  | case4 depth ts l rest hts hk =>
      rw [attributeSelector_endsInName] at hs
      cases hs
  | case6 depth ts l hk name rest hn hts =>
      constructor
      · exact (clean_dropInsignificant h hts).tail.not_beginsName (Or.inl hn)
      · rintro ⟨⟩
  | case8 ts l hk name rest hn hf hname depth hts ih =>
      rw [negation_endsInName] at hs
      cases hs
  | case9 depth ts l hk name rest hn hf hname hts =>
      rw [pseudoFunction_endsInName] at hs
      cases hs
  | case12 depth ts l rest hts hd hd' =>
      have hclean := (clean_dropInsignificant h hts).tail
      rcases className_cases bounds rest with hread | ⟨name, rest', hrest, hk, hread⟩
      · rw [hread] at hs
        cases hs
      · rw [hread]
        rw [hrest] at hclean
        constructor
        · exact hclean.not_beginsName (Or.inl hk)
        · rintro ⟨⟩
  | _ => cases hs

/-!
## Chains

Without white space between them two selectors follow each other at once, and a chain that
begins with the name of a type was read from a name.
-/

theorem link?_compound (h : Clean ts) {link : Link} (hl : link? ts = some link)
    (hhow : link.how = .compound) :
    ∃ l rest, ts = l :: rest ∧ link.rest = ts ∧ l.kind.isBlank = false := by
  unfold link? at hl
  split at hl
  · cases hl
  · rename_i l rest hts
    repeat' split at hl
    all_goals cases hl
    all_goals try cases hhow
    rename_i hnone
    cases ts with
    | nil => cases hts
    | cons m ms =>
        have hm : m.kind.isBlank = false := by
          rw [← Bool.not_eq_true]
          intro hblank
          have hk := h.isBlank_eq
          rw [hblank, eq_comm, decide_eq_true_eq] at hk
          apply hnone
          rw [List.takeWhile_cons, hblank, if_pos rfl, List.any_cons, hk]
          rfl
        rw [dropBlank_self hm] at hts
        exact ⟨m, ms, rfl, hts.symm, hm⟩

theorem type_of_beginsWithType {s : Selector} (hs : s.beginsWithType = true)
    (hsimple : s.isSimple = true) : ∃ name, s = .type name := by
  cases s with
  | type name => exact ⟨name, rfl⟩
  | combine how left right => cases hsimple
  | _ => cases hs

theorem left_of_beginsWithType {how : Combinator} {left right : Selector}
    (hs : (Selector.combine how left right).beginsWithType = true) :
    ∃ name, left = .type name := by
  cases left with
  | type name => exact ⟨name, rfl⟩
  | _ => cases hs

theorem chain_beginsWithType {depth : Nat} {place : Lexeme} {s : Selector} (h : Clean ts)
    (hv : (chain bounds depth place ts).value = some s)
    (hi : (chain bounds depth place ts).issues = []) (hs : s.beginsWithType = true) :
    ∃ l rest, dropInsignificant ts = l :: rest ∧ l.kind = .ident := by
  cases depth with
  | zero => cases hv
  | succ depth =>
      have hfirst : ∃ name, (simple bounds depth ts).value = .type name := by
        rcases chain_cases hv hi with ⟨hissues, ⟨-, rfl⟩ | ⟨link, right, -, -, -, rfl⟩⟩
        · exact type_of_beginsWithType hs (simple_withinDepth bounds depth ts).1
        · exact left_of_beginsWithType hs
      rcases hfirst with ⟨name, hname⟩
      apply (simple_endsInName bounds h depth _).2
      · rw [hname]
        rfl
      · rw [hname]
        rfl

theorem chain_portable {depth : Nat} {place : Lexeme} {s : Selector} (h : Clean ts)
    (hv : (chain bounds depth place ts).value = some s)
    (hi : (chain bounds depth place ts).issues = []) : s.Portable := by
  induction depth generalizing place ts s with
  | zero => cases hv
  | succ depth ih =>
      have hrest := h.suffix (simple_suffix bounds depth ts)
      have hfirst := simple_portable bounds h depth
      rcases chain_cases hv hi with ⟨-, ⟨-, rfl⟩ | ⟨link, right, hlink, hright, hnext, rfl⟩⟩
      · exact hfirst
      · have hclean := hrest.suffix (link?_suffix hlink)
        refine ⟨hfirst, ih hclean hright hnext, ?_⟩
        intro hhow hends
        rcases link?_compound hrest hlink hhow with ⟨l, more, hcons, hself, hl⟩
        rw [← Bool.not_eq_true]
        intro hbegins
        rcases chain_beginsWithType hclean hright hnext hbegins with ⟨m, ms, hm, hk⟩
        rw [hself, hcons] at hm hclean
        rw [dropInsignificant_self (by rw [hclean.isInsignificant_eq, hl])] at hm
        have hname := (simple_endsInName bounds h depth hends).1 l (by rw [hcons]; rfl)
        rw [(List.cons.inj hm).1, hk] at hname
        cases hname

/-!
## Groups
-/

theorem GroupReads.portable {group : SelectorGroup} {rest : List Lexeme} (h : Clean ts)
    (hgroup : GroupReads bounds ts group rest) : ∀ s ∈ group, s.Portable := by
  induction hgroup with
  | last hchain hrest =>
      intro s hs
      rw [List.mem_singleton.mp hs]
      exact chain_portable h (congrArg Reading.value hchain) (congrArg Reading.issues hchain)
  | comma hchain hl more ih =>
      have hmore := ih (h.suffix (chain_tail_suffix (congrArg Reading.rest hchain)))
      intro s hs
      rcases List.mem_cons.mp hs with rfl | hs
      · exact chain_portable h (congrArg Reading.value hchain) (congrArg Reading.issues hchain)
      · exact hmore s hs

theorem alternatives_portable {group : SelectorGroup} (h : Clean ts)
    (hv : (alternatives bounds ts).value = some group)
    (hi : (alternatives bounds ts).issues = []) : ∀ s ∈ group, s.Portable := by
  rcases groupReads_of_alternatives hi with ⟨group', hgroup⟩
  rw [hgroup.alternatives_eq] at hv
  obtain rfl : group' = group := Option.some.inj hv
  exact hgroup.portable h

end Parse

end CssText
