import CssText.Proofs.Parse.Accepted
import CssText.Proofs.Parse.Collapse
import CssText.Proofs.Selector.RoundTrip

/-!
# Selectors that are read are well-formed

A selector that is read from a text without an issue is one that can be printed, if its
arguments can be moved and no two names of it touch (`Portable`), and it is no deeper than the
limit. So a group that was read without an issue is read back from its own text.
-/

namespace CssText

open Token

namespace Token

theorem Reads.not_callsUrl {text rest : Bytes} {t : Token} (h : Reads text t rest)
    (hk : t.kind = .function) : callsUrl t.value rest = false := by
  have hclear : Clear t rest := by
    apply h.clear
    · rintro rfl
      cases hk
    · intro hdimension
      rw [hk] at hdimension
      cases hdimension
  rw [Clear, hk] at hclear
  exact hclear

theorem beq_ofText (text : Bytes) : (ofText text == ofText text) = true := by
  have hself (ts : List Token) (h : ∀ t ∈ ts, t.same t = true) : (ts == ts) = true := by
    induction ts with
    | nil => rfl
    | cons t ts ih =>
        have ht : (t == t) = true := h t List.mem_cons_self
        rw [List.cons_beq_cons, ht, ih fun u hu => h u (List.mem_cons_of_mem t hu)]
        rfl
  exact hself _ fun t ht => same_self_of_mem ht

end Token

/-!
## Functional pseudo-classes

Where a quotation mark lies ahead a string follows the white space. So an address keeps its
quotation mark when its arguments are trimmed, and a call that was read is read from its text if
its arguments can be moved.
-/

namespace Lexeme

theorem Covers.quoted {ls : List Lexeme} {text : Bytes} (h : Covers ls text)
    (hquoted : quotedAhead text = true) :
    ∃ u us, Parse.dropBlank ls = u :: us ∧ (u.kind = .string ∨ u.kind = .badString) := by
  have hquote : beginsWith isQuote (skipBlanks text) = true := hquoted
  have hkept {u : Lexeme} (us : List Lexeme) (hu : u.kind = .string ∨ u.kind = .badString) :
      Parse.dropBlank (u :: us) = u :: us := by
    apply Parse.dropBlank_self
    rcases hu with hu | hu <;> rw [hu] <;> rfl
  cases ls with
  | nil =>
      rw [ofText_eq_nil.mp h.symm] at hquote
      cases hquote
  | cons l ls =>
      rcases exists_reads_of_ofText h.symm with ⟨rest, hreads, hrest⟩
      rw [skipBlanks_of_reads hreads] at hquote
      split at hquote
      · rename_i hk
        cases ls with
        | nil =>
            rw [ofText_eq_nil.mp hrest] at hquote
            cases hquote
        | cons m ls =>
            rcases exists_reads_of_ofText hrest with ⟨_, hreads', -⟩
            have hm := hreads'.kind_of_quote hquote
            exact ⟨m, ls, by rw [Parse.dropBlank_whitespace hk, hkept ls hm], hm⟩
      · have hl := hreads.kind_of_quote hquote
        exact ⟨l, ls, hkept ls hl, hl⟩

end Lexeme

namespace Selector

open Lexeme

variable {name : Lexeme} {ts args : List Lexeme} {close : Lexeme} {rest : List Lexeme}

theorem quotedAhead_trim (hclose : close.kind = .rightParen) {source text : Bytes}
    (hsource : Covers (args ++ close :: rest) source)
    (htext : PrintsBefore (trim args) text) (hquoted : quotedAhead source = true) :
    quotedAhead (Lexeme.serialize (trim args) ++ text) = true := by
  rcases hsource.quoted hquoted with ⟨u, us, hdrop, hu⟩
  rcases dropBlank_eq_trim args with ⟨post, hpost, hblank⟩
  rw [dropBlank_append (by rw [hclose]; rfl) rest, hpost] at hdrop
  cases hargs : trim args with
  | nil =>
      exfalso
      rw [hargs, List.nil_append] at hdrop
      cases post with
      | nil =>
          rw [(List.cons.inj hdrop).1] at hclose
          rcases hu with hu | hu <;> rw [hclose] at hu <;> cases hu
      | cons l post =>
          have hl := hblank l List.mem_cons_self
          rw [(List.cons.inj hdrop).1] at hl
          rcases hu with hu | hu <;> rw [hu] at hl <;> cases hl
  | cons v vs =>
      rw [hargs] at htext hdrop
      obtain rfl : v = u := (List.cons.inj hdrop).1
      rcases exists_reads_of_ofText htext with ⟨_, hreads, -⟩
      have hspace : v.kind ≠ .whitespace := by
        rcases hu with hu | hu <;> rw [hu] <;> decide
      show beginsWith isQuote (Token.skipBlanks _) = true
      rw [skipBlanks_of_reads hreads, if_neg hspace]
      exact hreads.quote_of_kind hu

theorem callsUrl_trim (hclose : close.kind = .rightParen) {source text value : Bytes}
    (hsource : Covers (args ++ close :: rest) source) (htext : PrintsBefore (trim args) text)
    (h : callsUrl value source = false) :
    callsUrl value (Lexeme.serialize (trim args) ++ text) = false := by
  rw [callsUrl] at h ⊢
  by_cases hurl : lowerCase value = ascii "url"
  · rw [decide_eq_true hurl, Bool.true_and, Bool.not_eq_false'] at h ⊢
    exact quotedAhead_trim hclose hsource htext h
  · rw [decide_eq_false hurl, Bool.false_and]

theorem ofText_call {value : Bytes} (hname : IsName value)
    (hcalls : callsUrl value (Lexeme.serialize args ++ [Byte.rightParen]) = false)
    (hargs : PrintsBefore args [Byte.rightParen]) :
    Token.ofText (text (.pseudoFunction value args)) = callTokens value args := by
  have hparen : Reads [Byte.rightParen] (plain .rightParen [Byte.rightParen]) [] :=
    Reads.punctuation rfl
  have hcall := reads_function hname.ne_nil hname.not_zero hcalls
  have htext : text (.pseudoFunction value args) = Byte.colon ::
      (Escape.identifier value ++ Byte.leftParen ::
        (Lexeme.serialize args ++ [Byte.rightParen])) := by
    simp [text]
  rw [htext, (Reads.punctuation rfl).ofText_eq, hcall.ofText_eq, hargs, hparen.ofText_eq,
    ofText_nil]
  rfl

theorem isCall_of_arguments (h : Sourced (name :: ts)) (hk : name.kind = .function)
    (hnot : lowerCase name.value ≠ ascii "not") (hargs : (Parse.arguments 0 ts).1 = some args)
    (hportable : Token.Portable (tokens (trim args))) : IsCall name.value (trim args) := by
  rcases Parse.arguments_spec hargs with ⟨⟨close, hts, hclose⟩, -⟩
  rcases Parse.arguments_trim hargs with ⟨hclosed, hbraces⟩
  rcases h.exists_reads with ⟨whole, source, hreads, hcovers⟩
  have hname := h.isName (by rw [hk]; rfl)
  have hsource := h.tail
  have htrimmed := trimmed_trim args
  rw [hts] at hsource hcovers
  have hprints : PrintsBefore (trim args) [Byte.rightParen] :=
    printsBefore_of_steady
      (steady_trim hsource (by rw [hclose]; rfl) hportable (Parse.parensClose_last hclosed))
      fun _ => rfl
  have hcalls : callsUrl name.value (Lexeme.serialize (trim args) ++ [Byte.rightParen]) = false :=
    callsUrl_trim hclose hcovers hprints (hreads.not_callsUrl hk)
  have htokens := ofText_call hname hcalls hprints
  constructor
  · exact hnot
  · rw [← htokens]
    exact beq_ofText _
  · exact hclosed
  · exact hbraces
  · exact htrimmed.first
  · exact htrimmed.last

/--
The text of the selector can be read again: its arguments can be moved, and the names of two
operands do not touch that a comment or a markup bracket kept apart.
-/
def Portable : Selector → Prop
  | pseudoFunction _ args => Token.Portable (Lexeme.tokens args)
  | negation _ inner => inner.Portable
  | combine how left right =>
      left.Portable ∧ right.Portable ∧
        (how = .compound → left.endsInName = true → right.beginsWithType = false)
  | _ => True

instance decidablePortable : (s : Selector) → Decidable s.Portable
  | pseudoFunction _ args => inferInstanceAs (Decidable (Token.Portable (Lexeme.tokens args)))
  | negation _ inner => decidablePortable inner
  | combine how left right =>
      have := decidablePortable left
      have := decidablePortable right
      inferInstanceAs (Decidable (left.Portable ∧ right.Portable ∧
        (how = .compound → left.endsInName = true → right.beginsWithType = false)))
  | missing | universal | nothing | type _ | id _ | className _ | attr _ _ _
  | pseudoClass _ => isTrue trivial

end Selector

/-!
## Simple selectors
-/

namespace Parse

open Selector Lexeme

variable {bounds : Bounds} {ts : List Lexeme}

def Sound (r : Reading Selector) : Prop :=
  r.issues = [] → r.value.Portable → r.value.WellFormed

theorem attributeSelector_sound (h : Sourced ts) : Sound (attributeSelector bounds ts) := by
  rcases attributeSelector_cases bounds ts with
    ⟨wanted, us, -, hread⟩ | ⟨name, after, test, value, rest, hts, hk, -, -, htest, hread⟩
  · rw [hread]
    rintro ⟨⟩
  · rw [hread]
    intro _ _
    exact ⟨(h.dropBlank hts).isName (by rw [hk]; rfl), htest⟩

theorem negation_sound {name : Bytes} {inner : Reading Selector}
    (hn : lowerCase name = ascii "not") (hsimple : inner.value.isSimple = true)
    (hinner : Sound inner) : Sound (negation bounds name inner) := by
  rcases negation_cases bounds name inner with ⟨us, -, hread⟩ | ⟨rest, -, hread⟩
  · rw [hread]
    intro h
    cases List.append_eq_nil_iff.mp h |>.2
  · rw [hread]
    intro h hportable
    exact ⟨hn, hsimple, hinner h hportable⟩

theorem simple_sound (bounds : Bounds) (h : Sourced ts) (depth : Nat) :
    Sound (simple bounds depth ts) := by
  fun_induction simple bounds depth ts with
  | case1 depth ts hts => rintro ⟨⟩
  | case2 depth ts l rest hts hk =>
      intro _ _
      exact (h.dropInsignificant hts).isName (by rw [hk]; rfl)
  | case3 depth ts l rest hts hk =>
      intro _ _
      exact (h.dropInsignificant hts).isName (by rw [hk]; rfl)
  | case4 depth ts l rest hts hk =>
      exact attributeSelector_sound (h.dropInsignificant hts).tail
  | case5 depth ts l hk hts => rintro ⟨⟩
  | case6 depth ts l hk name rest hn hts =>
      intro _ _
      exact (h.dropInsignificant hts).tail.isName (by rw [hn]; rfl)
  | case7 ts l hk name rest hn hf hname hts => rintro ⟨⟩
  | case8 ts l hk name rest hn hf hname depth hts ih =>
      exact negation_sound hname (simple_withinDepth bounds depth rest).1
        (ih (h.dropInsignificant hts).tail.tail)
  | case9 depth ts l hk name rest hn hf hname hts =>
      have hsource := (h.dropInsignificant hts).tail
      rcases pseudoFunction_cases bounds name.value rest with ⟨args, hargs, hread⟩ | hread
      · rw [hread]
        intro _ hportable
        exact isCall_of_arguments hsource hf hname hargs hportable
      · rw [hread]
        rintro ⟨⟩
  | case10 depth ts l hk name rest hn hf hts => rintro ⟨⟩
  | case11 depth ts l rest hts hd =>
      intro _ _
      exact trivial
  | case12 depth ts l rest hts hd hd' =>
      rcases className_cases bounds rest with hread | ⟨name, rest', hrest, hk, hread⟩
      · rw [hread]
        rintro ⟨⟩
      · rw [hread]
        intro _ _
        exact (hrest ▸ (h.dropInsignificant hts).tail).isName (by rw [hk]; rfl)
  | case13 depth ts l rest hts hd hd' => rintro ⟨⟩

/-!
## Chains and groups
-/

/-- A chain that was read without an issue is well-formed if its text can be read again. -/
theorem chain_sound {depth : Nat} {place : Lexeme} {s : Selector} (h : Sourced ts)
    (hv : (chain bounds depth place ts).value = some s)
    (hi : (chain bounds depth place ts).issues = []) (hs : s.Portable) : s.WellFormed := by
  induction depth generalizing place ts s with
  | zero => cases hv
  | succ depth ih =>
      have hrest := h.suffix (simple_suffix bounds depth ts)
      rcases chain_cases hv hi with ⟨hissues, ⟨-, rfl⟩ | ⟨link, right, hlink, hright, hnext, rfl⟩⟩
      · exact simple_sound bounds h depth hissues hs
      · rcases hs with ⟨hleft, hportable, hnames⟩
        exact ⟨(simple_withinDepth bounds depth ts).1, simple_sound bounds h depth hissues hleft,
          ih (hrest.suffix (link?_suffix hlink)) hright hnext hportable, hnames⟩

theorem GroupReads.ne_nil {group : SelectorGroup} {rest : List Lexeme}
    (hgroup : GroupReads bounds ts group rest) : group ≠ [] := by
  cases hgroup with
  | last hchain hrest => exact List.cons_ne_nil _ []
  | comma hchain hl more => exact List.cons_ne_nil _ _

theorem GroupReads.sound {group : SelectorGroup} {rest : List Lexeme} (h : Sourced ts)
    (hgroup : GroupReads bounds ts group rest) (hs : ∀ s ∈ group, s.Portable) :
    ∀ s ∈ group, s.WellFormed := by
  induction hgroup with
  | last hchain hrest =>
      intro s hmem
      rw [List.mem_singleton.mp hmem]
      exact chain_sound h (congrArg Reading.value hchain) (congrArg Reading.issues hchain)
        (hs _ List.mem_cons_self)
  | @comma ts tail rest l first group hchain hl more ih =>
      have hmore := ih (h.suffix (chain_tail_suffix (congrArg Reading.rest hchain)))
        fun s hmem => hs s (List.mem_cons_of_mem first hmem)
      intro s hmem
      rcases List.mem_cons.mp hmem with rfl | hmem
      · exact chain_sound h (congrArg Reading.value hchain) (congrArg Reading.issues hchain)
          (hs s List.mem_cons_self)
      · exact hmore s hmem

theorem alternatives_sound {group : SelectorGroup} (h : Sourced ts)
    (hv : (alternatives bounds ts).value = some group)
    (hi : (alternatives bounds ts).issues = []) (hs : ∀ s ∈ group, s.Portable) :
    group ≠ [] ∧ ∀ s ∈ group, s.WellFormed ∧ s.depth ≤ bounds.limit := by
  rcases groupReads_of_alternatives hi with ⟨group', hgroup⟩
  rw [hgroup.alternatives_eq] at hv
  obtain rfl : group' = group := Option.some.inj hv
  have hsound := hgroup.sound h hs
  exact ⟨hgroup.ne_nil, fun s hmem => ⟨hsound s hmem, hgroup.depth s hmem⟩⟩

end Parse

namespace SelectorGroup

theorem alternatives_of_parse {limit : Nat} {css : Bytes} (h : (parse limit css).errors = []) :
    (Parse.alternatives (Bounds.ofText limit css) (Lexeme.ofText css)).value =
        some (parse limit css).value ∧
      (Parse.alternatives (Bounds.ofText limit css) (Lexeme.ofText css)).issues = [] := by
  have hissues : (parse limit css).issues = [] := List.map_eq_nil_iff.mp h
  have hparse : parse limit css = Parse.endGroup
      (Parse.alternatives (Bounds.ofText limit css) (Lexeme.ofText css)) := rfl
  rw [hparse] at hissues ⊢
  rcases Parse.endGroup_cases
    (Parse.alternatives (Bounds.ofText limit css) (Lexeme.ofText css)) with
    ⟨hvalue, hend⟩ | ⟨selectors, hvalue, hend | ⟨l, hend⟩⟩
  · rw [hend] at hissues
    rcases Parse.groupReads_of_alternatives hissues with ⟨group, hreads⟩
    rw [hreads.alternatives_eq] at hvalue
    cases hvalue
  · rw [hend] at hissues ⊢
    exact ⟨hvalue, hissues⟩
  · rw [hend] at hissues
    exact absurd (List.append_eq_nil_iff.mp hissues).2 (List.cons_ne_nil _ _)

/--
A group that was read without an issue is read back from its text, if its arguments can be
moved and no two of its names touch that a comment or a markup bracket kept apart.
-/
theorem parse_text_portable {limit : Nat} {css : Bytes} (herrors : (parse limit css).errors = [])
    (hportable : ∀ s ∈ (parse limit css).value, s.Portable) :
    (parse limit (text (parse limit css).value)).errors = [] ∧
      ((parse limit (text (parse limit css).value)).value == (parse limit css).value) = true := by
  rcases alternatives_of_parse herrors with ⟨hvalue, hissues⟩
  rcases Parse.alternatives_sound (Lexeme.sourced_ofText css) hvalue hissues hportable with
    ⟨hne, hsound⟩
  have hdepth : ∀ s ∈ (parse limit css).value, s.depth ≤ limit := fun s hs => (hsound s hs).2
  rcases exists_parse_text hne (fun s hs => (hsound s hs).1) hdepth with ⟨group', hparse, hsame⟩
  rw [hparse]
  exact ⟨rfl, hsame.beq⟩

def commented : Bytes :=
  ascii "\\31 /**/ > *<!--b:x( url( 'y')/**/ )"

theorem parse_text_commented :
    ((parse 4 commented).errors = [] ∧ ∀ s ∈ (parse 4 commented).value, s.Portable) ∧
      text (parse 4 commented).value = ascii "\\31  > *b:x(url( \"y\"))" ∧
      (parse 4 (text (parse 4 commented).value)).errors = [] ∧
      ((parse 4 (text (parse 4 commented).value)).value == (parse 4 commented).value) = true := by
  have hread : ((parse 4 commented).errors = [] ∧
      ∀ s ∈ (parse 4 commented).value, s.Portable) ∧
      text (parse 4 commented).value = ascii "\\31  > *b:x(url( \"y\"))" := by
    decide +kernel
  exact ⟨hread.1, hread.2, parse_text_portable hread.1.1 hread.1.2⟩

/-- A comment keeps two names apart and leaves nothing in the tree that could be printed. -/
theorem parse_joins_names :
    (parse defaultLimit (ascii "a/**/b")).errors = [] ∧
      text (parse defaultLimit (ascii "a/**/b")).value = ascii "ab" ∧
      ((parse defaultLimit (text (parse defaultLimit (ascii "a/**/b")).value)).value ==
        (parse defaultLimit (ascii "a/**/b")).value) = false := by
  decide +kernel

end SelectorGroup

end CssText
