import CssText.Parse.Reading
import CssText.Selector

/-!
# Reading selectors

A selector that cannot be read raises an issue and becomes `Selector.nothing`, so the chain
around it keeps its shape. Only a chain that is longer than the limit gives up the whole
group. A chain ends before a left brace, a comma or the end of the input and leaves it unread.
-/

namespace CssText
namespace Parse

def endsSelector (kind : Kind) : Bool :=
  kind = .leftBrace || kind = .comma || kind = .endOfInput

/-- Pass over a lexeme that did not fit, unless it ends the selector. -/
def passUnlessEnd : List Lexeme → List Lexeme
  | [] => []
  | l :: rest => if endsSelector l.kind then l :: rest else rest

theorem passUnlessEnd_suffix (ts : List Lexeme) : passUnlessEnd ts <:+ ts := by
  cases ts with
  | nil =>
      exact List.suffix_refl []
  | cons l rest =>
      simp only [passUnlessEnd]
      split
      · exact List.suffix_refl _
      · exact List.suffix_cons l rest

def accept (selector : Selector) (rest : List Lexeme) : Reading Selector :=
  { value := selector, issues := [], rest }

def reject (bounds : Bounds) (production : Production) (wanted : Wanted)
    (ts : List Lexeme) : Reading Selector :=
  { value := .nothing
    issues := [⟨.expected production wanted, bounds.front ts⟩]
    rest := passUnlessEnd ts }

theorem reject_suffix (bounds : Bounds) (production : Production) (wanted : Wanted)
    (ts : List Lexeme) : (reject bounds production wanted ts).rest <:+ ts :=
  passUnlessEnd_suffix ts

/-!
## Attribute selectors

The opening bracket has been taken, and blanks may stand between all the parts.
-/

def attributeTest? (l : Lexeme) : Option AttributeTest :=
  match l.kind with
  | .includeMatch => some .includes
  | .dashMatch => some .dash
  | .prefixMatch => some .startsWith
  | .suffixMatch => some .endsWith
  | .substringMatch => some .contains
  | _ => if l.isDelim Byte.equals then some .equals else none

def isAttributeValue (kind : Kind) : Bool :=
  kind = .ident || kind = .string || kind = .number

def attributeValue (bounds : Bounds) (name : Bytes) (test : AttributeTest)
    (ts : List Lexeme) : Reading Selector :=
  match dropBlank ts with
  | [] => reject bounds .attributeSelector .attributeValue []
  | value :: rest =>
      if isAttributeValue value.kind then
        match dropBlank rest with
        | [] => reject bounds .attributeSelector .closeBracket []
        | close :: rest =>
            if close.kind = .rightBracket then accept (.attr name test value.value) rest
            else reject bounds .attributeSelector .closeBracket (close :: rest)
      else
        reject bounds .attributeSelector .attributeValue (value :: rest)

def attributeSelector (bounds : Bounds) (ts : List Lexeme) : Reading Selector :=
  match dropBlank ts with
  | [] => reject bounds .attributeSelector .identifier []
  | name :: rest =>
      if name.kind = .ident then
        match dropBlank rest with
        | [] => reject bounds .attributeSelector .operatorOrBracket []
        | op :: rest =>
            if op.kind = .rightBracket then
              accept (.attr name.value .present none) rest
            else
              match attributeTest? op with
              | some test => attributeValue bounds name.value test rest
              | none => reject bounds .attributeSelector .operatorOrBracket (op :: rest)
      else
        reject bounds .attributeSelector .identifier (name :: rest)

/-!
## Functional pseudo-classes

The name and its parenthesis have been taken. A negation reads its closing parenthesis only
after the selector in it.
-/

/--
The arguments of a function up to its closing parenthesis. A brace or the end of the input
cuts them off and stays unread.
-/
def arguments (nesting : Nat) : List Lexeme → Option (List Lexeme) × List Lexeme
  | [] => (none, [])
  | l :: rest =>
      match l.kind with
      | .leftBrace | .rightBrace => (none, l :: rest)
      | .rightParen =>
          match nesting with
          | 0 => (some [], rest)
          | nesting + 1 =>
              let more := arguments nesting rest
              (more.1.map (l :: ·), more.2)
      | .leftParen | .function =>
          let more := arguments (nesting + 1) rest
          (more.1.map (l :: ·), more.2)
      | _ =>
          let more := arguments nesting rest
          (more.1.map (l :: ·), more.2)

def pseudoFunction (bounds : Bounds) (name : Bytes) (ts : List Lexeme) : Reading Selector :=
  let run := arguments 0 ts
  match run.1 with
  | some args => accept (.pseudoFunction name (Lexeme.trim args)) run.2
  | none =>
      { value := .nothing
        issues := [⟨.expected (.functionSelector name) .closeParen, bounds.front run.2⟩]
        rest := run.2 }

def negation (bounds : Bounds) (name : Bytes) (inner : Reading Selector) : Reading Selector :=
  match dropBlank inner.rest with
  | [] =>
      let failed := reject bounds (.functionSelector name) .closeParen []
      { failed with issues := inner.issues ++ failed.issues }
  | close :: rest =>
      if close.kind = .rightParen then
        { value := .negation name inner.value, issues := inner.issues, rest }
      else
        let failed := reject bounds (.functionSelector name) .closeParen (close :: rest)
        { failed with issues := inner.issues ++ failed.issues }

/-!
## Simple selectors
-/

def className (bounds : Bounds) : List Lexeme → Reading Selector
  | [] => reject bounds .simpleSelector .identifier []
  | name :: rest =>
      if name.kind = .ident then accept (.className name.value) rest
      else reject bounds .simpleSelector .identifier (name :: rest)

/-- A simple selector. Each negation takes one from the depth that is left. -/
def simple (bounds : Bounds) (depth : Nat) (ts : List Lexeme) : Reading Selector :=
  match dropInsignificant ts with
  | [] => reject bounds .simpleSelector .simpleSelector []
  | l :: rest =>
      match l.kind with
      | .ident => accept (.type l.value) rest
      | .hash => accept (.id l.value) rest
      | .leftBracket => attributeSelector bounds rest
      | .colon =>
          match rest with
          | [] => reject bounds .pseudoClassSelector .identifierOrFunction []
          | name :: rest =>
              if name.kind = .ident then
                accept (.pseudoClass name.value) rest
              else if name.kind = .function then
                if lowerCase name.value = ascii "not" then
                  match depth with
                  | 0 =>
                      { value := .nothing
                        issues := [⟨.tooDeep bounds.limit, name⟩]
                        rest }
                  | depth + 1 => negation bounds name.value (simple bounds depth rest)
                else
                  pseudoFunction bounds name.value rest
              else
                reject bounds .pseudoClassSelector .identifierOrFunction (name :: rest)
      | _ =>
          if l.isDelim Byte.asterisk then accept .universal rest
          else if l.isDelim Byte.dot then className bounds rest
          else reject bounds .simpleSelector .simpleSelector (l :: rest)

/-!
## Chains
-/

structure Link where
  how : Combinator
  /-- The lexeme that is blamed when the chain gets too long. -/
  place : Lexeme
  rest : List Lexeme

/--
The link to the next simple selector, if the chain goes on. Without a combinator of its own
it is a descendant if white space separates the two, else both are one compound.
-/
def link? (ts : List Lexeme) : Option Link :=
  match dropBlank ts with
  | [] => none
  | l :: rest =>
      if endsSelector l.kind then none
      else if l.isDelim Byte.greater then some ⟨.child, l, rest⟩
      else if l.isDelim Byte.plus then some ⟨.adjacentSibling, l, rest⟩
      else if l.isDelim Byte.tilde then some ⟨.generalSibling, l, rest⟩
      else if (ts.takeWhile fun l => l.kind.isBlank).any fun l => l.kind = .whitespace then
        some ⟨.descendant, l, l :: rest⟩
      else
        some ⟨.compound, l, l :: rest⟩

/-- A chain of simple selectors. Each of them takes one from the depth that is left. -/
def chain (bounds : Bounds) : Nat → Lexeme → List Lexeme → Reading (Option Selector)
  | 0, place, ts => { value := none, issues := [⟨.tooDeep bounds.limit, place⟩], rest := ts }
  | depth + 1, _, ts =>
      let first := simple bounds depth ts
      match link? first.rest with
      | none => { value := some first.value, issues := first.issues, rest := dropBlank first.rest }
      | some link =>
          let next := chain bounds depth link.place link.rest
          { value := next.value.map (.combine link.how first.value)
            issues := first.issues ++ next.issues
            rest := next.rest }

/-!
## What reading a selector leaves
-/

theorem attributeValue_suffix (bounds : Bounds) (name : Bytes) (test : AttributeTest)
    (ts : List Lexeme) : (attributeValue bounds name test ts).rest <:+ ts := by
  unfold attributeValue
  split
  · exact List.nil_suffix
  · rename_i value rest hv
    split
    · split
      · exact List.nil_suffix
      · rename_i close rest' hc
        split
        · exact (suffix_of_dropBlank hc).trans (suffix_of_dropBlank hv)
        · exact ((reject_suffix bounds _ _ _).trans (hc ▸ dropBlank_suffix rest)).trans
            (suffix_of_dropBlank hv)
    · exact (reject_suffix bounds _ _ _).trans (hv ▸ dropBlank_suffix ts)

theorem attributeSelector_suffix (bounds : Bounds) (ts : List Lexeme) :
    (attributeSelector bounds ts).rest <:+ ts := by
  unfold attributeSelector
  split
  · exact List.nil_suffix
  · rename_i name rest hn
    split
    · split
      · exact List.nil_suffix
      · rename_i op rest' ho
        have hr := (suffix_of_dropBlank ho).trans (suffix_of_dropBlank hn)
        split
        · exact hr
        · split
          · exact (attributeValue_suffix bounds _ _ rest').trans hr
          · exact ((reject_suffix bounds _ _ _).trans (ho ▸ dropBlank_suffix rest)).trans
              (suffix_of_dropBlank hn)
    · exact (reject_suffix bounds _ _ _).trans (hn ▸ dropBlank_suffix ts)

theorem arguments_suffix (nesting : Nat) (ts : List Lexeme) :
    (arguments nesting ts).2 <:+ ts := by
  induction ts generalizing nesting with
  | nil =>
      exact List.nil_suffix
  | cons l rest ih =>
      unfold arguments
      split
      · exact List.suffix_refl _
      · exact List.suffix_refl _
      · split
        · exact List.suffix_cons l rest
        · exact (ih _).trans (List.suffix_cons l rest)
      · exact (ih _).trans (List.suffix_cons l rest)
      · exact (ih _).trans (List.suffix_cons l rest)
      · exact (ih _).trans (List.suffix_cons l rest)

theorem pseudoFunction_suffix (bounds : Bounds) (name : Bytes) (ts : List Lexeme) :
    (pseudoFunction bounds name ts).rest <:+ ts := by
  unfold pseudoFunction
  simp only
  split
  · exact arguments_suffix 0 ts
  · exact arguments_suffix 0 ts

theorem negation_suffix (bounds : Bounds) (name : Bytes) (inner : Reading Selector) :
    (negation bounds name inner).rest <:+ inner.rest := by
  unfold negation
  split
  · exact List.nil_suffix
  · rename_i close rest hc
    split
    · exact suffix_of_dropBlank hc
    · exact (passUnlessEnd_suffix (close :: rest)).trans (hc ▸ dropBlank_suffix inner.rest)

theorem className_suffix (bounds : Bounds) (ts : List Lexeme) :
    (className bounds ts).rest <:+ ts := by
  unfold className
  split
  · exact List.nil_suffix
  · split
    · exact List.suffix_cons _ _
    · exact reject_suffix bounds _ _ _

theorem simple_suffix (bounds : Bounds) (depth : Nat) (ts : List Lexeme) :
    (simple bounds depth ts).rest <:+ ts := by
  fun_induction simple bounds depth ts with
  | case1 depth ts h =>
      exact List.nil_suffix
  | case2 depth ts l rest h hk =>
      exact suffix_of_dropInsignificant h
  | case3 depth ts l rest h hk =>
      exact suffix_of_dropInsignificant h
  | case4 depth ts l rest h hk =>
      exact (attributeSelector_suffix bounds rest).trans (suffix_of_dropInsignificant h)
  | case5 depth ts l hk h =>
      exact List.nil_suffix
  | case6 depth ts l hk name rest hn h =>
      exact (List.suffix_cons name rest).trans (suffix_of_dropInsignificant h)
  | case7 ts l hk name rest hn hf hname h =>
      exact (List.suffix_cons name rest).trans (suffix_of_dropInsignificant h)
  | case8 ts l hk name rest hn hf hname depth h ih =>
      exact ((negation_suffix bounds _ _).trans ih).trans <|
        (List.suffix_cons name rest).trans (suffix_of_dropInsignificant h)
  | case9 depth ts l hk name rest hn hf hname h =>
      exact (pseudoFunction_suffix bounds _ rest).trans <|
        (List.suffix_cons name rest).trans (suffix_of_dropInsignificant h)
  | case10 depth ts l hk name rest hn hf h =>
      exact (reject_suffix bounds _ _ _).trans (suffix_of_dropInsignificant h)
  | case11 depth ts l rest h hd =>
      exact suffix_of_dropInsignificant h
  | case12 depth ts l rest h hd hd' =>
      exact (className_suffix bounds rest).trans (suffix_of_dropInsignificant h)
  | case13 depth ts l rest h hd hd' =>
      exact (reject_suffix bounds _ _ _).trans (h ▸ dropInsignificant_suffix ts)

theorem link?_suffix {ts : List Lexeme} {link : Link} (h : link? ts = some link) :
    link.rest <:+ ts := by
  unfold link? at h
  split at h
  · cases h
  · rename_i l rest hl
    have hb : l :: rest <:+ ts := hl ▸ dropBlank_suffix ts
    have hr := suffix_of_dropBlank hl
    repeat' split at h
    all_goals cases h
    · exact hr
    · exact hr
    · exact hr
    · exact hb
    · exact hb

theorem chain_suffix (bounds : Bounds) (depth : Nat) (place : Lexeme) (ts : List Lexeme) :
    (chain bounds depth place ts).rest <:+ ts := by
  induction depth generalizing place ts with
  | zero =>
      exact List.suffix_refl ts
  | succ depth ih =>
      have hs := simple_suffix bounds depth ts
      unfold chain
      simp only
      split
      · exact (dropBlank_suffix _).trans hs
      · rename_i link h
        exact ((ih link.place link.rest).trans (link?_suffix h)).trans hs

end Parse
end CssText
