import CssText.Token

/-!
# Selectors

The trees that the selector grammar builds. A combination holds a simple selector on the
left and the rest of its chain on the right, so chains lean right. Two selectors stand for
what is not there: `nothing` for text that is no selector, and `missing` for an operand that
was never given to a tree built by hand.
-/

namespace CssText

inductive AttributeTest where
  | present
  | equals
  | includes
  | dash
  | startsWith
  | endsWith
  | contains
  deriving DecidableEq

namespace AttributeTest

def symbol : AttributeTest → Bytes
  | present => []
  | equals => ascii "="
  | includes => ascii "~="
  | dash => ascii "|="
  | startsWith => ascii "^="
  | endsWith => ascii "$="
  | contains => ascii "*="

end AttributeTest

inductive Combinator where
  | compound
  | descendant
  | child
  | adjacentSibling
  | generalSibling
  deriving DecidableEq

namespace Combinator

def symbol : Combinator → Bytes
  | compound => []
  | descendant => ascii " "
  | child => ascii " > "
  | adjacentSibling => ascii " + "
  | generalSibling => ascii " ~ "

def label : Combinator → Bytes
  | compound => ascii "And"
  | descendant => ascii "Descendant"
  | child => ascii "Child"
  | adjacentSibling => ascii "AdjacentSibling"
  | generalSibling => ascii "GeneralSibling"

end Combinator

inductive Selector where
  | missing
  | universal
  | nothing
  | type (name : Bytes)
  | id (name : Bytes)
  | className (name : Bytes)
  | attr (name : Bytes) (test : AttributeTest) (value : Option Bytes)
  | pseudoClass (name : Bytes)
  | pseudoFunction (name : Bytes) (arguments : List Lexeme)
  | negation (name : Bytes) (inner : Selector)
  | combine (how : Combinator) (left right : Selector)
  deriving BEq

abbrev SelectorGroup := List Selector

namespace Selector

def isCombination : Selector → Bool
  | combine _ _ _ => true
  | _ => false

def isSimple (s : Selector) : Bool :=
  !s.isCombination

def label : Selector → Bytes
  | missing => []
  | universal => ascii "Universal"
  | nothing => ascii "SelectNothing"
  | type _ => ascii "Type"
  | id _ => ascii "Id"
  | className _ => ascii "Class"
  | attr _ _ _ => ascii "Attribute"
  | pseudoClass _ => ascii "PseudoClass"
  | pseudoFunction _ _ => ascii "PseudoClassFunction"
  | negation _ _ => ascii "Negation"
  | combine how _ _ => how.label

/-- The test of an attribute selector; the other forms make none. -/
def test : Selector → AttributeTest
  | attr _ test _ => test
  | _ => .present

end Selector
end CssText
