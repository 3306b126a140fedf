import CssText.Selector
import CssText.Token.Printer

/-!
# Printing selectors

Names are escaped, attribute values become strings in double quotes, and `nothing` prints as
a selector that matches no element. The parts of a compound stand next to each other with
nothing in between, so two names in it run together.
-/

namespace CssText
namespace Selector

def text : Selector → Bytes
  | missing => []
  | universal => ascii "*"
  | nothing => ascii ":not(*)"
  | type name => Escape.identifier name
  | id name => Byte.numberSign :: Escape.name name
  | className name => Byte.dot :: Escape.identifier name
  | attr name .present _ =>
      Byte.leftBracket :: Escape.identifier name ++ [Byte.rightBracket]
  | attr name test value =>
      Byte.leftBracket :: Escape.identifier name ++ test.symbol ++
        (Token.plain .string (value.getD [])).toCss ++ [Byte.rightBracket]
  | pseudoClass name => Byte.colon :: Escape.identifier name
  | pseudoFunction name arguments =>
      Byte.colon :: Escape.identifier name ++ [Byte.leftParen] ++
        Lexeme.serialize arguments ++ [Byte.rightParen]
  | negation name inner =>
      Byte.colon :: Escape.identifier name ++ [Byte.leftParen] ++ inner.text ++
        [Byte.rightParen]
  | combine how left right => left.text ++ how.symbol ++ right.text

/-- The text of a selector under the name of its form. -/
def labelled (s : Selector) : Bytes :=
  s.label ++ [Byte.leftParen] ++ s.text ++ [Byte.rightParen]

end Selector

namespace SelectorGroup

def text (group : SelectorGroup) : Bytes :=
  (ascii ", ").intercalate (group.map Selector.text)

end SelectorGroup
end CssText
