import CssText.Parse.Issue

/-!
# Brackets

The four ways to open a bracket and what each of them asks for at its end. A function opens
one together with its name, and both it and the plain parenthesis end with a right
parenthesis.
-/

namespace CssText

inductive Bracket where
  | curly
  | round
  | square
  | call
  deriving DecidableEq

namespace Bracket

def ofOpener? : Kind → Option Bracket
  | .leftBrace => some curly
  | .leftParen => some round
  | .leftBracket => some square
  | .function => some call
  | _ => none

def closer : Bracket → Kind
  | curly => .rightBrace
  | round => .rightParen
  | square => .rightBracket
  | call => .rightParen

def wanted : Bracket → Wanted
  | curly => .closeBrace
  | round => .closeParen
  | square => .closeBracket
  | call => .closeParen

def production : Bracket → Production
  | curly => .curlyBlock
  | round => .roundBlock
  | square => .squareBlock
  | call => .functionBlock

end Bracket
end CssText
