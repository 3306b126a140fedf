import CssText.Token
import CssText.Token.Escape

/-!
# Printing tokens

The text of a token and the short description of it that messages use. A token is printed
without regard to its neighbours, so two of them may be read as one where they meet.
-/

namespace CssText
namespace Token

/-- The number text in front of a unit. A unit longer than the value leaves the value whole. -/
def numberText (t : Token) : Bytes :=
  if t.value.length < t.unit.length then t.value
  else t.value.take (t.value.length - t.unit.length)

def toCss (t : Token) : Bytes :=
  match t.kind with
  | .ident => Escape.identifier t.value
  | .function => Escape.identifier t.value ++ [Byte.leftParen]
  | .atKeyword => Byte.commercialAt :: Escape.identifier t.value
  | .hash => Byte.numberSign :: Escape.name t.value
  | .string => Byte.doubleQuote :: Escape.string t.value ++ [Byte.doubleQuote]
  | .badString => Byte.doubleQuote :: Escape.string t.value
  | .url => ascii "url(" ++ Escape.url t.value ++ [Byte.rightParen]
  | .dimension => t.numberText ++ Escape.unit t.unit
  | .comment => ascii "/*" ++ t.value ++ ascii "*/"
  | .badUrl | .number | .percentage | .whitespace | .delim => t.value
  | .colon => [Byte.colon]
  | .semicolon => [Byte.semicolon]
  | .comma => [Byte.comma]
  | .leftBrace => [Byte.leftBrace]
  | .rightBrace => [Byte.rightBrace]
  | .leftParen => [Byte.leftParen]
  | .rightParen => [Byte.rightParen]
  | .leftBracket => [Byte.leftBracket]
  | .rightBracket => [Byte.rightBracket]
  | .includeMatch => ascii "~="
  | .dashMatch => ascii "|="
  | .prefixMatch => ascii "^="
  | .suffixMatch => ascii "$="
  | .substringMatch => ascii "*="
  | .cdc => ascii "-->"
  | .cdo => ascii "<!--"
  | .endOfInput => []

/-- Tokens with a value of their own show it; punctuation is quoted as it is written. -/
def describe (t : Token) : Bytes :=
  match t.kind with
  | .endOfInput | .whitespace => t.kind.name
  | .ident | .function | .atKeyword | .hash | .string | .badString | .url | .badUrl | .number
  | .percentage | .dimension | .comment =>
      t.kind.name ++ [Byte.space, Byte.doubleQuote] ++ t.value ++ [Byte.doubleQuote]
  | _ => Byte.singleQuote :: t.toCss ++ [Byte.singleQuote]

def serialize (run : List Token) : Bytes :=
  run.flatMap toCss

end Token

namespace Lexeme

def serialize (run : List Lexeme) : Bytes :=
  Token.serialize (tokens run)

end Lexeme
end CssText
