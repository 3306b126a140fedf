import CssText.Bytes
import CssText.Number.Binary64

/-!
# Tokens

A token is what the grammar sees of a piece of text: its kind and its decoded value. A
lexeme is a token together with the place it was read from. Where it stood is no part of
what a token is, so two lexemes are equal when their tokens are.
-/

namespace CssText

inductive Kind where
  | ident
  | function
  | atKeyword
  | hash
  | string
  | badString
  | url
  | badUrl
  | number
  | percentage
  | dimension
  | whitespace
  | comment
  | colon
  | semicolon
  | comma
  | leftBrace
  | rightBrace
  | leftParen
  | rightParen
  | leftBracket
  | rightBracket
  | includeMatch
  | dashMatch
  | prefixMatch
  | suffixMatch
  | substringMatch
  | delim
  | cdc
  | cdo
  | endOfInput
  deriving DecidableEq

namespace Kind

def all : List Kind :=
  [ident, function, atKeyword, hash, string, badString, url, badUrl, number, percentage,
    dimension, whitespace, comment, colon, semicolon, comma, leftBrace, rightBrace, leftParen,
    rightParen, leftBracket, rightBracket, includeMatch, dashMatch, prefixMatch, suffixMatch,
    substringMatch, delim, cdc, cdo, endOfInput]

def name : Kind → Bytes
  | ident => ascii "ident"
  | function => ascii "function"
  | atKeyword => ascii "at-keyword"
  | hash => ascii "hash"
  | string => ascii "string"
  | badString => ascii "bad-string"
  | url => ascii "url"
  | badUrl => ascii "bad-url"
  | number => ascii "number"
  | percentage => ascii "percentage"
  | dimension => ascii "dimension"
  | whitespace => ascii "whitespace"
  | comment => ascii "comment"
  | colon => ascii "colon"
  | semicolon => ascii "semicolon"
  | comma => ascii "comma"
  | leftBrace => ascii "left-brace"
  | rightBrace => ascii "right-brace"
  | leftParen => ascii "left-paren"
  | rightParen => ascii "right-paren"
  | leftBracket => ascii "left-bracket"
  | rightBracket => ascii "right-bracket"
  | includeMatch => ascii "include-match"
  | dashMatch => ascii "dash-match"
  | prefixMatch => ascii "prefix-match"
  | suffixMatch => ascii "suffix-match"
  | substringMatch => ascii "substring-match"
  | delim => ascii "delim"
  | cdc => ascii "cdc"
  | cdo => ascii "cdo"
  | endOfInput => ascii "end of input"

/-- White space and comments separate tokens and mean nothing else. -/
def isBlank (kind : Kind) : Bool :=
  kind = whitespace || kind = comment

/-- Between rules and selectors the markup brackets `<!--` and `-->` are ignored as well. -/
def isInsignificant (kind : Kind) : Bool :=
  kind.isBlank || kind = cdo || kind = cdc

def isNumeric (kind : Kind) : Bool :=
  kind = number || kind = percentage || kind = dimension

end Kind

/-!
## Tokens and lexemes

The number, the unit and the integer mark belong to the numeric kinds; other tokens leave
them at their defaults.
-/

structure Token where
  kind : Kind := .endOfInput
  value : Bytes := []
  number : Binary64 := Binary64.zero
  unit : Bytes := []
  isInteger : Bool := false
  deriving DecidableEq

instance : Inhabited Token :=
  ⟨{}⟩

namespace Token

/-- Numbers are compared by value, so `-0` and `0` make equal tokens. -/
def same (t u : Token) : Bool :=
  t.kind = u.kind && t.value = u.value && t.number == u.number && t.unit = u.unit &&
    t.isInteger = u.isInteger

instance : BEq Token :=
  ⟨same⟩

def plain (kind : Kind) (value : Bytes) : Token :=
  { kind, value }

def isDelim (t : Token) (b : UInt8) : Bool :=
  t.kind = .delim && t.value = [b]

end Token

structure Lexeme extends Token where
  /-- Lines count from one. -/
  line : Nat := 1
  start : Nat := 0
  stop : Nat := 0
  deriving DecidableEq

instance : Inhabited Lexeme :=
  ⟨{}⟩

namespace Lexeme

instance : BEq Lexeme :=
  ⟨fun l m => l.toToken == m.toToken⟩

def tokens (run : List Lexeme) : List Token :=
  run.map Lexeme.toToken

def trim (run : List Lexeme) : List Lexeme :=
  ((run.dropWhile fun l => l.kind.isBlank).reverse.dropWhile fun l => l.kind.isBlank).reverse

end Lexeme
end CssText
