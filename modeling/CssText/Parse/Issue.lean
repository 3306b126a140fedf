import CssText.Token.Printer

/-!
# Issues

What the grammar has to say about text it cannot read. An issue is a complaint and the
lexeme that gave rise to it; a report is its wording with the place.
-/

namespace CssText

/-- The parts of the grammar that complain under a name of their own. -/
inductive Production where
  | curlyBlock
  | roundBlock
  | squareBlock
  | functionBlock
  | atRule
  | attributeSelector
  | pseudoClassSelector
  | functionSelector (name : Bytes)
  | simpleSelector
  | selectorGroup
  | terms
  | declaration
  | declarationList
  | styleRule
  | styleSheet
  deriving DecidableEq

namespace Production

def name : Production → Bytes
  | curlyBlock => ascii "CurlyBlock"
  | roundBlock => ascii "RoundBlock"
  | squareBlock => ascii "SquareBlock"
  | functionBlock => ascii "FunctionBlock"
  | atRule => ascii "AtRule"
  | attributeSelector => ascii "AttributeSelector"
  | pseudoClassSelector => ascii "PseudoClassSelector"
  | functionSelector name => Byte.colon :: name ++ ascii "() Selector"
  | simpleSelector => ascii "SimpleSelector"
  | selectorGroup => ascii "SelectorGroup"
  | terms => ascii "Terms"
  | declaration => ascii "Declaration"
  | declarationList => ascii "DeclarationList"
  | styleRule => ascii "StyleRule"
  | styleSheet => ascii "StyleSheet"

end Production

inductive Wanted where
  | closeBrace
  | closeParen
  | closeBracket
  | openBrace
  | braceOrSemicolon
  | comma
  | colon
  | endOfInput
  | identifier
  | operatorOrBracket
  | attributeValue
  | identifierOrFunction
  | simpleSelector
  | declaration
  deriving DecidableEq

namespace Wanted

def text : Wanted → Bytes
  | closeBrace => ascii "'\x7d'"
  | closeParen => ascii "')'"
  | closeBracket => ascii "']'"
  | openBrace => ascii "'\x7b'"
  | braceOrSemicolon => ascii "'\x7b' or ';'"
  | comma => ascii "','"
  | colon => ascii "':'"
  | endOfInput => ascii "end of input"
  | identifier => ascii "identifier"
  | operatorOrBracket => ascii "operator or ']'"
  | attributeValue => ascii "identifier, string or number"
  | identifierOrFunction => ascii "identifier or function"
  | simpleSelector => ascii "simple selector"
  | declaration => ascii "declaration"

end Wanted

inductive Complaint where
  /-- A production found something else than it wanted. -/
  | expected (production : Production) (wanted : Wanted)
  /-- A broken string or address stands in a value. -/
  | unexpected
  /-- A value closes a bracket that it did not open. -/
  | unmatched
  /-- A right brace stands where nothing is open. -/
  | strayBrace (production : Production)
  | tooDeep (limit : Nat)
  deriving DecidableEq

structure Issue where
  complaint : Complaint
  place : Lexeme
  deriving DecidableEq

/-!
## Wording
-/

structure ParseError where
  message : Bytes
  line : Nat
  /-- The byte offset of the lexeme in question. -/
  position : Nat
  deriving DecidableEq

namespace ParseError

def text (e : ParseError) : Bytes :=
  ascii "line " ++ decimal e.line ++ ascii ", offset " ++ decimal e.position ++ ascii ": " ++
    e.message

end ParseError

namespace Issue

def message (i : Issue) : Bytes :=
  match i.complaint with
  | .expected production wanted =>
      production.name ++ ascii ": " ++ wanted.text ++ ascii " expected, found " ++
        i.place.describe
  | .unexpected => ascii "Terms: unexpected " ++ i.place.describe
  | .unmatched => ascii "Terms: unmatched " ++ i.place.describe
  | .strayBrace production => production.name ++ ascii ": unexpected '\x7d'"
  | .tooDeep limit => ascii "nesting deeper than " ++ decimal limit ++ ascii " levels"

def report (i : Issue) : ParseError :=
  { message := i.message, line := i.place.line, position := i.place.start }

end Issue
end CssText
