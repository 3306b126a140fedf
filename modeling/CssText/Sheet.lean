import CssText.Selector.Printer

/-!
# Style sheets

A sheet is a list of rules. A style rule sets declarations on what its selectors match; an
at-rule is kept as the lexemes it was written with, because what they mean depends on its
keyword.

A tree prints as style sheet text. Properties and keywords are printed as they were decoded,
without escapes, so one that needs an escape is not read back from its text.
-/

namespace CssText

/-- A property and its value. Bracketed parts of the value stay flat and balanced. -/
structure Declaration where
  property : Bytes
  terms : List Lexeme
  /-- Where the property begins. -/
  start : Nat
  /-- Where the last term ends. -/
  stop : Nat

structure StyleRule where
  selectors : SelectorGroup
  declarations : List Declaration

structure AtRule where
  /-- The keyword without its sign. -/
  keyword : Bytes
  header : List Lexeme
  /-- The contents of the block; a rule that ends with a semicolon has none. -/
  block : Option (List Lexeme)

inductive Rule where
  | style (rule : StyleRule)
  | atRule (rule : AtRule)

abbrev Sheet := List Rule

/-!
## Equality

Where a declaration was read from does not count.
-/

instance : BEq Declaration :=
  ⟨fun d e => d.property == e.property && d.terms == e.terms⟩

instance : BEq StyleRule :=
  ⟨fun r s => r.selectors == s.selectors && r.declarations == s.declarations⟩

instance : BEq AtRule :=
  ⟨fun r s => r.keyword == s.keyword && r.header == s.header && r.block == s.block⟩

namespace Rule

def same : Rule → Rule → Bool
  | .style r, .style s => r == s
  | .atRule r, .atRule s => r == s
  | _, _ => false

instance : BEq Rule :=
  ⟨same⟩

end Rule

/-!
## Printing
-/

namespace Declaration

def valueText (d : Declaration) : Bytes :=
  Lexeme.serialize d.terms

def text (d : Declaration) : Bytes :=
  d.property ++ ascii ": " ++ d.valueText

def listText (ds : List Declaration) : Bytes :=
  ds.flatMap fun d => d.text ++ [Byte.semicolon, Byte.newline]

end Declaration

namespace StyleRule

def text (rule : StyleRule) : Bytes :=
  SelectorGroup.text rule.selectors ++ [Byte.space, Byte.leftBrace] ++
    (rule.declarations.flatMap fun d =>
      [Byte.newline, Byte.space, Byte.space] ++ d.text ++ [Byte.semicolon]) ++
    (if rule.declarations.isEmpty then [] else [Byte.newline]) ++ [Byte.rightBrace]

end StyleRule

namespace AtRule

def text (rule : AtRule) : Bytes :=
  Byte.commercialAt :: rule.keyword ++
    (if rule.header.isEmpty then [] else Byte.space :: Lexeme.serialize rule.header) ++
    match rule.block with
    | none => [Byte.semicolon]
    | some body =>
        [Byte.space, Byte.leftBrace] ++
          (if body.isEmpty then []
            else Byte.space :: Lexeme.serialize body ++ [Byte.space]) ++
          [Byte.rightBrace]

end AtRule

namespace Rule

def text : Rule → Bytes
  | .style rule => rule.text
  | .atRule rule => rule.text

end Rule

namespace Sheet

def styleRules (sheet : Sheet) : List StyleRule :=
  sheet.filterMap fun rule =>
    match rule with
    | .style r => some r
    | .atRule _ => none

def atRules (sheet : Sheet) : List AtRule :=
  sheet.filterMap fun rule =>
    match rule with
    | .style _ => none
    | .atRule r => some r

/-- Every rule ends its line, and an empty line stands between two rules. -/
def text (sheet : Sheet) : Bytes :=
  [Byte.newline].intercalate (sheet.map fun rule => rule.text ++ [Byte.newline])

end Sheet
end CssText
