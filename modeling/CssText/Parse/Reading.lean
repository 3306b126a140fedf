import CssText.Parse.Issue
import CssText.Token.Stream

/-!
# Readings

Every production takes a list of lexemes and returns a reading: its value, the issues it
raised on the way, and the lexemes it left. The list holds no lexeme for the end of the
input; the bounds of the text keep that one, and the limit on nesting.
-/

namespace CssText

structure Bounds where
  /-- How many brackets or selector steps may be open at once. -/
  limit : Nat
  /-- The end of the input. -/
  final : Lexeme

structure Reading (α : Type) where
  value : α
  issues : List Issue
  rest : List Lexeme

structure Parsed (α : Type) where
  value : α
  issues : List Issue

namespace Parsed

def errors {α : Type} (p : Parsed α) : List ParseError :=
  p.issues.map Issue.report

end Parsed

namespace Bounds

def ofText (limit : Nat) (css : Bytes) : Bounds :=
  { limit, final := Lexeme.endOf css }

/-- The next lexeme, which at the end of the list is the end of the input. -/
def front (bounds : Bounds) (ts : List Lexeme) : Lexeme :=
  ts.head?.getD bounds.final

end Bounds

/-- Bracket blocks and selector chains deeper than this are rejected unless asked otherwise. -/
def defaultLimit : Nat :=
  256

namespace Parse

def dropBlank (ts : List Lexeme) : List Lexeme :=
  ts.dropWhile fun l => l.kind.isBlank

def dropInsignificant (ts : List Lexeme) : List Lexeme :=
  ts.dropWhile fun l => l.kind.isInsignificant

theorem dropBlank_suffix (ts : List Lexeme) : dropBlank ts <:+ ts :=
  List.dropWhile_suffix _

theorem dropInsignificant_suffix (ts : List Lexeme) : dropInsignificant ts <:+ ts :=
  List.dropWhile_suffix _

theorem suffix_of_dropBlank {ts rest : List Lexeme} {l : Lexeme}
    (h : dropBlank ts = l :: rest) : rest <:+ ts :=
  (h ▸ List.suffix_cons l rest).trans (dropBlank_suffix ts)

theorem length_lt_of_dropBlank {ts rest : List Lexeme} {l : Lexeme}
    (h : dropBlank ts = l :: rest) : rest.length < ts.length :=
  Nat.lt_of_lt_of_le (Nat.lt_succ_self rest.length)
    (Nat.le_trans (Nat.le_of_eq (congrArg List.length h).symm) (dropBlank_suffix ts).length_le)

theorem suffix_of_dropInsignificant {ts rest : List Lexeme} {l : Lexeme}
    (h : dropInsignificant ts = l :: rest) : rest <:+ ts :=
  (h ▸ List.suffix_cons l rest).trans (dropInsignificant_suffix ts)

end Parse

end CssText
