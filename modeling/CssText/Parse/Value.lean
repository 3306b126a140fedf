import CssText.Parse.Bracket
import CssText.Parse.Reading

/-!
# Reading values

The value of a declaration runs to the next semicolon or right brace outside all brackets.
Its brackets have to nest properly and broken strings and addresses are refused. An accepted
value keeps its lexemes, except that each run of white space, comments and markup brackets
becomes one lexeme of white space, and none is left at the ends.
-/

namespace CssText
namespace Parse

structure Fault where
  issue : Issue
  /-- The brackets of the value that were open, the innermost first. -/
  opened : List Bracket

/-- What speaks against a lexeme in a value, inside the brackets `opened`. -/
def objection? (bounds : Bounds) (opened : List Bracket) (kind : Kind) : Option Complaint :=
  match kind with
  | .badString | .badUrl => some .unexpected
  | .rightBrace | .rightParen | .rightBracket =>
      some <| match opened with
        | [] => .unmatched
        | b :: _ => .expected .terms b.wanted
  | _ =>
      if (Bracket.ofOpener? kind).isSome && bounds.limit ≤ opened.length then
        some (.tooDeep bounds.limit)
      else
        none

def endsValue (kind : Kind) : Bool :=
  kind = .semicolon || kind = .rightBrace

def openedBy (kind : Kind) (opened : List Bracket) : List Bracket :=
  match Bracket.ofOpener? kind with
  | some b => b :: opened
  | none => opened

/-- A lexeme that was refused is passed over; only a right brace is left for the rule. -/
def passUnlessBrace (l : Lexeme) (rest : List Lexeme) : List Lexeme :=
  if l.kind = .rightBrace then l :: rest else rest

def balanced (bounds : Bounds) :
    List Bracket → List Lexeme → Except Fault (List Lexeme) × List Lexeme
  | opened, [] =>
      match opened with
      | [] => (.ok [], [])
      | b :: _ => (.error ⟨⟨.expected .terms b.wanted, bounds.final⟩, opened⟩, [])
  | opened, l :: rest =>
      if opened.isEmpty && endsValue l.kind then
        (.ok [], l :: rest)
      else if opened.head?.map Bracket.closer = some l.kind then
        let more := balanced bounds opened.tail rest
        (more.1.map (l :: ·), more.2)
      else
        match objection? bounds opened l.kind with
        | some complaint => (.error ⟨⟨complaint, l⟩, opened⟩, passUnlessBrace l rest)
        | none =>
            let more := balanced bounds (openedBy l.kind opened) rest
            (more.1.map (l :: ·), more.2)

theorem passUnlessBrace_suffix (l : Lexeme) (rest : List Lexeme) :
    passUnlessBrace l rest <:+ l :: rest := by
  unfold passUnlessBrace
  split
  · exact List.suffix_refl _
  · exact List.suffix_cons l rest

theorem balanced_suffix (bounds : Bounds) (opened : List Bracket) (ts : List Lexeme) :
    (balanced bounds opened ts).2 <:+ ts := by
  induction ts generalizing opened with
  | nil =>
      unfold balanced
      split
      · exact List.nil_suffix
      · exact List.nil_suffix
  | cons l rest ih =>
      unfold balanced
      split
      · exact List.suffix_refl _
      · split
        · exact (ih opened.tail).trans (List.suffix_cons l rest)
        · split
          · exact passUnlessBrace_suffix l rest
          · exact (ih _).trans (List.suffix_cons l rest)

/-!
## White space in values
-/

/-- A lexeme that separates, as white space. Comments and markup brackets become a space. -/
def separator (l : Lexeme) : Lexeme :=
  if l.kind = .whitespace then l else { l with kind := .whitespace, value := [Byte.space] }

/-- Add the white space of the lexeme `l` to the separator before it. -/
def widen (gap l : Lexeme) : Lexeme :=
  if l.kind = .whitespace then { gap with value := gap.value ++ l.value, stop := l.stop }
  else gap

def collapse : List Lexeme → List Lexeme
  | [] => []
  | l :: rest =>
      if l.kind.isInsignificant then
        let run := rest.takeWhile fun m => m.kind.isInsignificant
        run.foldl widen (separator l) :: collapse (dropInsignificant rest)
      else
        l :: collapse rest
termination_by ts => ts.length
decreasing_by
  · have := (dropInsignificant_suffix rest).length_le
    simp only [List.length_cons]
    omega
  · simp only [List.length_cons]
    omega

def terms (value : List Lexeme) : List Lexeme :=
  Lexeme.trim (collapse value)

/-!
## Skipping

A declaration that failed is skipped to the next semicolon outside the brackets that were
open, or up to a right brace that closes none of them. An opener that was refused itself is
not one of them.
-/

/-- Close the innermost bracket with this closer and all that was opened in it. -/
def closeInnermost? (closer : Kind) : List Bracket → Option (List Bracket)
  | [] => none
  | b :: outer => if b.closer = closer then some outer else closeInnermost? closer outer

def skipDeclaration (opened : List Bracket) : List Lexeme → List Lexeme
  | [] => []
  | l :: rest =>
      match l.kind with
      | .semicolon => if opened.isEmpty then rest else skipDeclaration opened rest
      | .rightBrace =>
          match closeInnermost? .rightBrace opened with
          | some outer => skipDeclaration outer rest
          | none => l :: rest
      | .rightParen => skipDeclaration ((closeInnermost? .rightParen opened).getD opened) rest
      | .rightBracket =>
          skipDeclaration ((closeInnermost? .rightBracket opened).getD opened) rest
      | kind => skipDeclaration (openedBy kind opened) rest

theorem skipDeclaration_suffix (opened : List Bracket) (ts : List Lexeme) :
    skipDeclaration opened ts <:+ ts := by
  induction ts generalizing opened with
  | nil =>
      exact List.nil_suffix
  | cons l rest ih =>
      unfold skipDeclaration
      split
      · split
        · exact List.suffix_cons l rest
        · exact (ih opened).trans (List.suffix_cons l rest)
      · split
        · exact (ih _).trans (List.suffix_cons l rest)
        · exact List.suffix_refl _
      · exact (ih _).trans (List.suffix_cons l rest)
      · exact (ih _).trans (List.suffix_cons l rest)
      · exact (ih _).trans (List.suffix_cons l rest)

theorem skipDeclaration_cons_suffix {l : Lexeme} (h : l.kind ≠ .rightBrace)
    (opened : List Bracket) (rest : List Lexeme) :
    skipDeclaration opened (l :: rest) <:+ rest := by
  unfold skipDeclaration
  split
  · split
    · exact List.suffix_refl _
    · exact skipDeclaration_suffix opened rest
  · contradiction
  · exact skipDeclaration_suffix _ rest
  · exact skipDeclaration_suffix _ rest
  · exact skipDeclaration_suffix _ rest

end Parse
end CssText
