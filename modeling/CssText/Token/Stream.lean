import CssText.Token.Printer
import CssText.Token.Scan

/-!
# Token streams

A cursor is the unread part of a text and the place where it begins. Stepping it gives the
next lexeme; stepping it to the end gives the lexemes of the whole text, each starting where
the one before it stopped. The end of the input has a lexeme of its own, which closes the
list that `tokenize` returns.
-/

namespace CssText

structure Cursor where
  rest : Bytes
  line : Nat := 1
  offset : Nat := 0

namespace Cursor

def advance (c : Cursor) (taken rest : Bytes) : Cursor :=
  { rest, line := c.line + taken.count Byte.newline, offset := c.offset + taken.length }

/-- The lexeme at the cursor and the cursor after it. The end of the input is never passed. -/
def next (c : Cursor) : Lexeme × Cursor :=
  match c.rest with
  | [] => ({ line := c.line, start := c.offset, stop := c.offset }, c)
  | b :: bs =>
      let scanned := Token.scan b bs
      let after := c.advance (b :: upTo scanned.2 bs) scanned.2
      ({ toToken := scanned.1, line := c.line, start := c.offset, stop := after.offset }, after)

theorem next_rest_suffix (c : Cursor) : c.next.2.rest <:+ c.rest.tail := by
  unfold next
  split
  · rename_i h
    simp [h]
  · rename_i b bs h
    rw [h]
    exact Token.scan_suffix b bs

theorem length_next_rest_lt {c : Cursor} (h : c.rest ≠ []) :
    c.next.2.rest.length < c.rest.length := by
  have hs := (next_rest_suffix c).length_le
  have hp := List.length_pos_iff.mpr h
  rw [List.length_tail] at hs
  omega

def lexemes (c : Cursor) : List Lexeme :=
  if h : c.rest = [] then
    []
  else
    let step := c.next
    have : step.2.rest.length < c.rest.length := length_next_rest_lt h
    step.1 :: lexemes step.2
termination_by c.rest.length

end Cursor

namespace Lexeme

/-- The lexemes of a text, without the end of the input. -/
def ofText (css : Bytes) : List Lexeme :=
  Cursor.lexemes { rest := css }

def endOf (css : Bytes) : Lexeme :=
  { line := 1 + css.count Byte.newline, start := css.length, stop := css.length }

end Lexeme

def tokenize (css : Bytes) : List Lexeme :=
  Lexeme.ofText css ++ [Lexeme.endOf css]

def retokenizes (run : List Lexeme) : Bool :=
  Lexeme.ofText (Lexeme.serialize run) == run

end CssText
