import CssText.Token.Stream

/-!
# Reading with one lexeme pushed back

A reader hands out the lexemes of a text one by one and can take back the last one it gave.
There is room for one: pushing back again before the next read changes nothing.
-/

namespace CssText

structure Reader where
  cursor : Cursor
  /-- The lexeme read last. -/
  current : Lexeme := {}
  hasRead : Bool := false
  pushedBack : Option Lexeme := none

namespace Reader

def ofText (css : Bytes) : Reader :=
  { cursor := { rest := css } }

def next (r : Reader) : Lexeme × Reader :=
  match r.pushedBack with
  | some lexeme => (lexeme, { r with current := lexeme, pushedBack := none })
  | none =>
      let step := r.cursor.next
      (step.1, { r with cursor := step.2, current := step.1, hasRead := true })

def remaining (r : Reader) : Nat :=
  r.cursor.rest.length + (if r.pushedBack.isSome then 1 else 0)

theorem remaining_next_le (r : Reader) : r.next.2.remaining ≤ r.remaining - 1 := by
  unfold next remaining
  split
  · rename_i h
    simp [h]
  · rename_i h
    have := (Cursor.next_rest_suffix r.cursor).length_le
    rw [List.length_tail] at this
    simpa [h] using this

def nextSignificant (r : Reader) : Lexeme × Reader :=
  let step := r.next
  if h : step.1.kind.isBlank = true ∧ 0 < r.remaining then
    have : step.2.remaining < r.remaining := by
      have : step.2.remaining ≤ r.remaining - 1 := remaining_next_le r
      omega
    nextSignificant step.2
  else
    step
termination_by r.remaining

/-- Take back the lexeme read last, unless there is none or one is pushed back already. -/
def pushBack (r : Reader) : Reader :=
  if r.hasRead && r.pushedBack.isNone then { r with pushedBack := some r.current } else r

def offset (r : Reader) : Nat :=
  match r.pushedBack with
  | some lexeme => lexeme.start
  | none => r.cursor.offset

end Reader
end CssText
