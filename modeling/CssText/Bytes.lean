/-!
# Byte strings

Style sheets are read as bytes and every offset counts bytes: a name may hold any
byte from 128 up, and text that is no valid character sequence still has tokens.
This module names the bytes the grammar speaks of and the classes they fall into.
The classes know ASCII only, because the grammar does.
-/

namespace CssText

abbrev Bytes := List UInt8

def ascii (text : String) : Bytes :=
  text.toList.map fun c => c.toNat.toUInt8

/-!
## Named bytes

The punctuation of the grammar, under the names the grammar gives it.
-/

namespace Byte

abbrev tab : UInt8 := 0x09
abbrev newline : UInt8 := 0x0A
abbrev formFeed : UInt8 := 0x0C
abbrev carriageReturn : UInt8 := 0x0D
abbrev space : UInt8 := 0x20
abbrev doubleQuote : UInt8 := 0x22
abbrev numberSign : UInt8 := 0x23
abbrev dollar : UInt8 := 0x24
abbrev percent : UInt8 := 0x25
abbrev singleQuote : UInt8 := 0x27
abbrev leftParen : UInt8 := 0x28
abbrev rightParen : UInt8 := 0x29
abbrev asterisk : UInt8 := 0x2A
abbrev plus : UInt8 := 0x2B
abbrev comma : UInt8 := 0x2C
abbrev hyphen : UInt8 := 0x2D
abbrev dot : UInt8 := 0x2E
abbrev slash : UInt8 := 0x2F
abbrev zero : UInt8 := 0x30
abbrev colon : UInt8 := 0x3A
abbrev semicolon : UInt8 := 0x3B
abbrev less : UInt8 := 0x3C
abbrev equals : UInt8 := 0x3D
abbrev greater : UInt8 := 0x3E
abbrev question : UInt8 := 0x3F
abbrev commercialAt : UInt8 := 0x40
abbrev upperE : UInt8 := 0x45
abbrev leftBracket : UInt8 := 0x5B
abbrev backslash : UInt8 := 0x5C
abbrev rightBracket : UInt8 := 0x5D
abbrev caret : UInt8 := 0x5E
abbrev underscore : UInt8 := 0x5F
abbrev lowerE : UInt8 := 0x65
abbrev leftBrace : UInt8 := 0x7B
abbrev bar : UInt8 := 0x7C
abbrev rightBrace : UInt8 := 0x7D
abbrev tilde : UInt8 := 0x7E

end Byte

/-!
## Classes of bytes

Every byte outside ASCII may begin a name. The blanks are control bytes too, the space apart.
-/

def isBlank (b : UInt8) : Bool :=
  b == Byte.space || b == Byte.tab || b == Byte.newline || b == Byte.carriageReturn ||
    b == Byte.formFeed

def isDigit (b : UInt8) : Bool :=
  0x30 ≤ b && b ≤ 0x39

def isUpper (b : UInt8) : Bool :=
  0x41 ≤ b && b ≤ 0x5A

def isLower (b : UInt8) : Bool :=
  0x61 ≤ b && b ≤ 0x7A

def isHexDigit (b : UInt8) : Bool :=
  isDigit b || (0x41 ≤ b && b ≤ 0x46) || (0x61 ≤ b && b ≤ 0x66)

def isNameStart (b : UInt8) : Bool :=
  isUpper b || isLower b || b == Byte.underscore || 0x80 ≤ b

def isNameByte (b : UInt8) : Bool :=
  isNameStart b || isDigit b || b == Byte.hyphen

def isControl (b : UInt8) : Bool :=
  b < 0x20 || b == 0x7F

/-- What a reader of zero-terminated text sees of it. -/
def untilZero (text : Bytes) : Bytes :=
  text.takeWhile fun b => b ≠ 0

/-!
## Letter case and digits

Only the ASCII letters have a case, and numbers are written without leading zeros.
-/

def lowerByte (b : UInt8) : UInt8 :=
  if isUpper b then b + 0x20 else b

def lowerCase (bs : Bytes) : Bytes :=
  bs.map lowerByte

def hexDigitValue (b : UInt8) : Nat :=
  if isDigit b then b.toNat - 0x30
  else if isLower b then b.toNat - 0x61 + 10
  else b.toNat - 0x41 + 10

def hexValue (digits : Bytes) : Nat :=
  digits.foldl (fun value b => value * 16 + hexDigitValue b) 0

def decimalValue (digits : Bytes) : Nat :=
  digits.foldl (fun value b => value * 10 + (b.toNat - 0x30)) 0

def decimal (n : Nat) : Bytes :=
  if n < 10 then [UInt8.ofNat (0x30 + n)]
  else decimal (n / 10) ++ [UInt8.ofNat (0x30 + n % 10)]
termination_by n

/-- The lower-case hexadecimal digits of a byte, without a leading zero. -/
def hexDigits (b : UInt8) : Bytes :=
  if b < 0x10 then [digit b.toNat]
  else [digit (b.toNat / 16), digit (b.toNat % 16)]
where
  digit (n : Nat) : UInt8 :=
    if n < 10 then UInt8.ofNat (0x30 + n) else UInt8.ofNat (0x57 + n)

/-!
## Splitting

A scanner takes bytes from the front and leaves a suffix. A suffix that is kept beside the
whole text tells how much was taken.
-/

/-- Equality of texts, which takes no time when both are the same object. -/
def sameText (xs ys : Bytes) : Bool :=
  withPtrEq xs ys (fun _ => xs == ys) fun h => beq_iff_eq.mpr h

/-- The bytes of a text that come before its suffix `rest`. -/
def upTo (rest : Bytes) : Bytes → Bytes
  | [] => []
  | b :: bs => if sameText (b :: bs) rest then [] else b :: upTo rest bs

theorem sameText_iff {xs ys : Bytes} : sameText xs ys = true ↔ xs = ys :=
  beq_iff_eq

theorem upTo_append_of_suffix {rest whole : Bytes} (h : rest <:+ whole) :
    upTo rest whole ++ rest = whole := by
  induction whole with
  | nil =>
      simp [List.suffix_nil.mp h, upTo]
  | cons b bs ih =>
      by_cases heq : b :: bs = rest
      · subst heq
        simp [upTo, sameText_iff]
      · have hne : sameText (b :: bs) rest = false := by
          simpa using mt sameText_iff.mp heq
        rcases List.suffix_cons_iff.mp h with h | h
        · exact absurd h.symm heq
        · simp [upTo, hne, ih h]

theorem suffix_of_suffix_cons {b : UInt8} {bs rest : Bytes} (h : rest <:+ b :: bs)
    (hlt : rest.length < (b :: bs).length) : rest <:+ bs := by
  rcases List.suffix_cons_iff.mp h with rfl | h
  · exact absurd hlt (Nat.lt_irrefl _)
  · exact h

end CssText
