import CssText.Bytes
import CssText.Text.Utf8

/-!
# Escapes

A backslash puts a byte into a name, a string or an address that could not stand there
otherwise, either the byte itself or the hexadecimal number of a character. The first half reads
escapes, the second writes payloads with whatever would end or break them escaped.
-/

namespace CssText
namespace Escape

/-!
## Reading

One blank after a hexadecimal escape belongs to it, so that a digit may follow the escape.
-/

/-- A backslash begins an escape unless a newline, a zero byte or the end follows it. -/
def starts : Bytes → Bool
  | b :: c :: _ => b = Byte.backslash && c ≠ Byte.newline && c ≠ 0
  | _ => false

def dropBlank : Bytes → Bytes
  | [] => []
  | b :: bs => if isBlank b then bs else b :: bs

/--
Read one escape, its backslash already taken: up to six hexadecimal digits name a
character, any other byte stands for itself.
-/
def read : Bytes → Bytes × Bytes
  | [] => (Utf8.replacement, [])
  | b :: bs =>
      if isHexDigit b then
        let more := (bs.take 5).takeWhile isHexDigit
        (Utf8.encode (hexValue (b :: more)), dropBlank (bs.drop more.length))
      else
        ([b], bs)

theorem dropBlank_suffix (bs : Bytes) : dropBlank bs <:+ bs := by
  cases bs with
  | nil =>
      exact List.suffix_refl []
  | cons b bs =>
      simp only [dropBlank]
      split
      · exact List.suffix_cons b bs
      · exact List.suffix_refl _

theorem read_suffix (bs : Bytes) : (read bs).2 <:+ bs := by
  cases bs with
  | nil =>
      exact List.suffix_refl []
  | cons b bs =>
      simp only [read]
      split
      · exact ((dropBlank_suffix _).trans (List.drop_suffix _ bs)).trans (List.suffix_cons b _)
      · exact List.suffix_cons b bs

/-!
## Writing

A hexadecimal escape is always closed by a space. A zero byte has no escape that gives it
back: the number zero is read as the replacement character.
-/

def hex (b : UInt8) : Bytes :=
  Byte.backslash :: hexDigits b ++ [Byte.space]

def nameByte (b : UInt8) : Bytes :=
  if isNameByte b then [b]
  else if isControl b || isBlank b then hex b
  else [Byte.backslash, b]

/-- A name that goes on: its bytes need no regard to what came before. -/
def name (bs : Bytes) : Bytes :=
  bs.flatMap nameByte

/--
A name that has to begin an identifier: a digit in front, or after a hyphen in front,
would begin a number, and a lone hyphen would be no name.
-/
def identifier : Bytes → Bytes
  | [] => []
  | [b] =>
      if isDigit b then hex b
      else if b = Byte.hyphen then [Byte.backslash, b]
      else nameByte b
  | b :: c :: bs =>
      if isDigit b then hex b ++ name (c :: bs)
      else if b = Byte.hyphen && isDigit c then b :: hex c ++ name bs
      else nameByte b ++ name (c :: bs)

def stringByte (b : UInt8) : Bytes :=
  if b = Byte.doubleQuote || b = Byte.backslash then [Byte.backslash, b]
  else if b = Byte.newline || b = Byte.carriageReturn || b = Byte.formFeed then hex b
  else [b]

def string (bs : Bytes) : Bytes :=
  bs.flatMap stringByte

def urlByte (b : UInt8) : Bytes :=
  if isBlank b || isControl b then hex b
  else if b = Byte.doubleQuote || b = Byte.singleQuote || b = Byte.leftParen ||
      b = Byte.rightParen || b = Byte.backslash then
    [Byte.backslash, b]
  else [b]

def url (bs : Bytes) : Bytes :=
  bs.flatMap urlByte

/-- A unit such as `e3` or `E-5` would be read as the exponent of its number. -/
def looksLikeExponent : Bytes → Bool
  | b :: c :: bs =>
      (b = Byte.lowerE || b = Byte.upperE) &&
        (isDigit c || ((c = Byte.plus || c = Byte.hyphen) && (bs.head?.map isDigit).getD false))
  | _ => false

def unit (bs : Bytes) : Bytes :=
  match bs with
  | [] => []
  | b :: rest => if looksLikeExponent bs then hex b ++ name rest else identifier bs

end Escape
end CssText
