import CssText.Bytes

/-!
# UTF-8

The two directions of the encoding. `Utf8.encode` writes a scalar value; what is no
scalar value, and the number zero, it writes as the replacement character. `Utf8.decode`
reads arbitrary bytes: it keeps every well-formed sequence and puts one replacement
character for a byte that begins none, together with the continuation bytes that follow
it. No ASCII byte is ever swallowed, so a broken sequence cannot hide a delimiter.
-/

namespace CssText
namespace Utf8

/-!
## Writing

Surrogates and numbers past U+10FFFF are no scalar values.
-/

def isScalar (n : Nat) : Bool :=
  n < 0xD800 || (0xDFFF < n && n ≤ 0x10FFFF)

def encodeScalar (n : Nat) : Bytes :=
  if n < 0x80 then
    [UInt8.ofNat n]
  else if n < 0x800 then
    [UInt8.ofNat (0xC0 + n / 0x40), UInt8.ofNat (0x80 + n % 0x40)]
  else if n < 0x10000 then
    [UInt8.ofNat (0xE0 + n / 0x1000), UInt8.ofNat (0x80 + n / 0x40 % 0x40),
      UInt8.ofNat (0x80 + n % 0x40)]
  else
    [UInt8.ofNat (0xF0 + n / 0x40000), UInt8.ofNat (0x80 + n / 0x1000 % 0x40),
      UInt8.ofNat (0x80 + n / 0x40 % 0x40), UInt8.ofNat (0x80 + n % 0x40)]

def replacement : Bytes :=
  encodeScalar 0xFFFD

/-- Zero counts as unwritable too: a name never holds it. -/
def encode (n : Nat) : Bytes :=
  if n = 0 || !isScalar n then replacement else encodeScalar n

/-!
## Reading

A first byte announces how many continuation bytes belong to it and which scalar values
it may begin; a smaller value would be an overlong form.
-/

def isContinuation (b : UInt8) : Bool :=
  0x80 ≤ b && b < 0xC0

structure Lead where
  /-- How many continuation bytes follow. -/
  tail : Nat
  /-- The least scalar value that needs a sequence of this length. -/
  least : Nat
  /-- The bits of the value that the first byte carries. -/
  payload : Nat

def lead? (b : UInt8) : Option Lead :=
  if b < 0x80 then some ⟨0, 0, b.toNat⟩
  else if b < 0xC0 then none
  else if b < 0xE0 then some ⟨1, 0x80, b.toNat - 0xC0⟩
  else if b < 0xF0 then some ⟨2, 0x800, b.toNat - 0xE0⟩
  else if b < 0xF8 then some ⟨3, 0x10000, b.toNat - 0xF0⟩
  else none

def extend (value : Nat) (tail : Bytes) : Nat :=
  tail.foldl (fun value b => value * 0x40 + b.toNat % 0x40) value

/-- How many bytes follow the first one in the well-formed sequence at the front. -/
def tailLength? : Bytes → Option Nat
  | [] => none
  | b :: bs =>
      match lead? b with
      | none => none
      | some lead =>
          let tail := bs.take lead.tail
          let value := extend lead.payload tail
          if tail.length = lead.tail && tail.all isContinuation && lead.least ≤ value &&
              isScalar value then
            some lead.tail
          else
            none

def repair : Bytes → Bytes
  | [] => []
  | b :: bs =>
      match tailLength? (b :: bs) with
      | some n => b :: bs.take n ++ repair (bs.drop n)
      | none => replacement ++ repair (bs.dropWhile isContinuation)
termination_by bs => bs.length
decreasing_by
  · simp only [List.length_drop, List.length_cons]
    omega
  · have := (List.dropWhile_suffix (l := bs) isContinuation).length_le
    simp only [List.length_cons]
    omega

def byteOrderMark : Bytes :=
  encodeScalar 0xFEFF

/-- Drop one leading byte order mark and repair the rest. -/
def decode (bs : Bytes) : Bytes :=
  if byteOrderMark.isPrefixOf bs then repair (bs.drop byteOrderMark.length) else repair bs

end Utf8
end CssText
