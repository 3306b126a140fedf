import CssText.Bytes
import CssText.Number.Binary64

/-!
# Numerals

The number texts of the grammar: an optional sign, digits with an optional fraction or a
fraction alone, and an optional exponent. `Numeral.scan?` takes the longest numeral at the
front of a text. A point or an exponent letter belongs to it only if digits follow, so
`1.` and `1e` leave the point and the letter to the next token.
-/

namespace CssText

structure Exponent where
  /-- The letter as written, in either case. -/
  letter : UInt8
  /-- Empty, a plus or a hyphen. -/
  sign : Bytes
  digits : Bytes
  deriving DecidableEq

structure Numeral where
  /-- Empty, a plus or a hyphen. -/
  sign : Bytes
  whole : Bytes
  /-- The digits after the point; empty when there is no point. -/
  fraction : Bytes
  exponent : Option Exponent
  deriving DecidableEq

namespace Exponent

def text (e : Exponent) : Bytes :=
  e.letter :: e.sign ++ e.digits

def value (e : Exponent) : Int :=
  if e.sign = [Byte.hyphen] then -(decimalValue e.digits : Int) else decimalValue e.digits

end Exponent

namespace Numeral

def text (n : Numeral) : Bytes :=
  n.sign ++ n.whole ++
    (if n.fraction.isEmpty then [] else Byte.dot :: n.fraction) ++
    (n.exponent.map Exponent.text).getD []

def isInteger (n : Numeral) : Bool :=
  n.fraction.isEmpty && n.exponent.isNone

def value (n : Numeral) : Binary64 :=
  let digits := (n.whole ++ n.fraction).dropWhile (· == Byte.zero)
  let exponent := (n.exponent.map Exponent.value).getD 0
  Binary64.ofDecimal (n.sign = [Byte.hyphen]) (decimalValue digits) digits.length
    (exponent - n.fraction.length)

/-!
## Scanning
-/

def scanSign : Bytes → Bytes × Bytes
  | [] => ([], [])
  | b :: bs => if b = Byte.plus || b = Byte.hyphen then ([b], bs) else ([], b :: bs)

def scanDigits (bs : Bytes) : Bytes × Bytes :=
  (bs.takeWhile isDigit, bs.dropWhile isDigit)

/-- A point and the digits after it, if there are any. -/
def scanFraction : Bytes → Bytes × Bytes
  | [] => ([], [])
  | b :: bs =>
      if b = Byte.dot && !(scanDigits bs).1.isEmpty then scanDigits bs else ([], b :: bs)

def scanExponent : Bytes → Option Exponent × Bytes
  | [] => (none, [])
  | b :: bs =>
      let sign := scanSign bs
      let digits := scanDigits sign.2
      if (b = Byte.lowerE || b = Byte.upperE) && !digits.1.isEmpty then
        (some ⟨b, sign.1, digits.1⟩, digits.2)
      else
        (none, b :: bs)

def scan? (bs : Bytes) : Option (Numeral × Bytes) :=
  let sign := scanSign bs
  let whole := scanDigits sign.2
  let fraction := scanFraction whole.2
  let exponent := scanExponent fraction.2
  if whole.1.isEmpty && fraction.1.isEmpty then none
  else some (⟨sign.1, whole.1, fraction.1, exponent.1⟩, exponent.2)

/-!
## What scanning leaves

Every part of a numeral leaves a suffix, and a numeral takes at least one byte.
-/

theorem scanSign_suffix (bs : Bytes) : (scanSign bs).2 <:+ bs := by
  cases bs with
  | nil =>
      exact List.suffix_refl []
  | cons b bs =>
      simp only [scanSign]
      split
      · exact List.suffix_cons b bs
      · exact List.suffix_refl _

theorem scanDigits_append (bs : Bytes) : (scanDigits bs).1 ++ (scanDigits bs).2 = bs :=
  List.takeWhile_append_dropWhile

theorem scanDigits_suffix (bs : Bytes) : (scanDigits bs).2 <:+ bs :=
  List.dropWhile_suffix isDigit

theorem scanFraction_suffix (bs : Bytes) : (scanFraction bs).2 <:+ bs := by
  cases bs with
  | nil =>
      exact List.suffix_refl []
  | cons b bs =>
      simp only [scanFraction]
      split
      · exact (scanDigits_suffix bs).trans (List.suffix_cons b _)
      · exact List.suffix_refl _

theorem scanExponent_suffix (bs : Bytes) : (scanExponent bs).2 <:+ bs := by
  cases bs with
  | nil =>
      exact List.suffix_refl []
  | cons b bs =>
      simp only [scanExponent]
      split
      · exact ((scanDigits_suffix _).trans (scanSign_suffix bs)).trans (List.suffix_cons b _)
      · exact List.suffix_refl _

theorem length_scanFraction_lt {bs : Bytes} (h : (scanFraction bs).1 ≠ []) :
    (scanFraction bs).2.length < bs.length := by
  cases bs with
  | nil =>
      exact absurd rfl h
  | cons b bs =>
      simp only [scanFraction] at h ⊢
      split
      · exact Nat.lt_succ_of_le (scanDigits_suffix bs).length_le
      · rename_i hb
        simp [hb] at h

theorem scan?_suffix {bs rest : Bytes} {n : Numeral} (h : scan? bs = some (n, rest)) :
    rest <:+ bs := by
  simp only [scan?] at h
  split at h
  · cases h
  · obtain ⟨-, rfl⟩ := Prod.mk.inj (Option.some.inj h)
    exact (scanExponent_suffix _).trans <| (scanFraction_suffix _).trans <|
      (scanDigits_suffix _).trans (scanSign_suffix bs)

theorem length_lt_of_scan? {bs rest : Bytes} {n : Numeral} (h : scan? bs = some (n, rest)) :
    rest.length < bs.length := by
  have hs := (scanSign_suffix bs).length_le
  have hw := (scanDigits_suffix (scanSign bs).2).length_le
  have hf := (scanFraction_suffix (scanDigits (scanSign bs).2).2).length_le
  have he := (scanExponent_suffix (scanFraction (scanDigits (scanSign bs).2).2).2).length_le
  simp only [scan?] at h
  split at h
  · cases h
  · rename_i hne
    obtain ⟨-, rfl⟩ := Prod.mk.inj (Option.some.inj h)
    by_cases hw' : (scanDigits (scanSign bs).2).1 = []
    · have hf' : (scanFraction (scanDigits (scanSign bs).2).2).1 ≠ [] := by
        simpa [hw'] using hne
      have := length_scanFraction_lt hf'
      omega
    · have := List.length_pos_iff.mpr hw'
      have := congrArg List.length (scanDigits_append (scanSign bs).2)
      simp only [List.length_append] at this
      omega

end Numeral
end CssText
