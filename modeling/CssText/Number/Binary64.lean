/-!
# Binary floating point

Numbers of a style sheet are kept as IEEE 754 double precision values, held by their
bits so that rounding is exact natural arithmetic. A quotient is rounded to the nearest
value, a tie to the one with the even significand; what is too large is infinite.
Comparison is the numeric one: the zeros are equal and no value equals a NaN.
-/

namespace CssText

structure Binary64 where
  bits : UInt64
  deriving DecidableEq

namespace Binary64

def zero : Binary64 :=
  ⟨0⟩

instance : Inhabited Binary64 :=
  ⟨zero⟩

def magnitude (x : Binary64) : Nat :=
  x.bits.toNat % Nat.pow 2 63

/-- The bits of positive infinity; greater magnitudes are NaNs. -/
def infinite : Nat :=
  0x7FF * Nat.pow 2 52

def isNaN (x : Binary64) : Bool :=
  infinite < x.magnitude

def same (x y : Binary64) : Bool :=
  !x.isNaN && !y.isNaN && (x.bits == y.bits || (x.magnitude == 0 && y.magnitude == 0))

instance : BEq Binary64 :=
  ⟨same⟩

def ofMagnitude (negative : Bool) (magnitude : Nat) : Binary64 :=
  ⟨UInt64.ofNat (if negative then Nat.pow 2 63 + magnitude else magnitude)⟩

/-!
## Rounding
-/

/-- The quotient of two numbers, to the nearest integer and from a tie to the even one. -/
def roundQuotient (num den : Nat) : Nat :=
  let q := num / den
  let r := num % den
  if den < 2 * r || (2 * r = den && q % 2 = 1) then q + 1 else q

/-- The greatest `e` with `2 ^ e ≤ num / den`, for positive numbers. -/
def exponentOfQuotient (num den : Nat) : Int :=
  let e : Int := (Nat.log2 num : Int) - (Nat.log2 den : Int)
  if num * Nat.pow 2 (-e).toNat < den * Nat.pow 2 e.toNat then e - 1 else e

def magnitudeOfQuotient (num den : Nat) : Nat :=
  let unit : Int := max (-1074) (exponentOfQuotient num den - 52)
  let significand :=
    roundQuotient (num * Nat.pow 2 (-unit).toNat) (den * Nat.pow 2 unit.toNat)
  min infinite ((unit + 1074).toNat * Nat.pow 2 52 + significand)

/--
The value nearest to `± coefficient * 10 ^ exponent`, where the coefficient has `digits`
decimal digits. Outside the tested range the answer is infinite or zero whatever the
coefficient is, so the power of ten is not computed there.
-/
def ofDecimal (negative : Bool) (coefficient digits : Nat) (exponent : Int) : Binary64 :=
  ofMagnitude negative <|
    if coefficient = 0 then 0
    else if 310 < (digits : Int) + exponent then infinite
    else if (digits : Int) + exponent < -330 then 0
    else
      magnitudeOfQuotient (coefficient * Nat.pow 10 exponent.toNat)
        (Nat.pow 10 (-exponent).toNat)

end Binary64
end CssText
