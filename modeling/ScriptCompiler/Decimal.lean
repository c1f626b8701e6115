import ScriptCompiler.Binary64

/-!
# Decimals

A decimal is read by its leading digits, as many as fit a 64-bit word, and a
power of ten. The digits are rounded to a binary64 number, the power of ten to
another, and the product or quotient of the two is rounded once more. A power
beyond the largest one takes several steps downwards; upwards it is out of
range.
-/

namespace ScriptCompiler

/-- Digits with a sign and a power of ten. -/
structure Decimal where
  /-- Whether there is a minus sign. -/
  negative : Bool
  /-- The digits as one number, below 2^64. -/
  digits : Nat
  /-- Power of ten that the digits are multiplied by. -/
  exponent : Int
  deriving DecidableEq, Repr

namespace Decimal

/-- Digits from here on do not fit a word. -/
def wordLimit : Nat := 18446744073709551616

/-- Digits that have been taken in. -/
structure Kept where
  /-- The digits as one number. -/
  value : Nat
  /-- How many of them were kept. -/
  kept : Nat
  /-- How many did not fit any more. -/
  dropped : Nat
  deriving DecidableEq, Repr

/-- Take in one more digit. Once one does not fit, none is kept any more. -/
def Kept.add (k : Kept) (digit : Nat) : Kept :=
  if k.dropped = 0 ∧ 10 * k.value + digit < wordLimit then
    ⟨10 * k.value + digit, k.kept + 1, 0⟩
  else { k with dropped := k.dropped + 1 }

/-- Append digits to a number as long as they fit. -/
def keep (value : Nat) (digits : List Nat) : Kept := digits.foldl Kept.add ⟨value, 0, 0⟩

/-- The decimal with the given digits before and behind the point. Every digit that is dropped
before the point stands for a factor of ten; those behind it are lost. -/
def ofDigits (negative : Bool) (whole fraction : List Nat) (exponent : Int) : Decimal :=
  let front := keep 0 whole
  let back := keep front.value fraction
  ⟨negative, back.value, exponent + front.dropped - back.kept⟩

/-- Exponent of the greatest power of ten among the binary64 numbers. -/
def greatestPower : Nat := 308

/-- The binary64 number nearest to a power of ten, which is a whole number. -/
def power (k : Nat) : Nat := Binary64.unitsOf (Binary64.magnitudeBits (Nat.pow 10 k)) >>> 1074

/-- The bits of a magnitude divided by a power of ten, in steps of the greatest one. -/
def divided (units places : Nat) : Nat :=
  if places ≤ greatestPower then Binary64.nearestBits units (power places)
  else if units = 0 then 0
  else
    divided (Binary64.unitsOf (Binary64.nearestBits units (power greatestPower)))
      (places - greatestPower)
termination_by places
decreasing_by simp only [greatestPower] at *; omega

/-- The bits of a magnitude multiplied by a power of ten, unless that is out of range. -/
def multiplied? (units places : Nat) : Option Nat :=
  if units = 0 then some 0
  else if greatestPower < places then none
  else
    let bits := Binary64.nearestBits (units * power places) 1
    if bits = 2047 <<< 52 then none else some bits

/-- The binary64 number of a decimal, unless that is out of range. -/
def toBinary64? (d : Decimal) : Option Binary64 :=
  let units := Binary64.unitsOf (Binary64.magnitudeBits d.digits)
  let bits := if d.exponent < 0 then some (divided units d.exponent.natAbs)
    else multiplied? units d.exponent.natAbs
  bits.map (Binary64.ofMagnitude d.negative)

end Decimal

end ScriptCompiler
