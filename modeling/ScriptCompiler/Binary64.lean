/-!
# Binary64 numbers by their bits

Number constants are kept as IEEE-754 binary64 bit patterns and never as
machine floats, so equality is equality of bits: the two zeros differ and a
NaN equals itself. Rounding is to the nearest number, a tie going to the even
one. The least positive number, 2^-1074, is the unit in which magnitudes are
measured where they need not be whole.
-/

namespace ScriptCompiler

/-- A binary64 number, given by its bits. -/
structure Binary64 where
  /-- Sign, eleven exponent bits and fifty-two fraction bits. -/
  bits : UInt64
  deriving DecidableEq, Hashable, Repr

namespace Binary64

/-- `n / d` rounded to the nearest integer, a tie going to the even one. -/
def roundQuotient (n d : Nat) : Nat :=
  let quotient := n / d
  let rest := n % d
  if d < 2 * rest ∨ (2 * rest = d ∧ quotient % 2 = 1) then quotient + 1 else quotient

@[simp] theorem roundQuotient_one (n : Nat) : roundQuotient n 1 = n := by
  simp [roundQuotient, Nat.mod_one]

/-- The bits of the binary64 number nearest to `n`, without a sign. A significand that rounds up
to the next power of two carries into the exponent. -/
def magnitudeBits (n : Nat) : Nat :=
  if n = 0 then 0
  else
    let top := n.log2
    if 1023 < top then 2047 <<< 52
    else
      let significand := if top ≤ 52 then n <<< (52 - top) else roundQuotient n (1 <<< (top - 52))
      (top + 1023) <<< 52 + (significand - 1 <<< 52)

/-- The bits of the binary64 number nearest to `n / d` units, without a sign. Numbers of one
exponent are a power of two of units apart. A significand that rounds up to the next power of two
carries into the exponent, and the largest exponent is that of infinity. -/
def nearestBits (n d : Nat) : Nat :=
  let shift := (n / d).log2 - 52
  min (shift <<< 52 + roundQuotient n (d <<< shift)) (2047 <<< 52)

/-- Number of units in the finite magnitude with the given bits. -/
def unitsOf (bits : Nat) : Nat :=
  let exponent := bits >>> 52
  let fraction := bits % (1 <<< 52)
  if exponent = 0 then fraction else (fraction + 1 <<< 52) <<< (exponent - 1)

/-- A magnitude with a sign. -/
def ofMagnitude (negative : Bool) (bits : Nat) : Binary64 :=
  ⟨UInt64.ofNat (bits + if negative then 1 <<< 63 else 0)⟩

/-- The binary64 number nearest to an integer, ties to even; zero is positive. -/
def ofInt (z : Int) : Binary64 := ofMagnitude (z < 0) (magnitudeBits z.natAbs)

/-- The absolute value with its fraction dropped, reading the two non-finite exponents as if they
were finite. -/
def truncatedMagnitude (v : Binary64) : Nat :=
  let raw := v.bits.toNat
  let exponent := raw >>> 52 % 2048
  let fraction := raw % (1 <<< 52)
  if exponent = 0 then 0
  else
    let significand := fraction + 1 <<< 52
    if 1075 ≤ exponent then significand <<< (exponent - 1075)
    else significand >>> (1075 - exponent)

/-- The signed 32-bit integer whose image is `v`, if there is one. -/
def toInt32? (v : Binary64) : Option Int :=
  let magnitude : Int := v.truncatedMagnitude
  let candidate := if 1 <<< 63 ≤ v.bits.toNat then -magnitude else magnitude
  if -2147483648 ≤ candidate ∧ candidate ≤ 2147483647 ∧ ofInt candidate = v then some candidate
  else none

end Binary64

end ScriptCompiler
