/-!
# Byte strings with little-endian immediates

Code and notes are arrays of bytes. Immediates are stored low byte first.
Reading answers `none` when a byte is missing; writing is total and leaves
positions past the end alone, so callers check the bounds first.
-/

namespace ScriptCompiler

/-- A run of bytes: the code of a section or an encoded note stream. -/
abbrev Bytes := Array UInt8

namespace Bytes

/-- The unsigned 16-bit value at `i`. -/
def u16? (b : Bytes) (i : Nat) : Option Nat := do
  let lo ← b[i]?
  let hi ← b[i + 1]?
  return lo.toNat + 256 * hi.toNat

/-- The signed 16-bit value at `i`. -/
def i16? (b : Bytes) (i : Nat) : Option Int := (u16? b i).map fun n => Int.bmod n 65536

/-- The signed 32-bit value at `i`. -/
def i32? (b : Bytes) (i : Nat) : Option Int := do
  let lo ← u16? b i
  let hi ← u16? b (i + 2)
  return Int.bmod (lo + 65536 * hi : Nat) 4294967296

/-- The two bytes of `n`, taken modulo 2^16. -/
def le16 (n : Nat) : Bytes := #[UInt8.ofNat n, UInt8.ofNat (n / 256)]

/-- The four bytes of `n`, taken modulo 2^32. -/
def le32 (n : Nat) : Bytes :=
  #[UInt8.ofNat n, UInt8.ofNat (n / 256), UInt8.ofNat (n / 65536), UInt8.ofNat (n / 16777216)]

/-- Whether an integer fits a signed 16-bit field. -/
def fits16 (z : Int) : Bool := -32768 ≤ z && z ≤ 32767

/-- Whether an integer fits a signed 32-bit field. -/
def fits32 (z : Int) : Bool := -2147483648 ≤ z && z ≤ 2147483647

/-- The 16-bit two's complement image of an integer. -/
def image16 (z : Int) : Nat := (z % 65536).toNat

/-- The 32-bit two's complement image of an integer. -/
def image32 (z : Int) : Nat := (z % 4294967296).toNat

/-- Overwrite the two bytes at `i` with `n`. -/
def setU16 (b : Bytes) (i n : Nat) : Bytes :=
  (b.setIfInBounds i (UInt8.ofNat n)).setIfInBounds (i + 1) (UInt8.ofNat (n / 256))

/-- Overwrite the four bytes at `i` with `n`. -/
def setU32 (b : Bytes) (i n : Nat) : Bytes := setU16 (setU16 b i n) (i + 2) (n / 65536)

/-- Copy the `count` bytes from `src` on to `dst` on, last byte first, so that a copy to a higher
position reads every byte before it is overwritten. -/
def copyUp (b : Bytes) (src dst : Nat) : Nat → Bytes
  | 0 => b
  | count + 1 =>
    let moved := match b[src + count]? with
      | some byte => b.setIfInBounds (dst + count) byte
      | none => b
    copyUp moved src dst count

@[simp] theorem size_setU16 (b : Bytes) (i n : Nat) : (setU16 b i n).size = b.size := by
  simp [setU16]

@[simp] theorem size_setU32 (b : Bytes) (i n : Nat) : (setU32 b i n).size = b.size := by
  simp [setU32]

@[simp] theorem size_copyUp (b : Bytes) (src dst count : Nat) :
    (copyUp b src dst count).size = b.size := by
  induction count generalizing b with
  | zero => rfl
  | succ count ih =>
    simp only [copyUp]
    rw [ih]
    split <;> simp

end Bytes

end ScriptCompiler
