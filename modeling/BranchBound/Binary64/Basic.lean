namespace BranchBound

/-- A number of double precision. It is kept as its 64 bits, so that a NaN has a sign and a payload. -/
structure Binary64 where
  bits : UInt64
deriving DecidableEq

namespace Binary64

open Float.Model (UnpackedFloat)

def value (x : Binary64) : UnpackedFloat := .unpack .binary64 x.bits.toBitVec

def toFloat (x : Binary64) : Float := .ofBits x.bits

def ofFloat (x : Float) : Binary64 := ⟨x.toBits⟩

instance (n : Nat) : OfNat Binary64 n := ⟨.ofFloat (OfNat.ofNat n)⟩

instance : OfScientific Binary64 := ⟨fun m s e => .ofFloat (OfScientific.ofScientific m s e)⟩

def signBit : UInt64 := 0x8000000000000000

def quietBit : UInt64 := 0x0008000000000000

instance : Neg Binary64 := ⟨fun x => ⟨x.bits ^^^ signBit⟩⟩

instance : Add Binary64 := ⟨fun x y => .ofFloat (x.toFloat + y.toFloat)⟩

instance : LE Binary64 := ⟨fun x y => x.value.le y.value⟩

instance : LT Binary64 := ⟨fun x y => x.value.lt y.value⟩

instance (x y : Binary64) : Decidable (x ≤ y) := inferInstanceAs (Decidable (x.value.le y.value = true))

instance (x y : Binary64) : Decidable (x < y) := inferInstanceAs (Decidable (x.value.lt y.value = true))

def isNaN (x : Binary64) : Bool := x.value.isNaN

def isInf (x : Binary64) : Bool := x.value.isInf

def isNegative (x : Binary64) : Bool := signBit ≤ x.bits

def infinity : Binary64 := ⟨0x7ff0000000000000⟩

def nan : Binary64 := ⟨0x7ff8000000000000⟩

/-- A NaN is kept, but made quiet. -/
def onNumber (f : Float → Float) (x : Binary64) : Binary64 :=
  if x.isNaN then ⟨x.bits ||| quietBit⟩ else .ofFloat (f x.toFloat)

def floor (x : Binary64) : Binary64 := x.onNumber Float.floor

def ceil (x : Binary64) : Binary64 := x.onNumber Float.ceil

def magnitude (x : Binary64) : Nat := x.bits.toNat % 0x8000000000000000

def biasedExponent (x : Binary64) : Nat := x.magnitude / 0x10000000000000

def trailing (x : Binary64) : Nat := x.magnitude % 0x10000000000000

def significand (x : Binary64) : Nat :=
  if x.biasedExponent = 0 then x.trailing else 0x10000000000000 + x.trailing

def exponent (x : Binary64) : Int := max x.biasedExponent 1 - 1075

end Binary64

end BranchBound
