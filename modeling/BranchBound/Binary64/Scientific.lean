import BranchBound.Binary64.Basic

namespace BranchBound.Binary64

/-- Quotient rounded to the nearest integer; a half goes to the even neighbour. -/
def divHalfEven (n d : Nat) : Nat :=
  if 2 * (n % d) < d ∨ 2 * (n % d) = d ∧ n / d % 2 = 0 then n / d else n / d + 1

def digitCount (n : Nat) : Nat := (Nat.toDigits 10 n).length

def tens (e : Int) : Nat := Nat.pow 10 e.toNat

def decimalExponent (n d : Nat) : Int :=
  let e : Int := digitCount n - digitCount d
  if d * tens e ≤ n * tens (-e) then e else e - 1

def scientific (places n d : Nat) : Nat × Int :=
  let e := decimalExponent n d
  let shift := places - e
  let digits := divHalfEven (n * tens shift) (d * tens (-shift))
  if digits = tens (places + 1) then (tens places, e + 1) else (digits, e)

def fraction (x : Binary64) : Nat × Nat :=
  (x.significand <<< x.exponent.toNat, 1 <<< (-x.exponent).toNat)

def padLeft (width : Nat) (s : String) : String :=
  "".pushn '0' (width - s.length) ++ s

/-- One digit, a point, `places` digits and the exponent. The digits round the exact value. -/
def renderMagnitude (places : Nat) (x : Binary64) : String :=
  let (n, d) := fraction x
  let (digits, e) := if n = 0 then (0, 0) else scientific places n d
  let lead := toString (digits / tens places)
  let rest := padLeft places (toString (digits % tens places))
  lead ++ "." ++ rest ++ "e" ++ toString e

def render (places : Nat) (x : Binary64) : String :=
  if x.isNaN then "NaN"
  else
    let sign := if isNegative x then "-" else ""
    sign ++ if x.isInf then "inf" else renderMagnitude places x

theorem divHalfEven_near (n : Nat) {d : Nat} (hd : 0 < d) :
    2 * n ≤ 2 * (d * divHalfEven n d) + d ∧ 2 * (d * divHalfEven n d) ≤ 2 * n + d := by
  have h := Nat.div_add_mod n d
  have hlt := Nat.mod_lt n hd
  unfold divHalfEven
  split
  · omega
  · rw [Nat.mul_add]; omega

end BranchBound.Binary64
