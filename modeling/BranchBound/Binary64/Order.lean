import BranchBound.Binary64.Basic

namespace BranchBound.Binary64

/-- Place in the IEEE 754 total order: all with the sign bit by falling magnitude, then the others. So
`-0` is just below `0`, and a NaN lies below or above every number by its sign. -/
def rank (x : Binary64) : Int := if x.isNegative then -x.magnitude - 1 else x.magnitude

def totalCompare (x y : Binary64) : Ordering := compare (rank x) (rank y)

/-- The greater number. A NaN yields to the other operand, and of two zeros the first is kept. -/
def larger (x y : Binary64) : Binary64 :=
  if x.isNaN then y else if x < y then y else x

def smaller (x y : Binary64) : Binary64 :=
  if x.isNaN then y else if y < x then y else x

def least (xs : List Binary64) : Binary64 := xs.foldl smaller infinity

end BranchBound.Binary64
