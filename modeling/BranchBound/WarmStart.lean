namespace BranchBound

/-- A solver's basis and the number of shares in it that are still out. -/
structure WarmStart (β : Type) where
  /-- Gone once it went back to the solver. -/
  basis : Option β
  shares : Nat

inductive ShareError
  | captureFreed
  | releaseUnshared
  | freedTwice
deriving DecidableEq, Repr

namespace ShareError

def message : ShareError → String
  | captureFreed => "capture on a freed LP state"
  | releaseUnshared => "release on an LP state without references"
  | freedTwice => "LP state freed twice"

end ShareError

namespace WarmStart

variable {β : Type}

def ofBasis (b : β) : WarmStart β := ⟨some b, 0⟩

def isAlive (w : WarmStart β) : Bool := w.basis.isSome

def capture (n : Nat) : EStateM ShareError (WarmStart β) Unit := fun w =>
  if w.isAlive then .ok () { w with shares := w.shares + n } else .error .captureFreed w

/-- Takes one share back. With the last one the basis leaves, for the caller to give back. -/
def release : EStateM ShareError (WarmStart β) (Option β) := fun w =>
  if w.shares = 0 then .error .releaseUnshared w
  else if 1 < w.shares then .ok none { w with shares := w.shares - 1 }
  else
    match w.basis with
    | some b => .ok (some b) ⟨none, 0⟩
    | none => .error .freedTwice ⟨none, 0⟩

def evict (w : WarmStart β) : Option β × WarmStart β := (w.basis, ⟨none, 0⟩)

end WarmStart

end BranchBound
