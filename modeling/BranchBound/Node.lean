import BranchBound.Arena
import BranchBound.ChangeLog
import BranchBound.Relaxation
import BranchBound.Selection
import BranchBound.WarmStart

namespace BranchBound

inductive RoleName
  | child
  | sibling
  | leaf
  | active
  | deadend
  | junction
  | fork
  | subroot
deriving DecidableEq, Repr

namespace RoleName

def render : RoleName → String
  | .child => "Child"
  | .sibling => "Sibling"
  | .leaf => "Leaf"
  | .active => "Active"
  | .deadend => "Deadend"
  | .junction => "Junction"
  | .fork => "Fork"
  | .subroot => "Subroot"

def isWaiting : RoleName → Bool
  | .child | .sibling | .leaf => true
  | _ => false

end RoleName

inductive Staging
  | children
  | siblings
deriving DecidableEq, Repr

namespace Staging

def render : Staging → String
  | .children => "Children"
  | .siblings => "Siblings"

end Staging

structure Snapshot (σ : Type) [Solver σ] where
  openChildren : Nat
  columns : List (Solver.Column σ)
  rows : List (Solver.Row σ)
  warmStart : WarmStart (Solver.Basis σ)

/-- A Child or Sibling knows its place in the staging list. A Fork's snapshot holds what the node
added to the relaxation, a Subroot's the whole of it. -/
inductive Role (σ : Type) [Solver σ]
  | child (pos : Nat)
  | sibling (pos : Nat)
  | leaf
  | active
  | deadend
  | junction (openChildren : Nat)
  | fork (snapshot : Snapshot σ)
  | subroot (snapshot : Snapshot σ)

namespace Role

variable {σ : Type} [Solver σ]

def name : Role σ → RoleName
  | .child _ => .child
  | .sibling _ => .sibling
  | .leaf => .leaf
  | .active => .active
  | .deadend => .deadend
  | .junction _ => .junction
  | .fork _ => .fork
  | .subroot _ => .subroot

def staged? : Role σ → Option (Staging × Nat)
  | .child pos => some (.children, pos)
  | .sibling pos => some (.siblings, pos)
  | _ => none

def snapshot? : Role σ → Option (Snapshot σ)
  | .fork s | .subroot s => some s
  | _ => none

def warmStart? (r : Role σ) : Option (WarmStart (Solver.Basis σ)) :=
  r.snapshot?.map Snapshot.warmStart

def openChildren? : Role σ → Option Nat
  | .junction n => some n
  | .fork s | .subroot s => some s.openChildren
  | _ => none

def withOpenChildren (n : Nat) : Role σ → Role σ
  | .junction _ => .junction n
  | .fork s => .fork { s with openChildren := n }
  | .subroot s => .subroot { s with openChildren := n }
  | r => r

def withWarmStart (w : WarmStart (Solver.Basis σ)) : Role σ → Role σ
  | .fork s => .fork { s with warmStart := w }
  | .subroot s => .subroot { s with warmStart := w }
  | r => r

def isExhausted : Role σ → Bool
  | .deadend => true
  | r => r.openChildren? == some 0

/-- Size of the relaxation at a node in this role below a parent of size `above`. -/
def lpSize (above : Extent) : Role σ → Extent
  | .fork s => above.grow s.columns.length s.rows.length
  | .subroot s => ⟨s.columns.length, s.rows.length⟩
  | _ => above

end Role

structure Node (σ : Type) [Solver σ] where
  number : Nat
  parent : Option Handle
  /-- Number of proper ancestors. -/
  depth : Nat
  lowerBound : Binary64
  estimate : Binary64
  /-- Constraints that hold in this subtree only, named by their owner's numbers. -/
  constraints : List Nat
  /-- Bound changes relative to the parent. -/
  log : ChangeLog
  /-- The Fork or Subroot in whose warm start this node still has a share. -/
  share : Option Handle
  onPath : Bool
  role : Role σ

namespace Node

variable {σ : Type} [Solver σ]

def key (n : Node σ) : NodeKey := ⟨n.number, n.depth, n.lowerBound, n.estimate⟩

def canPrune (n : Node σ) (cutoff : Binary64) : Bool := cutoff ≤ n.lowerBound

/-- Bytes that a slot takes up in memory: 136 for a node and the rest for the slot's generation, in
whole words. A snapshot lies elsewhere. -/
def slotBytes : Nat := 144

def storedSize? (n : Node σ) : Option Extent :=
  n.role.snapshot?.map fun s => ⟨s.columns.length, s.rows.length⟩

end Node

end BranchBound
