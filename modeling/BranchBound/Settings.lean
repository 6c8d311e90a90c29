import BranchBound.Selection
import BranchBound.Snapshot

namespace BranchBound

structure Settings where
  selection : SelectionRule := .bestBound
  snapshot : SnapshotRule := .incremental
  /-- By how much a lower bound may exceed the upper one before the domain is empty. -/
  tol : Binary64 := 1e-9
  /-- Number of nodes to make room for. -/
  capacity : Nat := 1024
  verbose : Bool := false
  /-- A verbose tree reports every so many activations; never at zero. -/
  logEvery : Nat := 100

namespace Settings

def loud : Settings := { verbose := true, logEvery := 1 }

def reports (s : Settings) (activations : Nat) : Bool :=
  s.verbose && s.logEvery != 0 && activations % s.logEvery == 0

end Settings

end BranchBound
