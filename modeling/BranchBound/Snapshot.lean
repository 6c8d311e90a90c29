namespace BranchBound

/-- The state in which a node with children and a solved relaxation leaves the active role. -/
structure SnapshotQuery where
  depth : Nat
  columns : Nat
  rows : Nat
  addedColumns : Nat
  addedRows : Nat
  /-- Columns in the nearest complete snapshot on the path; none without one. -/
  subrootColumns : Nat
  subrootRows : Nat
  children : Nat
deriving DecidableEq, Repr

namespace SnapshotQuery

/-- Columns and rows that a descendant replays on top of the nearest complete snapshot, when this
node keeps its additions only. -/
def replayLength (c : SnapshotQuery) : Nat :=
  (c.columns - c.subrootColumns) + (c.rows - c.subrootRows)

end SnapshotQuery

abbrev SnapshotPolicy := SnapshotQuery → Bool

inductive SnapshotRule
  | incremental
  | full
  | periodic (interval : Nat)
  | replayLimit (limit : Nat)
deriving DecidableEq, Repr

namespace SnapshotRule

def policy : SnapshotRule → SnapshotPolicy
  | .incremental, _ => false
  | .full, _ => true
  | .periodic interval, c => 0 < interval && c.depth % interval == 0
  | .replayLimit limit, c => limit < c.replayLength

end SnapshotRule

end BranchBound
