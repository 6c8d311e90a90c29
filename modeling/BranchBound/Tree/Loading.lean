import BranchBound.Tree.Activation

namespace BranchBound

inductive LoadResult
  | loaded
  | alreadyLoaded
  | cutoff
deriving DecidableEq, Repr

namespace Tree

variable {σ : Type} [Solver σ] {cmp : NodeOrder}

def replaySnapshot (s : Snapshot σ) : TreeM σ cmp Unit := do
  onLp (Relaxation.extend s.columns s.rows)
  count fun st => { st with
    replayedColumns := st.replayedColumns + s.columns.length
    replayedRows := st.replayedRows + s.rows.length }

/-- Rebuilds the relaxation from the nearest Subroot, or from nothing. The result is the first depth
that still has to be replayed. -/
def rebuild : TreeM σ cmp Nat := do
  onLp Relaxation.clear
  count fun s => { s with fullReloads := s.fullReloads + 1 }
  match (← get).subroot with
  | none => do
      record .rebuiltFromScratch
      return 0
  | some id => do
      let n ← read (·.node id)
      match n.role with
      | .subroot s => do
          record (.rebuilt id s.columns.length s.rows.length)
          replaySnapshot s
          return n.depth + 1
      | _ => throw (.fault (.noSnapshot id))

/-- Replays the Forks of a stretch of the path, its first `skip` nodes aside. A Subroot on the way
starts the replay anew from there. -/
def replay : (skip : Nat) → List Handle → TreeM σ cmp Unit
  | _, [] => return
  | skip + 1, _ :: ids => replay skip ids
  | 0, id :: ids => do
      let n ← read (·.node id)
      match n.role with
      | .fork s => do
          record (.replayed id s.columns.length s.rows.length)
          replaySnapshot s
          replay 0 ids
      | .subroot _ => do
          let next ← rebuild
          if next ≤ n.depth then throw (.fault (.replayStuck n.depth))
          replay (next - (n.depth + 1)) ids
      | _ => replay 0 ids

def rewind : TreeM σ cmp Nat := do
  match (← get).correctDepth with
  | some depth => do
      let size ← read (·.pathSize depth)
      record (.shrunk depth size)
      onLp (Relaxation.shrink size)
      return depth + 1
  | none => rebuild

def lpForkDepth (t : Tree σ cmp) : Except TreeError (Option Nat) :=
  match t.lpFork with
  | some id => do return some (← t.node id).depth
  | none => .ok none

def rebuildPath (target : Option Nat) : TreeM σ cmp Unit := do
  let start ← rewind
  if let some depth := target then
    replay start ((← get).path.take (depth + 1))
  modify ({ · with correctDepth := target })

def expectedSize (t : Tree σ cmp) : Option Nat → Except TreeError Extent
  | some depth => t.pathSize depth
  | none => .ok .zero

def installBasis : TreeM σ cmp Unit := do
  if let some fork := (← get).lpFork then
    if let some b := (← read (·.node fork)).role.warmStart?.bind WarmStart.basis then
      onSolver (Solver.setBasis b)

def loadActive (active : Handle) : TreeM σ cmp Unit := do
  let before := (← get).lp.size
  let target ← read lpForkDepth
  rebuildPath target
  let after := (← get).lp.size
  let expected ← read (·.expectedSize target)
  if after ≠ expected then throw (.fault (.outOfSync after expected))
  -- A column may now stand for another variable.
  if after ≠ before then modify fun t => { t with domains := t.domains.touchAll }
  installBasis
  surrenderShare active
  modify fun t => { t with focus := { t.focus with isLoaded := true } }
  count fun s => { s with loads := s.loads + 1 }
  record (.loaded active before after)

def load : TreeM σ cmp LoadResult := do
  let t ← get
  match t.active, t.focus with
  | none, _ => throw (.misuse .nothingToLoad)
  | some _, ⟨true, _, _⟩ => return .alreadyLoaded
  | some active, ⟨false, _, some v⟩ => do
      record (.loadSkipped active v)
      surrenderShare active
      return .cutoff
  | some active, ⟨false, _, none⟩ => do
      loadActive active
      return .loaded

end Tree

end BranchBound
