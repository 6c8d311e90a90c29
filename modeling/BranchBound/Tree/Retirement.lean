import BranchBound.Tree.Sharing

namespace BranchBound.Tree

variable {σ : Type} [Solver σ] {cmp : NodeOrder}

def parentSize (t : Tree σ cmp) : (depth : Nat) → Except TreeError Extent
  | 0 => .ok .zero
  | depth + 1 => t.pathSize depth

def subrootSize (t : Tree σ cmp) : Except TreeError Extent :=
  match t.subroot with
  | some id => do t.pathSize (← t.node id).depth
  | none => .ok .zero

def setPathSize (depth : Nat) (size : Extent) : TreeM σ cmp Unit := do
  let t ← get
  if depth < t.sizes.length then set { t with sizes := t.sizes.set depth size }
  else throw (.outOfRange ⟨t.sizes.length, depth⟩)

def snapshotQuery (t : Tree σ cmp) (depth : Nat) (above : Extent) :
    Except TreeError SnapshotQuery := do
  let size := t.lp.size
  let subroot ← t.subrootSize
  return {
    depth := depth
    columns := size.columns
    rows := size.rows
    addedColumns := size.columns - above.columns
    addedRows := size.rows - above.rows
    subrootColumns := subroot.columns
    subrootRows := subroot.rows
    children := t.children.length }

def askPolicy (c : SnapshotQuery) : TreeM σ cmp Bool := do
  record (.consulted c)
  return (← get).policy c

def takeSnapshot (active : Handle) (depth : Nat) (above : Extent) : TreeM σ cmp (Role σ) := do
  let full ← askPolicy (← read (·.snapshotQuery depth above))
  let t ← get
  let (columns, rows) := t.lp.suffix (if full then .zero else above)
  let basis ← onSolver Solver.getBasis
  handShares active
  count fun s => { s with captured := s.captured + 1 }
  setPathSize depth t.lp.size
  modify fun t => { t with correctDepth := some depth, lpFork := some active }
  let n := t.children.length
  let snapshot : Snapshot σ := ⟨n, columns, rows, ⟨some basis, n⟩⟩
  if full then
    modify ({ · with subroot := some active })
    return .subroot snapshot
  else return .fork snapshot

/-- Lets the children of a Junction share in the warm start of the nearest Fork or Subroot, while
its basis is alive. -/
def forwardShares : TreeM σ cmp Unit := do
  let t ← get
  let n := t.children.length
  if let some fork := t.lpFork then
    match (← read (·.node fork)).role.warmStart? with
    | none => throw (.fault (.forkWithoutWarmStart fork))
    | some w =>
        if w.isAlive then
          onWarmStart fork (.forkWithoutWarmStart fork) (WarmStart.capture n)
          handShares fork
        else
          record (.startCold fork n)
          count fun s => { s with coldChildren := s.coldChildren + n }

/-- The role that the active node takes on when it is done. Without children it is a Deadend; with
nothing new in a solved relaxation a Junction. -/
def finalRole (active : Handle) : TreeM σ cmp (Role σ) := do
  let depth := (← read (·.node active)).depth
  let above ← read (·.parentSize depth)
  let t ← get
  let size := t.lp.size
  if t.children.isEmpty then return .deadend
  else if t.focus.isSolved ∧ (above.columns < size.columns ∨ above.rows < size.rows) then
    takeSnapshot active depth above
  else
    forwardShares
    return .junction t.children.length

def retire : TreeM σ cmp Unit := do
  if let some active := (← get).active then
    surrenderShare active
    let children := (← get).children.length
    let role ← finalRole active
    let n ← read (·.node active)
    record (.retired active n.depth role.name children)
    setNode active { n with role := role, log := n.log.close }
    modify ({ · with active := none, focus := .fresh })

end BranchBound.Tree
