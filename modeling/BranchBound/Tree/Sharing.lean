import BranchBound.Tree.State

namespace BranchBound.Tree

variable {σ α : Type} [Solver σ] {cmp : NodeOrder}

def onWarmStart (id : Handle) (missing : Fault)
    (act : EStateM ShareError (WarmStart (Solver.Basis σ)) α) : TreeM σ cmp α := do
  let n ← read (·.node id)
  match n.role.warmStart? with
  | none => throw (.fault missing)
  | some w =>
      match act w with
      | .ok a w => do
          setNode id { n with role := n.role.withWarmStart w }
          return a
      | .error e w => do
          setNode id { n with role := n.role.withWarmStart w }
          throw (.fault (.share e))

def releaseShare (fork : Handle) : TreeM σ cmp Unit := do
  if let some b ← onWarmStart fork (.noWarmStart fork) WarmStart.release then
    returnBasis b
    count fun s => { s with basesFreed := s.basesFreed + 1 }
    record (.basisFreed fork)

def surrenderShare (id : Handle) : TreeM σ cmp Unit := do
  let n ← read (·.node id)
  setNode id { n with share := none }
  if let some fork := n.share then releaseShare fork

def handShares (fork : Handle) : TreeM σ cmp Unit := do
  (← get).children.forM fun c => updateNode c ({ · with share := some fork })

end BranchBound.Tree
