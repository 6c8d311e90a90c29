import BranchBound.Tree.Activation

namespace BranchBound.Tree

variable {σ : Type} [Solver σ] {cmp : NodeOrder}

def reclaimBasis (n : Node σ) : TreeM σ cmp Unit := do
  if let some b := n.role.warmStart?.bind WarmStart.basis then
    returnBasis b
    count fun s => { s with basesFreed := s.basesFreed + 1 }

/-- Removes every node. Numbers, statistics and the policy go on. -/
def forget (t : Tree σ cmp) : Tree σ cmp := { t with
  nodes := t.nodes.clear
  root := none
  frontier := t.frontier.clear.2
  path := []
  sizes := []
  children := []
  siblings := []
  active := none
  lpFork := none
  subroot := none
  correctDepth := none
  focus := .fresh }

def clear : TreeM σ cmp Unit := do
  (← get).path.reverse.forM undoLog
  ((← get).nodes.toList.map Prod.snd).forM reclaimBasis
  modify fun t => forget { t with stats := { t.stats with freed := t.stats.freed + t.nodes.size } }
  onLp Relaxation.clear

end BranchBound.Tree
