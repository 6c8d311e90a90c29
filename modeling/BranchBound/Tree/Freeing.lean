import BranchBound.Tree.Sharing
import BranchBound.Tree.Staging

namespace BranchBound.Tree

variable {σ : Type} [Solver σ] {cmp : NodeOrder}

def takeNode (id : Handle) : TreeM σ cmp (Node σ) := do
  let t ← get
  match t.nodes.erase id with
  | none => throw (.unknownNode id)
  | some (n, nodes) =>
      set { t with nodes := nodes, root := if t.root = some id then none else t.root }
      count fun s => { s with freed := s.freed + 1 }
      return n

def checkBasisGone (id : Handle) (r : Role σ) : TreeM σ cmp Unit := do
  if let some b := r.warmStart?.bind WarmStart.basis then
    returnBasis b
    throw (.fault (.freedShared id))

/-- Counts a freed child off at its parent. True if the parent has to go, too: it lost its last
child off the path. The children of the active node are not counted yet. -/
def countOff (parent id : Handle) : TreeM σ cmp Bool := do
  let p ← read (·.node parent)
  match p.role.openChildren?, p.role with
  | some (k + 1), r => do
      setNode parent { p with role := r.withOpenChildren k }
      return k = 0 && !p.onPath
  | none, .active => return false
  | _, _ => throw (.fault (.noChildLeft parent id))

def freeOne (id : Handle) : TreeM σ cmp (Option Handle) := do
  let n ← takeNode id
  if let some fork := n.share then releaseShare fork
  checkBasisGone id n.role
  record (.freed id)
  match n.parent with
  | some parent => return if ← countOff parent id then some parent else none
  | none => return none

/-- Frees a node with `depth` proper ancestors, and the ancestors that this leaves childless off
the path. -/
def freeUpwards : (depth : Nat) → Handle → TreeM σ cmp Unit
  | 0, id => discard (freeOne id)
  | depth + 1, id => do
      if let some parent ← freeOne id then freeUpwards depth parent

def dismiss (id : Handle) : TreeM σ cmp Unit := do
  let n ← read (·.node id)
  if let some (which, pos) := n.role.staged? then unstage id which pos
  freeUpwards n.depth id

def doomed (t : Tree σ cmp) (cutoff : Binary64) : List Handle → Except TreeError (List Handle)
  | [] => .ok []
  | id :: ids => do
      let n ← t.node id
      let rest ← t.doomed cutoff ids
      return if n.canPrune cutoff then id :: rest else rest

def prune (cutoff : Binary64) : TreeM σ cmp Nat := do
  let leaves ← modifyGet fun t =>
    let (leaves, rest) := t.frontier.drain fun k => cutoff ≤ k.lowerBound
    (leaves, { t with frontier := rest })
  let staged ← read fun t => t.doomed cutoff (t.children ++ t.siblings)
  let all := leaves ++ staged
  all.forM dismiss
  unless all.isEmpty do record (.pruned all.length cutoff)
  return all.length

def freeMisuse? (id : Handle) (n : Node σ) : Option Misuse :=
  if n.onPath then some (.freeOnPath id)
  else
    match n.role with
    | .active => some (.freeActive id)
    | .junction _ | .fork _ | .subroot _ =>
        if n.role.isExhausted then none else some (.freeParent id n.role.openChildren?)
    | _ => none

def free (id : Handle) : TreeM σ cmp Unit := do
  let n ← read (·.node id)
  if let some m := freeMisuse? id n then throw (.misuse m)
  if n.role.name = .leaf then
    modify fun t => { t with frontier := (t.frontier.remove id).2 }
  dismiss id

end BranchBound.Tree
