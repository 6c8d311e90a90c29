import BranchBound.Tree.State

namespace BranchBound

def swapRemove {α : Type} (xs : List α) (i : Nat) : List α :=
  match xs.getLast? with
  | some x => (xs.set i x).dropLast
  | none => []

namespace Tree

variable {σ : Type} [Solver σ] {cmp : NodeOrder}

def moveTo (pos : Nat) (id : Handle) : TreeM σ cmp Unit := do
  let n ← read (·.node id)
  match n.role with
  | .child _ => setNode id { n with role := .child pos }
  | .sibling _ => setNode id { n with role := .sibling pos }
  | _ => throw (.fault (.lostRole id))

def unstage (id : Handle) (which : Staging) (pos : Nat) : TreeM σ cmp Unit := do
  let t ← get
  if (t.staged which)[pos]? ≠ some id then throw (.fault (.misplaced id pos which))
  let rest := swapRemove (t.staged which) pos
  set (t.withStaged rest which)
  if let some moved := rest[pos]? then moveTo pos moved

def stagedPos (t : Tree σ cmp) (id : Handle) : Except TreeError Nat := do
  match (← t.node id).role.staged? with
  | some (_, pos) => return pos
  | none => throw (.fault (.notStaged id))

def queueLeaf (id : Handle) : TreeM σ cmp Unit := do
  let n ← read (·.node id)
  let n := { n with role := .leaf, log := n.log.close }
  setNode id n
  modify fun t => { t with frontier := t.frontier.insert id n.key }

def flush (which : Staging) : TreeM σ cmp Unit := do
  let ids := (← get).staged which
  modify (·.withStaged [] which)
  ids.forM queueLeaf

end Tree

end BranchBound
