import BranchBound.Tree.Freeing
import BranchBound.Tree.Growth
import BranchBound.Tree.Retirement

namespace BranchBound

structure Route where
  /-- The nodes to enter: the target first, then its ancestors off the path. -/
  fresh : List Handle
  /-- Depth of the nearest ancestor on the path. -/
  common : Option Nat
  /-- The nearest Fork or Subroot above the target. -/
  lpFork : Option Handle
  /-- The nearest Subroot above the target. -/
  subroot : Option Handle
deriving DecidableEq, Repr

namespace Route

def out : Route := ⟨[], none, none, none⟩

def keep (r : Route) : Nat := (r.common.map (· + 1)).getD 0

end Route

inductive Activation
  | unchanged
  | activated (id : Handle)
  | cutoff (id : Handle) (var : Nat)
  | finished
deriving DecidableEq, Repr

namespace Tree

variable {σ : Type} [Solver σ] {cmp : NodeOrder}

/-- Follows the parents from a node with `depth` proper ancestors to the first one on the path. The
list holds those off the path, the nearest first. -/
def climb (t : Tree σ cmp) :
    (depth : Nat) → Option Handle → Except TreeError (List Handle × Option Nat)
  | 0, _ | _, none => .ok ([], none)
  | depth + 1, some id => do
      let n ← t.node id
      if n.onPath then return ([], some n.depth)
      let (up, common) ← t.climb depth n.parent
      return (id :: up, common)

def nearest? (t : Tree σ cmp) (p : Role σ → Bool) :
    List Handle → Except TreeError (Option Handle)
  | [] => .ok none
  | id :: ids => do if p (← t.node id).role then return some id else t.nearest? p ids

def route (t : Tree σ cmp) (target : Handle) : Except TreeError Route := do
  let n ← t.node target
  let (up, common) ← t.climb n.depth n.parent
  let r : Route := ⟨target :: up, common, none, none⟩
  if t.path.length < r.keep then throw (.outOfRange ⟨t.path.length, r.keep - 1⟩)
  let above := up ++ (t.path.take r.keep).reverse
  let lpFork ← t.nearest? (·.snapshot?.isSome) above
  let subroot ← t.nearest? (·.name = .subroot) above
  return { r with lpFork := lpFork, subroot := subroot }

def renumberSiblings : TreeM σ cmp Unit := do
  (← get).siblings.zipIdx.forM fun (id, pos) => updateNode id ({ · with role := .sibling pos })

/-- Takes a target in the given role out of its place and moves the nodes that are no longer staged
to the frontier. The other children of the retired node become the siblings of a Child. -/
def clearTheWay (target : Handle) : RoleName → TreeM σ cmp Unit
  | .child => do
      flush .siblings
      unstage target .children (← read (·.stagedPos target))
      modify fun t => { t with children := t.siblings, siblings := t.children }
      renumberSiblings
  | .sibling => do
      flush .children
      unstage target .siblings (← read (·.stagedPos target))
  | _ => do
      flush .siblings
      flush .children
      let found ← modifyGet fun t =>
        let (found, rest) := t.frontier.remove target
        (found, { t with frontier := rest })
      unless found do record (.activatedPopped target)

def undoLog (id : Handle) : TreeM σ cmp Unit := do
  let n ← read (·.node id)
  let t ← get
  let (domains, result) := n.log.undo t.domains
  set { t with domains := domains }
  liftExcept .outOfRange result

def undoStep (id : Handle) : TreeM σ cmp Unit := do
  let n ← read (·.node id)
  record (.undone n.log.size id)
  undoLog id

/-- Drops the last node of the path, and frees it if nothing is left below it. -/
def leave (id : Handle) : TreeM σ cmp Unit := do
  modify fun t => { t with path := t.path.dropLast }
  let n ← read (·.node id)
  setNode id { n with onPath := false }
  if n.role.isExhausted then freeUpwards n.depth id

def abandon (keep : Nat) : TreeM σ cmp Unit := do
  let gone := ((← get).path.drop keep).reverse
  gone.forM undoStep
  modify fun t => { t with sizes := t.sizes.take keep }
  gone.forM leave

def enter (id : Handle) : TreeM σ cmp Unit := do
  let n ← read (·.node id)
  setNode id { n with onPath := true }
  modify fun t => { t with
    path := t.path ++ [id]
    sizes := t.sizes ++ [n.role.lpSize (t.sizes.getLast?.getD .zero)] }

def applyLog (id : Handle) : TreeM σ cmp Outcome := do
  let n ← read (·.node id)
  record (.applied n.log.size id)
  let t ← get
  let (log, domains, result) := n.log.apply t.settings.tol t.domains
  set { t with domains := domains, nodes := t.nodes.set id { n with log := log } }
  liftExcept .outOfRange result

def applyLogs : List Handle → TreeM σ cmp Outcome
  | [] => return .feasible
  | id :: ids => do
      let o ← applyLog id
      return o.and (← applyLogs ids)

/-- The depth down to which the solver's content stays right on the way. Below another Subroot
there is none. -/
def correctDepthAfter (t : Tree σ cmp) (r : Route) : Option Nat :=
  if r.subroot = t.subroot then
    match t.correctDepth, r.common with
    | some c, some d => some (min c d)
    | _, _ => none
  else none

def follow (r : Route) (target : Option Handle) : TreeM σ cmp Outcome := do
  abandon r.keep
  r.fresh.reverse.forM enter
  if let some id := target then
    updateNode id fun n => { n with role := .active, log := n.log.reopen }
  let outcome ← applyLogs ((← get).path.drop r.keep)
  modify fun t => { t with
    correctDepth := t.correctDepthAfter r
    lpFork := r.lpFork
    subroot := r.subroot
    active := target
    focus := .fresh }
  return outcome

def progress (t : Tree σ cmp) : Progress where
  activations := t.stats.activations
  waiting := t.frontier.size + t.children.length + t.siblings.length
  depth := t.path.length - 1
  bound := t.lowerBound
  loads := t.stats.loads
  fullReloads := t.stats.fullReloads
  liveSnapshots := t.stats.captured - t.stats.basesFreed

def report : TreeM σ cmp Unit := do
  let t ← get
  if t.settings.reports t.stats.activations then record (.progress t.progress)

def deactivate : TreeM σ cmp Activation := do
  retire
  flush .siblings
  flush .children
  discard (follow .out none)
  record .deactivated
  return .finished

def switchTo (id : Handle) : TreeM σ cmp Activation := do
  let role := (← read (·.node id)).role.name
  unless role.isWaiting do throw (.misuse (.activateRole role))
  retire
  clearTheWay id role
  let r ← read (·.route id)
  let outcome ← follow r (some id)
  noteEmpty outcome
  let depth := (← get).path.length - 1
  count fun s =>
    { s with activations := s.activations + 1, maxDepth := max s.maxDepth depth }
  record (.activated id depth r.common r.lpFork)
  report
  match outcome with
  | .feasible => return .activated id
  | .infeasible v => return .cutoff id v

def activate : Option Handle → TreeM σ cmp Activation
  | none => deactivate
  | some id => do
      if (← get).active = some id then return .unchanged
      switchTo id

end Tree

end BranchBound
