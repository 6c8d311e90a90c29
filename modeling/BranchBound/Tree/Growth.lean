import BranchBound.Tree.State

namespace BranchBound

namespace ChangeLog

/-- The domain of `v` as the log leaves it, when it is `x` beforehand. -/
def overlay (log : ChangeLog) (v : Nat) (x : Interval) : Interval :=
  { x with
    lower := (log.lastBound? v .lower).getD x.lower
    upper := (log.lastBound? v .upper).getD x.upper }

end ChangeLog

namespace Tree

variable {σ : Type} [Solver σ] {cmp : NodeOrder}

/-- Parent, depth and lower bound of a node created now. A child's lower bound is never below its
parent's. -/
def origin (t : Tree σ cmp) (bound : Binary64) : Except TreeError (Option Handle × Nat × Binary64) :=
  match t.active with
  | some a => do
      let p ← t.node a
      return (some a, p.depth + 1, Binary64.larger bound p.lowerBound)
  | none => if t.root.isNone then .ok (none, 0, bound) else .error (.misuse .createAway)

def create (bound estimate : Binary64) : TreeM σ cmp Handle := do
  let (parent, depth, bound) ← read (·.origin bound)
  let t ← get
  let (id, nodes) := t.nodes.insert {
    number := t.nextNumber
    parent := parent
    depth := depth
    lowerBound := bound
    estimate := estimate
    constraints := []
    log := .empty
    share := none
    onPath := false
    role := .child t.children.length }
  set { t with
    nodes := nodes
    nextNumber := t.nextNumber + 1
    children := t.children ++ [id]
    root := if parent.isNone then some id else t.root }
  count fun s => { s with created := s.created + 1 }
  record (.created id depth bound)
  return id

def logChange (id : Handle) (n : Node σ) (c : BoundChange) : TreeM σ cmp Unit := do
  let log ← liftExcept (fun e => .fault (.sealedLog e)) (n.log.push c)
  setNode id { n with log := log }

def noteEmpty (o : Outcome) : TreeM σ cmp Unit := do
  if let .infeasible v := o then
    modify fun t => { t with focus := { t.focus with emptyVar := t.focus.emptyVar <|> some v } }

/-- Records a bound change on the active node, where it takes effect at once, or on one of its
children, where it does at the child's activation. The outcome tells whether the variable's domain
is empty then. -/
def changeBound (id : Handle) (v : Nat) (side : Side) (bound : Binary64) : TreeM σ cmp Outcome := do
  let t ← get
  if t.domains.size ≤ v then throw (.misuse (.noVariable v t.domains.size))
  let n ← read (·.node id)
  let x ← liftExcept .outOfRange (t.domains.look v)
  match n.role with
  | .active =>
      logChange id n ⟨v, side, x.bound side, bound⟩
      modify fun t => { t with domains := t.domains.overwrite v side bound }
      let outcome := (x.setBound side bound).outcome v t.settings.tol
      noteEmpty outcome
      return outcome
  | .child _ =>
      let x := n.log.overlay v x
      logChange id n ⟨v, side, x.bound side, bound⟩
      return (x.setBound side bound).outcome v t.settings.tol
  | r => throw (.misuse (.changeOn r.name id))

def constrain (id : Handle) (c : Nat) : TreeM σ cmp Unit := do
  let n ← read (·.node id)
  match n.role with
  | .active | .child _ => setNode id { n with constraints := n.constraints ++ [c] }
  | r => throw (.misuse (.constrainOn r.name id))

def requeue (id : Handle) (key : NodeKey) : TreeM σ cmp Unit :=
  modify fun t =>
    let (found, rest) := t.frontier.remove id
    { t with frontier := if found then rest.insert id key else rest }

def liftChildren (bound : Binary64) : TreeM σ cmp Unit := do
  (← get).children.forM fun c =>
    updateNode c fun n => { n with lowerBound := Binary64.larger n.lowerBound bound }

def raise (id : Handle) (bound : Binary64) : TreeM σ cmp Unit := do
  let n ← read (·.node id)
  unless bound ≤ n.lowerBound do
    let n := { n with lowerBound := bound }
    setNode id n
    match n.role with
    | .leaf => requeue id n.key
    | .active => liftChildren bound
    | _ => return

end Tree

end BranchBound
