import BranchBound.Error
import BranchBound.Frontier
import BranchBound.Settings

namespace BranchBound

structure Focus where
  isLoaded : Bool
  isSolved : Bool
  /-- A variable whose domain is empty on the path. -/
  emptyVar : Option Nat
deriving DecidableEq, Repr

namespace Focus

def fresh : Focus := ⟨false, false, none⟩

end Focus

structure Stats where
  created : Nat := 0
  freed : Nat := 0
  activations : Nat := 0
  maxDepth : Nat := 0
  loads : Nat := 0
  /-- Loads that started from a Subroot or from nothing. -/
  fullReloads : Nat := 0
  replayedColumns : Nat := 0
  replayedRows : Nat := 0
  captured : Nat := 0
  basesFreed : Nat := 0
  /-- Children of Junctions whose warm start was gone. -/
  coldChildren : Nat := 0
deriving DecidableEq, Repr

/-- A branch-and-bound search: its nodes, the path from the root to the active one, the waiting
nodes, and the domains and relaxation of the active node. -/
structure Tree (σ : Type) [Solver σ] (cmp : NodeOrder) where
  nodes : Arena (Node σ)
  root : Option Handle
  frontier : Frontier cmp
  /-- From the root to the active node. -/
  path : List Handle
  /-- Size of the relaxation that each node of the path defines. -/
  sizes : List Extent
  /-- Children of the active node. -/
  children : List Handle
  /-- The other children of the active node's parent. -/
  siblings : List Handle
  active : Option Handle
  /-- The nearest Fork or Subroot above the active node. -/
  lpFork : Option Handle
  /-- The nearest Subroot above the active node. -/
  subroot : Option Handle
  /-- The deepest place on the path whose relaxation begins what the solver holds. -/
  correctDepth : Option Nat
  focus : Focus
  domains : Domains
  lp : Relaxation σ
  policy : SnapshotPolicy
  settings : Settings
  nextNumber : Nat
  stats : Stats
  journal : Array Event

/-- An operation on a tree. What a failing one did before it failed stays done. -/
abbrev TreeM (σ : Type) [Solver σ] (cmp : NodeOrder) := EStateM TreeError (Tree σ cmp)

namespace Tree

variable {σ α : Type} [Solver σ] {cmp : NodeOrder}

def ofSettings (solver : σ) (domains : Domains) (settings : Settings) :
    Except TreeError (Tree σ cmp) :=
  match Arena.withCapacity? Node.slotBytes settings.capacity with
  | none => .error .allocation
  | some nodes => .ok {
      nodes := nodes
      root := none
      frontier := .empty
      path := []
      sizes := []
      children := []
      siblings := []
      active := none
      lpFork := none
      subroot := none
      correctDepth := none
      focus := .fresh
      domains := domains
      lp := .ofSolver solver
      policy := settings.snapshot.policy
      settings := settings
      nextNumber := 0
      stats := {}
      journal := #[] }

def node (t : Tree σ cmp) (id : Handle) : Except TreeError (Node σ) :=
  match t.nodes.get? id with
  | some n => .ok n
  | none => .error (.unknownNode id)

def contains (t : Tree σ cmp) (id : Handle) : Bool := t.nodes.contains id

def staged (t : Tree σ cmp) : Staging → List Handle
  | .children => t.children
  | .siblings => t.siblings

def withStaged (t : Tree σ cmp) (ids : List Handle) : Staging → Tree σ cmp
  | .children => { t with children := ids }
  | .siblings => { t with siblings := ids }

def pathSize (t : Tree σ cmp) (depth : Nat) : Except TreeError Extent :=
  match t.sizes[depth]? with
  | some size => .ok size
  | none => .error (.outOfRange ⟨t.sizes.length, depth⟩)

def activeConstraints (t : Tree σ cmp) : List Nat :=
  t.path.flatMap fun id => ((t.nodes.get? id).map Node.constraints).getD []

/-- Least lower bound of the nodes that are not processed yet. -/
def lowerBound (t : Tree σ cmp) : Binary64 :=
  let near := t.children ++ t.siblings ++ t.active.toList
  let bounds := near.filterMap fun id => (t.nodes.get? id).map Node.lowerBound
  Binary64.smaller (Binary64.least bounds) t.frontier.lowerBound

def read (f : Tree σ cmp → Except TreeError α) : TreeM σ cmp α := do
  liftExcept id (f (← get))

def record (e : Event) : TreeM σ cmp Unit :=
  modify fun t => { t with journal := t.journal.push e }

def count (f : Stats → Stats) : TreeM σ cmp Unit := modify fun t => { t with stats := f t.stats }

def setNode (id : Handle) (n : Node σ) : TreeM σ cmp Unit :=
  modify fun t => { t with nodes := t.nodes.set id n }

def updateNode (id : Handle) (f : Node σ → Node σ) : TreeM σ cmp Unit := do
  setNode id (f (← read (·.node id)))

def onLp (act : RelaxationM σ α) : TreeM σ cmp α :=
  onPart lp ({ · with lp := · }) TreeError.solver act

def onSolver (act : SolverM σ α) : TreeM σ cmp α := onLp (Relaxation.onSolver act)

def returnBasis (b : Solver.Basis σ) : TreeM σ cmp Unit := onSolver (modify (Solver.freeBasis b))

def setPolicy (p : SnapshotPolicy) : TreeM σ cmp Unit := modify ({ · with policy := p })

end Tree

end BranchBound
