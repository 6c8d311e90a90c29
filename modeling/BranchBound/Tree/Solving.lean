import BranchBound.Tree.State

namespace BranchBound.Tree

variable {σ : Type} [Solver σ] {cmp : NodeOrder}

def requireLoaded (work : LoadedWork) : TreeM σ cmp Unit := do
  let t ← get
  unless t.active.isSome && t.focus.isLoaded do throw (.misuse (.notLoaded work))

/-- Adds a column to the active node's relaxation. Column `j` carries the bounds of variable `j`,
which the solver has to be told. -/
def addColumn (c : Solver.Column σ) : TreeM σ cmp Unit := do
  requireLoaded .addColumn
  onLp (Relaxation.addColumn c)
  modify fun t => { t with domains := t.domains.enqueue (t.lp.columns.length - 1) }

def addRow (r : Solver.Row σ) : TreeM σ cmp Unit := do
  requireLoaded .addRow
  onLp (Relaxation.addRow r)

def sendBounds (v : Nat) : TreeM σ cmp Unit := do
  let x ← read fun t => (t.domains.look v).mapError .outOfRange
  onSolver (Solver.setBounds v x.lower x.upper)

def sendTouched : TreeM σ cmp Unit := do
  let t ← get
  let (touched, domains) := t.domains.drain
  set { t with domains := domains }
  (touched.filter (· < t.lp.columns.length)).forM sendBounds

def solve : TreeM σ cmp SolveStatus := do
  requireLoaded .solve
  sendTouched
  let status ← onSolver Solver.solve
  modify fun t => { t with focus := { t.focus with isSolved := status.isSolved } }
  record (.solved (← get).active status)
  return status

end BranchBound.Tree
