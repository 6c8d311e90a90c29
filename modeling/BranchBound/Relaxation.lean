import BranchBound.Action
import BranchBound.Solver

namespace BranchBound

structure Extent where
  columns : Nat
  rows : Nat
deriving DecidableEq, Repr

namespace Extent

def zero : Extent := ⟨0, 0⟩

def grow (s : Extent) (columns rows : Nat) : Extent := ⟨s.columns + columns, s.rows + rows⟩

def render (s : Extent) : String := s!"LpSize \x7b cols: {s.columns}, rows: {s.rows} \x7d"

end Extent

/-- A solver and a copy of the columns and rows it holds, both in the solver's order. -/
structure Relaxation (σ : Type) [Solver σ] where
  solver : σ
  columns : List (Solver.Column σ)
  rows : List (Solver.Row σ)

abbrev RelaxationM (σ : Type) [Solver σ] := EStateM SolverError (Relaxation σ)

namespace Relaxation

variable {σ α : Type} [Solver σ]

def ofSolver (s : σ) : Relaxation σ := ⟨s, [], []⟩

def size (r : Relaxation σ) : Extent := ⟨r.columns.length, r.rows.length⟩

def onSolver (act : SolverM σ α) : RelaxationM σ α :=
  onPart solver ({ · with solver := · }) id act

def addColumn (c : Solver.Column σ) : RelaxationM σ Unit := do
  onSolver (Solver.addColumn c)
  modify fun r => { r with columns := r.columns ++ [c] }

def addRow (row : Solver.Row σ) : RelaxationM σ Unit := do
  onSolver (Solver.addRow row)
  modify fun r => { r with rows := r.rows ++ [row] }

def extendColumns (cs : List (Solver.Column σ)) : RelaxationM σ Unit :=
  unless cs.isEmpty do
    onSolver (Solver.addColumns cs)
    modify fun r => { r with columns := r.columns ++ cs }

def extendRows (rs : List (Solver.Row σ)) : RelaxationM σ Unit :=
  unless rs.isEmpty do
    onSolver (Solver.addRows rs)
    modify fun r => { r with rows := r.rows ++ rs }

def extend (cs : List (Solver.Column σ)) (rs : List (Solver.Row σ)) : RelaxationM σ Unit := do
  extendColumns cs
  extendRows rs

def shrinkColumns (n : Nat) : RelaxationM σ Unit := do
  if n < (← get).columns.length then
    onSolver (Solver.shrinkColumns n)
    modify fun r => { r with columns := r.columns.take n }

def shrinkRows (n : Nat) : RelaxationM σ Unit := do
  if n < (← get).rows.length then
    onSolver (Solver.shrinkRows n)
    modify fun r => { r with rows := r.rows.take n }

def shrink (size : Extent) : RelaxationM σ Unit := do
  shrinkColumns size.columns
  shrinkRows size.rows

def clear : RelaxationM σ Unit := do
  onSolver Solver.clear
  modify fun r => { r with columns := [], rows := [] }

def suffix (r : Relaxation σ) (size : Extent) : List (Solver.Column σ) × List (Solver.Row σ) :=
  (r.columns.drop size.columns, r.rows.drop size.rows)

end Relaxation

end BranchBound
