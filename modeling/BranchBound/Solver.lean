import BranchBound.Binary64.Basic

namespace BranchBound

inductive SolveStatus
  | optimal
  | infeasible
  | unbounded
  | iterationLimit
  | numericalError
deriving DecidableEq, Repr

namespace SolveStatus

def isSolved : SolveStatus → Bool
  | .optimal | .infeasible | .unbounded => true
  | .iterationLimit | .numericalError => false

def render : SolveStatus → String
  | .optimal => "Optimal"
  | .infeasible => "Infeasible"
  | .unbounded => "Unbounded"
  | .iterationLimit => "IterationLimit"
  | .numericalError => "NumericalError"

end SolveStatus

structure SolverError where
  text : String
deriving DecidableEq, Repr

/-- An action on a solver of type `σ`. A failing one may leave a changed solver. -/
abbrev SolverM (σ : Type) := EStateM SolverError σ

/-- A solver of linear relaxations. It holds columns and rows that are only ever appended or cut
off from the end, so position names them. A basis is opaque. -/
class Solver (σ : Type) where
  Column : Type
  Row : Type
  Basis : Type
  addColumn : Column → SolverM σ Unit
  addRow : Row → SolverM σ Unit
  addColumns : List Column → SolverM σ Unit := fun cs => cs.forM addColumn
  addRows : List Row → SolverM σ Unit := fun rs => rs.forM addRow
  /-- Drops the columns from a position on. -/
  shrinkColumns : Nat → SolverM σ Unit
  shrinkRows : Nat → SolverM σ Unit
  clear : SolverM σ Unit
  setBounds : Nat → Binary64 → Binary64 → SolverM σ Unit
  /-- The basis of the last solve. -/
  getBasis : SolverM σ Basis
  setBasis : Basis → SolverM σ Unit
  /-- Takes a basis back that nobody needs any more. -/
  freeBasis : Basis → σ → σ
  solve : SolverM σ SolveStatus

end BranchBound
