import BranchBound.Action
import BranchBound.Solver

namespace BranchBound

/-- What a solver is asked for besides edits of what it holds. A basis goes by the number of consultations before the
one that handed it out. -/
inductive Consultation
  | getBasis
  | setBasis (b : Nat)
  | freeBasis (b : Nat)
  | setBounds (v : Nat) (lower upper : Binary64)
  | solve
deriving DecidableEq

structure Consulted (σ : Type) where
  solver : σ
  asked : List Consultation

namespace Consulted

variable {σ α : Type}

def fresh (s : σ) : Consulted σ := ⟨s, []⟩

def edit (act : SolverM σ α) : SolverM (Consulted σ) α := onPart solver ({ · with solver := · }) id act

def consult (c : Consultation) (act : SolverM σ α) : SolverM (Consulted σ) α := do
  modify fun o => { o with asked := c :: o.asked }
  edit act

variable [Solver σ]

def getBasis : SolverM (Consulted σ) (Nat × Solver.Basis σ) := do
  let number := (← get).asked.length
  return (number, ← consult .getBasis Solver.getBasis)

def freeBasis (b : Nat × Solver.Basis σ) (o : Consulted σ) : Consulted σ :=
  ⟨Solver.freeBasis b.2 o.solver, .freeBasis b.1 :: o.asked⟩

instance : Solver (Consulted σ) where
  Column := Solver.Column σ
  Row := Solver.Row σ
  Basis := Nat × Solver.Basis σ
  addColumn c := edit (Solver.addColumn c)
  addRow r := edit (Solver.addRow r)
  addColumns cs := edit (Solver.addColumns cs)
  addRows rs := edit (Solver.addRows rs)
  shrinkColumns n := edit (Solver.shrinkColumns n)
  shrinkRows n := edit (Solver.shrinkRows n)
  clear := edit Solver.clear
  setBounds v l u := consult (.setBounds v l u) (Solver.setBounds v l u)
  getBasis := getBasis
  setBasis b := consult (.setBasis b.1) (Solver.setBasis b.2)
  freeBasis := freeBasis
  solve := consult .solve Solver.solve

end Consulted

end BranchBound
