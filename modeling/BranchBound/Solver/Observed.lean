import BranchBound.Solver

namespace BranchBound

/-- What a solver is asked for. A basis goes by the number of calls before the one that handed it out. -/
inductive Call (σ : Type) [Solver σ]
  | addColumns (cs : List (Solver.Column σ))
  | addRows (rs : List (Solver.Row σ))
  | shrinkColumns (n : Nat)
  | shrinkRows (n : Nat)
  | clear
  | setBounds (v : Nat) (lower upper : Binary64)
  | getBasis
  | setBasis (b : Nat)
  | freeBasis (b : Nat)
  | solve

abbrev Trace (σ : Type) [Solver σ] := List (Call σ × Bool)

structure Observed (σ : Type) [Solver σ] where
  solver : σ
  calls : Trace σ

namespace Observed

variable {σ α : Type} [Solver σ]

def fresh (s : σ) : Observed σ := ⟨s, []⟩

def observe (c : Call σ) (act : SolverM σ α) : SolverM (Observed σ) α := fun o =>
  match act o.solver with
  | .ok a s => .ok a ⟨s, (c, true) :: o.calls⟩
  | .error e s => .error e ⟨s, (c, false) :: o.calls⟩

def getBasis : SolverM (Observed σ) (Nat × Solver.Basis σ) := do
  let o ← get
  let b ← observe .getBasis Solver.getBasis
  return (o.calls.length, b)

def freeBasis (b : Nat × Solver.Basis σ) (o : Observed σ) : Observed σ :=
  ⟨Solver.freeBasis b.2 o.solver, (.freeBasis b.1, true) :: o.calls⟩

instance : Solver (Observed σ) where
  Column := Solver.Column σ
  Row := Solver.Row σ
  Basis := Nat × Solver.Basis σ
  addColumn c := observe (.addColumns [c]) (Solver.addColumn c)
  addRow r := observe (.addRows [r]) (Solver.addRow r)
  addColumns cs := observe (.addColumns cs) (Solver.addColumns cs)
  addRows rs := observe (.addRows rs) (Solver.addRows rs)
  shrinkColumns n := observe (.shrinkColumns n) (Solver.shrinkColumns n)
  shrinkRows n := observe (.shrinkRows n) (Solver.shrinkRows n)
  clear := observe .clear Solver.clear
  setBounds v l u := observe (.setBounds v l u) (Solver.setBounds v l u)
  getBasis := getBasis
  setBasis b := observe (.setBasis b.1) (Solver.setBasis b.2)
  freeBasis := freeBasis
  solve := observe .solve Solver.solve

end Observed

end BranchBound
