import BranchBound.Solver

namespace BranchBound

inductive SolverMethod
  | addColumn
  | addRow
  | shrinkColumns
  | shrinkRows
  | clear
  | setBounds
  | getBasis
  | setBasis
  | solve
deriving DecidableEq, Repr

inductive SolverCall
  | addColumn (c : Int)
  | addRow (r : Int)
  | shrinkColumns (n : Nat)
  | shrinkRows (n : Nat)
  | clear
  | setBounds (var : Nat) (lower upper : Binary64)
  | getBasis (b : Nat)
  | setBasis (b : Nat)
  | freeBasis (b : Nat)
  | solve
deriving DecidableEq

structure PlannedFailure where
  passes : Nat
  text : String
deriving DecidableEq, Repr

/-- A solver that solves nothing: it stores columns and rows, numbers the bases it hands out,
answers with a status set beforehand, fails as planned, and remembers every call. A failing call
changes nothing else. -/
structure ScriptedSolver where
  columns : List Int
  rows : List Int
  /-- Number of bases handed out so far. -/
  bases : Nat
  /-- Bases handed out and not given back, the oldest first. -/
  live : List Nat
  installed : Option Nat
  status : SolveStatus
  plan : SolverMethod → Option PlannedFailure
  /-- Every call, and whether it failed. -/
  calls : Array (SolverCall × Bool)

namespace ScriptedSolver

variable {α : Type}

def fresh : ScriptedSolver := ⟨[], [], 0, [], none, .optimal, fun _ => none, #[]⟩

def planFailure (s : ScriptedSolver) (m : SolverMethod) (f : Option PlannedFailure) :
    ScriptedSolver :=
  { s with plan := fun m' => if m' = m then f else s.plan m' }

def remember (s : ScriptedSolver) (c : SolverCall) (failed : Bool) : ScriptedSolver :=
  { s with calls := s.calls.push (c, failed) }

def attempt (m : SolverMethod) (c : SolverCall) (act : ScriptedSolver → α × ScriptedSolver) :
    SolverM ScriptedSolver α := fun s =>
  let finish (s : ScriptedSolver) :=
    let (a, s) := act (s.remember c false)
    EStateM.Result.ok a s
  match s.plan m with
  | none => finish s
  | some ⟨0, text⟩ => .error ⟨text⟩ ((s.planFailure m none).remember c true)
  | some ⟨k + 1, text⟩ => finish (s.planFailure m (some ⟨k, text⟩))

def attemptEdit (m : SolverMethod) (c : SolverCall) (edit : ScriptedSolver → ScriptedSolver) :
    SolverM ScriptedSolver Unit := attempt m c fun s => ((), edit s)

def getBasis : SolverM ScriptedSolver Nat := do
  let b := (← get).bases + 1
  attempt .getBasis (.getBasis b) fun s => (b, { s with bases := b, live := s.live ++ [b] })

def freeBasis (b : Nat) (s : ScriptedSolver) : ScriptedSolver :=
  { s with live := s.live.erase b }.remember (.freeBasis b) false

instance : Solver ScriptedSolver where
  Column := Int
  Row := Int
  Basis := Nat
  addColumn c := attemptEdit .addColumn (.addColumn c) fun s =>
    { s with columns := s.columns ++ [c] }
  addRow r := attemptEdit .addRow (.addRow r) fun s => { s with rows := s.rows ++ [r] }
  shrinkColumns n := attemptEdit .shrinkColumns (.shrinkColumns n) fun s =>
    { s with columns := s.columns.take n }
  shrinkRows n := attemptEdit .shrinkRows (.shrinkRows n) fun s =>
    { s with rows := s.rows.take n }
  clear := attemptEdit .clear .clear fun s => { s with columns := [], rows := [] }
  setBounds v l u := attemptEdit .setBounds (.setBounds v l u) id
  getBasis := getBasis
  setBasis b := attemptEdit .setBasis (.setBasis b) fun s => { s with installed := some b }
  freeBasis := freeBasis
  solve := attempt .solve .solve fun s => (s.status, s)

def takeCalls (s : ScriptedSolver) : Array (SolverCall × Bool) × ScriptedSolver :=
  (s.calls, { s with calls := #[] })

end ScriptedSolver

end BranchBound
