import BranchBound.Domains

namespace BranchBound

structure BoundChange where
  var : Nat
  side : Side
  /-- The bound in force before the change. -/
  old : Binary64
  new : Binary64
deriving DecidableEq

namespace BoundChange

def down (var : Nat) (old value : Binary64) : BoundChange := ⟨var, .upper, old, value.floor⟩

def up (var : Nat) (old value : Binary64) : BoundChange := ⟨var, .lower, old, value.ceil⟩

end BoundChange

/-- Whether every touched domain is still inhabited; otherwise the first variable with an empty
one. -/
inductive Outcome
  | feasible
  | infeasible (var : Nat)
deriving DecidableEq, Repr

namespace Outcome

def isInfeasible : Outcome → Bool
  | .feasible => false
  | .infeasible _ => true

def and : Outcome → Outcome → Outcome
  | .feasible, o => o
  | .infeasible v, _ => .infeasible v

def all (os : List Outcome) : Outcome := os.foldl and .feasible

end Outcome

namespace Interval

def outcome (x : Interval) (v : Nat) (tol : Binary64) : Outcome :=
  if x.isEmpty tol then .infeasible v else .feasible

end Interval

structure Sealed where
  var : Nat
deriving DecidableEq, Repr

structure ChangeLog where
  changes : List BoundChange
  isSealed : Bool

/-- What a run of changes leaves behind: the changes, each with the bound it replaced, the
domains, and the outcome. A variable out of range ends the run there. -/
structure Applied where
  changes : List BoundChange
  domains : Domains
  outcome : Except OutOfRange Outcome

/-- Writes the new bounds in order, noting the bound each one replaces. The run goes on when a
domain becomes empty. -/
def applyChanges (tol : Binary64) : List BoundChange → Domains → Applied
  | [], d => ⟨[], d, .ok .feasible⟩
  | c :: cs, d =>
      match d.look c.var with
      | .error e => ⟨c :: cs, d, .error e⟩
      | .ok x =>
          let rest := applyChanges tol cs (d.overwrite c.var c.side c.new)
          let here := (x.setBound c.side c.new).outcome c.var tol
          ⟨{ c with old := x.bound c.side } :: rest.changes, rest.domains, rest.outcome.map here.and⟩

def revertChanges : List BoundChange → Domains → Domains × Except OutOfRange Unit
  | [], d => (d, .ok ())
  | c :: cs, d =>
      match d.setBound c.var c.side c.old with
      | .error e => (d, .error e)
      | .ok d => revertChanges cs d

namespace ChangeLog

def empty : ChangeLog := ⟨[], false⟩

def size (log : ChangeLog) : Nat := log.changes.length

def push (log : ChangeLog) (c : BoundChange) : Except Sealed ChangeLog :=
  if log.isSealed then .error ⟨c.var⟩ else .ok { log with changes := log.changes ++ [c] }

def close (log : ChangeLog) : ChangeLog := { log with isSealed := true }

def reopen (log : ChangeLog) : ChangeLog := { log with isSealed := false }

def lastBound? (log : ChangeLog) (v : Nat) (side : Side) : Option Binary64 :=
  (log.changes.reverse.find? fun c => c.var = v ∧ c.side = side).map (·.new)

/-- Applies every change and renews the old bounds, so that `undo` leads back to the domains
before this call. -/
def apply (log : ChangeLog) (tol : Binary64) (d : Domains) :
    ChangeLog × Domains × Except OutOfRange Outcome :=
  let r := applyChanges tol log.changes d
  ({ log with changes := r.changes }, r.domains, r.outcome)

def undo (log : ChangeLog) (d : Domains) : Domains × Except OutOfRange Unit :=
  revertChanges log.changes.reverse d

end ChangeLog

end BranchBound
