import BranchBound.Binary64.Order

namespace BranchBound

inductive Side
  | lower
  | upper
deriving DecidableEq, Repr

structure Interval where
  lower : Binary64
  upper : Binary64
deriving DecidableEq

namespace Interval

def bound (x : Interval) : Side → Binary64
  | .lower => x.lower
  | .upper => x.upper

def setBound (x : Interval) (side : Side) (value : Binary64) : Interval :=
  match side with
  | .lower => { x with lower := value }
  | .upper => { x with upper := value }

def isEmpty (x : Interval) (tol : Binary64) : Bool := x.upper + tol < x.lower

end Interval

structure OutOfRange where
  size : Nat
  index : Nat
deriving DecidableEq, Repr

structure SizeMismatch where
  lower : Nat
  upper : Nat
deriving DecidableEq, Repr

/-- The bounds in force, and the variables touched since the queue was last drained. -/
structure Domains where
  vars : Array Interval
  /-- The touched variables, in the order of their first touch. -/
  queue : Array Nat
  /-- Which variables are in the queue. -/
  queued : Array Bool

namespace Domains

def ofIntervals (xs : List Interval) : Domains := ⟨xs.toArray, #[], .replicate xs.length false⟩

def free (n : Nat) : Domains :=
  ofIntervals (.replicate n ⟨-Binary64.infinity, Binary64.infinity⟩)

def ofBounds (lower upper : List Binary64) : Except SizeMismatch Domains :=
  if lower.length = upper.length then .ok (ofIntervals (lower.zipWith Interval.mk upper))
  else .error ⟨lower.length, upper.length⟩

def size (d : Domains) : Nat := d.vars.size

def look (d : Domains) (v : Nat) : Except OutOfRange Interval :=
  match d.vars[v]? with
  | some x => .ok x
  | none => .error ⟨d.size, v⟩

def bound (d : Domains) (v : Nat) (side : Side) : Except OutOfRange Binary64 :=
  (d.look v).map (·.bound side)

def isEmpty (d : Domains) (v : Nat) (tol : Binary64) : Except OutOfRange Bool :=
  (d.look v).map (·.isEmpty tol)

def enqueue (d : Domains) (v : Nat) : Domains :=
  match d.queued[v]? with
  | some false => { d with queue := d.queue.push v, queued := d.queued.setIfInBounds v true }
  | _ => d

def touch (d : Domains) (v : Nat) : Except OutOfRange Domains :=
  (d.look v).map fun _ => d.enqueue v

def touchAll (d : Domains) : Domains := (List.range d.size).foldl enqueue d

def overwrite (d : Domains) (v : Nat) (side : Side) (value : Binary64) : Domains :=
  enqueue { d with vars := d.vars.modify v (·.setBound side value) } v

def setBound (d : Domains) (v : Nat) (side : Side) (value : Binary64) : Except OutOfRange Domains :=
  (d.look v).map fun _ => d.overwrite v side value

def drain (d : Domains) : List Nat × Domains :=
  let vs := d.queue.toList
  (vs, { d with queue := #[], queued := vs.foldl (·.setIfInBounds · false) d.queued })

@[simp] theorem vars_enqueue (d : Domains) (v : Nat) : (d.enqueue v).vars = d.vars := by
  unfold enqueue; split <;> rfl

@[simp] theorem vars_touchAll (d : Domains) : d.touchAll.vars = d.vars := by
  unfold touchAll
  induction List.range d.size generalizing d with
  | nil => rfl
  | cons v vs ih => rw [List.foldl_cons, ih, vars_enqueue]

@[simp] theorem vars_drain (d : Domains) : d.drain.2.vars = d.vars := rfl

theorem vars_overwrite (d : Domains) (v : Nat) (side : Side) (value : Binary64) :
    (d.overwrite v side value).vars = d.vars.modify v (·.setBound side value) :=
  vars_enqueue _ v

@[simp] theorem size_overwrite (d : Domains) (v : Nat) (side : Side) (value : Binary64) :
    (d.overwrite v side value).size = d.size := by
  simp [size, vars_overwrite]

end Domains

end BranchBound
