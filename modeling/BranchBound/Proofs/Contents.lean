import BranchBound.Node

namespace BranchBound

variable {σ : Type} [Solver σ]

structure Contents (σ : Type) [Solver σ] where
  columns : List (Solver.Column σ)
  rows : List (Solver.Row σ)

namespace Contents

def empty : Contents σ := ⟨[], []⟩

def append (c d : Contents σ) : Contents σ := ⟨c.columns ++ d.columns, c.rows ++ d.rows⟩

def size (c : Contents σ) : Extent := ⟨c.columns.length, c.rows.length⟩

def Begins (c d : Contents σ) : Prop := c.columns <+: d.columns ∧ c.rows <+: d.rows

variable {c d e : Contents σ}

@[simp] theorem append_empty (c : Contents σ) : c.append empty = c := by
  simp [append, empty]

theorem append_assoc (c d e : Contents σ) : (c.append d).append e = c.append (d.append e) := by
  simp [append]

theorem size_append (c d : Contents σ) :
    (c.append d).size = c.size.grow d.columns.length d.rows.length := by
  simp [append, size, Extent.grow]

theorem Begins.refl (c : Contents σ) : c.Begins c := ⟨List.prefix_rfl, List.prefix_rfl⟩

theorem Begins.trans (h : c.Begins d) (h' : d.Begins e) : c.Begins e :=
  ⟨h.1.trans h'.1, h.2.trans h'.2⟩

theorem empty_begins (c : Contents σ) : empty.Begins c := ⟨List.nil_prefix, List.nil_prefix⟩

theorem begins_append (c d : Contents σ) : c.Begins (c.append d) :=
  ⟨List.prefix_append _ _, List.prefix_append _ _⟩

end Contents

namespace Snapshot

def contents (s : Snapshot σ) : Contents σ := ⟨s.columns, s.rows⟩

end Snapshot

namespace Relaxation

def contents (r : Relaxation σ) : Contents σ := ⟨r.columns, r.rows⟩

theorem size_contents (r : Relaxation σ) : r.contents.size = r.size := rfl

theorem suffix_append {r : Relaxation σ} {c d : Contents σ} (h : r.contents = c.append d) :
    r.suffix c.size = (d.columns, d.rows) := by
  simp only [contents, Contents.append, Contents.mk.injEq] at h
  simp [suffix, Contents.size, h.1, h.2]

theorem append_suffix {r : Relaxation σ} {c : Contents σ} (h : c.Begins r.contents) :
    c.append ⟨(r.suffix c.size).1, (r.suffix c.size).2⟩ = r.contents := by
  obtain ⟨⟨cs, hc⟩, rs, hr⟩ := h
  simp only [contents] at hc hr
  simp [Contents.append, contents, suffix, Contents.size, ← hc, ← hr]

end Relaxation

namespace Role

/-- The columns and rows that a role keeps, and whether they are the whole relaxation. -/
def layer : Role σ → Option (Bool × Contents σ)
  | .fork s => some (false, s.contents)
  | .subroot s => some (true, s.contents)
  | _ => none

def isSnapshot (r : Role σ) : Bool := r.snapshot?.isSome

def isSubroot (r : Role σ) : Bool := r.name = .subroot

/-- What the relaxation of a node in this role is, on top of its parent's. -/
def extend (above : Contents σ) (r : Role σ) : Contents σ :=
  match r.layer with
  | some (false, c) => above.append c
  | some (true, c) => c
  | none => above

theorem isSnapshot_eq (r : Role σ) : r.isSnapshot = r.layer.isSome := by
  cases r <;> rfl

theorem isSubroot_eq (r : Role σ) : r.isSubroot = (r.layer.map Prod.fst == some true) := by
  cases r <;> rfl

theorem isSnapshot_of_isSubroot {r : Role σ} (h : r.isSubroot) : r.isSnapshot := by
  cases r <;> first | rfl | cases h

theorem not_waiting_of_isSnapshot {r : Role σ} (h : r.isSnapshot = true) :
    r.name.isWaiting = false := by
  cases r <;> first | rfl | cases h

theorem openChildren?_of_waiting {r : Role σ} (h : r.name.isWaiting = true) :
    r.openChildren? = none := by
  cases r <;> first | rfl | cases h

theorem warmStart?_of_waiting {r : Role σ} (h : r.name.isWaiting = true) : r.warmStart? = none := by
  cases r <;> first | rfl | cases h

theorem layer_of_waiting {r : Role σ} (h : r.name.isWaiting = true) : r.layer = none := by
  cases r <;> first | rfl | cases h

theorem not_active_of_waiting {r : Role σ} (h : r.name.isWaiting = true) : r.name ≠ .active := by
  intro hr
  rw [hr] at h
  cases h

theorem isSome_openChildren? (r : Role σ) :
    r.openChildren?.isSome = decide (r.name ∈ [RoleName.junction, .fork, .subroot]) := by
  cases r <;> rfl

theorem not_waiting_of_open {r : Role σ} (h : r.openChildren?.isSome = true) :
    r.name.isWaiting = false := by
  cases r <;> first | rfl | cases h

theorem not_staged_of_open {r : Role σ} (h : r.openChildren?.isSome = true) : r.staged? = none := by
  cases r <;> first | rfl | cases h

theorem not_active_of_open {r : Role σ} (h : r.openChildren?.isSome = true) : r.name ≠ .active := by
  cases r <;> first | exact RoleName.noConfusion | cases h

theorem not_waiting_of_exhausted {r : Role σ} (h : r.isExhausted = true) :
    r.name.isWaiting = false := by
  cases r <;> first | rfl | cases h

theorem not_active_of_exhausted {r : Role σ} (h : r.isExhausted = true) : r.name ≠ .active := by
  cases r <;> first | exact RoleName.noConfusion | cases h

theorem isExhausted_of_open {r : Role σ} {k : Nat} (hk : r.openChildren? = some k) :
    r.isExhausted = decide (k = 0) := by
  have hs : r.isExhausted = (r.openChildren? == some 0) := by
    cases r <;> first | rfl | cases hk
  rw [hs, hk]
  rw [Bool.eq_iff_iff]
  simp

theorem eq_zero_of_exhausted {r : Role σ} {k : Nat} (h : r.isExhausted = true)
    (hk : r.openChildren? = some k) : k = 0 := by
  rw [isExhausted_of_open hk] at h
  exact of_decide_eq_true h

theorem lpSize_congr {above : Extent} {r r' : Role σ} (h : r'.layer = r.layer) :
    r'.lpSize above = r.lpSize above := by
  have hsize : ∀ r : Role σ, r.lpSize above = match r.layer with
      | some (false, c) => above.grow c.columns.length c.rows.length
      | some (true, c) => c.size
      | none => above := by
    intro r
    cases r <;> rfl
  rw [hsize, hsize, h]

theorem size_extend (above : Contents σ) (r : Role σ) :
    (r.extend above).size = r.lpSize above.size := by
  cases r <;> first | rfl | exact Contents.size_append _ _

theorem isSnapshot_iff {r : Role σ} : r.isSnapshot ↔ ∃ w, r.warmStart? = some w := by
  cases r <;> simp [isSnapshot, snapshot?, warmStart?]

@[simp] theorem name_withWarmStart (w : WarmStart (Solver.Basis σ)) (r : Role σ) :
    (r.withWarmStart w).name = r.name := by
  cases r <;> rfl

@[simp] theorem staged?_withWarmStart (w : WarmStart (Solver.Basis σ)) (r : Role σ) :
    (r.withWarmStart w).staged? = r.staged? := by
  cases r <;> rfl

@[simp] theorem layer_withWarmStart (w : WarmStart (Solver.Basis σ)) (r : Role σ) :
    (r.withWarmStart w).layer = r.layer := by
  cases r <;> rfl

@[simp] theorem openChildren?_withWarmStart (w : WarmStart (Solver.Basis σ)) (r : Role σ) :
    (r.withWarmStart w).openChildren? = r.openChildren? := by
  cases r <;> rfl

theorem warmStart?_withWarmStart (w : WarmStart (Solver.Basis σ)) (r : Role σ) :
    (r.withWarmStart w).warmStart? = r.warmStart?.map fun _ => w := by
  cases r <;> rfl

@[simp] theorem name_withOpenChildren (k : Nat) (r : Role σ) :
    (r.withOpenChildren k).name = r.name := by
  cases r <;> rfl

@[simp] theorem staged?_withOpenChildren (k : Nat) (r : Role σ) :
    (r.withOpenChildren k).staged? = r.staged? := by
  cases r <;> rfl

@[simp] theorem layer_withOpenChildren (k : Nat) (r : Role σ) :
    (r.withOpenChildren k).layer = r.layer := by
  cases r <;> rfl

@[simp] theorem warmStart?_withOpenChildren (k : Nat) (r : Role σ) :
    (r.withOpenChildren k).warmStart? = r.warmStart? := by
  cases r <;> rfl

theorem openChildren?_withOpenChildren (k : Nat) (r : Role σ) :
    (r.withOpenChildren k).openChildren? = r.openChildren?.map fun _ => k := by
  cases r <;> rfl

end Role

end BranchBound
