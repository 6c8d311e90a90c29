import BranchBound.Tree.State

namespace BranchBound

variable {ε ε' σ τ α β : Type}

/-- Where a run from `s` ends: with `Q` when it succeeds, with `E` when it fails. -/
def Ends (m : EStateM ε σ α) (s : σ) (Q : α → σ → Prop) (E : ε → σ → Prop) : Prop :=
  match m s with
  | .ok a s' => Q a s'
  | .error e s' => E e s'

section Rules

variable {s : σ} {Q : α → σ → Prop} {E : ε → σ → Prop}

@[simp] theorem ends_pure (a : α) : Ends (pure a) s Q E ↔ Q a s := Iff.rfl

@[simp] theorem ends_throw (e : ε) : Ends (throw e : EStateM ε σ α) s Q E ↔ E e s := Iff.rfl

@[simp] theorem ends_get {Q : σ → σ → Prop} : Ends (get : EStateM ε σ σ) s Q E ↔ Q s s := Iff.rfl

@[simp] theorem ends_set {Q : PUnit → σ → Prop} (s' : σ) :
    Ends (set s' : EStateM ε σ PUnit) s Q E ↔ Q ⟨⟩ s' := Iff.rfl

@[simp] theorem ends_modify {Q : PUnit → σ → Prop} (f : σ → σ) :
    Ends (modify f : EStateM ε σ PUnit) s Q E ↔ Q ⟨⟩ (f s) := Iff.rfl

@[simp] theorem ends_modifyGet (f : σ → α × σ) :
    Ends (modifyGet f : EStateM ε σ α) s Q E ↔ Q (f s).1 (f s).2 := Iff.rfl

@[simp] theorem ends_bind {m : EStateM ε σ β} {f : β → EStateM ε σ α} :
    Ends (m >>= f) s Q E ↔ Ends m s (fun b s' => Ends (f b) s' Q E) E := by
  unfold Ends
  change (match EStateM.bind m f s with | .ok a s' => Q a s' | .error e s' => E e s') ↔ _
  unfold EStateM.bind
  cases m s <;> rfl

@[simp] theorem ends_map {m : EStateM ε σ β} {f : β → α} :
    Ends (f <$> m) s Q E ↔ Ends m s (fun b s' => Q (f b) s') E := by
  unfold Ends
  change (match EStateM.map f m s with | .ok a s' => Q a s' | .error e s' => E e s') ↔ _
  unfold EStateM.map
  cases m s <;> rfl

@[simp] theorem ends_discard {m : EStateM ε σ α} {Q : PUnit → σ → Prop} :
    Ends (discard m) s Q E ↔ Ends m s (fun _ s' => Q ⟨⟩ s') E :=
  ends_map (f := fun _ => PUnit.unit)

@[simp] theorem ends_liftExcept {x : Except ε' α} {wrap : ε' → ε} :
    Ends (liftExcept wrap x) s Q E ↔ match x with | .ok a => Q a s | .error e => E (wrap e) s := by
  cases x <;> rfl

@[simp] theorem ends_onPart {get : σ → τ} {put : σ → τ → σ} {wrap : ε' → ε} {m : EStateM ε' τ α} :
    Ends (onPart get put wrap m) s Q E ↔
      Ends m (get s) (fun a t => Q a (put s t)) (fun e t => E (wrap e) (put s t)) := by
  unfold Ends onPart
  cases m (get s) <;> rfl

theorem Ends.mono {m : EStateM ε σ α} {Q' : α → σ → Prop} {E' : ε → σ → Prop} (h : Ends m s Q E)
    (hQ : ∀ a s', Q a s' → Q' a s') (hE : ∀ e s', E e s' → E' e s') : Ends m s Q' E' := by
  unfold Ends at *
  cases hm : m s with
  | ok a s' => rw [hm] at h; exact hQ a s' h
  | error e s' => rw [hm] at h; exact hE e s' h

theorem Ends.bind {m : EStateM ε σ β} {f : β → EStateM ε σ α} {R : β → σ → Prop} (hm : Ends m s R E)
    (hf : ∀ b s', R b s' → Ends (f b) s' Q E) : Ends (m >>= f) s Q E := by
  rw [ends_bind]
  exact hm.mono hf fun _ _ h => h

theorem Ends.and {m : EStateM ε σ α} {Q' : α → σ → Prop} {E' : ε → σ → Prop} (h : Ends m s Q E)
    (h' : Ends m s Q' E') :
    Ends m s (fun a s' => Q a s' ∧ Q' a s') (fun e s' => E e s' ∧ E' e s') := by
  unfold Ends at *
  cases hm : m s with
  | ok a s' => rw [hm] at h h'; exact ⟨h, h'⟩
  | error e s' => rw [hm] at h h'; exact ⟨h, h'⟩

theorem ends_run (m : EStateM ε σ α) (s : σ) :
    Ends m s (fun a s' => m s = .ok a s') (fun e s' => m s = .error e s') := by
  unfold Ends
  cases m s <;> rfl

theorem ends_trivial (m : EStateM ε σ α) (s : σ) : Ends m s (fun _ _ => True) fun _ _ => True := by
  unfold Ends
  cases m s <;> trivial

theorem Ends.of_ok {m : EStateM ε σ α} {a : α} {s' : σ} (h : Ends m s Q E) (hm : m s = .ok a s') :
    Q a s' := by
  unfold Ends at h
  rwa [hm] at h

theorem Ends.exists_ok {m : EStateM ε σ α} (h : Ends m s Q fun _ _ => False) : ∃ a s', m s = .ok a s' ∧ Q a s' := by
  unfold Ends at h
  cases hm : m s with
  | ok a s' =>
      rw [hm] at h
      exact ⟨a, s', rfl, h⟩
  | error e s' =>
      rw [hm] at h
      exact h.elim

theorem Ends.of_error {m : EStateM ε σ α} {e : ε} {s' : σ} (h : Ends m s Q E)
    (hm : m s = .error e s') : E e s' := by
  unfold Ends at h
  rwa [hm] at h

/-- Only what the first part can lead to matters to the second. -/
theorem bind_congr_of_ends {m : EStateM ε σ β} {f g : β → EStateM ε σ α}
    (h : Ends m s (fun b s' => f b s' = g b s') fun _ _ => True) : (m >>= f) s = (m >>= g) s := by
  unfold Ends at h
  change EStateM.bind m f s = EStateM.bind m g s
  unfold EStateM.bind
  cases hm : m s with
  | ok a s' =>
      rw [hm] at h
      exact h
  | error e s' => rfl

@[simp] theorem ends_forM_append {f : β → EStateM ε σ PUnit} {xs ys : List β} {Q : PUnit → σ → Prop} :
    Ends ((xs ++ ys).forM f) s Q E ↔ Ends (xs.forM f) s (fun _ s' => Ends (ys.forM f) s' Q E) E := by
  induction xs generalizing s with
  | nil => rfl
  | cons x xs ih => simp only [List.cons_append, List.forM, ends_bind, ih]

theorem Ends.forM {f : β → EStateM ε σ PUnit} {I : List β → σ → Prop}
    (hf : ∀ x xs s, I (x :: xs) s → Ends (f x) s (fun _ s' => I xs s') E) {xs : List β}
    (h : I xs s) : Ends (xs.forM f) s (fun _ s' => I [] s') E := by
  induction xs generalizing s with
  | nil => exact h
  | cons x xs ih =>
      rw [List.forM, ends_bind]
      exact (hf x xs s h).mono (fun _ _ => ih) (fun _ _ => id)

end Rules

def left (m : EStateM ε σ α) (s : σ) : σ :=
  match m s with
  | .ok _ s' | .error _ s' => s'

theorem Ends.left {m : EStateM ε σ α} {s : σ} {P : σ → Prop}
    (h : Ends m s (fun _ => P) (fun _ => P)) : P (left m s) := by
  unfold Ends at h
  unfold BranchBound.left
  cases hm : m s with
  | ok a s' => rw [hm] at h; exact h
  | error e s' => rw [hm] at h; exact h

def result (m : EStateM ε σ α) (s : σ) : Except ε α :=
  match m s with
  | .ok a _ => .ok a
  | .error e _ => .error e

theorem eq_error_of_result {m : EStateM ε σ α} {s : σ} {e : ε} (h : result m s = .error e) :
    m s = .error e (left m s) := by
  unfold result at h
  unfold left
  cases hm : m s with
  | ok a s' =>
      rw [hm] at h
      cases h
  | error e' s' =>
      rw [hm] at h
      rw [Except.error.inj h]

def returns [DecidableEq α] (m : EStateM ε σ α) (s : σ) (a : α) : Bool :=
  match m s with
  | .ok b _ => b = a
  | .error _ _ => false

theorem eq_ok_of_returns [DecidableEq α] {m : EStateM ε σ α} {s : σ} {a : α} (h : returns m s a = true) :
    m s = .ok a (left m s) := by
  unfold returns at h
  unfold left
  cases hm : m s with
  | ok b s' =>
      rw [hm] at h
      rw [of_decide_eq_true h]
  | error e s' =>
      rw [hm] at h
      cases h

theorem eq_error_of_returns {m : EStateM ε σ PUnit} {s : σ} (h : returns m s ⟨⟩ = false) :
    ∃ e, m s = .error e (left m s) := by
  unfold returns at h
  unfold left
  cases hm : m s with
  | ok b s' =>
      rw [hm] at h
      cases h
  | error e s' => exact ⟨e, rfl⟩

namespace Tree

variable [Solver σ] {cmp : NodeOrder} {t : Tree σ cmp} {Q : α → Tree σ cmp → Prop}
  {E : TreeError → Tree σ cmp → Prop}

@[simp] theorem ends_read {f : Tree σ cmp → Except TreeError α} :
    Ends (read f) t Q E ↔ match f t with | .ok a => Q a t | .error e => E e t := by
  unfold read
  simp only [ends_bind, ends_get, ends_liftExcept]
  cases f t <;> rfl

theorem node_eq_ok {id : Handle} {n : Node σ} : t.node id = .ok n ↔ t.nodes.get? id = some n := by
  unfold node
  cases t.nodes.get? id <;> simp

theorem node_eq_error {id : Handle} {e : TreeError} :
    t.node id = .error e ↔ t.nodes.get? id = none ∧ e = .unknownNode id := by
  unfold node
  cases t.nodes.get? id <;> simp [eq_comm]

@[simp] theorem ends_record {Q : Unit → Tree σ cmp → Prop} (e : Event) :
    Ends (record e) t Q E ↔ Q () { t with journal := t.journal.push e } := Iff.rfl

@[simp] theorem ends_count {Q : Unit → Tree σ cmp → Prop} (f : Stats → Stats) :
    Ends (count f) t Q E ↔ Q () { t with stats := f t.stats } := Iff.rfl

@[simp] theorem ends_setNode {Q : Unit → Tree σ cmp → Prop} (id : Handle) (n : Node σ) :
    Ends (setNode id n) t Q E ↔ Q () { t with nodes := t.nodes.set id n } := Iff.rfl

theorem ends_updateNode {Q : Unit → Tree σ cmp → Prop} {id : Handle} {n : Node σ}
    {f : Node σ → Node σ} (hn : t.nodes.get? id = some n) :
    Ends (updateNode id f) t Q E ↔ Q () { t with nodes := t.nodes.set id (f n) } := by
  unfold updateNode
  simp only [ends_bind, ends_read, node_eq_ok.2 hn, ends_setNode]

@[simp] theorem ends_onLp {act : RelaxationM σ α} :
    Ends (onLp act) t Q E ↔
      Ends act t.lp (fun a r => Q a { t with lp := r }) (fun e r => E (.solver e) { t with lp := r }) :=
  ends_onPart

@[simp] theorem ends_onSolver {act : SolverM σ α} :
    Ends (onSolver act) t Q E ↔
      Ends act t.lp.solver (fun a s => Q a { t with lp := { t.lp with solver := s } })
        (fun e s => E (.solver e) { t with lp := { t.lp with solver := s } }) := by
  unfold onSolver Relaxation.onSolver
  simp only [ends_onLp, ends_onPart, id]

theorem ends_onSolver_of {act : SolverM σ α} {R : α → Relaxation σ → Prop} {F : SolverError → Relaxation σ → Prop}
    (h : Ends (Relaxation.onSolver act) t.lp R F)
    (hQ : ∀ a s, R a { t.lp with solver := s } → Q a { t with lp := { t.lp with solver := s } })
    (hE : ∀ e s, F e { t.lp with solver := s } → E (.solver e) { t with lp := { t.lp with solver := s } }) :
    Ends (onSolver act) t Q E := by
  unfold Relaxation.onSolver at h
  rw [ends_onPart] at h
  rw [ends_onSolver]
  exact h.mono hQ hE

@[simp] theorem ends_returnBasis {Q : Unit → Tree σ cmp → Prop} (b : Solver.Basis σ) :
    Ends (returnBasis b) t Q E ↔
      Q () { t with lp := { t.lp with solver := Solver.freeBasis b t.lp.solver } } := by
  unfold returnBasis
  simp only [ends_onSolver, ends_modify]

end Tree

end BranchBound
