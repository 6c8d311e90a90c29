import BranchBound.Proofs.Ends
import Mathlib.Order.Defs.Unbundled

namespace BranchBound

section Along

variable {ε ε' τ α β : Type} {R : τ → τ → Prop} {m : EStateM ε τ α} {s s' : τ}

/-- Started anywhere, a run leads along `R`, whether it fails or not. -/
def Along (R : τ → τ → Prop) (m : EStateM ε τ α) : Prop := ∀ s, Ends m s (fun _ => R s) fun _ => R s

theorem Along.mono {R' : τ → τ → Prop} (h : Along R m) (hR : ∀ s s', R s s' → R' s s') : Along R' m :=
  fun s => (h s).mono (fun _ => hR s) fun _ => hR s

theorem Along.discard (h : Along R m) : Along R (discard m) := fun s => ends_discard.2 (h s)

variable [IsPreorder τ R]

theorem Along.after (h : Along R m) (hs : R s s') : Ends m s' (fun _ => R s) fun _ => R s :=
  (h s').mono (fun _ _ => trans_of R hs) fun _ _ => trans_of R hs

theorem Along.bind {f : α → EStateM ε τ β} (h : Along R m) (hf : ∀ a, Along R (f a)) : Along R (m >>= f) :=
  fun s => (h s).bind fun a _ => (hf a).after

theorem along_pure (a : α) : Along R (pure a : EStateM ε τ α) := fun s => refl_of R s

theorem along_throw (e : ε) : Along R (throw e : EStateM ε τ α) := fun s => refl_of R s

theorem along_liftExcept (wrap : ε' → ε) (x : Except ε' α) : Along R (liftExcept wrap x) := by
  cases x with
  | ok a => exact along_pure a
  | error e => exact along_throw (wrap e)

theorem Along.when {p : Prop} [Decidable p] {m : EStateM ε τ PUnit} {f : PUnit → EStateM ε τ α} (hm : Along R m)
    (hf : Along R (f ⟨⟩)) : Along R (if p then m >>= f else f ⟨⟩) := by
  split
  · exact hm.bind fun _ => hf
  · exact hf

theorem Along.forM {f : β → EStateM ε τ PUnit} (h : ∀ x, Along R (f x)) (xs : List β) : Along R (xs.forM f) := by
  induction xs with
  | nil => exact along_pure PUnit.unit
  | cons x xs ih => exact (h x).bind fun _ => ih

end Along

namespace Tree

variable {σ α : Type} [Solver σ] {cmp : NodeOrder}

section Reading

variable {R : Tree σ cmp → Tree σ cmp → Prop} {id : Handle}

theorem along_get {f : Tree σ cmp → TreeM σ cmp α} (h : ∀ t, Ends (f t) t (fun _ => R t) fun _ => R t) :
    Along R (get >>= f) := h

variable [IsPreorder (Tree σ cmp) R]

theorem along_read (f : Tree σ cmp → Except TreeError α) : Along R (read f) := by
  intro t
  rw [ends_read]
  cases f t <;> exact refl_of R t

theorem along_node {f : Node σ → TreeM σ cmp α}
    (h : ∀ t n, t.nodes.get? id = some n → Ends (f n) t (fun _ => R t) fun _ => R t) :
    Along R (read (·.node id) >>= f) := by
  intro t
  rw [ends_bind, ends_read]
  cases hn : t.nodes.get? id with
  | none =>
      rw [node_eq_error.2 ⟨hn, rfl⟩]
      exact refl_of R t
  | some n =>
      rw [node_eq_ok.2 hn]
      exact h t n hn

end Reading

end Tree

end BranchBound
