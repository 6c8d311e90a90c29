import Mathlib.Data.List.Forall2
import BranchBound.Proofs.Ends

namespace BranchBound

variable {ε σ τ α β γ δ : Type} {X : ε → Prop} {E : ε → σ → ε → τ → Prop} {F : ε → ε → Prop}
  {R : σ → τ → Prop} {W : α → β → Prop} {V : γ → δ → Prop} {m : EStateM ε σ α} {m' : EStateM ε τ β} {s : σ} {s' : τ}

/-- How two runs end: both succeed, as `Q` has it, or both fail, as `E` has it. Where one fails with an error in `X`,
nothing is said. -/
def Agree (X : ε → Prop) (E : ε → σ → ε → τ → Prop) (m : EStateM ε σ α) (s : σ) (m' : EStateM ε τ β) (s' : τ)
    (Q : α → σ → β → τ → Prop) : Prop :=
  match m s, m' s' with
  | .ok a t, .ok b u => Q a t b u
  | .ok _ _, .error f _ => X f
  | .error e _, .ok _ _ => X e
  | .error e t, .error f u => X e ∨ X f ∨ E e t f u

section Rules

variable {Q : α → σ → β → τ → Prop}

theorem Agree.mono {Q' : α → σ → β → τ → Prop} (h : Agree X E m s m' s' Q)
    (hQ : ∀ a t b u, Q a t b u → Q' a t b u) : Agree X E m s m' s' Q' := by
  unfold Agree at *
  cases hm : m s <;> cases hm' : m' s' <;> rw [hm, hm'] at h
  · exact hQ _ _ _ _ h
  all_goals exact h

theorem Agree.map {f : α → γ} {g : β → δ} {Q' : γ → σ → δ → τ → Prop} (h : Agree X E m s m' s' Q)
    (hQ : ∀ a t b u, Q a t b u → Q' (f a) t (g b) u) : Agree X E (f <$> m) s (g <$> m') s' Q' := by
  change Agree X E (EStateM.map f m) s (EStateM.map g m') s' Q'
  unfold Agree EStateM.map at *
  cases hm : m s <;> cases hm' : m' s' <;> rw [hm, hm'] at h
  · exact hQ _ _ _ _ h
  all_goals exact h

theorem Agree.bind {f : α → EStateM ε σ γ} {g : β → EStateM ε τ δ} {Q' : γ → σ → δ → τ → Prop}
    (h : Agree X E m s m' s' Q) (hf : ∀ a t b u, Q a t b u → Agree X E (f a) t (g b) u Q') :
    Agree X E (m >>= f) s (m' >>= g) s' Q' := by
  change Agree X E (EStateM.bind m f) s (EStateM.bind m' g) s' Q'
  unfold Agree EStateM.bind at *
  cases hm : m s <;> cases hm' : m' s' <;> rw [hm, hm'] at h <;> dsimp only
  · exact hf _ _ _ _ h
  · cases f _ _ with
    | ok a t => exact h
    | error e t => exact .inr (.inl h)
  · cases g _ _ with
    | ok a t => exact h
    | error e t => exact .inl h
  · exact h

theorem Agree.and (h : Agree X E m s m' s' Q) {P : α → σ → Prop} {P' : β → τ → Prop} {G : ε → σ → Prop}
    {G' : ε → τ → Prop} (hl : Ends m s P G) (hr : Ends m' s' P' G') :
    Agree X E m s m' s' fun a t b u => Q a t b u ∧ P a t ∧ P' b u := by
  unfold Agree at *
  unfold Ends at hl hr
  cases hm : m s <;> cases hm' : m' s' <;> rw [hm, hm'] at h <;> rw [hm] at hl <;> rw [hm'] at hr
  · exact ⟨h, hl, hr⟩
  all_goals exact h

theorem Agree.result (h : Agree X E m s m' s' Q) (hl : ∀ e, result m s = .error e → ¬ X e)
    (hr : ∀ e, result m' s' = .error e → ¬ X e) :
    (∃ a b, result m s = .ok a ∧ result m' s' = .ok b ∧ Q a (left m s) b (left m' s')) ∨
      ∃ e f, result m s = .error e ∧ result m' s' = .error f ∧ E e (left m s) f (left m' s') := by
  unfold BranchBound.result at *
  unfold Agree at h
  unfold left
  cases hm : m s <;> cases hm' : m' s' <;> rw [hm, hm'] at h <;> rw [hm] at hl <;> rw [hm'] at hr
  · exact .inl ⟨_, _, rfl, rfl, h⟩
  · exact absurd h (hr _ rfl)
  · exact absurd h (hl _ rfl)
  · exact .inr ⟨_, _, rfl, rfl, (h.resolve_left (hl _ rfl)).resolve_left (hr _ rfl)⟩

/-- Where all errors excuse, it is enough to know what each run does when it succeeds. -/
theorem agree_of_ends {P : α → σ → Prop} {P' : β → τ → Prop} (hl : Ends m s P fun e _ => X e)
    (hr : Ends m' s' P' fun e _ => X e) (hQ : ∀ a t b u, P a t → P' b u → Q a t b u) : Agree X E m s m' s' Q := by
  unfold Agree
  unfold Ends at hl hr
  cases hm : m s <;> cases hm' : m' s' <;> rw [hm] at hl <;> rw [hm'] at hr
  · exact hQ _ _ _ _ hl hr
  · exact hr
  · exact hl
  · exact .inl hl

theorem agree_onPart {ε' σ' τ' : Type} {X' : ε' → Prop} {E' : ε' → σ' → ε' → τ' → Prop} {get : σ → σ'}
    {put : σ → σ' → σ} {get' : τ → τ'} {put' : τ → τ' → τ} {wrap : ε' → ε} {act : EStateM ε' σ' α}
    {act' : EStateM ε' τ' β} {P : α → σ' → β → τ' → Prop} (h : Agree X' E' act (get s) act' (get' s') P)
    (hX : ∀ e, X' e → X (wrap e)) (hE : ∀ e t f u, E' e t f u → E (wrap e) (put s t) (wrap f) (put' s' u))
    (hQ : ∀ a t b u, P a t b u → Q a (put s t) b (put' s' u)) :
    Agree X E (onPart get put wrap act) s (onPart get' put' wrap act') s' Q := by
  unfold Agree onPart at *
  cases hm : act (get s) <;> cases hm' : act' (get' s') <;> rw [hm, hm'] at h
  · exact hQ _ _ _ _ h
  · exact hX _ h
  · exact hX _ h
  · exact h.imp (hX _) fun h => h.imp (hX _) (hE _ _ _ _)

end Rules

/-- Started in states that `R` relates, two runs end in such states, with results that `W` relates or errors that `F`
relates. -/
def Alongside (X : ε → Prop) (F : ε → ε → Prop) (R : σ → τ → Prop) (W : α → β → Prop) (m : EStateM ε σ α)
    (m' : EStateM ε τ β) : Prop :=
  ∀ s s', R s s' → Agree X (fun e t f u => F e f ∧ R t u) m s m' s' fun a t b u => W a b ∧ R t u

section Alongside

theorem Alongside.bind {f : α → EStateM ε σ γ} {g : β → EStateM ε τ δ} (h : Alongside X F R W m m')
    (hf : ∀ a b, W a b → Alongside X F R V (f a) (g b)) : Alongside X F R V (m >>= f) (m' >>= g) :=
  fun s s' hs => (h s s' hs).bind fun a t b u hab => hf a b hab.1 t u hab.2

theorem Alongside.at (h : Alongside X F R W m m') (hs : R s s') :
    Agree X (fun e t f u => F e f ∧ R t u) m s m' s' fun a t b u => W a b ∧ R t u := h s s' hs

theorem Alongside.mono {W' : α → β → Prop} (h : Alongside X F R W m m') (hW : ∀ a b, W a b → W' a b) :
    Alongside X F R W' m m' :=
  fun s s' hs => (h s s' hs).mono fun _ _ _ _ hab => ⟨hW _ _ hab.1, hab.2⟩

theorem alongside_pure {a : α} {b : β} (h : W a b) : Alongside X F R W (pure a) (pure b) := fun _ _ hs => ⟨h, hs⟩

theorem alongside_throw {e f : ε} (h : F e f) :
    Alongside X F R W (throw e : EStateM ε σ α) (throw f : EStateM ε τ β) :=
  fun _ _ hs => .inr (.inr ⟨h, hs⟩)

theorem alongside_liftExcept {ε' : Type} (wrap : ε' → ε) (hF : ∀ e, F e e) (x : Except ε' α) :
    Alongside X F R Eq (liftExcept wrap x) (liftExcept wrap x) := by
  cases x with
  | ok a => exact alongside_pure rfl
  | error e => exact alongside_throw (hF _)

theorem alongside_modify {f : σ → σ} {g : τ → τ} (h : ∀ s s', R s s' → R (f s) (g s')) :
    Alongside X F R Eq (modify f : EStateM ε σ PUnit) (modify g : EStateM ε τ PUnit) :=
  fun s s' hs => ⟨rfl, h s s' hs⟩

theorem alongside_modifyGet {f : σ → α × σ} {g : τ → β × τ}
    (h : ∀ s s', R s s' → W (f s).1 (g s').1 ∧ R (f s).2 (g s').2) :
    Alongside X F R W (modifyGet f : EStateM ε σ α) (modifyGet g : EStateM ε τ β) := h

theorem Alongside.discard (h : Alongside X F R W m m') : Alongside X F R Eq (discard m) (discard m') :=
  h.bind (V := Eq) fun _ _ _ => alongside_pure rfl

theorem Alongside.forM {f : γ → EStateM ε σ PUnit} {g : δ → EStateM ε τ PUnit}
    (h : ∀ x y, V x y → Alongside X F R Eq (f x) (g y)) {xs : List γ} {ys : List δ} (hxy : List.Forall₂ V xs ys) :
    Alongside X F R Eq (xs.forM f) (ys.forM g) := by
  induction hxy with
  | nil => exact alongside_pure rfl
  | cons hx _ ih => exact (h _ _ hx).bind fun _ _ _ => ih

theorem Alongside.forM_same {f : γ → EStateM ε σ PUnit} {g : γ → EStateM ε τ PUnit}
    (h : ∀ x, Alongside X F R Eq (f x) (g x)) (xs : List γ) : Alongside X F R Eq (xs.forM f) (xs.forM g) :=
  .forM (V := Eq) (fun x _ hx => hx ▸ h x) (List.forall₂_same.2 fun _ _ => rfl)

theorem Alongside.when {p : Prop} [Decidable p] {m : EStateM ε σ PUnit} {m' : EStateM ε τ PUnit}
    {f : PUnit → EStateM ε σ γ} {g : PUnit → EStateM ε τ δ} (hm : Alongside X F R Eq m m')
    (hf : Alongside X F R V (f ⟨⟩) (g ⟨⟩)) :
    Alongside X F R V (if p then m >>= f else f ⟨⟩) (if p then m' >>= g else g ⟨⟩) := by
  split
  · exact hm.bind fun _ _ _ => hf
  · exact hf

end Alongside

end BranchBound
