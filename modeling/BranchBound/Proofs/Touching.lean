import BranchBound.Proofs.Undo

namespace BranchBound.Domains

variable {d d' d'' : Domains} {v w : Nat}

def Waits (d : Domains) (v : Nat) : Prop := d.queued[v]? = some true

instance (d : Domains) (v : Nat) : Decidable (d.Waits v) := inferInstanceAs (Decidable (_ = _))

/-- The flags tell which variables are in the queue. -/
structure WellFormed (d : Domains) : Prop where
  size : d.queued.size = d.size
  mem_queue : ∀ v, v ∈ d.queue ↔ d.Waits v

theorem WellFormed.lt_of_waits (h : d.WellFormed) (hv : d.Waits v) : v < d.size := by
  rw [← h.size]
  exact (Array.getElem?_eq_some_iff.1 hv).1

theorem ofIntervals_wellFormed (xs : List Interval) : (ofIntervals xs).WellFormed where
  size := by simp [ofIntervals, Domains.size]
  mem_queue v := by
    simp only [ofIntervals, Waits, Array.not_mem_empty, false_iff, Array.getElem?_replicate]
    split <;> simp

theorem WellFormed.flag (h : d.WellFormed) (hv : v < d.size) : ∃ b, d.queued[v]? = some b := by
  rw [← h.size] at hv
  exact ⟨_, Array.getElem?_eq_getElem hv⟩

theorem size_enqueue (d : Domains) (v : Nat) : (d.enqueue v).size = d.size := by
  simp [Domains.size]

theorem waits_enqueue (h : d.WellFormed) : (d.enqueue v).Waits w ↔ d.Waits w ∨ w = v ∧ v < d.size := by
  unfold enqueue
  split
  · rename_i hv
    have hlt := (Array.getElem?_eq_some_iff.1 hv).1
    simp only [Waits, Array.getElem?_setIfInBounds]
    by_cases hw : v = w
    · subst hw
      simp [hlt, ← h.size]
    · simp [hw, Ne.symm hw]
  · rename_i hv
    refine ⟨.inl, fun hw => hw.elim id ?_⟩
    rintro ⟨rfl, hlt⟩
    obtain ⟨b, hb⟩ := h.flag hlt
    cases b with
    | false => exact absurd hb hv
    | true => exact hb

theorem WellFormed.enqueue (h : d.WellFormed) (v : Nat) : (d.enqueue v).WellFormed := by
  refine ⟨?_, fun w => ?_⟩
  · rw [size_enqueue, ← h.size]
    unfold Domains.enqueue
    split <;> simp
  · rw [waits_enqueue h]
    unfold Domains.enqueue
    split
    · rename_i hv
      have hlt := (Array.getElem?_eq_some_iff.1 hv).1
      rw [h.size] at hlt
      simp [h.mem_queue, hlt]
    · rename_i hv
      rw [h.mem_queue]
      refine ⟨.inl, fun hw => hw.elim id ?_⟩
      rintro ⟨rfl, hlt⟩
      obtain ⟨b, hb⟩ := h.flag hlt
      cases b with
      | false => exact absurd hb hv
      | true => exact hb

/-- Bounds were overwritten or variables touched, and nobody was told: whoever does not wait has the
bounds as before. -/
structure Retouched (d d' : Domains) : Prop where
  wellFormed : d'.WellFormed
  size : d'.size = d.size
  waits : ∀ v, d.Waits v → d'.Waits v
  same : ∀ v, ¬ d'.Waits v → d'.vars[v]? = d.vars[v]?

def Touches (d d' : Domains) : Prop := d.WellFormed → Retouched d d'

namespace Touches

theorem refl (d : Domains) : Touches d d := fun h => ⟨h, rfl, fun _ hv => hv, fun _ _ => rfl⟩

theorem trans (h : Touches d d') (h' : Touches d' d'') : Touches d d'' := by
  intro hd
  have h₁ := h hd
  have h₂ := h' h₁.wellFormed
  exact ⟨h₂.wellFormed, h₂.size.trans h₁.size, fun v hv => h₂.waits v (h₁.waits v hv),
    fun v hv => (h₂.same v hv).trans (h₁.same v fun hv' => hv (h₂.waits v hv'))⟩

theorem enqueue (d : Domains) (v : Nat) : Touches d (d.enqueue v) := fun h =>
  ⟨h.enqueue v, size_enqueue d v, fun _ hw => (waits_enqueue h).2 (.inl hw), fun w _ => by rw [vars_enqueue]⟩

theorem enqueueAll (d : Domains) (vs : List Nat) : Touches d (vs.foldl Domains.enqueue d) := by
  induction vs generalizing d with
  | nil => exact .refl d
  | cons v vs ih => exact (enqueue d v).trans (ih _)

theorem touchAll (d : Domains) : Touches d d.touchAll := enqueueAll d _

theorem overwrite (d : Domains) (v : Nat) (side : Side) (value : Binary64) :
    Touches d (d.overwrite v side value) := by
  intro h
  have hmodified : ({ d with vars := d.vars.modify v (·.setBound side value) } : Domains).WellFormed := by
    refine ⟨?_, h.mem_queue⟩
    rw [h.size]
    simp [Domains.size]
  unfold Domains.overwrite
  refine ⟨hmodified.enqueue v, ?_, fun w hw => (waits_enqueue hmodified).2 (.inl hw), fun w hw => ?_⟩
  · rw [size_enqueue]
    simp [Domains.size]
  · rw [waits_enqueue hmodified] at hw
    rw [vars_enqueue, Array.getElem?_modify]
    split
    · rename_i hvw
      subst hvw
      have hout : ¬ v < d.vars.size := by
        intro hlt
        refine hw (.inr ⟨rfl, ?_⟩)
        simpa [Domains.size] using hlt
      simp [Array.getElem?_eq_none (Nat.not_lt.1 hout)]
    · rfl

theorem apply (tol : Binary64) (cs : List BoundChange) (d : Domains) : Touches d (applyChanges tol cs d).domains := by
  induction cs generalizing d with
  | nil => exact .refl d
  | cons c cs ih =>
      unfold applyChanges
      split
      · exact .refl d
      · exact (overwrite d _ _ _).trans (ih _)

theorem revert (cs : List BoundChange) (d : Domains) : Touches d (revertChanges cs d).1 := by
  induction cs generalizing d with
  | nil => exact .refl d
  | cons c cs ih =>
      unfold revertChanges Domains.setBound
      cases d.look c.var with
      | error e => exact .refl d
      | ok x => exact (overwrite d _ _ _).trans (ih _)

end Touches

theorem waits_touchAll (h : d.WellFormed) (hv : v < d.size) : d.touchAll.Waits v := by
  have hall : ∀ (vs : List Nat) (d : Domains), d.WellFormed → v < d.size → v ∈ vs → (vs.foldl enqueue d).Waits v := by
    intro vs
    induction vs with
    | nil => exact fun d _ _ hm => nomatch hm
    | cons w vs ih =>
        intro d hd hlt hm
        rcases List.mem_cons.1 hm with rfl | hm
        · exact ((Touches.enqueueAll _ vs) (hd.enqueue v)).waits v ((waits_enqueue hd).2 (.inr ⟨rfl, hlt⟩))
        · exact ih _ (hd.enqueue w) (by rwa [size_enqueue]) hm
  exact hall _ d h hv (List.mem_range.2 hv)

theorem not_waits_drain (h : d.WellFormed) (v : Nat) : ¬ d.drain.2.Waits v := by
  have hclear : ∀ (vs : List Nat) (q : Array Bool), (vs.foldl (·.setIfInBounds · false) q)[v]? = some true →
      v ∉ vs ∧ q[v]? = some true := by
    intro vs
    induction vs with
    | nil => exact fun q hq => ⟨List.not_mem_nil, hq⟩
    | cons w vs ih =>
        intro q hq
        obtain ⟨hm, hq⟩ := ih _ hq
        rw [Array.getElem?_setIfInBounds] at hq
        split at hq
        · split at hq <;> cases hq
        · rename_i hne
          exact ⟨fun hmem => (List.mem_cons.1 hmem).elim (fun he => hne he.symm) hm, hq⟩
  intro hv
  obtain ⟨hm, hq⟩ := hclear _ _ hv
  exact hm (Array.mem_toList_iff.2 ((h.mem_queue v).2 hq))

theorem WellFormed.drain (h : d.WellFormed) : d.drain.2.WellFormed := by
  refine ⟨?_, fun v => ?_⟩
  · have hsize : ∀ (vs : List Nat) (q : Array Bool), (vs.foldl (·.setIfInBounds · false) q).size = q.size := by
      intro vs
      induction vs with
      | nil => exact fun _ => rfl
      | cons w vs ih =>
          intro q
          rw [List.foldl_cons, ih, Array.size_setIfInBounds]
    exact (hsize _ _).trans h.size
  · exact ⟨fun hm => absurd hm (Array.not_mem_empty v), fun hv => absurd hv (not_waits_drain h v)⟩

end BranchBound.Domains
