import BranchBound.Proofs.Relabeling
import BranchBound.Proofs.Relaxation
import BranchBound.Tree.Choice
import BranchBound.Tree.Solving

namespace BranchBound

variable {σ : Type} [Solver σ] {cmp : NodeOrder}

namespace Tree

variable {K K' : Charge σ} {start : Array Interval} {t t' : Tree σ cmp}

theorem Resting.requeue (h : Resting K start t) {domains : Domains} (hd : domains.vars = t.domains.vars) :
    Resting K start { t with domains := domains } := by
  have hsize : domains.size = t.domains.size := by
    unfold Domains.size
    rw [hd]
  have hlogs : Logs t.nodes domains.size := by
    rw [hsize]
    exact h.logs
  have hvars : InForce start t.nodes t.path domains.vars := by
    rw [hd]
    exact h.inForce
  exact { h with logs := hlogs, inForce := hvars }

def Ready (t : Tree σ cmp) : Prop := t.active.isSome = true ∧ t.focus.isLoaded = true

theorem requireLoaded_spec (work : LoadedWork) {Q : Unit → Tree σ cmp → Prop} {E : TreeError → Tree σ cmp → Prop}
    (hQ : t.Ready → Q () t) (hE : ¬ t.Ready → E (.misuse (.notLoaded work)) t) : Ends (requireLoaded work) t Q E := by
  unfold requireLoaded
  rw [ends_bind, ends_get]
  split
  · rename_i h
    rw [Bool.and_eq_true] at h
    exact hQ h
  · rename_i h
    rw [Bool.and_eq_true] at h
    exact hE h

/-- Where work on the relaxation stops: it was not loaded, or the solver has failed. -/
def Stalls (K' : Charge σ) (start : Array Interval) (work : LoadedWork) (t : Tree σ cmp) (e : TreeError)
    (t' : Tree σ cmp) : Prop :=
  (t' = t ∧ e = .misuse (.notLoaded work) ∧ ¬ t.Ready) ∨ (∃ e', e = .solver e') ∧ Resting K' start t' ∧ Works t t'

theorem Stalls.fails {work : LoadedWork} {e : TreeError} (h : Stalls K' start work t e t') : Fails K' start t e t' := by
  obtain ⟨rfl, rfl, -⟩ | ⟨he, ht, -⟩ := h
  · exact .inl ⟨rfl, .inr ⟨_, rfl⟩⟩
  · exact .inr ⟨he, ht⟩

theorem Stalls.of_solver {work : LoadedWork} {lp : Relaxation σ} (h : Resting K start t)
    (hk : K' lp (bases t.nodes)) (hc : lp.contents = t.lp.contents) (e : SolverError) :
    Stalls K' start work t (.solver e) { t with lp := lp } := by
  refine .inr ⟨⟨e, rfl⟩, { h with custody := hk }, { Kept.works (.refl t) with contents := ?_ }⟩
  change Contents.Begins _ lp.contents
  rw [hc]
  exact .refl _

theorem addColumn_spec (hK : Upkeep K K') (h : Resting K start t) (c : Solver.Column σ) :
    Ends (addColumn c) t (fun _ t' => Resting K start t' ∧ Quiet t t') (Stalls K' start .addColumn t) := by
  unfold addColumn
  refine Ends.bind (R := fun _ t' => t' = t) (requireLoaded_spec _ (fun _ => rfl) fun hr => .inl ⟨rfl, rfl, hr⟩) ?_
  rintro _ t rfl
  rw [ends_bind, ends_onLp]
  refine ((hK.addColumn _ _ c h.custody).and (Relaxation.addColumn_contents c _)).mono ?_ ?_
  · rintro _ lp ⟨hk, hc⟩
    have h₁ : Resting K start { t with lp := lp } := { h with custody := hk }
    refine ⟨h₁.requeue (Domains.vars_enqueue _ _), { Kept.quiet (.refl t) with
      contents := ?_, domains := .enqueue _ _ }⟩
    change Contents.Begins _ lp.contents
    rw [hc]
    exact Contents.begins_append _ _
  · exact fun e lp ⟨hk, hc⟩ => .of_solver h hk hc e

theorem addRow_spec {row : Solver.Row σ} (hrow : ∀ r l, K r l →
      Ends (Relaxation.addRow row) r (fun _ r' => K r' l) fun _ r' => K' r' l) (h : Resting K start t) :
    Ends (addRow row) t (fun _ t' => Resting K start t' ∧ Quiet t t') (Stalls K' start .addRow t) := by
  unfold addRow
  refine Ends.bind (R := fun _ t' => t' = t) (requireLoaded_spec _ (fun _ => rfl) fun hr => .inl ⟨rfl, rfl, hr⟩) ?_
  rintro _ t rfl
  rw [ends_onLp]
  refine ((hrow _ _ h.custody).and (Relaxation.addRow_contents row _)).mono ?_ ?_
  · rintro _ lp ⟨hk, hc⟩
    refine ⟨{ h with custody := hk }, { Kept.quiet (.refl t) with contents := ?_ }⟩
    change Contents.Begins _ lp.contents
    rw [hc]
    exact Contents.begins_append _ _
  · exact fun e lp ⟨hk, hc⟩ => .of_solver h hk hc e

section Solve

def Resolved (t t' : Tree σ cmp) : Prop := ∃ s, t' = { t with lp := { t.lp with solver := s } }

theorem Resolved.trans {t'' : Tree σ cmp} (h : Resolved t t') (h' : Resolved t' t'') : Resolved t t'' := by
  obtain ⟨s, rfl⟩ := h
  obtain ⟨s', rfl⟩ := h'
  exact ⟨s', rfl⟩

theorem Resting.onSolver {α : Type} {act : SolverM σ α} (h : Resting K start t)
    (hact : Ends (Relaxation.onSolver act) t.lp (fun _ r => K r (bases t.nodes)) fun _ r => K' r (bases t.nodes)) :
    Ends (onSolver act) t (fun _ t' => Resting K start t' ∧ Resolved t t')
      fun e t' => (∃ e', e = .solver e') ∧ Resting K' start t' ∧ Resolved t t' :=
  ends_onSolver_of hact (fun _ s hk => ⟨{ h with custody := hk }, s, rfl⟩)
    fun e s hk => ⟨⟨e, rfl⟩, { h with custody := hk }, s, rfl⟩

def Unsent (K K' : Charge σ) (start : Array Interval) (vs : List Nat) (t : Tree σ cmp) (e : TreeError)
    (t' : Tree σ cmp) : Prop :=
  (∃ e', e = .solver e') ∧ Resting K' start t' ∧ Resolved t t' ∨
    (∃ v ∈ vs, t.domains.size ≤ v ∧ e = .outOfRange ⟨t.domains.size, v⟩) ∧ Resting K start t' ∧ Resolved t t'

theorem sendBounds_spec (hK : Upkeep K K') (h : Resting K start t) {v : Nat} {vs : List Nat} (hv : v ∈ vs) :
    Ends (sendBounds v) t (fun _ t' => Resting K start t' ∧ Resolved t t') (Unsent K K' start vs t) := by
  unfold sendBounds
  rw [ends_bind, ends_read]
  unfold Domains.look
  cases hx : t.domains.vars[v]? with
  | some x =>
      exact (h.onSolver (hK.setBounds _ _ v x.lower x.upper h.custody)).mono (fun _ _ h => h) fun _ _ h => .inl h
  | none => exact .inr ⟨⟨v, hv, Array.getElem?_eq_none_iff.1 hx, rfl⟩, h, t.lp.solver, rfl⟩

theorem Unsent.after {vs : List Nat} {e : TreeError} {t₁ : Tree σ cmp} (h : Unsent K K' start vs t₁ e t')
    (hr : Resolved t t₁) : Unsent K K' start vs t e t' := by
  obtain ⟨he, ht, hr'⟩ | ⟨he, ht, hr'⟩ := h
  · exact .inl ⟨he, ht, hr.trans hr'⟩
  · obtain ⟨s, rfl⟩ := hr
    exact .inr ⟨he, ht, Resolved.trans ⟨s, rfl⟩ hr'⟩

theorem sendTouched_spec (hK : Upkeep K K') (h : Resting K start t) :
    Ends sendTouched t
      (fun _ t' => Resting K start t' ∧ Resolved { t with domains := t.domains.drain.2 } t')
      (Unsent K K' start t.domains.queue.toList { t with domains := t.domains.drain.2 }) := by
  have h₁ : Resting K start { t with domains := t.domains.drain.2 } := h.requeue (Domains.vars_drain _)
  unfold sendTouched
  rw [ends_bind, ends_get, ends_bind, ends_set]
  refine (Ends.forM (I := fun vs t' => (∀ v ∈ vs, v ∈ t.domains.queue.toList) ∧ Resting K start t' ∧
      Resolved { t with domains := t.domains.drain.2 } t') (fun v vs t₁ ⟨hvs, ht, hr⟩ => ?_)
    ⟨fun v hv => List.mem_of_mem_filter hv, h₁, t.lp.solver, rfl⟩).mono (fun _ _ h' => h'.2) fun _ _ h' => h'
  exact (sendBounds_spec hK ht (hvs v List.mem_cons_self)).mono
    (fun _ _ h' => ⟨fun w hw => hvs w (List.mem_cons_of_mem v hw), h'.1, hr.trans h'.2⟩) fun _ _ h' => h'.after hr

theorem Resolved.works (h : Resolved { t with domains := t.domains.drain.2 } t') : Works t t' := by
  obtain ⟨s, rfl⟩ := h
  exact { Kept.works (.refl t) with domains := Domains.WellFormed.drain }

/-- A solve hands out the touched variables. It finds none out of range unless one of those does not exist. -/
theorem solve_spec (hK : Upkeep K K') (h : Resting K start t) :
    Ends solve t (fun _ t' => Resting K start t' ∧ Works t t')
      fun e t' => Stalls K' start .solve t e t' ∨
        (∃ v ∈ t.domains.queue.toList, t.domains.size ≤ v ∧ e = .outOfRange ⟨t.domains.size, v⟩) ∧
          Resting K start t' ∧ Works t t' := by
  unfold solve
  refine Ends.bind (R := fun _ t' => t' = t ∧ t.Ready) (requireLoaded_spec _
    (fun hr => ⟨rfl, hr⟩) fun hr => .inl (.inl ⟨rfl, rfl, hr⟩)) ?_
  rintro _ t' ⟨rfl, hready⟩
  refine ((sendTouched_spec hK h).mono (fun _ _ h => h) fun _ _ h' =>
    h'.imp (fun h' => .inr ⟨h'.1, h'.2.1, h'.2.2.works⟩) fun h' => ⟨h'.1, h'.2.1, h'.2.2.works⟩).bind ?_
  rintro _ t₁ ⟨h₁, hr₁⟩
  refine ((h₁.onSolver (hK.solve _ _ h₁.custody)).mono (fun _ _ h => h)
    fun _ _ h' => .inl (.inr ⟨h'.1, h'.2.1, (hr₁.trans h'.2.2).works⟩)).bind ?_
  rintro status t₂ ⟨h₂, hr₂⟩
  have h₃ := (hr₁.trans hr₂).works
  exact ⟨{ h₂ with }, { h₃ with isSolved := fun _ => .inr hready.2 }⟩

theorem pop_spec (h : Resting K start t) :
    Ends pop t (fun _ t' => Resting K start t' ∧ Quiet t t') fun _ _ => False := by
  unfold pop
  rw [ends_modifyGet]
  split
  · rename_i id rest hp
    obtain ⟨key, hperm⟩ := Frontier.toList_pop?_perm hp
    have hqueue := h.queue.of_filter (Frontier.filter_of_perm_cons h.queue.nodup hperm)
    exact ⟨{ h with queue := hqueue }, { Kept.quiet (.refl t) with }⟩
  · exact ⟨h, Kept.quiet (.refl t)⟩

theorem setPolicy_spec (h : Resting K start t) (p : SnapshotPolicy) :
    Ends (setPolicy p) t (fun _ t' => Resting K start t' ∧ Quiet t t') fun _ _ => False :=
  ⟨{ h with }, { Kept.quiet (.refl t) with }⟩

end Solve

end Tree

end BranchBound
