import BranchBound.Proofs.Faults
import BranchBound.Proofs.Observation
import BranchBound.Solver.Scripted

namespace BranchBound

variable {σ : Type} [Solver σ] {cmp : NodeOrder}

namespace Call

def tell (p : Nat × Interval) : Call σ := .setBounds p.1 p.2.lower p.2.upper

end Call

namespace Trace

def Refuses (ps : List (Nat × Interval)) (before after : Trace σ) : Prop :=
  ∃ sent p lost, ps = sent ++ p :: lost ∧ after = (.tell p, false) :: before.grant (sent.map .tell)

theorem Refuses.cons {p : Nat × Interval} {ps : List (Nat × Interval)} {before after : Trace σ}
    (h : Refuses ps ((.tell p, true) :: before) after) : Refuses (p :: ps) before after := by
  obtain ⟨sent, q, lost, rfl, rfl⟩ := h
  exact ⟨p :: sent, q, lost, rfl, by rw [List.map_cons, grant_cons]⟩

end Trace

namespace Domains

def boundsOf (d : Domains) (vs : List Nat) : List (Nat × Interval) := vs.filterMap fun v => d.vars[v]?.map (v, ·)

theorem boundsOf_cons {d : Domains} {v : Nat} {x : Interval} (hx : d.vars[v]? = some x) (vs : List Nat) :
    d.boundsOf (v :: vs) = (v, x) :: d.boundsOf vs :=
  List.filterMap_cons_some (by rw [hx]; rfl)

end Domains

namespace Tree

section Pending

variable {t : Tree σ cmp}

/-- What the solver still has to be told: the touched variables that have a column, in the order of their first
touch, with the bounds in force. -/
def pending (t : Tree σ cmp) : List (Nat × Interval) :=
  t.domains.boundsOf (t.domains.queue.toList.filter (· < t.lp.columns.length))

theorem pending_eq_nil (h : t.domains.queue = #[]) : t.pending = [] := by
  unfold pending
  rw [h]
  rfl

end Pending

variable {t t' : Tree (Observed σ) cmp} {start : Array Interval}

theorem forM_sendBounds_tells (vs : List Nat) (hvs : ∀ v ∈ vs, v < t.domains.size) :
    Ends (vs.forM sendBounds) t
      (fun _ t' => Resolved t t' ∧ t'.lp.solver.calls = t.lp.solver.calls.grant ((t.domains.boundsOf vs).map .tell))
      fun e t' => (∃ e', e = .solver e') ∧ Resolved t t' ∧
        Trace.Refuses (t.domains.boundsOf vs) t.lp.solver.calls t'.lp.solver.calls := by
  induction vs generalizing t with
  | nil => exact ⟨⟨t.lp.solver, rfl⟩, rfl⟩
  | cons v vs ih =>
      have hx := Array.getElem?_eq_getElem (hvs v List.mem_cons_self)
      rw [Domains.boundsOf_cons hx]
      rw [List.forM, ends_bind, sendBounds, ends_bind, ends_read, Domains.look_eq hx]
      change Ends (onLp _) _ _ _
      rw [ends_onLp]
      refine Record.ends_onObserved (Solver.setBounds (σ := σ) v _ _) rfl (fun _ s => ?_) fun e s => ?_
      · refine Ends.mono (ih ?_) ?_ ?_
        · exact fun w hw => hvs w (List.mem_cons_of_mem v hw)
        · rintro _ t' ⟨hr, hcalls⟩
          refine ⟨Resolved.trans ⟨_, rfl⟩ hr, ?_⟩
          rw [List.map_cons, Trace.grant_cons]
          exact hcalls
        · rintro e t' ⟨he, hr, hrefuses⟩
          exact ⟨he, Resolved.trans ⟨_, rfl⟩ hr, hrefuses.cons⟩
      · exact ⟨⟨e, rfl⟩, ⟨_, rfl⟩, [], _, _, rfl, rfl⟩

instance (t : Tree σ cmp) : Decidable t.Ready := inferInstanceAs (Decidable (_ ∧ _))

def SolveBreaks (t t' : Tree (Observed σ) cmp) : Prop :=
  Trace.Refuses t.pending t.lp.solver.calls t'.lp.solver.calls ∨
    t'.lp.solver.calls = (.solve, false) :: t.lp.solver.calls.grant (t.pending.map .tell)

theorem solve_tells (hready : t.Ready) (hd : t.domains.WellFormed) :
    Ends solve t
      (fun _ t' => t'.domains = t.domains.drain.2 ∧
        t'.lp.solver.calls = (.solve, true) :: t.lp.solver.calls.grant (t.pending.map .tell))
      fun e t' => (∃ e', e = .solver e') ∧ Resolved { t with domains := t.domains.drain.2 } t' ∧ SolveBreaks t t' := by
  have hvs : ∀ v ∈ t.domains.queue.toList.filter (· < t.lp.columns.length), v < t.domains.size := fun v hv =>
    hd.lt_of_waits ((hd.mem_queue v).1 (Array.mem_toList_iff.1 (List.mem_of_mem_filter hv)))
  unfold solve
  refine Ends.bind (R := fun _ t' => t' = t) (requireLoaded_spec _ (fun _ => rfl) fun hr => absurd hready hr) ?_
  rintro _ t rfl
  unfold sendTouched
  rw [ends_bind, ends_bind, ends_get, ends_bind, ends_set]
  refine (forM_sendBounds_tells (t := { t with domains := t.domains.drain.2 }) _ hvs).mono ?_ ?_
  · rintro _ _ ⟨⟨s, rfl⟩, hcalls⟩
    unfold Tree.onSolver
    rw [ends_bind, ends_onLp]
    refine Record.ends_onObserved (Solver.solve (σ := σ)) rfl (fun status s' => ?_) fun e s' => ?_
    · exact ⟨rfl, congrArg ((.solve, true) :: ·) hcalls⟩
    · exact ⟨⟨e, rfl⟩, ⟨_, rfl⟩, .inr (congrArg ((.solve, false) :: ·) hcalls)⟩
  · rintro e t' ⟨he, hr, hrefuses⟩
    exact ⟨he, hr, .inl hrefuses⟩

/-- A solve tells the solver the pending bounds, in order, and then solves. Once one of these calls fails nothing is
pending: neither the bounds refused nor those after them are told by a solve that is tried again. -/
theorem pending_told {solver : σ} {domains : Domains} {settings : Settings} {t₀ : Tree (Observed σ) cmp}
    (h₀ : ofSettings (.fresh solver) domains settings = .ok t₀) (hd : domains.WellFormed)
    (ops : List (Op (Observed σ))) (hready : (t₀.run ops).Ready) :
    Ends solve (t₀.run ops)
      (fun _ t' => (∀ v, ¬ t'.domains.Waits v) ∧ t'.lp.solver.calls =
        (.solve, true) :: (t₀.run ops).lp.solver.calls.grant ((t₀.run ops).pending.map .tell))
      fun e t' => (∃ e', e = .solver e') ∧ Resolved { t₀.run ops with domains := (t₀.run ops).domains.drain.2 } t' ∧
        SolveBreaks (t₀.run ops) t' ∧ (∀ v, ¬ t'.domains.Waits v) ∧
        Ends solve t' (fun _ u => u.lp.solver.calls = (.solve, true) :: t'.lp.solver.calls)
          fun e u => (∃ e', e = .solver e') ∧ u.lp.solver.calls = (.solve, false) :: t'.lp.solver.calls := by
  have hwell : (t₀.run ops).domains.WellFormed :=
    (run_induction (intact_of_ofSettings h₀ hd) (fun _ op h => perform_intact h op) ops).domains
  generalize t₀.run ops = t at hready hwell
  refine (solve_tells hready hwell).mono ?_ ?_
  · rintro _ t' ⟨hdomains, hcalls⟩
    refine ⟨fun v => ?_, hcalls⟩
    rw [hdomains]
    exact Domains.not_waits_drain hwell v
  · rintro e t' ⟨he, hr, hbreaks⟩
    refine ⟨he, hr, hbreaks, ?_⟩
    obtain ⟨s, rfl⟩ := hr
    have hnil := pending_eq_nil (t := { t with
      domains := t.domains.drain.2, lp := { t.lp with solver := s } }) rfl
    refine ⟨Domains.not_waits_drain hwell, (solve_tells (t := { t with
      domains := t.domains.drain.2, lp := { t.lp with solver := s } }) hready hwell.drain).mono ?_ ?_⟩
    · rintro _ u ⟨-, hcalls⟩
      rw [hnil] at hcalls
      exact hcalls
    · rintro e u ⟨he, -, hbreaks⟩
      refine ⟨he, ?_⟩
      unfold SolveBreaks at hbreaks
      rw [hnil] at hbreaks
      obtain ⟨sent, p, lost, hsplit, -⟩ | hcalls := hbreaks
      · simp at hsplit
      · exact hcalls

theorem pending_told_until_refusal :
    ∃ t₀ : Tree (Observed ScriptedSolver) SelectionRule.bestBound.order,
      ofSettings (.fresh (ScriptedSolver.fresh.planFailure .setBounds (some ⟨1, "busy"⟩))) (.free 3) {} = .ok t₀ ∧
      let ops : List (Op (Observed ScriptedSolver)) := [.create 0 0, .activate (some ⟨0, 0⟩), .load,
        .addColumn (7 : Int), .addColumn (8 : Int), .addColumn (9 : Int)]
      let t := t₀.run ops
      let t' := left solve t
      t.Ready ∧ t.pending.map Prod.fst = [0, 1, 2] ∧ result solve t = .error (.solver ⟨"busy"⟩) ∧
        t'.lp.solver.calls.length = t.lp.solver.calls.length + 2 ∧
        SolveBreaks t t' ∧ (∀ v, ¬ t'.domains.Waits v) ∧ returns solve t' .optimal = true ∧
        (left solve t').lp.solver.calls = (.solve, true) :: t'.lp.solver.calls := by
  refine ⟨_, rfl, ?_⟩
  intro ops t t'
  have hready : t.Ready := by decide +kernel
  have hresult : result solve t = .error (.solver ⟨"busy"⟩) := by decide +kernel
  have hagain : returns solve t' .optimal = true := by decide +kernel
  have hfails := eq_error_of_result hresult
  have hends := @pending_told ScriptedSolver _ SelectionRule.bestBound.order
    (ScriptedSolver.fresh.planFailure .setBounds (some ⟨1, "busy"⟩)) (.free 3) {} _ rfl
    (Domains.ofIntervals_wellFormed _) ops hready
  obtain ⟨-, -, hbreaks, hidle, htries⟩ := Ends.of_error hends hfails
  have hsolves := eq_ok_of_returns hagain
  have hcalls := Ends.of_ok htries hsolves
  exact ⟨hready, by decide +kernel, hresult, by decide +kernel, hbreaks, hidle, hagain, hcalls⟩

/-- After the first bounds were refused no variable waits, and the next solve tells none. -/
theorem pending_lost_after_refusal :
    ∃ t₀ : Tree (Observed ScriptedSolver) SelectionRule.bestBound.order,
      ofSettings (.fresh (ScriptedSolver.fresh.planFailure .setBounds (some ⟨0, "busy"⟩))) (.free 2) {} = .ok t₀ ∧
      let t := t₀.run [.create 0 0, .activate (some ⟨0, 0⟩), .load, .addColumn (7 : Int), .addColumn (8 : Int)]
      let t' := left solve t
      t.Ready ∧ t.pending.map Prod.fst = [0, 1] ∧ result solve t = .error (.solver ⟨"busy"⟩) ∧
        (∀ v ∈ t.pending.map Prod.fst, ¬ t'.domains.Waits v) ∧ returns solve t' .optimal = true ∧
        (left solve t').lp.solver.calls = (.solve, true) :: t'.lp.solver.calls := by
  exact ⟨_, rfl, by decide +kernel, by decide +kernel, by decide +kernel, by decide +kernel, by decide +kernel, rfl⟩

end Tree

end BranchBound
