import BranchBound.Proofs.Runs
import BranchBound.Solver.Scripted

namespace BranchBound

variable {σ : Type} [Solver σ] {cmp : NodeOrder}

namespace Tree

variable {K K' : Charge σ} {start : Array Interval} {t t' : Tree σ cmp}

theorem Resting.ancestry (h : Resting K start t) :
    Climb t.nodes t.active t.path.reverse none := by
  have hclimb := h.walk.climb (Nat.le_refl t.path.length)
  rwa [List.take_length, show before t.path t.path.length = t.active from h.active_eq.symm] at hclimb

theorem Resting.vars_start (h : Resting K start t) (hp : t.path = []) : t.domains.vars = start := by
  rw [h.inForce.vars_eq, hp]
  rfl

theorem Resting.path_nil (h : Resting K start t) (ha : t.active = none) : t.path = [] := by
  have htip := h.active_eq
  rw [ha] at htip
  refine List.length_eq_zero_iff.1 ?_
  by_contra hlen
  obtain ⟨i, hi⟩ := Nat.exists_eq_succ_of_ne_zero hlen
  have hstep : t.path[i]? = some t.path[i] := List.getElem?_eq_getElem (by omega)
  rw [tip, hi, before, hstep] at htip
  cases htip

/-- The bounds in force are those that the tree was made with, overwritten by the changes of the path's
nodes from the root on. Without an active node, and after everything is cleared, they are the former. -/
theorem domains_reconstructed {solver : σ} {domains : Domains} {settings : Settings} {t₀ : Tree σ cmp}
    (h₀ : ofSettings solver domains settings = .ok t₀) (ops : List (Op σ)) :
    Climb (t₀.run ops).nodes (t₀.run ops).active (t₀.run ops).path.reverse none ∧
      (t₀.run ops).domains.vars = written domains.vars (changesAlong (t₀.run ops).nodes (t₀.run ops).path) ∧
      (∀ a t', activate none (t₀.run ops) = .ok a t' → t'.domains.vars = domains.vars) ∧
      (left clear (t₀.run ops)).domains.vars = domains.vars := by
  have h := run_resting Upkeep.nothing (resting_of_ofSettings h₀ trivial) ops
  refine ⟨h.ancestry, h.inForce.vars_eq, fun a t' hrun => ?_, ?_⟩
  · obtain ⟨h', ⟨-, -, hn, -⟩ | ⟨-, -, hswitched⟩⟩ := (activate_spec Upkeep.nothing.toCustody h none).of_ok hrun
    · cases hn
    · obtain ⟨-, -, -, -, hfollowed⟩ := hswitched
      exact h'.vars_start (h'.path_nil hfollowed.active)
  · refine Ends.left (P := fun t' => t'.domains.vars = domains.vars)
      ((clear_spec Upkeep.nothing.toRebuilding h).mono (fun _ t' h' => ?_) fun _ t' h' => ?_)
    · exact h'.1.vars_start h'.2.1.path
    · exact h'.2.1.vars_start h'.2.2.path

theorem domains_reconstructed_at_child :
    ∃ t₀ : Tree ScriptedSolver SelectionRule.bestBound.order, ofSettings .fresh (.free 2) {} = .ok t₀ ∧
      let t := t₀.run [.create 0 0, .activate (some ⟨0, 0⟩), .create 0 0, .changeBound ⟨1, 0⟩ 1 .upper 3,
        .changeBound ⟨0, 0⟩ 0 .lower 1, .changeBound ⟨0, 0⟩ 1 .upper 5, .activate (some ⟨1, 0⟩)]
      t.path = [⟨0, 0⟩, ⟨1, 0⟩] ∧
        changesAlong t.nodes t.path =
          [⟨0, .lower, -.infinity, 1⟩, ⟨1, .upper, .infinity, 5⟩, ⟨1, .upper, 5, 3⟩] ∧
        t.domains.vars = #[⟨1, .infinity⟩, ⟨-.infinity, 3⟩] ∧
        t.domains.vars = written (Domains.free 2).vars (changesAlong t.nodes t.path) ∧
        (left clear t).domains.vars = (Domains.free 2).vars := by
  refine ⟨_, rfl, by decide +kernel, by decide +kernel, by decide +kernel, ?_⟩
  have h := @domains_reconstructed ScriptedSolver _ SelectionRule.bestBound.order .fresh (.free 2) {} _ rfl
  exact ⟨(h _).2.1, (h _).2.2.2⟩

end Tree

end BranchBound
