import BranchBound.Proofs.Constancy
import BranchBound.Solver.Scripted

namespace BranchBound.Tree

variable {σ : Type} [Solver σ] {cmp : NodeOrder} {K : Charge σ} {start : Array Interval} {t t' : Tree σ cmp}
  {id : Handle} {a : Activation} {k : Nat}

structure BranchesOff (t t' : Tree σ cmp) (kept entered : List Handle) : Prop where
  path : t'.path = kept ++ entered
  kept : kept <+: t.path
  entered : ∀ h ∈ entered, h ∉ t.path

/-- No domain is empty but those that the logs of the nodes entered leave alone, and that were empty above
them. A log of a node kept has changed those. -/
structure Consistent (tol : Binary64) (start : Array Interval) (t : Tree σ cmp) (kept entered : List Handle) :
    Prop where
  empty : ∀ (v : Nat) (x : Interval), t.domains.vars[v]? = some x → (x.isEmpty tol = true ↔
    (∀ c ∈ changesAlong t.nodes entered, c.var ≠ v) ∧
      ∃ y, (written start (changesAlong t.nodes kept))[v]? = some y ∧ y.isEmpty tol = true)
  collapsed : ∀ (v : Nat) (x : Interval), t.domains.vars[v]? = some x → x.isEmpty tol = true →
    ∃ c ∈ changesAlong t.nodes kept, c.var = v

theorem Decides.branchesOff (h : Decides start t t' id a k) : BranchesOff t t' (t'.path.take k) (t'.path.drop k) where
  path := (List.take_append_drop k _).symm
  kept := by
    rw [h.kept]
    exact List.take_prefix k _
  entered := h.entered

theorem Resting.consistent (h : Resting K start t) (hk : t.judge start k = .feasible)
    (hdom : NoneEmpty t.settings.tol start) :
    Consistent t.settings.tol start t (t.path.take k) (t.path.drop k) := by
  have hvars : t.domains.vars =
      written (written start (changesAlong t.nodes (t.path.take k))) (changesAlong t.nodes (t.path.drop k)) := by
    rw [h.inForce.vars_eq, ← written_append, ← changesAlong_append, List.take_append_drop]
  constructor
  · intro v x hx
    exact isEmpty_iff_of_verdict hk (hvars ▸ hx)
  · intro v x hx hempty
    obtain ⟨-, y, hy, hempty'⟩ := (isEmpty_iff_of_verdict hk (hvars ▸ hx)).1 hempty
    exact exists_change_of_isEmpty hdom hy hempty'

/-- A node is reported as activated when no change of a node entered has emptied its domain. Domains that
are empty all the same have been so above the nodes entered, and no infeasibility is told. -/
theorem activated_consistent {solver : σ} {domains : Domains} {settings : Settings} {t₀ : Tree σ cmp}
    (h₀ : ofSettings solver domains settings = .ok t₀) (hdom : NoneEmpty settings.tol domains.vars) (ops : List (Op σ))
    {id k : Handle} {t' : Tree σ cmp} (hrun : activate (some id) (t₀.run ops) = .ok (.activated k) t') :
    k = id ∧ t'.focus.emptyVar = none ∧ ∃ kept entered,
      BranchesOff (t₀.run ops) t' kept entered ∧ Consistent settings.tol domains.vars t' kept entered := by
  have h := run_resting Upkeep.nothing (resting_of_ofSettings h₀ trivial) ops
  have hsame : SameSettings (t₀.run ops) t' := (settings_activate (some id) _).of_ok hrun
  have htol : t'.settings.tol = settings.tol := by rw [hsame, run_settings, settings_of_ofSettings h₀]
  obtain ⟨hstays, -⟩ | ⟨-, -, harrives, hdecided⟩ := (activate_cases Upkeep.nothing.toCustody h (some id)).of_ok hrun
  · cases hstays
  · obtain ⟨i, hdecides⟩ := hdecided id rfl
    have hanswer := hdecides.activation
    cases hjudge : t'.judge domains.vars i with
    | infeasible v =>
        rw [hjudge] at hanswer
        cases hanswer
    | feasible =>
        rw [hjudge] at hanswer
        cases hanswer
        refine ⟨rfl, ?_, _, _, hdecides.branchesOff, ?_⟩
        · rw [hdecides.emptyVar, hjudge]
          rfl
        · rw [← htol] at hdom ⊢
          exact harrives.resting.consistent hjudge hdom

theorem activated_consistent_below_root :
    ∃ t₀ : Tree ScriptedSolver SelectionRule.bestBound.order,
      ofSettings .fresh (.ofIntervals [⟨0, 10⟩, ⟨0, 10⟩]) {} = .ok t₀ ∧
      NoneEmpty ({} : Settings).tol (Domains.ofIntervals [⟨0, 10⟩, ⟨0, 10⟩]).vars ∧
      let ops : List (Op ScriptedSolver) := [.create 0 0, .activate (some ⟨0, 0⟩), .create 0 0,
        .changeBound ⟨1, 0⟩ 1 .upper 3, .changeBound ⟨0, 0⟩ 0 .lower 20]
      let t := t₀.run ops
      let t' := left (activate (some ⟨1, 0⟩)) t
      returns (activate (some ⟨1, 0⟩)) t (.activated ⟨1, 0⟩) = true ∧
        t'.domains.vars.map (·.isEmpty ({} : Settings).tol) = #[true, false] ∧ t'.focus.emptyVar = none ∧
        ∃ kept entered, BranchesOff t t' kept entered ∧
          Consistent ({} : Settings).tol (Domains.ofIntervals [⟨0, 10⟩, ⟨0, 10⟩]).vars t' kept entered := by
  refine ⟨_, rfl, by decide +kernel, ?_⟩
  intro ops t t'
  have hreturns : returns (activate (some ⟨1, 0⟩)) t (.activated ⟨1, 0⟩) = true := by decide +kernel
  obtain ⟨-, -, hconsistent⟩ := @activated_consistent ScriptedSolver _ SelectionRule.bestBound.order .fresh
    (.ofIntervals [⟨0, 10⟩, ⟨0, 10⟩]) {} _ rfl (by decide +kernel) ops _ _ _ (eq_ok_of_returns hreturns)
  exact ⟨hreturns, by decide +kernel, by decide +kernel, hconsistent⟩

/-- The root has emptied its own domain. The child is reported as activated, with the domain empty. -/
theorem activated_with_empty_domain :
    ∃ t₀ : Tree ScriptedSolver SelectionRule.bestBound.order,
      ofSettings .fresh (.ofIntervals [⟨0, 10⟩]) {} = .ok t₀ ∧
      NoneEmpty ({} : Settings).tol (Domains.ofIntervals [⟨0, 10⟩]).vars ∧
      let t := t₀.run [.create 0 0, .activate (some ⟨0, 0⟩), .changeBound ⟨0, 0⟩ 0 .lower 20, .create 0 0]
      let t' := left (activate (some ⟨1, 0⟩)) t
      t.focus.emptyVar = some 0 ∧ returns (activate (some ⟨1, 0⟩)) t (.activated ⟨1, 0⟩) = true ∧
        ¬ NoneEmpty ({} : Settings).tol t'.domains.vars ∧ t'.focus.emptyVar = none :=
  ⟨_, rfl, by decide +kernel, by decide +kernel, by decide +kernel, by decide +kernel, by decide +kernel⟩

end BranchBound.Tree
