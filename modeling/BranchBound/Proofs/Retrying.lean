import BranchBound.Proofs.LoadCalls

namespace BranchBound.Tree

variable {σ : Type} [Solver σ] {cmp : NodeOrder} {start : Array Interval}
  {held : Handle → Contents (Observed σ)} {t u u' : Tree (Observed σ) cmp} {a : Handle} {n : Node (Observed σ)}

inductive FailedLoads (t : Tree σ cmp) : Tree σ cmp → Prop
  | none : FailedLoads t t
  | more {u u' : Tree σ cmp} {e : TreeError} : FailedLoads t u → load u = .error e u' → FailedLoads t u'

theorem Tracks.load_fails (h : Tracks held t) (hr : Resting (fun _ _ => True) start t) (ha : t.active = some a)
    {e : TreeError} (hrun : load t = .error e u) :
    t.focus.isLoaded = false ∧ (∃ e', e = .solver e') ∧ Stranded t u ∧ Resting (fun _ _ => True) start u ∧
      Tracks held u := by
  obtain ⟨-, -, hnone⟩ | ⟨-, hload, hfails⟩ := (load_spec Upkeep.nothing.toRebuilding hr).of_error hrun
  · cases ha.symm.trans hnone
  · obtain ⟨he, hr', h'⟩ := h.loadFails hr ha hload hfails
    exact ⟨hload, he, hfails.stranded, hr', h'⟩

theorem FailedLoads.keeps (hf : FailedLoads t u) (h : Tracks held t) (hr : Resting (fun _ _ => True) start t)
    (ha : t.active = some a) : Stranded t u ∧ Resting (fun _ _ => True) start u ∧ Tracks held u := by
  induction hf with
  | none => exact ⟨.refl t, hr, h⟩
  | more _ hrun ih =>
      obtain ⟨hs, hr', h'⟩ := ih
      obtain ⟨-, -, hs', hends⟩ := h'.load_fails hr' (hs.active.trans ha) hrun
      exact ⟨hs.trans hs', hends⟩

/-- The relaxation is the one that was left at the nearest Fork or Subroot, with what is still kept of its basis, and
the active node's share was given back. -/
structure Restores (held : Handle → Contents (Observed σ)) (t u u' : Tree (Observed σ) cmp) (a : Handle)
    (n : Node (Observed σ)) : Prop extends Repays u u' a n where
  contents : u'.lp.contents = heldAt held t.lpFork
  correctDepth : t.lpForkDepth = .ok u'.correctDepth
  size : t.expectedSize u'.correctDepth = .ok u'.lp.size
  focus : u'.focus = { t.focus with isLoaded := true }
  path : u'.path = t.path
  active : u'.active = t.active
  lpFork : u'.lpFork = t.lpFork
  subroot : u'.subroot = t.subroot

theorem Tracks.restores (h : Tracks held u) (hr : Resting (fun _ _ => True) start u) (hs : Stranded t u)
    (ha : u.active = some a) (hre : Reloads u u') (hrepaid : Repays u u' a n) : Restores held t u u' a n := by
  obtain ⟨target, t₁, htarget, hrun, hdone, -⟩ := hre
  obtain ⟨hcontents, rfl⟩ := (rebuildPath_restores hr h.toRemembers ha htarget).of_ok hrun
  have hsize := h.expectedSize_eq hr htarget
  obtain ⟨-, -⟩ := (rebuildPath_alone u _).of_ok hrun
  have hsame : u'.lp.contents = heldAt held u.lpFork := by
    rw [← hcontents]
    unfold Relaxation.contents
    rw [hdone.columns, hdone.rows]
  obtain ⟨-⟩ := hs
  refine { hrepaid with
    contents := hsame
    correctDepth := by rw [hdone.correctDepth]; exact htarget
    size := ?_
    focus := hdone.focus
    path := hdone.path
    active := hdone.active
    lpFork := hdone.lpFork
    subroot := hdone.subroot }
  rw [hdone.correctDepth, ← Relaxation.size_contents, hsame]
  exact hsize

/-- A load that fails has met a failing call, and leaves the tree as it was but for the relaxation. However often
that happens, the load that succeeds restores what one that had succeeded at once would have. -/
theorem load_retried {solver : σ} {domains : Domains} {settings : Settings} {t₀ u : Tree (Observed σ) cmp}
    (h₀ : ofSettings (.fresh solver) domains settings = .ok t₀) (ops : List (Op (Observed σ))) {a : Handle}
    (ha : (t₀.run ops).active = some a) (hload : (t₀.run ops).focus.isLoaded = false)
    (hu : FailedLoads (t₀.run ops) u) :
    ∃ n, (t₀.run ops).nodes.get? a = some n ∧
      (∀ e u', load u = .error e u' → Stranded (t₀.run ops) u' ∧
        ∃ e', e = .solver e' ∧ Observed.Breaks e' u.lp.solver u'.lp.solver) ∧
      ∀ r u', load u = .ok r u' →
        r = .loaded ∧ Restores (t₀.remembered ops) (t₀.run ops) u u' a n ∨
        r = .cutoff ∧ (t₀.run ops).focus.emptyVar.isSome = true := by
  obtain ⟨hr, htracks⟩ := run_follows (resting_of_ofSettings (K := fun _ _ => True) h₀ trivial)
    (vacant_of_ofSettings h₀).1 ops
  obtain ⟨n, hn, -⟩ := hr.actor ha
  obtain ⟨hs, hru, htu⟩ := hu.keeps htracks hr ha
  have hau := hs.active.trans ha
  have hcalls := load_tells hru htu.toRemembers hau (n := n) (hs.nodes ▸ hn)
  refine ⟨n, hn, fun e u' hrun => ?_, fun r u' hrun => ?_⟩
  · obtain ⟨-, ⟨e', he⟩, hs', -⟩ := htu.load_fails hru hau hrun
    exact ⟨hs.trans hs', e', he, hcalls.of_error hrun e' he⟩
  · have htells := hcalls.of_ok hrun
    have hends := ((load_spec Upkeep.nothing.toRebuilding hru).of_ok hrun).2
    cases r with
    | loaded => exact .inl ⟨rfl, htu.restores hru hs hau hends.2 htells⟩
    | alreadyLoaded =>
        obtain ⟨-⟩ := hs
        cases hload.symm.trans htells
    | cutoff =>
        obtain ⟨-⟩ := hs
        exact .inr ⟨rfl, htells⟩

/-- Two loads fail, one halfway back and one at the basis, before the third restores the Fork's relaxation. -/
theorem load_retried_twice :
    ∃ t₀ : Tree (Observed ScriptedSolver) SelectionRule.bestBound.order,
      ofSettings (.fresh ((ScriptedSolver.fresh.planFailure .shrinkRows (some ⟨0, "busy"⟩)).planFailure .setBasis
        (some ⟨1, "lost"⟩))) (.free 1) {} = .ok t₀ ∧
      let ops : List (Op (Observed ScriptedSolver)) := [.create 0 0, .activate (some ⟨0, 0⟩), .load,
        .addColumn (7 : Int), .solve, .create 0 0, .create 0 0, .activate (some ⟨1, 0⟩), .load,
        .addColumn (8 : Int), .addRow (9 : Int), .activate (some ⟨2, 0⟩)]
      let t := t₀.run ops
      let u := left load (left load t)
      let u' := left load u
      result load t = .error (.solver ⟨"busy"⟩) ∧ result load (left load t) = .error (.solver ⟨"lost"⟩) ∧
        returns load u .loaded = true ∧ FailedLoads t u ∧ u'.lp.size = ⟨1, 0⟩ ∧
        u.installs.length = 1 ∧ (t.nodes.get? ⟨2, 0⟩).map (fun n => (u.frees n).length) = some 1 ∧
        ∃ n, t.nodes.get? ⟨2, 0⟩ = some n ∧ Restores (t₀.remembered ops) t u u' ⟨2, 0⟩ n := by
  refine ⟨_, rfl, ?_⟩
  intro ops t u u'
  have hbusy : result load t = .error (.solver ⟨"busy"⟩) := by decide +kernel
  have hlost : result load (left load t) = .error (.solver ⟨"lost"⟩) := by decide +kernel
  have hloaded : returns load u .loaded = true := by decide +kernel
  have hfailed : FailedLoads t u := .more (.more .none (eq_error_of_result hbusy)) (eq_error_of_result hlost)
  obtain ⟨n, hn, hfails, hends⟩ := @load_retried ScriptedSolver _ SelectionRule.bestBound.order
    ((ScriptedSolver.fresh.planFailure .shrinkRows (some ⟨0, "busy"⟩)).planFailure .setBasis (some ⟨1, "lost"⟩))
    (.free 1) {} _ _ rfl ops ⟨2, 0⟩ (by decide +kernel) (by decide +kernel) hfailed
  obtain ⟨-, hrestores⟩ | ⟨hne, -⟩ := hends _ _ (eq_ok_of_returns hloaded)
  · exact ⟨hbusy, hlost, hloaded, hfailed, by decide +kernel, by decide +kernel, by decide +kernel, n, hn, hrestores⟩
  · cases hne

end BranchBound.Tree
