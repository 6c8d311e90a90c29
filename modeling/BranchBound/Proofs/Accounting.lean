import BranchBound.Proofs.Observation
import BranchBound.Proofs.Runs
import BranchBound.Solver.Scripted

namespace BranchBound

variable {σ : Type} [Solver σ] {cmp : NodeOrder}

namespace Trace

def issued : Trace σ → List Nat
  | [] => []
  | (.getBasis, true) :: past => past.length :: issued past
  | _ :: past => issued past

def freed : Trace σ → List Nat
  | [] => []
  | (.freeBasis b, _) :: past => b :: freed past
  | _ :: past => freed past

/-- Every basis that was to be installed had been handed out before and was not given back yet. -/
def Orderly : Trace σ → Prop
  | [] => True
  | (.setBasis b, _) :: past => (b ∈ issued past ∧ b ∉ freed past) ∧ Orderly past
  | _ :: past => Orderly past

variable {tr : Trace σ} {call : Call σ} {b : Nat} {ok : Bool}

theorem lt_of_mem_issued (h : b ∈ issued tr) : b < tr.length := by
  induction tr with
  | nil => cases h
  | cons e past ih =>
      unfold issued at h
      split at h
      · rename_i he
        cases he
      · rename_i past' he
        cases he
        rcases List.mem_cons.1 h with rfl | h
        · exact Nat.lt_succ_self _
        · exact Nat.lt_succ_of_lt (ih h)
      · rename_i he
        cases he
        exact Nat.lt_succ_of_lt (ih h)

theorem nodup_issued (tr : Trace σ) : (issued tr).Nodup := by
  induction tr with
  | nil => exact List.nodup_nil
  | cons e past ih =>
      unfold issued
      split
      · exact List.nodup_nil
      · rename_i past' he
        cases he
        exact List.nodup_cons.2 ⟨fun h => Nat.lt_irrefl _ (lt_of_mem_issued h), ih⟩
      · rename_i he
        cases he
        exact ih

theorem issued_cons (h : call.handlesBasis = false) : issued ((call, ok) :: tr) = issued tr := by
  cases call <;> first | rfl | cases h

theorem freed_cons (h : call.handlesBasis = false) : freed ((call, ok) :: tr) = freed tr := by
  cases call <;> first | rfl | cases h

theorem orderly_cons (h : call.handlesBasis = false) : Orderly ((call, ok) :: tr) ↔ Orderly tr := by
  cases call <;> first | rfl | cases h

theorem Orderly.tail {e : Call σ × Bool} (h : Orderly (e :: tr)) : Orderly tr := by
  unfold Orderly at h
  split at h
  · trivial
  · rename_i he
    cases he
    exact h.2
  · rename_i he
    cases he
    exact h

theorem Orderly.installed {later earlier : Trace σ}
    (h : Orderly (later ++ (.setBasis b, ok) :: earlier)) : b ∈ issued earlier ∧ b ∉ freed earlier := by
  induction later with
  | nil => exact h.1
  | cons e later ih => exact ih h.tail

end Trace

def ledger : Record σ := fun _ tr l =>
  tr.Orderly ∧ (tr.freed ++ l.map Prod.fst).Perm tr.issued

theorem ledger_accounts : (ledger (σ := σ)).Accounts ledger where
  perm _ _ l l' hl h := ⟨h.1, ((hl.map Prod.fst).append_left _).symm.trans h.2⟩
  issue _ _ l b h := ⟨h.1, List.perm_middle.trans (h.2.cons _)⟩
  refuse _ _ _ h := h
  install _ tr l b hb h := by
    refine ⟨⟨⟨?_, fun hfreed => ?_⟩, h.1⟩, h.2⟩
    · exact h.2.subset (List.mem_append_right _ (List.mem_map_of_mem hb))
    · have hnodup := h.2.nodup_iff.2 (Trace.nodup_issued tr)
      exact (List.nodup_append'.1 hnodup).2.2 hfreed (List.mem_map_of_mem hb)
  reject _ tr l b hb h := by
    refine ⟨⟨⟨?_, fun hfreed => ?_⟩, h.1⟩, h.2⟩
    · exact h.2.subset (List.mem_append_right _ (List.mem_map_of_mem hb))
    · have hnodup := h.2.nodup_iff.2 (Trace.nodup_issued tr)
      exact (List.nodup_append'.1 hnodup).2.2 hfreed (List.mem_map_of_mem hb)
  free _ _ _ _ h := ⟨h.1, List.perm_middle.symm.trans h.2⟩

theorem ledger_upkeep : Upkeep (ledger (σ := σ)).charge ledger.charge :=
  ledger_accounts.upkeep fun call hcall => by
    have hkeep : ∀ ok tr l, Trace.Orderly tr ∧ (Trace.freed tr ++ l.map Prod.fst).Perm (Trace.issued tr) →
        ledger (σ := σ) .empty ((call, ok) :: tr) l := by
      rintro ok tr l h
      unfold ledger
      rwa [Trace.orderly_cons hcall, Trace.freed_cons hcall, Trace.issued_cons hcall]
    exact ⟨fun _ _ _ h => hkeep true _ _ h, fun _ _ _ h => hkeep false _ _ h⟩

namespace Tree

/-- The warm starts of the live nodes and the bases of the solver account for each other. -/
structure Accounted (t : Tree (Observed σ) cmp) : Prop where
  /-- A share is counted for each node that holds one, and while there are any the basis is kept. -/
  shares : ∀ f n w, t.nodes.get? f = some n → n.role.warmStart? = some w →
    w.shares = t.nodes.count (·.share = some f) ∧ (w.isAlive = true ↔ 0 < w.shares)
  /-- A share is held by a waiting or the active node, in the nearest Fork or Subroot above it. -/
  holder : ∀ h n f, t.nodes.get? h = some n → n.share = some f →
    (n.role.name.isWaiting = true ∨ n.role.name = .active) ∧
      Nearest t.nodes Role.isSnapshot n.parent (some f) ∧ (t.active = some h → t.lpFork = some f)
  /-- What was handed out was given back once, or is kept by exactly one live node. -/
  bases : (t.lp.solver.calls.freed ++ (bases t.nodes).map Prod.fst).Perm t.lp.solver.calls.issued
  distinct : t.lp.solver.calls.issued.Nodup
  installed : ∀ later b ok earlier, t.lp.solver.calls = later ++ (.setBasis b, ok) :: earlier →
    b ∈ Trace.issued earlier ∧ b ∉ Trace.freed earlier
  live : t.stats.basesFreed ≤ t.stats.captured ∧
    t.stats.captured - t.stats.basesFreed = (BranchBound.bases t.nodes).length

theorem Resting.accounted {start : Array Interval} {t : Tree (Observed σ) cmp}
    (h : Resting ledger.charge start t) : Accounted t where
  shares f n w hn hw := ⟨h.shares_eq hn hw, h.sharing.alive f n w hn hw⟩
  holder k n f hn hs := by
    obtain ⟨hw, hnear⟩ := h.sharing.holder k n f hn hs
    refine ⟨hw, hnear, fun ha => ?_⟩
    obtain ⟨m, hm, -, -, -, hparent, -⟩ := h.actor ha
    cases hn.symm.trans hm
    exact h.lpFork.unique (hparent ▸ hnear)
  bases := h.custody.2
  distinct := Trace.nodup_issued _
  installed later b ok earlier hcalls := by
    have horderly : Trace.Orderly t.lp.solver.calls := h.custody.1
    rw [hcalls] at horderly
    exact horderly.installed
  live := by
    have hbooks := h.books.bases
    omega

/-- In every reachable state the shares, the kept bases and the statistics agree with what the solver has
seen of its bases. -/
theorem warmStarts_accounted {solver : σ} {domains : Domains} {settings : Settings}
    {t₀ : Tree (Observed σ) cmp} (h₀ : ofSettings (.fresh solver) domains settings = .ok t₀)
    (ops : List (Op (Observed σ))) : Accounted (t₀.run ops) :=
  (run_resting ledger_upkeep (resting_of_ofSettings h₀ ⟨trivial, .refl _⟩) ops).accounted

/-- One of the two children of a Fork has loaded, and the other still holds a share. -/
theorem warmStarts_accounted_below_fork :
    ∃ t₀ : Tree (Observed ScriptedSolver) SelectionRule.bestBound.order,
      ofSettings (.fresh .fresh) (.free 1) {} = .ok t₀ ∧
      let t := t₀.run [.create 0 0, .activate (some ⟨0, 0⟩), .load, .addColumn (7 : Int), .solve, .create 0 0,
        .create 0 0, .activate (some ⟨1, 0⟩), .load]
      t.lpFork = some ⟨0, 0⟩ ∧ t.lp.solver.calls.freed = [] ∧ t.lp.solver.calls.issued.length = 1 ∧
        Accounted t := by
  refine ⟨_, rfl, by decide +kernel, by decide +kernel, by decide +kernel, ?_⟩
  exact @warmStarts_accounted ScriptedSolver _ SelectionRule.bestBound.order .fresh (.free 1) {} _ rfl _

end Tree

end BranchBound
