import BranchBound.Proofs.Descent

namespace BranchBound.Tree

variable {σ : Type} [Solver σ] {cmp : NodeOrder} {K : Charge σ} {start : Array Interval} {t : Tree σ cmp}
  {h : Handle} {n : Node σ}

structure Counted (t : Tree σ cmp) : Prop where
  children : ∀ h n, t.nodes.get? h = some n → n.role.name ∈ [.junction, .fork, .subroot] →
    n.role.openChildren? = some (t.nodes.count (·.parent = some h))
  needed : ∀ h n, t.nodes.get? h = some n → n.role.name ∈ [.junction, .fork, .subroot] → n.onPath = false →
    1 ≤ t.nodes.count (·.parent = some h)
  noDeadend : ∀ h n, t.nodes.get? h = some n → n.role.name ≠ .deadend
  created : t.stats.created = t.stats.freed + t.nodes.toList.length
  size : t.nodes.size = t.nodes.toList.length
  extinct : t.active = none → (∀ h n, t.nodes.get? h = some n → n.role.name.isWaiting = false) →
    (∀ h, t.nodes.get? h = none) ∧ t.root = none

theorem openChildren_of_processed {r : Role σ} (hr : r.name ∈ [RoleName.junction, .fork, .subroot]) :
    ∃ k, r.openChildren? = some k := by
  rw [← Option.isSome_iff_exists, Role.isSome_openChildren?]
  exact decide_eq_true hr

theorem Resting.open_eq (ht : Resting K start t) (hn : t.nodes.get? h = some n) {k : Nat}
    (hk : n.role.openChildren? = some k) : k = t.nodes.count (·.parent = some h) := by
  simpa [rest] using ht.family.counted h n k hn hk

theorem Resting.open_pos (ht : Resting K start t) (hn : t.nodes.get? h = some n) (ho : n.onPath = false) {k : Nat}
    (hk : n.role.openChildren? = some k) : 1 ≤ k := by
  by_contra hzero
  obtain rfl : k = 0 := by omega
  rcases ht.family.spent h n hn (Role.isExhausted_of_open hk) with hon | hl
  · rw [ho] at hon
    cases hon
  · cases hl

/-- A Deadend could only stand on the path: not at its end, where the active node is, and not above, where a
node has a child. -/
theorem Resting.no_deadend (ht : Resting K start t) (hn : t.nodes.get? h = some n) : n.role.name ≠ .deadend := by
  intro hdead
  have hrole : n.role = .deadend := by cases hr : n.role <;> rw [hr] at hdead <;> first | rfl | cases hdead
  rcases ht.family.spent h n hn (by rw [hrole]; rfl) with hon | hl
  · obtain ⟨i, hi⟩ := List.mem_iff_getElem?.1 (ht.walk.flagged h n hn hon)
    cases hnext : t.path[i + 1]? with
    | none =>
        have hlen : t.path.length = i + 1 := by
          have := (List.getElem?_eq_some_iff.1 hi).1
          have := List.getElem?_eq_none_iff.1 hnext
          omega
        have hactive : t.active = some h := by
          rw [ht.active_eq, tip, hlen]
          exact before_succ hi
        obtain ⟨m, hm, hact⟩ := (ht.acting h).1 hactive
        cases hn.symm.trans hm
        rw [hdead] at hact
        cases hact
    | some k =>
        obtain ⟨m, hm, -, -, hp⟩ := ht.walk.step (i + 1) k hnext
        rw [before_succ hi] at hp
        rcases ht.family.parent k m h n hm hp hn with hact | hopen
        · rw [hdead] at hact
          cases hact
        · rw [hrole] at hopen
          cases hopen
  · cases hl

theorem Resting.processed (ht : Resting K start t) (hn : t.nodes.get? h = some n) (hw : n.role.name.isWaiting = false)
    (ha : n.role.name ≠ .active) : n.role.name ∈ [.junction, .fork, .subroot] := by
  have hlive := ht.no_deadend hn
  cases hr : n.role.name <;> rw [hr] at hw ha hlive <;>
    first | decide | exact absurd rfl ha | exact absurd rfl hlive | cases hw

theorem Resting.exists_child (ht : Resting K start t) (hn : t.nodes.get? h = some n)
    (hr : n.role.name ∈ [.junction, .fork, .subroot]) (ho : n.onPath = false) :
    ∃ k m, t.nodes.get? k = some m ∧ m.parent = some h := by
  obtain ⟨c, hc⟩ := openChildren_of_processed hr
  have hpos := ht.open_pos hn ho hc
  rw [ht.open_eq hn hc] at hpos
  obtain ⟨k, m, hm, hp⟩ := Arena.count_pos.1 hpos
  exact ⟨k, m, hm, of_decide_eq_true hp⟩

/-- Below every node there is one that waits, as long as nobody is active. -/
theorem Resting.exists_waiting (ht : Resting K start t) (ha : t.active = none) (hn : t.nodes.get? h = some n) :
    ∃ k m, t.nodes.get? k = some m ∧ m.role.name.isWaiting = true := by
  refine ht.forest.induction_children (P := fun _ => ∃ k m, t.nodes.get? k = some m ∧ m.role.name.isWaiting = true)
    (fun k m hm ih => ?_) hn
  cases hw : m.role.name.isWaiting with
  | true => exact ⟨k, m, hm, hw⟩
  | false =>
      have hoff : m.onPath = false := by
        cases ho : m.onPath with
        | false => rfl
        | true =>
            have hon := ht.walk.flagged k m hm ho
            rw [ht.path_nil ha] at hon
            cases hon
      obtain ⟨j, o, ho, hp⟩ := ht.exists_child hm (ht.processed hm hw (ht.not_active ha hm)) hoff
      exact ih j o ho hp

theorem Resting.counted (ht : Resting K start t) : Counted t where
  children h n hn hr := by
    obtain ⟨k, hk⟩ := openChildren_of_processed hr
    rw [hk, ht.open_eq hn hk]
  needed h n hn hr ho := by
    obtain ⟨k, hk⟩ := openChildren_of_processed hr
    rw [← ht.open_eq hn hk]
    exact ht.open_pos hn ho hk
  noDeadend _ _ hn := ht.no_deadend hn
  created := by rw [ht.books.nodes, ht.wellFormed.size_eq]
  size := ht.wellFormed.size_eq
  extinct ha hw := by
    have hnone : ∀ h, t.nodes.get? h = none := by
      intro h
      cases hn : t.nodes.get? h with
      | none => rfl
      | some n =>
          obtain ⟨k, m, hm, hwait⟩ := ht.exists_waiting ha hn
          rw [hw k m hm] at hwait
          cases hwait
    exact ⟨hnone, ht.rooted.vacant.2 hnone⟩

/-- Between two operations the children of every Junction, Fork and Subroot are counted, none of these is kept
off the path without a child, no Deadend is left, and the nodes ever created and freed account for the live
ones. With nobody active and nobody waiting there are none. -/
theorem nodes_accounted {solver : σ} {domains : Domains} {settings : Settings} {t₀ : Tree σ cmp}
    (h₀ : ofSettings solver domains settings = .ok t₀) (ops : List (Op σ)) : Counted (t₀.run ops) :=
  (run_resting Upkeep.nothing (resting_of_ofSettings h₀ trivial) ops).counted

theorem nodes_accounted_after_prune :
    ∃ t₀ : Tree ScriptedSolver SelectionRule.bestBound.order, ofSettings .fresh (.free 1) {} = .ok t₀ ∧
      let ops := [.create 0 0, .activate (some ⟨0, 0⟩), .create 0 0, .create 1 0, .activate (some ⟨1, 0⟩),
        .create 0 0, .activate none, .prune 1]
      (t₀.run ops).nodes.size = 3 ∧ Counted (t₀.run ops) ∧
        (t₀.run (ops ++ [.prune 0])).nodes.size = 0 ∧ Counted (t₀.run (ops ++ [.prune 0])) := by
  have h := @nodes_accounted ScriptedSolver _ SelectionRule.bestBound.order .fresh (.free 1) {} _ rfl
  exact ⟨_, rfl, by decide +kernel, h _, by decide +kernel, h _⟩

end BranchBound.Tree
