import BranchBound.Proofs.Constancy
import BranchBound.Proofs.Work
import BranchBound.Solver.Scripted

namespace BranchBound

namespace SelectionRule

theorem number_eq_of_order_eq (s : SelectionRule) {k l : NodeKey} (h : s.order k l = .eq) : l.number = k.number := by
  unfold order at h
  have hnumber := (Ordering.then_eq_eq.1 h).2
  exact Nat.compare_eq_eq.1 hnumber

end SelectionRule

theorem Frontier.InOrder.of_empty {cmp : NodeOrder} {f : Frontier cmp} (h : f.toList = []) : f.InOrder := by
  have hsize : f.heap.entries.size = 0 := by
    rw [← Array.length_toList]
    exact congrArg List.length h
  exact fun _ _ _ => Heap.Under.of_missing (by omega)

namespace Tree

variable {σ : Type} [Solver σ] {cmp : NodeOrder} {K : Charge σ} {start : Array Interval} {t : Tree σ cmp}
  {xs ys : List Handle} {x y : Option Handle}

def pool (t : Tree σ cmp) : List Handle := t.children ++ t.siblings ++ t.frontier.ids

structure Foremost (t : Tree σ cmp) (ids : List Handle) (id : Handle) : Prop where
  mem : id ∈ ids
  unbeaten : ∃ n, t.nodes.get? id = some n ∧
    ∀ k ∈ ids, ∃ m, t.nodes.get? k = some m ∧ cmp m.key n.key ≠ .gt

theorem Foremost.congr {id : Handle} (h : t.Foremost xs id) (hys : ∀ k, k ∈ ys ↔ k ∈ xs) : t.Foremost ys id := by
  obtain ⟨hmem, n, hn, hgreatest⟩ := h
  exact ⟨(hys id).2 hmem, n, hn, fun k hk => hgreatest k ((hys k).1 hk)⟩

def Settled (t : Tree σ cmp) (ids : List Handle) : Option Handle → Prop
  | none => ids = []
  | some id => t.Foremost ids id

section Choice

variable [Std.TransCmp cmp]

omit [Solver σ] in
theorem ne_gt_trans {k l m : NodeKey} (h : cmp k l ≠ .gt) (h' : cmp l m ≠ .gt) : cmp k m ≠ .gt :=
  Ordering.ne_gt_iff_isLE.2
    (Std.TransCmp.isLE_trans (Ordering.ne_gt_iff_isLE.1 h) (Ordering.ne_gt_iff_isLE.1 h'))

theorem better_settled (hx : t.Settled xs x) (hy : t.Settled ys y) :
    ∃ z, t.better x y = .ok z ∧ t.Settled (xs ++ ys) z := by
  cases x with
  | none =>
      cases hx
      exact ⟨y, by cases y <;> rfl, by simpa using hy⟩
  | some i =>
      cases y with
      | none =>
          cases hy
          exact ⟨some i, rfl, by simpa using hx⟩
      | some j =>
          obtain ⟨hi, n, hn, hin⟩ := hx
          obtain ⟨hj, m, hm, hjm⟩ := hy
          refine ⟨some (if (cmp m.key n.key).isGT then j else i), ?_, ?_⟩
          · unfold better
            simp only [node_eq_ok.2 hn, node_eq_ok.2 hm]
            rfl
          · split
            · rename_i hgt
              have hle : cmp n.key m.key ≠ .gt := Std.OrientedCmp.not_gt_of_gt (Ordering.isGT_iff_eq_gt.1 hgt)
              refine ⟨List.mem_append_right _ hj, m, hm, fun k hk => ?_⟩
              obtain hk | hk := List.mem_append.1 hk
              · obtain ⟨o, ho, hon⟩ := hin k hk
                exact ⟨o, ho, ne_gt_trans hon hle⟩
              · exact hjm k hk
            · rename_i hle
              rw [Ordering.isGT_iff_eq_gt] at hle
              refine ⟨List.mem_append_left _ hi, n, hn, fun k hk => ?_⟩
              obtain hk | hk := List.mem_append.1 hk
              · exact hin k hk
              · obtain ⟨o, ho, hom⟩ := hjm k hk
                exact ⟨o, ho, ne_gt_trans hom hle⟩

theorem bestOf_settled (hxs : ∀ k ∈ xs, ∃ n, t.nodes.get? k = some n) :
    ∃ z, t.bestOf xs = .ok z ∧ t.Settled xs z := by
  suffices hscan : ∀ seen x, t.Settled seen x →
      ∃ z, xs.foldlM (fun best id => t.better best (some id)) x = .ok z ∧ t.Settled (seen ++ xs) z from
    hscan [] none rfl
  induction xs with
  | nil => exact fun seen x hx => ⟨x, rfl, by simpa using hx⟩
  | cons k xs ih =>
      intro seen x hx
      obtain ⟨n, hn⟩ := hxs k List.mem_cons_self
      have hself : cmp n.key n.key ≠ .gt := by simp [Std.ReflCmp.compare_self]
      have hk : t.Settled [k] (some k) := ⟨List.mem_singleton_self k, n, hn, fun j hj => by
        obtain rfl := List.mem_singleton.1 hj
        exact ⟨n, hn, hself⟩⟩
      obtain ⟨y, hy, hsettled⟩ := better_settled hx hk
      rw [List.foldlM_cons, hy, List.append_cons]
      exact ih (fun j hj => hxs j (List.mem_cons_of_mem k hj)) _ y hsettled

/-- The top of a heap in order is the foremost leaf, as the entries carry the keys of their nodes. -/
theorem bestLeaf_settled (hq : Queue t.nodes t.frontier) (ho : t.frontier.InOrder) :
    t.Settled t.frontier.ids t.bestLeaf := by
  unfold bestLeaf
  cases hp : t.frontier.peek? with
  | none =>
      change t.frontier.toList.map Queued.id = []
      rw [show t.frontier.toList = [] from Heap.peek?_eq_none.1 hp]
      rfl
  | some q =>
      have hmem := Frontier.peek?_mem hp
      obtain ⟨n, hn, -, hkey⟩ := hq.entry q hmem
      refine ⟨List.mem_map_of_mem hmem, n, hn, fun k hk => ?_⟩
      obtain ⟨e, he, rfl⟩ := List.mem_map.1 hk
      obtain ⟨m, hm, -, hkey'⟩ := hq.entry e he
      have hgreatest := ho.peek?_greatest hp he
      unfold Queued.order at hgreatest
      rw [hkey, hkey'] at hgreatest
      exact ⟨m, hm, hgreatest⟩

theorem Resting.bestNode_settled (h : Resting K start t) (ho : t.frontier.InOrder) :
    ∃ z, t.bestNode = .ok z ∧ t.Settled (t.frontier.ids ++ (t.children ++ t.siblings)) z := by
  have hlive : ∀ k ∈ t.children ++ t.siblings, ∃ n, t.nodes.get? k = some n := fun k hk =>
    (h.toSound.waiting_of_staged hk).2.imp fun _ => And.left
  obtain ⟨c, hc, hchild⟩ := bestOf_settled fun k hk => hlive k (List.mem_append_left _ hk)
  obtain ⟨s, hs, hsibling⟩ := bestOf_settled fun k hk => hlive k (List.mem_append_right _ hk)
  obtain ⟨y, hy, hstaged⟩ := better_settled hchild hsibling
  obtain ⟨z, hz, hall⟩ := better_settled (bestLeaf_settled h.queue ho) hstaged
  refine ⟨z, ?_, hall⟩
  unfold bestNode bestChild bestSibling
  rw [hc, hs]
  change (t.better c s >>= _) = _
  rw [hy]
  exact hz

end Choice

/-- Numbers break every tie, so that under a selection rule no two nodes are both foremost. -/
theorem Foremost.unique {s : SelectionRule} {t : Tree σ s.order} {i j : Handle} (hnum : Numbered t)
    (hi : t.Foremost xs i) (hj : t.Foremost xs j) : j = i := by
  obtain ⟨n, hn, hgreatest⟩ := hi.unbeaten
  obtain ⟨m, hm, hgreatest'⟩ := hj.unbeaten
  obtain ⟨m', hm', hle⟩ := hgreatest j hj.mem
  obtain ⟨n', hn', hle'⟩ := hgreatest' i hi.mem
  cases hm.symm.trans hm'
  cases hn.symm.trans hn'
  have heq : s.order n.key m.key = .eq := by
    cases hcmp : s.order n.key m.key with
    | lt => exact absurd (Std.OrientedCmp.gt_iff_lt.2 hcmp) hle
    | eq => rfl
    | gt => exact absurd hcmp hle'
  exact hnum.unique i n j m hn hm (s.number_eq_of_order_eq heq)

theorem run_inOrder [Std.TransCmp cmp] (ho : t.frontier.InOrder) (ops : List (Op σ)) :
    (t.run ops).frontier.InOrder :=
  run_induction (P := fun u => u.frontier.InOrder) ho
    (fun u op h => ((abides_perform op u).mono (fun _ _ g => g.inOrder h) fun _ _ g => g.inOrder h).left) ops

/-- There is a best node exactly when a node waits, and then no node that waits has a greater key now. A selection rule
leaves no choice. -/
theorem bestNode_foremost [Std.TransCmp cmp] {solver : σ} {domains : Domains} {settings : Settings} {t₀ : Tree σ cmp}
    (h₀ : ofSettings solver domains settings = .ok t₀) (ops : List (Op σ)) :
    let t := t₀.run ops
    ∃ best, t.bestNode = .ok best ∧
      (best = none ↔ t.children = [] ∧ t.siblings = [] ∧ t.frontier.toList = []) ∧
      ∀ id, best = some id → t.Foremost t.pool id ∧
        ((∃ s : SelectionRule, cmp = s.order) → ∀ k, t.Foremost t.pool k → k = id) := by
  intro t
  have hrest := resting_of_ofSettings (K := fun _ _ => True) h₀ trivial
  obtain ⟨hvacant, hstats, -⟩ := vacant_of_ofSettings h₀
  obtain ⟨hnumbered, hcounts⟩ := hvacant.counts hstats (nextNumber_of_ofSettings h₀)
  have ho : t.frontier.InOrder := run_inOrder (.of_empty hvacant.frontier) ops
  have hn : Numbered t := (run_counts hrest hnumbered hcounts ops).1
  obtain ⟨best, hbest, hsettled⟩ := (run_resting .nothing hrest ops).bestNode_settled ho
  have hpool : ∀ k, k ∈ t.pool ↔ k ∈ t.frontier.ids ++ (t.children ++ t.siblings) := by
    intro k
    simp only [pool, List.mem_append]
    tauto
  refine ⟨best, hbest, ?_, ?_⟩
  · cases best with
    | none =>
        obtain ⟨hf, hc, hs⟩ : t.frontier.toList = [] ∧ t.children = [] ∧ t.siblings = [] := by
          simpa [Settled, Frontier.ids_eq] using hsettled
        exact iff_of_true rfl ⟨hc, hs, hf⟩
    | some id =>
        have hmem := (hpool id).2 hsettled.mem
        simp only [reduceCtorEq, false_iff]
        rintro ⟨hc, hs, hf⟩
        simp [pool, hc, hs, Frontier.ids_eq, hf] at hmem
  · rintro id rfl
    refine ⟨Foremost.congr hsettled hpool, ?_⟩
    rintro ⟨s, rfl⟩ k hk
    exact (Foremost.congr hsettled hpool).unique hn hk

/-- A queued leaf has been raised above another. Then the bound of the one has become a NaN, which with the
sign bit lies below all. -/
theorem bestNode_foremost_after_raise :
    ∃ t₀ : Tree ScriptedSolver SelectionRule.bestBound.order, ofSettings .fresh (.free 1) {} = .ok t₀ ∧
      let ops : List (Op ScriptedSolver) := [.create 0 0, .activate (some ⟨0, 0⟩), .create 1 0, .create 2 0,
        .create 3 0, .activate (some ⟨1, 0⟩), .create 5 0, .activate (some ⟨4, 0⟩), .create 6 0, .raise ⟨2, 0⟩ 7]
      let t := t₀.run ops
      let u := t₀.run (ops ++ [.raise ⟨2, 0⟩ (-.nan)])
      t.pool = [⟨5, 0⟩, ⟨3, 0⟩, ⟨2, 0⟩] ∧ t.bestNode = .ok (some ⟨3, 0⟩) ∧ t.Foremost t.pool ⟨3, 0⟩ ∧
        (∀ k, t.Foremost t.pool k → k = ⟨3, 0⟩) ∧ u.bestNode = .ok (some ⟨2, 0⟩) ∧ u.Foremost u.pool ⟨2, 0⟩ := by
  refine ⟨_, rfl, ?_⟩
  intro ops t u
  obtain ⟨best, hbest, -, hforemost⟩ :=
    @bestNode_foremost ScriptedSolver _ SelectionRule.bestBound.order _ .fresh (.free 1) {} _ rfl ops
  obtain ⟨best', hbest', -, hforemost'⟩ :=
    @bestNode_foremost ScriptedSolver _ SelectionRule.bestBound.order _ .fresh (.free 1) {} _ rfl
      (ops ++ [.raise ⟨2, 0⟩ (-.nan)])
  have hrun : t.bestNode = .ok (some ⟨3, 0⟩) := by decide +kernel
  have hrun' : u.bestNode = .ok (some ⟨2, 0⟩) := by decide +kernel
  have hgreatest := hforemost ⟨3, 0⟩ (Except.ok.inj (hbest.symm.trans hrun))
  have hgreatest' := hforemost' ⟨2, 0⟩ (Except.ok.inj (hbest'.symm.trans hrun'))
  exact ⟨by decide +kernel, hrun, hgreatest.1, hgreatest.2 ⟨.bestBound, rfl⟩, hrun', hgreatest'.1⟩

end Tree

end BranchBound
