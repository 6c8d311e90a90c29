import BranchBound.Binary64.Comparison
import BranchBound.Proofs.Frontier
import BranchBound.Proofs.Heap

namespace BranchBound

namespace SelectionRule

instance lowerBoundFirst_trans : Std.TransCmp lowerBoundFirst :=
  inferInstanceAs (Std.TransCmp fun l r => compareOn (fun k : NodeKey => Binary64.rank k.lowerBound) r l)

instance order_trans (s : SelectionRule) : Std.TransCmp s.order := by
  have hdepth : Std.TransCmp fun l r : NodeKey => compare l.depth r.depth :=
    inferInstanceAs (Std.TransCmp (compareOn NodeKey.depth))
  have hestimate : Std.TransCmp fun l r : NodeKey => Binary64.totalCompare r.estimate l.estimate :=
    inferInstanceAs (Std.TransCmp fun l r => compareOn (fun k : NodeKey => Binary64.rank k.estimate) r l)
  have hnumber : Std.TransCmp fun l r : NodeKey => compare r.number l.number :=
    inferInstanceAs (Std.TransCmp fun l r => compareOn NodeKey.number r l)
  cases s with
  | bestBound =>
      exact inferInstanceAs (Std.TransCmp (compareLex
        (compareLex lowerBoundFirst fun l r => compare l.depth r.depth) fun l r => compare r.number l.number))
  | depthFirst =>
      exact inferInstanceAs (Std.TransCmp (compareLex
        (compareLex (fun l r => compare l.depth r.depth) lowerBoundFirst) fun l r => compare r.number l.number))
  | bestEstimate =>
      exact inferInstanceAs (Std.TransCmp (compareLex
        (compareLex (fun l r : NodeKey => Binary64.totalCompare r.estimate l.estimate) lowerBoundFirst)
        fun l r => compare r.number l.number))

theorem bestBound_of_lt {k l : NodeKey} (h : k.lowerBound < l.lowerBound) : bestBound.order k l = .gt := by
  have hgt : lowerBoundFirst k l = .gt := Std.OrientedCmp.gt_of_lt (Binary64.totalCompare_of_lt h)
  unfold order
  rw [hgt]
  rfl

end SelectionRule

namespace Frontier

variable {cmp : NodeOrder}

instance queued_trans [Std.TransCmp cmp] : Std.TransCmp (Queued.order cmp) where
  eq_swap {l r} := show cmp l.key r.key = (cmp r.key l.key).swap from Std.OrientedCmp.eq_swap
  isLE_trans {l _ r} h h' := show (cmp l.key r.key).isLE from Std.TransCmp.isLE_trans h h'

inductive Request
  | insert (id : Handle) (key : NodeKey)
  | pop
  | remove (id : Handle)
  | drain (p : NodeKey → Bool)
  | clear

namespace Request

def perform (f : Frontier cmp) : Request → Frontier cmp
  | insert id key => f.insert id key
  | pop => f.pop?.elim f Prod.snd
  | remove id => (f.remove id).2
  | drain p => (f.drain p).2
  | clear => f.clear.2

def added : Request → List Queued
  | insert id key => [⟨id, key⟩]
  | _ => []

def taken (f : Frontier cmp) : Request → List Queued
  | insert .. => []
  | pop => f.peek?.toList
  | remove id =>
      if f.peek?.map Queued.id = some id then f.peek?.toList else f.toList.filter (·.id = id)
  | drain p => f.toList.filter (p ·.key)
  | clear => f.toList

end Request

def run (f : Frontier cmp) (rs : List Request) : Frontier cmp := rs.foldl Request.perform f

def taken (f : Frontier cmp) : List Request → List Queued
  | [] => []
  | r :: rs => r.taken f ++ taken (r.perform f) rs

def InOrder (f : Frontier cmp) : Prop := Heap.Ordered (Queued.order cmp) f.heap.entries

variable {f rest : Frontier cmp} {id : Handle} {q e : Queued}

theorem pop?_eq_none : f.pop? = none ↔ f.peek? = none := by
  rw [pop?, Option.map_eq_none_iff, Heap.pop?_eq_none, peek?, Heap.peek?_eq_none]

theorem pop?_takes_peeked (hp : f.pop? = some (id, rest)) :
    ∃ q, f.peek? = some q ∧ q.id = id ∧ f.toList.Perm (q :: rest.toList) := by
  obtain ⟨⟨q, heap⟩, hq, he⟩ := Option.map_eq_some_iff.1 hp
  cases he
  exact ⟨q, Heap.peek?_of_pop? hq, rfl, Heap.toList_pop?_perm hq⟩

theorem peek?_mem (hq : f.peek? = some q) : q ∈ f.toList := by
  rw [peek?, Heap.peek?] at hq
  obtain ⟨hpos, rfl⟩ := Array.getElem?_eq_some_iff.1 hq
  exact Array.getElem_mem_toList hpos

theorem toList_clear (f : Frontier cmp) : f.clear.2.toList = [] := by
  have hperm := f.toList_extract_perm fun _ => true
  simp only [Bool.not_true, List.filter_false] at hperm
  exact hperm.eq_nil

theorem filter_perm (p : Queued → Bool) (l : List Queued) : l.Perm (l.filter (!p ·) ++ l.filter p) :=
  (List.filter_append_perm p l).symm.trans List.perm_append_comm

theorem perform_perm (f : Frontier cmp) (r : Request) :
    (f.toList ++ r.added).Perm ((r.perform f).toList ++ r.taken f) := by
  have hpop : ∀ q, f.peek? = some q → ∃ rest, f.pop? = some (q.id, rest) ∧ f.toList.Perm (rest.toList ++ [q]) := by
    intro q hq
    cases hp : f.pop? with
    | none => simp [pop?_eq_none.1 hp] at hq
    | some r =>
        obtain ⟨q', hq', hid, hperm⟩ := pop?_takes_peeked hp
        obtain rfl : q' = q := Option.some.inj (hq'.symm.trans hq)
        exact ⟨r.2, by rw [hid], hperm.trans (List.perm_append_singleton ..).symm⟩
  cases r with
  | insert id key =>
      simpa [Request.added, Request.taken, Request.perform] using
        (List.perm_append_singleton ..).trans (f.toList_insert_perm id key).symm
  | pop =>
      cases hq : f.peek? with
      | none => simp [Request.added, Request.taken, Request.perform, pop?_eq_none.2 hq, hq]
      | some q =>
          obtain ⟨rest, hp, hperm⟩ := hpop q hq
          simpa [Request.added, Request.taken, Request.perform, hp, hq] using hperm
  | remove id =>
      simp only [Request.added, Request.taken, Request.perform, remove, List.append_nil]
      split
      · rename_i htop
        obtain ⟨q, hq, rfl⟩ := Option.map_eq_some_iff.1 htop
        obtain ⟨rest, hp, hperm⟩ := hpop q hq
        simpa [hp, hq] using hperm
      · exact (filter_perm (·.id = id) f.toList).trans ((f.toList_extract_perm (·.id = id)).symm.append_right _)
  | drain p =>
      simp only [Request.added, Request.taken, Request.perform, List.append_nil]
      exact (filter_perm (fun q => p q.key) f.toList).trans
        ((f.toList_extract_perm fun q => p q.key).symm.append_right _)
  | clear => simp [Request.added, Request.taken, Request.perform, toList_clear]

theorem run_perm (f : Frontier cmp) (rs : List Request) :
    (f.toList ++ rs.flatMap Request.added).Perm ((f.run rs).toList ++ f.taken rs) := by
  induction rs generalizing f with
  | nil => simp [run, taken]
  | cons r rs ih =>
      have hstep := (f.perform_perm r).append_right (rs.flatMap Request.added)
      have hrest := (ih (r.perform f)).append_left (r.taken f)
      simp only [List.flatMap_cons, ← List.append_assoc, taken, run, List.foldl_cons] at hstep hrest ⊢
      apply hstep.trans
      apply (List.perm_append_comm.append_right _).trans
      apply hrest.trans
      exact List.perm_append_comm.append_right _

section Preorder

variable [Std.TransCmp cmp]

theorem InOrder.peek?_greatest (hf : f.InOrder) (hq : f.peek? = some q) (he : e ∈ f.toList) :
    Queued.order cmp e q ≠ .gt := by
  have hle := Heap.peek?_greatest hf hq he
  intro hgt
  simp [hgt] at hle

theorem extract_inOrder (f : Frontier cmp) (p : Queued → Bool) : (f.extract p).2.InOrder := Heap.ofList_ordered _

theorem InOrder.pop? (hf : f.InOrder) (hp : f.pop? = some (id, rest)) : rest.InOrder := by
  obtain ⟨⟨q, heap⟩, hq, he⟩ := Option.map_eq_some_iff.1 hp
  cases he
  exact Heap.pop?_ordered hf hq

theorem InOrder.perform (hf : f.InOrder) (r : Request) : (r.perform f).InOrder := by
  cases r with
  | insert id key => exact Heap.push_ordered hf _
  | pop =>
      cases hp : f.pop? with
      | none => simpa [Request.perform, hp] using hf
      | some r => simpa [Request.perform, hp] using hf.pop? hp
  | remove id =>
      simp only [Request.perform, remove]
      split
      · cases hp : f.pop? with
        | none => exact hf
        | some r => exact hf.pop? hp
      · exact f.extract_inOrder (·.id = id)
  | drain p => exact f.extract_inOrder fun q => p q.key
  | clear => exact f.extract_inOrder fun _ => true

theorem run_inOrder (hf : f.InOrder) (rs : List Request) : (f.run rs).InOrder := by
  induction rs generalizing f with
  | nil => exact hf
  | cons r rs ih => exact ih (hf.perform r)

/-- A queue that was given the entries `added` and has handed out `gone`, and how it answers. -/
structure Serves (f : Frontier cmp) (added gone : List Queued) : Prop where
  inOrder : f.InOrder
  entries : added.Perm (f.toList ++ gone)
  peek_none : f.peek? = none ↔ f.toList = []
  peek_greatest : ∀ q, f.peek? = some q → q ∈ f.toList ∧ ∀ e ∈ f.toList, Queued.order cmp e q ≠ .gt
  pop_none : f.pop? = none ↔ f.peek? = none
  pop_peeked : ∀ id rest, f.pop? = some (id, rest) →
    ∃ q, f.peek? = some q ∧ q.id = id ∧ f.toList.Perm (q :: rest.toList)
  remove_found : ∀ id, (f.remove id).1 = true ↔ id ∈ f.ids
  drain_ids : ∀ p, (f.drain p).1 = (f.toList.filter (p ·.key)).map Queued.id
  drain_kept : ∀ p, (f.drain p).2.toList.Perm (f.toList.filter (!p ·.key))
  clear_ids : f.clear.1 = f.ids
  clear_kept : f.clear.2.toList = []
  lowerBound_le : ∀ q ∈ f.toList, q.key.lowerBound.isNaN = false → f.lowerBound ≤ q.key.lowerBound
  lowerBound_reached : (∃ q ∈ f.toList, q.key.lowerBound.isNaN = false ∧ q.key.lowerBound ≤ f.lowerBound) ∨
    (∀ q ∈ f.toList, q.key.lowerBound.isNaN = true) ∧ f.lowerBound = Binary64.infinity

theorem InOrder.serves (hf : f.InOrder) {added gone : List Queued} (he : added.Perm (f.toList ++ gone)) :
    f.Serves added gone where
  inOrder := hf
  entries := he
  peek_none := Heap.peek?_eq_none
  peek_greatest _ hq := ⟨peek?_mem hq, fun _ => hf.peek?_greatest hq⟩
  pop_none := pop?_eq_none
  pop_peeked _ _ := pop?_takes_peeked
  remove_found := f.remove_fst
  drain_ids p := f.extract_fst fun q => p q.key
  drain_kept p := f.toList_extract_perm fun q => p q.key
  clear_ids := by
    rw [clear, extract_fst, List.filter_true, ids_eq]
  clear_kept := f.toList_clear
  lowerBound_le _ hq := Binary64.least_le (List.mem_map_of_mem hq)
  lowerBound_reached := by
    simpa [lowerBound] using Binary64.least_reached (f.toList.map (·.key.lowerBound))

end Preorder

/-- A queue under a total preorder is a multiset that hands out a greatest entry first. The selection
rules are total preorders, of the keys with a NaN too. -/
theorem requests_served : (∀ s : SelectionRule, Std.TransCmp s.order) ∧
    (∀ k l : NodeKey, k.lowerBound < l.lowerBound → SelectionRule.bestBound.order k l = .gt) ∧
    ∀ (cmp : NodeOrder) [Std.TransCmp cmp] (rs : List Request),
      ((empty : Frontier cmp).run rs).Serves (rs.flatMap Request.added) ((empty : Frontier cmp).taken rs) := by
  refine ⟨fun s => inferInstance, fun k l => SelectionRule.bestBound_of_lt, ?_⟩
  intro cmp _ rs
  have hempty : (empty : Frontier cmp).InOrder := Heap.empty_ordered
  exact (run_inOrder hempty rs).serves (run_perm empty rs)

/-- A NaN with the sign bit goes before the least bound, and one without it after the greatest. -/
theorem requests_served_with_nan :
    let low : Queued := ⟨⟨0, 0⟩, ⟨0, 1, 1, 0⟩⟩
    let high : Queued := ⟨⟨1, 0⟩, ⟨1, 1, 2, 0⟩⟩
    let last : Queued := ⟨⟨2, 0⟩, ⟨2, 1, .nan, 0⟩⟩
    let first : Queued := ⟨⟨3, 0⟩, ⟨3, 1, -.nan, 0⟩⟩
    let rs : List Request := [.insert last.id last.key, .insert high.id high.key, .insert first.id first.key,
      .insert low.id low.key, .pop, .pop]
    let f := (empty : Frontier SelectionRule.bestBound.order).run rs
    Std.TransCmp SelectionRule.bestBound.order ∧ low.key.lowerBound < high.key.lowerBound ∧
      SelectionRule.bestBound.order low.key high.key = .gt ∧
      f.Serves [last, high, first, low] [first, low] ∧ f.toList = [high, last] := by
  intro low high last first rs f
  have hlt : low.key.lowerBound < high.key.lowerBound := by decide +kernel
  have hserved := requests_served.2.2 SelectionRule.bestBound.order rs
  have htaken : (empty : Frontier SelectionRule.bestBound.order).taken rs = [first, low] := by decide +kernel
  rw [htaken] at hserved
  exact ⟨requests_served.1 .bestBound, hlt, requests_served.2.1 _ _ hlt, hserved, by decide +kernel⟩

theorem popped_pop? (hp : f.pop? = some (id, rest)) : rest.popped = f.popped + 1 := by
  obtain ⟨⟨q, heap⟩, -, he⟩ := Option.map_eq_some_iff.1 hp
  cases he
  rfl

theorem remove_top (hq : f.peek? = some q) :
    (f.remove q.id).2.popped = f.popped + 1 ∧ f.toList.Perm ((f.remove q.id).2.toList ++ [q]) := by
  cases hp : f.pop? with
  | none => simp [pop?_eq_none.1 hp] at hq
  | some r =>
      obtain ⟨id, rest⟩ := r
      obtain ⟨q', hq', rfl, hperm⟩ := pop?_takes_peeked hp
      obtain rfl : q' = q := Option.some.inj (hq'.symm.trans hq)
      have hremove : f.remove q'.id = (true, rest) := by simp [remove, hq, hp]
      rw [hremove]
      exact ⟨popped_pop? hp, hperm.trans (List.perm_append_singleton ..).symm⟩

theorem remove_below_top (htop : f.peek?.map Queued.id ≠ some id) :
    (f.remove id).2.popped = f.popped + (f.toList.filter (·.id = id)).length ∧
      (f.remove id).2.toList.Perm (f.toList.filter fun q => !decide (q.id = id)) := by
  rw [remove, if_neg htop]
  refine ⟨?_, f.toList_extract_perm (·.id = id)⟩
  change f.popped + (f.extract (·.id = id)).1.length = _
  rw [extract_fst, List.length_map]

/-- `remove` takes out the entry on top alone if it is under `id`, and otherwise every entry under `id`.
So `id` is still queued afterwards if it was on top and queued more than once. -/
theorem remove_takes_top_or_all (f : Frontier cmp) (id : Handle) : ∃ gone,
    ((f.remove id).1 = true ↔ ∃ q ∈ f.toList, q.id = id) ∧
    f.toList.Perm ((f.remove id).2.toList ++ gone) ∧ (∀ q ∈ gone, q.id = id) ∧
    ((f.remove id).2.toList.filter (·.id ≠ id)).Perm (f.toList.filter (·.id ≠ id)) ∧
    (f.remove id).2.popped = f.popped + gone.length ∧
    (f.peek?.map Queued.id = some id → gone = f.peek?.toList) ∧
    (f.peek?.map Queued.id ≠ some id → gone = f.toList.filter (·.id = id)) ∧
    (id ∈ (f.remove id).2.ids ↔ f.peek?.map Queued.id = some id ∧ 1 < f.ids.count id) := by
  have hfound : (f.remove id).1 = true ↔ ∃ q ∈ f.toList, q.id = id := by
    rw [remove_fst, ids_eq, List.mem_map]
  have hothers {gone : List Queued} (hperm : f.toList.Perm ((f.remove id).2.toList ++ gone))
      (hgone : ∀ q ∈ gone, q.id = id) :
      ((f.remove id).2.toList.filter (·.id ≠ id)).Perm (f.toList.filter (·.id ≠ id)) := by
    have hnone : gone.filter (·.id ≠ id) = [] := List.filter_eq_nil_iff.2 fun q hq => by simp [hgone q hq]
    have hfilter := hperm.filter (·.id ≠ id)
    rw [List.filter_append, hnone, List.append_nil] at hfilter
    exact hfilter.symm
  by_cases htop : f.peek?.map Queued.id = some id
  · obtain ⟨q, hq, rfl⟩ := Option.map_eq_some_iff.1 htop
    obtain ⟨hpopped, hperm⟩ := remove_top hq
    have hcount : f.ids.count q.id = (f.remove q.id).2.ids.count q.id + 1 := by
      rw [ids_eq, (hperm.map Queued.id).count_eq]
      simp [ids_eq]
    refine ⟨[q], hfound, hperm, by simp, hothers hperm (by simp), hpopped, fun _ => by rw [hq]; rfl,
      fun hne => absurd htop hne, ?_⟩
    rw [← List.count_pos_iff, hcount]
    simp [htop]
  · obtain ⟨hpopped, hkept⟩ := remove_below_top htop
    have hperm : f.toList.Perm ((f.remove id).2.toList ++ f.toList.filter (·.id = id)) :=
      (filter_perm (·.id = id) f.toList).trans (hkept.symm.append_right _)
    refine ⟨f.toList.filter (·.id = id), hfound, hperm, by simp, hothers hperm (by simp), hpopped,
      fun h => absurd h htop, fun _ => rfl, ?_⟩
    have hout : id ∉ (f.remove id).2.ids := by
      rw [ids_eq, List.mem_map]
      rintro ⟨q, hq, hid⟩
      simpa [hid] using (List.mem_filter.1 (hkept.mem_iff.1 hq)).2
    simp [hout, htop]

theorem remove_leaves_second_entry :
    let id : Handle := ⟨0, 0⟩
    let f := ((empty : Frontier SelectionRule.bestBound.order).insert id ⟨0, 1, 1, 1⟩).insert id ⟨1, 1, 2, 2⟩
    Std.TransCmp SelectionRule.bestBound.order ∧ (f.remove id).1 = true ∧ id ∈ (f.remove id).2.ids ∧
      (f.remove id).2.popped = 1 ∧ (f.toList.filter (·.id = id)).length = 2 := by
  intro id f
  exact ⟨inferInstance, by decide +kernel, by decide +kernel, by decide +kernel, by decide +kernel⟩

end Frontier

end BranchBound
