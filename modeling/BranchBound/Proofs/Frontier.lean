import BranchBound.Frontier
import Mathlib.Data.List.Perm.Basic
import Mathlib.Data.List.Nodup

namespace BranchBound

theorem Heap.peek?_of_pop? {α : Type} {cmp : α → α → Ordering} {h rest : Heap cmp} {x : α}
    (hp : h.pop? = some (x, rest)) : h.peek? = some x := by
  unfold pop? at hp
  unfold peek?
  cases hb : h.entries.back? with
  | none => simp [hb] at hp
  | some last =>
      simp only [hb] at hp
      split at hp
      · rename_i hr
        cases hp
        simp only [Array.size_pop] at hr
        simp [Array.getElem_pop]
      · rename_i hr
        cases hp
        simp only [Array.size_pop] at hr
        have hs : h.entries.size - 1 = 0 := by omega
        rw [Array.back?_eq_getElem?, hs] at hb
        exact hb

namespace Frontier

variable {cmp : NodeOrder} {f rest : Frontier cmp} {id : Handle}

theorem peek?_of_pop? (hp : f.pop? = some (id, rest)) : f.peek?.map Queued.id = some id := by
  obtain ⟨⟨q, heap⟩, hq, he⟩ := Option.map_eq_some_iff.1 hp
  cases he
  rw [peek?, Heap.peek?_of_pop? hq]
  rfl

theorem ids_eq (f : Frontier cmp) : f.ids = f.toList.map Queued.id := rfl

theorem filter_of_perm_cons {key : NodeKey} (hn : f.ids.Nodup)
    (hp : f.toList.Perm (⟨id, key⟩ :: rest.toList)) :
    rest.toList.Perm (f.toList.filter (·.id ≠ id)) := by
  have hids : (id :: rest.toList.map Queued.id).Nodup := (hp.map Queued.id).nodup_iff.1 hn
  have hne : ∀ q ∈ rest.toList, q.id ≠ id := by
    rintro q hq rfl
    exact (List.nodup_cons.1 hids).1 (List.mem_map_of_mem hq)
  have hkeep : rest.toList.filter (·.id ≠ id) = rest.toList :=
    List.filter_eq_self.2 fun q hq => decide_eq_true (hne q hq)
  have hf := hp.filter (·.id ≠ id)
  rw [List.filter_cons_of_neg (by simp), hkeep] at hf
  exact hf.symm

theorem toList_eq_nil_of_pop? (hp : f.pop? = none) : f.toList = [] := by
  unfold pop? Heap.pop? at hp
  unfold toList Heap.toList
  cases hb : f.heap.entries.back? with
  | none => simpa using hb
  | some last => simp only [hb] at hp; split at hp <;> simp at hp

/-- Of distinct entries, `remove` takes out the one under `id` and no other. -/
theorem toList_remove_perm (hn : f.ids.Nodup) (id : Handle) :
    (f.remove id).2.toList.Perm (f.toList.filter (·.id ≠ id)) := by
  unfold remove
  split
  · rename_i hpeek
    cases hp : f.pop? with
    | none => simp [toList_eq_nil_of_pop? hp]
    | some r =>
        obtain ⟨id', rest⟩ := r
        obtain rfl : id' = id := Option.some.inj ((peek?_of_pop? hp).symm.trans hpeek)
        obtain ⟨key, hperm⟩ := toList_pop?_perm hp
        exact filter_of_perm_cons hn hperm
  · simpa [toList] using toList_extract_perm f (·.id = id)

theorem mem_ids_remove {k : Handle} (hn : f.ids.Nodup) (hk : k ≠ id) : k ∈ (f.remove id).2.ids ↔ k ∈ f.ids := by
  rw [ids_eq, ids_eq, List.mem_map, List.mem_map]
  have hperm := toList_remove_perm hn id
  constructor
  · rintro ⟨e, he, rfl⟩
    exact ⟨e, List.mem_of_mem_filter (hperm.mem_iff.1 he), rfl⟩
  · rintro ⟨e, he, rfl⟩
    exact ⟨e, hperm.mem_iff.2 (List.mem_filter.2 ⟨he, decide_eq_true hk⟩), rfl⟩

theorem remove_fst (f : Frontier cmp) (id : Handle) : (f.remove id).1 = true ↔ id ∈ f.ids := by
  unfold remove
  split
  · rename_i hpeek
    cases hp : f.pop? with
    | none =>
        have hnil : f.heap.entries.toList = [] := toList_eq_nil_of_pop? hp
        obtain ⟨q, hq, -⟩ := Option.map_eq_some_iff.1 hpeek
        change f.heap.entries[0]? = some q at hq
        rw [← Array.getElem?_toList, hnil] at hq
        cases hq
    | some r =>
        obtain ⟨id', rest⟩ := r
        obtain rfl : id' = id := Option.some.inj ((peek?_of_pop? hp).symm.trans hpeek)
        obtain ⟨key, hperm⟩ := toList_pop?_perm hp
        simp only [true_iff]
        exact (hperm.map Queued.id).mem_iff.2 List.mem_cons_self
  · have hgone := f.extract_fst (·.id = id)
    change (!(f.extract _).1.isEmpty) = true ↔ _
    rw [hgone, ids_eq]
    simp

theorem mem_ids_requeue {k : Handle} (hn : f.ids.Nodup) (id : Handle) (key : NodeKey) :
    k ∈ (if (f.remove id).1 then (f.remove id).2.insert id key else (f.remove id).2).ids ↔ k ∈ f.ids := by
  have hinsert : k ∈ ((f.remove id).2.insert id key).ids ↔ k = id ∨ k ∈ (f.remove id).2.ids :=
    (((f.remove id).2.toList_insert_perm id key).map Queued.id).mem_iff.trans List.mem_cons
  by_cases hk : k = id
  · subst hk
    split
    · rename_i hfound
      simp [hinsert, (f.remove_fst k).1 hfound]
    · rename_i hfound
      have hout : k ∉ f.ids := fun hmem => hfound ((f.remove_fst k).2 hmem)
      refine iff_of_false (fun hmem => hout ?_) hout
      obtain ⟨e, he, rfl⟩ := List.mem_map.1 hmem
      exact List.mem_map_of_mem (List.mem_of_mem_filter ((toList_remove_perm hn e.id).mem_iff.1 he))
  · split
    · rw [hinsert, mem_ids_remove hn hk]
      simp [hk]
    · exact mem_ids_remove hn hk

end Frontier

end BranchBound
