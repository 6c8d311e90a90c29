import BranchBound.Arena
import Mathlib.Data.List.Perm.Basic
import Mathlib.Data.List.Nodup

namespace BranchBound.Arena

variable {α : Type} {a b : Arena α} {h k : Handle} {x y : α}

/-- The vacant slots are exactly those without a tenant, each named once, and the size counts the
others. -/
structure WellFormed (a : Arena α) : Prop where
  vacant_nodup : a.vacant.Nodup
  mem_vacant : ∀ i, i ∈ a.vacant ↔ ∃ g, a.slots[i]? = some ⟨g, none⟩
  size_eq : a.size = a.toList.length

def count (a : Arena α) (p : α → Bool) : Nat := a.toList.countP fun e => p e.2

def adjust (f : Handle → α → α) (a : Arena α) : Arena α :=
  { a with slots := a.slots.mapIdx fun i s => ⟨s.generation, s.tenant.map (f ⟨i, s.generation⟩)⟩ }

theorem mem_toList {e : Handle × α} : e ∈ a.toList ↔ a.get? e.1 = some e.2 := by
  obtain ⟨⟨i, g⟩, x⟩ := e
  unfold toList
  rw [List.mem_filterMap, get?_eq_some_iff]
  constructor
  · rintro ⟨⟨s, j⟩, hs, he⟩
    obtain ⟨z, hz, hx⟩ := Option.map_eq_some_iff.1 he
    rw [List.mem_zipIdx_iff_getElem?, Array.getElem?_toList] at hs
    cases hx
    rw [hs, ← hz]
  · intro hs
    refine ⟨(⟨g, some x⟩, i), ?_, rfl⟩
    rw [List.mem_zipIdx_iff_getElem?, Array.getElem?_toList]
    exact hs

theorem nodup_index (a : Arena α) : (a.toList.map fun e => e.1.index).Nodup := by
  unfold toList
  rw [List.map_filterMap, List.Nodup]
  have hz : (a.slots.toList.zipIdx.map Prod.snd).Nodup := by
    rw [List.zipIdx_map_snd]
    exact List.nodup_range'
  refine List.Pairwise.filterMap _ ?_ (List.pairwise_map.1 hz)
  rintro ⟨s, i⟩ ⟨s', j⟩ hij p hp q hq
  cases hs : s.tenant with
  | none => simp [hs] at hp
  | some z =>
      cases hs' : s'.tenant with
      | none => simp [hs'] at hq
      | some z' =>
          simp only [hs, hs', Option.map_some, Option.some.injEq] at hp hq
          rw [← hp, ← hq]
          exact hij

theorem nodup_toList (a : Arena α) : a.toList.Nodup := .of_map _ a.nodup_index

theorem nodup_handles (a : Arena α) : (a.toList.map Prod.fst).Nodup := by
  refine .of_map Handle.index ?_
  rw [List.map_map]
  exact a.nodup_index

theorem perm_of_get? {l : List (Handle × α)} (hl : l.Nodup)
    (h : ∀ e : Handle × α, e ∈ l ↔ a.get? e.1 = some e.2) : a.toList.Perm l := by
  rw [List.perm_ext_iff_of_nodup a.nodup_toList hl]
  intro e
  rw [mem_toList, h]

/-- The values under the handles of another arena that has all of them. -/
theorem toList_perm_lookup (h : ∀ k y, b.get? k = some y → ∃ x, a.get? k = some x) :
    b.toList.Perm (a.toList.filterMap fun e => (b.get? e.1).map (Prod.mk e.1)) := by
  apply perm_of_get?
  · rw [show (fun e : Handle × α => (b.get? e.1).map (Prod.mk e.1)) =
      (fun k => (b.get? k).map (Prod.mk k)) ∘ Prod.fst from rfl, ← List.filterMap_map]
    refine a.nodup_handles.filterMap ?_
    intro k k' e hk hk'
    obtain ⟨x, -, rfl⟩ := Option.map_eq_some_iff.1 hk
    obtain ⟨y, -, he⟩ := Option.map_eq_some_iff.1 hk'
    exact (congrArg Prod.fst he).symm
  · rintro ⟨k, y⟩
    simp only [List.mem_filterMap, Option.map_eq_some_iff, Prod.mk.injEq]
    constructor
    · rintro ⟨e, -, z, hz, rfl, rfl⟩
      exact hz
    · intro hy
      obtain ⟨x, hx⟩ := h k y hy
      exact ⟨(k, x), mem_toList.2 hx, y, hy, rfl, rfl⟩

theorem count_lookup (h : ∀ k y, b.get? k = some y → ∃ x, a.get? k = some x) (p : α → Bool) :
    b.count p = a.toList.countP fun e => (b.get? e.1).any p := by
  unfold count
  rw [(toList_perm_lookup h).countP_eq, List.countP_filterMap]
  refine List.countP_congr fun e _ => ?_
  cases b.get? e.1 <;> rfl

theorem get?_of_vacant {g : Nat} {i : Nat} (hs : a.slots[i]? = some ⟨g, none⟩) {h : Handle}
    (hi : h.index = i) : a.get? h = none := by
  unfold get?
  rw [hi, hs]
  simp

theorem slots_adjust (f : Handle → α → α) (a : Arena α) (i : Nat) :
    (a.adjust f).slots[i]? =
      a.slots[i]?.map fun s => ⟨s.generation, s.tenant.map (f ⟨i, s.generation⟩)⟩ := by
  simp [adjust]

@[simp] theorem get?_adjust (f : Handle → α → α) (a : Arena α) (h : Handle) :
    (a.adjust f).get? h = (a.get? h).map (f h) := by
  obtain ⟨i, g⟩ := h
  unfold get?
  rw [slots_adjust]
  cases hs : a.slots[i]? with
  | none => rfl
  | some s =>
      by_cases hg : s.generation = g
      · subst hg; simp
      · simp [hg]

theorem adjust_adjust (f g : Handle → α → α) (a : Arena α) :
    (a.adjust f).adjust g = a.adjust fun h x => g h (f h x) := by
  have hs : ((a.adjust f).adjust g).slots = (a.adjust fun h x => g h (f h x)).slots := by
    apply Array.ext_getElem?
    intro i
    rw [slots_adjust, slots_adjust, slots_adjust, Option.map_map]
    cases a.slots[i]? with
    | none => rfl
    | some s => obtain ⟨g, _ | x⟩ := s <;> rfl
  calc (a.adjust f).adjust g = ⟨((a.adjust f).adjust g).slots, a.vacant, a.size⟩ := rfl
    _ = _ := by rw [hs]; rfl

theorem adjust_congr {f g : Handle → α → α} (h : ∀ k x, a.get? k = some x → f k x = g k x) :
    a.adjust f = a.adjust g := by
  have hs : (a.adjust f).slots = (a.adjust g).slots := by
    apply Array.ext_getElem?
    intro i
    rw [slots_adjust, slots_adjust]
    cases hi : a.slots[i]? with
    | none => rfl
    | some s =>
        obtain ⟨v, _ | x⟩ := s
        · rfl
        · have hx : a.get? ⟨i, v⟩ = some x := get?_eq_some_iff.2 hi
          simp [h _ x hx]
  calc a.adjust f = ⟨(a.adjust f).slots, a.vacant, a.size⟩ := rfl
    _ = a.adjust g := by rw [hs]; rfl

theorem adjust_self (a : Arena α) : (a.adjust fun _ x => x) = a := by
  have hs : (a.adjust fun _ x => x).slots = a.slots := by
    apply Array.ext_getElem?
    intro i
    rw [slots_adjust]
    cases a.slots[i]? with
    | none => rfl
    | some s => obtain ⟨g, _ | x⟩ := s <;> rfl
  calc (a.adjust fun _ x => x) = ⟨(a.adjust fun _ x => x).slots, a.vacant, a.size⟩ := rfl
    _ = a := by rw [hs]

theorem toList_adjust_perm (f : Handle → α → α) (a : Arena α) :
    (a.adjust f).toList.Perm (a.toList.map fun e => (e.1, f e.1 e.2)) := by
  apply perm_of_get?
  · refine .of_map (fun e => e.1.index) ?_
    rw [List.map_map]
    exact a.nodup_index
  · rintro ⟨h, y⟩
    simp only [List.mem_map, mem_toList, get?_adjust, Option.map_eq_some_iff, Prod.mk.injEq]
    constructor
    · rintro ⟨⟨k, x⟩, hx, rfl, rfl⟩
      exact ⟨x, hx, rfl⟩
    · rintro ⟨x, hx, rfl⟩
      exact ⟨(h, x), hx, rfl, rfl⟩

theorem count_adjust (f : Handle → α → α) (a : Arena α) (p : α → Bool) :
    (a.adjust f).count p = a.toList.countP fun e => p (f e.1 e.2) := by
  unfold count
  rw [(toList_adjust_perm f a).countP_eq, List.countP_map]
  rfl

theorem count_adjust_congr {f : Handle → α → α} {p : α → Bool}
    (h : ∀ k x, a.get? k = some x → p (f k x) = p x) : (a.adjust f).count p = a.count p := by
  rw [count_adjust]
  refine List.countP_congr fun e he => ?_
  rw [h e.1 e.2 (mem_toList.1 he)]

theorem WellFormed.adjust (ha : a.WellFormed) (f : Handle → α → α) : (a.adjust f).WellFormed where
  vacant_nodup := ha.vacant_nodup
  mem_vacant i := by
    rw [slots_adjust, show (a.adjust f).vacant = a.vacant from rfl, ha.mem_vacant]
    cases hs : a.slots[i]? with
    | none => simp
    | some s => obtain ⟨g, _ | z⟩ := s <;> simp
  size_eq := by
    rw [(toList_adjust_perm f a).length_eq, List.length_map]
    exact ha.size_eq

theorem slots_set (a : Arena α) (h : Handle) (x : α) (i : Nat) :
    (a.set h x).slots[i]? =
      a.slots[i]?.map fun s => ⟨s.generation, s.tenant.map fun y => if ⟨i, s.generation⟩ = h then x else y⟩ := by
  have hsame (s : Slot α) (hs : s.tenant.isSome → (⟨i, s.generation⟩ : Handle) ≠ h) :
      (⟨s.generation, s.tenant.map fun y => if ⟨i, s.generation⟩ = h then x else y⟩ : Slot α) = s := by
    obtain ⟨g, _ | y⟩ := s
    · rfl
    · simp [hs rfl]
  by_cases hc : a.contains h
  · obtain ⟨y, hy⟩ := Option.isSome_iff_exists.1 hc
    rw [get?_eq_some_iff] at hy
    rw [set, if_pos hc, Array.getElem?_setIfInBounds]
    by_cases hi : h.index = i
    · subst hi
      obtain ⟨hn, hg⟩ := Array.getElem?_eq_some_iff.1 hy
      simp [hn, hg]
    · rw [if_neg hi]
      cases hs : a.slots[i]? with
      | none => rfl
      | some s => rw [Option.map_some, hsame s fun _ he => hi (he ▸ rfl)]
  · rw [set, if_neg hc]
    cases hs : a.slots[i]? with
    | none => rfl
    | some s =>
        rw [Option.map_some, hsame s]
        rintro ht rfl
        exact hc (by simpa [contains, get?, hs] using ht)

theorem set_eq_adjust (a : Arena α) (h : Handle) (x : α) :
    a.set h x = a.adjust fun k y => if k = h then x else y := by
  have hs : (a.set h x).slots = (a.adjust fun k y => if k = h then x else y).slots := by
    apply Array.ext_getElem?
    intro i
    rw [slots_set, slots_adjust]
  have hv : (a.set h x).vacant = a.vacant := by unfold set; split <;> rfl
  have hn : (a.set h x).size = a.size := by unfold set; split <;> rfl
  calc a.set h x = ⟨(a.set h x).slots, (a.set h x).vacant, (a.set h x).size⟩ := rfl
    _ = _ := by rw [hs, hv, hn]; rfl

theorem set_self (hx : a.get? h = some x) : a.set h x = a := by
  rw [set_eq_adjust, adjust_congr (g := fun _ y => y), adjust_self]
  intro k y hy
  split
  · rename_i hk
    subst hk
    exact Option.some.inj (hx.symm.trans hy)
  · rfl

theorem get?_set (a : Arena α) (h k : Handle) (x : α) :
    (a.set h x).get? k = if k = h then (a.get? k).map fun _ => x else a.get? k := by
  rw [set_eq_adjust, get?_adjust]
  by_cases hk : k = h
  · simp [hk]
  · simp [hk]

theorem get?_set_self {h : Handle} {y : α} (hy : a.get? h = some y) (x : α) : (a.set h x).get? h = some x := by
  rw [get?_set, if_pos rfl, hy]
  rfl

theorem get?_set_ne (a : Arena α) {h k : Handle} (hk : k ≠ h) (x : α) : (a.set h x).get? k = a.get? k := by
  rw [get?_set, if_neg hk]

theorem WellFormed.set (ha : a.WellFormed) (h : Handle) (x : α) : (a.set h x).WellFormed := by
  rw [set_eq_adjust]
  exact ha.adjust _

theorem toList_perm_cons (hx : a.get? h = some x) :
    a.toList.Perm ((h, x) :: a.toList.filter fun e => e.1 ≠ h) := by
  apply perm_of_get?
  · rw [List.nodup_cons]
    exact ⟨by simp, a.nodup_toList.filter _⟩
  · rintro ⟨k, z⟩
    simp only [List.mem_cons, Prod.mk.injEq, List.mem_filter, mem_toList, decide_eq_true_eq]
    by_cases hk : k = h
    · subst hk
      simp [hx, eq_comm]
    · simp [hk]

theorem toList_set_perm (hx : a.get? h = some x) (y : α) :
    (a.set h y).toList.Perm ((h, y) :: a.toList.filter fun e => e.1 ≠ h) := by
  apply perm_of_get?
  · rw [List.nodup_cons]
    exact ⟨by simp, a.nodup_toList.filter _⟩
  · rintro ⟨k, z⟩
    simp only [List.mem_cons, Prod.mk.injEq, List.mem_filter, mem_toList, decide_eq_true_eq, get?_set]
    by_cases hk : k = h
    · subst hk
      simp [hx, eq_comm]
    · simp [hk]

/-- Replacing one value moves a count by what the two values add to it. -/
theorem count_set (hx : a.get? h = some x) (y : α) (p : α → Bool) :
    (a.set h y).count p + (p x).toNat = a.count p + (p y).toNat := by
  unfold count
  rw [(toList_set_perm hx y).countP_eq, (toList_perm_cons hx).countP_eq, List.countP_cons,
    List.countP_cons]
  cases p x <;> cases p y <;> simp

theorem count_set_congr (hx : a.get? h = some x) {y : α} {p : α → Bool} (hp : p y = p x) :
    (a.set h y).count p = a.count p := by
  have hcount := count_set hx y p
  rw [hp] at hcount
  exact Nat.add_right_cancel hcount

theorem count_pos {p : α → Bool} : 0 < a.count p ↔ ∃ k z, a.get? k = some z ∧ p z := by
  unfold count
  rw [List.countP_pos_iff]
  constructor
  · rintro ⟨⟨k, z⟩, he, hp⟩
    exact ⟨k, z, mem_toList.1 he, hp⟩
  · rintro ⟨k, z, hz, hp⟩
    exact ⟨(k, z), mem_toList.2 hz, hp⟩

theorem count_eq_zero {p : α → Bool} (h : ∀ k z, a.get? k = some z → p z = false) :
    a.count p = 0 := by
  apply Nat.eq_zero_of_not_pos
  rw [count_pos]
  rintro ⟨k, z, hz, hp⟩
  rw [h k z hz] at hp
  cases hp

theorem countP_split {β : Type} {p q r : β → Bool} {l : List β}
    (h : ∀ e ∈ l, (r e).toNat = (p e).toNat + (q e).toNat) :
    l.countP r = l.countP p + l.countP q := by
  induction l with
  | nil => rfl
  | cons e l ih =>
      have he := h e List.mem_cons_self
      rw [List.countP_cons, List.countP_cons, List.countP_cons,
        ih fun e' he' => h e' (List.mem_cons_of_mem e he')]
      cases hp : p e <;> cases hq : q e <;> cases hr : r e <;> simp_all
      all_goals omega

theorem countP_mem {l : List Handle} (hl : l.Nodup) (hlive : ∀ k ∈ l, ∃ x, a.get? k = some x) :
    (a.toList.countP fun e => decide (e.1 ∈ l)) = l.length := by
  have hperm : ((a.toList.filter fun e => decide (e.1 ∈ l)).map Prod.fst).Perm l := by
    rw [List.perm_ext_iff_of_nodup (a.nodup_handles.sublist (List.filter_sublist.map _)) hl]
    intro k
    simp only [List.mem_map, List.mem_filter, decide_eq_true_eq]
    constructor
    · rintro ⟨e, ⟨-, he⟩, rfl⟩
      exact he
    · intro hk
      obtain ⟨x, hx⟩ := hlive k hk
      exact ⟨(k, x), ⟨mem_toList.2 hx, hk⟩, rfl⟩
  rw [← hperm.length_eq, List.length_map, List.countP_eq_length_filter]

theorem get?_insert (ha : a.WellFormed) (hi : a.insert x = (h, b)) :
    a.get? h = none ∧ ∀ k, b.get? k = if k = h then some x else a.get? k := by
  unfold insert at hi
  cases hv : a.vacant with
  | nil =>
      rw [hv] at hi
      cases hi
      constructor
      · simp [get?]
      · rintro ⟨i, g⟩
        unfold get?
        simp only [Array.getElem?_push, Handle.mk.injEq]
        by_cases hn : i = a.slots.size
        · subst hn
          by_cases hg : 0 = g
          · simp [hg]
          · simp [hg, Ne.symm hg]
        · simp [hn]
  | cons i rest =>
      obtain ⟨g, hg⟩ := (ha.mem_vacant i).1 (hv ▸ List.mem_cons_self)
      obtain ⟨hn, hs⟩ := Array.getElem?_eq_some_iff.1 hg
      rw [hv] at hi
      simp only [hg, Option.map_some, Option.getD_some, Prod.mk.injEq] at hi
      obtain ⟨rfl, rfl⟩ := hi
      refine ⟨get?_of_vacant hg rfl, ?_⟩
      rintro ⟨j, g'⟩
      unfold get?
      simp only [Array.getElem?_setIfInBounds, Handle.mk.injEq]
      by_cases hj : i = j
      · subst hj
        by_cases he : g = g'
        · simp [he, hn]
        · simp [he, hn, hs, Ne.symm he]
      · simp [hj, Ne.symm hj]

theorem toList_insert_perm (ha : a.WellFormed) (hi : a.insert x = (h, b)) :
    b.toList.Perm ((h, x) :: a.toList) := by
  obtain ⟨hnone, hget⟩ := get?_insert ha hi
  apply perm_of_get?
  · rw [List.nodup_cons, mem_toList, hnone]
    exact ⟨by simp, a.nodup_toList⟩
  · rintro ⟨k, z⟩
    rw [List.mem_cons, mem_toList, hget]
    by_cases hk : k = h
    · subst hk
      simp [hnone, eq_comm]
    · simp [hk]

theorem count_insert (ha : a.WellFormed) (hi : a.insert x = (h, b)) (p : α → Bool) :
    b.count p = a.count p + (p x).toNat := by
  unfold count
  rw [(toList_insert_perm ha hi).countP_eq, List.countP_cons]
  cases p x <;> rfl

theorem WellFormed.insert (ha : a.WellFormed) (hi : a.insert x = (h, b)) : b.WellFormed := by
  have hlen := (toList_insert_perm ha hi).length_eq
  unfold Arena.insert at hi
  cases hv : a.vacant with
  | nil =>
      rw [hv] at hi
      cases hi
      refine ⟨List.nodup_nil, fun i => ?_, by rw [hlen, List.length_cons, ← ha.size_eq]⟩
      have hi := ha.mem_vacant i
      rw [hv] at hi
      simp only [List.not_mem_nil, false_iff, not_exists] at hi ⊢
      intro g
      rw [Array.getElem?_push]
      split
      · simp
      · exact hi g
  | cons i rest =>
      obtain ⟨g, hg⟩ := (ha.mem_vacant i).1 (hv ▸ List.mem_cons_self)
      have hn := (Array.getElem?_eq_some_iff.1 hg).1
      have hnodup := ha.vacant_nodup
      rw [hv] at hi hnodup
      simp only [hg, Option.map_some, Option.getD_some, Prod.mk.injEq] at hi
      obtain ⟨rfl, rfl⟩ := hi
      refine ⟨(List.nodup_cons.1 hnodup).2, fun j => ?_, by rw [hlen, List.length_cons, ← ha.size_eq]⟩
      have hj := ha.mem_vacant j
      rw [hv, List.mem_cons] at hj
      simp only [Array.getElem?_setIfInBounds]
      by_cases hij : i = j
      · subst hij
        simpa [hn] using (List.nodup_cons.1 hnodup).1
      · simpa [hij, Ne.symm hij] using hj

theorem erase_eq_some (he : a.erase h = some (x, b)) :
    a.get? h = some x ∧
      b = ⟨a.slots.setIfInBounds h.index ⟨h.generation + 1, none⟩, h.index :: a.vacant, a.size - 1⟩ := by
  obtain ⟨y, hy, he⟩ := Option.map_eq_some_iff.1 he
  cases he
  exact ⟨hy, rfl⟩

theorem get?_of_erase (he : a.erase h = some (x, b)) (k : Handle) :
    b.get? k = if k = h then none else a.get? k := by
  obtain ⟨hx, rfl⟩ := erase_eq_some he
  rw [get?_eq_some_iff] at hx
  obtain ⟨hn, hs⟩ := Array.getElem?_eq_some_iff.1 hx
  obtain ⟨j, g⟩ := k
  unfold get?
  simp only [Array.getElem?_setIfInBounds]
  by_cases hj : h.index = j
  · subst hj
    by_cases hg : g = h.generation
    · subst hg
      simp [hn]
    · have hne : (⟨h.index, g⟩ : Handle) ≠ h := fun he => hg (congrArg Handle.generation he)
      simp [hn, hs, hne, Ne.symm hg]
  · have hne : (⟨j, g⟩ : Handle) ≠ h := fun he => hj (congrArg Handle.index he).symm
    simp [hj, hne]

theorem toList_erase_perm (he : a.erase h = some (x, b)) : a.toList.Perm ((h, x) :: b.toList) := by
  have hget := get?_of_erase he
  apply perm_of_get?
  · rw [List.nodup_cons, mem_toList, hget]
    exact ⟨by simp, b.nodup_toList⟩
  · rintro ⟨k, z⟩
    rw [List.mem_cons, mem_toList, hget]
    by_cases hk : k = h
    · subst hk
      simp [(erase_eq_some he).1, eq_comm]
    · simp [hk]

theorem count_erase (he : a.erase h = some (x, b)) (p : α → Bool) :
    a.count p = b.count p + (p x).toNat := by
  unfold count
  rw [(toList_erase_perm he).countP_eq, List.countP_cons]
  cases p x <;> rfl

theorem WellFormed.erase (ha : a.WellFormed) (he : a.erase h = some (x, b)) : b.WellFormed := by
  have hlen := (toList_erase_perm he).length_eq
  obtain ⟨hx, rfl⟩ := erase_eq_some he
  rw [get?_eq_some_iff] at hx
  have hn := (Array.getElem?_eq_some_iff.1 hx).1
  refine ⟨?_, fun i => ?_, ?_⟩
  · rw [List.nodup_cons, ha.mem_vacant, hx]
    exact ⟨by simp, ha.vacant_nodup⟩
  · rw [List.mem_cons, ha.mem_vacant]
    simp only [Array.getElem?_setIfInBounds]
    by_cases hi : h.index = i
    · subst hi
      simp [hn]
    · simp [hi, Ne.symm hi]
  · rw [List.length_cons, ← ha.size_eq] at hlen
    exact hlen ▸ rfl

theorem get?_clear (a : Arena α) (h : Handle) : a.clear.get? h = none := by
  obtain ⟨i, g⟩ := h
  unfold clear get?
  cases hs : a.slots[i]? with
  | none => simp [hs]
  | some s => obtain ⟨g', _ | z⟩ := s <;> simp [hs]

theorem toList_clear (a : Arena α) : a.clear.toList = [] := by
  apply List.eq_nil_iff_forall_not_mem.2
  intro e he
  rw [mem_toList, get?_clear] at he
  cases he

theorem WellFormed.clear (ha : a.WellFormed) : a.clear.WellFormed where
  vacant_nodup := by
    refine List.nodup_append'.2 ⟨List.nodup_reverse.2 a.nodup_index, ha.vacant_nodup, ?_⟩
    intro i hi hv
    obtain ⟨e, he, rfl⟩ := List.mem_map.1 (List.mem_reverse.1 hi)
    obtain ⟨g, hg⟩ := (ha.mem_vacant _).1 hv
    rw [mem_toList, get?_of_vacant hg rfl] at he
    cases he
  mem_vacant i := by
    have hslot : a.clear.slots[i]? =
        a.slots[i]?.map fun s => if s.tenant.isSome then ⟨s.generation + 1, none⟩ else s := by
      simp [Arena.clear]
    have hmem : i ∈ a.clear.vacant ↔ (∃ e ∈ a.toList, e.1.index = i) ∨ i ∈ a.vacant := by
      simp [Arena.clear]
    rw [hslot, hmem, ha.mem_vacant]
    constructor
    · rintro (⟨e, he, rfl⟩ | ⟨g, hg⟩)
      · rw [mem_toList, get?_eq_some_iff] at he
        exact ⟨e.1.generation + 1, by simp [he]⟩
      · exact ⟨g, by simp [hg]⟩
    · rintro ⟨g, hg⟩
      obtain ⟨⟨g', _ | z⟩, hs, hg⟩ := Option.map_eq_some_iff.1 hg
      · exact .inr ⟨g', hs⟩
      · exact .inl ⟨(⟨i, g'⟩, z), mem_toList.2 (get?_eq_some_iff.2 hs), rfl⟩
  size_eq := by rw [toList_clear]; rfl

theorem wellFormed_empty : (empty : Arena α).WellFormed where
  vacant_nodup := List.nodup_nil
  mem_vacant i := by simp [empty]
  size_eq := rfl

end BranchBound.Arena
