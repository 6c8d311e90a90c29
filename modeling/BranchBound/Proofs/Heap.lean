import BranchBound.Heap

namespace BranchBound.Heap

variable {α : Type} (cmp : α → α → Ordering)

def Under (a : Array α) (j i : Nat) : Prop :=
  ∀ x y, a[j]? = some x → a[i]? = some y → (cmp x y).isLE

/-- No entry beats its parent, as far as the parent stands at `lo` or later. -/
def OrderedFrom (lo : Nat) (a : Array α) : Prop :=
  ∀ j, 0 < j → lo ≤ parent j → Under cmp a j (parent j)

def Ordered (a : Array α) : Prop := OrderedFrom cmp 0 a

/-- In order but for the entry at `i`: it may beat its parent, and its children may beat it, but not
its parent. -/
structure Hollow (lo : Nat) (a : Array α) (i : Nat) : Prop where
  aside : ∀ j, 0 < j → lo ≤ parent j → j ≠ i → parent j ≠ i → Under cmp a j (parent j)
  grand : ∀ j, 0 < j → parent j = i → 0 < i → lo ≤ parent i → Under cmp a j (parent i)

variable {cmp} {a : Array α} {lo i j k p : Nat}

theorem parent_lt (h : 0 < i) : parent i < i := by
  unfold parent
  omega

theorem Under.of_missing (h : a.size ≤ j) : Under cmp a j i := by
  intro x y hx
  simp [Array.getElem?_eq_none h] at hx

theorem Under.congr {b : Array α} (hj : b[j]? = a[j]?) (hi : b[i]? = a[i]?) (h : Under cmp a j i) :
    Under cmp b j i := by
  intro x y hx hy
  exact h x y (hj ▸ hx) (hi ▸ hy)

theorem under_iff (hj : j < a.size) (hi : i < a.size) : Under cmp a j i ↔ (cmp a[j] a[i]).isLE := by
  simp [Under, hj, hi]

theorem Hollow.of_orderedFrom_succ (h : OrderedFrom cmp (i + 1) a) : Hollow cmp i a i where
  aside j hj hlo _ hp := h j hj (by omega)
  grand j hj hp hi hlo := by
    have := parent_lt hi
    omega

section Exchange

variable {hi : i < a.size} {hp : p < a.size}

theorem getElem?_swap_left : (a.swap i p hi hp)[i]? = some a[p] := by
  rw [Array.getElem?_swap]
  split
  · rename_i h
    subst h
    rfl
  · rw [if_pos rfl]

theorem getElem?_swap_right : (a.swap i p hi hp)[p]? = some a[i] := by
  simp [Array.getElem?_swap]

theorem getElem?_swap_other (h : k ≠ i) (h' : k ≠ p) : (a.swap i p hi hp)[k]? = a[k]? := by
  simp [Array.getElem?_swap, h.symm, h'.symm]

theorem Under.swap_aside (hji : j ≠ i) (hjp : j ≠ p) (hki : k ≠ i) (hkp : k ≠ p) (h : Under cmp a j k) :
    Under cmp (a.swap i p hi hp) j k :=
  h.congr (getElem?_swap_other hji hjp) (getElem?_swap_other hki hkp)

theorem Under.swap_left (hji : j ≠ i) (hjp : j ≠ p) (h : Under cmp a j p) : Under cmp (a.swap i p hi hp) j i := by
  intro x y hx hy
  rw [getElem?_swap_other hji hjp] at hx
  rw [getElem?_swap_left, ← Array.getElem?_eq_getElem] at hy
  exact h x y hx hy

theorem Under.swap_right (hji : j ≠ i) (hjp : j ≠ p) (h : Under cmp a j i) : Under cmp (a.swap i p hi hp) j p := by
  intro x y hx hy
  rw [getElem?_swap_other hji hjp] at hx
  rw [getElem?_swap_right, ← Array.getElem?_eq_getElem] at hy
  exact h x y hx hy

theorem Under.left_swap (hki : k ≠ i) (hkp : k ≠ p) (h : Under cmp a p k) : Under cmp (a.swap i p hi hp) i k := by
  intro x y hx hy
  rw [getElem?_swap_left, ← Array.getElem?_eq_getElem] at hx
  rw [getElem?_swap_other hki hkp] at hy
  exact h x y hx hy

theorem Under.swapped (h : (cmp a[i] a[p]).isLE) : Under cmp (a.swap i p hi hp) p i := by
  intro x y hx hy
  rw [getElem?_swap_right] at hx
  rw [getElem?_swap_left] at hy
  cases hx
  cases hy
  exact h

theorem Under.swapped_back (h : (cmp a[p] a[i]).isLE) : Under cmp (a.swap i p hi hp) i p := by
  intro x y hx hy
  rw [getElem?_swap_left] at hx
  rw [getElem?_swap_right] at hy
  cases hx
  cases hy
  exact h

end Exchange

theorem size_of_greaterChild (h : greaterChild cmp a i = none) : a.size ≤ 2 * i + 1 := by
  revert h
  fun_cases greaterChild cmp a i <;> simp
  omega

theorem childless (h : greaterChild cmp a i = none) : ∀ j, 0 < j → parent j = i → Under cmp a j i := by
  intro j hj hp
  have := size_of_greaterChild h
  exact Under.of_missing (by unfold parent at hp; omega)

theorem empty_ordered : Ordered cmp (empty : Heap cmp).entries := by
  intro j hj _
  exact Under.of_missing (by simp [empty])

section Preorder

variable [Std.TransCmp cmp]

theorem isLE_of_not_isLE {x y : α} (h : ¬ (cmp x y).isLE) : (cmp y x).isLE := by
  rw [show cmp y x = (cmp x y).swap from Std.OrientedCmp.eq_swap]
  cases hc : cmp x y <;> simp_all

theorem isLE_of_not_isLT {x y : α} (h : ¬ (cmp x y).isLT) : (cmp y x).isLE := by
  rw [show cmp y x = (cmp x y).swap from Std.OrientedCmp.eq_swap]
  cases hc : cmp x y <;> simp_all

theorem Under.self : Under cmp a i i := by
  intro x y hx hy
  rw [hx] at hy
  cases hy
  rw [show cmp x x = .eq from Std.ReflCmp.compare_self]
  rfl

theorem Under.trans (hk : k < a.size) (h : Under cmp a j k) (h' : Under cmp a k i) : Under cmp a j i := by
  intro x y hx hy
  have hmid : a[k]? = some a[k] := Array.getElem?_eq_getElem hk
  exact Std.TransCmp.isLE_trans (h x a[k] hx hmid) (h' a[k] y hmid hy)

theorem Ordered.under_top (h : Ordered cmp a) (j : Nat) : Under cmp a j 0 := by
  induction j using Nat.strongRecOn with
  | _ j ih =>
      by_cases hj : j = 0
      · subst hj
        exact Under.self
      · have hlt : parent j < j := parent_lt (by omega)
        by_cases hsize : j < a.size
        · exact (h j (by omega) (Nat.zero_le _)).trans (by omega) (ih (parent j) hlt)
        · exact Under.of_missing (by omega)

/-- One step of `rise`: the place that is not yet in order moves to the parent. -/
theorem Hollow.ascend (h : Hollow cmp 0 a i) (hbelow : ∀ j, 0 < j → parent j = i → Under cmp a j i)
    {hi : i < a.size} (hpos : 0 < i) {hp : parent i < a.size} (hgt : ¬ (cmp a[i] a[parent i]).isLE) :
    Hollow cmp 0 (a.swap i (parent i)) (parent i) ∧
      ∀ j, 0 < j → parent j = parent i → Under cmp (a.swap i (parent i)) j (parent i) := by
  have hup : parent i < i := parent_lt hpos
  have hside : ∀ j, 0 < j → j ≠ i → parent j = parent i → Under cmp a j (parent i) := by
    intro j hj hji hpj
    rw [← hpj]
    exact h.aside j hj (Nat.zero_le _) hji (by omega)
  constructor
  · constructor
    · intro j hj _ hjp hpj
      by_cases hchild : parent j = i
      · have hji : j ≠ i := by
          have := parent_lt hj
          omega
        rw [hchild]
        exact (h.grand j hj hchild hpos (Nat.zero_le _)).swap_left hji hjp
      · by_cases hji : j = i
        · exact absurd (congrArg parent hji) hpj
        · exact (h.aside j hj (Nat.zero_le _) hji hchild).swap_aside hji hjp hchild hpj
    · intro j hj hpj hpos' _
      have hup' : parent (parent i) < parent i := parent_lt hpos'
      have habove : Under cmp a (parent i) (parent (parent i)) :=
        h.aside (parent i) hpos' (Nat.zero_le _) (by omega) (by omega)
      by_cases hji : j = i
      · subst hji
        exact habove.left_swap (by omega) (by omega)
      · have := parent_lt hj
        exact ((hside j hj hji hpj).trans hp habove).swap_aside hji (by omega) (by omega) (by omega)
  · intro j hj hpj
    have hle : (cmp a[parent i] a[i]).isLE := isLE_of_not_isLE hgt
    by_cases hji : j = i
    · subst hji
      exact Under.swapped_back hle
    · have := parent_lt hj
      exact ((hside j hj hji hpj).trans hp ((under_iff hp hi).2 hle)).swap_right hji (by omega)

theorem rise_ordered (hi : i < a.size) (h : Hollow cmp 0 a i)
    (hbelow : ∀ j, 0 < j → parent j = i → Under cmp a j i) : Ordered cmp (rise cmp a i hi) := by
  fun_induction rise cmp a i hi with
  | case1 a hi =>
      intro j hj hlo
      by_cases hp : parent j = 0
      · rw [hp]
        exact hbelow j hj hp
      · exact h.aside j hj hlo (by omega) hp
  | case2 a i hi hne hp hle =>
      intro j hj hlo
      by_cases hchild : parent j = i
      · rw [hchild]
        exact hbelow j hj hchild
      · by_cases hji : j = i
        · subst hji
          exact (under_iff hi (by omega)).2 hle
        · exact h.aside j hj hlo hji hchild
  | case3 a i hi hne hp hgt ih =>
      have hstep := h.ascend hbelow (by omega) hgt
      exact ih hstep.1 hstep.2

theorem parent_greaterChild {c : { c : Nat // i < c ∧ c < a.size }} (h : greaterChild cmp a i = some c) :
    parent c = i ∧ ∀ j, 0 < j → parent j = i → Under cmp a j c := by
  have hchildren : ∀ j, 0 < j → parent j = i → j = 2 * i + 1 ∨ j = 2 * i + 2 := by
    intro j hj hp
    unfold parent at hp
    omega
  have hleft : parent (2 * i + 1) = i := by
    unfold parent
    omega
  have hright : parent (2 * i + 2) = i := by
    unfold parent
    omega
  revert h
  fun_cases greaterChild cmp a i with
  | case1 hboth hle =>
      intro h
      cases h
      constructor
      · exact hright
      · intro j hj hp
        obtain rfl | rfl := hchildren j hj hp
        · exact (under_iff _ _).2 hle
        · exact Under.self
  | case2 hboth hgt =>
      intro h
      cases h
      constructor
      · exact hleft
      · intro j hj hp
        obtain rfl | rfl := hchildren j hj hp
        · exact Under.self
        · exact (under_iff _ _).2 (isLE_of_not_isLE hgt)
  | case3 hboth hone =>
      intro h
      cases h
      constructor
      · exact hleft
      · intro j hj hp
        obtain rfl | rfl := hchildren j hj hp
        · exact Under.self
        · exact Under.of_missing (by omega)
  | case4 => simp

/-- One step down: the greater child takes the place of its parent. -/
theorem Hollow.descend (h : Hollow cmp lo a i) {c : { c : Nat // i < c ∧ c < a.size }}
    (hc : greaterChild cmp a i = some c) {hi : i < a.size} {hcs : c.1 < a.size} (hlo : lo ≤ i) :
    Hollow cmp lo (a.swap i c) c := by
  obtain ⟨hpc, hgreatest⟩ := parent_greaterChild hc
  have hlt : i < c.1 := c.2.1
  constructor
  · intro j hj hloj hjc hpj
    by_cases hchild : parent j = i
    · have := parent_lt hj
      rw [hchild]
      exact (hgreatest j hj hchild).swap_left (by omega) hjc
    · by_cases hji : j = i
      · subst hji
        have := parent_lt hj
        exact (h.grand c (by omega) hpc hj hloj).left_swap (by omega) hpj
      · exact (h.aside j hj hloj hji hchild).swap_aside hji hjc hchild hpj
  · intro j hj hpj hpos _
    have := parent_lt hj
    have hunder : Under cmp a j c := by
      rw [← hpj]
      exact h.aside j hj (by omega) (by omega) (by omega)
    rw [hpc]
    exact hunder.swap_left (by omega) (by omega)

theorem sink_orderedFrom (hi : i < a.size) (h : Hollow cmp lo a i) (hlo : lo ≤ i)
    (habove : 0 < i → lo ≤ parent i → Under cmp a i (parent i)) : OrderedFrom cmp lo (sink cmp a i hi) := by
  -- It stays where it is as soon as none of its children beats it.
  have hsettled : ∀ {a : Array α} {i}, Hollow cmp lo a i → (0 < i → lo ≤ parent i → Under cmp a i (parent i)) →
      (∀ j, 0 < j → parent j = i → Under cmp a j i) → OrderedFrom cmp lo a := by
    intro a i h habove hbelow j hj hloj
    by_cases hchild : parent j = i
    · rw [hchild]
      exact hbelow j hj hchild
    · by_cases hji : j = i
      · subst hji
        exact habove hj hloj
      · exact h.aside j hj hloj hji hchild
  fun_induction sink cmp a i hi with
  | case1 a i hi hnone => exact hsettled h habove (childless hnone)
  | case2 a i hi c hc hg hlt ih =>
      apply ih (h.descend hg hlo) (by omega)
      intro _ _
      rw [(parent_greaterChild hg).1]
      apply Under.swapped
      cases hcmp : cmp a[i] a[c] <;> simp_all
  | case3 a i hi c hc hg hge =>
      apply hsettled h habove
      intro j hj hp
      apply ((parent_greaterChild hg).2 j hj hp).trans hc.2
      exact (under_iff hc.2 hi).2 (isLE_of_not_isLT hge)

theorem resettle_ordered (hi : i < a.size) (h : Hollow cmp 0 a i) : Ordered cmp (resettle cmp a i hi) := by
  fun_induction resettle cmp a i hi with
  | case1 a i hi hnone => exact rise_ordered hi h (childless hnone)
  | case2 a i hi c hc hg ih => exact ih (h.descend hg (Nat.zero_le _))

theorem sinkBelow_ordered (n : Nat) (h : OrderedFrom cmp n a) : Ordered cmp (sinkBelow cmp n a) := by
  induction n generalizing a with
  | zero => exact h
  | succ n ih =>
      have hhollow := Hollow.of_orderedFrom_succ h
      rw [sinkBelow]
      split
      · apply ih
        apply sink_orderedFrom _ hhollow (Nat.le_refl n)
        intro hpos hlo
        have := parent_lt hpos
        omega
      · apply ih
        intro j hj hlo
        by_cases hp : parent j = n
        · exact Under.of_missing (by have := parent_lt hj; omega)
        · exact h j hj (by omega)

theorem ofList_ordered (xs : List α) : Ordered cmp (ofList xs : Heap cmp).entries := by
  apply sinkBelow_ordered
  -- Nobody from the second half on has a child.
  intro j hj hlo
  apply Under.of_missing
  simp only [List.size_toArray]
  unfold parent at hlo
  omega

theorem push_ordered {h : Heap cmp} (ho : Ordered cmp h.entries) (x : α) : Ordered cmp (h.push x).entries := by
  have hold : ∀ j, j < h.entries.size → (h.entries.push x)[j]? = h.entries[j]? := by
    intro j hj
    rw [Array.getElem?_push]
    simp [Nat.ne_of_lt hj]
  have hout : ∀ j k, h.entries.size < j → Under cmp (h.entries.push x) j k := by
    intro j k hj
    apply Under.of_missing
    simp only [Array.size_push]
    omega
  apply rise_ordered
  · constructor
    · intro j hj _ hne hp
      by_cases hlt : j < h.entries.size
      · have := parent_lt hj
        exact (ho j hj (Nat.zero_le _)).congr (hold j hlt) (hold _ (by omega))
      · exact hout j _ (by omega)
    · intro j hj hp _ _
      have := parent_lt hj
      exact hout j _ (by omega)
  · intro j hj hp
    have := parent_lt hj
    exact hout j _ (by omega)

theorem pop?_ordered {h rest : Heap cmp} {x : α} (ho : Ordered cmp h.entries) (hp : h.pop? = some (x, rest)) :
    Ordered cmp rest.entries := by
  unfold pop? at hp
  cases hb : h.entries.back? with
  | none => simp [hb] at hp
  | some last =>
      simp only [hb] at hp
      split at hp
      · rename_i hr
        cases hp
        apply resettle_ordered
        constructor
        · intro j hj _ hne hpj
          have hpop : ∀ k, k ≠ 0 → k < h.entries.size - 1 → (h.entries.pop.set 0 last)[k]? = h.entries[k]? := by
            intro k hk hlt
            simp [hk.symm, hlt]
          by_cases hlt : j < h.entries.size - 1
          · have := parent_lt hj
            exact (ho j hj (Nat.zero_le _)).congr (hpop j hne hlt) (hpop _ hpj (by omega))
          · apply Under.of_missing
            simp only [Array.size_set, Array.size_pop]
            omega
        · intro j _ _ hpos
          omega
      · cases hp
        intro j hj _
        exact Under.of_missing (by simp)

theorem peek?_greatest {h : Heap cmp} {x y : α} (ho : Ordered cmp h.entries) (hx : h.peek? = some x)
    (hy : y ∈ h.toList) : (cmp y x).isLE := by
  obtain ⟨j, hj, rfl⟩ := List.getElem_of_mem hy
  apply ho.under_top j _ _ _ hx
  simp [toList]

end Preorder

theorem peek?_eq_none {h : Heap cmp} : h.peek? = none ↔ h.toList = [] := by
  simp [peek?, toList]

theorem pop?_eq_none {h : Heap cmp} : h.pop? = none ↔ h.toList = [] := by
  constructor
  · intro hp
    unfold pop? at hp
    cases hb : h.entries.back? with
    | none => simpa [toList] using hb
    | some last =>
        simp only [hb] at hp
        split at hp <;> simp at hp
  · intro hl
    have hnil : h.entries = #[] := by simpa [toList] using hl
    simp [pop?, hnil]

end BranchBound.Heap
