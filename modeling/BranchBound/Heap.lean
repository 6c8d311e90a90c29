namespace BranchBound

/-- A binary heap with a greatest entry on top: the children of position `i` are at `2 * i + 1`
and `2 * i + 2`. -/
structure Heap {α : Type} (cmp : α → α → Ordering) where
  entries : Array α

namespace Heap

variable {α : Type} (cmp : α → α → Ordering)

def parent (i : Nat) : Nat := (i - 1) / 2

def rise (a : Array α) (i : Nat) (hi : i < a.size) : Array α :=
  if h : i = 0 then a
  else
    have hp : parent i < i := by unfold parent; omega
    if (cmp a[i] a[parent i]).isLE then a
    else rise (a.swap i (parent i)) (parent i) (by simp; omega)
termination_by i

/-- The greater child of `i`, the right one of two equals. -/
def greaterChild (a : Array α) (i : Nat) : Option { c : Nat // i < c ∧ c < a.size } :=
  if h : 2 * i + 2 < a.size then
    if (cmp a[2 * i + 1] a[2 * i + 2]).isLE then some ⟨2 * i + 2, by omega⟩
    else some ⟨2 * i + 1, by omega⟩
  else if h : 2 * i + 1 < a.size then some ⟨2 * i + 1, by omega⟩
  else none

def sink (a : Array α) (i : Nat) (hi : i < a.size) : Array α :=
  match greaterChild cmp a i with
  | none => a
  | some ⟨c, hc⟩ =>
      if (cmp a[i] a[c]).isLT then sink (a.swap i c) c (by simp; omega) else a
termination_by a.size - i
decreasing_by simp; omega

/-- Moves the entry at `i` down along the greater children to the bottom, and from there up to
its place. -/
def resettle (a : Array α) (i : Nat) (hi : i < a.size) : Array α :=
  match greaterChild cmp a i with
  | none => rise cmp a i hi
  | some ⟨c, hc⟩ => resettle (a.swap i c) c (by simp; omega)
termination_by a.size - i
decreasing_by simp; omega

def sinkBelow : Nat → Array α → Array α
  | 0, a => a
  | n + 1, a => sinkBelow n (if h : n < a.size then sink cmp a n h else a)

variable {cmp}

def empty : Heap cmp := ⟨#[]⟩

def ofList (xs : List α) : Heap cmp := ⟨sinkBelow cmp (xs.length / 2) xs.toArray⟩

def toList (h : Heap cmp) : List α := h.entries.toList

def size (h : Heap cmp) : Nat := h.entries.size

def peek? (h : Heap cmp) : Option α := h.entries[0]?

def push (h : Heap cmp) (x : α) : Heap cmp :=
  ⟨rise cmp (h.entries.push x) h.entries.size (by simp)⟩

def pop? (h : Heap cmp) : Option (α × Heap cmp) :=
  match h.entries.back? with
  | none => none
  | some last =>
      let rest := h.entries.pop
      if hr : 0 < rest.size then
        some (rest[0], ⟨resettle cmp (rest.set 0 last) 0 (by simpa using hr)⟩)
      else some (last, ⟨#[]⟩)

theorem rise_perm (a : Array α) (i : Nat) (hi : i < a.size) : (rise cmp a i hi).Perm a := by
  fun_induction rise cmp a i hi with
  | case1 | case2 => exact .refl _
  | case3 a i hi h hp hle ih => exact ih.trans (Array.swap_perm ..)

theorem sink_perm (a : Array α) (i : Nat) (hi : i < a.size) : (sink cmp a i hi).Perm a := by
  fun_induction sink cmp a i hi with
  | case1 | case3 => exact .refl _
  | case2 a i hi c hc hg hlt ih => exact ih.trans (Array.swap_perm ..)

theorem resettle_perm (a : Array α) (i : Nat) (hi : i < a.size) :
    (resettle cmp a i hi).Perm a := by
  fun_induction resettle cmp a i hi with
  | case1 => exact rise_perm ..
  | case2 a i hi c hc hg ih => exact ih.trans (Array.swap_perm ..)

theorem sinkBelow_perm (n : Nat) (a : Array α) : (sinkBelow cmp n a).Perm a := by
  induction n generalizing a with
  | zero => exact .refl _
  | succ n ih =>
      rw [sinkBelow]
      split
      · exact (ih _).trans (sink_perm ..)
      · exact ih a

theorem toList_ofList_perm (xs : List α) : (ofList xs : Heap cmp).toList.Perm xs := by
  simpa [ofList, toList] using (sinkBelow_perm (xs.length / 2) xs.toArray).toList

theorem toList_push_perm (h : Heap cmp) (x : α) : (h.push x).toList.Perm (x :: h.toList) := by
  have hr := (@rise_perm _ cmp (h.entries.push x) h.entries.size (by simp)).toList
  rw [Array.toList_push] at hr
  exact hr.trans (List.perm_append_singleton ..)

theorem set_zero_perm (a : Array α) (h : 0 < a.size) (x : α) :
    (a[0] :: (a.set 0 x).toList).Perm (a.toList ++ [x]) := by
  rcases a with ⟨_ | ⟨y, l⟩⟩
  · simp at h
  · simp only [List.getElem_toArray, List.getElem_cons_zero, List.set_toArray, List.set_cons_zero,
      List.cons_append]
    exact .cons y (List.perm_append_singleton ..).symm

theorem toList_pop?_perm {h rest : Heap cmp} {x : α} (hp : h.pop? = some (x, rest)) :
    h.toList.Perm (x :: rest.toList) := by
  rcases h with ⟨⟨l⟩⟩
  unfold pop? at hp
  split at hp
  · cases hp
  · rename_i last hl
    obtain ⟨ys, rfl⟩ := List.getLast?_eq_some_iff.1 ((List.back?_toArray ..).symm.trans hl)
    simp only [List.pop_toArray, List.dropLast_concat] at hp
    split at hp
    · rename_i hr
      cases hp
      exact ((resettle_perm ..).toList.cons _ |>.trans (set_zero_perm _ hr last)).symm
    · rename_i hr
      cases hp
      have : ys = [] := by simpa using hr
      simp [this, toList]

end Heap

end BranchBound
