namespace BranchBound

structure Handle where
  index : Nat
  generation : Nat
deriving DecidableEq, Repr

namespace Handle

def render (h : Handle) : String := s!"#{h.index}v{h.generation}"

def le (a b : Handle) : Bool :=
  a.index < b.index || (a.index == b.index && a.generation ≤ b.generation)

end Handle

structure Slot (α : Type) where
  generation : Nat
  tenant : Option α

/-- Values in numbered slots. A slot is used again after its tenant left, under a new generation,
so a handle never resolves to a later tenant. -/
structure Arena (α : Type) where
  slots : Array (Slot α)
  /-- Vacant slots; the next tenant takes the one vacated last. -/
  vacant : List Nat
  size : Nat

namespace Arena

variable {α : Type}

def empty : Arena α := ⟨#[], [], 0⟩

/-- The most bytes that one block of memory can have: a multiple of eight below half the range of
64-bit addresses. -/
def blockLimit : Nat := 0x7ffffffffffffff8

def withCapacity? (slotBytes capacity : Nat) : Option (Arena α) :=
  if slotBytes * capacity ≤ blockLimit then some empty else none

def get? (a : Arena α) (h : Handle) : Option α :=
  match a.slots[h.index]? with
  | some s => if s.generation = h.generation then s.tenant else none
  | none => none

def contains (a : Arena α) (h : Handle) : Bool := (a.get? h).isSome

def insert (a : Arena α) (x : α) : Handle × Arena α :=
  match a.vacant with
  | i :: rest =>
      let g := (a.slots[i]?.map Slot.generation).getD 0
      (⟨i, g⟩, ⟨a.slots.setIfInBounds i ⟨g, some x⟩, rest, a.size + 1⟩)
  | [] => (⟨a.slots.size, 0⟩, ⟨a.slots.push ⟨0, some x⟩, [], a.size + 1⟩)

def set (a : Arena α) (h : Handle) (x : α) : Arena α :=
  if a.contains h then { a with slots := a.slots.setIfInBounds h.index ⟨h.generation, some x⟩ }
  else a

def erase (a : Arena α) (h : Handle) : Option (α × Arena α) :=
  (a.get? h).map fun x =>
    (x, ⟨a.slots.setIfInBounds h.index ⟨h.generation + 1, none⟩, h.index :: a.vacant, a.size - 1⟩)

def toList (a : Arena α) : List (Handle × α) :=
  a.slots.toList.zipIdx.filterMap fun (s, i) => s.tenant.map fun x => (⟨i, s.generation⟩, x)

def clear (a : Arena α) : Arena α :=
  let evict (s : Slot α) : Slot α := if s.tenant.isSome then ⟨s.generation + 1, none⟩ else s
  let indices := a.toList.map fun e => e.1.index
  ⟨a.slots.map evict, indices.reverse ++ a.vacant, 0⟩

theorem get?_eq_some_iff {a : Arena α} {h : Handle} {x : α} :
    a.get? h = some x ↔ a.slots[h.index]? = some ⟨h.generation, some x⟩ := by
  unfold get?
  cases hs : a.slots[h.index]? with
  | none => simp
  | some s =>
      rcases s with ⟨g, t⟩
      by_cases hg : g = h.generation <;> simp [hg]

end Arena

end BranchBound
