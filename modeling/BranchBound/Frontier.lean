import BranchBound.Arena
import BranchBound.Heap
import BranchBound.Selection

namespace BranchBound

structure Queued where
  id : Handle
  key : NodeKey
deriving DecidableEq

namespace Queued

def order (cmp : NodeOrder) (l r : Queued) : Ordering := cmp l.key r.key

end Queued

/-- The queue of waiting leaves. It holds a copy of each leaf's key. -/
structure Frontier (cmp : NodeOrder) where
  heap : Heap (Queued.order cmp)
  /-- Entries taken out one at a time so far. -/
  popped : Nat

namespace Frontier

variable {cmp : NodeOrder}

def empty : Frontier cmp := ⟨.empty, 0⟩

def toList (f : Frontier cmp) : List Queued := f.heap.toList

def size (f : Frontier cmp) : Nat := f.heap.size

def ids (f : Frontier cmp) : List Handle := f.toList.map Queued.id

def insert (f : Frontier cmp) (id : Handle) (key : NodeKey) : Frontier cmp :=
  { f with heap := f.heap.push ⟨id, key⟩ }

def peek? (f : Frontier cmp) : Option Queued := f.heap.peek?

def pop? (f : Frontier cmp) : Option (Handle × Frontier cmp) :=
  f.heap.pop?.map fun (q, heap) => (q.id, ⟨heap, f.popped + 1⟩)

def extract (f : Frontier cmp) (p : Queued → Bool) : List Handle × Frontier cmp :=
  let (gone, kept) := f.toList.partition p
  (gone.map Queued.id, { f with heap := .ofList kept })

/-- Takes `id` out. An entry on top is popped, and then no other entry is looked at. -/
def remove (f : Frontier cmp) (id : Handle) : Bool × Frontier cmp :=
  if f.peek?.map Queued.id = some id then
    match f.pop? with
    | some (_, rest) => (true, rest)
    | none => (false, f)
  else
    let (gone, rest) := f.extract (·.id = id)
    (!gone.isEmpty, { rest with popped := f.popped + gone.length })

def drain (f : Frontier cmp) (p : NodeKey → Bool) : List Handle × Frontier cmp :=
  f.extract fun q => p q.key

def clear (f : Frontier cmp) : List Handle × Frontier cmp := f.extract fun _ => true

def lowerBound (f : Frontier cmp) : Binary64 :=
  Binary64.least (f.toList.map (·.key.lowerBound))

theorem toList_insert_perm (f : Frontier cmp) (id : Handle) (key : NodeKey) :
    (f.insert id key).toList.Perm (⟨id, key⟩ :: f.toList) :=
  Heap.toList_push_perm f.heap _

theorem toList_extract_perm (f : Frontier cmp) (p : Queued → Bool) :
    (f.extract p).2.toList.Perm (f.toList.filter (!p ·)) := by
  simp only [extract, List.partition_eq_filter_filter]
  exact Heap.toList_ofList_perm _

theorem extract_fst (f : Frontier cmp) (p : Queued → Bool) :
    (f.extract p).1 = (f.toList.filter p).map Queued.id := by
  simp [extract, List.partition_eq_filter_filter]

theorem toList_pop?_perm {f rest : Frontier cmp} {id : Handle} (hp : f.pop? = some (id, rest)) :
    ∃ key, f.toList.Perm (⟨id, key⟩ :: rest.toList) := by
  obtain ⟨⟨q, heap⟩, hq, he⟩ := Option.map_eq_some_iff.1 hp
  cases he
  exact ⟨q.key, Heap.toList_pop?_perm hq⟩

end Frontier

end BranchBound
