import BranchBound.Tree.State

namespace BranchBound.Tree

variable {σ : Type} [Solver σ] {cmp : NodeOrder}

def better (t : Tree σ cmp) : Option Handle → Option Handle → Except TreeError (Option Handle)
  | some x, some y => do
      let kx := (← t.node x).key
      let ky := (← t.node y).key
      return some (if (cmp ky kx).isGT then y else x)
  | some x, none => .ok (some x)
  | none, y => .ok y

def bestOf (t : Tree σ cmp) (ids : List Handle) : Except TreeError (Option Handle) :=
  ids.foldlM (fun best id => t.better best (some id)) none

def bestChild (t : Tree σ cmp) : Except TreeError (Option Handle) := t.bestOf t.children

def bestSibling (t : Tree σ cmp) : Except TreeError (Option Handle) := t.bestOf t.siblings

def bestLeaf (t : Tree σ cmp) : Option Handle := t.frontier.peek?.map Queued.id

/-- The best waiting node; a leaf wins over a staged node with an equal key. -/
def bestNode (t : Tree σ cmp) : Except TreeError (Option Handle) := do
  t.better t.bestLeaf (← t.better (← t.bestChild) (← t.bestSibling))

/-- Takes the best leaf out of the frontier. It stays a leaf of the tree. -/
def pop : TreeM σ cmp (Option Handle) :=
  modifyGet fun t =>
    match t.frontier.pop? with
    | some (id, rest) => (some id, { t with frontier := rest })
    | none => (none, t)

end BranchBound.Tree
