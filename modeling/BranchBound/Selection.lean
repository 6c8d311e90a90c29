import BranchBound.Binary64.Order

namespace BranchBound

structure NodeKey where
  /-- Counts the nodes in the order of their creation. -/
  number : Nat
  depth : Nat
  lowerBound : Binary64
  estimate : Binary64
deriving DecidableEq

/-- Orders the waiting nodes; the greatest is explored first. -/
abbrev NodeOrder := NodeKey → NodeKey → Ordering

inductive SelectionRule
  | bestBound
  | depthFirst
  | bestEstimate
deriving DecidableEq, Repr

namespace SelectionRule

def lowerBoundFirst (l r : NodeKey) : Ordering :=
  Binary64.totalCompare r.lowerBound l.lowerBound

/-- The older of two nodes wins what is still a tie. -/
def order (s : SelectionRule) (l r : NodeKey) : Ordering :=
  let primary := match s with
    | .bestBound => (lowerBoundFirst l r).then (compare l.depth r.depth)
    | .depthFirst => (compare l.depth r.depth).then (lowerBoundFirst l r)
    | .bestEstimate =>
        (Binary64.totalCompare r.estimate l.estimate).then (lowerBoundFirst l r)
  primary.then (compare r.number l.number)

end SelectionRule

end BranchBound
