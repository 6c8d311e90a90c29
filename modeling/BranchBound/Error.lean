import BranchBound.Journal

namespace BranchBound

inductive LoadedWork
  | addColumn
  | addRow
  | solve
deriving DecidableEq, Repr

namespace LoadedWork

def render : LoadedWork → String
  | .addColumn => "add a column"
  | .addRow => "add a row"
  | .solve => "solve the relaxation"

end LoadedWork

inductive Misuse
  | boundCounts (lower upper : Nat)
  | createAway
  | noVariable (var size : Nat)
  | changeOn (role : RoleName) (id : Handle)
  | constrainOn (role : RoleName) (id : Handle)
  | notLoaded (work : LoadedWork)
  | nothingToLoad
  | activateRole (role : RoleName)
  | freeOnPath (id : Handle)
  | freeParent (id : Handle) (openChildren : Option Nat)
  | freeActive (id : Handle)
deriving DecidableEq, Repr

namespace Misuse

def message : Misuse → String
  | .boundCounts lower upper => s!"{lower} lower bounds but {upper} upper bounds"
  | .createAway => "children can only be created below the active node"
  | .noVariable var size => s!"variable {var} out of range ({size} variables)"
  | .changeOn role id => s!"bound change on {role.render} node {id.render}"
  | .constrainOn role id => s!"local constraint on {role.render} node {id.render}"
  | .notLoaded work => s!"cannot {work.render} before the active node's relaxation is loaded"
  | .nothingToLoad => "no active node to load"
  | .activateRole role => s!"cannot activate a {role.render} node"
  | .freeOnPath id => s!"node {id.render} is on the active path"
  | .freeParent id openChildren =>
      s!"node {id.render} still has {Event.renderOption toString openChildren} children"
  | .freeActive id => s!"node {id.render} is active"

end Misuse

/-- A state that the operations never lead to, found by a check on the way. -/
inductive Fault
  | sealedLog (e : Sealed)
  | share (e : ShareError)
  | freedShared (id : Handle)
  | noChildLeft (parent id : Handle)
  | noWarmStart (id : Handle)
  | misplaced (id : Handle) (pos : Nat) (staging : Staging)
  | lostRole (id : Handle)
  | forkWithoutWarmStart (id : Handle)
  | notStaged (id : Handle)
  | noSnapshot (id : Handle)
  | outOfSync (actual expected : Extent)
  | replayStuck (depth : Nat)
deriving DecidableEq, Repr

namespace Fault

def message : Fault → String
  | .sealedLog e => s!"bound change on variable {e.var} added to a sealed log"
  | .share e => e.message
  | .freedShared id => s!"node {id.render} freed while its LP state was still shared"
  | .noChildLeft parent id =>
      s!"parent {parent.render} of {id.render} has no child left to release"
  | .noWarmStart id => s!"node {id.render} holds no LP state"
  | .misplaced id pos staging =>
      s!"node {id.render} is not at position {pos} of the {staging.render} array"
  | .lostRole id => s!"staged node {id.render} lost its role"
  | .forkWithoutWarmStart id => s!"lp-fork {id.render} holds no LP state"
  | .notStaged id => s!"node {id.render} is not staged"
  | .noSnapshot id => s!"subroot {id.render} holds no snapshot"
  | .outOfSync actual expected =>
      s!"relaxation holds {actual.render} after loading, expected {expected.render}"
  | .replayStuck depth => s!"replay does not get past depth {depth}"

end Fault

inductive TreeError
  | allocation
  | misuse (m : Misuse)
  | fault (f : Fault)
  | unknownNode (id : Handle)
  | solver (e : SolverError)
  | outOfRange (e : OutOfRange)
deriving DecidableEq, Repr

namespace TreeError

def message : TreeError → String
  | .allocation =>
      "Allocation failed: memory allocation failed because the computed capacity exceeded " ++
      "the collection's maximum"
  | .misuse m => "Invalid operation: " ++ m.message
  | .fault f => "Invalid operation: " ++ f.message
  | .unknownNode id => "Unknown node " ++ id.render
  | .solver e => "Relaxation solver failed: " ++ e.text
  | .outOfRange e => s!"index out of bounds: the len is {e.size} but the index is {e.index}"

end TreeError

end BranchBound
