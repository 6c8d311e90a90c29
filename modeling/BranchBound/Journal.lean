import BranchBound.Arena
import BranchBound.Binary64.Scientific
import BranchBound.Node
import BranchBound.Snapshot

namespace BranchBound

inductive Level
  | info
  | debug
  | trace
deriving DecidableEq, Repr

namespace Level

def verbosity : Level → Nat
  | .info => 0
  | .debug => 1
  | .trace => 2

def render : Level → String
  | .info => "INFO"
  | .debug => "DEBUG"
  | .trace => "TRACE"

end Level

structure Progress where
  activations : Nat
  waiting : Nat
  depth : Nat
  bound : Binary64
  loads : Nat
  fullReloads : Nat
  liveSnapshots : Nat

inductive Event
  | created (id : Handle) (depth : Nat) (bound : Binary64)
  | solved (active : Option Handle) (status : SolveStatus)
  | pruned (count : Nat) (cutoff : Binary64)
  | freed (id : Handle)
  | basisFreed (fork : Handle)
  | retired (id : Handle) (depth : Nat) (role : RoleName) (children : Nat)
  | startCold (fork : Handle) (children : Nat)
  | activatedPopped (id : Handle)
  | undone (changes : Nat) (id : Handle)
  | applied (changes : Nat) (id : Handle)
  | activated (id : Handle) (depth : Nat) (common : Option Nat) (lpFork : Option Handle)
  | deactivated
  | progress (p : Progress)
  | loadSkipped (id : Handle) (var : Nat)
  | shrunk (depth : Nat) (size : Extent)
  | rebuiltFromScratch
  | rebuilt (subroot : Handle) (columns rows : Nat)
  | replayed (fork : Handle) (columns rows : Nat)
  | loaded (id : Handle) (before after : Extent)
  /-- The snapshot policy was asked. -/
  | consulted (context : SnapshotQuery)

namespace Event

def renderOption {α : Type} (f : α → String) : Option α → String
  | none => "None"
  | some a => s!"Some({f a})"

def renderHandle (h : Handle) : String :=
  s!"NodeId \x7b index: {h.index}, generation: {h.generation} \x7d"

def renderBound (x : Binary64) : String := Binary64.render 6 x

def renderProgress (p : Progress) : String :=
  s!"Nodes: {p.activations} ({p.waiting} open) | Depth: {p.depth} | " ++
  s!"Bound: {renderBound p.bound} | Loads: {p.loads} ({p.fullReloads} full) | " ++
  s!"Snapshots: {p.liveSnapshots} live"

def renderStored (columns rows : Nat) : String := s!"{columns} columns, {rows} rows"

def line? : Event → Option (Level × String)
  | .created id depth bound =>
      some (.trace, s!"created node {id.render} at depth {depth} (bound {renderBound bound})")
  | .solved active status =>
      some (.trace, s!"relaxation of {renderOption renderHandle active} solved: {status.render}")
  | .pruned count cutoff =>
      some (.debug, s!"pruned {count} nodes with bound >= {renderBound cutoff}")
  | .freed id => some (.trace, s!"freed node {id.render}")
  | .basisFreed fork => some (.debug, s!"LP state of {fork.render} freed")
  | .retired id depth role children =>
      some (.debug,
        s!"node {id.render} at depth {depth} -> {role.render} ({children} children)")
  | .startCold fork children =>
      some (.debug,
        s!"LP state of {fork.render} already freed: {children} children start cold")
  | .activatedPopped id => some (.trace, s!"leaf {id.render} activated outside the frontier")
  | .undone changes id => some (.trace, s!"undo {changes} bound changes of {id.render}")
  | .applied changes id => some (.trace, s!"apply {changes} bound changes of {id.render}")
  | .activated id depth common lpFork =>
      some (.debug,
        s!"activated {id.render} at depth {depth} " ++
        s!"(common ancestor depth {renderOption toString common}, " ++
        s!"lp-fork {renderOption renderHandle lpFork})")
  | .deactivated => some (.debug, "search tree deactivated")
  | .progress p => some (.info, renderProgress p)
  | .loadSkipped id var =>
      some (.debug, s!"skip loading {id.render}: domain of variable {var} is empty")
  | .shrunk depth size =>
      some (.trace, s!"shrink relaxation to depth {depth} ({size.render})")
  | .rebuiltFromScratch => some (.trace, "rebuild relaxation from scratch")
  | .rebuilt subroot columns rows =>
      some (.trace,
        s!"rebuild relaxation from subroot {subroot.render}: {renderStored columns rows}")
  | .replayed fork columns rows =>
      some (.trace, s!"replay fork {fork.render}: {renderStored columns rows}")
  | .loaded id before after =>
      some (.debug,
        s!"loaded relaxation of {id.render}: {before.render} -> {after.render}")
  | .consulted _ => none

end Event

end BranchBound
