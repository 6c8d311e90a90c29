import BranchBound.Proofs.Arena
import BranchBound.Solver.Consulted
import BranchBound.Tree.State

namespace BranchBound

namespace Arena

variable {α β : Type} {f : α → β} {a b : Arena α} {h : Handle} {x y : α}

def map (f : α → β) (a : Arena α) : Arena β where
  slots := a.slots.map fun s => ⟨s.generation, s.tenant.map f⟩
  vacant := a.vacant
  size := a.size

theorem get?_map (f : α → β) (a : Arena α) (h : Handle) : (a.map f).get? h = (a.get? h).map f := by
  unfold get? map
  rw [Array.getElem?_map]
  cases a.slots[h.index]? with
  | none => rfl
  | some s => by_cases hg : s.generation = h.generation <;> simp [hg]

theorem set_map (f : α → β) (a : Arena α) (h : Handle) (x : α) : (a.set h x).map f = (a.map f).set h (f x) := by
  have hc : (a.map f).contains h = a.contains h := by
    unfold contains
    rw [get?_map, Option.isSome_map]
  unfold set
  rw [hc]
  split
  · simp [map]
  · rfl

theorem insert_map (f : α → β) (a : Arena α) (x : α) :
    (a.map f).insert (f x) = ((a.insert x).1, (a.insert x).2.map f) := by
  unfold insert
  cases hv : a.vacant with
  | nil => simp [map, hv]
  | cons i rest => simp [map, hv, Function.comp_def]

theorem erase_map (f : α → β) (a : Arena α) (h : Handle) :
    (a.map f).erase h = (a.erase h).map fun e => (f e.1, e.2.map f) := by
  unfold erase
  rw [get?_map, Option.map_map, Option.map_map]
  cases a.get? h with
  | none => rfl
  | some x => simp [map]

theorem toList_map (f : α → β) (a : Arena α) : (a.map f).toList = a.toList.map fun e => (e.1, f e.2) := by
  unfold toList map
  rw [Array.toList_map, List.zipIdx_map, List.filterMap_map, List.map_filterMap]
  refine List.filterMap_congr fun e _ => ?_
  cases h : e.1.tenant <;> simp [h]

theorem clear_map (f : α → β) (a : Arena α) : (a.map f).clear = a.clear.map f := by
  unfold clear
  rw [toList_map, List.map_map]
  simp only [map, Array.map_map, Function.comp_def, mk.injEq, and_true]
  congr 1
  funext s
  cases h : s.tenant <;> simp [h]

end Arena

def RoleName.plain : RoleName → RoleName
  | .subroot => .fork
  | r => r

def Misuse.plain : Misuse → Misuse
  | .changeOn role id => .changeOn role.plain id
  | .constrainOn role id => .constrainOn role.plain id
  | .activateRole role => .activateRole role.plain
  | m => m

def TreeError.plain : TreeError → TreeError
  | .misuse m => .misuse m.plain
  | e => e

/-- The statistics except those of reloads and replays. -/
def Stats.plain (s : Stats) : Stats := { s with fullReloads := 0, replayedColumns := 0, replayedRows := 0 }

/-- A role, without the columns and rows that it keeps. -/
inductive RoleOutline
  | child (pos : Nat)
  | sibling (pos : Nat)
  | leaf
  | active
  | deadend
  | junction (openChildren : Nat)
  /-- A Fork or a Subroot. -/
  | snapshot (openChildren : Nat) (warmStart : WarmStart Nat)

structure NodeOutline where
  number : Nat
  parent : Option Handle
  depth : Nat
  lowerBound : Binary64
  estimate : Binary64
  constraints : List Nat
  log : ChangeLog
  share : Option Handle
  onPath : Bool
  role : RoleOutline

variable {σ : Type} [Solver σ] {cmp : NodeOrder}

def WarmStart.outline (w : WarmStart (Solver.Basis (Consulted σ))) : WarmStart Nat :=
  ⟨w.basis.map Prod.fst, w.shares⟩

namespace Role

def outline : Role (Consulted σ) → RoleOutline
  | .child pos => .child pos
  | .sibling pos => .sibling pos
  | .leaf => .leaf
  | .active => .active
  | .deadend => .deadend
  | .junction n => .junction n
  | .fork s | .subroot s => .snapshot s.openChildren s.warmStart.outline

variable {r s : Role (Consulted σ)} {w v : WarmStart (Solver.Basis (Consulted σ))}

theorem outline_cases (h : r.outline = s.outline) :
    r = s ∨ ∃ a b, (r = .fork a ∨ r = .subroot a) ∧ (s = .fork b ∨ s = .subroot b) := by
  cases r <;> cases s <;> simp_all [outline]

theorem name_plain_of_outline (h : r.outline = s.outline) : r.name.plain = s.name.plain := by
  cases r <;> cases s <;> simp_all [outline, name, RoleName.plain]

theorem name_eq_leaf_of_outline (h : r.outline = s.outline) : r.name = .leaf ↔ s.name = .leaf := by
  cases r <;> cases s <;> simp_all [outline, name]

theorem isWaiting_of_outline (h : r.outline = s.outline) : r.name.isWaiting = s.name.isWaiting := by
  cases r <;> cases s <;> simp_all [outline, name, RoleName.isWaiting]

theorem name_eq_of_outline (h : r.outline = s.outline) (hw : s.name.isWaiting = true) : r.name = s.name := by
  cases r <;> cases s <;> simp_all [outline, name, RoleName.isWaiting]

theorem staged?_of_outline (h : r.outline = s.outline) : r.staged? = s.staged? := by
  cases r <;> cases s <;> simp_all [outline, staged?]

theorem openChildren?_of_outline (h : r.outline = s.outline) : r.openChildren? = s.openChildren? := by
  cases r <;> cases s <;> simp_all [outline, openChildren?]

theorem snapshot?_of_outline (h : r.outline = s.outline) : r.snapshot?.isSome = s.snapshot?.isSome := by
  cases r <;> cases s <;> simp_all [outline, snapshot?]

theorem isExhausted_of_outline (h : r.outline = s.outline) : r.isExhausted = s.isExhausted := by
  cases r <;> cases s <;> simp_all [outline, isExhausted, openChildren?]

theorem warmStart?_of_outline (h : r.outline = s.outline) :
    r.warmStart?.map WarmStart.outline = s.warmStart?.map WarmStart.outline := by
  cases r <;> cases s <;> simp_all [outline, warmStart?, snapshot?]

theorem basis_of_outline (h : r.outline = s.outline) :
    (r.warmStart?.bind WarmStart.basis).map Prod.fst = (s.warmStart?.bind WarmStart.basis).map Prod.fst := by
  cases r <;> cases s <;> simp_all [outline, warmStart?, snapshot?, WarmStart.outline]

theorem outline_withOpenChildren (h : r.outline = s.outline) (k : Nat) :
    (r.withOpenChildren k).outline = (s.withOpenChildren k).outline := by
  cases r <;> cases s <;> simp_all [outline, withOpenChildren]

theorem outline_withWarmStart (h : r.outline = s.outline) (hw : w.outline = v.outline) :
    (r.withWarmStart w).outline = (s.withWarmStart v).outline := by
  cases r <;> cases s <;> simp_all [outline, withWarmStart]

end Role

def Node.outline (n : Node (Consulted σ)) : NodeOutline :=
  ⟨n.number, n.parent, n.depth, n.lowerBound, n.estimate, n.constraints, n.log, n.share, n.onPath, n.role.outline⟩

namespace Tree

/-- All agrees but for what the snapshot policies may decide: which nodes are Subroots, what Forks and Subroots keep,
and from where and how the relaxation was rebuilt. -/
structure Twin (t u : Tree (Consulted σ) cmp) : Prop where
  nodes : t.nodes.map Node.outline = u.nodes.map Node.outline
  root : t.root = u.root
  frontier : t.frontier = u.frontier
  path : t.path = u.path
  sized : t.sizes.length = u.sizes.length
  children : t.children = u.children
  siblings : t.siblings = u.siblings
  active : t.active = u.active
  lpFork : t.lpFork = u.lpFork
  focus : t.focus = u.focus
  domains : t.domains = u.domains
  columns : t.lp.columns = u.lp.columns
  rows : t.lp.rows = u.lp.rows
  asked : t.lp.solver.asked = u.lp.solver.asked
  settings : t.settings = u.settings
  nextNumber : t.nextNumber = u.nextNumber
  stats : t.stats.plain = u.stats.plain

end Tree

end BranchBound
