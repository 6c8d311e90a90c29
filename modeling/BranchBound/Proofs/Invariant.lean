import BranchBound.Proofs.Ancestry
import BranchBound.Proofs.Ends
import BranchBound.Proofs.Frontier
import BranchBound.Proofs.Undo

namespace BranchBound

variable {σ : Type} [Solver σ] {cmp : NodeOrder}

/-- Which nodes an operation has between two places while it is under way. -/
structure Stage where
  /-- The node in the active role. -/
  actor : Option Handle
  /-- The parent of the siblings. -/
  anchor : Option Handle
  /-- Nodes about to be freed, or to change their role. They are in no staging list. -/
  loose : List Handle
  /-- The node whose warm start has a share out that no node holds. -/
  due : Option Handle
  /-- The node that still counts a freed child. -/
  lost : Option Handle

namespace Node

def basis? (n : Node σ) : Option (Solver.Basis σ) := n.role.warmStart?.bind WarmStart.basis

end Node

def bases (a : Arena (Node σ)) : List (Solver.Basis σ) := a.toList.filterMap fun e => e.2.basis?

structure Family (a : Arena (Node σ)) (loose : List Handle) (lost : Option Handle) : Prop where
  counted : ∀ h n k, a.get? h = some n → n.role.openChildren? = some k →
    k = a.count (·.parent = some h) + (decide (lost = some h)).toNat
  parent : ∀ h n p m, a.get? h = some n → n.parent = some p → a.get? p = some m →
    m.role.name = .active ∨ m.role.openChildren?.isSome
  fresh : ∀ h n p m, a.get? h = some n → n.parent = some p → a.get? p = some m →
    m.role.name = .active → n.role.name = .child ∧ n.share = none
  spent : ∀ h n, a.get? h = some n → n.role.isExhausted = true → n.onPath = true ∨ h ∈ loose
  entered : ∀ h n, a.get? h = some n → n.onPath = true → n.role.name.isWaiting = true → h ∈ loose

structure Places (a : Arena (Node σ)) (loose : List Handle) (tip anchor : Option Handle)
    (staged : Staging → List Handle) : Prop where
  listed : ∀ w i h, (staged w)[i]? = some h → h ∉ loose ∧
    ∃ n, a.get? h = some n ∧ n.role.staged? = some (w, i) ∧
      n.parent = match w with | .children => tip | .siblings => anchor
  placed : ∀ h n w i, a.get? h = some n → n.role.staged? = some (w, i) → h ∉ loose →
    (staged w)[i]? = some h

structure Queue (a : Arena (Node σ)) (f : Frontier cmp) : Prop where
  nodup : f.ids.Nodup
  entry : ∀ e ∈ f.toList, ∃ n, a.get? e.id = some n ∧ n.role.name = .leaf ∧ e.key = n.key

/-- The shares in a warm start are counted, the last one keeps the basis, and a share lies in the
warm start of the nearest Fork or Subroot. -/
structure Sharing (a : Arena (Node σ)) (due : Option Handle) : Prop where
  counted : ∀ f n w, a.get? f = some n → n.role.warmStart? = some w →
    w.shares = a.count (·.share = some f) + (decide (due = some f)).toNat
  alive : ∀ f n w, a.get? f = some n → n.role.warmStart? = some w →
    (w.isAlive = true ↔ 0 < w.shares)
  holder : ∀ h n f, a.get? h = some n → n.share = some f →
    (n.role.name.isWaiting = true ∨ n.role.name = .active) ∧
      Nearest a Role.isSnapshot n.parent (some f)
  due_keeps : ∀ f, due = some f → ∃ n w, a.get? f = some n ∧ n.role.warmStart? = some w

structure Logs (a : Arena (Node σ)) (size : Nat) : Prop where
  inRange : ∀ h n c, a.get? h = some n → c ∈ n.log.changes → c.var < size
  unsealed : ∀ h n, a.get? h = some n → n.role.name = .child ∨ n.role.name = .active →
    n.log.isSealed = false

structure Books (a : Arena (Node σ)) (s : Stats) : Prop where
  nodes : s.created = s.freed + a.size
  bases : s.captured = s.basesFreed + (bases a).length

structure SameBooks (s s' : Stats) : Prop where
  created : s'.created = s.created
  freed : s'.freed = s.freed
  captured : s'.captured = s.captured
  basesFreed : s'.basesFreed = s.basesFreed

theorem SameBooks.refl (s : Stats) : SameBooks s s := ⟨rfl, rfl, rfl, rfl⟩

theorem SameBooks.trans {s s' s'' : Stats} (h : SameBooks s s') (h' : SameBooks s' s'') : SameBooks s s'' :=
  ⟨h'.created.trans h.created, h'.freed.trans h.freed, h'.captured.trans h.captured,
    h'.basesFreed.trans h.basesFreed⟩

theorem Books.congr {a : Arena (Node σ)} {s s' : Stats} (h : Books a s) (hs : SameBooks s s') : Books a s' where
  nodes := by rw [hs.created, hs.freed, h.nodes]
  bases := by rw [hs.captured, hs.basesFreed, h.bases]

def Acting (a : Arena (Node σ)) (actor : Option Handle) : Prop :=
  ∀ h, actor = some h ↔ ∃ n, a.get? h = some n ∧ n.role.name = .active

def logOf (a : Arena (Node σ)) (id : Handle) : List BoundChange :=
  ((a.get? id).map fun n => n.log.changes).getD []

def changesAlong (a : Arena (Node σ)) (path : List Handle) : List BoundChange :=
  path.flatMap (logOf a)

/-- The bounds are those at the start with the path's changes made in order, and each change has
noted the bound that it replaced. -/
structure InForce (start : Array Interval) (a : Arena (Node σ)) (path : List Handle)
    (vars : Array Interval) : Prop where
  noted : Noted start (changesAlong a path)
  vars_eq : vars = written start (changesAlong a path)

abbrev Charge (σ : Type) [Solver σ] := Relaxation σ → List (Solver.Basis σ) → Prop

/-- What is true of the relaxation and the bases stays true as long as bases that are no longer kept go back. -/
structure Redemption (K : Charge σ) : Prop where
  perm : ∀ r l l', l.Perm l' → K r l → K r l'
  freeBasis : ∀ r l b, K r (b :: l) → K { r with solver := Solver.freeBasis b r.solver } l

structure Custody (K K' : Charge σ) : Prop extends Redemption K where
  getBasis : ∀ r l, K r l →
    Ends (Relaxation.onSolver Solver.getBasis) r (fun b r' => K r' (b :: l)) fun _ r' => K' r' l

structure Rebuilding (K K' : Charge σ) : Prop extends Custody K K' where
  extend : ∀ r l cs rs, K r l →
    Ends (Relaxation.extend cs rs) r (fun _ r' => K r' l) fun _ r' => K' r' l
  shrink : ∀ r l size, K r l →
    Ends (Relaxation.shrink size) r (fun _ r' => K r' l) fun _ r' => K' r' l
  clear : ∀ r l, K r l → Ends Relaxation.clear r (fun _ r' => K r' l) fun _ r' => K' r' l
  setBasis : ∀ r l b, b ∈ l → K r l →
    Ends (Relaxation.onSolver (Solver.setBasis b)) r (fun _ r' => K r' l) fun _ r' => K' r' l

structure Upkeep (K K' : Charge σ) : Prop extends Rebuilding K K' where
  addColumn : ∀ r l c, K r l →
    Ends (Relaxation.addColumn c) r (fun _ r' => K r' l) fun _ r' => K' r' l
  addRow : ∀ r l c, K r l → Ends (Relaxation.addRow c) r (fun _ r' => K r' l) fun _ r' => K' r' l
  setBounds : ∀ r l v lower upper, K r l →
    Ends (Relaxation.onSolver (Solver.setBounds v lower upper)) r (fun _ r' => K r' l)
      fun _ r' => K' r' l
  solve : ∀ r l, K r l →
    Ends (Relaxation.onSolver Solver.solve) r (fun _ r' => K r' l) fun _ r' => K' r' l

theorem Upkeep.nothing : Upkeep (σ := σ) (fun _ _ => True) (fun _ _ => True) where
  perm _ _ _ _ _ := trivial
  getBasis _ _ _ := ends_trivial _ _
  freeBasis _ _ _ _ := trivial
  extend _ _ _ _ _ := ends_trivial _ _
  shrink _ _ _ _ := ends_trivial _ _
  clear _ _ _ := ends_trivial _ _
  setBasis _ _ _ _ _ := ends_trivial _ _
  addColumn _ _ _ _ := ends_trivial _ _
  addRow _ _ _ _ := ends_trivial _ _
  setBounds _ _ _ _ _ _ := ends_trivial _ _
  solve _ _ _ := ends_trivial _ _

namespace Tree

variable {K K' : Charge σ} {start : Array Interval} {s : Stage}
  {t : Tree σ cmp}

def tip (t : Tree σ cmp) : Option Handle := before t.path t.path.length

def above (t : Tree σ cmp) : Option Handle := before t.path (t.path.length - 1)

/-- What holds of a tree also while an operation is under way. -/
structure Sound (K : Charge σ) (s : Stage) (t : Tree σ cmp) :
    Prop where
  wellFormed : t.nodes.WellFormed
  forest : Forest t.nodes t.root
  walk : Walk t.nodes t.path
  family : Family t.nodes s.loose s.lost
  places : Places t.nodes s.loose t.tip s.anchor t.staged
  queue : Queue t.nodes t.frontier
  sharing : Sharing t.nodes s.due
  logs : Logs t.nodes t.domains.size
  books : Books t.nodes t.stats
  acting : Acting t.nodes s.actor
  custody : K t.lp (bases t.nodes)

def rest (t : Tree σ cmp) : Stage := ⟨t.active, t.above, [], none, none⟩

/-- What holds of a tree between two operations. -/
structure Resting (K : Charge σ) (start : Array Interval)
    (t : Tree σ cmp) : Prop extends Sound K t.rest t where
  active_eq : t.active = t.tip
  sized : t.sizes.length = t.path.length
  lpFork : Nearest t.nodes Role.isSnapshot t.above t.lpFork
  subroot : Nearest t.nodes Role.isSubroot t.above t.subroot
  inForce : InForce start t.nodes t.path t.domains.vars

theorem Resting.shares_eq {f : Handle} {n : Node σ} {w : WarmStart (Solver.Basis σ)} (h : Resting K start t)
    (hn : t.nodes.get? f = some n) (hw : n.role.warmStart? = some w) :
    w.shares = t.nodes.count (·.share = some f) := by
  simpa [rest] using h.sharing.counted f n w hn hw

/-- What a step leaves as it is that only moves, frees and accounts for nodes off the path: the
active node's work, and every waiting node but those in `gone`. -/
structure Kept (gone : List Handle) (t t' : Tree σ cmp) : Prop where
  nodes : Carried Kin t.nodes t'.nodes
  waiting : ∀ h n, t.nodes.get? h = some n → n.role.name.isWaiting = true → h ∉ gone →
    ∃ m, t'.nodes.get? h = some m ∧ m.role.name.isWaiting = true
  path : t'.path = t.path
  sizes : t'.sizes = t.sizes
  active : t'.active = t.active
  lpFork : t'.lpFork = t.lpFork
  subroot : t'.subroot = t.subroot
  correctDepth : t'.correctDepth = t.correctDepth
  focus : t'.focus = t.focus
  domains : t'.domains = t.domains
  columns : t'.lp.columns = t.lp.columns
  rows : t'.lp.rows = t.lp.rows

theorem Kept.refl (t : Tree σ cmp) : Kept [] t t where
  nodes := .refl Kin.refl _
  waiting _ n hn hw _ := ⟨n, hn, hw⟩
  path := rfl
  sizes := rfl
  active := rfl
  lpFork := rfl
  subroot := rfl
  correctDepth := rfl
  focus := rfl
  domains := rfl
  columns := rfl
  rows := rfl

theorem Kept.trans {gone gone' : List Handle} {t t' t'' : Tree σ cmp} (h : Kept gone t t')
    (h' : Kept gone' t' t'') : Kept (gone ++ gone') t t'' where
  nodes := h.nodes.kin_trans h'.nodes
  waiting k n hn hw hk := by
    rw [List.mem_append, not_or] at hk
    obtain ⟨m, hm, hw'⟩ := h.waiting k n hn hw hk.1
    exact h'.waiting k m hm hw' hk.2
  path := h'.path.trans h.path
  sizes := h'.sizes.trans h.sizes
  active := h'.active.trans h.active
  lpFork := h'.lpFork.trans h.lpFork
  subroot := h'.subroot.trans h.subroot
  correctDepth := h'.correctDepth.trans h.correctDepth
  focus := h'.focus.trans h.focus
  domains := h'.domains.trans h.domains
  columns := h'.columns.trans h.columns
  rows := h'.rows.trans h.rows

def Refused (t t' : Tree σ cmp) (e : TreeError) : Prop :=
  t' = t ∧ ((∃ id, e = .unknownNode id) ∨ ∃ m, e = .misuse m)

inductive Rejects (t : Tree σ cmp) (id : Handle) (wrong : Node σ → Option Misuse) : TreeError → Prop
  | unknown : t.nodes.get? id = none → Rejects t id wrong (.unknownNode id)
  | misuse {n : Node σ} {m : Misuse} : t.nodes.get? id = some n → wrong n = some m → Rejects t id wrong (.misuse m)

theorem Rejects.refused {t t' : Tree σ cmp} {id : Handle} {wrong : Node σ → Option Misuse} {e : TreeError}
    (h : t' = t ∧ Rejects t id wrong e) : Refused t t' e := by
  obtain ⟨rfl, h⟩ := h
  cases h with
  | unknown => exact ⟨rfl, .inl ⟨id, rfl⟩⟩
  | misuse => exact ⟨rfl, .inr ⟨_, rfl⟩⟩

def Fails (K' : Charge σ) (start : Array Interval) (t : Tree σ cmp) (e : TreeError) (t' : Tree σ cmp) : Prop :=
  Refused t t' e ∨ (∃ e', e = .solver e') ∧ Resting K' start t'

end Tree

end BranchBound
