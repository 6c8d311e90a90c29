import BranchBound.Proofs.Sweeping
import BranchBound.Tree.Choice
import BranchBound.Tree.Loading
import BranchBound.Tree.Solving

namespace BranchBound

variable {σ α : Type} [Solver σ] {cmp : NodeOrder}

def RoleName.isProcessed : RoleName → Bool
  | .child | .sibling | .leaf | .active => false
  | _ => true

/-- What happens to the shares that nodes hold. -/
inductive Dealing
  | keeps
  | returns
  | deals
deriving DecidableEq

def Dealing.Allows : Dealing → Option Handle → Option Handle → Prop
  | .keeps, s, s' => s' = s
  | .returns, s, s' => s' = s ∨ s' = none
  | .deals, _, _ => True

namespace Dealing.Allows

variable {q : Dealing} {s s' s'' : Option Handle}

theorem refl (q : Dealing) (s : Option Handle) : q.Allows s s := by
  cases q with
  | keeps => rfl
  | returns => exact .inl rfl
  | deals => trivial

theorem trans (h : q.Allows s s') (h' : q.Allows s' s'') : q.Allows s s'' := by
  cases q with
  | keeps => exact Eq.trans h' h
  | returns =>
      obtain rfl | rfl := h'
      · exact h
      · exact .inr rfl
  | deals => trivial

theorem none (hq : q ≠ .keeps) (s : Option Handle) : q.Allows s .none := by
  cases q with
  | keeps => exact absurd rfl hq
  | returns => exact .inr rfl
  | deals => trivial

end Dealing.Allows

/-- Same place in the tree, same bound and, unless the handle is `x`, a role of the same name that keeps the same part
of the relaxation. A node that has had its turn keeps its constraints and bound changes. -/
structure Stands (x : Option Handle) (q : Dealing) (h : Handle) (n m : Node σ) : Prop where
  number : m.number = n.number
  parent : m.parent = n.parent
  depth : m.depth = n.depth
  lowerBound : m.lowerBound = n.lowerBound
  name : x ≠ some h → m.role.name = n.role.name
  layer : x ≠ some h → m.role.layer = n.role.layer
  settled : x ≠ some h → n.role.name.isProcessed = true →
    m.constraints = n.constraints ∧ SameWrites m.log.changes n.log.changes
  share : q.Allows n.share m.share

variable {x : Option Handle} {q : Dealing} {h : Handle} {n m o : Node σ}

theorem Stands.refl (x : Option Handle) (q : Dealing) (h : Handle) (n : Node σ) : Stands x q h n n :=
  ⟨rfl, rfl, rfl, rfl, fun _ => rfl, fun _ => rfl, fun _ _ => ⟨rfl, rfl⟩, .refl q n.share⟩

theorem Wanes.stands (hw : Wanes n m) : Stands x q h n m where
  number := by rw [hw.body]
  parent := hw.parent
  depth := by rw [hw.body]
  lowerBound := by rw [hw.body]
  name _ := hw.name
  layer _ := hw.layer
  settled _ _ := by
    rw [hw.body]
    exact ⟨rfl, rfl⟩
  share := by
    rw [hw.share]
    exact .refl q n.share

theorem Stands.trans (hnm : Stands x q h n m) (hmo : Stands x q h m o) : Stands x q h n o where
  number := hmo.number.trans hnm.number
  parent := hmo.parent.trans hnm.parent
  depth := hmo.depth.trans hnm.depth
  lowerBound := hmo.lowerBound.trans hnm.lowerBound
  name hx := (hmo.name hx).trans (hnm.name hx)
  layer hx := (hmo.layer hx).trans (hnm.layer hx)
  settled hx hr := by
    have hm := hnm.settled hx hr
    have ho := hmo.settled hx (hnm.name hx ▸ hr)
    exact ⟨ho.1.trans hm.1, ho.2.trans hm.2⟩
  share := hnm.share.trans hmo.share

namespace Tree

@[simp] def tally (t : Tree σ cmp) : Nat × Nat × Nat := (t.nextNumber, t.stats.created, t.stats.activations)

@[simp] def rules (t : Tree σ cmp) : SnapshotPolicy × Settings := (t.policy, t.settings)

/-- No node came, none moved, and the frontier, the policy and the settings are as they were. Only `x` may have taken
on another role. -/
structure Calm (x : Option Handle) (q : Dealing) (t u : Tree σ cmp) : Prop where
  nodes : ∀ h m, u.nodes.get? h = some m → ∃ n, t.nodes.get? h = some n ∧ Stands x q h n m
  frontier : u.frontier = t.frontier
  tally : u.tally = t.tally
  rules : u.rules = t.rules
  cold : q ≠ .deals → u.stats.coldChildren = t.stats.coldChildren

variable {target : Option Handle} {t u : Tree σ cmp} {id : Handle}

theorem Calm.of_eq (hn : u.nodes = t.nodes) (hf : u.frontier = t.frontier) (hc : u.tally = t.tally)
    (hr : u.rules = t.rules) (hs : q ≠ .deals → u.stats.coldChildren = t.stats.coldChildren) : Calm x q t u :=
  ⟨fun h m hm => ⟨m, hn ▸ hm, .refl x q h m⟩, hf, hc, hr, hs⟩

theorem Sweeps.calm (h : Sweeps t u) : Calm x q t u where
  nodes k m hm := (h.nodes k m hm).imp fun _ hn => ⟨hn.1, hn.2.stands⟩
  frontier := h.frontier
  tally := by
    unfold Tree.tally
    rw [h.nextNumber, h.stats]
  rules := by
    unfold Tree.rules
    rw [h.policy, h.settings]
  cold _ := by rw [h.stats]

theorem along_of_sweeps {m : TreeM σ cmp α} (h : Along Sweeps m) : Along (Calm x q) m :=
  h.mono fun _ _ => Sweeps.calm

theorem Calm.set (hn : t.nodes.get? id = some n) (hm : Stands x q id n m) :
    Calm x q t { t with nodes := t.nodes.set id m } := by
  refine ⟨fun h k hk => ?_, rfl, rfl, rfl, fun _ => rfl⟩
  rw [Arena.get?_set] at hk
  split at hk
  · rename_i hid
    subst hid
    rw [hn] at hk
    cases hk
    exact ⟨n, hn, hm⟩
  · exact ⟨k, hk, .refl x q h k⟩

instance : IsPreorder (Tree σ cmp) (Calm x q) where
  refl _ := .of_eq rfl rfl rfl rfl fun _ => rfl
  trans t u v h h' := by
    refine ⟨fun k m hm => ?_, h'.frontier.trans h.frontier, h'.tally.trans h.tally, h'.rules.trans h.rules,
      fun hq => (h'.cold hq).trans (h.cold hq)⟩
    obtain ⟨n, hn, hnm⟩ := h'.nodes k m hm
    obtain ⟨o, ho, hon⟩ := h.nodes k n hn
    exact ⟨o, ho, hon.trans hnm⟩

theorem Calm.weaken (h : Calm none q t u) : Calm x q t u := by
  refine ⟨fun k m hm => ?_, h.frontier, h.tally, h.rules, h.cold⟩
  obtain ⟨n, hn, hs⟩ := h.nodes k m hm
  have hk : none ≠ some k := by simp
  exact ⟨n, hn, { hs with name := fun _ => hs.name hk, layer := fun _ => hs.layer hk, settled := fun _ => hs.settled hk }⟩

theorem along_modify (f : Tree σ cmp → Tree σ cmp)
    (h : ∀ t, (f t).nodes = t.nodes ∧ (f t).frontier = t.frontier ∧ (f t).tally = t.tally ∧
      (f t).rules = t.rules ∧ (f t).stats.coldChildren = t.stats.coldChildren) :
    Along (Calm x q) (modify f : TreeM σ cmp PUnit) :=
  fun t => .of_eq (h t).1 (h t).2.1 (h t).2.2.1 (h t).2.2.2.1 fun _ => (h t).2.2.2.2

theorem along_record (e : Event) : Along (Calm x q) (record e : TreeM σ cmp Unit) := along_of_sweeps (sweeps_record e)

theorem along_count {f : Stats → Stats} (h : ∀ s, (f s).created = s.created ∧ (f s).activations = s.activations ∧
      (q ≠ .deals → (f s).coldChildren = s.coldChildren)) :
    Along (Calm x q) (count f : TreeM σ cmp Unit) := by
  intro t
  have htally : tally { t with stats := f t.stats } = t.tally := by simp [tally, h]
  exact Calm.of_eq rfl rfl htally rfl (h t.stats).2.2

theorem along_onLp (act : RelaxationM σ α) : Along (Calm x q) (onLp act : TreeM σ cmp α) := fun t =>
  ends_onLp.2 ((ends_trivial act t.lp).mono (fun _ _ _ => .of_eq rfl rfl rfl rfl fun _ => rfl)
    fun _ _ _ => .of_eq rfl rfl rfl rfl fun _ => rfl)

theorem along_onSolver (act : SolverM σ α) : Along (Calm x q) (onSolver act : TreeM σ cmp α) := along_onLp _

theorem along_returnBasis (b : Solver.Basis σ) : Along (Calm x q) (returnBasis b : TreeM σ cmp Unit) :=
  along_onSolver _

theorem along_updateNode {f : Node σ → Node σ} (h : ∀ n, Stands x q id n (f n)) :
    Along (Calm x q) (updateNode id f : TreeM σ cmp Unit) :=
  along_node fun _ n hn => .set hn (h n)

section Sharing

theorem along_releaseShare (fork : Handle) : Along (Calm x q) (releaseShare fork : TreeM σ cmp Unit) :=
  along_of_sweeps (sweeps_releaseShare fork)

theorem along_surrenderShare (hq : q ≠ .keeps) (id : Handle) :
    Along (Calm x q) (surrenderShare id : TreeM σ cmp Unit) := by
  refine along_node fun t n hn => ?_
  have hset : Calm x q t { t with nodes := t.nodes.set id { n with share := none } } :=
    .set hn ⟨rfl, rfl, rfl, rfl, fun _ => rfl, fun _ => rfl, fun _ _ => ⟨rfl, rfl⟩, .none hq _⟩
  cases n.share with
  | none => exact hset
  | some fork => exact (along_releaseShare fork).after hset

theorem along_handShares (fork : Handle) : Along (Calm x .deals) (handShares fork : TreeM σ cmp Unit) := by
  refine along_get fun t => Along.forM (fun c => ?_) t.children t
  exact along_updateNode fun _ => ⟨rfl, rfl, rfl, rfl, fun _ => rfl, fun _ => rfl, fun _ _ => ⟨rfl, rfl⟩, trivial⟩

end Sharing

section Retirement

theorem along_setPathSize (depth : Nat) (size : Extent) :
    Along (Calm x q) (setPathSize depth size : TreeM σ cmp Unit) := by
  refine along_get fun t => ?_
  split
  · exact .of_eq rfl rfl rfl rfl fun _ => rfl
  · exact along_throw _ t

theorem along_takeSnapshot (active : Handle) (depth : Nat) (above : Extent) :
    Along (Calm x .deals) (takeSnapshot active depth above : TreeM σ cmp (Role σ)) := by
  refine (along_read _).bind fun c => .bind ((along_record _).bind fun _ => along_get fun t => along_pure _ t)
    fun full => along_get fun t => ?_
  change Ends (do
    let basis ← onSolver Solver.getBasis
    _) t _ _
  refine ((along_onSolver _).bind fun basis => (along_handShares active).bind fun _ => (along_count (by simp)).bind fun _ =>
    (along_setPathSize _ _).bind fun _ => (along_modify _ (by simp)).bind fun _ => ?_ : Along _ _) t
  cases full with
  | false => exact along_pure _
  | true => exact (along_modify _ (by simp)).bind fun _ => along_pure _

theorem along_forwardShares : Along (Calm x .deals) (forwardShares : TreeM σ cmp Unit) := by
  refine along_get fun t => ?_
  cases t.lpFork with
  | none => exact along_pure _ t
  | some fork =>
      refine ((along_read _).bind fun n => ?_ : Along _ _) t
      split
      · exact along_throw _
      · split
        · exact (along_of_sweeps (sweeps_onWarmStart _ fun w => w.capture_basis _)).bind fun _ => along_handShares fork
        · exact (along_record _).bind fun _ => along_count (by simp)

theorem along_finalRole (active : Handle) : Along (Calm x .deals) (finalRole active : TreeM σ cmp (Role σ)) := by
  refine (along_read _).bind fun n => (along_read _).bind fun above => along_get fun t => ?_
  split
  · exact along_pure _ t
  · dsimp only
    split
    · exact along_takeSnapshot _ _ _ t
    · exact (along_forwardShares.bind fun _ => along_pure _ : Along _ _) t

theorem calm_retire (t : Tree σ cmp) : Ends retire t (fun _ => Calm t.active .deals t)
    fun _ => Calm none .deals t := by
  unfold retire
  rw [ends_bind, ends_get]
  cases ha : t.active with
  | none => exact along_pure _ t
  | some a =>
      dsimp only
      refine (along_surrenderShare (x := none) (q := .deals) nofun a t).bind fun _ t₁ h₁ => ?_
      rw [ends_bind, ends_get]
      refine ((along_finalRole a).after h₁).bind fun role t₂ h₂ => ?_
      rw [ends_bind, ends_read]
      cases hn : t₂.node a with
      | error e => exact h₂
      | ok n =>
          have hset : Calm (some a) .deals t₂ { t₂ with
              nodes := t₂.nodes.set a { n with role := role, log := n.log.close } } :=
            .set (node_eq_ok.1 hn) ⟨rfl, rfl, rfl, rfl, fun h => absurd rfl h, fun h => absurd rfl h,
            fun h => absurd rfl h, trivial⟩
          have hret := trans_of (Calm (some a) .deals) h₂.weaken hset
          exact { hret with }

end Retirement

section Following

theorem along_undoLog (id : Handle) : Along (Calm x q) (undoLog id : TreeM σ cmp Unit) := by
  refine (along_read _).bind fun n => along_get fun t => ?_
  have hundone : Calm x q t { t with domains := (n.log.undo t.domains).1 } := .of_eq rfl rfl rfl rfl fun _ => rfl
  exact (along_liftExcept _ _).after hundone

theorem along_leave (id : Handle) : Along (Calm x q) (leave id : TreeM σ cmp Unit) := by
  refine (along_modify _ (by simp)).bind fun _ => along_node fun t n hn => ?_
  have hset : Calm x q t { t with nodes := t.nodes.set id { n with onPath := false } } :=
    .set hn ⟨rfl, rfl, rfl, rfl, fun _ => rfl, fun _ => rfl, fun _ _ => ⟨rfl, rfl⟩, .refl q _⟩
  rw [ends_bind, ends_setNode]
  split
  · exact (along_of_sweeps (sweeps_freeUpwards n.depth id)).after hset
  · exact hset

theorem along_abandon (keep : Nat) : Along (Calm x q) (abandon keep : TreeM σ cmp Unit) := by
  refine along_get fun t => ?_
  refine (Along.bind (.forM (fun id => ?_) _) fun _ => (along_modify _ (by simp)).bind fun _ =>
    .forM along_leave _ : Along _ _) t
  exact (along_read _).bind fun n => (along_record _).bind fun _ => along_undoLog id

theorem along_enter (id : Handle) : Along (Calm x q) (enter id : TreeM σ cmp Unit) := by
  refine along_node fun t n hn => ?_
  have hset : Calm x q t { t with nodes := t.nodes.set id { n with onPath := true } } :=
    .set hn ⟨rfl, rfl, rfl, rfl, fun _ => rfl, fun _ => rfl, fun _ _ => ⟨rfl, rfl⟩, .refl q _⟩
  exact { hset with }

theorem along_applyLog (id : Handle) : Along (Calm x q) (applyLog id : TreeM σ cmp Outcome) := by
  refine along_node fun t n hn => ?_
  have hset : Calm x q t { t with
      nodes := t.nodes.set id { n with log := (n.log.apply t.settings.tol t.domains).1 } } :=
    .set hn ⟨rfl, rfl, rfl, rfl, fun _ => rfl, fun _ => rfl,
      fun _ _ => ⟨rfl, applyChanges_sameWrites t.settings.tol n.log.changes t.domains⟩, .refl q _⟩
  exact (along_liftExcept _ _).after { hset with }

theorem along_applyLogs (ids : List Handle) : Along (Calm x q) (applyLogs ids : TreeM σ cmp Outcome) := by
  induction ids with
  | nil => exact along_pure _
  | cons id ids ih => exact (along_applyLog id).bind fun o => ih.bind fun o' => along_pure _

theorem along_follow (r : Route) (target : Option Handle) :
    Along (Calm target q) (follow r target : TreeM σ cmp Outcome) := by
  have hend : Along (Calm target q) (do
      let outcome ← applyLogs ((← get).path.drop r.keep)
      modify fun t => { t with
        correctDepth := t.correctDepthAfter r
        lpFork := r.lpFork
        subroot := r.subroot
        active := target
        focus := .fresh }
      return outcome : TreeM σ cmp Outcome) := by
    refine along_get fun t => ?_
    exact ((along_applyLogs _).bind fun o => (along_modify _ (by simp)).bind fun _ =>
      along_pure _ : Along _ _) t
  refine (along_abandon r.keep).bind fun _ => (Along.forM along_enter _).bind fun _ => ?_
  cases target with
  | none => exact hend
  | some id =>
      refine Along.bind ?_ fun _ => hend
      exact along_updateNode fun _ => ⟨rfl, rfl, rfl, rfl, fun h => absurd rfl h, fun h => absurd rfl h,
            fun h => absurd rfl h, .refl q _⟩

end Following

section Loading

theorem along_replaySnapshot (s : Snapshot σ) : Along (Calm x q) (replaySnapshot s : TreeM σ cmp Unit) :=
  (along_onLp _).bind fun _ => along_count (by simp)

theorem along_rebuild : Along (Calm x q) (rebuild : TreeM σ cmp Nat) := by
  refine (along_onLp _).bind fun _ => (along_count (by simp)).bind fun _ => along_get fun t => ?_
  cases t.subroot with
  | none => exact ((along_record _).bind fun _ => along_pure _ : Along _ _) t
  | some id =>
      refine ((along_read _).bind fun n => ?_ : Along _ _) t
      split
      · exact (along_record _).bind fun _ => (along_replaySnapshot _).bind fun _ => along_pure _
      · exact along_throw _

theorem along_replay (skip : Nat) (ids : List Handle) : Along (Calm x q) (replay skip ids : TreeM σ cmp Unit) := by
  induction ids generalizing skip with
  | nil => cases skip <;> exact along_pure _
  | cons id ids ih =>
      cases skip with
      | succ skip => exact ih skip
      | zero =>
          refine (along_read _).bind fun n => ?_
          split
          · exact (along_record _).bind fun _ => (along_replaySnapshot _).bind fun _ => ih 0
          · exact along_rebuild.bind fun next => Along.when (along_throw _) (ih (next - (n.depth + 1)))
          · exact ih 0

theorem along_rewind : Along (Calm x q) (rewind : TreeM σ cmp Nat) := by
  refine along_get fun t => ?_
  cases t.correctDepth with
  | none => exact along_rebuild t
  | some depth =>
      exact ((along_read _).bind fun size => (along_record _).bind fun _ => (along_onLp _).bind fun _ =>
        along_pure _ : Along _ _) t

theorem along_rebuildPath (depth : Option Nat) : Along (Calm x q) (rebuildPath depth : TreeM σ cmp Unit) := by
  refine along_rewind.bind fun start => ?_
  have hend : Along (Calm x q) (modify ({ · with correctDepth := depth }) : TreeM σ cmp PUnit) :=
    along_modify _ (by simp)
  cases depth with
  | none => exact hend
  | some depth => exact along_get fun t => ((along_replay _ _).bind fun _ => hend : Along _ _) t

theorem along_installBasis : Along (Calm x q) (installBasis : TreeM σ cmp Unit) := by
  refine along_get fun t => ?_
  cases t.lpFork with
  | none => exact along_pure _ t
  | some fork =>
      refine ((along_read _).bind fun n => ?_ : Along _ _) t
      split
      · exact along_onSolver _
      · exact along_pure _

theorem along_loadActive (hq : q ≠ .keeps) (active : Handle) : Along (Calm x q) (loadActive active : TreeM σ cmp Unit) := by
  refine along_get fun t => ?_
  refine ((along_read _).bind fun target => (along_rebuildPath target).bind fun _ => along_get fun t₁ => ?_ :
    Along _ _) t
  refine ((along_read _).bind fun expected => ?_ : Along _ _) t₁
  refine Along.when (along_throw _) (Along.when (along_modify _ ?_) ?_)
  · simp
  · exact along_installBasis.bind fun _ => (along_surrenderShare hq active).bind fun _ =>
      (along_modify _ (by simp)).bind fun _ => (along_count (by simp)).bind fun _ => along_record _

theorem along_load (hq : q ≠ .keeps) : Along (Calm x q) (load : TreeM σ cmp LoadResult) := by
  refine along_get fun t => ?_
  split
  · exact along_throw _ t
  · exact along_pure _ t
  · exact ((along_record _).bind fun _ => (along_surrenderShare hq _).bind fun _ => along_pure _ : Along _ _) t
  · exact ((along_loadActive hq _).bind fun _ => along_pure _ : Along _ _) t

end Loading

section Solving

theorem along_requireLoaded (work : LoadedWork) : Along (Calm x q) (requireLoaded work : TreeM σ cmp Unit) := by
  refine along_get fun t => ?_
  split
  · exact along_pure _ t
  · exact along_throw _ t

theorem along_addColumn (c : Solver.Column σ) : Along (Calm x q) (addColumn c : TreeM σ cmp Unit) :=
  (along_requireLoaded _).bind fun _ => (along_onLp _).bind fun _ => along_modify _ (by simp)

theorem along_addRow (r : Solver.Row σ) : Along (Calm x q) (addRow r : TreeM σ cmp Unit) :=
  (along_requireLoaded _).bind fun _ => along_onLp _

theorem along_sendTouched : Along (Calm x q) (sendTouched : TreeM σ cmp Unit) := by
  refine along_get fun t => ?_
  refine (Along.forM (fun v => ?_) _).after (Calm.of_eq rfl rfl rfl rfl fun _ => rfl)
  exact (along_read _).bind fun _ => along_onSolver _

theorem along_solve : Along (Calm x q) (solve : TreeM σ cmp SolveStatus) :=
  (along_requireLoaded _).bind fun _ => along_sendTouched.bind fun _ => (along_onSolver _).bind fun _ =>
    (along_modify _ (by simp)).bind fun _ => along_get fun t =>
      ((along_record _).bind fun _ => along_pure _ : Along _ _) t

end Solving

section Growth

theorem calm_logChange (hn : t.nodes.get? id = some n) (hr : n.role.name.isProcessed = false) (c : BoundChange) :
    Ends (logChange id n c) t (fun _ => Calm x q t) fun _ => Calm x q t := by
  unfold logChange
  rw [ends_bind, ends_liftExcept]
  cases n.log.push c with
  | error e => exact refl_of (Calm x q) t
  | ok log =>
      exact Calm.set hn ⟨rfl, rfl, rfl, rfl, fun _ => rfl, fun _ => rfl,
        fun _ hd => Bool.noConfusion (hr.symm.trans hd), .refl q _⟩

theorem along_noteEmpty (o : Outcome) : Along (Calm x q) (noteEmpty o : TreeM σ cmp Unit) := by
  cases o with
  | feasible => exact along_pure _
  | infeasible v => exact along_modify _ (by simp)

theorem along_changeBound (id : Handle) (v : Nat) (side : Side) (bound : Binary64) :
    Along (Calm x q) (changeBound id v side bound : TreeM σ cmp Outcome) := by
  refine along_get fun t => Along.when (along_throw _) (along_node fun u n hn => ?_) t
  rw [ends_bind, ends_liftExcept]
  cases t.domains.look v with
  | error e => exact refl_of (Calm x q) u
  | ok y =>
      cases hr : n.role with
      | active =>
          refine (calm_logChange hn (by simp [hr, Role.name, RoleName.isProcessed]) _).bind fun _ u' hu => ?_
          exact ((along_modify _ (by simp)).bind fun _ => (along_noteEmpty _).bind fun _ => along_pure _).after hu
      | child _ =>
          exact (calm_logChange hn (by simp [hr, Role.name, RoleName.isProcessed]) _).bind
            fun _ u' hu => (along_pure _).after hu
      | _ => exact along_throw _ u

theorem along_constrain (id : Handle) (c : Nat) : Along (Calm x q) (constrain id c : TreeM σ cmp Unit) := by
  refine along_node fun t n hn => ?_
  have hset : n.role.name.isProcessed = false →
      Calm x q t { t with nodes := t.nodes.set id { n with constraints := n.constraints ++ [c] } } :=
    fun hr => .set hn ⟨rfl, rfl, rfl, rfl, fun _ => rfl, fun _ => rfl,
      fun _ hd => Bool.noConfusion (hr.symm.trans hd), .refl q _⟩
  cases hr : n.role with
  | active => simpa [hr, Role.name, RoleName.isProcessed] using hset
  | child _ => simpa [hr, Role.name, RoleName.isProcessed] using hset
  | _ => exact along_throw _ t

end Growth

section Staging

variable {R : Tree σ cmp → Tree σ cmp → Prop} [IsPreorder (Tree σ cmp) R]
  (hsweeps : ∀ t u, Sweeps t u → R t u)
  (hqueue : ∀ (t : Tree σ cmp) (r : Frontier.Request), R t { t with frontier := r.perform t.frontier })
  (hrecast : ∀ (t : Tree σ cmp) id n role log, t.nodes.get? id = some n →
    R t { t with nodes := t.nodes.set id { n with role := role, log := log } })
  (hlists : ∀ (t : Tree σ cmp) cs ss, R t { t with children := cs, siblings := ss })

include hqueue hrecast hlists

theorem along_flush (which : Staging) : Along R (flush which : TreeM σ cmp Unit) := by
  have hunlisted : Along R (modify (·.withStaged [] which) : TreeM σ cmp PUnit) := fun t => by
    cases which with
    | children => exact hlists t [] t.siblings
    | siblings => exact hlists t t.children []
  have hqueueLeaf : ∀ id, Along R (queueLeaf id : TreeM σ cmp Unit) := fun id => along_node fun t n hn => by
    rw [ends_bind, ends_setNode]
    exact trans_of R (hrecast t id n .leaf n.log.close hn) (hqueue _ (.insert id _))
  exact along_get fun t => (hunlisted.bind fun _ => .forM hqueueLeaf _ : Along R _) t

omit hqueue hlists in
theorem along_renumberSiblings : Along R (renumberSiblings : TreeM σ cmp Unit) := by
  refine along_get fun t => Along.forM (fun e => along_node fun u n hn => ?_) t.siblings.zipIdx t
  exact hrecast u e.1 n (.sibling e.2) n.log hn

include hsweeps

theorem along_clearTheWay (target : Handle) (role : RoleName) :
    Along R (clearTheWay target role : TreeM σ cmp Unit) := by
  have hflush : ∀ which, Along R (flush which : TreeM σ cmp Unit) := along_flush hqueue hrecast hlists
  have hunstage : ∀ which pos, Along R (unstage target which pos : TreeM σ cmp Unit) :=
    fun which pos => (sweeps_unstage target which pos).mono hsweeps
  unfold clearTheWay
  split
  · refine (hflush .siblings).bind fun _ => (along_read _).bind fun pos => (hunstage .children pos).bind fun _ => ?_
    exact .bind (fun t => hlists t t.siblings t.children) fun _ => along_renumberSiblings hrecast
  · exact (hflush .children).bind fun _ => (along_read _).bind fun pos => hunstage .siblings pos
  · refine (hflush .siblings).bind fun _ => (hflush .children).bind fun _ =>
      .bind (fun t => hqueue t (.remove target)) fun found => ?_
    cases found with
    | true => exact along_pure _
    | false => exact (sweeps_record _).mono hsweeps

end Staging

section Activation

variable {R : Tree σ cmp → Tree σ cmp → Prop} [IsPreorder (Tree σ cmp) R]
  (hcalm : ∀ x t u, Calm x q t u → R t u)
  (hqueue : ∀ (t : Tree σ cmp) (r : Frontier.Request), R t { t with frontier := r.perform t.frontier })
  (hrecast : ∀ (t : Tree σ cmp) id n role log, t.nodes.get? id = some n →
    R t { t with nodes := t.nodes.set id { n with role := role, log := log } })
  (hlists : ∀ (t : Tree σ cmp) cs ss, R t { t with children := cs, siblings := ss })
  (hcount : ∀ (t : Tree σ cmp) n d, R t { t with stats := { t.stats with activations := n, maxDepth := d } })

include hcalm hqueue hrecast hlists

/-- What is left of a deactivation when the turn has ended. -/
theorem along_vacate : Along R (do
    flush .siblings
    flush .children
    discard (follow .out none)
    record .deactivated
    return .finished : TreeM σ cmp Activation) := by
  have hflush : ∀ which, Along R (flush which : TreeM σ cmp Unit) := along_flush hqueue hrecast hlists
  exact (hflush .siblings).bind fun _ => (hflush .children).bind fun _ =>
    ((along_follow _ none).mono (hcalm none)).discard.bind fun _ => ((along_record _).mono (hcalm none)).bind fun _ =>
      along_pure _

include hcount

theorem along_takeOver (id : Handle) (role : RoleName) : Along R (do
    clearTheWay id role
    let r ← read (·.route id)
    let outcome ← follow r (some id)
    noteEmpty outcome
    let depth := (← get).path.length - 1
    count fun s => { s with activations := s.activations + 1, maxDepth := max s.maxDepth depth }
    record (.activated id depth r.common r.lpFork)
    report
    match outcome with
    | .feasible => return .activated id
    | .infeasible v => return Activation.cutoff id v : TreeM σ cmp Activation) := by
  have hrecord : ∀ e, Along R (record e : TreeM σ cmp Unit) := fun e => (along_record e).mono (hcalm none)
  have hreport : Along R (report : TreeM σ cmp Unit) := by
    refine along_get fun t => ?_
    split
    · exact hrecord _ t
    · exact along_pure _ t
  refine (along_clearTheWay (fun t u h => hcalm none t u h.calm) hqueue hrecast hlists id role).bind fun _ => ?_
  refine (along_read _).bind fun r => ((along_follow r _).mono (hcalm _)).bind fun outcome => ?_
  refine ((along_noteEmpty outcome).mono (hcalm none)).bind fun _ => along_get fun t => ?_
  have hstats : ∀ depth, Along R (count fun s => { s with
      activations := s.activations + 1, maxDepth := max s.maxDepth depth } : TreeM σ cmp Unit) :=
    fun depth u => hcount u (u.stats.activations + 1) (max u.stats.maxDepth depth)
  refine ((hstats _).bind fun _ => (hrecord _).bind fun _ => hreport.bind fun _ => ?_ : Along R _) t
  cases outcome <;> exact along_pure _

theorem activate_retires (target : Option Handle) (t : Tree σ cmp) :
    Ends (activate target) t
      (fun a u => a = .unchanged ∧ u = t ∨ ∃ t₁, retire t = .ok ⟨⟩ t₁ ∧ R t₁ u) fun _ _ => True := by
  have hafter : ∀ {m : TreeM σ cmp Activation}, Along R m → Ends (retire >>= fun _ => m) t
      (fun _ u => ∃ t₁, retire t = .ok ⟨⟩ t₁ ∧ R t₁ u) fun _ _ => True := fun hm =>
    ((ends_run retire t).mono (fun _ _ h => h) fun _ _ _ => trivial).bind fun _ t₁ hrun =>
      (hm t₁).mono (fun _ u hu => ⟨t₁, hrun, hu⟩) fun _ _ _ => trivial
  cases target with
  | none => exact (hafter (along_vacate hcalm hqueue hrecast hlists)).mono (fun _ _ => .inr) fun _ _ h => h
  | some id =>
      unfold activate
      rw [ends_bind, ends_get]
      split
      · exact .inl ⟨rfl, rfl⟩
      · unfold switchTo
        rw [ends_bind, ends_read]
        cases t.node id with
        | error e => trivial
        | ok n =>
            dsimp only
            split
            · exact (hafter (along_takeOver hcalm hqueue hrecast hlists hcount id _)).mono (fun _ _ => .inr) fun _ _ h => h
            · trivial

theorem along_activate (hq : q = .deals) (target : Option Handle) :
    Along R (activate target : TreeM σ cmp Activation) := by
  subst hq
  have hretire : Along R (retire : TreeM σ cmp Unit) := fun t =>
    (calm_retire t).mono (fun _ => hcalm _ t) fun _ => hcalm _ t
  cases target with
  | none => exact hretire.bind fun _ => along_vacate hcalm hqueue hrecast hlists
  | some id =>
      refine along_get fun t => ?_
      split
      · exact along_pure _ t
      · refine ((along_read _).bind fun n => ?_ : Along R (switchTo id)) t
        dsimp only
        split
        · exact hretire.bind fun _ => along_takeOver hcalm hqueue hrecast hlists hcount id _
        · intro t
          rw [ends_bind]
          exact refl_of R t

end Activation

end Tree

end BranchBound
