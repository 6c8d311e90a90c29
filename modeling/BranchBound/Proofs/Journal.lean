import BranchBound.Proofs.Agreement
import BranchBound.Proofs.Replies

namespace BranchBound.Tree

variable {σ α β : Type} [Solver σ] {cmp : NodeOrder} {t u : Tree σ cmp} {n : Node σ}

def Echoes (t u : Tree σ cmp) : Prop := ∃ journal, u = { t with journal := journal }

abbrev Matching (m : TreeM σ cmp α) (t : Tree σ cmp) (m' : TreeM σ cmp α) (u : Tree σ cmp) : Prop :=
  Agree (fun _ => False) (fun e t f u => e = f ∧ Echoes t u) m t m' u fun a t b u => a = b ∧ Echoes t u

/-- What is recorded has no bearing on what a program does. -/
abbrev Heedless (m : TreeM σ cmp α) : Prop := Alongside (fun _ => False) Eq Echoes Eq m m

section Primitives

theorem Heedless.bind {m : TreeM σ cmp α} {f : α → TreeM σ cmp β} (h : Heedless m) (hf : ∀ a, Heedless (f a)) :
    Heedless (m >>= f) := Alongside.bind h fun a _ hab => hab ▸ hf a

theorem Heedless.discard {m : TreeM σ cmp α} (h : Heedless m) : Heedless (discard m) := Alongside.discard h

theorem Heedless.forM {f : β → TreeM σ cmp PUnit} (h : ∀ x, Heedless (f x)) (xs : List β) : Heedless (xs.forM f) :=
  Alongside.forM_same h xs

theorem Heedless.at {m : TreeM σ cmp α} (h : Heedless m) (t : Tree σ cmp) (journal : Array Event) :
    Matching m t m { t with journal := journal } := h t _ ⟨journal, rfl⟩

theorem heedless_pure (a : α) : Heedless (pure a : TreeM σ cmp α) := alongside_pure rfl

theorem heedless_throw (e : TreeError) : Heedless (throw e : TreeM σ cmp α) := alongside_throw rfl

theorem Heedless.unless {p : Prop} [Decidable p] {e : TreeError} {m : TreeM σ cmp α} (h : Heedless m) :
    Heedless (if p then m else throw e >>= fun _ : PUnit => m) := by
  split
  · exact h
  · exact (heedless_throw e).bind fun _ => h

theorem heedless_liftExcept {ε : Type} (wrap : ε → TreeError) (x : Except ε α) :
    Heedless (liftExcept wrap x : TreeM σ cmp α) := alongside_liftExcept wrap (fun _ => rfl) x

theorem heedless_get {f : Tree σ cmp → TreeM σ cmp α}
    (h : ∀ t journal, Matching (f t) t (f { t with journal := journal }) { t with journal := journal }) :
    Heedless (get >>= f) := by
  rintro t _ ⟨journal, rfl⟩
  exact h t journal

theorem heedless_read {f : Tree σ cmp → Except TreeError α} (h : ∀ t journal, f { t with journal := journal } = f t) :
    Heedless (read f) := heedless_get fun t journal => h t journal ▸ (heedless_liftExcept id (f t)).at t journal

theorem heedless_node (id : Handle) : Heedless (read (·.node id) : TreeM σ cmp (Node σ)) :=
  heedless_read fun _ _ => rfl

theorem heedless_modifyGet {f : Tree σ cmp → α × Tree σ cmp}
    (h : ∀ t journal, f { t with journal := journal } = ((f t).1, { (f t).2 with journal := journal })) :
    Heedless (modifyGet f) := by
  rintro t _ ⟨journal, rfl⟩
  exact ⟨(congrArg Prod.fst (h t journal)).symm, journal, congrArg Prod.snd (h t journal)⟩

theorem heedless_modify {f : Tree σ cmp → Tree σ cmp}
    (h : ∀ t journal, f { t with journal := journal } = { f t with journal := journal }) : Heedless (modify f) :=
  heedless_modifyGet fun t journal => congrArg (Prod.mk PUnit.unit) (h t journal)

theorem heedless_record (e : Event) : Heedless (record e : TreeM σ cmp Unit) := by
  rintro t _ ⟨journal, rfl⟩
  exact ⟨rfl, journal.push e, rfl⟩

theorem heedless_count (f : Stats → Stats) : Heedless (count f : TreeM σ cmp Unit) := heedless_modify fun _ _ => rfl

theorem heedless_setNode (id : Handle) (n : Node σ) : Heedless (setNode id n : TreeM σ cmp Unit) :=
  heedless_modify fun _ _ => rfl

theorem heedless_updateNode (id : Handle) (f : Node σ → Node σ) : Heedless (updateNode id f : TreeM σ cmp Unit) :=
  (heedless_node id).bind fun n => heedless_setNode id (f n)

theorem heedless_onLp (act : RelaxationM σ α) : Heedless (onLp act : TreeM σ cmp α) := by
  rintro t _ ⟨journal, rfl⟩
  unfold Agree onLp onPart
  dsimp only
  cases act t.lp with
  | ok a lp => exact ⟨rfl, journal, rfl⟩
  | error e lp => exact .inr (.inr ⟨rfl, journal, rfl⟩)

theorem heedless_onSolver (act : SolverM σ α) : Heedless (onSolver act : TreeM σ cmp α) := heedless_onLp _

theorem heedless_setPolicy (p : SnapshotPolicy) : Heedless (setPolicy p : TreeM σ cmp Unit) :=
  heedless_modify fun _ _ => rfl

end Primitives

section Sharing

theorem heedless_onWarmStart (id : Handle) (missing : Fault)
    (act : EStateM ShareError (WarmStart (Solver.Basis σ)) α) :
    Heedless (onWarmStart id missing act : TreeM σ cmp α) := by
  refine (heedless_node id).bind fun n => ?_
  cases n.role.warmStart? with
  | none => exact heedless_throw _
  | some w =>
      dsimp only
      cases act w with
      | ok a w => exact (heedless_setNode id _).bind fun _ => heedless_pure a
      | error e w => exact (heedless_setNode id _).bind fun _ => heedless_throw _

theorem heedless_releaseShare (fork : Handle) : Heedless (releaseShare fork : TreeM σ cmp Unit) := by
  refine (heedless_onWarmStart fork _ _).bind fun b => ?_
  cases b with
  | none => exact heedless_pure _
  | some b => exact (heedless_onSolver _).bind fun _ => (heedless_count _).bind fun _ => heedless_record _

theorem heedless_surrenderShare (id : Handle) : Heedless (surrenderShare id : TreeM σ cmp Unit) := by
  refine (heedless_node id).bind fun n => (heedless_setNode id _).bind fun _ => ?_
  cases n.share with
  | none => exact heedless_pure _
  | some fork => exact heedless_releaseShare fork

theorem heedless_handShares (fork : Handle) : Heedless (handShares fork : TreeM σ cmp Unit) :=
  heedless_get fun t => (Heedless.forM (fun c => heedless_updateNode c _) t.children).at t

end Sharing

section Freeing

theorem heedless_takeNode (id : Handle) : Heedless (takeNode id : TreeM σ cmp (Node σ)) := by
  refine heedless_get fun t journal => ?_
  dsimp only
  cases t.nodes.erase id with
  | none => exact (heedless_throw _).at t journal
  | some r => exact ⟨rfl, journal, rfl⟩

theorem heedless_checkBasisGone (id : Handle) (r : Role σ) : Heedless (checkBasisGone id r : TreeM σ cmp Unit) := by
  unfold checkBasisGone
  split
  · exact (heedless_onSolver _).bind fun _ => heedless_throw _
  · exact heedless_pure _

theorem heedless_countOff (parent id : Handle) : Heedless (countOff parent id : TreeM σ cmp Bool) := by
  refine (heedless_node parent).bind fun p => ?_
  split
  · exact (heedless_setNode parent _).bind fun _ => heedless_pure _
  · exact heedless_pure _
  · exact heedless_throw _

theorem heedless_freeOne (id : Handle) : Heedless (freeOne id : TreeM σ cmp (Option Handle)) := by
  refine (heedless_takeNode id).bind fun n => ?_
  cases n.share
  case' some fork => refine (heedless_releaseShare fork).bind fun _ => ?_
  all_goals
    refine (heedless_checkBasisGone id _).bind fun _ => (heedless_record _).bind fun _ => ?_
    cases n.parent with
    | none => exact heedless_pure _
    | some parent => exact (heedless_countOff parent id).bind fun _ => heedless_pure _

theorem heedless_freeUpwards (depth : Nat) (id : Handle) : Heedless (freeUpwards depth id : TreeM σ cmp Unit) := by
  induction depth generalizing id with
  | zero => exact (heedless_freeOne id).discard
  | succ depth ih =>
      refine (heedless_freeOne id).bind fun next => ?_
      cases next with
      | none => exact heedless_pure _
      | some p => exact ih p

theorem heedless_moveTo (pos : Nat) (id : Handle) : Heedless (moveTo pos id : TreeM σ cmp Unit) := by
  refine (heedless_node id).bind fun n => ?_
  cases n.role <;> first | exact heedless_setNode id _ | exact heedless_throw _

theorem heedless_unstage (id : Handle) (which : Staging) (pos : Nat) :
    Heedless (unstage id which pos : TreeM σ cmp Unit) := by
  refine heedless_get fun t journal => ?_
  have hstaged : ({ t with journal := journal } : Tree σ cmp).staged which = t.staged which := by cases which <;> rfl
  have hset : ∀ ids, Echoes (t.withStaged ids which)
      (({ t with journal := journal } : Tree σ cmp).withStaged ids which) :=
    fun ids => by cases which <;> exact ⟨journal, rfl⟩
  rw [hstaged]
  split
  · exact (heedless_throw _).at t journal
  · dsimp only
    cases (swapRemove (t.staged which) pos)[pos]? with
    | none => exact ⟨rfl, hset _⟩
    | some moved => exact heedless_moveTo pos moved _ _ (hset _)

theorem heedless_dismiss (id : Handle) : Heedless (dismiss id : TreeM σ cmp Unit) := by
  refine (heedless_node id).bind fun n => ?_
  cases n.role.staged? with
  | none => exact heedless_freeUpwards n.depth id
  | some place => exact (heedless_unstage id place.1 place.2).bind fun _ => heedless_freeUpwards n.depth id

theorem doomed_echo (cutoff : Binary64) (journal : Array Event) (ids : List Handle) :
    ({ t with journal := journal } : Tree σ cmp).doomed cutoff ids = t.doomed cutoff ids := by
  induction ids with
  | nil => rfl
  | cons id ids ih =>
      unfold doomed
      rw [ih]
      rfl

theorem heedless_prune (cutoff : Binary64) : Heedless (prune cutoff : TreeM σ cmp Nat) := by
  refine .bind (heedless_modifyGet fun _ _ => rfl) fun leaves =>
    (heedless_read fun _ journal => doomed_echo cutoff journal _).bind fun staged =>
    (Heedless.forM heedless_dismiss _).bind fun _ => ?_
  split
  · exact heedless_pure _
  · exact (heedless_record _).bind fun _ => heedless_pure _

theorem heedless_free (id : Handle) : Heedless (free id : TreeM σ cmp Unit) := by
  have hunqueue : Heedless (modify fun t => { t with frontier := (t.frontier.remove id).2 } : TreeM σ cmp PUnit) :=
    heedless_modify fun _ _ => rfl
  refine (heedless_node id).bind fun n => ?_
  cases freeMisuse? id n with
  | some m => exact (heedless_throw _).bind fun _ => Alongside.when hunqueue (heedless_dismiss id)
  | none => exact Alongside.when hunqueue (heedless_dismiss id)

end Freeing

section Retirement

theorem heedless_setPathSize (depth : Nat) (size : Extent) : Heedless (setPathSize depth size : TreeM σ cmp Unit) := by
  refine heedless_get fun t journal => ?_
  dsimp only
  split
  · exact ⟨rfl, journal, rfl⟩
  · exact (heedless_throw _).at t journal

theorem heedless_askPolicy (c : SnapshotQuery) : Heedless (askPolicy c : TreeM σ cmp Bool) :=
  (heedless_record _).bind fun _ => heedless_get fun t journal => (heedless_pure _).at t journal

theorem heedless_takeSnapshot (active : Handle) (depth : Nat) (above : Extent) :
    Heedless (takeSnapshot active depth above : TreeM σ cmp (Role σ)) := by
  refine (heedless_read fun _ _ => rfl).bind fun c => (heedless_askPolicy c).bind fun full => ?_
  refine heedless_get fun t => Heedless.at ?_ t
  refine (heedless_onSolver _).bind fun basis => (heedless_handShares active).bind fun _ =>
    (heedless_count _).bind fun _ => (heedless_setPathSize _ _).bind fun _ =>
    .bind (heedless_modify fun _ _ => rfl) fun _ => ?_
  cases full with
  | false => exact heedless_pure _
  | true => exact .bind (heedless_modify fun _ _ => rfl) fun _ => heedless_pure _

theorem heedless_forwardShares : Heedless (forwardShares : TreeM σ cmp Unit) := by
  refine heedless_get fun t => Heedless.at ?_ t
  cases t.lpFork with
  | none => exact heedless_pure _
  | some fork =>
      refine (heedless_node fork).bind fun n => ?_
      split
      · exact heedless_throw _
      · split
        · exact (heedless_onWarmStart fork _ _).bind fun _ => heedless_handShares fork
        · exact (heedless_record _).bind fun _ => heedless_count _

theorem heedless_finalRole (active : Handle) : Heedless (finalRole active : TreeM σ cmp (Role σ)) := by
  refine (heedless_node active).bind fun n => (heedless_read ?_).bind fun above =>
    heedless_get fun t => Heedless.at ?_ t
  · rintro t journal
    cases n.depth <;> rfl
  · split
    · exact heedless_pure _
    · dsimp only
      split
      · exact heedless_takeSnapshot _ _ _
      · exact heedless_forwardShares.bind fun _ => heedless_pure _

theorem heedless_retire : Heedless (retire : TreeM σ cmp Unit) := by
  refine heedless_get fun t => Heedless.at ?_ t
  cases t.active with
  | none => exact heedless_pure _
  | some a =>
      refine (heedless_surrenderShare a).bind fun _ => heedless_get fun t => Heedless.at ?_ t
      exact (heedless_finalRole a).bind fun role => (heedless_node a).bind fun n => (heedless_record _).bind fun _ =>
        (heedless_setNode a _).bind fun _ => heedless_modify fun _ _ => rfl

end Retirement

section Activation

theorem heedless_queueLeaf (id : Handle) : Heedless (queueLeaf id : TreeM σ cmp Unit) :=
  (heedless_node id).bind fun _ => (heedless_setNode id _).bind fun _ => heedless_modify fun _ _ => rfl

theorem heedless_flush (which : Staging) : Heedless (flush which : TreeM σ cmp Unit) := by
  refine heedless_get fun t journal => ?_
  have hstaged : ({ t with journal := journal } : Tree σ cmp).staged which = t.staged which := by cases which <;> rfl
  rw [hstaged]
  exact Heedless.at (.bind (heedless_modify fun _ _ => by cases which <;> rfl) fun _ =>
    .forM heedless_queueLeaf _) t journal

theorem heedless_renumberSiblings : Heedless (renumberSiblings : TreeM σ cmp Unit) := by
  refine heedless_get fun t => Heedless.at ?_ t
  exact .forM (fun ⟨id, pos⟩ => heedless_updateNode id fun n => { n with role := .sibling pos }) t.siblings.zipIdx

theorem heedless_clearTheWay (target : Handle) (role : RoleName) :
    Heedless (clearTheWay target role : TreeM σ cmp Unit) := by
  have hplace : Heedless (read (·.stagedPos target) : TreeM σ cmp Nat) := heedless_read fun _ _ => rfl
  cases role with
  | child =>
      exact (heedless_flush _).bind fun _ => hplace.bind fun pos => (heedless_unstage target _ pos).bind fun _ =>
        .bind (heedless_modify fun _ _ => rfl) fun _ => heedless_renumberSiblings
  | sibling => exact (heedless_flush _).bind fun _ => hplace.bind fun pos => heedless_unstage target _ pos
  | _ =>
      refine (heedless_flush _).bind fun _ => (heedless_flush _).bind fun _ =>
        .bind (heedless_modifyGet fun _ _ => rfl) fun found => ?_
      cases found with
      | true => exact heedless_pure _
      | false => exact heedless_record _

theorem heedless_undoLog (id : Handle) : Heedless (undoLog id : TreeM σ cmp Unit) :=
  (heedless_node id).bind fun _ => heedless_get fun _ journal =>
    heedless_liftExcept _ _ _ _ ⟨journal, rfl⟩

theorem heedless_undoStep (id : Handle) : Heedless (undoStep id : TreeM σ cmp Unit) :=
  (heedless_node id).bind fun _ => (heedless_record _).bind fun _ => heedless_undoLog id

theorem heedless_leave (id : Handle) : Heedless (leave id : TreeM σ cmp Unit) := by
  refine .bind (heedless_modify fun _ _ => rfl) fun _ => (heedless_node id).bind fun n =>
    (heedless_setNode id _).bind fun _ => ?_
  split
  · exact heedless_freeUpwards n.depth id
  · exact heedless_pure _

theorem heedless_abandon (keep : Nat) : Heedless (abandon keep : TreeM σ cmp Unit) :=
  heedless_get fun t => ((Heedless.forM heedless_undoStep _).bind fun _ =>
    (heedless_modify fun _ _ => rfl).bind fun _ => Heedless.forM heedless_leave _).at t

theorem heedless_enter (id : Handle) : Heedless (enter id : TreeM σ cmp Unit) :=
  (heedless_node id).bind fun _ => (heedless_setNode id _).bind fun _ => heedless_modify fun _ _ => rfl

theorem heedless_applyLog (id : Handle) : Heedless (applyLog id : TreeM σ cmp Outcome) :=
  (heedless_node id).bind fun _ => (heedless_record _).bind fun _ => heedless_get fun _ journal =>
    heedless_liftExcept _ _ _ _ ⟨journal, rfl⟩

theorem heedless_applyLogs (ids : List Handle) : Heedless (applyLogs ids : TreeM σ cmp Outcome) := by
  induction ids with
  | nil => exact heedless_pure _
  | cons id ids ih => exact (heedless_applyLog id).bind fun _ => ih.bind fun _ => heedless_pure _

theorem heedless_follow (r : Route) (target : Option Handle) : Heedless (follow r target : TreeM σ cmp Outcome) := by
  have hend : Heedless (do
      let outcome ← applyLogs ((← get).path.drop r.keep)
      modify fun t => { t with
        correctDepth := t.correctDepthAfter r
        lpFork := r.lpFork
        subroot := r.subroot
        active := target
        focus := .fresh }
      return outcome : TreeM σ cmp Outcome) := by
    exact heedless_get fun t => Heedless.at ((heedless_applyLogs _).bind fun _ =>
      .bind (heedless_modify fun _ _ => rfl) fun _ => heedless_pure _) t
  refine (heedless_abandon _).bind fun _ => (Heedless.forM heedless_enter _).bind fun _ => ?_
  cases target with
  | none => exact hend
  | some id => exact (heedless_updateNode id _).bind fun _ => hend

theorem heedless_noteEmpty (o : Outcome) : Heedless (noteEmpty o : TreeM σ cmp Unit) := by
  cases o with
  | feasible => exact heedless_pure _
  | infeasible v =>
      exact heedless_modify fun _ _ => rfl

theorem heedless_report : Heedless (report : TreeM σ cmp Unit) := by
  refine heedless_get fun t journal => ?_
  dsimp only
  split
  · exact (heedless_record _).at t journal
  · exact (heedless_pure _).at t journal

theorem heedless_deactivate : Heedless (deactivate : TreeM σ cmp Activation) :=
  heedless_retire.bind fun _ => (heedless_flush _).bind fun _ => (heedless_flush _).bind fun _ =>
    (heedless_follow .out none).discard.bind fun _ => (heedless_record _).bind fun _ => heedless_pure _

theorem climb_echo (journal : Array Event) (depth : Nat) (id : Option Handle) :
    ({ t with journal := journal } : Tree σ cmp).climb depth id = t.climb depth id := by
  induction depth generalizing id with
  | zero => cases id <;> rfl
  | succ depth ih =>
      cases id with
      | none => rfl
      | some id =>
          unfold climb
          simp only [ih]
          rfl

theorem nearest?_echo (journal : Array Event) (p : Role σ → Bool) (ids : List Handle) :
    ({ t with journal := journal } : Tree σ cmp).nearest? p ids = t.nearest? p ids := by
  induction ids with
  | nil => rfl
  | cons id ids ih =>
      unfold nearest?
      rw [ih]
      rfl

theorem route_echo (journal : Array Event) (target : Handle) :
    ({ t with journal := journal } : Tree σ cmp).route target = t.route target := by
  unfold route
  simp only [climb_echo, nearest?_echo]
  rfl

theorem heedless_switchTo (id : Handle) : Heedless (switchTo id : TreeM σ cmp Activation) := by
  refine (heedless_node id).bind fun n => Heedless.unless ?_
  refine heedless_retire.bind fun _ => (heedless_clearTheWay id _).bind fun _ =>
    (heedless_read fun _ journal => route_echo journal id).bind fun r => (heedless_follow r (some id)).bind fun o =>
    (heedless_noteEmpty o).bind fun _ => heedless_get fun t => Heedless.at ?_ t
  refine (heedless_count _).bind fun _ => (heedless_record _).bind fun _ => heedless_report.bind fun _ => ?_
  cases o <;> exact heedless_pure _

theorem heedless_activate (target : Option Handle) : Heedless (activate target : TreeM σ cmp Activation) := by
  cases target with
  | none => exact heedless_deactivate
  | some id =>
      refine heedless_get fun t => Heedless.at ?_ t
      split
      · exact heedless_pure _
      · exact heedless_switchTo id

end Activation

section Loading

theorem heedless_replaySnapshot (s : Snapshot σ) : Heedless (replaySnapshot s : TreeM σ cmp Unit) :=
  (heedless_onLp _).bind fun _ => heedless_count _

theorem heedless_rebuild : Heedless (rebuild : TreeM σ cmp Nat) := by
  refine (heedless_onLp _).bind fun _ => (heedless_count _).bind fun _ =>
    heedless_get fun t => Heedless.at ?_ t
  cases t.subroot with
  | none => exact (heedless_record _).bind fun _ => heedless_pure _
  | some id =>
      refine (heedless_node id).bind fun n => ?_
      split
      · exact (heedless_record _).bind fun _ => (heedless_replaySnapshot _).bind fun _ => heedless_pure _
      · exact heedless_throw _

theorem heedless_replay (skip : Nat) (ids : List Handle) : Heedless (replay skip ids : TreeM σ cmp Unit) := by
  induction ids generalizing skip with
  | nil => cases skip <;> exact heedless_pure _
  | cons id ids ih =>
      cases skip with
      | succ skip => exact ih skip
      | zero =>
          refine (heedless_node id).bind fun n => ?_
          split
          · exact (heedless_record _).bind fun _ => (heedless_replaySnapshot _).bind fun _ => ih 0
          · exact heedless_rebuild.bind fun next =>
              Alongside.when (heedless_throw _) (ih (next - (n.depth + 1)))
          · exact ih 0

theorem heedless_rewind : Heedless (rewind : TreeM σ cmp Nat) := by
  refine heedless_get fun t => Heedless.at ?_ t
  cases t.correctDepth with
  | none => exact heedless_rebuild
  | some depth =>
      exact (heedless_read fun _ _ => rfl).bind fun size => (heedless_record _).bind fun _ =>
        (heedless_onLp _).bind fun _ => heedless_pure _

theorem heedless_rebuildPath (target : Option Nat) : Heedless (rebuildPath target : TreeM σ cmp Unit) := by
  have hend : Heedless (modify ({ · with correctDepth := target }) : TreeM σ cmp PUnit) :=
    heedless_modify fun _ _ => rfl
  refine heedless_rewind.bind fun start => ?_
  cases target with
  | none => exact hend
  | some depth => exact heedless_get fun t => ((heedless_replay start _).bind fun _ => hend).at t

theorem heedless_installBasis : Heedless (installBasis : TreeM σ cmp Unit) := by
  refine heedless_get fun t => Heedless.at ?_ t
  cases t.lpFork with
  | none => exact heedless_pure _
  | some fork =>
      refine (heedless_node fork).bind fun n => ?_
      split
      · exact heedless_onSolver _
      · exact heedless_pure _

theorem heedless_loadActive (active : Handle) : Heedless (loadActive active : TreeM σ cmp Unit) := by
  refine heedless_get fun t => Heedless.at ?_ t
  refine (heedless_read fun t journal => ?_).bind fun target => (heedless_rebuildPath target).bind fun _ =>
    heedless_get fun t₁ => Heedless.at ?_ t₁
  · rfl
  · refine (heedless_read fun t journal => ?_).bind fun expected =>
      Alongside.when (heedless_throw _) (Alongside.when (heedless_modify fun _ _ => rfl) ?_)
    · cases target <;> rfl
    · exact heedless_installBasis.bind fun _ => (heedless_surrenderShare active).bind fun _ =>
        .bind (heedless_modify fun _ _ => rfl) fun _ => (heedless_count _).bind fun _ => heedless_record _

theorem heedless_load : Heedless (load : TreeM σ cmp LoadResult) := by
  refine heedless_get fun t => Heedless.at ?_ t
  split
  · exact heedless_throw _
  · exact heedless_pure _
  · exact (heedless_record _).bind fun _ => (heedless_surrenderShare _).bind fun _ => heedless_pure _
  · exact (heedless_loadActive _).bind fun _ => heedless_pure _

end Loading

section Solving

theorem heedless_requireLoaded (work : LoadedWork) : Heedless (requireLoaded work : TreeM σ cmp Unit) := by
  refine heedless_get fun t => Heedless.at ?_ t
  split
  · exact heedless_pure _
  · exact heedless_throw _

theorem heedless_addColumn (c : Solver.Column σ) : Heedless (addColumn c : TreeM σ cmp Unit) :=
  (heedless_requireLoaded _).bind fun _ => (heedless_onLp _).bind fun _ => heedless_modify fun _ _ => rfl

theorem heedless_addRow (r : Solver.Row σ) : Heedless (addRow r : TreeM σ cmp Unit) :=
  (heedless_requireLoaded _).bind fun _ => heedless_onLp _

theorem heedless_sendTouched : Heedless (sendTouched : TreeM σ cmp Unit) := by
  have hsend : ∀ v, Heedless (sendBounds v : TreeM σ cmp Unit) := fun v =>
    (heedless_read fun _ _ => rfl).bind fun _ => heedless_onSolver _
  exact heedless_get fun t journal => Heedless.forM hsend _ _ _ ⟨journal, rfl⟩

theorem heedless_solve : Heedless (solve : TreeM σ cmp SolveStatus) :=
  (heedless_requireLoaded _).bind fun _ => heedless_sendTouched.bind fun _ => (heedless_onSolver _).bind fun status =>
    .bind (heedless_modify fun _ _ => rfl) fun _ => heedless_get fun t =>
      ((heedless_record _).bind fun _ => heedless_pure status).at t

theorem heedless_pop : Heedless (pop : TreeM σ cmp (Option Handle)) := by
  refine heedless_modifyGet fun t journal => ?_
  dsimp only
  cases t.frontier.pop? <;> rfl

theorem heedless_clear : Heedless (clear : TreeM σ cmp Unit) := by
  have hreclaim : ∀ n, Heedless (reclaimBasis n : TreeM σ cmp Unit) := by
    intro n
    unfold reclaimBasis
    split
    · exact (heedless_onSolver _).bind fun _ => heedless_count _
    · exact heedless_pure _
  refine heedless_get fun t => Heedless.at ?_ t
  refine (Heedless.forM heedless_undoLog _).bind fun _ => heedless_get fun t => Heedless.at ?_ t
  exact (Heedless.forM hreclaim _).bind fun _ => .bind (heedless_modify fun _ _ => rfl) fun _ => heedless_onLp _

end Solving

section Growth

theorem heedless_create (bound estimate : Binary64) : Heedless (create bound estimate : TreeM σ cmp Handle) := by
  refine (heedless_read fun _ _ => rfl).bind fun ⟨parent, depth, bound⟩ => heedless_get fun t journal => ?_
  exact ⟨rfl, _, rfl⟩

theorem heedless_logChange (id : Handle) (n : Node σ) (c : BoundChange) :
    Heedless (logChange id n c : TreeM σ cmp Unit) :=
  (heedless_liftExcept _ _).bind fun _ => heedless_setNode id _

theorem heedless_changeBound (id : Handle) (v : Nat) (side : Side) (bound : Binary64) :
    Heedless (changeBound id v side bound : TreeM σ cmp Outcome) := by
  refine heedless_get fun t => Heedless.at ?_ t
  refine Alongside.when (heedless_throw _) ((heedless_node id).bind fun n => (heedless_liftExcept _ _).bind fun x => ?_)
  cases n.role with
  | active =>
      exact (heedless_logChange id n _).bind fun _ => .bind (heedless_modify fun _ _ => rfl) fun _ =>
        (heedless_noteEmpty _).bind fun _ => heedless_pure _
  | child _ => exact (heedless_logChange id n _).bind fun _ => heedless_pure _
  | _ => exact heedless_throw _

theorem heedless_constrain (id : Handle) (c : Nat) : Heedless (constrain id c : TreeM σ cmp Unit) := by
  refine (heedless_node id).bind fun n => ?_
  cases n.role <;> first | exact heedless_setNode id _ | exact heedless_throw _

theorem heedless_raise (id : Handle) (bound : Binary64) : Heedless (raise id bound : TreeM σ cmp Unit) := by
  refine (heedless_node id).bind fun n => ?_
  split
  · exact heedless_pure _
  · refine (heedless_setNode id _).bind fun _ => ?_
    split
    · exact heedless_modify fun _ _ => rfl
    · exact heedless_get fun t => (Heedless.forM (fun c => heedless_updateNode c _) t.children).at t
    · exact heedless_pure _

end Growth

section Run

theorem Heedless.map {m : TreeM σ cmp α} (h : Heedless m) (f : α → β) : Heedless (f <$> m) :=
  h.bind fun a => heedless_pure (f a)

theorem heedless_answer (op : Op σ) : Heedless (op.answer : TreeM σ cmp Reply) := by
  cases op with
  | create bound estimate => exact (heedless_create bound estimate).map _
  | changeBound id v side bound => exact (heedless_changeBound id v side bound).map _
  | constrain id c => exact (heedless_constrain id c).map _
  | raise id bound => exact (heedless_raise id bound).map _
  | addColumn c => exact (heedless_addColumn c).map _
  | addRow r => exact (heedless_addRow r).map _
  | solve => exact heedless_solve.map _
  | activate target => exact (heedless_activate target).map _
  | load => exact heedless_load.map _
  | prune cutoff => exact (heedless_prune cutoff).map _
  | free id => exact (heedless_free id).map _
  | pop => exact heedless_pop.map _
  | clear => exact heedless_clear.map _
  | setPolicy p => exact (heedless_setPolicy p).map _

theorem Matching.left {m m' : TreeM σ cmp α} (h : Matching m t m' u) : Echoes (left m t) (left m' u) := by
  unfold Matching Agree at h
  unfold BranchBound.left
  cases hm : m t <;> cases hm' : m' u <;> rw [hm, hm'] at h
  · exact h.2
  · exact h.elim
  · exact h.elim
  · exact (h.resolve_left id).resolve_left id |>.2

/-- Trees that differ in what was recorded only do so after every run. -/
theorem Echoes.run (h : Echoes t u) (ops : List (Op σ)) : Echoes (t.run ops) (u.run ops) := by
  induction ops using List.reverseRecOn with
  | nil => exact h
  | append_singleton ops op ih =>
      rw [run_concat, run_concat, op.left_perform, op.left_perform]
      exact Matching.left (heedless_answer op _ _ ih)

end Run

end BranchBound.Tree
