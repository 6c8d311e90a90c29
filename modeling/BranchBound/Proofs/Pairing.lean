import BranchBound.Proofs.Replay
import BranchBound.Proofs.Twins

namespace BranchBound

variable {σ α β : Type} [Solver σ] {cmp : NodeOrder}

section Rebuild

def Consulted.Unasked (o o' : Consulted σ) : Prop := o'.asked = o.asked

omit [Solver σ] in
theorem Consulted.along_edit (act : SolverM σ α) : Along Unasked (edit act) := fun o =>
  ends_onPart.2 ((ends_trivial act o.solver).mono (fun _ _ _ => rfl) fun _ _ _ => rfl)

namespace Relaxation

def Unasked (r s : Relaxation (Consulted σ)) : Prop := s.solver.asked = r.solver.asked

instance : IsPreorder (Relaxation (Consulted σ)) Unasked where
  refl _ := rfl
  trans _ _ _ h h' := h'.trans h

theorem along_edit (act : SolverM σ Unit) {f : Relaxation (Consulted σ) → Relaxation (Consulted σ)}
    (h : ∀ r, (f r).solver = r.solver) :
    Along Unasked (do onSolver (Consulted.edit act); modify f : RelaxationM (Consulted σ) PUnit) := by
  have hsolver : Along Unasked (onSolver (Consulted.edit act)) := fun r =>
    ends_onPart.2 (Consulted.along_edit act r.solver)
  exact hsolver.bind fun _ r => congrArg Consulted.asked (h r)

theorem along_extend (cs : List (Solver.Column (Consulted σ))) (rs : List (Solver.Row (Consulted σ))) :
    Along Unasked (extend cs rs) := by
  have hcolumns : Along Unasked (extendColumns cs) := by
    unfold extendColumns
    split
    · exact along_pure _
    · exact along_edit _ fun _ => rfl
  refine hcolumns.bind fun _ => ?_
  unfold extendRows
  split
  · exact along_pure _
  · exact along_edit _ fun _ => rfl

theorem along_shrink (size : Extent) : Along Unasked (shrink (σ := Consulted σ) size) := by
  have hcolumns : Along Unasked (shrinkColumns (σ := Consulted σ) size.columns) := by
    intro r
    unfold shrinkColumns
    rw [ends_bind, ends_get]
    split
    · refine along_edit _ (fun _ => ?_) r
      rfl
    · exact refl_of Unasked r
  refine hcolumns.bind fun _ r => ?_
  unfold shrinkRows
  rw [ends_bind, ends_get]
  split
  · refine along_edit _ (fun _ => ?_) r
    rfl
  · exact refl_of Unasked r

theorem along_clear : Along Unasked (clear (σ := Consulted σ)) := along_edit _ fun _ => rfl

end Relaxation

namespace Tree

/-- The relaxation may be another one, and with it the statistics of rebuilding. The solver was asked for nothing. -/
inductive Rebuilds (t : Tree (Consulted σ) cmp) : Tree (Consulted σ) cmp → Prop
  | intro (lp : Relaxation (Consulted σ)) (correctDepth : Option Nat) (stats : Stats) (journal : Array Event) :
      t.lp.Unasked lp → stats.plain = t.stats.plain →
      Rebuilds t { t with lp := lp, correctDepth := correctDepth, stats := stats, journal := journal }

instance : IsPreorder (Tree (Consulted σ) cmp) Rebuilds where
  refl t := .intro t.lp t.correctDepth t.stats t.journal rfl rfl
  trans t _ _ h h' := by
    obtain ⟨lp, _, _, _, hlp, hs⟩ := h
    obtain ⟨lp', _, _, _, hlp', hs'⟩ := h'
    exact .intro _ _ _ _ (trans_of Relaxation.Unasked hlp hlp') (hs'.trans hs)

theorem rebuilds_onLp {act : RelaxationM (Consulted σ) α} (h : Along Relaxation.Unasked act) :
    Along Rebuilds (onLp act : TreeM (Consulted σ) cmp α) := fun t =>
  ends_onLp.2 ((h t.lp).mono (fun _ _ hlp => .intro _ t.correctDepth t.stats t.journal hlp rfl)
    fun _ _ hlp => .intro _ t.correctDepth t.stats t.journal hlp rfl)

theorem rebuilds_count {f : Stats → Stats} (h : ∀ s, (f s).plain = s.plain) :
    Along Rebuilds (count f : TreeM (Consulted σ) cmp Unit) := fun t =>
  .intro t.lp t.correctDepth _ t.journal rfl (h t.stats)

theorem rebuilds_record (e : Event) : Along Rebuilds (record e : TreeM (Consulted σ) cmp Unit) := fun t =>
  .intro t.lp t.correctDepth t.stats _ rfl rfl

theorem rebuilds_replaySnapshot (s : Snapshot (Consulted σ)) :
    Along Rebuilds (replaySnapshot s : TreeM (Consulted σ) cmp Unit) :=
  .bind (rebuilds_onLp (Relaxation.along_extend _ _)) fun _ => rebuilds_count fun _ => rfl

theorem rebuilds_rebuild : Along Rebuilds (rebuild : TreeM (Consulted σ) cmp Nat) := by
  refine (rebuilds_onLp Relaxation.along_clear).bind fun _ => .bind (rebuilds_count fun _ => rfl) fun _ =>
    along_get fun t => ?_
  cases t.subroot with
  | none => exact ((rebuilds_record _).bind fun _ => along_pure _ : Along Rebuilds _) t
  | some id =>
      refine ((along_read _).bind fun n => ?_ : Along Rebuilds _) t
      split
      · exact (rebuilds_record _).bind fun _ => (rebuilds_replaySnapshot _).bind fun _ => along_pure _
      · exact along_throw _

theorem rebuilds_replay (skip : Nat) (ids : List Handle) :
    Along Rebuilds (replay skip ids : TreeM (Consulted σ) cmp Unit) := by
  induction ids generalizing skip with
  | nil => cases skip <;> exact along_pure _
  | cons id ids ih =>
      cases skip with
      | succ skip => exact ih skip
      | zero =>
          refine (along_read _).bind fun n => ?_
          split
          · exact (rebuilds_record _).bind fun _ => (rebuilds_replaySnapshot _).bind fun _ => ih 0
          · exact rebuilds_rebuild.bind fun next => Along.when (along_throw _) (ih (next - (n.depth + 1)))
          · exact ih 0

theorem rebuilds_rewind : Along Rebuilds (rewind : TreeM (Consulted σ) cmp Nat) := by
  refine along_get fun t => ?_
  cases t.correctDepth with
  | none => exact rebuilds_rebuild t
  | some depth =>
      exact ((along_read _).bind fun size => (rebuilds_record _).bind fun _ =>
        (rebuilds_onLp (Relaxation.along_shrink size)).bind fun _ => along_pure _ : Along Rebuilds _) t

theorem rebuilds_rebuildPath (target : Option Nat) :
    Along Rebuilds (rebuildPath target : TreeM (Consulted σ) cmp Unit) := by
  have hend : Along Rebuilds (modify ({ · with correctDepth := target }) : TreeM (Consulted σ) cmp PUnit) :=
    fun t => .intro t.lp target t.stats t.journal rfl rfl
  refine rebuilds_rewind.bind fun start => ?_
  cases target with
  | none => exact hend
  | some depth => exact along_get fun t => ((rebuilds_replay _ _).bind fun _ => hend : Along Rebuilds _) t

end Tree

end Rebuild

namespace Tree

variable {K K' : Charge (Consulted σ)} {start : Array Interval} {held : Handle → Contents (Consulted σ)}
  {t u t' u' : Tree (Consulted σ) cmp} {n m : Node (Consulted σ)} {id : Handle}

theorem Twin.size_eq (h : Twin t u) : t.lp.size = u.lp.size := by
  unfold Relaxation.size
  rw [h.columns, h.rows]

section Reading

variable {γ δ : Type} {V : γ → δ → Prop} {W : α → β → Prop}

theorem paired_get {f : Tree (Consulted σ) cmp → TreeM (Consulted σ) cmp α}
    {g : Tree (Consulted σ) cmp → TreeM (Consulted σ) cmp β} (h : Paired W (f t) t (g u) u) :
    Paired W (get >>= f) t (get >>= g) u := h

theorem paired_read {f : Tree (Consulted σ) cmp → Except TreeError γ} {g : Tree (Consulted σ) cmp → Except TreeError δ}
    {k : γ → TreeM (Consulted σ) cmp α} {l : δ → TreeM (Consulted σ) cmp β} (ht : Twin t u) (hfg : Meets V (f t) (g u))
    (h : ∀ a b, f t = .ok a → g u = .ok b → V a b → Paired W (k a) t (l b) u) :
    Paired W (read f >>= k) t (read g >>= l) u := by
  have hread : Agree TreeError.IsSolver (fun e t f u => e.plain = f.plain ∧ Twin t u) (read f) t (read g) u
      fun a t' b u' => (f t = .ok a ∧ g u = .ok b ∧ V a b) ∧ t' = t ∧ u' = u := by
    change Agree _ _ (liftExcept id (f t)) t (liftExcept id (g u)) u _
    cases hf : f t <;> cases hg : g u <;> rw [hf, hg] at hfg
    · exact .inr (.inr ⟨hfg, ht⟩)
    · exact hfg.elim
    · exact hfg.elim
    · exact ⟨⟨rfl, rfl, hfg⟩, rfl, rfl⟩
  refine hread.bind ?_
  rintro a _ b _ ⟨⟨hf, hg, hab⟩, rfl, rfl⟩
  exact h a b hf hg hab

end Reading

/-- Twins between two operations, with the same sizes along the path. -/
structure Abreast (K : Charge (Consulted σ)) (start : Array Interval) (t u : Tree (Consulted σ) cmp) : Prop
    extends Twin t u where
  left : Resting K start t
  right : Resting K start u
  sizes : t.sizes = u.sizes

section Loading

theorem Twin.lpForkDepth (h : Twin t u) : Meets Eq t.lpForkDepth u.lpForkDepth := by
  unfold Tree.lpForkDepth
  rw [h.lpFork]
  cases u.lpFork with
  | none => exact .refl _
  | some f =>
      refine (h.node f).bind fun n m hnm => ?_
      have hdepth : n.depth = m.depth := congrArg NodeOutline.depth hnm
      rw [hdepth]
      exact .refl _

theorem rebuildPath_recalls (hr : Resting K start t) (hm : Remembers held t) (ha : t.active = some id)
    {target : Option Nat} (ht : t.lpForkDepth = .ok target) :
    Ends (rebuildPath target) t (fun _ t' => t'.lp.contents = heldAt held t.lpFork ∧ Rebuilds t t')
      fun e _ => e.IsSolver :=
  ((rebuildPath_restores hr hm ha ht).and (rebuilds_rebuildPath target t)).mono (fun _ _ g => ⟨g.1.1, g.2⟩)
    fun _ _ g => g.1.1

/-- Twins with one memory rebuild the same relaxation, each in its own way. -/
theorem paired_rebuildPath (h : Abreast K start t u) (hm : Remembers held t) (hm' : Remembers held u)
    (ha : t.active = some id) {target : Option Nat} (ht : t.lpForkDepth = .ok target)
    (hu : u.lpForkDepth = .ok target) :
    Agree TreeError.IsSolver (fun e t f u => e.plain = f.plain ∧ Twin t u) (rebuildPath target) t (rebuildPath target) u
      fun _ t' _ u' => Twin t' u' ∧ t'.sizes = u'.sizes := by
  refine agree_of_ends (rebuildPath_recalls h.left hm ha ht) (rebuildPath_recalls h.right hm' (h.active ▸ ha) hu) ?_
  rintro _ t' _ u' ⟨hc, hreb⟩ ⟨hc', hreb'⟩
  -- The two rebuilds are not compared step by step: both come to what is remembered.
  have hcontents : t'.lp.contents = u'.lp.contents := by
    rw [hc, hc', h.lpFork]
  obtain ⟨lp, _, stats, _, hasked, hstats⟩ := hreb
  obtain ⟨lp', _, stats', _, hasked', hstats'⟩ := hreb'
  exact ⟨{ h.toTwin with
    columns := congrArg Contents.columns hcontents
    rows := congrArg Contents.rows hcontents
    asked := hasked.trans (h.asked.trans hasked'.symm)
    stats := hstats.trans (h.stats.trans hstats'.symm) }, h.sizes⟩

theorem pathSize_meets (h : t.sizes = u.sizes) (depth : Nat) : Meets Eq (t.pathSize depth) (u.pathSize depth) := by
  unfold Tree.pathSize
  rw [h]
  exact .refl _

theorem expectedSize_meets (h : t.sizes = u.sizes) (target : Option Nat) :
    Meets Eq (t.expectedSize target) (u.expectedSize target) := by
  cases target with
  | none => exact .refl _
  | some depth => exact pathSize_meets h depth

theorem twinned_installBasis : Blind (installBasis : TreeM (Consulted σ) cmp Unit) := by
  refine twinned_get fun t u ht => ?_
  rw [ht.lpFork]
  cases u.lpFork with
  | none => exact ⟨rfl, ht⟩
  | some fork =>
      refine ((twinned_node fork).bind fun n m hnm => ?_ : Twinned Eq _ _) t u ht
      have hb := Role.basis_of_outline (congrArg NodeOutline.role hnm)
      cases hn : n.role.warmStart?.bind WarmStart.basis <;> cases hm : m.role.warmStart?.bind WarmStart.basis <;>
        rw [hn, hm] at hb
      · exact alongside_pure rfl
      · cases hb
      · cases hb
      · rename_i b b'
        have hset : Consulted.Paired (fun _ _ => True) (Solver.setBasis b) (Solver.setBasis b') := by
          change Consulted.Paired _ (Consulted.consult (.setBasis b.1) _) (Consulted.consult (.setBasis b'.1) _)
          rw [show b.1 = b'.1 from Option.some.inj hb]
          exact Consulted.paired_consult _ _ _
        exact (twinned_onSolver hset).mono fun _ _ _ => rfl

theorem paired_loadActive (h : Abreast K start t u) (hm : Remembers held t) (hm' : Remembers held u)
    (ha : t.active = some id) : Paired Eq (loadActive id) t (loadActive id) u := by
  unfold loadActive
  refine paired_get (paired_read h.toTwin h.lpForkDepth ?_)
  rintro target _ htarget htarget' rfl
  refine (paired_rebuildPath h hm hm' ha htarget htarget').bind ?_
  rintro _ t₁ _ u₁ ⟨h₁, hs₁⟩
  refine paired_get ?_
  rw [h₁.size_eq, h.size_eq]
  refine (paired_liftExcept (expectedSize_meets hs₁ target) h₁).bind ?_
  rintro expected t₂ _ u₂ ⟨rfl, h₂⟩
  refine Alongside.at (.when (twinned_throw rfl) (.when (alongside_modify fun _ _ ht =>
    { ht with domains := by rw [ht.domains] }) ?_)) h₂
  exact twinned_installBasis.bind fun _ _ _ => (twinned_surrenderShare id).bind fun _ _ _ =>
    .bind (alongside_modify fun _ _ ht => { ht with focus := by rw [ht.focus] }) fun _ _ _ =>
      .bind (twinned_count fun _ => rfl) fun _ _ _ => twinned_record _ _

theorem paired_load (h : Abreast K start t u) (hm : Remembers held t) (hm' : Remembers held u) :
    Paired Eq load t load u := by
  unfold load
  refine paired_get ?_
  rw [h.active, h.focus]
  split
  · exact twinned_throw rfl t u h.toTwin
  · exact ⟨rfl, h.toTwin⟩
  · exact Alongside.at ((twinned_record _ _).bind fun _ _ _ => (twinned_surrenderShare _).bind fun _ _ _ =>
      alongside_pure rfl) h.toTwin
  · rename_i active _ ha _
    exact (paired_loadActive h hm hm' (h.active.trans ha)).bind fun _ _ _ _ g => ⟨rfl, g.2⟩

end Loading

section Retirement

theorem twinned_setPathSize (depth : Nat) (size : Extent) :
    Blind (setPathSize depth size : TreeM (Consulted σ) cmp Unit) := by
  refine twinned_get fun t u ht => ?_
  rw [ht.sized]
  split
  · exact ⟨rfl, { ht with sized := by rw [List.length_set, ht.sized, List.length_set] }⟩
  · exact twinned_throw rfl t u ht

theorem twinned_askPolicy (c d : SnapshotQuery) :
    Twinned (fun _ _ => True) (askPolicy c : TreeM (Consulted σ) cmp Bool) (askPolicy d) :=
  (twinned_record _ _).bind fun _ _ _ => twinned_get fun _ _ ht => ⟨trivial, ht⟩

theorem twinned_forwardShares : Blind (forwardShares : TreeM (Consulted σ) cmp Unit) := by
  refine twinned_get fun t u ht => ?_
  rw [ht.children, ht.lpFork]
  cases u.lpFork with
  | none => exact ⟨rfl, ht⟩
  | some fork =>
      refine ((twinned_node fork).bind fun n m hnm => ?_ : Twinned Eq _ _) t u ht
      have hw := Role.warmStart?_of_outline (congrArg NodeOutline.role hnm)
      cases hn : n.role.warmStart? <;> cases hm : m.role.warmStart? <;> rw [hn, hm] at hw
      · exact alongside_throw rfl
      · cases hw
      · cases hw
      · rename_i w v
        have halive : w.isAlive = v.isAlive := by
          have hbasis := congrArg (fun w : WarmStart Nat => w.basis.isSome) (Option.some.inj hw)
          simpa [WarmStart.outline, WarmStart.isAlive] using hbasis
        dsimp only
        rw [halive]
        split
        · exact (twinned_onWarmStart fork _ (alongside_capture _)).bind fun _ _ _ => twinned_handShares fork
        · exact (twinned_record _ _).bind fun _ _ _ => twinned_count fun _ => rfl

/-- The rest of a snapshot for `k` children, after the policy has decided what it keeps. -/
def keepSnapshot (active : Handle) (depth : Nat) (size : Extent) (k : Nat) (full : Bool)
    (kept : List (Solver.Column σ) × List (Solver.Row σ)) : TreeM σ cmp (Role σ) := do
  let basis ← onSolver Solver.getBasis
  handShares active
  count fun s => { s with captured := s.captured + 1 }
  setPathSize depth size
  modify fun t => { t with correctDepth := some depth, lpFork := some active }
  let snapshot : Snapshot σ := ⟨k, kept.1, kept.2, ⟨some basis, k⟩⟩
  if full then
    modify ({ · with subroot := some active })
    return .subroot snapshot
  else return .fork snapshot

theorem takeSnapshot_eq (active : Handle) (depth : Nat) (above : Extent) :
    (takeSnapshot active depth above : TreeM σ cmp (Role σ)) = (do
      let full ← askPolicy (← read (·.snapshotQuery depth above))
      let t ← get
      keepSnapshot active depth t.lp.size t.children.length full (t.lp.suffix (if full then .zero else above))) := rfl

theorem twinned_keepSnapshot (active : Handle) (depth : Nat) (size : Extent) (k : Nat) (full full' : Bool)
    (kept kept' : List (Solver.Column (Consulted σ)) × List (Solver.Row (Consulted σ))) :
    Twinned (fun r s : Role (Consulted σ) => r.outline = s.outline)
      (keepSnapshot active depth size k full kept : TreeM (Consulted σ) cmp (Role (Consulted σ)))
      (keepSnapshot active depth size k full' kept') := by
  refine (twinned_onSolver Consulted.paired_getBasis).bind fun b b' hb => (twinned_handShares active).bind fun _ _ _ =>
    .bind (twinned_count fun _ => rfl) fun _ _ _ => (twinned_setPathSize depth size).bind fun _ _ _ t u ht => ?_
  have hout : (⟨some b.1, k⟩ : WarmStart Nat) = ⟨some b'.1, k⟩ := by rw [hb]
  cases full <;> cases full' <;> exact ⟨congrArg (RoleOutline.snapshot k) hout, { ht with lpFork := rfl }⟩

/-- Whatever the policies say, the snapshots taken look the same from outside. -/
theorem paired_takeSnapshot (h : Abreast K start t u) (active : Handle) (depth : Nat) (above : Extent) :
    Paired (fun r s => r.outline = s.outline) (takeSnapshot active depth above) t (takeSnapshot active depth above)
      u := by
  obtain ⟨c, hc⟩ := h.left.snapshotQuery_ok depth above
  obtain ⟨d, hd⟩ := h.right.snapshotQuery_ok depth above
  have hmeets : Meets (fun _ _ => True) (t.snapshotQuery depth above) (u.snapshotQuery depth above) := by
    rw [hc, hd]
    trivial
  rw [takeSnapshot_eq]
  refine paired_read h.toTwin hmeets fun c d _ _ _ => ?_
  refine (twinned_askPolicy c d t u h.toTwin).bind fun full t₁ full' u₁ h₁ => paired_get ?_
  rw [h₁.2.size_eq, h₁.2.children]
  exact twinned_keepSnapshot active depth _ _ full full' _ _ t₁ u₁ h₁.2

theorem parentSize_meets (h : t.sizes = u.sizes) (depth : Nat) :
    Meets Eq (t.parentSize depth) (u.parentSize depth) := by
  cases depth with
  | zero => exact .refl _
  | succ depth => exact pathSize_meets h depth

theorem paired_finalRole (h : Abreast K start t u) (active : Handle) :
    Paired (fun r s => r.outline = s.outline) (finalRole active) t (finalRole active) u := by
  unfold finalRole
  refine paired_read h.toTwin (h.node active) fun n m _ _ hnm => ?_
  have hdepth : n.depth = m.depth := congrArg NodeOutline.depth hnm
  dsimp only
  rw [hdepth]
  refine paired_read h.toTwin (parentSize_meets h.sizes m.depth) ?_
  rintro above _ _ _ rfl
  refine paired_get ?_
  rw [h.size_eq, h.children, h.focus]
  split
  · exact ⟨rfl, h.toTwin⟩
  · split
    · exact paired_takeSnapshot h active _ above
    · exact (twinned_forwardShares t u h.toTwin).bind fun _ _ _ _ g => ⟨rfl, g.2⟩

theorem surrenderShare_rests (hK : Custody K K') (h : Resting K start t) (ha : t.active = some id) :
    Ends (surrenderShare id) t (fun _ t' => Resting K start t' ∧ t'.sizes = t.sizes) fun _ _ => False := by
  obtain ⟨n, hn, -⟩ := h.actor ha
  refine (surrenderShare_spec hK.toRedemption h.toSound rfl hn).mono ?_ fun _ _ h => h
  rintro _ _ ⟨hsound, nodes, solver, stats, journal, m, rfl, hmatch, -⟩
  exact ⟨h.of_kept hsound (Kept.of_steady hmatch solver stats journal), rfl⟩

theorem paired_retire (hK : Custody K K') (h : Abreast K start t u) : Paired Eq retire t retire u := by
  unfold retire
  refine paired_get ?_
  rw [h.active]
  cases hu : u.active with
  | none => exact ⟨rfl, h.toTwin⟩
  | some a =>
      refine ((twinned_surrenderShare a t u h.toTwin).and (surrenderShare_rests hK h.left (h.active.trans hu))
        (surrenderShare_rests hK h.right hu)).bind ?_
      rintro _ t₁ _ u₁ ⟨⟨-, h₁⟩, ⟨hr, hs⟩, hr', hs'⟩
      have habreast : Abreast K start t₁ u₁ := ⟨h₁, hr, hr', hs.trans (h.sizes.trans hs'.symm)⟩
      refine paired_get ((paired_finalRole habreast a).bind ?_)
      rintro r t₂ s u₂ ⟨hrs, h₂⟩
      refine Alongside.at ((twinned_node a).bind fun n m hnm => (twinned_record _ _).bind fun _ _ _ => ?_) h₂
      rw [show n.log = m.log from congrArg NodeOutline.log hnm]
      exact (twinned_setNode a (outline_withLog hnm hrs _)).bind fun _ _ _ =>
        alongside_modify fun _ _ ht => { ht with active := rfl, focus := rfl }

end Retirement

section Activation

theorem paired_deactivate (hK : Custody K K') (h : Abreast K start t u) : Paired Eq deactivate t deactivate u := by
  refine (paired_retire hK h).bind fun _ t₁ _ u₁ h₁ => Alongside.at ?_ h₁.2
  exact (twinned_flush _).bind fun _ _ _ => (twinned_flush _).bind fun _ _ _ =>
    (twinned_follow ⟨rfl, rfl, rfl⟩ none).discard.bind fun _ _ _ => (twinned_record _ _).bind fun _ _ _ =>
      alongside_pure rfl

theorem clearTheWay_routes (hK : Custody K K') (hr : Resting K start t) (he : Ended K t t')
    (hn : t.nodes.get? id = some n) (hw : n.role.name.isWaiting = true) :
    Ends (clearTheWay id n.role.name) t' (fun _ t'' => ∃ r, t''.route id = .ok r) fun _ _ => False := by
  obtain ⟨m, hm, hname, hoff⟩ := he.waits hr hn hw
  rw [← hname] at hw ⊢
  refine (clearTheWay_spec hK he.sound hm hw).mono (fun _ t'' hcleared => ?_) fun _ _ h => h
  obtain ⟨r, hroute, -⟩ := route_spec hcleared.sound hcleared.self hoff
  exact ⟨r, hroute⟩

theorem paired_switchTo (hK : Custody K K') (h : Abreast K start t u) (id : Handle) :
    Paired Eq (switchTo id) t (switchTo id) u := by
  refine paired_read h.toTwin (h.node id) fun n m hn hm hnm => ?_
  have hrole : n.role.outline = m.role.outline := congrArg NodeOutline.role hnm
  have hwaits := Role.isWaiting_of_outline hrole
  dsimp only
  cases hw : m.role.name.isWaiting with
  | false =>
      rw [hwaits, hw]
      -- The node may be a Fork in one tree and a Subroot in the other.
      have hplain := Role.name_plain_of_outline hrole
      exact .inr (.inr ⟨congrArg (fun r => TreeError.misuse (.activateRole r)) hplain, h.toTwin⟩)
  | true =>
      have hname := Role.name_eq_of_outline hrole hw
      rw [hw] at hwaits
      simp only [hwaits, if_true]
      refine ((paired_retire hK h).and (retire_spec hK h.left) (retire_spec hK h.right)).bind ?_
      rintro _ t₁ _ u₁ ⟨⟨-, h₁⟩, he, he'⟩
      have hfinds := clearTheWay_routes hK h.right he' (node_eq_ok.1 hm) hw
      rw [← hname] at hfinds ⊢
      refine ((twinned_clearTheWay id _ t₁ u₁ h₁).and (clearTheWay_routes hK h.left he (node_eq_ok.1 hn) hwaits)
        hfinds).bind ?_
      rintro _ t₂ _ u₂ ⟨⟨-, h₂⟩, ⟨r, hroute⟩, s, hroute'⟩
      -- The search for the Subroot above need not go the same way, so both routes are known to exist first.
      have hmeets : Meets Route.Alike (t₂.route id) (u₂.route id) := by
        have halike := h₂.route hroute hroute'
        rwa [hroute, hroute']
      refine paired_read h₂ hmeets fun r s _ _ halike => (twinned_follow halike (some id) t₂ u₂ h₂).bind ?_
      rintro outcome t₃ _ u₃ ⟨rfl, h₃⟩
      refine (twinned_noteEmpty outcome t₃ u₃ h₃).bind fun _ t₄ _ u₄ h₄ => paired_get ?_
      rw [h₄.2.path]
      refine Alongside.at (.bind (twinned_count fun _ => rfl) fun _ _ _ => (twinned_record _ _).bind fun _ _ _ =>
        twinned_report.bind fun _ _ _ => ?_) h₄.2
      cases outcome <;> exact alongside_pure rfl

theorem paired_activate (hK : Custody K K') (h : Abreast K start t u) (target : Option Handle) :
    Paired Eq (activate target) t (activate target) u := by
  cases target with
  | none => exact paired_deactivate hK h
  | some id =>
      refine paired_get ?_
      rw [h.active]
      split
      · exact ⟨rfl, h.toTwin⟩
      · exact paired_switchTo hK h id

end Activation

end Tree

end BranchBound
