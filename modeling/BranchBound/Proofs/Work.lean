import BranchBound.Proofs.Fidelity
import BranchBound.Proofs.Turns

namespace BranchBound

variable {σ : Type} [Solver σ] {cmp : NodeOrder}

/-- What was done for a node since it became active. -/
structure Work (σ : Type) [Solver σ] where
  isLoaded : Bool
  /-- What the last solve that succeeded reported. -/
  status : Option SolveStatus
  /-- The columns and rows that were added, in order. -/
  added : Contents σ

namespace Work

def none : Work σ := ⟨false, .none, .empty⟩

def add (w : Work σ) (c : Contents σ) : Work σ := { w with added := w.added.append c }

end Work

namespace Tree

variable {K : Charge σ} {start : Array Interval} {t t₁ u : Tree σ cmp} {held : Handle → Contents σ} {w : Work σ}
  {id : Handle} {n m : Node σ}

def noteWork (w : Work σ) (t : Tree σ cmp) : Op σ → Work σ
  | .addColumn c => match addColumn c t with
      | .ok _ _ => w.add ⟨[c], []⟩
      | .error _ _ => w
  | .addRow r => match addRow r t with
      | .ok _ _ => w.add ⟨[], [r]⟩
      | .error _ _ => w
  | .solve => match solve t with
      | .ok s _ => { w with status := some s }
      | .error _ _ => w
  | .load => match load t with
      | .ok .loaded _ => { w with isLoaded := true }
      | _ => w
  | .activate target => match activate target t with
      | .ok .unchanged _ | .error _ _ => w
      | .ok _ _ => .none
  | .clear => .none
  | _ => w

def work (t : Tree σ cmp) (w : Work σ) : List (Op σ) → Work σ
  | [] => w
  | op :: ops => work (left op.perform t) (noteWork w t op) ops

structure Undisturbed (t u : Tree σ cmp) : Prop where
  active : u.active = t.active
  lpFork : u.lpFork = t.lpFork
  isLoaded : u.focus.isLoaded = t.focus.isLoaded
  isSolved : u.focus.isSolved = t.focus.isSolved
  contents : u.lp.contents = t.lp.contents

instance : IsPreorder (Tree σ cmp) Undisturbed where
  refl _ := ⟨rfl, rfl, rfl, rfl, rfl⟩
  trans _ _ _ h h' := ⟨h'.active.trans h.active, h'.lpFork.trans h.lpFork, h'.isLoaded.trans h.isLoaded,
    h'.isSolved.trans h.isSolved, h'.contents.trans h.contents⟩

section Undisturbed

theorem Kept.undisturbed {gone : List Handle} (h : Kept gone t u) : Undisturbed t u where
  active := h.active
  lpFork := h.lpFork
  isLoaded := by rw [h.focus]
  isSolved := by rw [h.focus]
  contents := by
    unfold Relaxation.contents
    rw [h.columns, h.rows]

theorem Sprouts.undisturbed (h : Sprouts t u id) : Undisturbed t u where
  active := h.active
  lpFork := h.lpFork
  isLoaded := by rw [h.focus]
  isSolved := by rw [h.focus]
  contents := by rw [h.lp]

theorem undisturbed_setNode (id : Handle) (n : Node σ) : Along Undisturbed (setNode id n : TreeM σ cmp Unit) :=
  fun _ => ⟨rfl, rfl, rfl, rfl, rfl⟩

theorem undisturbed_logChange (id : Handle) (n : Node σ) (c : BoundChange) :
    Along Undisturbed (logChange id n c : TreeM σ cmp Unit) :=
  (along_liftExcept _ _).bind fun _ => undisturbed_setNode id _

theorem undisturbed_noteEmpty (o : Outcome) : Along Undisturbed (noteEmpty o : TreeM σ cmp Unit) := by
  cases o with
  | feasible => exact along_pure _
  | infeasible v => exact fun t => ⟨rfl, rfl, rfl, rfl, rfl⟩

theorem undisturbed_changeBound (id : Handle) (v : Nat) (side : Side) (bound : Binary64) :
    Along Undisturbed (changeBound id v side bound : TreeM σ cmp Outcome) := by
  refine along_get fun t => Along.when (along_throw _) ((along_read _).bind fun n => ?_) t
  refine (along_liftExcept _ _).bind fun x => ?_
  split
  · refine (undisturbed_logChange _ _ _).bind fun _ => Along.bind ?_ fun _ =>
      (undisturbed_noteEmpty _).bind fun _ => along_pure _
    exact fun t => ⟨rfl, rfl, rfl, rfl, rfl⟩
  · exact (undisturbed_logChange _ _ _).bind fun _ => along_pure _
  · exact along_throw _

theorem undisturbed_constrain (id : Handle) (c : Nat) : Along Undisturbed (constrain id c : TreeM σ cmp Unit) := by
  refine (along_read _).bind fun n => ?_
  split
  · exact undisturbed_setNode id _
  · exact undisturbed_setNode id _
  · exact along_throw _

theorem undisturbed_raise (id : Handle) (bound : Binary64) : Along Undisturbed (raise id bound : TreeM σ cmp Unit) := by
  refine (along_read _).bind fun n => ?_
  have hlift : Along Undisturbed (liftChildren bound : TreeM σ cmp Unit) :=
    along_get fun t => Along.forM (fun c => (along_read _).bind fun n => undisturbed_setNode c _) _ t
  dsimp only
  split
  · exact along_pure _
  · refine (undisturbed_setNode id _).bind fun _ => ?_
    split
    · exact fun t => ⟨rfl, rfl, rfl, rfl, rfl⟩
    · exact hlift
    · exact along_pure _

end Undisturbed

def Extends (c : Contents σ) (t u : Tree σ cmp) : Prop :=
  t.Ready ∧ ∃ lp domains, u = { t with lp := lp, domains := domains } ∧ lp.contents = t.lp.contents.append c

section Extends

theorem addColumn_extends (c : Solver.Column σ) (t : Tree σ cmp) :
    Ends (addColumn c) t (fun _ => Extends ⟨[c], []⟩ t) fun _ => Undisturbed t := by
  unfold addColumn
  refine Ends.bind (R := fun _ u => u = t ∧ t.Ready)
    (requireLoaded_spec _ (fun hr => ⟨rfl, hr⟩) fun _ => refl_of Undisturbed t) ?_
  rintro _ _ ⟨rfl, hready⟩
  rw [ends_bind, ends_onLp]
  apply (Relaxation.addColumn_contents c _).mono
  · intro _ lp hlp
    exact ⟨hready, lp, _, rfl, hlp⟩
  · intro _ lp hlp
    exact ⟨rfl, rfl, rfl, rfl, hlp⟩

theorem addRow_extends (r : Solver.Row σ) (t : Tree σ cmp) :
    Ends (addRow r) t (fun _ => Extends ⟨[], [r]⟩ t) fun _ => Undisturbed t := by
  unfold addRow
  refine Ends.bind (R := fun _ u => u = t ∧ t.Ready)
    (requireLoaded_spec _ (fun hr => ⟨rfl, hr⟩) fun _ => refl_of Undisturbed t) ?_
  rintro _ _ ⟨rfl, hready⟩
  rw [ends_onLp]
  apply (Relaxation.addRow_contents r _).mono
  · intro _ lp hlp
    exact ⟨hready, lp, _, rfl, hlp⟩
  · intro _ lp hlp
    exact ⟨rfl, rfl, rfl, rfl, hlp⟩

theorem undisturbed_onSolver {α : Type} (act : SolverM σ α) : Along Undisturbed (onSolver act : TreeM σ cmp α) := by
  intro t
  rw [ends_onSolver]
  exact (ends_trivial act _).mono (fun _ _ _ => ⟨rfl, rfl, rfl, rfl, rfl⟩) fun _ _ _ => ⟨rfl, rfl, rfl, rfl, rfl⟩

theorem solve_reports (t : Tree σ cmp) :
    Ends solve t (fun s u => t.Ready ∧ Undisturbed { t with focus := { t.focus with isSolved := s.isSolved } } u)
      fun _ => Undisturbed t := by
  unfold solve
  refine Ends.bind (R := fun _ u => u = t ∧ t.Ready)
    (requireLoaded_spec _ (fun hr => ⟨rfl, hr⟩) fun _ => refl_of Undisturbed t) ?_
  rintro _ _ ⟨rfl, hready⟩
  have hsent : Along Undisturbed (sendTouched : TreeM σ cmp Unit) := by
    refine along_get fun t => ?_
    rw [ends_bind, ends_set]
    refine (Along.forM (fun v => (along_read _).bind fun x => undisturbed_onSolver _) _).after ?_
    exact ⟨rfl, rfl, rfl, rfl, rfl⟩
  refine (hsent _).bind fun _ u hu => ((undisturbed_onSolver Solver.solve).after hu).bind fun status v hv => ?_
  simp only [ends_bind, ends_modify, ends_get, ends_record, ends_pure]
  exact ⟨hready, hv.active, hv.lpFork, hv.isLoaded, rfl, hv.contents⟩

end Extends

/-- The tree knows of the active node's work what the account says. -/
structure Worked (held : Handle → Contents σ) (w : Work σ) (t : Tree σ cmp) : Prop where
  isLoaded : t.focus.isLoaded = w.isLoaded
  isSolved : t.focus.isSolved = true → w.status.any SolveStatus.isSolved = true
  added : w.isLoaded = true → t.lp.contents = (heldAt held t.lpFork).append w.added
  idle : w.isLoaded = false → w = .none

namespace Worked

theorem none (hl : t.focus.isLoaded = false) (hs : t.focus.isSolved = false) : Worked held .none t where
  isLoaded := hl
  isSolved h := by
    rw [hs] at h
    cases h
  added h := nomatch h
  idle _ := rfl

theorem undisturbed (h : Worked held w t) (hu : Undisturbed t u) : Worked held w u where
  isLoaded := hu.isLoaded.trans h.isLoaded
  isSolved hs := h.isSolved (hu.isSolved.symm.trans hs)
  added hl := by
    rw [hu.contents, hu.lpFork]
    exact h.added hl
  idle := h.idle

theorem extend (h : Worked held w t) {c : Contents σ} (hu : Extends c t u) : Worked held (w.add c) u := by
  obtain ⟨hready, lp, domains, rfl, hc⟩ := hu
  have hl : w.isLoaded = true := h.isLoaded.symm.trans hready.2
  refine ⟨h.isLoaded, h.isSolved, fun _ => ?_, fun hno => nomatch hl.symm.trans hno⟩
  change lp.contents = _
  rw [hc, h.added hl]
  exact Contents.append_assoc _ _ _

theorem solve (h : Worked held w t) (hready : t.Ready) {s : SolveStatus}
    (hu : Undisturbed { t with focus := { t.focus with isSolved := s.isSolved } } u) :
    Worked held { w with status := some s } u := by
  have hl : w.isLoaded = true := h.isLoaded.symm.trans hready.2
  refine ⟨hu.isLoaded.trans h.isLoaded, fun hsolved => ?_, fun _ => ?_, fun hno => nomatch hl.symm.trans hno⟩
  · simpa using hu.isSolved.symm.trans hsolved
  · rw [hu.contents, hu.lpFork]
    exact h.added hl

theorem load (h : Worked held w t) (hl : t.focus.isLoaded = false) (hf : u.focus = { t.focus with isLoaded := true })
    (hc : u.lp.contents = heldAt held u.lpFork) : Worked held { w with isLoaded := true } u := by
  cases h.idle (h.isLoaded.symm.trans hl)
  refine ⟨by rw [hf], fun hs => ?_, fun _ => ?_, nofun⟩
  · rw [hf] at hs
    exact h.isSolved hs
  · rw [hc]
    exact (Contents.append_empty _).symm

end Worked

theorem load_unloaded (t : Tree σ cmp) :
    Ends load t (fun r _ => r = .loaded → t.focus.isLoaded = false) fun _ _ => True := by
  unfold load
  rw [ends_bind, ends_get]
  split
  · trivial
  · exact nofun
  · exact (ends_trivial _ t).mono (fun _ _ _ => by simp_all) fun _ _ _ => trivial
  · rename_i hfocus
    exact (ends_trivial _ t).mono (fun _ _ _ _ => by rw [hfocus]) fun _ _ _ => trivial

theorem Reloads.focus (h : Reloads t u) : u.focus = { t.focus with isLoaded := true } := by
  obtain ⟨target, t₁, -, hrun, hdone, -⟩ := h
  obtain ⟨-, -⟩ := (rebuildPath_alone t target).of_ok hrun
  exact hdone.focus

theorem LoadFails.flags {K K' : Charge σ} {e : TreeError} (h : LoadFails K K' start t e u)
    (hl : t.focus.isLoaded = false) :
    u.focus.isLoaded = false ∧ (u.focus.isSolved = true → t.focus.isSolved = true) := by
  obtain ⟨t₁, ⟨-, -⟩, hworks⟩ := h.alone
  refine ⟨hworks.isLoaded.trans hl, fun hs => ?_⟩
  exact (hworks.isSolved hs).resolve_right fun h => nomatch hl.symm.trans h

section Account

theorem Worked.same (hw : Worked held w u) (ha : u.active = t.active) : Worked (noteChange held t u) w u := by
  rwa [noteChange_same ha]

theorem Worked.stays (hw : Worked held w t) (hu : Undisturbed t u) : Worked (noteChange held t u) w u :=
  (hw.undisturbed hu).same hu.active

theorem Worked.adds (hw : Worked held w t) {c : Contents σ} {act : TreeM σ cmp Unit}
    (hact : Ends act t (fun _ => Extends c t) fun _ => Undisturbed t) :
    Ends act t (fun _ u => Worked (noteChange held t u) (w.add c) u) fun _ u => Worked (noteChange held t u) w u := by
  refine hact.mono (fun _ u hu => ?_) fun _ _ => hw.stays
  have hadded : Worked held (w.add c) u := hw.extend hu
  obtain ⟨-, lp, domains, rfl, -⟩ := hu
  exact hadded.same rfl

theorem solve_works (hw : Worked held w t) :
    Ends solve t (fun s u => Worked (noteChange held t u) { w with status := some s } u)
      fun _ u => Worked (noteChange held t u) w u :=
  (solve_reports t).mono (fun _ _ hu => (hw.solve hu.1 hu.2).same hu.2.active) fun _ _ => hw.stays

theorem activate_works (ht : Resting (fun _ _ => True) start t) (hw : Worked held w t) (target : Option Handle) :
    Ends (activate target) t (fun _ u => Worked (noteChange held t u) (noteWork w t (.activate target)) u)
      fun _ u => Worked (noteChange held t u) (noteWork w t (.activate target)) u := by
  refine ((activate_cases Upkeep.nothing.toCustody ht target).and (ends_run _ t)).mono ?_ ?_
  · rintro a u ⟨⟨rfl, rfl, -⟩ | ⟨hne, -, harrives, -⟩, hrun⟩
    · simp only [noteWork, hrun]
      exact hw.stays (refl_of Undisturbed _)
    · obtain ⟨-, -, -, -, hfollowed⟩ := harrives.switched
      have hnew : noteWork w t (.activate target) = .none := by
        cases a <;> simp_all [noteWork]
      rw [hnew]
      exact .none hfollowed.isLoaded hfollowed.isSolved
  · rintro e u ⟨⟨-, -, -, rfl, -⟩ | hbalks, hrun⟩
    · simp only [noteWork, hrun]
      exact hw.stays (refl_of Undisturbed _)
    · simp only [noteWork, hrun]
      exact hw.stays hbalks.kept.undisturbed

theorem load_works (ht : Resting (fun _ _ => True) start t) (h : Tracks held t) (hw : Worked held w t) :
    Ends load t (fun _ u => Worked (noteChange held t u) (noteWork w t .load) u)
      fun _ u => Worked (noteChange held t u) (noteWork w t .load) u := by
  refine ((load_spec Upkeep.nothing.toRebuilding ht).and ((load_unloaded t).and (ends_run _ t))).mono ?_ ?_
  · rintro (_ | _ | _) u ⟨⟨hu, hends⟩, hfresh, hrun⟩
    · simp only [noteWork, hrun]
      obtain ⟨a, ha⟩ := Option.isSome_iff_exists.1 hends.1
      obtain ⟨hactive, -, hcontents, -⟩ := h.reloads ht hu ha hends.2
      exact (hw.load (hfresh rfl) hends.2.focus hcontents).same hactive
    · simp only [noteWork, hrun]
      obtain rfl : u = t := hends
      exact hw.stays (refl_of Undisturbed _)
    · simp only [noteWork, hrun]
      exact hw.stays (Kept.undisturbed hends)
  · rintro e u ⟨⟨rfl, -⟩ | ⟨-, hl, hfail⟩, -, hrun⟩
    · simp only [noteWork, hrun]
      exact hw.stays (refl_of Undisturbed _)
    · simp only [noteWork, hrun]
      obtain ⟨hl', hs⟩ := hfail.flags hl
      have hidle := hw.isLoaded.symm.trans hl
      have hkept : Worked held w u := ⟨hl'.trans hidle.symm, fun h => hw.isSolved (hs h),
        fun hno => (nomatch hidle.symm.trans hno), hw.idle⟩
      exact hkept.same hfail.active

theorem perform_works (ht : Resting (fun _ _ => True) start t) (h : Tracks held t) (hw : Worked held w t) (op : Op σ) :
    Worked (noteChange held t (left op.perform t)) (noteWork w t op) (left op.perform t) := by
  have hK : Upkeep (σ := σ) (fun _ _ => True) (fun _ _ => True) := .nothing
  have halong : ∀ {m : TreeM σ cmp Unit}, Along Undisturbed m →
      Ends m t (fun _ u => Worked (noteChange held t u) w u) fun _ u => Worked (noteChange held t u) w u :=
    fun hm => (hm t).mono (fun _ _ => hw.stays) fun _ _ => hw.stays
  refine Ends.left (P := fun u => Worked (noteChange held t u) (noteWork w t op) u) ?_
  cases op with
  | create bound estimate =>
      refine ends_discard.2 ((create_spec hK.toCustody ht bound estimate).mono
        (fun _ _ h' => hw.stays h'.2.undisturbed) ?_)
      rintro e u ⟨rfl, -⟩
      exact hw.stays (refl_of Undisturbed _)
  | changeBound id v side bound => exact halong (undisturbed_changeBound id v side bound).discard
  | constrain id c => exact halong (undisturbed_constrain id c)
  | raise id bound => exact halong (undisturbed_raise id bound)
  | addColumn c =>
      refine ((hw.adds (addColumn_extends c t)).and (ends_run _ t)).mono ?_ ?_ <;>
      · rintro _ u ⟨hu, hrun⟩
        simpa only [noteWork, hrun] using hu
  | addRow r =>
      refine ((hw.adds (addRow_extends r t)).and (ends_run _ t)).mono ?_ ?_ <;>
      · rintro _ u ⟨hu, hrun⟩
        simpa only [noteWork, hrun] using hu
  | solve =>
      refine ends_discard.2 (((solve_works hw).and (ends_run _ t)).mono ?_ ?_) <;>
      · rintro _ u ⟨hu, hrun⟩
        simpa only [noteWork, hrun] using hu
  | activate target => exact ends_discard.2 (activate_works ht hw target)
  | load => exact ends_discard.2 (load_works ht h hw)
  | prune cutoff =>
      exact ends_discard.2 ((prune_spec hK.toCustody ht cutoff).mono
        (fun _ _ ⟨_, _, hkept⟩ => hw.stays hkept.undisturbed) fun _ _ h' => h'.elim)
  | free id =>
      refine (free_spec hK.toCustody ht id).mono (fun _ _ ⟨_, _, hkept⟩ => hw.stays hkept.undisturbed) ?_
      rintro e u ⟨rfl, -⟩
      exact hw.stays (refl_of Undisturbed _)
  | pop =>
      have hqueue : ∀ (t : Tree σ cmp) (r : Frontier.Request),
          Undisturbed t { t with frontier := r.perform t.frontier } := fun _ _ => ⟨rfl, rfl, rfl, rfl, rfl⟩
      exact halong (along_pop hqueue).discard
  | clear =>
      have hvacant : ∀ {u : Tree σ cmp}, Vacant u → Worked (noteChange held t u) (noteWork w t .clear) u := by
        intro u hv
        exact .none (by rw [hv.focus]; rfl) (by rw [hv.focus]; rfl)
      exact (clear_spec hK.toRebuilding ht).mono (fun _ _ h => hvacant h.2.1.toVacant) fun _ _ h => hvacant h.2.2.toVacant
  | setPolicy p => exact halong fun t => ⟨rfl, rfl, rfl, rfl, rfl⟩

end Account

theorem run_works (ht : Resting (fun _ _ => True) start t) (ops : List (Op σ)) (h : Tracks held t)
    (hw : Worked held w t) : ∃ held', Tracks held' (t.run ops) ∧ Worked held' (t.work w ops) (t.run ops) := by
  induction ops generalizing t held w with
  | nil => exact ⟨held, h, hw⟩
  | cons op ops ih =>
      obtain ⟨ht', h'⟩ := perform_follows h ht op
      exact ih ht' h' (perform_works ht h hw op)

/-- What the role that a node ended its turn with says of its work. -/
structure Earned (w : Work σ) (t₁ : Tree σ cmp) (a : Handle) (r : Role σ) : Prop where
  processed : r.name.isProcessed = true
  deadend : r = .deadend → ∀ k m, t₁.nodes.get? k = some m → m.parent ≠ some a
  snapshot : r.isSnapshot = true → w.isLoaded = true ∧ w.status.any SolveStatus.isSolved = true ∧
    (w.added.columns ≠ [] ∨ w.added.rows ≠ [])
  fork : ∀ s, r = .fork s → s.contents = w.added

theorem Sound.deadend {s : Stage} (h : Sound K s t) (hn : t.nodes.get? id = some n) (hr : n.role = .deadend)
    {k : Handle} (hm : t.nodes.get? k = some m) : m.parent ≠ some id := by
  intro hp
  obtain hact | hopen := h.family.parent k m id n hm hp hn
  · rw [hr] at hact
    cases hact
  · rw [hr] at hopen
    cases hopen

/-- Whatever the relaxation holds beyond what was left above is what was added. -/
theorem Worked.beyond (hw : Worked held w t) (h : Tracks held t) (ht : Resting K start t) (ha : t.active = some id)
    (hn : t.nodes.get? id = some n) {above : Extent} (hsolved : t.focus.isSolved = true)
    (habove : t.parentSize n.depth = .ok above) :
    w.isLoaded = true ∧ t.lp.suffix above = (w.added.columns, w.added.rows) ∧
      t.lp.size = above.grow w.added.columns.length w.added.rows.length := by
  have hloaded : w.isLoaded = true := hw.isLoaded.symm.trans (h.loaded hsolved)
  have hcontents := hw.added hloaded
  rw [h.parentSize_eq ht ha hn habove]
  refine ⟨hloaded, Relaxation.suffix_append hcontents, ?_⟩
  rw [← Relaxation.size_contents, hcontents, Contents.size_append]

theorem retire_earned (ht : Resting (fun _ _ => True) start t) (h : Tracks held t) (hw : Worked held w t)
    (hrun : retire t = .ok ⟨⟩ t₁) (ha : t.active = some id) :
    ∃ m, t₁.nodes.get? id = some m ∧ Earned w t₁ id m.role := by
  have hended := (retire_spec Upkeep.nothing.toCustody ht).of_ok hrun
  obtain ⟨n, m, hn, hm, hleaves⟩ := hended.leaves id ha
  have hprocessed : m.role.name.isProcessed = true := by
    obtain ⟨n', hn', hact, -⟩ := ht.actor ha
    cases hn.symm.trans hn'
    obtain ⟨m', hm', hturned⟩ := hended.nodes.forth id n hn
    cases hm.symm.trans hm'
    cases hturned with
    | waits hidle => exact absurd (by rw [hact]; rfl) hidle
    | done _ hwaits hidle => exact RoleName.isProcessed_of hwaits hidle
  have hdeadend : m.role = .deadend → ∀ k o, t₁.nodes.get? k = some o → o.parent ≠ some id :=
    fun hr k o ho => hended.sound.deadend hm hr ho
  refine ⟨m, hm, ?_⟩
  cases hleaves with
  | nothing hlayer =>
      have hplain : m.role.isSnapshot = false := by
        rw [Role.isSnapshot_eq, hlayer]
        rfl
      refine ⟨hprocessed, hdeadend, fun hsnap => (nomatch hplain.symm.trans hsnap), fun s hs => ?_⟩
      rw [hs] at hplain
      cases hplain
  | snapshot full above hsolved habove hgrown hlayer =>
      obtain ⟨hloaded, hsuffix, hsize⟩ := hw.beyond h ht ha hn hsolved habove
      refine ⟨hprocessed, hdeadend, fun _ => ⟨hloaded, hw.isSolved hsolved, ?_⟩, fun s hs => ?_⟩
      · simp only [hsize, Extent.grow] at hgrown
        refine hgrown.imp (fun hlt hnil => ?_) fun hlt hnil => ?_
        · simp [hnil] at hlt
        · simp [hnil] at hlt
      · rw [hs] at hlayer
        cases full with
        | true => cases hlayer
        | false =>
            simp only [Role.layer, hsuffix, Bool.false_eq_true, if_false] at hlayer
            simpa using hlayer

section Runs

variable {solver : σ} {domains : Domains} {settings : Settings} {t₀ : Tree σ cmp}

theorem nextNumber_of_ofSettings (h : ofSettings solver domains settings = .ok t₀) : t₀.nextNumber = 0 := by
  unfold ofSettings at h
  split at h
  · cases h
  · cases h
    rfl

theorem Vacant.counts (h : Vacant t) (hs : t.stats = {}) (hn : t.nextNumber = 0) : Numbered t ∧ Counts [] t := by
  have hnobody : ∀ k n, t.nodes.get? k ≠ some n := fun k n hn => nomatch (h.nodes k).symm.trans hn
  refine ⟨⟨fun k n hk => absurd hk (hnobody k n), fun k n j m hk => absurd hk (hnobody k n)⟩,
    .nil, nofun, fun k n hk => absurd hk (hnobody k n), ?_, ?_⟩
  · rw [hs]
    rfl
  · rw [hs, hn]

/-- Roles only move forward, and no node gets the turn twice. What a node is when its turn ends it stays, and its turn
has earned it. -/
theorem roles_move_forward (h₀ : ofSettings solver domains settings = .ok t₀) (ops : List (Op σ)) :
    Numbered (t₀.run ops) ∧
      (∀ more k n j m, (t₀.run ops).nodes.get? k = some n → ((t₀.run ops).run more).nodes.get? j = some m →
        m.number = n.number → j = k ∧ Evolves n m) ∧
      (∀ op, Moves op (t₀.run ops) (left op.perform (t₀.run ops))) ∧
      (t₀.turns ops).Nodup ∧ (t₀.run ops).stats.activations = (t₀.turns ops).length ∧
      (t₀.run ops).stats.activations ≤ (t₀.run ops).stats.created ∧
      ∀ a t₁, (t₀.run ops).active = some a → retire (t₀.run ops) = .ok ⟨⟩ t₁ →
        ∃ m, t₁.nodes.get? a = some m ∧ Earned (t₀.work .none ops) t₁ a m.role := by
  have hnew := resting_of_ofSettings (K := fun _ _ => True) h₀ trivial
  obtain ⟨hvacant, hstats, -⟩ := vacant_of_ofSettings h₀
  have hrest := run_resting .nothing hnew ops
  obtain ⟨hnum₀, hcounts₀⟩ := hvacant.counts hstats (nextNumber_of_ofSettings h₀)
  obtain ⟨hnum, hcounts⟩ := run_counts hnew hnum₀ hcounts₀ ops
  have htracks₀ : Tracks (fun _ => .empty) t₀ := .vacant hvacant
  obtain ⟨held, htracks, hworked⟩ := run_works hnew ops htracks₀
    (.none (by rw [hvacant.focus]; rfl) (by rw [hvacant.focus]; rfl))
  refine ⟨hnum, fun more k n j m hn hm heq => hnum.evolves hrest more hn hm heq, perform_moves hrest, hcounts.nodup,
    hcounts.activations, hcounts.activations_le, fun a t₁ ha hrun => ?_⟩
  exact retire_earned hrest htracks hworked hrun ha

/-- The root is a Fork when its first child becomes active, and still is when its second one does. -/
theorem roles_move_forward_to_fork :
    ∃ t₀ : Tree ScriptedSolver SelectionRule.bestBound.order, ofSettings .fresh (.free 1) {} = .ok t₀ ∧
      let ops : List (Op ScriptedSolver) := [.create 0 0, .activate (some ⟨0, 0⟩), .load, .addColumn (7 : Int), .solve,
        .addRow (9 : Int), .create 0 0, .create 0 0]
      let more : List (Op ScriptedSolver) := [.activate (some ⟨1, 0⟩), .activate (some ⟨2, 0⟩)]
      let t := t₀.run ops
      (∃ n m, t.nodes.get? ⟨0, 0⟩ = some n ∧ (t.run more).nodes.get? ⟨0, 0⟩ = some m ∧ Evolves n m) ∧
        (∃ t₁ m s, retire t = .ok ⟨⟩ t₁ ∧ t₁.nodes.get? ⟨0, 0⟩ = some m ∧ m.role = .fork s ∧
          s.contents = ⟨[(7 : Int)], [(9 : Int)]⟩) ∧
        t₀.turns (ops ++ more) = [0, 1, 2] ∧ (t₀.turns (ops ++ more)).Nodup := by
  refine ⟨_, rfl, ?_⟩
  intro ops more t
  have h := @roles_move_forward ScriptedSolver _ SelectionRule.bestBound.order .fresh (.free 1) {} _ rfl
  obtain ⟨-, hevolves, -, -, -, -, hearned⟩ := h ops
  have hroot : (t.nodes.get? ⟨0, 0⟩).any fun n => ((t.run more).nodes.get? ⟨0, 0⟩).any fun m =>
      m.number = n.number := by decide +kernel
  simp only [Option.any_eq_true, decide_eq_true_eq] at hroot
  obtain ⟨n, hn, m, hm, hnumber⟩ := hroot
  refine ⟨⟨n, m, hn, hm, (hevolves more _ n _ m hn hm hnumber).2⟩, ?_, by decide +kernel, (h (ops ++ more)).2.2.2.1⟩
  have hrun := eq_ok_of_returns (m := retire) (s := t) (a := ⟨⟩) (by decide +kernel)
  obtain ⟨m, hm, hrole⟩ := hearned ⟨0, 0⟩ _ (by decide +kernel) hrun
  have hfork : ((left retire t).nodes.get? ⟨0, 0⟩).any fun m => m.role.name = .fork := by decide +kernel
  rw [hm, Option.any_some, decide_eq_true_eq] at hfork
  cases hr : m.role <;> rw [hr] at hfork <;> first | (cases hfork; done) | skip
  rename_i s
  refine ⟨_, m, s, hrun, hm, hr, ?_⟩
  rw [hrole.fork s hr]
  rfl

end Runs

end Tree

end BranchBound
