import BranchBound.Proofs.Observation
import BranchBound.Proofs.Replay
import BranchBound.Proofs.Runs
import BranchBound.Solver.Scripted

namespace BranchBound

variable {σ : Type} [Solver σ] {cmp : NodeOrder}

namespace Tree

variable {K K' : Charge σ} {start : Array Interval} {t t' : Tree σ cmp} {held : Handle → Contents σ} {id : Handle}
  {n : Node σ}

theorem Resting.lpFork_onPath (hr : Resting K start t) {f : Handle} (hf : t.lpFork = some f) :
    ∃ n, t.nodes.get? f = some n ∧ n.role.isSnapshot = true ∧ t.path[n.depth]? = some f ∧
      t.lpForkDepth = .ok (some n.depth) := by
  have hnear := hr.lpFork
  rw [hf] at hnear
  obtain ⟨n, hn, hq, hplace, -⟩ := hr.walk.nearest_onPath hnear
  refine ⟨n, hn, hq, hplace, ?_⟩
  unfold lpForkDepth
  rw [hf]
  simp only [node_eq_ok.2 hn]
  rfl

theorem Loads.weaken (h : Loads K t t') : Loads (fun _ _ => True) t t' := by
  obtain ⟨-, hb⟩ := h
  exact .intro trivial hb

theorem Loads.alike (h : Loads K t t') : Alike t t' := by
  cases h
  exact ⟨rfl, rfl, rfl, rfl, rfl, rfl⟩

theorem rebuildPath_alone (t : Tree σ cmp) (target : Option Nat) :
    Ends (rebuildPath target) t (fun _ => Loads (fun _ _ => True) t) fun _ => Loads (fun _ _ => True) t :=
  (rebuildPath_loads Upkeep.nothing.toRebuilding (.intro trivial (.refl _)) target).mono (fun _ _ h => h)
    fun _ _ h => h.elim And.right And.right

theorem LoadFails.alone {e : TreeError} (h : LoadFails K K' start t e t') :
    ∃ t₁, Loads (fun _ _ => True) t t₁ ∧ Works t₁ t' := by
  cases h with
  | stuck _ hrun => exact ⟨t', (rebuildPath_alone t _).of_error hrun, (Kept.refl t').works⟩
  | outOfSync _ hrun => exact ⟨t', (rebuildPath_alone t _).of_ok hrun, (Kept.refl t').works⟩
  | basis _ hrun _ _ hworks => exact ⟨_, (rebuildPath_alone t _).of_ok hrun, hworks⟩

theorem LoadFails.stranded {e : TreeError} (h : LoadFails K K' start t e t') : Stranded t t' := by
  cases h with
  | stuck _ hrun => exact ((rebuildPath_alone t _).of_error hrun).stranded
  | outOfSync _ hrun => exact ((rebuildPath_alone t _).of_ok hrun).stranded
  | basis _ hrun _ _ _ h => exact ((rebuildPath_alone t _).of_ok hrun).stranded.trans h

theorem LoadFails.active {e : TreeError} (h : LoadFails K K' start t e t') : t'.active = t.active := by
  obtain ⟨t₁, hloads, hworks⟩ := h.alone
  exact hworks.active.trans hloads.alike.active

theorem LoadFails.domains {e : TreeError} (h : LoadFails K K' start t e t') (hd : t.domains.WellFormed) :
    t'.domains.WellFormed := by
  obtain ⟨_, ⟨-, -⟩, hworks⟩ := h.alone
  exact hworks.domains hd

/-- The nearest Subroot lies no deeper than the nearest Fork or Subroot. -/
theorem Resting.anchored_lpFork (hr : Resting K start t) {f : Handle} (hf : t.lpFork = some f)
    (hn : t.nodes.get? f = some n) (hd : t.correctDepth = some n.depth) : t.Anchored := by
  intro c g hc hg
  cases hd.symm.trans hc
  obtain ⟨m, hm, hq, hplace, hlt⟩ := hr.walk.nearest_onPath (hg ▸ hr.subroot)
  refine ⟨m.depth, hplace, Nat.le_of_not_lt fun hdeep => ?_⟩
  have hnear := hr.walk.nearest_between (hf ▸ hr.lpFork) (Nat.sub_le _ _) hlt fun f' n' hf' hn' => by
    cases hf'
    cases hn.symm.trans hn'
    exact Nat.lt_succ_of_lt hdeep
  rw [before_succ hplace] at hnear
  cases hnear.unique (.here hm (Role.isSnapshot_of_isSubroot hq))
  cases hn.symm.trans hm
  exact Nat.lt_irrefl _ hdeep

theorem Remembers.rebuilt (h : Remembers held t) (hr : Resting K start t) (hl : Loads K' t t')
    (htarget : t.lpForkDepth = .ok t'.correctDepth) (hc : t'.lp.contents = heldAt held t.lpFork) :
    Remembers held t' := by
  have halike := hl.alike
  refine ⟨halike.nodes ▸ h.layered, ?_, fun c hmark => ?_, fun c g hmark hg => ?_⟩
  · rw [halike.nodes, halike.path, halike.sizes]
    exact h.measured
  · rw [hmark] at htarget
    cases hf : t.lpFork with
    | none =>
        unfold lpForkDepth at htarget
        rw [hf] at htarget
        cases htarget
    | some f =>
        obtain ⟨n, hn, hq, hplace, hdepth⟩ := hr.lpFork_onPath hf
        cases htarget.symm.trans hdepth
        rw [halike.nodes, halike.path, hc, hf]
        exact ⟨f, some f, hplace, .here hn hq, .refl _⟩
  · have hr' : Resting (fun _ _ => True) start t' := hl.weaken.resting hr
    cases hf : t.lpFork with
    | none =>
        unfold lpForkDepth at htarget
        rw [hf] at htarget
        cases (Except.ok.inj htarget).trans hmark
    | some f =>
        obtain ⟨n, hn, -, -, hdepth⟩ := hr.lpFork_onPath hf
        exact hr'.anchored_lpFork (halike.lpFork.trans hf) (halike.nodes ▸ hn)
          (Except.ok.inj (htarget.symm.trans hdepth)) c g hmark hg

theorem Tracks.reloads (h : Tracks held t) (hr : Resting K start t) (hr' : Resting K' start t')
    (ha : t.active = some id) (hre : Reloads t t') :
    t'.active = t.active ∧ Tracks held t' ∧ t'.lp.contents = heldAt held t'.lpFork ∧
      t'.lpForkDepth = .ok t'.correctDepth := by
  obtain ⟨target, t₁, htarget, hrun, hdone, -⟩ := hre
  obtain ⟨hcontents, rfl⟩ := (rebuildPath_restores hr h.toRemembers ha htarget).of_ok hrun
  have hloads := (rebuildPath_alone t _).of_ok hrun
  have h₁ := hloads.resting hr
  have hfork : t'.lpFork = t.lpFork := hdone.lpFork.trans hloads.alike.lpFork
  have hsame : t'.lp.contents = t₁.lp.contents := by
    unfold Relaxation.contents
    rw [hdone.columns, hdone.rows]
  refine ⟨hdone.active.trans hloads.alike.active, ⟨?_, ?_, ?_⟩, ?_, ?_⟩
  · refine (h.rebuilt hr hloads htarget hcontents).carry hdone.nodes.lineage h₁.forest hr'.forest hr'.walk
      hdone.path hdone.sizes hdone.subroot hdone.correctDepth ?_
    rw [hsame]
    exact .refl _
  · exact fun _ => by rw [hdone.focus]
  · intro _
    rw [hfork, hsame, hcontents]
    exact .refl _
  · rw [hfork, hsame, hcontents]
  · rw [hdone.correctDepth, ← htarget]
    cases hf : t.lpFork with
    | none =>
        unfold lpForkDepth
        rw [hfork, hf]
    | some f =>
        obtain ⟨n, hn, -, -, hd⟩ := hr.lpFork_onPath hf
        obtain ⟨m, hm, -, -, hd'⟩ := hr'.lpFork_onPath (hfork.trans hf)
        obtain ⟨n', hn', hkin⟩ := hdone.nodes f m hm
        cases hn.symm.trans (hloads.alike.nodes ▸ hn')
        rw [hd', hkin.depth, hd]

theorem Remembers.expectedSize_eq (h : Remembers held t) (hr : Resting K start t) {target : Option Nat}
    (htarget : t.lpForkDepth = .ok target) : t.expectedSize target = .ok (heldAt held t.lpFork).size := by
  cases hf : t.lpFork with
  | none =>
      unfold lpForkDepth at htarget
      rw [hf] at htarget
      cases htarget
      rfl
  | some f =>
      obtain ⟨n, hn, hq, hplace, hd⟩ := hr.lpFork_onPath hf
      cases htarget.symm.trans hd
      exact pathSize_ok (h.measured n.depth f _ hplace (.here hn hq))

theorem Remembers.tracks (hrem : Remembers held t') (h : Tracks held t) (hl : Loads K t t')
    (hload : t.focus.isLoaded = false) : Tracks held t' := by
  obtain ⟨-, -⟩ := hl
  exact ⟨hrem, h.loaded, fun hl => nomatch hload.symm.trans hl⟩

theorem Tracks.loadFails (h : Tracks held t) (hr : Resting K start t) (ha : t.active = some id)
    (hload : t.focus.isLoaded = false) {e : TreeError} (hfail : LoadFails K K' start t e t') :
    (∃ e', e = .solver e') ∧ Resting K' start t' ∧ Tracks held t' := by
  have hok : ∀ {target t₁}, rebuildPath target t = .ok () t₁ → Loads (fun _ _ => True) t t₁ :=
    fun hrun => (rebuildPath_alone t _).of_ok hrun
  cases hfail with
  | stuck htarget hrun hends =>
      obtain ⟨he, hrem⟩ := (rebuildPath_restores hr h.toRemembers ha htarget).of_error hrun
      have hr' := (hends.resolve_right fun hne => he.elim hne.1).2
      exact ⟨he, hr', hrem.tracks h ((rebuildPath_alone t _).of_error hrun) hload⟩
  | outOfSync htarget hrun hsize =>
      obtain ⟨hcontents, -⟩ := (rebuildPath_restores hr h.toRemembers ha htarget).of_ok hrun
      refine absurd ?_ hsize
      rw [← Relaxation.size_contents, hcontents, ← h.expectedSize_eq hr htarget]
      unfold expectedSize pathSize
      rw [(hok hrun).alike.sizes]
  | @basis _ t₁ htarget hrun he hr' hworks =>
      obtain ⟨hcontents, rfl⟩ := (rebuildPath_restores hr h.toRemembers ha htarget).of_ok hrun
      have h₁ : Tracks held t₁ := (h.rebuilt hr (hok hrun) htarget hcontents).tracks h (hok hrun) hload
      exact ⟨he, hr', h₁.stays ((hok hrun).resting hr) hr' hworks.toStays⟩

/-- What was left, with what the relaxation held if a node left the active role from `t` to `t'`. -/
def noteChange (held : Handle → Contents σ) (t t' : Tree σ cmp) : Handle → Contents σ := fun h =>
  if t.active = some h ∧ t'.active ≠ some h then t.lp.contents else held h

theorem noteChange_same (ha : t'.active = t.active) : noteChange held t t' = held := by
  funext h
  refine if_neg fun hh => hh.2 ?_
  rw [ha, hh.1]

theorem noteChange_switched {target : Option Handle} (ha : t'.active = target)
    (hne : target.isSome = true → t.active ≠ target) : noteChange held t t' = noteLeft held t := by
  funext h
  unfold noteChange noteLeft
  by_cases hh : t.active = some h
  · have hleft : t'.active ≠ some h := by
      intro hh'
      rw [ha] at hh'
      exact hne (by rw [hh']; rfl) (hh.trans hh'.symm)
    rw [if_pos hh, if_pos ⟨hh, hleft⟩]
  · rw [if_neg hh, if_neg fun hh' => hh hh'.1]

def Follows (K : Charge σ) (start : Array Interval) (held : Handle → Contents σ) (t t' : Tree σ cmp) : Prop :=
  Resting K start t' ∧ Tracks (noteChange held t t') t'

theorem Tracks.follows (h : Tracks held t') (hr : Resting K start t') (ha : t'.active = t.active) :
    Follows K start held t t' :=
  ⟨hr, by rwa [noteChange_same ha]⟩

theorem Tracks.keeps (h : Tracks held t) (hr : Resting K start t) (hr' : Resting K' start t') (hs : Stays t t') :
    Follows K' start held t t' :=
  (h.stays hr hr' hs).follows hr' hs.active

theorem activate_tracks (hK : Custody K K') (h : Tracks held t) (hr : Resting K start t) (target : Option Handle) :
    Ends (activate target) t (fun _ => Follows K start held t)
      fun _ t' => Follows K' start held t t' ∨ Follows K start held t t' := by
  refine (activate_cases hK hr target).mono ?_ ?_
  · rintro _ t' (⟨-, rfl, -⟩ | ⟨-, hne, harrives, -⟩)
    · exact h.follows hr rfl
    · have ha : t'.active = target := by
        obtain ⟨-, -, -, -, hfollowed⟩ := harrives.switched
        exact hfollowed.active
      refine ⟨harrives.resting, ?_⟩
      rw [noteChange_switched ha hne]
      exact h.switched hr harrives.resting harrives.switched
  · rintro e t' (⟨id, -, -, rfl, -⟩ | hbalks)
    · exact .inr (h.follows hr rfl)
    · exact .inl (h.keeps hr hbalks.resting hbalks.kept.stays)

theorem load_tracks (hK : Rebuilding K K') (h : Tracks held t) (hr : Resting K start t) :
    Ends load t (fun _ => Follows K start held t)
      fun _ t' => Follows K' start held t t' ∨ Follows K start held t t' := by
  refine (load_spec hK hr).mono ?_ ?_
  · rintro (_ | _ | _) t' ⟨hr', hends⟩
    · obtain ⟨a, ha⟩ := Option.isSome_iff_exists.1 hends.1
      obtain ⟨hactive, htracks, -⟩ := h.reloads hr hr' ha hends.2
      exact htracks.follows hr' hactive
    · obtain rfl : t' = t := hends
      exact h.follows hr' rfl
    · exact h.keeps hr hr' hends.stays
  · rintro e t' (⟨rfl, -⟩ | ⟨hsome, hload, hfail⟩)
    · exact .inr (h.follows hr rfl)
    · obtain ⟨a, ha⟩ := Option.isSome_iff_exists.1 hsome
      obtain ⟨-, hr', htracks⟩ := h.loadFails hr ha hload hfail
      exact .inl (htracks.follows hr' hfail.active)

theorem perform_tracks (hK : Upkeep K K') (h : Tracks held t) (hr : Resting K start t) (op : Op σ) :
    Ends op.perform t (fun _ => Follows K start held t)
      fun _ t' => Follows K' start held t t' ∨ Follows K start held t t' := by
  have hC : Custody K K' := hK.toCustody
  have hquiet : ∀ {t'}, Resting K start t' ∧ Quiet t t' → Follows K start held t t' :=
    fun hs => h.keeps hr hs.1 hs.2.toStays
  have hrefused : ∀ {e t'}, Refused t t' e → Follows K' start held t t' ∨ Follows K start held t t' := by
    rintro e _ ⟨rfl, -⟩
    exact .inr (h.follows hr rfl)
  have hstalls : ∀ {work e t'}, Stalls K' start work t e t' →
      Follows K' start held t t' ∨ Follows K start held t t' := by
    rintro work e t' (⟨rfl, -⟩ | ⟨-, hr', hworks⟩)
    · exact .inr (h.follows hr rfl)
    · exact .inl (h.keeps hr hr' hworks.toStays)
  cases op with
  | create bound estimate =>
      refine ends_discard.2 ((create_spec hC hr bound estimate).mono (fun _ _ h' => ?_) fun _ _ h' => ?_)
      · exact (h.sprouts hr h'.2).follows h'.1 h'.2.active
      · exact hrefused ⟨h'.1, .inr ⟨_, h'.2.1⟩⟩
  | changeBound id v side bound =>
      exact ends_discard.2 ((changeBound_spec hC hr id v side bound).mono (fun _ _ => hquiet)
        fun _ _ h' => hrefused (RejectsChange.refused h'))
  | constrain id c =>
      exact (constrain_spec hC hr id c).mono (fun _ _ => hquiet) fun _ _ h' => hrefused (Rejects.refused h')
  | raise id bound =>
      exact (raise_spec hC hr id bound).mono (fun _ _ => hquiet) fun _ _ h' => hrefused (Rejects.refused h')
  | addColumn c => exact (addColumn_spec hK hr c).mono (fun _ _ => hquiet) fun _ _ => hstalls
  | addRow r => exact (addRow_spec (fun s l => hK.addRow s l r) hr).mono (fun _ _ => hquiet) fun _ _ => hstalls
  | solve =>
      exact ends_discard.2 ((solve_spec hK hr).mono (fun _ _ h' => h.keeps hr h'.1 h'.2.toStays)
        fun _ _ h' => h'.elim hstalls fun h' => .inr (h.keeps hr h'.2.1 h'.2.2.toStays))
  | activate target => exact ends_discard.2 (activate_tracks hC h hr target)
  | load => exact ends_discard.2 (load_tracks hK.toRebuilding h hr)
  | prune cutoff =>
      exact ends_discard.2 ((prune_spec hC hr cutoff).mono (fun _ _ ⟨hr', _, hkept⟩ => h.keeps hr hr' hkept.stays)
        fun _ _ h' => h'.elim)
  | free id =>
      exact (free_spec hC hr id).mono (fun _ _ ⟨hr', _, hkept⟩ => h.keeps hr hr' hkept.stays)
        fun _ _ h' => hrefused (Rejects.refused h')
  | pop => exact ends_discard.2 ((pop_spec hr).mono (fun _ _ => hquiet) fun _ _ h' => h'.elim)
  | clear =>
      exact (clear_spec hK.toRebuilding hr).mono (fun _ _ h' => ⟨h'.1, .vacant h'.2.1.toVacant⟩)
        fun _ _ h' => .inl ⟨h'.2.1, .vacant h'.2.2.toVacant⟩
  | setPolicy p => exact (setPolicy_spec hr p).mono (fun _ _ => hquiet) fun _ _ h' => h'.elim

theorem perform_follows (h : Tracks held t) (hr : Resting (fun _ _ => True) start t) (op : Op σ) :
    Follows (fun _ _ => True) start held t (left op.perform t) :=
  ((perform_tracks .nothing h hr op).mono (fun _ _ h => h) fun _ _ h => h.elim id id).left

/-- What the relaxation held when a node left the active role, for each node that did in a run. -/
def remembered (t : Tree σ cmp) (ops : List (Op σ)) : Handle → Contents σ :=
  chronicle noteChange (fun _ => .empty) t ops

theorem run_tracks (hK : Upkeep K K') (hK' : Upkeep K' K') (hr : Resting K start t) (hv : Vacant t)
    (ops : List (Op σ)) :
    Resting K' start (t.run ops) ∨ Resting K start (t.run ops) ∧ Tracks (t.remembered ops) (t.run ops) := by
  induction ops using List.reverseRecOn with
  | nil => exact .inr ⟨hr, .vacant hv⟩
  | append_singleton ops op ih =>
      rw [show t.remembered (ops ++ [op]) = noteChange (t.remembered ops) (t.run ops) (t.run (ops ++ [op])) from
        chronicle_concat ..]
      simp only [run_concat]
      rcases ih with ih | ⟨hr', ih⟩
      · exact .inl (run_resting hK' ih [op])
      · refine Ends.left (P := fun t' => Resting K' start t' ∨ Follows K start (t.remembered ops) (t.run ops) t') ?_
        exact (perform_tracks hK ih hr' op).mono (fun _ _ => .inr) fun _ _ h => h.imp_left And.left

theorem run_follows (hr : Resting (fun _ _ => True) start t) (hv : Vacant t) (ops : List (Op σ)) :
    Resting (fun _ _ => True) start (t.run ops) ∧ Tracks (t.remembered ops) (t.run ops) := by
  induction ops using List.reverseRecOn with
  | nil => exact ⟨hr, .vacant hv⟩
  | append_singleton ops op ih =>
      rw [show t.remembered (ops ++ [op]) = noteChange (t.remembered ops) (t.run ops) (t.run (ops ++ [op])) from
        chronicle_concat ..]
      rw [run_concat]
      exact perform_follows ih.2 ih.1 op

end Tree

namespace Trace

def Flawless (tr : Trace σ) : Prop := ∀ e ∈ tr, e.2 = true

instance (tr : Trace σ) : Decidable tr.Flawless := inferInstanceAs (Decidable (∀ e ∈ tr, e.2 = true))

def contents : Trace σ → Contents (Observed σ)
  | [] => .empty
  | (call, true) :: past => call.effect (contents past)
  | (_, false) :: past => contents past

end Trace

def mirror : Record σ := fun c tr _ => tr.Flawless ∧ tr.contents = c

def flawed : Record σ := fun _ tr _ => ¬ tr.Flawless

theorem flawless_cons {tr : Trace σ} {call : Call σ} {ok : Bool} :
    Trace.Flawless ((call, ok) :: tr) ↔ ok = true ∧ tr.Flawless := by
  simp [Trace.Flawless]

section Flawed

variable {p : Contents (Observed σ) → Trace σ → Prop}

theorem keeps_flawed {call : Call σ} (h : ∀ c tr, p c tr → p (call.effect c) ((call, true) :: tr)) :
    Record.Keeps (fun c tr _ => p c tr) flawed call where
  done c tr _ hp := h c tr hp
  failed _ _ _ _ hf := nomatch (flawless_cons.1 hf).1

/-- A record that does not mention the bases needs to outlast the calls that concern them. -/
theorem accounts_flawed (h : ∀ (call : Call σ) c tr, call.handlesBasis = true → p c tr → p c ((call, true) :: tr)) :
    Record.Accounts (fun c tr _ => p c tr) flawed where
  perm _ _ _ _ _ hp := hp
  issue _ _ _ _ hp := h _ _ _ rfl hp
  refuse _ _ _ _ hf := nomatch (flawless_cons.1 hf).1
  install _ _ _ _ _ hp := h _ _ _ rfl hp
  reject _ _ _ _ _ _ hf := nomatch (flawless_cons.1 hf).1
  free _ _ _ _ hp := h _ _ _ rfl hp

end Flawed

theorem mirror_upkeep : Upkeep (mirror (σ := σ)).charge flawed.charge :=
  (accounts_flawed fun call c tr hcall h => ⟨flawless_cons.2 ⟨rfl, h.1⟩, by
    rw [Trace.contents, h.2, Call.effect_of_not_edits (by cases call <;> first | rfl | cases hcall)]⟩).upkeep
  fun call _ => keeps_flawed fun c tr h => ⟨flawless_cons.2 ⟨rfl, h.1⟩, congrArg (call.effect ·) h.2⟩

theorem flawed_upkeep : Upkeep (flawed (σ := σ)).charge flawed.charge := by
  have hcons : ∀ {tr : Trace σ} {e}, ¬ Trace.Flawless tr → ¬ Trace.Flawless (e :: tr) :=
    fun h h' => h fun e he => h' e (List.mem_cons_of_mem _ he)
  refine Record.Accounts.upkeep ?_ fun call _ => ⟨fun _ _ _ => hcons, fun _ _ _ => hcons⟩
  exact ⟨fun _ _ _ _ _ h => h, fun _ _ _ _ => hcons, fun _ _ _ => hcons, fun _ _ _ _ _ => hcons,
    fun _ _ _ _ _ => hcons, fun _ _ _ _ => hcons⟩

namespace Tree

/-- Whenever a load succeeds in a run without a failing call, the relaxation and the solver hold what the
relaxation held when the nearest Fork or Subroot above the active node left the active role. -/
theorem load_restores {solver : σ} {domains : Domains} {settings : Settings} {t₀ t' : Tree (Observed σ) cmp}
    (h₀ : ofSettings (.fresh solver) domains settings = .ok t₀) (ops : List (Op (Observed σ)))
    (hload : load (t₀.run ops) = .ok .loaded t') (hflawless : t'.lp.solver.calls.Flawless) :
    (∃ a n, t'.active = some a ∧ t'.nodes.get? a = some n ∧
        Nearest t'.nodes Role.isSnapshot n.parent t'.lpFork) ∧
      t'.lp.contents = heldAt (t₀.remembered ops) t'.lpFork ∧
      t'.lp.solver.calls.contents = heldAt (t₀.remembered ops) t'.lpFork ∧
      t'.correctDepth = t'.lpFork.bind fun f => (t'.nodes.get? f).map Node.depth := by
  have hnew := resting_of_ofSettings (K := mirror.charge) h₀ ⟨fun _ he => (nomatch he), rfl⟩
  rcases run_tracks mirror_upkeep flawed_upkeep hnew (vacant_of_ofSettings h₀).1 ops with hr | ⟨hr, htracks⟩
  · exact absurd hflawless ((load_spec flawed_upkeep.toRebuilding hr).of_ok hload).1.custody
  · obtain ⟨hr', hsome, hre⟩ := (load_spec mirror_upkeep.toRebuilding hr).of_ok hload
    obtain ⟨a, ha⟩ := Option.isSome_iff_exists.1 hsome
    obtain ⟨hactive, -, hcontents, hdepth⟩ := htracks.reloads hr hr' ha hre
    refine ⟨?_, hcontents, hr'.custody.2.trans hcontents, ?_⟩
    · obtain ⟨n, hn, -, -, -, hp, -⟩ := hr'.actor (hactive.trans ha)
      exact ⟨a, n, hactive.trans ha, hn, hp ▸ hr'.lpFork⟩
    · cases hf : t'.lpFork with
      | none =>
          unfold lpForkDepth at hdepth
          rw [hf] at hdepth
          exact (Except.ok.inj hdepth).symm
      | some f =>
          obtain ⟨n, hn, -, -, hd⟩ := hr'.lpFork_onPath hf
          rw [hd] at hdepth
          rw [← Except.ok.inj hdepth, Option.bind_some, hn]
          rfl

/-- A child of a Fork loads the Fork's relaxation, though its sibling has added to that before. -/
theorem load_restores_after_sibling :
    ∃ t₀ : Tree (Observed ScriptedSolver) SelectionRule.bestBound.order,
      ofSettings (.fresh .fresh) (.free 1) {} = .ok t₀ ∧
      let ops : List (Op (Observed ScriptedSolver)) := [.create 0 0, .activate (some ⟨0, 0⟩), .load,
        .addColumn (7 : Int), .solve, .create 0 0, .create 0 0, .activate (some ⟨1, 0⟩), .load,
        .addColumn (8 : Int), .addRow (9 : Int), .activate (some ⟨2, 0⟩)]
      let t' := left load (t₀.run ops)
      returns load (t₀.run ops) .loaded = true ∧ t'.lp.solver.calls.Flawless ∧ t'.lpFork = some ⟨0, 0⟩ ∧
        t'.lp.contents = heldAt (t₀.remembered ops) t'.lpFork ∧ t'.lp.size = ⟨1, 0⟩ := by
  refine ⟨_, rfl, by decide +kernel, by decide +kernel, by decide +kernel, ?_, by decide +kernel⟩
  exact (@load_restores ScriptedSolver _ SelectionRule.bestBound.order .fresh (.free 1) {} _ _ rfl _
    (eq_ok_of_returns (by decide +kernel)) (by decide +kernel)).2.1

end Tree

end BranchBound
