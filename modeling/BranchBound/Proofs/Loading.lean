import BranchBound.Proofs.Activation
import BranchBound.Proofs.Relabeling
import BranchBound.Tree.Loading

namespace BranchBound.Tree

variable {σ : Type} [Solver σ] {cmp : NodeOrder} {K K' : Charge σ}
  {start : Array Interval} {t t' t₁ : Tree σ cmp} {id : Handle} {n : Node σ}

/-- While the relaxation is loaded, only it changes, and what is known of it. -/
inductive Loads (K : Charge σ) (t : Tree σ cmp) : Tree σ cmp → Prop
  | intro {lp : Relaxation σ} {correctDepth : Option Nat} {stats : Stats} {journal : Array Event} :
      K lp (bases t.nodes) → SameBooks t.stats stats →
      Loads K t { t with lp := lp, correctDepth := correctDepth, stats := stats, journal := journal }

theorem Sound.loads {s : Stage} (h : Sound K s t) : Loads K t t := .intro h.custody (.refl _)

theorem Loads.resting (h : Loads K t t') (hr : Resting K' start t) : Resting K start t' := by
  obtain ⟨hk, hb⟩ := h
  exact { hr with books := hr.books.congr hb, custody := hk }

def Halts (K K' : Charge σ) (t : Tree σ cmp) (e : TreeError) (t' : Tree σ cmp) : Prop :=
  (∃ e', e = .solver e') ∧ Loads K' t t' ∨ (∀ e', e ≠ .solver e') ∧ Loads K t t'

theorem Loads.onLp {α : Type} {act : RelaxationM σ α} (h : Loads K t t₁)
    (hact : ∀ r, K r (bases t.nodes) →
      Ends act r (fun _ r' => K r' (bases t.nodes)) fun _ r' => K' r' (bases t.nodes)) :
    Ends (onLp act) t₁ (fun _ => Loads K t) (Halts K K' t) := by
  obtain ⟨hk, hb⟩ := h
  rw [ends_onLp]
  exact (hact _ hk).mono (fun _ _ hk' => .intro hk' hb) fun e _ hk' => .inl ⟨⟨e, rfl⟩, .intro hk' hb⟩

theorem Loads.count (h : Loads K t t₁) {f : Stats → Stats} (hf : ∀ s, SameBooks s (f s)) :
    Ends (count f) t₁ (fun _ => Loads K t) (Halts K K' t) := by
  obtain ⟨hk, hb⟩ := h
  exact .intro hk (hb.trans (hf _))

theorem Loads.record (h : Loads K t t₁) (e : Event) :
    Ends (record e) t₁ (fun _ => Loads K t) (Halts K K' t) := by
  obtain ⟨hk, hb⟩ := h
  exact .intro hk hb

theorem Loads.mark (h : Loads K t t₁) (correctDepth : Option Nat) :
    Loads K t { t₁ with correctDepth := correctDepth } := by
  obtain ⟨hk, hb⟩ := h
  exact .intro hk hb

theorem Loads.halt (h : Loads K t t₁) {e : TreeError} (he : ∀ e', e ≠ .solver e') : Halts K K' t e t₁ :=
  .inr ⟨he, h⟩

theorem Loads.node (h : Loads K t t₁) (id : Handle) :
    Ends (read (·.node id)) t₁ (fun _ => Loads K t) (Halts K K' t) := by
  rw [ends_read]
  cases hn : t₁.node id with
  | ok n => exact h
  | error e =>
      refine h.halt fun e' he => ?_
      cases he.symm.trans (node_eq_error.1 hn).2

theorem Loads.pathSize (h : Loads K t t₁) (depth : Nat) :
    Ends (read (·.pathSize depth)) t₁ (fun _ => Loads K t) (Halts K K' t) := by
  rw [ends_read]
  unfold Tree.pathSize
  cases t₁.sizes[depth]? with
  | some size => exact h
  | none => exact h.halt fun e' he => nomatch he

theorem replaySnapshot_loads (hK : Rebuilding K K') (h : Loads K t t₁) (s : Snapshot σ) :
    Ends (replaySnapshot s) t₁ (fun _ => Loads K t) (Halts K K' t) := by
  unfold replaySnapshot
  refine .bind (h.onLp fun r => hK.extend r _ _ _) fun _ _ h => ?_
  exact h.count fun _ => ⟨rfl, rfl, rfl, rfl⟩

theorem rebuild_anew (hK : Rebuilding K K') {K₀ K₁ : Charge σ} (h : Loads K₀ t t₁)
    (hclear : Ends Relaxation.clear t₁.lp (fun _ r => K r (bases t.nodes)) fun _ r => K₁ r (bases t.nodes)) :
    Ends rebuild t₁ (fun _ => Loads K t) fun e u => Halts K K' t e u ∨
      (∃ e', e = .solver e') ∧ ∃ lp, K₁ lp (bases t.nodes) ∧ u = { t₁ with lp := lp } := by
  unfold rebuild
  rw [ends_bind, ends_onLp]
  refine hclear.mono (fun _ lp hk => ?_) fun e lp hk => .inr ⟨⟨e, rfl⟩, lp, hk, rfl⟩
  have h₁ : Loads K t { t₁ with lp := lp } := by
    obtain ⟨-, hb⟩ := h
    exact .intro hk hb
  refine Ends.mono (Q := fun _ => Loads K t) (E := Halts K K' t) ?_ (fun _ _ h => h) fun _ _ => .inl
  refine .bind (h₁.count fun _ => ⟨rfl, rfl, rfl, rfl⟩) fun _ _ h => ?_
  rw [ends_bind, ends_get]
  split
  · exact .bind (h.record _) fun _ _ h => h
  · refine .bind (h.node _) fun n _ h => ?_
    split
    · refine .bind (h.record _) fun _ _ h => ?_
      exact .bind (replaySnapshot_loads hK h _) fun _ _ h => h
    · exact h.halt fun e' he => nomatch he

theorem rebuild_loads (hK : Rebuilding K K') (h : Loads K t t₁) :
    Ends rebuild t₁ (fun _ => Loads K t) (Halts K K' t) := by
  have hk : K t₁.lp (bases t.nodes) := by
    obtain ⟨hk, -⟩ := h
    exact hk
  refine (rebuild_anew hK h (hK.clear _ _ hk)).mono (fun _ _ h => h) ?_
  rintro e u (hhalts | ⟨he, lp, hk', rfl⟩)
  · exact hhalts
  · obtain ⟨-, hb⟩ := h
    exact .inl ⟨he, .intro hk' hb⟩

theorem replay_loads (hK : Rebuilding K K') (h : Loads K t t₁) (skip : Nat) (ids : List Handle) :
    Ends (replay skip ids) t₁ (fun _ => Loads K t) (Halts K K' t) := by
  induction ids generalizing skip t₁ with
  | nil =>
      unfold replay
      exact h
  | cons id ids ih =>
      cases skip with
      | succ skip =>
          unfold replay
          exact ih h skip
      | zero =>
          unfold replay
          refine .bind (h.node _) fun n _ h => ?_
          split
          · refine .bind (h.record _) fun _ _ h => ?_
            exact .bind (replaySnapshot_loads hK h _) fun _ _ h => ih h 0
          · refine .bind (rebuild_loads hK h) fun next _ h => ?_
            split
            · exact h.halt fun e' he => nomatch he
            · exact ih h _
          · exact ih h 0

theorem rewind_loads (hK : Rebuilding K K') (h : Loads K t t₁) :
    Ends rewind t₁ (fun _ => Loads K t) (Halts K K' t) := by
  unfold rewind
  rw [ends_bind, ends_get]
  split
  · refine .bind (h.pathSize _) fun size _ h => ?_
    refine .bind (h.record _) fun _ _ h => ?_
    exact .bind (h.onLp fun r => hK.shrink r _ _) fun _ _ h => h
  · exact rebuild_loads hK h

theorem rebuildPath_loads (hK : Rebuilding K K') (h : Loads K t t₁) (target : Option Nat) :
    Ends (rebuildPath target) t₁ (fun _ => Loads K t) (Halts K K' t) := by
  unfold rebuildPath
  refine .bind (rewind_loads hK h) fun start _ h => ?_
  cases target with
  | none => exact h.mark none
  | some depth =>
      simp only [ends_bind, ends_get]
      exact (replay_loads hK h start _).mono (fun _ _ h => h.mark _) fun _ _ h => h

theorem rebuildPath_anew (hK : Rebuilding K K') {K₀ K₁ : Charge σ} (h : Loads K₀ t t) (hd : t.correctDepth = none)
    (hclear : Ends Relaxation.clear t.lp (fun _ r => K r (bases t.nodes)) fun _ r => K₁ r (bases t.nodes))
    (target : Option Nat) :
    Ends (rebuildPath target) t (fun _ => Loads K t) fun e u => Halts K K' t e u ∨
      (∃ e', e = .solver e') ∧ ∃ lp, K₁ lp (bases t.nodes) ∧ u = { t with lp := lp } := by
  unfold rebuildPath rewind
  rw [ends_bind, ends_bind, ends_get]
  split
  · rename_i hc
    cases hd.symm.trans hc
  · refine (rebuild_anew hK h hclear).mono (fun start _ h => ?_) fun _ _ h => h
    cases target with
    | none => exact h.mark none
    | some depth =>
        simp only [ends_bind, ends_get]
        exact (replay_loads hK h start _).mono (fun _ _ h => h.mark _) fun _ _ => .inl

/-- What changes of a tree with the right relaxation until the load is done: shares, statistics, the
domains still to be told, and that the relaxation is loaded. -/
structure Completes (t t' : Tree σ cmp) : Prop where
  nodes : Carried Kin t.nodes t'.nodes
  path : t'.path = t.path
  sizes : t'.sizes = t.sizes
  active : t'.active = t.active
  lpFork : t'.lpFork = t.lpFork
  subroot : t'.subroot = t.subroot
  correctDepth : t'.correctDepth = t.correctDepth
  focus : t'.focus = { t.focus with isLoaded := true }
  share : ∀ a n, t'.active = some a → t'.nodes.get? a = some n → n.share = none
  columns : t'.lp.columns = t.lp.columns
  rows : t'.lp.rows = t.lp.rows

theorem Resting.lpForkDepth_ok (h : Resting K start t) :
    ∃ target, t.lpForkDepth = .ok target := by
  unfold lpForkDepth
  cases hf : t.lpFork with
  | none => exact ⟨none, rfl⟩
  | some f =>
      obtain ⟨n, hn, -⟩ := (hf ▸ h.lpFork).holds
      simp only [node_eq_ok.2 hn]
      exact ⟨some n.depth, rfl⟩

theorem Resting.touchAll (h : Resting K start t) :
    Resting K start { t with domains := t.domains.touchAll } := by
  have hsize : t.domains.touchAll.size = t.domains.size := by
    unfold Domains.size
    rw [Domains.vars_touchAll]
  have hlogs : Logs t.nodes t.domains.touchAll.size := by
    rw [hsize]
    exact h.logs
  have hvars : InForce start t.nodes t.path t.domains.touchAll.vars := by
    rw [Domains.vars_touchAll]
    exact h.inForce
  exact { h with logs := hlogs, inForce := hvars }

/-- Only the relaxation differs, and what is known of it and still to be told. -/
inductive Stranded (t : Tree σ cmp) : Tree σ cmp → Prop
  | intro {lp : Relaxation σ} {correctDepth : Option Nat} {domains : Domains} {stats : Stats} {journal : Array Event} :
      domains.vars = t.domains.vars → Stranded t { t with
        lp := lp, correctDepth := correctDepth, domains := domains, stats := stats, journal := journal }

theorem Stranded.refl (t : Tree σ cmp) : Stranded t t := .intro rfl

theorem Stranded.trans {t'' : Tree σ cmp} (h : Stranded t t') (h' : Stranded t' t'') : Stranded t t'' := by
  obtain ⟨hd⟩ := h
  obtain ⟨hd'⟩ := h'
  exact .intro (hd'.trans hd)

theorem Stranded.active (h : Stranded t t') : t'.active = t.active := by
  obtain ⟨-⟩ := h
  rfl

theorem Stranded.nodes (h : Stranded t t') : t'.nodes = t.nodes := by
  obtain ⟨-⟩ := h
  rfl

theorem Loads.stranded (h : Loads K t t') : Stranded t t' := by
  obtain ⟨-, -⟩ := h
  exact .intro rfl

theorem installBasis_spec (hK : Rebuilding K K') (h : Resting K start t) :
    Ends installBasis t
      (fun _ t' => Resting K start t' ∧ ∃ s, t' = { t with lp := { t.lp with solver := s } })
      fun e t' => (∃ e', e = .solver e') ∧ Resting K' start t' ∧ Works t t' ∧ Stranded t t' := by
  unfold installBasis
  rw [ends_bind, ends_get]
  split
  · rename_i fork hfork
    obtain ⟨n, hn, -⟩ := (hfork ▸ h.lpFork).holds
    rw [ends_bind, ends_read, node_eq_ok.2 hn]
    simp only
    split
    · rename_i b hbasis
      have hmem : b ∈ bases t.nodes := List.mem_filterMap.2 ⟨(fork, n), Arena.mem_toList.2 hn, hbasis⟩
      exact ends_onSolver_of (hK.setBasis t.lp _ b hmem h.custody)
        (fun _ s hk => ⟨{ h with custody := hk }, s, rfl⟩)
        fun e _ hk => ⟨⟨e, rfl⟩, { h with custody := hk }, { Kept.works (.refl t) with }, .intro rfl⟩
    · exact ⟨h, t.lp.solver, rfl⟩
  · exact ⟨h, t.lp.solver, rfl⟩

theorem completeLoad_spec (hK : Rebuilding K K') (h : Resting K start t) (ha : t.active = some id)
    (before after : Extent) :
    Ends (do
        installBasis
        surrenderShare id
        modify fun t => { t with focus := { t.focus with isLoaded := true } }
        count fun s => { s with loads := s.loads + 1 }
        record (.loaded id before after)) t
      (fun _ t' => Resting K start t' ∧ Completes t t' ∧ t'.domains = t.domains)
      fun e t' => (∃ e', e = .solver e') ∧ Resting K' start t' ∧ Works t t' ∧ Stranded t t' := by
  refine (installBasis_spec hK h).bind ?_
  rintro _ t₁ ⟨h₁, solver, rfl⟩
  obtain ⟨n, hn, -⟩ := h.actor ha
  rw [ends_bind]
  refine (surrenderShare_spec hK.toRedemption h₁.toSound rfl hn).mono ?_ fun _ _ h => h.elim
  rintro _ t₂ ⟨hsound, nodes, solver', stats, journal, m, rfl, hmatch, hm, hshare⟩
  have hkept := Kept.of_steady hmatch solver' stats journal
  have h₂ := h₁.of_kept hsound hkept
  have hbooks : Books nodes { stats with loads := stats.loads + 1 } :=
    h₂.books.congr ⟨rfl, rfl, rfl, rfl⟩
  refine ⟨{ h₂ with books := hbooks }, { hkept with focus := rfl, share := fun a n hact hn' => ?_ }, rfl⟩
  cases hact.symm.trans ha
  cases hn'.symm.trans hm
  exact hshare

theorem finishLoad_spec (hK : Rebuilding K K') (h : Resting K start t) (ha : t.active = some id) (before : Extent)
    (target : Option Nat) :
    Ends (do
        let after := (← get).lp.size
        let expected ← read (·.expectedSize target)
        if after ≠ expected then throw (.fault (.outOfSync after expected))
        if after ≠ before then modify fun t => { t with domains := t.domains.touchAll }
        installBasis
        surrenderShare id
        modify fun t => { t with focus := { t.focus with isLoaded := true } }
        count fun s => { s with loads := s.loads + 1 }
        record (.loaded id before after)) t
      (fun _ t' => Resting K start t' ∧ Completes t t' ∧
        t'.domains = if t.lp.size = before then t.domains else t.domains.touchAll)
      fun e t' => (t' = t ∧ t.expectedSize target ≠ .ok t.lp.size) ∨
        (∃ e', e = .solver e') ∧ Resting K' start t' ∧ Works t t' ∧ Stranded t t' := by
  rw [ends_bind, ends_get, ends_bind, ends_read]
  cases hexp : t.expectedSize target with
  | error e => exact .inl ⟨rfl, fun he => nomatch he⟩
  | ok expected =>
      simp only
      split
      · rename_i hne
        exact .inl ⟨rfl, fun he => hne (Except.ok.inj he).symm⟩
      · split
        · rename_i hsize
          have htouch : Works t { t with domains := t.domains.touchAll } :=
            { Kept.works (.refl t) with domains := fun hd => (Domains.Touches.touchAll _ hd).wellFormed }
          rw [ends_bind, ends_modify]
          refine (completeLoad_spec hK h.touchAll ha _ _).mono (fun _ _ h' => ?_) fun _ _ h' =>
            .inr ⟨h'.1, h'.2.1, htouch.trans h'.2.2.1, Stranded.trans (.intro (Domains.vars_touchAll _)) h'.2.2.2⟩
          exact ⟨h'.1, { h'.2.1 with }, h'.2.2⟩
        · rename_i hsize
          rw [if_pos (Decidable.not_not.1 hsize)]
          exact (completeLoad_spec hK h ha _ _).mono (fun _ _ h' => h') fun _ _ => .inr

def Reloads (t t' : Tree σ cmp) : Prop :=
  ∃ target t₁, t.lpForkDepth = .ok target ∧ rebuildPath target t = .ok () t₁ ∧ Completes t₁ t' ∧
    t'.domains = if t₁.lp.size = t.lp.size then t.domains else t.domains.touchAll

/-- Where a load fails: the relaxation cannot be rebuilt, it is not of the size expected then, or the solver does
not take the basis. -/
inductive LoadFails (K K' : Charge σ) (start : Array Interval) (t : Tree σ cmp) (e : TreeError) (t' : Tree σ cmp) :
    Prop
  | stuck {target : Option Nat} : t.lpForkDepth = .ok target → rebuildPath target t = .error e t' →
      ((∃ e', e = .solver e') ∧ Resting K' start t' ∨ (∀ e', e ≠ .solver e') ∧ Resting K start t') →
      LoadFails K K' start t e t'
  | outOfSync {target : Option Nat} : t.lpForkDepth = .ok target → rebuildPath target t = .ok () t' →
      t'.expectedSize target ≠ .ok t'.lp.size → Resting K start t' → LoadFails K K' start t e t'
  | basis {target : Option Nat} {t₁ : Tree σ cmp} : t.lpForkDepth = .ok target → rebuildPath target t = .ok () t₁ →
      (∃ e', e = .solver e') → Resting K' start t' → Works t₁ t' → Stranded t₁ t' → LoadFails K K' start t e t'

theorem LoadFails.resting {e : TreeError} (h : LoadFails K K' start t e t') :
    (∃ e', e = .solver e') ∧ Resting K' start t' ∨ Resting K start t' := by
  cases h with
  | stuck _ _ h => exact h.imp_right fun h => h.2
  | outOfSync _ _ _ h => exact .inr h
  | basis _ _ he h => exact .inl ⟨he, h⟩

theorem loadActive_spec (hK : Rebuilding K K') (h : Resting K start t) (ha : t.active = some id) :
    Ends (loadActive id) t (fun _ t' => Resting K start t' ∧ Reloads t t') (LoadFails K K' start t) := by
  obtain ⟨target, htarget⟩ := h.lpForkDepth_ok
  unfold loadActive
  rw [ends_bind, ends_get, ends_bind, ends_read]
  simp only [htarget]
  rw [ends_bind]
  refine ((rebuildPath_loads hK h.toSound.loads target).and (ends_run _ _)).mono ?_ ?_
  · rintro _ t₁ ⟨hl, hrun⟩
    have h₁ := hl.resting h
    have ha₁ : t₁.active = some id := by
      cases hl
      exact ha
    have hd₁ : t₁.domains = t.domains := by
      cases hl
      rfl
    refine (finishLoad_spec hK h₁ ha₁ t.lp.size target).mono ?_ ?_
    · rintro _ t' ⟨hrest, hcompletes, hdomains⟩
      exact ⟨hrest, target, t₁, htarget, hrun, hcompletes, hd₁ ▸ hdomains⟩
    · rintro e t' (⟨rfl, hsize⟩ | ⟨he, hrest, hworks, hstranded⟩)
      · exact .outOfSync htarget hrun hsize h₁
      · exact .basis htarget hrun he hrest hworks hstranded
  · rintro e t₁ ⟨hhalts, hrun⟩
    exact .stuck htarget hrun (hhalts.imp (fun h' => ⟨h'.1, h'.2.resting h⟩) fun h' => ⟨h'.1, h'.2.resting h⟩)

theorem Halts.resting {K₀ : Charge σ} {e : TreeError} (h : Halts K K' t e t') (hr : Resting K₀ start t) :
    Resting K' start t' ∨ Resting K start t' := h.imp (·.2.resting hr) (·.2.resting hr)

theorem skipLoad_spec (hK : Redemption K) (h : Resting K start t) (ha : t.active = some id) (v : Nat) :
    Ends (do
        record (.loadSkipped id v)
        surrenderShare id
        return LoadResult.cutoff) t
      (fun res t' => res = .cutoff ∧ Resting K start t' ∧ Kept [] t t') fun _ _ => False := by
  obtain ⟨n, hn, -⟩ := h.actor ha
  rw [ends_bind, ends_record, ends_bind]
  have h₁ : Resting K start { t with journal := t.journal.push (.loadSkipped id v) } := { h with }
  refine (surrenderShare_spec hK h₁.toSound rfl hn).mono ?_ fun _ _ h => h.elim
  rintro _ t' ⟨hsound, nodes, solver, stats, journal, m, rfl, hmatch, -⟩
  have hkept := Kept.of_steady (t := t) hmatch solver stats journal
  exact ⟨rfl, h.of_kept hsound hkept, hkept⟩

def LoadEnds (t t' : Tree σ cmp) : LoadResult → Prop
  | .loaded => t.active.isSome = true ∧ Reloads t t'
  | .alreadyLoaded => t' = t
  | .cutoff => Kept [] t t'

def LoadStops (K K' : Charge σ) (start : Array Interval) (t : Tree σ cmp) (e : TreeError) (t' : Tree σ cmp) : Prop :=
  (t' = t ∧ e = .misuse .nothingToLoad ∧ t.active = none) ∨
    t.active.isSome = true ∧ t.focus.isLoaded = false ∧ LoadFails K K' start t e t'

theorem load_spec (hK : Rebuilding K K') (h : Resting K start t) :
    Ends load t (fun res t' => Resting K start t' ∧ LoadEnds t t' res) (LoadStops K K' start t) := by
  unfold load
  rw [ends_bind, ends_get]
  split
  · rename_i ha
    exact .inl ⟨rfl, rfl, ha⟩
  · exact ⟨h, rfl⟩
  · rename_i active _ v ha hfocus
    refine (skipLoad_spec hK.toRedemption h ha v).mono ?_ fun _ _ h => h.elim
    rintro _ t' ⟨rfl, hends⟩
    exact hends
  · rename_i active _ ha hfocus
    rw [ends_bind]
    refine (loadActive_spec hK h ha).mono ?_ fun _ _ h' => .inr ⟨by rw [ha]; rfl, by rw [hfocus], h'⟩
    exact fun _ t' h' => ⟨h'.1, by rw [ha]; rfl, h'.2⟩

/-- Where a load leads that had nothing of the relaxation to go on from: it has cleared the solver and `K` holds,
or that was refused and `K₁` holds, or it has not come to that. -/
theorem load_anew {K₀ K₁ : Charge σ} (hK : Rebuilding K K) (hK₀ : Redemption K₀) (h : Resting K₀ start t)
    (hd : t.correctDepth = none)
    (hclear : Ends Relaxation.clear t.lp (fun _ r => K r (bases t.nodes)) fun _ r => K₁ r (bases t.nodes)) :
    Ends load t
      (fun res u => match res with
        | .loaded => Resting K start u
        | .alreadyLoaded => u = t
        | .cutoff => Resting K₀ start u ∧ Kept [] t u)
      fun _ u => u = t ∨ Resting K start u ∨ ∃ lp, K₁ lp (bases t.nodes) ∧ u = { t with lp := lp } := by
  unfold load
  rw [ends_bind, ends_get]
  split
  · exact .inl rfl
  · exact Eq.refl t
  · rename_i active _ v ha hfocus
    refine (skipLoad_spec hK₀ h ha v).mono ?_ fun _ _ h => h.elim
    rintro _ t' ⟨rfl, hends⟩
    exact hends
  · rename_i active _ ha hfocus
    obtain ⟨target, htarget⟩ := h.lpForkDepth_ok
    unfold loadActive
    rw [ends_bind, ends_bind, ends_get, ends_bind, ends_read]
    simp only [htarget]
    rw [ends_bind]
    refine (rebuildPath_anew hK h.toSound.loads hd hclear target).mono ?_ ?_
    · intro _ t₁ hl
      have ha₁ : t₁.active = some active := by
        cases hl
        exact ha
      refine (finishLoad_spec hK (hl.resting h) ha₁ t.lp.size target).mono (fun _ _ h' => h'.1) ?_
      rintro e u (⟨rfl, -⟩ | ⟨-, hrest, -⟩)
      · exact .inr (.inl (hl.resting h))
      · exact .inr (.inl hrest)
    · rintro e u (hhalts | ⟨-, hfail⟩)
      · exact .inr (.inl ((hhalts.resting h).elim id id))
      · exact .inr (.inr hfail)

end BranchBound.Tree
