import BranchBound.Proofs.Accounting
import BranchBound.Proofs.Drift

namespace BranchBound

variable {σ : Type} [Solver σ] {cmp : NodeOrder}

namespace Trace

def Afresh : Trace σ → Prop
  | [] => True
  | (c, _) :: past => (c.edits = true → c = .clear ∨ (.clear, true) ∈ past) ∧ Afresh past

def Stale (tr : Trace σ) : Prop := ∀ e ∈ tr, e.1.edits = true → e = (.clear, false)

/-- The solver was cleared, and that before anything else was done to what it holds. -/
def Renewed (tr : Trace σ) : Prop := (.clear, true) ∈ tr ∧ Afresh tr

variable {tr later earlier : Trace σ} {c : Call σ} {ok : Bool}

theorem mem_freed {b : Nat} (h : (.freeBasis b, ok) ∈ tr) : b ∈ freed tr := by
  induction tr with
  | nil => cases h
  | cons e past ih =>
      rcases List.mem_cons.1 h with rfl | hpast
      · exact List.mem_cons_self
      · unfold freed
        split
        · rename_i he
          cases he
        · rename_i he
          cases he
          exact List.mem_cons_of_mem _ (ih hpast)
        · rename_i he
          cases he
          exact ih hpast

theorem Afresh.tail {e : Call σ × Bool} (h : Afresh (e :: tr)) : Afresh tr := h.2

theorem Afresh.cleared (h : Afresh (later ++ (c, ok) :: earlier)) (he : c.edits = true) (hc : c ≠ .clear) :
    (.clear, true) ∈ earlier := by
  induction later with
  | nil => exact (h.1 he).resolve_left hc
  | cons e later ih => exact ih h.tail

theorem Stale.afresh (h : Stale tr) : Afresh tr := by
  induction tr with
  | nil => trivial
  | cons e tr ih =>
      refine ⟨fun he => .inl ?_, ih fun e' he' => h e' (List.mem_cons_of_mem _ he')⟩
      exact congrArg Prod.fst (h e List.mem_cons_self he)

theorem Stale.cons (h : Stale tr) (hc : c.edits = true → (c, ok) = (.clear, false)) : Stale ((c, ok) :: tr) :=
  List.forall_mem_cons.2 ⟨hc, h⟩

theorem Stale.renewed (h : Stale tr) : Renewed ((.clear, true) :: tr) :=
  ⟨List.mem_cons_self, fun _ => .inl rfl, h.afresh⟩

theorem Renewed.cons (h : Renewed tr) (e : Call σ × Bool) : Renewed (e :: tr) :=
  ⟨List.mem_cons_of_mem _ h.1, fun _ => .inr h.1, h.2⟩

end Trace

namespace Record

variable {base : Trace σ} {P : Trace σ → Prop}

def since (base : Trace σ) (P : Trace σ → Prop) : Record σ := fun _ tr _ => ∃ new, tr = new ++ base ∧ P new

theorem since_accounts (hP : ∀ (c : Call σ) ok new, c.edits = false → P new → P ((c, ok) :: new)) :
    (since base P).Accounts (since base P) where
  perm _ _ _ _ _ h := h
  issue _ _ _ _ := fun ⟨new, htr, h⟩ => ⟨(.getBasis, true) :: new, congrArg _ htr, hP .getBasis true new rfl h⟩
  refuse _ _ _ := fun ⟨new, htr, h⟩ => ⟨(.getBasis, false) :: new, congrArg _ htr, hP .getBasis false new rfl h⟩
  install _ _ _ b _ := fun ⟨new, htr, h⟩ => ⟨(.setBasis b.1, true) :: new, congrArg _ htr, hP _ true new rfl h⟩
  reject _ _ _ b _ := fun ⟨new, htr, h⟩ => ⟨(.setBasis b.1, false) :: new, congrArg _ htr, hP _ false new rfl h⟩
  free _ _ _ b := fun ⟨new, htr, h⟩ => ⟨(.freeBasis b.1, true) :: new, congrArg _ htr, hP _ true new rfl h⟩

theorem since_upkeep (hP : ∀ e new, P new → P (e :: new)) : Upkeep (since base P).charge (since base P).charge :=
  (since_accounts fun c ok new _ => hP (c, ok) new).upkeep fun c _ =>
    ⟨fun _ _ _ ⟨new, htr, h⟩ => ⟨(c, true) :: new, congrArg _ htr, hP _ new h⟩,
      fun _ _ _ ⟨new, htr, h⟩ => ⟨(c, false) :: new, congrArg _ htr, hP _ new h⟩⟩

theorem since_stale_custody (base : Trace σ) :
    Custody (since base Trace.Stale).charge (since base Trace.Stale).charge :=
  (since_accounts fun _ _ _ hc h => h.cons fun he => nomatch hc.symm.trans he).custody

theorem since_renewed_upkeep (base : Trace σ) :
    Upkeep (since base Trace.Renewed).charge (since base Trace.Renewed).charge :=
  since_upkeep fun e _ h => h.cons e

end Record

namespace Relaxation

theorem giveBack_calls (r : Relaxation (Observed σ)) (bs : List (Solver.Basis (Observed σ))) :
    (r.giveBack bs).solver.calls = r.solver.calls.grant (bs.map fun b => .freeBasis b.1) := by
  induction bs generalizing r with
  | nil => rfl
  | cons b bs ih =>
      rw [List.map_cons, Trace.grant_cons]
      exact ih { r with solver := Solver.freeBasis b r.solver }

theorem clear_observed (r : Relaxation (Observed σ)) :
    Ends clear r
      (fun _ r' => Solver.clear r.solver.solver = .ok () r'.solver.solver ∧
        r'.solver.calls = (.clear, true) :: r.solver.calls ∧ r'.contents = .empty)
      fun e r' => Solver.clear r.solver.solver = .error e r'.solver.solver ∧
        r'.solver.calls = (.clear, false) :: r.solver.calls ∧ r'.contents = r.contents := by
  have hcall : Ends (Observed.observe .clear Solver.clear) r.solver
      (fun _ o => Solver.clear r.solver.solver = .ok () o.solver ∧ o.calls = (.clear, true) :: r.solver.calls)
      fun e o => Solver.clear r.solver.solver = .error e o.solver ∧ o.calls = (.clear, false) :: r.solver.calls := by
    unfold Ends Observed.observe
    cases hclear : Solver.clear r.solver.solver with
    | ok a s => exact ⟨rfl, rfl⟩
    | error e s => exact ⟨rfl, rfl⟩
  refine (ends_edit (f := fun r => { r with columns := [], rows := [] }) hcall).mono ?_ ?_
  · rintro _ _ ⟨o, rfl, hclear, hcalls⟩
    exact ⟨hclear, hcalls, rfl⟩
  · rintro e _ ⟨o, rfl, hclear, hcalls⟩
    exact ⟨hclear, hcalls, rfl⟩

theorem clear_renews {base : Trace σ} {r : Relaxation (Observed σ)} {l : List (Solver.Basis (Observed σ))}
    (h : (Record.since base Trace.Stale).charge r l) :
    Ends clear r (fun _ r' => (Record.since base Trace.Renewed).charge r' l)
      fun _ r' => (Record.since base Trace.Stale).charge r' l := by
  obtain ⟨new, hcalls, hstale⟩ := h
  refine (clear_observed r).mono ?_ ?_
  · rintro _ r' ⟨-, hcalls', -⟩
    exact ⟨_, hcalls'.trans (congrArg _ hcalls), hstale.renewed⟩
  · rintro _ r' ⟨-, hcalls', -⟩
    exact ⟨_, hcalls'.trans (congrArg _ hcalls), hstale.cons fun _ => rfl⟩

end Relaxation

namespace Tree

section Fallow

variable {K : Charge σ} {start : Array Interval} {t u : Tree σ cmp}

/-- Nothing that the solver holds is known to be right, and the active node's relaxation was not worked on. -/
structure Fallow (K : Charge σ) (start : Array Interval) (t : Tree σ cmp) : Prop extends Resting K start t where
  correctDepth : t.correctDepth = none
  isLoaded : t.focus.isLoaded = false
  isSolved : t.focus.isSolved = false

theorem Vacant.fallow (h : Vacant t) (hr : Resting K start t) : Fallow K start t where
  toResting := hr
  correctDepth := h.correctDepth
  isLoaded := by rw [h.focus]; rfl
  isSolved := by rw [h.focus]; rfl

theorem Fallow.stays (h : Fallow K start t) (hr : Resting K start u) (hs : Stays t u) : Fallow K start u where
  toResting := hr
  correctDepth := hs.correctDepth.trans h.correctDepth
  isLoaded := hs.isLoaded.trans h.isLoaded
  isSolved := by
    refine Bool.eq_false_iff.2 fun hsolved => ?_
    rcases hs.isSolved hsolved with hsolved | hloaded
    · cases h.isSolved.symm.trans hsolved
    · cases h.isLoaded.symm.trans hloaded

theorem Ended.unsolved (he : Ended K t u) (hs : t.focus.isSolved = false) : u.correctDepth = t.correctDepth := by
  cases ha : t.active with
  | none => rw [he.idle ha]
  | some a =>
      obtain ⟨n, m, -, -, hleaves⟩ := he.leaves a ha
      cases hleaves with
      | nothing _ _ _ _ hd => exact hd
      | snapshot _ _ hsolved => cases hs.symm.trans hsolved

theorem Fallow.switched (h : Fallow K start t) (hr : Resting K start u) {target : Option Handle}
    (hs : Switched K t u target) : Fallow K start u := by
  obtain ⟨hended, hkept, -, -, hfollowed⟩ := hs
  refine ⟨hr, ?_, hfollowed.isLoaded, hfollowed.isSolved⟩
  -- A switch only ever lessens the correct depth, and the end of a turn that was not solved leaves it alone.
  have hd := (hkept.correctDepth.trans (hended.unsolved h.isSolved)).trans h.correctDepth
  rw [hfollowed.correctDepth]
  unfold correctDepthAfter
  rw [hd]
  split <;> rfl

/-- Only a load or a clear has an effect on the solver's columns and rows as long as nothing is loaded. -/
theorem perform_fallow (hK : Custody K K) (h : Fallow K start t) {op : Op σ} (hload : op ≠ .load)
    (hclear : op ≠ .clear) : Fallow K start (left op.perform t) := by
  have hr := h.toResting
  have hquiet : ∀ {u}, Resting K start u ∧ Quiet t u → Fallow K start u := fun g => h.stays g.1 g.2.toStays
  have hrefused : ∀ {u}, u = t → Fallow K start u := fun hu => hu ▸ h
  have hidle : ¬ t.Ready := fun hready => nomatch h.isLoaded.symm.trans hready.2
  have hnot : ∀ (work : LoadedWork) {α : Type} (act : Unit → TreeM σ cmp α),
      Ends (requireLoaded work >>= act) t (fun _ => Fallow K start) fun _ => Fallow K start := fun work α act =>
    .bind (R := fun _ _ => False) (requireLoaded_spec work (fun hready => hidle hready) fun _ => h)
      fun _ _ hf => hf.elim
  refine Ends.left (P := Fallow K start) ?_
  cases op with
  | create bound estimate =>
      refine ends_discard.2 ((create_spec hK hr bound estimate).mono ?_ fun _ _ g => hrefused g.1)
      rintro id u ⟨hr', hs⟩
      exact ⟨hr', hs.correctDepth.trans h.correctDepth, by rw [hs.focus]; exact h.isLoaded,
        by rw [hs.focus]; exact h.isSolved⟩
  | changeBound id v side bound =>
      exact ends_discard.2 ((changeBound_spec hK hr id v side bound).mono (fun _ _ => hquiet) fun _ _ g => hrefused g.1)
  | constrain id c => exact (constrain_spec hK hr id c).mono (fun _ _ => hquiet) fun _ _ g => hrefused g.1
  | raise id bound => exact (raise_spec hK hr id bound).mono (fun _ _ => hquiet) fun _ _ g => hrefused g.1
  | addColumn c => exact hnot _ _
  | addRow r => exact hnot _ _
  | solve => exact ends_discard.2 (hnot _ _)
  | activate target =>
      refine ends_discard.2 ((activate_cases hK hr target).mono ?_ ?_)
      · rintro _ u (⟨-, hu, -⟩ | ⟨-, -, harrives, -⟩)
        · exact hrefused hu
        · exact h.switched harrives.resting harrives.switched
      · rintro e u (⟨-, -, -, hu, -⟩ | hbalks)
        · exact hrefused hu
        · exact h.stays hbalks.resting hbalks.kept.stays
  | load => exact absurd rfl hload
  | prune cutoff =>
      exact ends_discard.2 ((prune_spec hK hr cutoff).mono (fun _ _ ⟨hr', _, hkept⟩ => h.stays hr' hkept.stays)
        fun _ _ g => g.elim)
  | free id =>
      exact (free_spec hK hr id).mono (fun _ _ ⟨hr', _, hkept⟩ => h.stays hr' hkept.stays) fun _ _ g => hrefused g.1
  | pop => exact ends_discard.2 ((pop_spec hr).mono (fun _ _ => hquiet) fun _ _ g => g.elim)
  | clear => exact absurd rfl hclear
  | setPolicy p => exact (setPolicy_spec hr p).mono (fun _ _ => hquiet) fun _ _ g => g.elim

theorem run_fallow (h : Fallow (fun _ _ => True) start t) {ops : List (Op σ)} (hops : .load ∉ ops) :
    Fallow (fun _ _ => True) start (t.run ops) := by
  induction ops using List.reverseRecOn with
  | nil => exact h
  | append_singleton ops op ih =>
      rw [run_concat]
      have ht := ih fun hload => hops (List.mem_append_left _ hload)
      by_cases hclear : op = .clear
      · subst hclear
        refine Ends.left (P := Fallow (fun _ _ => True) start) ?_
        exact (clear_spec Upkeep.nothing.toRebuilding ht.toResting).mono (fun _ _ g => g.2.1.toVacant.fallow g.1)
          fun _ _ g => g.2.2.toVacant.fallow g.2.1
      · refine perform_fallow Upkeep.nothing.toCustody ht (fun hload => hops ?_) hclear
        rw [← hload]
        exact List.mem_append_right _ (List.mem_singleton.2 rfl)

end Fallow

section Later

variable {start : Array Interval} {t u : Tree (Observed σ) cmp} {base : Trace σ}

def ClearsFirst (t : Tree (Observed σ) cmp) : Prop :=
  Ends load t
    (fun res u => ∃ new, u.lp.solver.calls = new ++ t.lp.solver.calls ∧
      match res with
      | .loaded => new.getLast? = some (.clear, true)
      | .alreadyLoaded | .cutoff => ∀ e ∈ new, e.1.edits = false)
    fun _ u => ∃ new, u.lp.solver.calls = new ++ t.lp.solver.calls ∧
      (new = [] ∨ new = [(.clear, false)] ∨ new.getLast? = some (.clear, true))

theorem clearsFirst (h : Resting (fun _ _ => True) start t) (hd : t.correctDepth = none) : ClearsFirst t := by
  let K : Charge (Observed σ) := (Record.since ((.clear, true) :: t.lp.solver.calls) fun _ => True).charge
  let K₀ : Charge (Observed σ) := (Record.since t.lp.solver.calls fun new => ∀ e ∈ new, e.1.edits = false).charge
  let K₁ : Charge (Observed σ) := fun r _ => r.solver.calls = (.clear, false) :: t.lp.solver.calls
  have hK : Upkeep K K := Record.since_upkeep fun _ _ _ => trivial
  have hK₀ : Custody K₀ K₀ :=
    (Record.since_accounts fun c ok _ hc hnew =>
      (List.forall_mem_cons (p := fun e : Call σ × Bool => e.1.edits = false)).2 ⟨hc, hnew⟩).custody
  have hstart : Resting K₀ start t := { h with custody := ⟨[], rfl, nofun⟩ }
  have hclear : Ends Relaxation.clear t.lp (fun _ r => K r (bases t.nodes))
      fun _ r => K₁ r (bases t.nodes) :=
    (Relaxation.clear_observed t.lp).mono (fun _ _ g => ⟨[], g.2.1, trivial⟩) fun _ _ g => g.2.1
  have hfirst : ∀ {u : Tree (Observed σ) cmp}, Resting K start u → ∃ new, u.lp.solver.calls = new ++ t.lp.solver.calls ∧
      new.getLast? = some (.clear, true) := by
    intro u hu
    obtain ⟨more, hcalls, -⟩ := hu.custody
    refine ⟨more ++ [(.clear, true)], ?_, List.getLast?_concat⟩
    rw [hcalls, List.append_assoc]
    rfl
  refine (load_anew hK.toRebuilding hK₀.toRedemption hstart hd hclear).mono ?_ ?_
  · rintro (_ | _ | _) u hu
    · exact hfirst hu
    · exact ⟨[], by rw [show u = t from hu]; rfl, nofun⟩
    · exact hu.1.custody
  · rintro _ u (rfl | hu | ⟨lp, hcalls, rfl⟩)
    · exact ⟨[], rfl, .inl rfl⟩
    · obtain ⟨new, hcalls, hlast⟩ := hfirst hu
      exact ⟨new, hcalls, .inr (.inr hlast)⟩
    · exact ⟨[(.clear, false)], hcalls, .inr (.inl rfl)⟩

/-- Since the calls were `base`, the solver was asked for nothing but clears, all in vain, or it was cleared first. -/
def Resumes (start : Array Interval) (base : Trace σ) (t : Tree (Observed σ) cmp) : Prop :=
  Fallow (Record.since base Trace.Stale).charge start t ∨ Resting (Record.since base Trace.Renewed).charge start t

theorem perform_resumes (h : Resumes start base t) (op : Op (Observed σ)) : Resumes start base (left op.perform t) := by
  have hstale := Record.since_stale_custody base
  rcases h with h | h
  · by_cases hclear : op = .clear
    · subst hclear
      refine Ends.left (P := Resumes start base) ?_
      exact (clear_ends hstale.toRedemption (fun _ _ => Relaxation.clear_renews) h.toResting).mono
        (fun _ _ g => .inr g.1) fun _ _ g => .inl (g.2.2.toVacant.fallow g.2.1)
    · by_cases hload : op = .load
      · subst hload
        refine Ends.left (P := Resumes start base) (ends_discard.2 ?_)
        refine (load_anew (Record.since_renewed_upkeep base).toRebuilding hstale.toRedemption h.toResting
          h.correctDepth (Relaxation.clear_renews h.custody)).mono ?_ ?_
        · rintro (_ | _ | _) u hu
          · exact .inr hu
          · rw [show u = t from hu]
            exact .inl h
          · exact .inl (h.stays hu.1 hu.2.stays)
        · rintro _ u (rfl | hu | ⟨lp, hlp, rfl⟩)
          · exact .inl h
          · exact .inr hu
          · exact .inl { h with custody := hlp }
      · exact .inl (perform_fallow hstale h hload hclear)
  · exact .inr (run_resting (Record.since_renewed_upkeep base) h [op])

theorem run_resumes (h : Resumes start base t) (ops : List (Op (Observed σ))) : Resumes start base (t.run ops) :=
  run_induction h (fun _ op h => perform_resumes h op) ops

theorem Vacant.resumes (h : Vacant t) (hr : Resting ledger.charge start t) :
    Resumes start t.lp.solver.calls t :=
  .inl (h.fallow { hr with custody := ⟨[], rfl, nofun⟩ })

theorem Resumes.renewed (h : Resumes start base t) : ∃ new, t.lp.solver.calls = new ++ base ∧ new.Afresh ∧
    (t.focus.isLoaded = true → (.clear, true) ∈ new) := by
  rcases h with h | h
  · obtain ⟨new, hcalls, hstale⟩ := h.custody
    exact ⟨new, hcalls, hstale.afresh, fun hl => nomatch h.isLoaded.symm.trans hl⟩
  · obtain ⟨new, hcalls, hcleared, hafresh⟩ := h.custody
    exact ⟨new, hcalls, hafresh, fun _ => hcleared⟩

end Later

section Reset

/-- Nothing is left of the search `t` but its numbers and statistics. The answer of the solver, when it was asked to
clear, was `ok`. -/
structure Reset (start : Array Interval) (t u : Tree (Observed σ) cmp) (ok : Bool) : Prop extends Vacant u where
  unknown : ∀ k, u.node k = .error (.unknownNode k)
  size : u.nodes.size = 0
  vars : u.domains.vars = start
  /-- The bases that the nodes kept went back one by one, and then the solver was asked to clear. -/
  calls : u.lp.solver.calls =
    (.clear, ok) :: t.lp.solver.calls.grant ((bases t.nodes).map fun b => .freeBasis b.1)
  freed_once : ∀ b ∈ bases t.nodes, u.lp.solver.calls.freed.count b.1 = 1
  freed_all : u.lp.solver.calls.freed.Perm u.lp.solver.calls.issued
  captured : u.stats.captured = u.stats.basesFreed
  created : u.stats.created = u.stats.freed
  /-- In a later run the solver is cleared before anything is added to what it holds or cut off from that, and before a
  relaxation counts as loaded. -/
  later : ∀ ops, ∃ new, (u.run ops).lp.solver.calls = new ++ u.lp.solver.calls ∧
    ((u.run ops).focus.isLoaded = true → (.clear, true) ∈ new) ∧
    ∀ newer c ok older, new = newer ++ (c, ok) :: older → c.edits = true → c ≠ .clear → (.clear, true) ∈ older
  /-- It is the first load of the run that does this. -/
  firstLoad : ∀ ops, .load ∉ ops → ClearsFirst (u.run ops)

variable {start : Array Interval} {t u : Tree (Observed σ) cmp} {ok : Bool}

theorem Vacant.reset (h : Vacant u) (hr : Resting ledger.charge start u) (hvars : u.domains.vars = start)
    (hcalls : u.lp.solver.calls =
      (.clear, ok) :: t.lp.solver.calls.grant ((bases t.nodes).map fun b => .freeBasis b.1)) : Reset start t u ok := by
  have hbases : bases u.nodes = [] := bases_of_vacant h.nodes
  have hsize : u.nodes.size = 0 := by
    rw [h.wellFormed.size_eq, Arena.toList_of_vacant h.nodes]
    rfl
  have hfreed : u.lp.solver.calls.freed.Perm u.lp.solver.calls.issued := by
    have hperm := hr.custody.2
    rwa [hbases, List.map_nil, List.append_nil] at hperm
  have hbooks := hr.books
  refine { h with
    unknown := fun k => node_eq_error.2 ⟨h.nodes k, rfl⟩
    size := hsize
    vars := hvars
    calls := hcalls
    freed_once := fun b hb => ?_
    freed_all := hfreed
    captured := by rw [hbooks.bases, hbases]; rfl
    created := by rw [hbooks.nodes, hsize]; rfl
    later := fun ops => ?_
    firstLoad := fun ops hops => ?_ }
  · have hback : (.freeBasis b.1, true) ∈ u.lp.solver.calls := by
      rw [hcalls]
      refine List.mem_cons_of_mem _ (List.mem_append_left _ (List.mem_reverse.2 ?_))
      rw [List.map_map]
      exact List.mem_map_of_mem hb
    -- What went back is a permutation of what was handed out, and that is handed out once.
    exact List.count_eq_one_of_mem (hfreed.nodup_iff.2 (Trace.nodup_issued _)) (Trace.mem_freed hback)
  · obtain ⟨new, hnew, hafresh, hloaded⟩ := (run_resumes (h.resumes hr) ops).renewed
    refine ⟨new, hnew, hloaded, ?_⟩
    rintro newer c ok older rfl
    exact hafresh.cleared
  · have hfallow := run_fallow (h.fallow { hr with custody := trivial }) hops
    exact clearsFirst hfallow.toResting hfallow.correctDepth

/-- A clear resets a tree in any state, also if the solver fails to clear. It fails with the solver's error, and only
then is anything left of the relaxation: the copy as it was. -/
theorem clear_resets {solver : σ} {domains : Domains} {settings : Settings} {t₀ : Tree (Observed σ) cmp}
    (h₀ : ofSettings (.fresh solver) domains settings = .ok t₀) (ops : List (Op (Observed σ))) :
    let t := t₀.run ops
    let relieved := (t.lp.giveBack (bases t.nodes)).solver.solver
    Ends clear t
      (fun _ u => Reset domains.vars t u true ∧ Solver.clear relieved = .ok () u.lp.solver.solver ∧
        u.lp.contents = .empty ∧ ∀ view : σ → Contents σ, Faithful view → view u.lp.solver.solver = .empty)
      fun e u => Reset domains.vars t u false ∧ u.lp.contents = t.lp.contents ∧
        ∃ e', e = .solver e' ∧ Solver.clear relieved = .error e' u.lp.solver.solver := by
  intro t relieved
  have hr : Resting ledger.charge domains.vars t :=
    run_resting ledger_upkeep (resting_of_ofSettings h₀ ⟨trivial, .refl _⟩) ops
  have hcleared := Relaxation.clear_observed (t.lp.giveBack (bases t.nodes))
  rw [Relaxation.giveBack_calls] at hcleared
  refine ((clear_spec ledger_upkeep.toRebuilding hr).and (clear_cases hr)).mono ?_ ?_
  · rintro _ u ⟨⟨hr', hemptied, -⟩, hrun, -, hvars, -⟩
    obtain ⟨hclear, hcalls, hcontents⟩ := hcleared.of_ok hrun
    refine ⟨hemptied.toVacant.reset hr' hvars hcalls, hclear, hcontents, fun view hview => ?_⟩
    exact (hview.clear relieved).of_ok hclear
  · rintro _ u ⟨⟨-, hr', hemptied⟩, e, rfl, hrun, -, hvars, -⟩
    obtain ⟨hclear, hcalls, hcontents⟩ := hcleared.of_error hrun
    exact ⟨hemptied.toVacant.reset hr' hvars hcalls, hcontents, e, rfl, hclear⟩

/-- The solver refuses to clear in the middle of a search, when a Fork keeps a basis and the relaxation has columns. -/
theorem clear_resets_refused :
    ∃ t₀ : Tree (Observed ScriptedSolver) SelectionRule.bestBound.order,
      ofSettings (.fresh (ScriptedSolver.fresh.planFailure .clear (some ⟨1, "busy"⟩))) (.free 1) {} = .ok t₀ ∧
      let t := t₀.run [.create 0 0, .changeBound ⟨0, 0⟩ 0 .lower 1, .activate (some ⟨0, 0⟩), .load, .addColumn (7 : Int),
        .solve, .create 0 0, .create 0 0, .activate (some ⟨1, 0⟩), .load, .addColumn (8 : Int)]
      let u := left clear t
      result clear t = .error (.solver ⟨"busy"⟩) ∧ (bases t.nodes).length = 1 ∧ u.lp.size = ⟨2, 0⟩ ∧
        Reset (Domains.free 1).vars t u false := by
  refine ⟨_, rfl, ?_⟩
  intro t u
  have hbusy : result clear t = .error (.solver ⟨"busy"⟩) := by decide +kernel
  have hreset := (@clear_resets ScriptedSolver _ SelectionRule.bestBound.order
    (ScriptedSolver.fresh.planFailure .clear (some ⟨1, "busy"⟩)) (.free 1) {} _ rfl _).of_error (eq_error_of_result hbusy)
  exact ⟨hbusy, by decide +kernel, by decide +kernel, hreset.1⟩

end Reset

end Tree

end BranchBound
