import BranchBound.Proofs.Cells
import BranchBound.Solver.Scripted

namespace BranchBound.Tree

variable {σ : Type} [Solver σ] {cmp : NodeOrder} {start : Array Interval} {K : Charge (Observed σ)}
  {held : Handle → Contents (Observed σ)} {O : Nat → Bool} {t t' : Tree (Observed σ) cmp}

def swapped (t t' : Tree (Observed σ) cmp) (j : Nat) : Bool :=
  t'.lp.size = t.lp.size && t'.lp.solver.calls.cells[j]?.any (t.lp.solver.calls.length ≤ ·.born)

/-- The columns overlooked after a step: those swapped in, and those overlooked already, as long as their
variables do not wait. -/
def overlook (O : Nat → Bool) (t t' : Tree (Observed σ) cmp) (j : Nat) : Bool :=
  !decide (t'.domains.Waits j) && (O j || swapped t t' j)

def overlooked (t : Tree (Observed σ) cmp) (ops : List (Op (Observed σ))) : Nat → Bool :=
  chronicle overlook (fun _ => false) t ops

def Knows (O : Nat → Bool) (t : Tree (Observed σ) cmp) : Prop := Informed O t.domains t.lp.solver.calls.cells

theorem Knows.step (h : Knows O t) (ht : t.domains.Touches t'.domains)
    (hcells : ∀ j c, t'.lp.solver.calls.cells[j]? = some c → t.lp.solver.calls.cells[j]? = some c ∨
      t.lp.solver.calls.length ≤ c.born ∧ c.told = none ∧
        (t'.domains.Waits j ∨ t'.lp.size = t.lp.size ∨ t'.domains.size ≤ j)) :
    Knows (overlook O t t') t' := by
  refine Informed.step h ht fun j c hc => ?_
  unfold swapped
  rcases hcells j c hc with hold | ⟨hborn, hnone, hw⟩
  · have := Trace.born_lt hold
    exact .inl ⟨hold, by simp [hc, Nat.not_le.2 this]⟩
  · refine .inr ⟨hnone, hw.imp_right fun hw => hw.imp_left fun hsize => ?_⟩
    simp [hc, hsize, hborn]

theorem Knows.quiet (h : Knows O t) (ht : t.domains.Touches t'.domains)
    (hcells : t'.lp.solver.calls.cells = t.lp.solver.calls.cells) : Knows (overlook O t t') t' :=
  h.step ht fun _ _ hc => .inl (hcells ▸ hc)

theorem Knows.same (h : Knows O t) : Knows (overlook O t t) t := h.quiet (.refl _) rfl

def Misses (O : Nat → Bool) (t t' : Tree (Observed σ) cmp) : Prop :=
  ¬ t'.lp.solver.calls.Flawless ∨ Knows (overlook O t t') t'

theorem Knows.refused (h : Knows O t) {e : TreeError} (hr : Refused t t' e) : Misses O t t' := by
  obtain ⟨rfl, -⟩ := hr
  exact .inr h.same

theorem Knows.fails (h : Knows O t) {e : TreeError} (hf : Fails flawed.charge start t e t') : Misses O t t' :=
  hf.elim h.refused fun hf => .inl hf.2.custody

theorem cells_length {r : Relaxation (Observed σ)} {l : List (Solver.Basis (Observed σ))} (h : mirror.charge r l) :
    r.solver.calls.cells.length = r.columns.length := by
  rw [Trace.length_cells, h.2]
  rfl

theorem addColumn_knows (h : Knows O t) (hm : mirror.charge t.lp []) (c : Solver.Column (Observed σ)) :
    Ends (addColumn c) t (fun _ t' => Knows (overlook O t t') t') fun _ => Misses O t := by
  have hlen := cells_length hm
  unfold addColumn
  refine Ends.bind (R := fun _ t' => t' = t) (requireLoaded_spec _ (fun _ => rfl) fun _ => .inr h.same) ?_
  rintro _ t rfl
  unfold Relaxation.addColumn
  rw [ends_bind, ends_onLp, ends_bind]
  refine Record.ends_onObserved (Solver.addColumn (σ := σ) c) rfl (fun _ s => ?_) fun _ s => .inl fun hf => ?_
  · refine h.step (.enqueue _ _) fun j c' hc => ?_
    rw [Trace.cells, Call.recell, List.getElem?_append] at hc
    split at hc
    · exact .inl hc
    · rename_i hj
      obtain ⟨hlt, rfl⟩ := List.getElem?_eq_some_iff.1 hc
      obtain rfl : j = t.lp.columns.length := by
        rw [List.length_replicate, List.length_singleton] at hlt
        omega
      rw [List.getElem_replicate]
      refine .inr ⟨Nat.le_refl _, rfl, ?_⟩
      change (t.domains.enqueue ((t.lp.columns ++ [c]).length - 1)).Waits _ ∨ _ ∨ (t.domains.enqueue _).size ≤ _
      rw [Domains.waits_enqueue h.wellFormed, Domains.size_enqueue, List.length_append, List.length_singleton,
        Nat.add_sub_cancel]
      omega
  · cases (flawless_cons.1 hf).1

/-- What holds while the touched variables that have a column are told: those in `vs` are left. -/
structure Telling (O : Nat → Bool) (t : Tree (Observed σ) cmp) (vs : List Nat) (t₁ : Tree (Observed σ) cmp) :
    Prop where
  resolved : Resolved { t with domains := t.domains.drain.2 } t₁
  length : t₁.lp.solver.calls.cells.length = t.lp.solver.calls.cells.length
  born : ∀ (j : Nat) (c : Cell), t₁.lp.solver.calls.cells[j]? = some c → c.born < t.lp.solver.calls.length
  left : ∀ v ∈ vs, O v = false ∧ v < t.domains.size
  told : ∀ (j : Nat) (c : Cell) (x : Interval), t₁.lp.solver.calls.cells[j]? = some c →
    t.domains.vars[j]? = some x → j ∉ vs → c.told = if O j then none else some x

theorem Telling.send {v : Nat} {vs : List Nat} {t₁ : Tree (Observed σ) cmp} (h : Telling O t (v :: vs) t₁) :
    Ends (sendBounds v) t₁ (fun _ t' => Telling O t vs t') fun _ t' => ¬ t'.lp.solver.calls.Flawless := by
  obtain ⟨⟨s, rfl⟩, hlen, hborn, hleft, htold⟩ := h
  obtain ⟨hv, hlt⟩ := hleft v List.mem_cons_self
  obtain ⟨x, hx⟩ : ∃ x, t.domains.vars[v]? = some x := ⟨_, Array.getElem?_eq_getElem hlt⟩
  have hlook : t.domains.drain.2.look v = .ok x := Domains.look_eq hx
  unfold sendBounds Tree.onSolver
  simp only [ends_bind, ends_read, hlook, Except.mapError]
  rw [ends_onLp]
  refine Record.ends_onObserved (Solver.setBounds (σ := σ) v x.lower x.upper) rfl (fun _ s => ?_) fun _ s hf => ?_
  · refine ⟨⟨_, rfl⟩, ?_, fun j c hc => ?_, fun w hw => hleft w (List.mem_cons_of_mem v hw), fun j c y hc hy hj => ?_⟩
    · rw [← hlen]
      exact List.length_modify ..
    · rw [Trace.cells, Call.recell, List.getElem?_modify] at hc
      obtain ⟨c', hc', rfl⟩ := Option.map_eq_some_iff.1 hc
      have := hborn j c' hc'
      split <;> exact this
    · rw [Trace.cells, Call.recell, List.getElem?_modify] at hc
      obtain ⟨c', hc', rfl⟩ := Option.map_eq_some_iff.1 hc
      split
      · rename_i hvj
        subst hvj
        cases hx.symm.trans hy
        rw [hv]
        rfl
      · rename_i hvj
        exact htold j c' y hc' hy fun hm => (List.mem_cons.1 hm).elim (fun he => hvj he.symm) hj
  · cases (flawless_cons.1 hf).1

theorem sendTouched_telling (h : Knows O t) (hm : mirror.charge t.lp []) :
    Ends sendTouched t (fun _ t' => Telling O t [] t') fun _ t' => ¬ t'.lp.solver.calls.Flawless := by
  unfold sendTouched
  rw [ends_bind, ends_get, ends_bind, ends_set]
  refine Ends.forM (I := fun vs t' => Telling O t vs t') (fun _ _ _ ht => ht.send)
    ⟨⟨t.lp.solver, rfl⟩, rfl, fun _ _ => Trace.born_lt, fun v hv => ?_, fun j c x hc hx hj => ?_⟩
  · have hwaits := (h.wellFormed.mem_queue v).1 (Array.mem_toList_iff.1 (List.mem_of_mem_filter hv))
    exact ⟨Bool.eq_false_iff.2 fun ho => h.idle v ho hwaits, h.wellFormed.lt_of_waits hwaits⟩
  · refine h.told j c x hc hx fun hwaits => hj (List.mem_filter.2 ⟨?_, ?_⟩)
    · exact Array.mem_toList_iff.2 ((h.wellFormed.mem_queue j).2 hwaits)
    · have hlt := (List.getElem?_eq_some_iff.1 hc).1
      rw [cells_length hm] at hlt
      exact decide_eq_true hlt

theorem Telling.informed (h : Telling O t [] t') (hk : Knows O t) : Knows O t' := by
  obtain ⟨⟨s, rfl⟩, -, -, -, htold⟩ := h
  exact ⟨hk.wellFormed.drain, fun j _ => Domains.not_waits_drain hk.wellFormed j,
    fun j c x hc hx _ => htold j c x hc hx List.not_mem_nil⟩

theorem Knows.overlook_congr (h : Knows O t') (hd : ∀ j, ¬ t'.domains.Waits j)
    (hborn : ∀ (j : Nat) (c : Cell), t'.lp.solver.calls.cells[j]? = some c → c.born < t.lp.solver.calls.length) :
    Knows (overlook O t t') t' := by
  have heq : overlook O t t' = O := by
    funext j
    unfold overlook swapped
    simp only [hd j]
    cases hc : t'.lp.solver.calls.cells[j]? with
    | none => simp
    | some c => simp [Nat.not_le.2 (hborn j c hc)]
  rw [heq]
  exact h

theorem solve_knows (h : Knows O t) (hm : mirror.charge t.lp []) :
    Ends solve t (fun _ t' => Knows (overlook O t t') t' ∧ ∃ past : Trace σ,
        t'.lp.solver.calls = (.solve, true) :: past ∧ past.cells.length = t'.lp.columns.length ∧
        ∀ j c x, past.cells[j]? = some c → t'.domains.vars[j]? = some x → c.told = if O j then none else some x)
      fun _ => Misses O t := by
  unfold solve
  refine Ends.bind (R := fun _ t' => t' = t) (requireLoaded_spec _ (fun _ => rfl) fun _ => .inr h.same) ?_
  rintro _ t rfl
  refine ((sendTouched_telling h hm).mono (fun _ _ h => h) fun _ _ h => .inl h).bind fun _ t₁ h₁ => ?_
  have hk₁ := h₁.informed h
  obtain ⟨⟨s, rfl⟩, hlen, hborn, -, htold⟩ := h₁
  unfold Tree.onSolver
  rw [ends_bind, ends_onLp]
  refine Record.ends_onObserved (Solver.solve (σ := σ)) rfl (fun status s' => ?_) fun _ s' => .inl fun hf => ?_
  · exact ⟨hk₁.overlook_congr (Domains.not_waits_drain h.wellFormed) hborn, s.calls, rfl,
      hlen.trans (cells_length hm), fun j c x hc hx => htold j c x hc hx List.not_mem_nil⟩
  · cases (flawless_cons.1 hf).1

/-- A load leaves untold the columns that it adds anew, and queues their variables if the size of the
relaxation is another one than before. -/
theorem load_knows (h : Knows O t) (hr : Resting mirror.charge start t) (ht : Tracks held t) :
    Ends load t (fun _ t' => Knows (overlook O t t') t') fun _ => Misses O t := by
  have hrenewed : Resting (renewed t.lp.solver.calls.length t.lp.solver.calls.cells).charge start t :=
    { hr with custody := ⟨Nat.le_refl _, fun _ _ => .inl⟩ }
  refine (load_spec (renewed_rebuilding _ _) hrenewed).mono ?_ ?_
  · rintro (_ | _ | _) t' ⟨hr', hends⟩
    · obtain ⟨-, target, t₁, -, -, hdone, hdomains⟩ := hends
      have hsize : t'.lp.size = t₁.lp.size := by
        unfold Relaxation.size
        rw [hdone.columns, hdone.rows]
      rw [← hsize] at hdomains
      refine h.step ?_ fun j c hc => (hr'.custody.2 j c hc).imp_right fun hnew => ⟨hnew.1, hnew.2, ?_⟩
      · rw [hdomains]
        split
        · exact .refl _
        · exact .touchAll _
      · rcases Decidable.em (t'.lp.size = t.lp.size) with heq | hne
        · exact .inr (.inl heq)
        · rw [hdomains, if_neg hne]
          rcases Nat.lt_or_ge j t.domains.size with hlt | hge
          · exact .inl (Domains.waits_touchAll h.wellFormed hlt)
          · refine .inr (.inr ?_)
            unfold Domains.size
            rwa [Domains.vars_touchAll]
    · obtain rfl : t' = t := hends
      exact h.same
    · have hsize : t'.lp.size = t.lp.size := by
        unfold Relaxation.size
        rw [hends.columns, hends.rows]
      exact h.step (hends.domains ▸ .refl _) fun j c hc =>
        (hr'.custody.2 j c hc).imp_right fun hnew => ⟨hnew.1, hnew.2, .inr (.inl hsize)⟩
  · rintro e t' (⟨rfl, -⟩ | ⟨hsome, hload, hfail⟩)
    · exact .inr h.same
    · obtain ⟨a, ha⟩ := Option.isSome_iff_exists.1 hsome
      exact .inl (ht.loadFails hrenewed ha hload hfail).2.1.custody

theorem activate_knows (h : Knows O t) (hr : Resting mirror.charge start t) (target : Option Handle) :
    Ends (activate target) t (fun _ t' => Knows (overlook O t t') t') fun _ => Misses O t := by
  have hsettled : Resting (settled t.lp.solver.calls.cells).charge start t := { hr with custody := rfl }
  refine (activate_spec (settled_custody _) hsettled target).mono ?_ fun _ _ => h.fails
  rintro _ t' ⟨hr', ⟨-, rfl, -⟩ | ⟨-, -, hswitched⟩⟩
  · exact h.same
  · exact h.quiet hswitched.touches hr'.custody

theorem perform_knows (h : Knows O t) (hr : Resting mirror.charge start t) (ht : Tracks held t)
    (op : Op (Observed σ)) :
    Ends op.perform t (fun _ t' => Knows (overlook O t t') t') fun _ => Misses O t := by
  have hC := settled_custody (σ := σ) t.lp.solver.calls.cells
  have hs : Resting (settled t.lp.solver.calls.cells).charge start t := { hr with custody := rfl }
  have hquiet : ∀ {t'}, Resting (settled t.lp.solver.calls.cells).charge start t' ∧ Quiet t t' →
      Knows (overlook O t t') t' := fun h' => h.quiet h'.2.domains h'.1.custody
  have hkept : ∀ {t'}, Resting (settled t.lp.solver.calls.cells).charge start t' ∧ (∃ gone, Kept gone t t') →
      Knows (overlook O t t') t' := fun ⟨hr', _, hk⟩ => hquiet ⟨hr', hk.quiet⟩
  cases op with
  | create bound estimate =>
      refine ends_discard.2 ((create_spec hC hs bound estimate).mono (fun _ t' h' => ?_) fun _ _ h' => ?_)
      · exact h.quiet (h'.2.domains ▸ .refl _) h'.1.custody
      · exact h.refused ⟨h'.1, .inr ⟨_, h'.2.1⟩⟩
  | changeBound id v side bound =>
      exact ends_discard.2 ((changeBound_spec hC hs id v side bound).mono (fun _ _ => hquiet)
        fun _ _ h' => h.refused (RejectsChange.refused h'))
  | constrain id c =>
      exact (constrain_spec hC hs id c).mono (fun _ _ => hquiet) fun _ _ h' => h.refused (Rejects.refused h')
  | raise id bound =>
      exact (raise_spec hC hs id bound).mono (fun _ _ => hquiet) fun _ _ h' => h.refused (Rejects.refused h')
  | addColumn c => exact addColumn_knows h hr.custody c
  | addRow r =>
      refine (addRow_spec (fun s l hk => ?_) hs).mono (fun _ _ => hquiet) fun _ _ h' => h.fails h'.fails
      exact Record.addRow_keeps (keeps_flawed fun _ _ hc => hc) hk
  | solve => exact ends_discard.2 ((solve_knows h hr.custody).mono (fun _ _ h' => h'.1) fun _ _ h' => h')
  | activate target => exact ends_discard.2 (activate_knows h hr target)
  | load => exact ends_discard.2 (load_knows h hr ht)
  | prune cutoff => exact ends_discard.2 ((prune_spec hC hs cutoff).mono (fun _ _ => hkept) fun _ _ h' => h'.elim)
  | free id =>
      exact (free_spec hC hs id).mono (fun _ _ => hkept) fun _ _ h' => h.refused (Rejects.refused h')
  | pop => exact ends_discard.2 ((pop_spec hs).mono (fun _ _ => hquiet) fun _ _ h' => h'.elim)
  | clear =>
      refine (clear_spec mirror_upkeep.toRebuilding hr).mono (fun _ t' h' => ?_) fun _ _ h' => .inl h'.2.1.custody
      refine h.step h'.2.1.domains fun j c hc => ?_
      have hlen := cells_length h'.1.custody
      rw [show t'.lp.columns = [] from congrArg Contents.columns h'.2.2] at hlen
      rw [List.eq_nil_of_length_eq_zero hlen] at hc
      cases hc
  | setPolicy p => exact (setPolicy_spec hs p).mono (fun _ _ => hquiet) fun _ _ h' => h'.elim

theorem run_knows (hr : Resting mirror.charge start t) (hv : Vacant t) (hk : Knows (fun _ => false) t)
    (ops : List (Op (Observed σ))) :
    Resting flawed.charge start (t.run ops) ∨
      Resting mirror.charge start (t.run ops) ∧ Knows (t.overlooked ops) (t.run ops) := by
  induction ops using List.reverseRecOn with
  | nil => exact .inr ⟨hr, hk⟩
  | append_singleton ops op ih =>
      rw [show t.overlooked (ops ++ [op]) = overlook (t.overlooked ops) (t.run ops) (t.run (ops ++ [op])) from
        chronicle_concat ..]
      rcases run_tracks mirror_upkeep flawed_upkeep hr hv ops with hf | ⟨hr', htracks⟩
      · rw [run_concat]
        exact .inl (run_resting flawed_upkeep hf [op])
      · rcases ih with hf | ⟨-, hknows⟩
        · exact absurd hr'.custody.1 hf.custody
        · rcases run_tracks mirror_upkeep flawed_upkeep hr hv (ops ++ [op]) with hf | ⟨hr'', -⟩
          · exact .inl hf
          · refine .inr ⟨hr'', ?_⟩
            rw [run_concat] at hr'' ⊢
            have hstep := Ends.left (P := Misses (t.overlooked ops) (t.run ops))
              ((perform_knows hknows hr' htracks op).mono (fun _ _ => .inr) fun _ _ h => h)
            exact hstep.resolve_left fun h => h hr''.custody.1

/-- At each of the solver's solves in a run without a failing call, the last bounds that it was told for a
column since that was added are those in force. Exactly the columns overlooked are an exception: for them
it was told none. -/
theorem solve_informed {solver : σ} {domains : Domains} {settings : Settings} {t₀ : Tree (Observed σ) cmp}
    (h₀ : ofSettings (.fresh solver) domains settings = .ok t₀) (hd : domains.WellFormed)
    (ops : List (Op (Observed σ))) {status : SolveStatus} {t' : Tree (Observed σ) cmp}
    (hsolve : solve (t₀.run ops) = .ok status t') (hflawless : t'.lp.solver.calls.Flawless) :
    ∃ past : Trace σ, t'.lp.solver.calls = (.solve, true) :: past ∧ past.cells.length = t'.lp.columns.length ∧
      ∀ j c x, past.cells[j]? = some c → t'.domains.vars[j]? = some x →
        c.told = if t₀.overlooked ops j then none else some x := by
  obtain ⟨hvacant, -, -, hlp, hdomains⟩ := vacant_of_ofSettings h₀
  have hnew := resting_of_ofSettings (K := mirror.charge) h₀ ⟨fun _ he => (nomatch he), rfl⟩
  have hknew : Knows (fun _ => false) t₀ := by
    refine ⟨hdomains ▸ hd, fun _ => nofun, fun j c x hc => ?_⟩
    rw [hlp] at hc
    cases hc
  rcases run_knows hnew hvacant hknew ops with hf | ⟨hr, hknows⟩
  · exact absurd hflawless ((solve_spec flawed_upkeep hf).of_ok hsolve).1.custody
  · exact ((solve_knows hknows hr.custody).of_ok hsolve).2

theorem solve_informed_at_root :
    ∃ t₀ : Tree (Observed ScriptedSolver) SelectionRule.bestBound.order,
      ofSettings (.fresh .fresh) (.free 1) {} = .ok t₀ ∧
      let ops : List (Op (Observed ScriptedSolver)) := [.create 0 0, .activate (some ⟨0, 0⟩), .load,
        .addColumn (7 : Int), .changeBound ⟨0, 0⟩ 0 .upper 3]
      let t' := left solve (t₀.run ops)
      returns solve (t₀.run ops) .optimal = true ∧ t'.lp.solver.calls.Flawless ∧ t'.lp.columns.length = 1 ∧
        t₀.overlooked ops 0 = false ∧
        ∃ past : Trace ScriptedSolver, t'.lp.solver.calls = (.solve, true) :: past ∧
          past.cells.length = t'.lp.columns.length ∧
          ∀ j c x, past.cells[j]? = some c → t'.domains.vars[j]? = some x →
            c.told = if t₀.overlooked ops j then none else some x := by
  refine ⟨_, rfl, by decide +kernel, by decide +kernel, by decide +kernel, by decide +kernel, ?_⟩
  exact @solve_informed ScriptedSolver _ SelectionRule.bestBound.order .fresh (.free 1) {} _ rfl
    (Domains.ofIntervals_wellFormed _) _ .optimal _ (eq_ok_of_returns (by decide +kernel)) (by decide +kernel)

/-- A child loads the one column of its parent anew. As there was one before, the solver is not told its
bounds. -/
theorem solve_uninformed_after_swap :
    ∃ t₀ : Tree (Observed ScriptedSolver) SelectionRule.bestBound.order,
      ofSettings (.fresh .fresh) (.free 1) {} = .ok t₀ ∧
      let ops : List (Op (Observed ScriptedSolver)) := [.create 0 0, .activate (some ⟨0, 0⟩), .load,
        .addColumn (7 : Int), .solve, .create 0 0, .activate none, .activate (some ⟨1, 0⟩), .load]
      let t' := left solve (t₀.run ops)
      returns solve (t₀.run ops) .optimal = true ∧ t'.lp.solver.calls.Flawless ∧
        ¬ ∀ (j : Nat) (c : Cell) (x : Interval), t'.lp.solver.calls.cells[j]? = some c →
          t'.domains.vars[j]? = some x → c.told = some x := by
  exact ⟨_, rfl, by decide +kernel, by decide +kernel, Trace.not_told (j := 0) (by decide +kernel) (by decide +kernel)⟩

end BranchBound.Tree
