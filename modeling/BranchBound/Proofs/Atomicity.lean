import BranchBound.Proofs.Drift
import BranchBound.Proofs.Faults
import BranchBound.Proofs.Journal

namespace BranchBound

variable {σ : Type} [Solver σ] {cmp : NodeOrder}

namespace Op

def isAtomic : Op σ → Bool
  | .create _ _ | .changeBound _ _ _ _ | .constrain _ _ | .raise _ _ | .addColumn _ | .addRow _ | .activate _
  | .free _ => true
  | .solve | .load | .prune _ | .pop | .clear | .setPolicy _ => false

def isAsking : Op σ → Bool
  | .addColumn _ | .addRow _ | .activate _ => true
  | _ => false

end Op

namespace Tree

variable {K K' : Charge σ} {start : Array Interval} {t u : Tree σ cmp} {id : Handle} {held : Handle → Contents σ}

section Shares

def Sheds (t u : Tree σ cmp) : Prop := Carried (fun n m => n.share = none → m.share = none) t.nodes u.nodes

instance : IsPreorder (Tree σ cmp) Sheds where
  refl t := .refl (fun _ h => h) t.nodes
  trans _ _ _ h h' := .trans (fun _ _ _ f g hn => g (f hn)) h h'

theorem Calm.sheds {x : Option Handle} (h : Calm x .returns t u) : Sheds t u := by
  intro k m hm
  obtain ⟨n, hn, hs⟩ := h.nodes k m hm
  refine ⟨n, hn, fun hnone => ?_⟩
  obtain hshare | hshare := hs.share
  · exact hshare.trans hnone
  · exact hshare

theorem Sweeps.sheds (h : Sweeps t u) : Sheds t u := Calm.sheds (x := none) h.calm

theorem sheds_updateNode {f : Node σ → Node σ} (hf : ∀ n, (f n).share = n.share) :
    Along Sheds (updateNode id f : TreeM σ cmp Unit) :=
  along_node fun _ n hn => .set (fun _ h => h) hn fun hs => (hf n).trans hs

theorem sheds_raise (id : Handle) (bound : Binary64) : Along Sheds (raise id bound : TreeM σ cmp Unit) := by
  refine along_node fun t n hn => ?_
  have hset : Sheds t { t with nodes := t.nodes.set id { n with lowerBound := bound } } :=
    .set (fun _ h => h) hn fun hs => hs
  split
  · exact refl_of Sheds t
  · rw [ends_bind, ends_setNode]
    split
    · exact hset
    · refine Along.after (along_get fun t => ?_) hset
      refine Along.forM (fun c => ?_) t.children t
      exact sheds_updateNode fun _ => rfl
    · exact hset

/-- The active node holds no share once its relaxation is loaded. -/
def Spent (t : Tree σ cmp) : Prop :=
  t.focus.isLoaded = true → ∀ a n, t.active = some a → t.nodes.get? a = some n → n.share = none

theorem Spent.sheds (h : Spent t) (hs : Sheds t u) (ha : u.active = t.active)
    (hl : u.focus.isLoaded = t.focus.isLoaded) : Spent u := by
  intro hload a m hact hm
  obtain ⟨n, hn, hshare⟩ := hs a m hm
  exact hshare (h (hl ▸ hload) a n (ha ▸ hact) hn)

theorem Spent.unladen (h : Spent t) (ht : Tracks held t) : Unladen t := fun hsolved => h (ht.loaded hsolved)

theorem spent_of_active (ha : t.active = none) : Spent t := by
  intro _ a n hact
  cases ha.symm.trans hact

theorem spent_of_isLoaded (hl : t.focus.isLoaded = false) : Spent t := fun h => nomatch hl.symm.trans h

end Shares

section Step

theorem create_spent (hr : Resting (fun _ _ => True) start t) (h : Spent t) (bound estimate : Binary64) :
    Ends (create bound estimate) t (fun _ => Spent) fun _ => Spent := by
  refine (create_spec Upkeep.nothing.toCustody hr bound estimate).mono ?_ ?_
  · rintro id u ⟨-, hs⟩ hload a m ha hm
    obtain ⟨o, hjoined, -⟩ := hs.joined
    obtain ⟨n, hn, -⟩ := hr.actor (hs.active ▸ ha)
    obtain ⟨rfl, -⟩ | hm := hjoined.cases hm
    · cases hjoined.vacant.symm.trans hn
    · exact h (hs.focus ▸ hload) a m (hs.active ▸ ha) hm
  · rintro e u ⟨rfl, -⟩
    exact h

theorem activate_spent (hr : Resting (fun _ _ => True) start t) (ht : Tracks held t) (h : Spent t)
    (target : Option Handle) : Ends (activate target) t (fun _ => Spent) fun _ => Spent := by
  refine (activate_cases Upkeep.nothing.toCustody hr target).mono ?_ ?_
  · rintro _ u (⟨-, rfl, -⟩ | ⟨-, -, harrives, -⟩)
    · exact h
    · obtain ⟨-, -, -, -, hfollowed⟩ := harrives.switched
      exact spent_of_isLoaded hfollowed.isLoaded
  · rintro e u (⟨-, -, -, rfl, -⟩ | hbalks)
    · exact h
    · obtain ⟨solver, journal, rfl⟩ := hbalks.unmoved (h.unladen ht)
      exact h

/-- A load gives the active node's share back, unless the solver fails and nothing is loaded. -/
theorem load_spent (hr : Resting (fun _ _ => True) start t) (h : Spent t) :
    Ends load t (fun _ => Spent) fun _ => Spent := by
  have hcalm : Along (Calm none .returns) (load : TreeM σ cmp LoadResult) := along_load nofun
  refine ((hcalm t).and (load_spec Upkeep.nothing.toRebuilding hr)).mono ?_ ?_
  · rintro (_ | _ | _) u ⟨hcalm, -, hends⟩
    · obtain ⟨-, target, t₁, -, -, hcompletes, -⟩ := hends
      exact fun _ => hcompletes.share
    · obtain rfl : u = t := hends
      exact h
    · exact h.sheds hcalm.sheds hends.stays.active hends.stays.isLoaded
  · rintro e u ⟨-, ⟨rfl, -⟩ | ⟨-, hload, hfail⟩⟩
    · exact h
    · obtain ⟨t₁, hloads, hworks⟩ := hfail.alone
      refine spent_of_isLoaded (hworks.isLoaded.trans ?_)
      cases hloads
      exact hload

theorem perform_spent (hr : Resting (fun _ _ => True) start t) (ht : Tracks held t) (h : Spent t) (op : Op σ) :
    Spent (left op.perform t) := by
  have hK : Upkeep (σ := σ) (fun _ _ => True) (fun _ _ => True) := .nothing
  have hC := hK.toCustody
  have hsheds : ∀ {u}, Sheds t u → Stays t u → Spent u := fun hs hu => h.sheds hs hu.active hu.isLoaded
  have hrefused : ∀ {u}, u = t → Spent u := fun hu => hu ▸ h
  have hqueue : ∀ (t : Tree σ cmp) (r : Frontier.Request), Sheds t { t with frontier := r.perform t.frontier } :=
    fun t _ => refl_of Sheds t
  have halong : ∀ {α : Type} {m : TreeM σ cmp α}, Along (Calm none .returns) m →
      Ends m t (fun _ => Sheds t) fun _ => Sheds t := fun hm =>
    hm.mono (fun _ _ => Calm.sheds) t
  have hstalls : ∀ {e u work}, Sheds t u → Stalls (fun _ _ => True) start work t e u → Spent u := by
    rintro e u work hs (⟨hu, -⟩ | ⟨-, -, hu⟩)
    · exact hrefused hu
    · exact hsheds hs hu.toStays
  refine Ends.left (P := Spent) ?_
  cases op with
  | create bound estimate => exact ends_discard.2 (create_spent hr h bound estimate)
  | changeBound id v side bound =>
      exact ends_discard.2 (((halong (along_changeBound id v side bound)).and
        (changeBound_spec hC hr id v side bound)).mono (fun _ _ g => hsheds g.1 g.2.2.toStays)
        fun _ _ g => hrefused g.2.1)
  | constrain id c =>
      exact ((halong (along_constrain id c)).and (constrain_spec hC hr id c)).mono
        (fun _ _ g => hsheds g.1 g.2.2.toStays) fun _ _ g => hrefused g.2.1
  | raise id bound =>
      exact ((sheds_raise id bound t).and (raise_spec hC hr id bound)).mono
        (fun _ _ g => hsheds g.1 g.2.2.toStays) fun _ _ g => hrefused g.2.1
  | addColumn c =>
      exact ((halong (along_addColumn c)).and (addColumn_spec hK hr c)).mono
        (fun _ _ g => hsheds g.1 g.2.2.toStays) fun _ _ g => hstalls g.1 g.2
  | addRow r =>
      exact ((halong (along_addRow r)).and (addRow_spec (fun s l => hK.addRow s l r) hr)).mono
        (fun _ _ g => hsheds g.1 g.2.2.toStays) fun _ _ g => hstalls g.1 g.2
  | solve =>
      exact ends_discard.2 (((halong along_solve).and (solve_spec hK hr)).mono
        (fun _ _ g => hsheds g.1 g.2.2.toStays)
        fun _ _ g => g.2.elim (hstalls g.1) fun g' => hsheds g.1 g'.2.2.toStays)
  | activate target => exact ends_discard.2 (activate_spent hr ht h target)
  | load => exact ends_discard.2 (load_spent hr h)
  | prune cutoff =>
      exact ends_discard.2 (((along_prune (fun _ _ => Sweeps.sheds) hqueue cutoff t).and (prune_spec hC hr cutoff)).mono
        (fun _ _ ⟨hs, _, _, hkept⟩ => hsheds hs hkept.stays) fun _ _ g => g.2.elim)
  | free id =>
      exact ((along_free (fun _ _ => Sweeps.sheds) hqueue id t).and (free_spec hC hr id)).mono
        (fun _ _ ⟨hs, _, _, hkept⟩ => hsheds hs hkept.stays) fun _ _ g => hrefused g.2.1
  | pop =>
      exact ends_discard.2 (((along_pop hqueue t).and (pop_spec hr)).mono (fun _ _ g => hsheds g.1 g.2.2.toStays)
        fun _ _ g => g.2.elim)
  | clear =>
      exact (clear_spec hK.toRebuilding hr).mono (fun _ _ g => spent_of_active g.2.1.active)
        fun _ _ g => spent_of_active g.2.2.active
  | setPolicy p => exact h

/-- What an operation that fails leaves: the tree as it was, or, if it asked the solver in vain, the tree with another
state of the solver. -/
def Undone (t : Tree σ cmp) (op : Op σ) (e : TreeError) (t' : Tree σ cmp) : Prop :=
  t' = t ∨ op.isAsking = true ∧ (∃ e', e = .solver e') ∧ Unmoved t t'

theorem ends_edit_unmoved (act : SolverM σ Unit) (f : Relaxation σ → Relaxation σ) :
    Ends (onLp (do Relaxation.onSolver act; modify f) : TreeM σ cmp Unit) t (fun _ _ => True)
      fun e u => (∃ e', e = .solver e') ∧ Unmoved t u := by
  rw [ends_onLp]
  refine (Relaxation.ends_edit (ends_trivial act t.lp.solver)).mono (fun _ _ _ => trivial) ?_
  rintro e _ ⟨s, rfl, -⟩
  exact ⟨⟨e, rfl⟩, s, t.journal, rfl⟩

theorem perform_undone (hr : Resting (fun _ _ => True) start t) (ht : Tracks held t) (h : Spent t) {op : Op σ}
    (hop : op.isAtomic = true) : Ends op.perform t (fun _ _ => True) (Undone t op) := by
  have hC := (Upkeep.nothing (σ := σ)).toCustody
  have hready : ∀ work, Ends (requireLoaded work) t (fun _ u => u = t) fun _ u => u = t :=
    fun work => requireLoaded_spec work (fun _ => rfl) fun _ => rfl
  cases op with
  | create bound estimate =>
      exact ends_discard.2 ((create_spec hC hr bound estimate).mono (fun _ _ _ => trivial) fun _ _ g => .inl g.1)
  | changeBound id v side bound =>
      exact ends_discard.2 ((changeBound_spec hC hr id v side bound).mono (fun _ _ _ => trivial) fun _ _ g => .inl g.1)
  | constrain id c => exact (constrain_spec hC hr id c).mono (fun _ _ _ => trivial) fun _ _ g => .inl g.1
  | raise id bound => exact (raise_spec hC hr id bound).mono (fun _ _ _ => trivial) fun _ _ g => .inl g.1
  | addColumn c =>
      refine ((hready _).mono (fun _ _ g => g) fun _ _ => .inl).bind ?_
      rintro _ _ rfl
      rw [ends_bind]
      exact (ends_edit_unmoved _ _).mono (fun _ _ _ => trivial) fun _ _ g => .inr ⟨rfl, g⟩
  | addRow r =>
      refine ((hready _).mono (fun _ _ g => g) fun _ _ => .inl).bind ?_
      rintro _ _ rfl
      exact (ends_edit_unmoved _ _).mono (fun _ _ _ => trivial) fun _ _ g => .inr ⟨rfl, g⟩
  | activate target =>
      refine ends_discard.2 ((activate_cases hC hr target).mono (fun _ _ _ => trivial) ?_)
      rintro e u (⟨-, -, -, hu, -⟩ | hbalks)
      · exact .inl hu
      · exact .inr ⟨rfl, hbalks.solver, hbalks.unmoved (h.unladen ht)⟩
  | free id => exact (free_spec hC hr id).mono (fun _ _ _ => trivial) fun _ _ g => .inl g.1
  | _ => cases hop

end Step

section Run

def withSolver (t : Tree σ cmp) (s : σ) : Tree σ cmp := { t with lp := { t.lp with solver := s } }

/-- An operation that fails changes nothing, whatever was done before. Whatever comes later, a second try of it
included, goes on as if it had never been tried. -/
theorem failed_undone {solver : σ} {domains : Domains} {settings : Settings} {t₀ t' : Tree σ cmp}
    (h₀ : ofSettings solver domains settings = .ok t₀) (ops : List (Op σ)) {op : Op σ} (hop : op.isAtomic = true)
    {e : TreeError} (hfail : op.perform (t₀.run ops) = .error e t') :
    Undone (t₀.run ops) op e t' ∧ ∀ (later : List (Op σ)) (next : Op σ),
      Matching next.answer (((t₀.run ops).withSolver t'.lp.solver).run later) next.answer (t'.run later) := by
  obtain ⟨hvacant, -⟩ := vacant_of_ofSettings h₀
  have hrun : Resting (fun _ _ => True) domains.vars (t₀.run ops) ∧ (∃ held, Tracks held (t₀.run ops)) ∧
      Spent (t₀.run ops) := by
    refine run_induction (P := fun t => Resting (fun _ _ => True) domains.vars t ∧ (∃ held, Tracks held t) ∧ Spent t)
      ⟨resting_of_ofSettings h₀ trivial, ⟨fun _ => .empty, .vacant hvacant⟩, spent_of_active hvacant.active⟩ ?_ ops
    rintro t op ⟨hr, ⟨held, ht⟩, h⟩
    have hfollows : Follows (fun _ _ => True) domains.vars held t (left op.perform t) :=
      ((perform_tracks .nothing ht hr op).mono (fun _ _ g => g) fun _ _ g => g.elim id id).left
    exact ⟨hfollows.1, ⟨_, hfollows.2⟩, perform_spent hr ht h op⟩
  obtain ⟨hr, ⟨held, ht⟩, h⟩ := hrun
  have hundone := (perform_undone hr ht h hop).of_error hfail
  have hechoes : Echoes ((t₀.run ops).withSolver t'.lp.solver) t' := by
    obtain rfl | ⟨-, -, solver, journal, rfl⟩ := hundone
    · exact ⟨_, rfl⟩
    · exact ⟨journal, rfl⟩
  exact ⟨hundone, fun later next => heedless_answer next _ _ (hechoes.run later)⟩

theorem failed_undone_at_root :
    ∃ t₀ : Tree ScriptedSolver SelectionRule.bestBound.order,
      ofSettings (ScriptedSolver.fresh.planFailure .getBasis (some ⟨0, "busy"⟩)) (.free 1) {} = .ok t₀ ∧
      let t := t₀.run [.create 0 0, .activate (some ⟨0, 0⟩), .load, .addColumn (7 : Int), .solve, .create 0 0]
      let again : Op ScriptedSolver := .activate (some ⟨1, 0⟩)
      let t' := left again.perform t
      again.isAtomic = true ∧ returns again.answer t' (.activated (.activated ⟨1, 0⟩)) = true ∧
        ∃ e, again.perform t = .error e t' ∧ Undone t again e t' ∧
          ∀ (later : List (Op ScriptedSolver)) (next : Op ScriptedSolver),
            Matching next.answer ((t.withSolver t'.lp.solver).run later) next.answer (t'.run later) := by
  refine ⟨_, rfl, rfl, by decide +kernel, ?_⟩
  have hfails : ∀ {t : Tree ScriptedSolver SelectionRule.bestBound.order} {op : Op ScriptedSolver},
      returns op.perform t ⟨⟩ = false → ∃ e, op.perform t = .error e (left op.perform t) := eq_error_of_returns
  exact (hfails (by decide +kernel)).imp fun e hfail => ⟨hfail, @failed_undone ScriptedSolver _
    SelectionRule.bestBound.order (ScriptedSolver.fresh.planFailure .getBasis (some ⟨0, "busy"⟩)) (.free 1) {} _ _ rfl
    _ _ rfl e hfail⟩

end Run

end Tree

end BranchBound
