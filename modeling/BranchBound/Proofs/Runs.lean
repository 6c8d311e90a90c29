import BranchBound.Proofs.Clearing
import BranchBound.Proofs.Loading
import BranchBound.Proofs.Pruning
import BranchBound.Proofs.Solving

namespace BranchBound

inductive Op (σ : Type) [Solver σ]
  | create (bound estimate : Binary64)
  | changeBound (id : Handle) (v : Nat) (side : Side) (bound : Binary64)
  | constrain (id : Handle) (c : Nat)
  | raise (id : Handle) (bound : Binary64)
  | addColumn (c : Solver.Column σ)
  | addRow (r : Solver.Row σ)
  | solve
  | activate (target : Option Handle)
  | load
  | prune (cutoff : Binary64)
  | free (id : Handle)
  | pop
  | clear
  | setPolicy (p : SnapshotPolicy)

variable {σ : Type} [Solver σ] {cmp : NodeOrder}

def Op.perform : Op σ → TreeM σ cmp Unit
  | .create bound estimate => discard (Tree.create bound estimate)
  | .changeBound id v side bound => discard (Tree.changeBound id v side bound)
  | .constrain id c => Tree.constrain id c
  | .raise id bound => Tree.raise id bound
  | .addColumn c => Tree.addColumn c
  | .addRow r => Tree.addRow r
  | .solve => discard Tree.solve
  | .activate target => discard (Tree.activate target)
  | .load => discard Tree.load
  | .prune cutoff => discard (Tree.prune cutoff)
  | .free id => Tree.free id
  | .pop => discard Tree.pop
  | .clear => Tree.clear
  | .setPolicy p => Tree.setPolicy p

namespace Tree

variable {K K' : Charge σ} {start : Array Interval} {t : Tree σ cmp}

def run (t : Tree σ cmp) (ops : List (Op σ)) : Tree σ cmp := ops.foldl (fun t op => left op.perform t) t

@[simp] theorem run_concat (t : Tree σ cmp) (ops : List (Op σ)) (op : Op σ) :
    t.run (ops ++ [op]) = left op.perform (t.run ops) := by
  unfold run
  rw [List.foldl_append]
  rfl

/-- An account of a run, continued with the trees before and after each operation. -/
def chronicle {β : Type} (note : β → Tree σ cmp → Tree σ cmp → β) (b : β) (t : Tree σ cmp) (ops : List (Op σ)) : β :=
  (ops.foldl (fun s op => (left op.perform s.1, note s.2 s.1 (left op.perform s.1))) (t, b)).2

theorem chronicle_concat {β : Type} (note : β → Tree σ cmp → Tree σ cmp → β) (b : β) (t : Tree σ cmp)
    (ops : List (Op σ)) (op : Op σ) :
    chronicle note b t (ops ++ [op]) = note (chronicle note b t ops) (t.run ops) (t.run (ops ++ [op])) := by
  have hrun : ∀ s : Tree σ cmp × β,
      (ops.foldl (fun s op => (left op.perform s.1, note s.2 s.1 (left op.perform s.1))) s).1 = s.1.run ops := by
    intro s
    unfold run
    induction ops generalizing s with
    | nil => rfl
    | cons op ops ih => exact ih _
  unfold chronicle
  rw [List.foldl_append, run_concat, ← hrun (t, b)]
  rfl

theorem run_induction {P : Tree σ cmp → Prop} {t : Tree σ cmp} (h : P t)
    (hstep : ∀ t (op : Op σ), P t → P (left op.perform t)) (ops : List (Op σ)) : P (t.run ops) := by
  induction ops using List.reverseRecOn with
  | nil => exact h
  | append_singleton ops op ih =>
      rw [run_concat]
      exact hstep _ op ih

/-- Where an operation ends that did not succeed: refused, stopped by the solver, or found out. -/
def Stops (K K' : Charge σ) (start : Array Interval) (t : Tree σ cmp) (e : TreeError) (t' : Tree σ cmp) : Prop :=
  Fails K' start t e t' ∨ Resting K start t'

theorem perform_spec (hK : Upkeep K K') (h : Resting K start t) (op : Op σ) :
    Ends op.perform t (fun _ => Resting K start) (Stops K K' start t) := by
  have hC : Custody K K' := hK.toCustody
  cases op with
  | create bound estimate =>
      exact ends_discard.2 ((create_spec hC h bound estimate).mono (fun _ _ h' => h'.1)
        fun _ _ h' => .inl (.inl ⟨h'.1, .inr ⟨_, h'.2.1⟩⟩))
  | changeBound id v side bound =>
      exact ends_discard.2 ((changeBound_spec hC h id v side bound).mono (fun _ _ h' => h'.1)
        fun _ _ h' => .inl (.inl (RejectsChange.refused h')))
  | constrain id c =>
      exact (constrain_spec hC h id c).mono (fun _ _ h' => h'.1) fun _ _ h' => .inl (.inl (Rejects.refused h'))
  | raise id bound =>
      exact (raise_spec hC h id bound).mono (fun _ _ h' => h'.1) fun _ _ h' => .inl (.inl (Rejects.refused h'))
  | addColumn c => exact (addColumn_spec hK h c).mono (fun _ _ h' => h'.1) fun _ _ h' => .inl h'.fails
  | addRow r =>
      exact (addRow_spec (fun s l => hK.addRow s l r) h).mono (fun _ _ h' => h'.1) fun _ _ h' => .inl h'.fails
  | solve =>
      exact ends_discard.2 ((solve_spec hK h).mono (fun _ _ h' => h'.1)
        fun _ _ h' => h'.imp Stalls.fails fun h' => h'.2.1)
  | activate target =>
      exact ends_discard.2 ((activate_spec hC h target).mono (fun _ _ h' => h'.1) fun _ _ h' => .inl h')
  | load =>
      refine ends_discard.2 ((load_spec hK.toRebuilding h).mono (fun _ _ h' => h'.1) fun e t' h' => ?_)
      rcases h' with ⟨rfl, rfl, -⟩ | ⟨-, -, hfail⟩
      · exact .inl (.inl ⟨rfl, .inr ⟨_, rfl⟩⟩)
      · exact hfail.resting.imp_left .inr
  | prune cutoff =>
      exact ends_discard.2 ((prune_spec hC h cutoff).mono (fun _ _ h' => h'.1) fun _ _ h' => h'.elim)
  | free id =>
      exact (free_spec hC h id).mono (fun _ _ h' => h'.1) fun _ _ h' => .inl (.inl (Rejects.refused h'))
  | pop => exact ends_discard.2 ((pop_spec h).mono (fun _ _ h' => h'.1) fun _ _ h' => h'.elim)
  | clear => exact (clear_spec hK.toRebuilding h).mono (fun _ _ h' => h'.1) fun _ _ h' => .inl (.inr ⟨h'.1, h'.2.1⟩)
  | setPolicy p => exact (setPolicy_spec h p).mono (fun _ _ h' => h'.1) fun _ _ h' => h'.elim

theorem Stops.resting {t' : Tree σ cmp} {e : TreeError} (h : Stops K K' start t e t') (ht : Resting K start t)
    (hK : ∀ r l, K' r l → K r l) : Resting K start t' := by
  rcases h with (⟨rfl, -⟩ | ⟨-, h⟩) | h
  · exact ht
  · exact { h with custody := hK _ _ h.custody }
  · exact h

/-- What a charge says survives every run if a failing call leaves it as well. -/
theorem run_resting (hK : Upkeep K K) (h : Resting K start t) (ops : List (Op σ)) :
    Resting K start (t.run ops) :=
  run_induction h (fun _ op h => ((perform_spec hK h op).mono (fun _ _ h => h) fun _ _ h' =>
    h'.resting h fun _ _ h => h).left) ops

theorem vacant_of_ofSettings {solver : σ} {domains : Domains} {settings : Settings}
    (h : ofSettings solver domains settings = .ok t) :
    Vacant t ∧ t.stats = {} ∧ t.nodes = .empty ∧ t.lp = .ofSolver solver ∧ t.domains = domains := by
  unfold ofSettings Arena.withCapacity? at h
  split at h
  · cases h
  · rename_i nodes hn
    split at hn
    · cases hn
      cases h
      refine ⟨⟨Arena.wellFormed_empty, fun k => ?_, rfl, rfl, rfl, rfl, rfl, rfl, rfl, rfl, rfl, rfl, rfl⟩,
        rfl, rfl, rfl, rfl⟩
      rfl
    · cases hn

theorem resting_of_ofSettings {solver : σ} {domains : Domains} {settings : Settings}
    (h : ofSettings solver domains settings = .ok t) (hk : K (.ofSolver solver) []) : Resting K domains.vars t := by
  obtain ⟨hvacant, hstats, hnodes, hlp, hdomains⟩ := vacant_of_ofSettings h
  refine hvacant.resting ?_ (hlp ▸ hk) (by rw [hdomains])
  rw [hstats, hnodes]
  exact ⟨rfl, rfl⟩

end Tree

end BranchBound
