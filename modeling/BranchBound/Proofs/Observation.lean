import BranchBound.Proofs.Invariant
import BranchBound.Solver.Observed

namespace BranchBound

variable {σ : Type} [Solver σ]

namespace Call

def effect (c : Contents (Observed σ)) : Call σ → Contents (Observed σ)
  | .addColumns cs => c.append ⟨cs, []⟩
  | .addRows rs => c.append ⟨[], rs⟩
  | .shrinkColumns n => { c with columns := c.columns.take n }
  | .shrinkRows n => { c with rows := c.rows.take n }
  | .clear => .empty
  | _ => c

def edits : Call σ → Bool
  | .addColumns _ | .addRows _ | .shrinkColumns _ | .shrinkRows _ | .clear => true
  | _ => false

def handlesBasis : Call σ → Bool
  | .getBasis | .setBasis _ | .freeBasis _ => true
  | _ => false

theorem effect_of_not_edits {call : Call σ} (h : call.edits = false) (c : Contents (Observed σ)) :
    call.effect c = c := by
  cases call <;> first | rfl | cases h

end Call

namespace Trace

def grant (tr : Trace σ) (cs : List (Call σ)) : Trace σ := (cs.map (·, true)).reverse ++ tr

theorem grant_cons (tr : Trace σ) (c : Call σ) (cs : List (Call σ)) :
    tr.grant (c :: cs) = Trace.grant ((c, true) :: tr) cs := by
  simp [grant]

theorem grant_append (tr : Trace σ) (cs ds : List (Call σ)) : tr.grant (cs ++ ds) = (tr.grant cs).grant ds := by
  simp [grant]

end Trace

/-- A statement about what the relaxation holds, the solver's calls and the bases kept. -/
abbrev Record (σ : Type) [Solver σ] :=
  Contents (Observed σ) → Trace σ → List (Solver.Basis (Observed σ)) → Prop

namespace Record

variable {P P' : Record σ}

def charge (P : Record σ) : Charge (Observed σ) := fun r l => P r.contents r.solver.calls l

/-- One call more, if it succeeds, keeps `P`; else it leaves `P'`. -/
structure Keeps (P P' : Record σ) (call : Call σ) : Prop where
  done : ∀ c tr l, P c tr l → P (call.effect c) ((call, true) :: tr) l
  failed : ∀ c tr l, P c tr l → P' c ((call, false) :: tr) l

section Observe

variable {α : Type} {r : Relaxation (Observed σ)} {l : List (Solver.Basis (Observed σ))} {call : Call σ}
  {act : SolverM σ α}

theorem ends_observe {o : Observed σ} {Q : α → Observed σ → Prop} {E : SolverError → Observed σ → Prop}
    (hQ : ∀ a s, Q a ⟨s, (call, true) :: o.calls⟩) (hE : ∀ e s, E e ⟨s, (call, false) :: o.calls⟩) :
    Ends (Observed.observe call act) o Q E := by
  unfold Ends Observed.observe
  cases act o.solver with
  | ok a s => exact hQ a s
  | error e s => exact hE e s

theorem ends_observe_fails {o : Observed σ} {Q : α → Observed σ → Prop} {E : SolverError → Observed σ → Prop}
    (hQ : ∀ a s, Q a ⟨s, (call, true) :: o.calls⟩)
    (hE : ∀ e s, act o.solver = .error e s → E e ⟨s, (call, false) :: o.calls⟩) :
    Ends (Observed.observe call act) o Q E := by
  unfold Ends Observed.observe
  cases hact : act o.solver with
  | ok a s => exact hQ a s
  | error e s => exact hE e s hact

theorem ends_onObserved (act : SolverM σ α) {act' : SolverM (Observed σ) α}
    {Q : α → Relaxation (Observed σ) → Prop} {E : SolverError → Relaxation (Observed σ) → Prop}
    (hact : act' = Observed.observe call act)
    (hQ : ∀ a s, Q a { r with solver := ⟨s, (call, true) :: r.solver.calls⟩ })
    (hE : ∀ e s, E e { r with solver := ⟨s, (call, false) :: r.solver.calls⟩ }) :
    Ends (Relaxation.onSolver act') r Q E := by
  rw [hact]
  exact ends_onPart.2 (ends_observe hQ hE)

theorem Keeps.observe (hP : Keeps P P' call) (he : call.edits = false) (h : P.charge r l) :
    Ends (Relaxation.onSolver (Observed.observe call act)) r (fun _ r' => P.charge r' l)
      fun _ r' => P'.charge r' l := by
  refine ends_onObserved act rfl (fun _ s => ?_) fun _ s => hP.failed _ _ _ h
  have hdone := hP.done _ _ _ h
  rw [Call.effect_of_not_edits he] at hdone
  exact hdone

theorem Keeps.edit (hP : Keeps P P' call) (h : P.charge r l) {act' : SolverM (Observed σ) Unit}
    (act : SolverM σ Unit) (hact : act' = Observed.observe call act)
    {f : Relaxation (Observed σ) → Relaxation (Observed σ)} (hs : ∀ r, (f r).solver = r.solver)
    (hf : ∀ s, (f { r with solver := s }).contents = call.effect r.contents) :
    Ends (do
        Relaxation.onSolver act'
        modify f : RelaxationM (Observed σ) Unit) r (fun _ r' => P.charge r' l)
      fun _ r' => P'.charge r' l := by
  rw [ends_bind]
  refine ends_onObserved act hact (fun _ s => ?_) fun _ s => hP.failed _ _ _ h
  rw [ends_modify]
  unfold charge
  rw [hs, hf]
  exact hP.done _ _ _ h

end Observe

variable {r : Relaxation (Observed σ)} {l : List (Solver.Basis (Observed σ))}

theorem extendColumns_keeps (hP : ∀ c : Call σ, c.edits = true → Keeps P P' c) (h : P.charge r l)
    (cs : List (Solver.Column (Observed σ))) :
    Ends (Relaxation.extendColumns cs) r (fun _ r' => P.charge r' l) fun _ r' => P'.charge r' l := by
  unfold Relaxation.extendColumns
  split
  · exact h
  · refine (hP (.addColumns cs) rfl).edit h (Solver.addColumns cs) rfl (fun _ => rfl) fun s => ?_
    simp [Relaxation.contents, Call.effect, Contents.append]

theorem extendRows_keeps (hP : ∀ c : Call σ, c.edits = true → Keeps P P' c) (h : P.charge r l)
    (rs : List (Solver.Row (Observed σ))) :
    Ends (Relaxation.extendRows rs) r (fun _ r' => P.charge r' l) fun _ r' => P'.charge r' l := by
  unfold Relaxation.extendRows
  split
  · exact h
  · refine (hP (.addRows rs) rfl).edit h (Solver.addRows rs) rfl (fun _ => rfl) fun s => ?_
    simp [Relaxation.contents, Call.effect, Contents.append]

theorem shrinkColumns_keeps (hP : ∀ c : Call σ, c.edits = true → Keeps P P' c) (h : P.charge r l) (n : Nat) :
    Ends (Relaxation.shrinkColumns n) r (fun _ r' => P.charge r' l) fun _ r' => P'.charge r' l := by
  unfold Relaxation.shrinkColumns
  rw [ends_bind, ends_get]
  split
  · exact (hP (.shrinkColumns n) rfl).edit h (Solver.shrinkColumns n) rfl (fun _ => rfl) fun s => rfl
  · exact h

theorem shrinkRows_keeps (hP : ∀ c : Call σ, c.edits = true → Keeps P P' c) (h : P.charge r l) (n : Nat) :
    Ends (Relaxation.shrinkRows n) r (fun _ r' => P.charge r' l) fun _ r' => P'.charge r' l := by
  unfold Relaxation.shrinkRows
  rw [ends_bind, ends_get]
  split
  · exact (hP (.shrinkRows n) rfl).edit h (Solver.shrinkRows n) rfl (fun _ => rfl) fun s => rfl
  · exact h

theorem addRow_keeps {row : Solver.Row (Observed σ)} (hP : Keeps P P' (.addRows [row])) (h : P.charge r l) :
    Ends (Relaxation.addRow row) r (fun _ r' => P.charge r' l) fun _ r' => P'.charge r' l := by
  refine hP.edit h (Solver.addRow row) rfl (fun _ => rfl) fun _ => ?_
  simp [Relaxation.contents, Call.effect, Contents.append]

/-- What is recorded of the bases fits in with what becomes of them. -/
structure Accounts (P P' : Record σ) : Prop where
  perm : ∀ c tr l l', l.Perm l' → P c tr l → P c tr l'
  issue : ∀ c tr l b, P c tr l → P c ((.getBasis, true) :: tr) ((tr.length, b) :: l)
  refuse : ∀ c tr l, P c tr l → P' c ((.getBasis, false) :: tr) l
  install : ∀ c tr l b, b ∈ l → P c tr l → P c ((.setBasis b.1, true) :: tr) l
  reject : ∀ c tr l b, b ∈ l → P c tr l → P' c ((.setBasis b.1, false) :: tr) l
  free : ∀ c tr l b, P c tr (b :: l) → P c ((.freeBasis b.1, true) :: tr) l

theorem Accounts.custody (hP : Accounts P P') : Custody P.charge P'.charge where
  perm _ l l' hl h := hP.perm _ _ l l' hl h
  getBasis _ _ h := by
    refine ends_onPart.2 ?_
    change Ends Observed.getBasis _ _ _
    unfold Observed.getBasis
    rw [ends_bind, ends_get, ends_bind]
    exact ends_observe (fun b _ => hP.issue _ _ _ b h) fun _ _ => hP.refuse _ _ _ h
  freeBasis _ _ b h := hP.free _ _ _ b h

theorem Accounts.rebuilding (hP : Accounts P P') (hedit : ∀ c : Call σ, c.edits = true → Keeps P P' c) :
    Rebuilding P.charge P'.charge where
  toCustody := hP.custody
  extend _ _ cs rs h := (extendColumns_keeps hedit h cs).bind fun _ _ h => extendRows_keeps hedit h rs
  shrink _ _ size h :=
    (shrinkColumns_keeps hedit h size.columns).bind fun _ _ h => shrinkRows_keeps hedit h size.rows
  clear _ _ h := (hedit .clear rfl).edit h Solver.clear rfl (fun _ => rfl) fun _ => rfl
  setBasis _ l b hb h :=
    ends_onObserved (Solver.setBasis b.2) rfl (fun _ _ => hP.install _ _ l b hb h) fun _ _ => hP.reject _ _ l b hb h

theorem Accounts.upkeep (hP : Accounts P P') (hcall : ∀ c : Call σ, c.handlesBasis = false → Keeps P P' c) :
    Upkeep P.charge P'.charge where
  toRebuilding := hP.rebuilding fun c hc => hcall c (by cases c <;> first | rfl | cases hc)
  addColumn _ _ c h := (hcall (.addColumns [c]) rfl).edit h (Solver.addColumn c) rfl (fun _ => rfl) fun _ => by
    simp [Relaxation.contents, Call.effect, Contents.append]
  addRow _ _ row h := addRow_keeps (hcall (.addRows [row]) rfl) h
  setBounds _ _ v lower upper h := (hcall (.setBounds v lower upper) rfl).observe rfl h
  solve _ _ h := (hcall .solve rfl).observe rfl h

end Record

end BranchBound
