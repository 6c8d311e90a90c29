import BranchBound.Proofs.Verdict
import Mathlib.Data.List.Forall2

namespace BranchBound

section Splits

variable {α : Type} {a : α} {l : List α}

theorem exists_split_cons {p : List α → α → List α → Prop} :
    (∃ before b after, a :: l = before ++ b :: after ∧ p before b after) ↔
      p [] a l ∨ ∃ before b after, l = before ++ b :: after ∧ p (a :: before) b after := by
  constructor
  · rintro ⟨before, b, after, hsplit, hp⟩
    obtain ⟨rfl, heq⟩ | ⟨before, rfl, rfl⟩ := List.cons_eq_append_iff.1 hsplit
    · obtain ⟨rfl, rfl⟩ := List.cons.inj heq
      exact .inl hp
    · exact .inr ⟨before, b, after, rfl, hp⟩
  · rintro (hp | ⟨before, b, after, rfl, hp⟩)
    · exact ⟨[], a, l, rfl, hp⟩
    · exact ⟨a :: before, b, after, rfl, hp⟩

theorem forall_split_cons {p : List α → α → List α → Prop} :
    (∀ before b after, a :: l = before ++ b :: after → p before b after) ↔
      p [] a l ∧ ∀ before b after, l = before ++ b :: after → p (a :: before) b after := by
  have h := @exists_split_cons α a l fun before b after => ¬ p before b after
  simpa [not_or] using not_congr h

end Splits

section Changes

variable {tol : Binary64} {vars : Array Interval} {cs ds : List BoundChange} {d : Domains} {v : Nat}

def Empties (tol : Binary64) (vars : Array Interval) (before : List BoundChange) (c : BoundChange) : Prop :=
  ∃ x, (written vars (before ++ [c]))[c.var]? = some x ∧ x.isEmpty tol = true

theorem outcomeAt_eq_feasible : outcomeAt tol vars v = .feasible ↔ ¬ ∃ x, vars[v]? = some x ∧ x.isEmpty tol = true := by
  unfold outcomeAt
  cases vars[v]? with
  | none => simp
  | some x => simp [Interval.outcome_eq_feasible]

theorem outcomeAt_eq_infeasible {w : Nat} :
    outcomeAt tol vars v = .infeasible w ↔ v = w ∧ ∃ x, vars[v]? = some x ∧ x.isEmpty tol = true := by
  unfold outcomeAt
  cases vars[v]? with
  | none => simp
  | some x => cases hx : x.isEmpty tol <;> simp [Interval.outcome, hx]

theorem verdict_eq_feasible : verdict tol vars cs = .feasible ↔
    ∀ before c after, cs = before ++ c :: after → ¬ Empties tol vars before c := by
  induction cs generalizing vars with
  | nil => simp [verdict]
  | cons c cs ih =>
      rw [verdict, Outcome.and_eq_feasible, outcomeAt_eq_feasible, ih, forall_split_cons]
      rfl

theorem verdict_eq_infeasible : verdict tol vars cs = .infeasible v ↔
    ∃ before c after, cs = before ++ c :: after ∧ c.var = v ∧ Empties tol vars before c ∧
      ∀ earlier e later, before = earlier ++ e :: later → ¬ Empties tol vars earlier e := by
  induction cs generalizing vars with
  | nil => simp [verdict]
  | cons c cs ih =>
      rw [verdict, exists_split_cons]
      simp only [forall_split_cons]
      cases hhere : outcomeAt tol (vars.modify c.var (·.setBound c.side c.new)) c.var with
      | infeasible w =>
          -- The first of the changes empties its domain, so no other change can be the one looked for.
          obtain ⟨rfl, hempty⟩ := outcomeAt_eq_infeasible.1 hhere
          rw [Outcome.infeasible_and, Outcome.infeasible.injEq]
          constructor
          · exact fun hv => .inl ⟨hv, hempty, by simp⟩
          · rintro (⟨hv, -⟩ | ⟨before, e, after, -, -, -, hfirst, -⟩)
            · exact hv
            · exact absurd hempty hfirst
      | feasible =>
          have hhere : ¬ Empties tol vars [] c := outcomeAt_eq_feasible.1 hhere
          rw [Outcome.feasible_and, ih]
          simp only [hhere, not_false_eq_true, true_and, false_and, and_false, false_or]
          rfl

theorem map_feasible_and (o : Except OutOfRange Outcome) : o.map Outcome.feasible.and = o := by cases o <;> rfl

theorem applyChanges_append (tol : Binary64) (cs ds : List BoundChange) (d : Domains) :
    applyChanges tol (cs ++ ds) d =
      let r := applyChanges tol cs d
      match r.outcome with
      | .error e => ⟨r.changes ++ ds, r.domains, .error e⟩
      | .ok o =>
          let s := applyChanges tol ds r.domains
          ⟨r.changes ++ s.changes, s.domains, s.outcome.map o.and⟩ := by
  induction cs generalizing d with
  | nil =>
      change applyChanges tol ds d = ⟨_, _, (applyChanges tol ds d).outcome.map Outcome.feasible.and⟩
      rw [map_feasible_and]
      rfl
  | cons c cs ih =>
      rw [List.cons_append, applyChanges, applyChanges]
      cases hx : d.look c.var with
      | error e => rfl
      | ok x =>
          simp only [ih]
          generalize applyChanges tol cs (d.overwrite c.var c.side c.new) = r
          cases ho : r.outcome with
          | error e => rfl
          | ok o =>
              simp only [List.cons_append, Except.map, Applied.mk.injEq, true_and]
              cases (applyChanges tol ds r.domains).outcome with
              | error e => rfl
              | ok p => exact congrArg Except.ok (Outcome.and_assoc _ _ _).symm

theorem revertChanges_append (cs ds : List BoundChange) (d : Domains) :
    revertChanges (cs ++ ds) d =
      match revertChanges cs d with
      | (d, .ok ()) => revertChanges ds d
      | (d, .error e) => (d, .error e) := by
  induction cs generalizing d with
  | nil => rfl
  | cons c cs ih =>
      rw [List.cons_append, revertChanges, revertChanges]
      cases d.setBound c.var c.side c.old with
      | error e => rfl
      | ok d => exact ih d

theorem SameWrites.applyChanges_eq (h : SameWrites cs ds) (hc : ∀ c ∈ cs, c.var < d.size) :
    applyChanges tol cs d = applyChanges tol ds d := by
  induction cs generalizing ds d with
  | nil =>
      obtain rfl : ds = [] := List.map_eq_nil_iff.1 h.symm
      rfl
  | cons c cs ih =>
      obtain ⟨e, ds', rfl, he, hs⟩ := List.map_eq_cons_iff.1 h.symm
      obtain ⟨v, side, old, new⟩ := c
      obtain ⟨w, side', old', new'⟩ := e
      obtain ⟨rfl, rfl, rfl⟩ : w = v ∧ side' = side ∧ new' = new := by simpa using he
      have hx := Array.getElem?_eq_getElem (hc _ List.mem_cons_self)
      rw [applyChanges, applyChanges, Domains.look_eq hx]
      have hrest := ih hs.symm (Domains.forall_lt_overwrite hc w side' new')
      simp only [hrest]

end Changes

structure AppliedLogs where
  logs : List ChangeLog
  domains : Domains
  outcome : Except OutOfRange Outcome

namespace ChangeLog

def applyAll (tol : Binary64) : List ChangeLog → Domains → AppliedLogs
  | [], d => ⟨[], d, .ok .feasible⟩
  | log :: logs, d =>
      let r := log.apply tol d
      match r.2.2 with
      | .error e => ⟨r.1 :: logs, r.2.1, .error e⟩
      | .ok o =>
          let rest := applyAll tol logs r.2.1
          ⟨r.1 :: rest.logs, rest.domains, rest.outcome.map o.and⟩

def undoAll : List ChangeLog → Domains → Domains × Except OutOfRange Unit
  | [], d => (d, .ok ())
  | log :: logs, d =>
      match undoAll logs d with
      | (d, .ok ()) => log.undo d
      | (d, .error e) => (d, .error e)

def join (logs : List ChangeLog) : ChangeLog := ⟨logs.flatMap changes, true⟩

variable {tol : Binary64} {vars : Array Interval} {log : ChangeLog} {logs : List ChangeLog} {d : Domains} {v : Nat}

theorem changes_join_cons (log : ChangeLog) (logs : List ChangeLog) :
    (join (log :: logs)).changes = log.changes ++ (join logs).changes := List.flatMap_cons

theorem changes_join_append (logs logs' : List ChangeLog) :
    (join (logs ++ logs')).changes = (join logs).changes ++ (join logs').changes := List.flatMap_append

/-- Logs applied one after the other leave what their changes in one log leave. -/
theorem applyChanges_join (tol : Binary64) (logs : List ChangeLog) (d : Domains) :
    applyChanges tol (join logs).changes d =
      let r := applyAll tol logs d
      ⟨(join r.logs).changes, r.domains, r.outcome⟩ := by
  induction logs generalizing d with
  | nil => rfl
  | cons log logs ih =>
      rw [changes_join_cons, applyChanges_append, applyAll, apply]
      cases ho : (applyChanges tol log.changes d).outcome with
      | error e => simp only [ho, changes_join_cons]
      | ok o => simp only [ho, ih, changes_join_cons]

theorem undoAll_eq (logs : List ChangeLog) (d : Domains) :
    undoAll logs d = revertChanges (join logs).changes.reverse d := by
  induction logs generalizing d with
  | nil => rfl
  | cons log logs ih =>
      rw [changes_join_cons, List.reverse_append, revertChanges_append, undoAll, ih]
      rfl

/-- The logs are the same but for the old bounds in them. -/
def Renewed (logs' logs : List ChangeLog) : Prop :=
  List.Forall₂ (fun log' log => SameWrites log'.changes log.changes ∧ log'.isSealed = log.isSealed) logs' logs

theorem Renewed.refl (logs : List ChangeLog) : Renewed logs logs := List.forall₂_same.2 fun _ _ => ⟨rfl, rfl⟩

theorem Renewed.sameWrites {logs' : List ChangeLog} (h : Renewed logs' logs) :
    SameWrites (join logs').changes (join logs).changes := by
  induction h with
  | nil => rfl
  | cons h _ ih => exact h.1.append ih

theorem applyAll_renewed (tol : Binary64) (logs : List ChangeLog) (d : Domains) :
    Renewed (applyAll tol logs d).logs logs := by
  induction logs generalizing d with
  | nil => exact .nil
  | cons log logs ih =>
      have hlog : SameWrites (log.apply tol d).1.changes log.changes := applyChanges_sameWrites tol log.changes d
      rw [applyAll]
      cases (log.apply tol d).2.2 with
      | error e => exact .cons ⟨hlog, rfl⟩ (Renewed.refl logs)
      | ok o => exact .cons ⟨hlog, rfl⟩ (ih _)

theorem Renewed.applyAll_eq {logs' : List ChangeLog} (h : Renewed logs' logs) (tol : Binary64)
    (hc : ∀ c ∈ (join logs').changes, c.var < d.size) : applyAll tol logs' d = applyAll tol logs d := by
  induction h generalizing d with
  | nil => rfl
  | @cons log' log logs' logs hlog hlogs ih =>
      rw [changes_join_cons, List.forall_mem_append] at hc
      have heq : log'.apply tol d = log.apply tol d := by
        rw [apply, apply, hlog.1.applyChanges_eq hc.1, hlog.2]
      obtain ⟨⟨o, ho⟩, hvars, -, -, -⟩ := log'.apply_noted tol hc.1
      have hsize : (log'.apply tol d).2.1.size = d.size := by
        rw [Domains.size, hvars, size_written]
        rfl
      rw [applyAll, applyAll, ← heq]
      have hrest : applyAll tol logs' (log'.apply tol d).2.1 = applyAll tol logs (log'.apply tol d).2.1 := by
        apply ih
        rw [hsize]
        exact hc.2
      simp only [ho, hrest]

theorem applyAll_noted (tol : Binary64) (hc : ∀ c ∈ (join logs).changes, c.var < d.size) :
    (applyAll tol logs d).outcome = .ok (verdict tol d.vars (join logs).changes) ∧
      (applyAll tol logs d).domains = d.overwriteAll BoundChange.new (join logs).changes ∧
      (applyAll tol logs d).domains.vars = written d.vars (join logs).changes ∧
      Noted d.vars (join (applyAll tol logs d).logs).changes := by
  have hjoin := applyChanges_join tol logs d
  obtain ⟨-, hvars, hnoted⟩ := applyChanges_noted tol hc
  have hdomains := applyChanges_domains tol hc
  have houtcome : (applyChanges tol _ d).outcome = .ok _ := applyChanges_outcome hc
  rw [hjoin] at hvars hnoted hdomains houtcome
  exact ⟨houtcome, hdomains, hvars, hnoted⟩

theorem changes_join_split (k : Nat) (logs : List ChangeLog) :
    (join logs).changes = (join (logs.take k)).changes ++ (join (logs.drop k)).changes := by
  rw [← changes_join_append, List.take_append_drop]

/-- To take the inner logs back leads to the bounds after the outer ones. -/
theorem undoAll_drop (tol : Binary64) (hc : ∀ c ∈ (join logs).changes, c.var < d.size) (k : Nat) :
    let r := applyAll tol logs d
    (undoAll (r.logs.drop k) r.domains).2 = .ok () ∧
      (undoAll (r.logs.drop k) r.domains).1.vars = written d.vars (join (logs.take k)).changes := by
  intro r
  obtain ⟨-, -, hvars, hnoted⟩ := applyAll_noted tol hc
  have hrenewed := applyAll_renewed tol logs d
  have houter : Renewed (r.logs.take k) (logs.take k) := List.forall₂_take k hrenewed
  -- The inner logs have noted what they replaced on top of the bounds that the outer ones wrote.
  rw [← hrenewed.sameWrites.written, changes_join_split k, written_append] at hvars
  rw [changes_join_split k] at hnoted
  obtain ⟨hback, hok⟩ := revertChanges_reverse (noted_append.1 hnoted).2 hvars
  rw [undoAll_eq]
  exact ⟨hok, hback.trans (houter.sameWrites.written _)⟩

end ChangeLog

namespace Domains

structure LeavesAlone (v : Nat) (d d' : Domains) : Prop where
  vars : d'.vars[v]? = d.vars[v]?
  queued : d'.queued[v]? = d.queued[v]?
  queue : v ∈ d'.queue ↔ v ∈ d.queue

variable {d d' d'' : Domains} {v w : Nat}

theorem LeavesAlone.refl (v : Nat) (d : Domains) : LeavesAlone v d d := ⟨rfl, rfl, Iff.rfl⟩

theorem LeavesAlone.trans (h : LeavesAlone v d d') (h' : LeavesAlone v d' d'') : LeavesAlone v d d'' :=
  ⟨h'.vars.trans h.vars, h'.queued.trans h.queued, h'.queue.trans h.queue⟩

theorem leavesAlone_overwrite (hw : w ≠ v) (d : Domains) (side : Side) (value : Binary64) :
    LeavesAlone v d (d.overwrite w side value) := by
  constructor
  case vars => simp [vars_overwrite, Array.getElem?_modify, hw]
  case queued =>
    simp only [overwrite, enqueue]
    split
    · simp [Array.getElem?_setIfInBounds_ne hw]
    · rfl
  case queue =>
    simp only [overwrite, enqueue]
    split
    · simp [hw.symm]
    · rfl

theorem leavesAlone_overwriteAll (value : BoundChange → Binary64) {cs : List BoundChange} (hc : ∀ c ∈ cs, c.var ≠ v)
    (d : Domains) : LeavesAlone v d (d.overwriteAll value cs) := by
  induction cs generalizing d with
  | nil => exact .refl v d
  | cons c cs ih =>
      have hhere := leavesAlone_overwrite (hc c List.mem_cons_self) d c.side (value c)
      exact hhere.trans (ih (fun e he => hc e (List.mem_cons_of_mem c he)) _)

end Domains

namespace ChangeLog

variable {tol : Binary64} {logs : List ChangeLog} {d : Domains} {v : Nat}

theorem size_applyAll (tol : Binary64) (hc : ∀ c ∈ (join logs).changes, c.var < d.size) :
    (applyAll tol logs d).domains.size = d.size := by
  rw [Domains.size, (applyAll_noted tol hc).2.2.1, size_written]
  rfl

theorem bound_applyAll (tol : Binary64) (hc : ∀ c ∈ (join logs).changes, c.var < d.size) (v : Nat) (side : Side) :
    (applyAll tol logs d).domains.bound v side =
      (d.bound v side).map fun x => ((join logs).lastBound? v side).getD x := by
  have hx : (applyAll tol logs d).domains.vars[v]? = d.vars[v]?.map ((join logs).overlay v) := by
    rw [(applyAll_noted tol hc).2.2.1, getElem?_written]
  unfold Domains.bound Domains.look
  rw [hx, size_applyAll tol hc]
  cases d.vars[v]? with
  | none => rfl
  | some x => cases side <;> rfl

theorem leavesAlone_applyAll (tol : Binary64) (hc : ∀ c ∈ (join logs).changes, c.var < d.size)
    (hv : ∀ c ∈ (join logs).changes, c.var ≠ v) : d.LeavesAlone v (applyAll tol logs d).domains := by
  rw [(applyAll_noted tol hc).2.1]
  exact Domains.leavesAlone_overwriteAll _ hv d

theorem leavesAlone_undoAll (hc : ∀ c ∈ (join logs).changes, c.var < d.size ∧ c.var ≠ v) :
    d.LeavesAlone v (undoAll logs d).1 := by
  have hc : ∀ c ∈ (join logs).changes.reverse, c.var < d.size ∧ c.var ≠ v := fun c hm =>
    hc c (List.mem_reverse.1 hm)
  rw [undoAll_eq, revertChanges_eq fun c hm => (hc c hm).1]
  exact Domains.leavesAlone_overwriteAll _ (fun c hm => (hc c hm).2) d

/-- How logs are applied to `d` in order and taken back from the last one to the first. The outcome names the variable
of the first change that leaves its domain empty. -/
structure Cancels (tol : Binary64) (logs : List ChangeLog) (d : Domains) : Prop where
  renewed : Renewed (applyAll tol logs d).logs logs
  restored : let r := applyAll tol logs d
    (undoAll r.logs r.domains).2 = .ok () ∧ (undoAll r.logs r.domains).1.vars = d.vars
  peeled : ∀ k, let r := applyAll tol logs d
    (undoAll (r.logs.drop k) r.domains).2 = .ok () ∧
      (undoAll (r.logs.drop k) r.domains).1.vars = (applyAll tol (logs.take k) d).domains.vars
  bound : ∀ v side, (applyAll tol logs d).domains.bound v side =
    (d.bound v side).map fun x => ((join logs).lastBound? v side).getD x
  alone : ∀ v, (∀ c ∈ (join logs).changes, c.var ≠ v) → ∀ k, let r := applyAll tol logs d
    d.LeavesAlone v (applyAll tol (logs.take k) d).domains ∧ d.LeavesAlone v (undoAll (r.logs.drop k) r.domains).1
  decided : ∃ o, (applyAll tol logs d).outcome = .ok o
  feasible : (applyAll tol logs d).outcome = .ok .feasible ↔
    ∀ before c after, (join logs).changes = before ++ c :: after → ¬ Empties tol d.vars before c
  infeasible : ∀ v, (applyAll tol logs d).outcome = .ok (.infeasible v) ↔
    ∃ before c after, (join logs).changes = before ++ c :: after ∧ c.var = v ∧ Empties tol d.vars before c ∧
      ∀ earlier e later, before = earlier ++ e :: later → ¬ Empties tol d.vars earlier e

theorem cancels (tol : Binary64) (hc : ∀ c ∈ (join logs).changes, c.var < d.size) : Cancels tol logs d := by
  have houtcome := (applyAll_noted tol hc).1
  have hrenewed := applyAll_renewed tol logs d
  have hpeeled := undoAll_drop tol hc
  have houter (k : Nat) : ∀ c ∈ (join (logs.take k)).changes, c ∈ (join logs).changes := fun c hm => by
    rw [changes_join_split k]
    exact List.mem_append_left _ hm
  constructor
  case renewed => exact hrenewed
  case restored => exact hpeeled 0
  case peeled =>
    intro k r
    have hvars := (applyAll_noted tol fun c hm => hc c (houter k c hm)).2.2.1
    exact ⟨(hpeeled k).1, (hpeeled k).2.trans hvars.symm⟩
  case bound => exact bound_applyAll tol hc
  case alone =>
    intro v hv k r
    have hsize : r.domains.size = d.size := size_applyAll tol hc
    have hrange : ∀ c ∈ (join r.logs).changes, c.var < r.domains.size ∧ c.var ≠ v :=
      hrenewed.sameWrites.symm.forall_var (fun w => w < r.domains.size ∧ w ≠ v) fun c hm => ⟨hsize ▸ hc c hm, hv c hm⟩
    constructor
    · exact leavesAlone_applyAll tol (fun c hm => hc c (houter k c hm)) fun c hm => hv c (houter k c hm)
    · refine (leavesAlone_applyAll tol hc hv).trans (leavesAlone_undoAll fun c hm => hrange c ?_)
      rw [changes_join_split k]
      exact List.mem_append_right _ hm
  case decided => exact ⟨_, houtcome⟩
  case feasible =>
    rw [houtcome, Except.ok.injEq]
    exact verdict_eq_feasible
  case infeasible =>
    intro v
    rw [houtcome, Except.ok.injEq]
    exact verdict_eq_infeasible

/-- Applying logs one within the other and taking them back cancel, and the logs serve for other domains as they did
before. -/
theorem nested_logs_cancel (tol : Binary64) (logs : List ChangeLog) (d : Domains)
    (hc : ∀ log ∈ logs, ∀ c ∈ log.changes, c.var < d.size) :
    Cancels tol logs d ∧
      ∀ (tol' : Binary64) (e : Domains), (∀ log ∈ logs, ∀ c ∈ log.changes, c.var < e.size) →
        applyAll tol' (applyAll tol logs d).logs e = applyAll tol' logs e ∧
          Cancels tol' (applyAll tol logs d).logs e := by
  have hjoin {n : Nat} (h : ∀ log ∈ logs, ∀ c ∈ log.changes, c.var < n) : ∀ c ∈ (join logs).changes, c.var < n := by
    intro c hm
    obtain ⟨log, hlog, hm⟩ := List.mem_flatMap.1 hm
    exact h log hlog c hm
  refine ⟨cancels tol (hjoin hc), fun tol' e he => ?_⟩
  have hrenewed := applyAll_renewed tol logs d
  have hrange := hrenewed.sameWrites.symm.forall_var (· < e.size) (hjoin he)
  exact ⟨hrenewed.applyAll_eq tol' hrange, cancels tol' hrange⟩

/-- The inner log empties two domains, the one that the outer log has changed twice first. -/
theorem nested_logs_cancel_emptied :
    let outer : ChangeLog := ⟨[⟨0, .upper, 99, 5⟩, ⟨0, .upper, 99, 3⟩], true⟩
    let inner : ChangeLog := ⟨[⟨0, .lower, 99, 4⟩, ⟨1, .lower, 99, 2⟩], true⟩
    let d := Domains.ofIntervals [⟨0, 10⟩, ⟨0, 1⟩, ⟨0, 1⟩]
    let e := Domains.ofIntervals [⟨0, 2⟩, ⟨0, 20⟩]
    (∀ log ∈ [outer, inner], ∀ c ∈ log.changes, c.var < d.size) ∧ Cancels 0 [outer, inner] d ∧
      (∀ log ∈ [outer, inner], ∀ c ∈ log.changes, c.var < e.size) ∧
      Cancels 0 (applyAll 0 [outer, inner] d).logs e ∧
      (applyAll 0 [outer, inner] d).outcome = .ok (.infeasible 0) := by
  intro outer inner d e
  have hd : ∀ log ∈ [outer, inner], ∀ c ∈ log.changes, c.var < d.size := by decide +kernel
  have he : ∀ log ∈ [outer, inner], ∀ c ∈ log.changes, c.var < e.size := by decide +kernel
  obtain ⟨hcancels, hothers⟩ := nested_logs_cancel 0 [outer, inner] d hd
  exact ⟨hd, hcancels, he, (hothers 0 e he).2, by decide +kernel⟩

end ChangeLog

end BranchBound
