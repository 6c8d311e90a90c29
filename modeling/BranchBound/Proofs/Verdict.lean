import BranchBound.Proofs.Undo
import BranchBound.Tree.Growth
import Mathlib.Data.List.Induction

namespace BranchBound

namespace Outcome

@[simp] theorem feasible_and (o : Outcome) : feasible.and o = o := rfl

@[simp] theorem infeasible_and (v : Nat) (o : Outcome) : (infeasible v).and o = infeasible v := rfl

@[simp] theorem and_feasible (o : Outcome) : o.and feasible = o := by cases o <;> rfl

theorem and_assoc (o p q : Outcome) : (o.and p).and q = o.and (p.and q) := by cases o <;> rfl

theorem and_eq_feasible {o p : Outcome} : o.and p = feasible ↔ o = feasible ∧ p = feasible := by
  cases o <;> simp

theorem all_concat (os : List Outcome) (o : Outcome) : all (os ++ [o]) = (all os).and o := by
  unfold all
  rw [List.foldl_append]
  rfl

end Outcome

theorem Interval.outcome_eq_feasible {x : Interval} {v : Nat} {tol : Binary64} :
    x.outcome v tol = .feasible ↔ x.isEmpty tol = false := by
  unfold outcome
  cases x.isEmpty tol <;> simp

def outcomeAt (tol : Binary64) (vars : Array Interval) (v : Nat) : Outcome :=
  match vars[v]? with
  | some x => x.outcome v tol
  | none => .feasible

/-- The first variable whose domain is empty right after one of the changes, made in order. -/
def verdict (tol : Binary64) (vars : Array Interval) : List BoundChange → Outcome
  | [] => .feasible
  | c :: cs =>
      let vars : Array Interval := vars.modify c.var (·.setBound c.side c.new)
      (outcomeAt tol vars c.var).and (verdict tol vars cs)

def NoneEmpty (tol : Binary64) (vars : Array Interval) : Prop := ∀ x ∈ vars, x.isEmpty tol = false

instance (tol : Binary64) (vars : Array Interval) : Decidable (NoneEmpty tol vars) :=
  inferInstanceAs (Decidable (∀ x ∈ vars, x.isEmpty tol = false))

variable {tol : Binary64} {vars : Array Interval} {cs ds : List BoundChange} {d : Domains} {v : Nat}

theorem outcomeAt_eq {x : Interval} (hx : vars[v]? = some x) : outcomeAt tol vars v = x.outcome v tol := by
  rw [outcomeAt, hx]

theorem outcomeAt_modify {c : BoundChange} {x : Interval} (hx : vars[c.var]? = some x) :
    outcomeAt tol (vars.modify c.var (·.setBound c.side c.new)) c.var =
      (x.setBound c.side c.new).outcome c.var tol :=
  outcomeAt_eq (by rw [Array.getElem?_modify, if_pos rfl, hx]; rfl)

theorem verdict_append (tol : Binary64) (vars : Array Interval) (cs ds : List BoundChange) :
    verdict tol vars (cs ++ ds) = (verdict tol vars cs).and (verdict tol (written vars cs) ds) := by
  induction cs generalizing vars with
  | nil => rfl
  | cons c cs ih =>
      rw [List.cons_append, verdict, verdict, ih, Outcome.and_assoc]
      rfl

theorem verdict_concat {x : Interval} {c : BoundChange} (hx : (written vars cs)[c.var]? = some x) :
    verdict tol vars (cs ++ [c]) = (verdict tol vars cs).and ((x.setBound c.side c.new).outcome c.var tol) := by
  rw [verdict_append, verdict, outcomeAt_modify hx, verdict, Outcome.and_feasible]

theorem SameWrites.verdict (h : SameWrites cs ds) (tol : Binary64) (vars : Array Interval) :
    verdict tol vars cs = verdict tol vars ds := by
  induction cs generalizing ds vars with
  | nil =>
      obtain rfl : ds = [] := List.map_eq_nil_iff.1 h.symm
      rfl
  | cons c cs ih =>
      obtain ⟨e, ds', rfl, he, hs⟩ := List.map_eq_cons_iff.1 h.symm
      simp only [Prod.mk.injEq] at he
      obtain ⟨hvar, hside, hnew⟩ := he
      rw [BranchBound.verdict, BranchBound.verdict, hvar, hside, hnew, ih hs.symm]

theorem applyChanges_outcome (hc : ∀ c ∈ cs, c.var < d.size) :
    (applyChanges tol cs d).outcome = .ok (verdict tol d.vars cs) := by
  induction cs generalizing d with
  | nil => rfl
  | cons c cs ih =>
      obtain ⟨x, hx⟩ : ∃ x, d.vars[c.var]? = some x :=
        ⟨_, Array.getElem?_eq_getElem (hc c List.mem_cons_self)⟩
      have hrest := ih (Domains.forall_lt_overwrite hc c.var c.side c.new)
      rw [Domains.vars_overwrite] at hrest
      rw [applyChanges, Domains.look_eq hx]
      simp only [hrest]
      rw [verdict, outcomeAt_modify hx]
      rfl

theorem getElem?_written_of_forall_ne (h : ∀ c ∈ cs, c.var ≠ v) : (written vars cs)[v]? = vars[v]? := by
  induction cs generalizing vars with
  | nil => rfl
  | cons c cs ih =>
      rw [written, List.foldl_cons, ← written, ih fun e he => h e (List.mem_cons_of_mem c he), Array.getElem?_modify,
        if_neg (h c List.mem_cons_self)]

theorem exists_change_of_isEmpty (h : NoneEmpty tol vars) {x : Interval} (hx : (written vars cs)[v]? = some x)
    (hempty : x.isEmpty tol = true) : ∃ c ∈ cs, c.var = v := by
  apply Classical.byContradiction
  intro hnone
  rw [getElem?_written_of_forall_ne fun c hc hv => hnone ⟨c, hc, hv⟩] at hx
  exact Bool.noConfusion (hempty.symm.trans (h x (Array.mem_of_getElem? hx)))

theorem isEmpty_of_verdict (h : verdict tol vars cs = .feasible) (hc : ∃ c ∈ cs, c.var = v) {x : Interval}
    (hx : (written vars cs)[v]? = some x) : x.isEmpty tol = false := by
  induction cs generalizing vars with
  | nil =>
      obtain ⟨c, hc, -⟩ := hc
      cases hc
  | cons c cs ih =>
      rw [verdict, Outcome.and_eq_feasible] at h
      rw [written, List.foldl_cons, ← written] at hx
      by_cases hlater : ∃ e ∈ cs, e.var = v
      · exact ih h.2 hlater hx
      · obtain ⟨e, he, rfl⟩ := hc
        obtain rfl : e = c := (List.mem_cons.1 he).resolve_right fun he => hlater ⟨e, he, rfl⟩
        rw [getElem?_written_of_forall_ne fun f hf hv => hlater ⟨f, hf, hv⟩] at hx
        exact Interval.outcome_eq_feasible.1 (outcomeAt_eq hx ▸ h.1)

/-- Only variables left alone can have empty domains then, and they had them before. -/
theorem isEmpty_iff_of_verdict (h : verdict tol vars cs = .feasible) {x : Interval}
    (hx : (written vars cs)[v]? = some x) :
    x.isEmpty tol = true ↔ (∀ c ∈ cs, c.var ≠ v) ∧ ∃ y, vars[v]? = some y ∧ y.isEmpty tol = true := by
  constructor
  · intro hempty
    have hleft : ∀ c ∈ cs, c.var ≠ v := by
      intro c hc hv
      rw [isEmpty_of_verdict h ⟨c, hc, hv⟩ hx] at hempty
      cases hempty
    exact ⟨hleft, x, (getElem?_written_of_forall_ne hleft).symm.trans hx, hempty⟩
  · rintro ⟨hleft, y, hy, hempty⟩
    rw [getElem?_written_of_forall_ne hleft, hy] at hx
    cases hx
    exact hempty

theorem ChangeLog.lastBound?_concat (cs : List BoundChange) (c : BoundChange) (b : Bool) (v : Nat) (side : Side) :
    lastBound? ⟨cs ++ [c], b⟩ v side = if c.var = v ∧ c.side = side then some c.new else lastBound? ⟨cs, b⟩ v side := by
  unfold lastBound?
  rw [List.reverse_append, List.reverse_singleton, List.singleton_append, List.find?_cons]
  split <;> simp_all

theorem ChangeLog.overlay_concat (cs : List BoundChange) (c : BoundChange) (b : Bool) (v : Nat) (x : Interval) :
    overlay ⟨cs ++ [c], b⟩ v x =
      if c.var = v then (overlay ⟨cs, b⟩ v x).setBound c.side c.new else overlay ⟨cs, b⟩ v x := by
  unfold overlay
  rw [lastBound?_concat, lastBound?_concat]
  by_cases hv : c.var = v
  · cases hs : c.side <;> simp [hv, Interval.setBound]
  · simp [hv]

/-- To search a log backwards for the last bounds of a variable comes to the same as to make its changes in order. -/
theorem ChangeLog.getElem?_written (log : ChangeLog) (vars : Array Interval) (v : Nat) :
    (written vars log.changes)[v]? = vars[v]?.map (log.overlay v) := by
  obtain ⟨cs, b⟩ := log
  dsimp only
  induction cs using List.reverseRecOn with
  | nil =>
      change vars[v]? = _
      cases vars[v]? <;> rfl
  | append_singleton cs c ih =>
      rw [written_append, written, List.foldl_cons, List.foldl_nil, Array.getElem?_modify, ih, Option.map_map]
      split
      · refine congrArg (Option.map · _) (funext fun x => ?_)
        rw [overlay_concat, if_pos ‹_›]
        rfl
      · refine congrArg (Option.map · _) (funext fun x => ?_)
        rw [overlay_concat, if_neg ‹_›]

end BranchBound
