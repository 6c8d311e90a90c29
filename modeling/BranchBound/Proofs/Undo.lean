import BranchBound.ChangeLog

namespace BranchBound

def written (vars : Array Interval) (cs : List BoundChange) : Array Interval :=
  cs.foldl (fun vars c => vars.modify c.var (·.setBound c.side c.new)) vars

/-- Each change, made in order, has noted the bound that it replaces. -/
def Noted (vars : Array Interval) : List BoundChange → Prop
  | [] => True
  | c :: cs =>
      (∃ x, vars[c.var]? = some x ∧ c.old = x.bound c.side) ∧
        Noted (vars.modify c.var (·.setBound c.side c.new)) cs

def SameWrites (cs ds : List BoundChange) : Prop :=
  cs.map (fun c => (c.var, c.side, c.new)) = ds.map fun c => (c.var, c.side, c.new)

variable {vars : Array Interval} {cs ds : List BoundChange} {d : Domains}

@[simp] theorem size_written (vars : Array Interval) (cs : List BoundChange) :
    (written vars cs).size = vars.size := by
  induction cs generalizing vars with
  | nil => rfl
  | cons c cs ih => rw [written, List.foldl_cons, ← written, ih, Array.size_modify]

theorem written_append (vars : Array Interval) (cs ds : List BoundChange) :
    written vars (cs ++ ds) = written (written vars cs) ds := List.foldl_append

theorem noted_append : Noted vars (cs ++ ds) ↔ Noted vars cs ∧ Noted (written vars cs) ds := by
  induction cs generalizing vars with
  | nil => simp [Noted, written]
  | cons c cs ih =>
      change _ ∧ Noted _ (cs ++ ds) ↔ (_ ∧ Noted _ cs) ∧ Noted (written (vars.modify c.var _) cs) ds
      rw [ih, and_assoc]

theorem SameWrites.append {es fs : List BoundChange} (h : SameWrites cs ds) (h' : SameWrites es fs) :
    SameWrites (cs ++ es) (ds ++ fs) := by
  unfold SameWrites at *
  rw [List.map_append, List.map_append, h, h']

theorem SameWrites.symm (h : SameWrites cs ds) : SameWrites ds cs := Eq.symm h

theorem SameWrites.trans {es : List BoundChange} (h : SameWrites cs ds) (h' : SameWrites ds es) : SameWrites cs es :=
  Eq.trans h h'

theorem SameWrites.written (h : SameWrites cs ds) (vars : Array Interval) :
    written vars cs = written vars ds := by
  have hmap (es : List BoundChange) : BranchBound.written vars es =
      (es.map fun c => (c.var, c.side, c.new)).foldl
        (fun vars p => vars.modify p.1 (·.setBound p.2.1 p.2.2)) vars := by
    rw [List.foldl_map]
    rfl
  rw [hmap, hmap, h]

theorem SameWrites.forall_var (h : SameWrites cs ds) (p : Nat → Prop) (hc : ∀ c ∈ cs, p c.var) :
    ∀ c ∈ ds, p c.var := by
  intro c hd
  have hm : (c.var, c.side, c.new) ∈ cs.map fun c => (c.var, c.side, c.new) :=
    h ▸ List.mem_map_of_mem hd
  obtain ⟨e, he, heq⟩ := List.mem_map.1 hm
  have hv : e.var = c.var := congrArg Prod.fst heq
  exact hv ▸ hc e he

theorem modify_setBound_old {v : Nat} {side : Side} {x : Interval} (hx : vars[v]? = some x)
    (new : Binary64) :
    (vars.modify v (·.setBound side new)).modify v (·.setBound side (x.bound side)) = vars := by
  apply Array.ext_getElem?
  intro i
  rw [Array.getElem?_modify, Array.getElem?_modify]
  by_cases hi : v = i
  · subst hi
    rw [if_pos rfl, if_pos rfl, hx]
    cases side <;> rfl
  · rw [if_neg hi, if_neg hi]

theorem Domains.look_eq {v : Nat} {x : Interval} (h : d.vars[v]? = some x) : d.look v = .ok x := by
  rw [look, h]

/-- Taking back noted changes, the latest first, leads to the bounds before them. -/
theorem revertChanges_reverse (hn : Noted vars cs) (hd : d.vars = written vars cs) :
    (revertChanges cs.reverse d).1.vars = vars ∧ (revertChanges cs.reverse d).2 = .ok () := by
  induction h : cs.reverse generalizing cs d with
  | nil =>
      obtain rfl : cs = [] := List.reverse_eq_nil_iff.1 h
      exact ⟨hd, rfl⟩
  | cons c rest ih =>
      obtain rfl : cs = rest.reverse ++ [c] := by
        rw [← List.reverse_cons, ← h, List.reverse_reverse]
      obtain ⟨hrest, ⟨x, hx, hold⟩, -⟩ := noted_append.1 hn
      have hc : d.vars = (written vars rest.reverse).modify c.var (·.setBound c.side c.new) := by
        rw [hd, written_append]
        rfl
      have hl : d.look c.var = .ok (x.setBound c.side c.new) := by
        apply Domains.look_eq
        rw [hc, Array.getElem?_modify, if_pos rfl, hx]
        rfl
      rw [revertChanges, Domains.setBound, hl]
      refine ih hrest ?_ (List.reverse_reverse rest)
      rw [Domains.vars_overwrite, hc, hold, modify_setBound_old hx]

theorem ChangeLog.undo_vars {log : ChangeLog} (hn : Noted vars log.changes)
    (hd : d.vars = written vars log.changes) :
    (log.undo d).1.vars = vars ∧ (log.undo d).2 = .ok () := revertChanges_reverse hn hd

/-- To apply changes renews the bounds that they replace, and nothing else. -/
theorem applyChanges_sameWrites (tol : Binary64) (cs : List BoundChange) (d : Domains) :
    SameWrites (applyChanges tol cs d).changes cs := by
  induction cs generalizing d with
  | nil => rfl
  | cons c cs ih =>
      rw [applyChanges]
      split
      · rfl
      · exact congrArg ((c.var, c.side, c.new) :: ·) (ih _)

theorem Domains.forall_lt_overwrite {c : BoundChange} (hc : ∀ e ∈ c :: cs, e.var < d.size) (v : Nat) (side : Side)
    (value : Binary64) : ∀ e ∈ cs, e.var < (d.overwrite v side value).size := by
  intro e he
  rw [size_overwrite]
  exact hc e (List.mem_cons_of_mem c he)

def Domains.overwriteAll (value : BoundChange → Binary64) (cs : List BoundChange) (d : Domains) : Domains :=
  cs.foldl (fun d c => d.overwrite c.var c.side (value c)) d

theorem applyChanges_domains (tol : Binary64) (hc : ∀ c ∈ cs, c.var < d.size) :
    (applyChanges tol cs d).domains = d.overwriteAll BoundChange.new cs := by
  induction cs generalizing d with
  | nil => rfl
  | cons c cs ih =>
      have hx := Array.getElem?_eq_getElem (hc c List.mem_cons_self)
      rw [applyChanges, Domains.look_eq hx]
      exact ih (Domains.forall_lt_overwrite hc c.var c.side _)

theorem revertChanges_eq (hc : ∀ c ∈ cs, c.var < d.size) :
    revertChanges cs d = (d.overwriteAll BoundChange.old cs, .ok ()) := by
  induction cs generalizing d with
  | nil => rfl
  | cons c cs ih =>
      have hx := Array.getElem?_eq_getElem (hc c List.mem_cons_self)
      rw [revertChanges, Domains.setBound, Domains.look_eq hx]
      exact ih (Domains.forall_lt_overwrite hc c.var c.side _)

theorem applyChanges_noted (tol : Binary64) (hc : ∀ c ∈ cs, c.var < d.size) :
    (∃ o, (applyChanges tol cs d).outcome = .ok o) ∧
      (applyChanges tol cs d).domains.vars = written d.vars cs ∧
      Noted d.vars (applyChanges tol cs d).changes := by
  induction cs generalizing d with
  | nil => exact ⟨⟨_, rfl⟩, rfl, trivial⟩
  | cons c cs ih =>
      obtain ⟨x, hx⟩ : ∃ x, d.vars[c.var]? = some x :=
        ⟨_, Array.getElem?_eq_getElem (hc c List.mem_cons_self)⟩
      obtain ⟨⟨o, ho⟩, hvars, hnoted⟩ :=
        ih (Domains.forall_lt_overwrite hc c.var c.side c.new)
      rw [Domains.vars_overwrite] at hvars hnoted
      rw [applyChanges, Domains.look_eq hx]
      refine ⟨⟨((x.setBound c.side c.new).outcome c.var tol).and o, ?_⟩, hvars, ⟨x, hx, rfl⟩, hnoted⟩
      simp only [ho]
      rfl

theorem ChangeLog.apply_noted (log : ChangeLog) (tol : Binary64)
    (hc : ∀ c ∈ log.changes, c.var < d.size) :
    (∃ o, (log.apply tol d).2.2 = .ok o) ∧
      (log.apply tol d).2.1.vars = written d.vars log.changes ∧
      Noted d.vars (log.apply tol d).1.changes ∧
      SameWrites (log.apply tol d).1.changes log.changes ∧
      (log.apply tol d).1.isSealed = log.isSealed := by
  obtain ⟨ho, hvars, hnoted⟩ := applyChanges_noted tol hc
  exact ⟨ho, hvars, hnoted, applyChanges_sameWrites tol log.changes d, rfl⟩

end BranchBound
