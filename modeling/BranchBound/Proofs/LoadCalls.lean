import BranchBound.Proofs.Fidelity

namespace BranchBound

variable {σ α β : Type} [Solver σ] {cmp : NodeOrder}

def Call.Fails (s : σ) (e : SolverError) (s' : σ) : Call σ → Prop
  | .addColumns cs => Solver.addColumns cs s = .error e s'
  | .addRows rs => Solver.addRows rs s = .error e s'
  | .shrinkColumns n => Solver.shrinkColumns n s = .error e s'
  | .shrinkRows n => Solver.shrinkRows n s = .error e s'
  | .clear => Solver.clear s = .error e s'
  | .setBasis _ => ∃ b, Solver.setBasis b s = .error e s'
  | _ => False

namespace Trace

variable {before after : Trace σ}

def edits (tr : Trace σ) : List (Call σ) := (tr.reverse.map Prod.fst).filter Call.edits

def Adds (cs : List (Call σ)) (before after : Trace σ) : Prop :=
  ∃ new, after = new ++ before ∧ Flawless new ∧ edits new = cs

def Breaks (before after : Trace σ) : Prop := ∃ new, after = new ++ before ∧ ¬ Flawless new

theorem adds_grant (cs : List (Call σ)) (tr : Trace σ) : Adds (cs.filter Call.edits) tr (tr.grant cs) := by
  refine ⟨(cs.map (·, true)).reverse, rfl, ?_, ?_⟩
  · intro e he
    obtain ⟨c, -, rfl⟩ := List.mem_map.1 (List.mem_reverse.1 he)
    rfl
  · rw [edits, List.reverse_reverse, List.map_map]
    exact congrArg _ (List.map_id cs)

end Trace

namespace Observed

variable {o o₁ o' : Observed σ} {e : SolverError} {cs : List (Call σ)}

def Breaks (e : SolverError) (o o' : Observed σ) : Prop :=
  ∃ cs c s, o'.calls = (c, false) :: o.calls.grant cs ∧ Call.Fails s e o'.solver c

theorem Breaks.after (h : o₁.calls = o.calls.grant cs) (h' : Breaks e o₁ o') : Breaks e o o' := by
  obtain ⟨ds, c, s, hcalls, hfails⟩ := h'
  exact ⟨cs ++ ds, c, s, by rw [hcalls, h, Trace.grant_append], hfails⟩

theorem Breaks.trace (h : Breaks e o o') : Trace.Breaks o.calls o'.calls := by
  obtain ⟨cs, c, s, hcalls, -⟩ := h
  exact ⟨(c, false) :: (cs.map (·, true)).reverse, hcalls, fun h => nomatch (flawless_cons.1 h).1⟩

theorem ends_call {c : Call σ} {act : SolverM σ Unit} (hact : ∀ s e s', act s = .error e s' → Call.Fails s e s' c)
    (o : Observed σ) : Ends (observe c act) o (fun _ o' => o'.calls = o.calls.grant [c]) fun e => Breaks e o :=
  Record.ends_observe_fails (fun _ _ => rfl) fun e s h => ⟨[], c, o.solver, rfl, hact _ e s h⟩

end Observed

namespace WarmStart

variable {β : Type} {w : WarmStart β}

def repaid (w : WarmStart β) : WarmStart β := if 1 < w.shares then { w with shares := w.shares - 1 } else ⟨none, 0⟩

def freed? (w : WarmStart β) : Option β := if 1 < w.shares then none else w.basis

theorem release_eq_ok {w' : WarmStart β} {b : Option β} (h : release w = .ok b w') : b = w.freed? ∧ w' = w.repaid := by
  unfold release at h
  unfold freed? repaid
  split at h
  · cases h
  · split at h
    · rename_i hshares
      cases h
      exact ⟨(if_pos hshares).symm, (if_pos hshares).symm⟩
    · rename_i hshares
      rw [if_neg hshares, if_neg hshares]
      split at h
      · rename_i b hb
        cases h
        exact ⟨hb.symm, rfl⟩
      · cases h

end WarmStart

namespace Role

def fork? : Role σ → Option (Snapshot σ)
  | .fork s => some s
  | _ => none

def repaid (r : Role σ) : Role σ :=
  match r.warmStart? with
  | some w => r.withWarmStart w.repaid
  | none => r

end Role

/-- What becomes of the node `k` when `id` gives back its share in the warm start of `fork`. -/
def Node.repaid (id : Handle) (fork : Option Handle) (k : Handle) (m : Node σ) : Node σ := { m with
  share := if k = id then none else m.share
  role := if fork = some k then m.role.repaid else m.role }

namespace Snapshot

def additions (s : Snapshot (Observed σ)) : List (Call σ) :=
  (if s.columns.isEmpty then [] else [.addColumns s.columns]) ++ if s.rows.isEmpty then [] else [.addRows s.rows]

theorem edits_additions (s : Snapshot (Observed σ)) : ∀ c ∈ s.additions, c.edits = true := by
  unfold additions
  refine List.forall_mem_append.2 ⟨?_, ?_⟩ <;> split <;> simp [Call.edits]

end Snapshot

namespace Relaxation

variable {r : Relaxation (Observed σ)} {cs ds : List (Call σ)}

def cuts (r : Relaxation (Observed σ)) (size : Extent) : List (Call σ) :=
  (if size.columns < r.columns.length then [.shrinkColumns size.columns] else []) ++
    if size.rows < r.rows.length then [.shrinkRows size.rows] else []

theorem edits_cuts (r : Relaxation (Observed σ)) (size : Extent) : ∀ c ∈ r.cuts size, c.edits = true := by
  unfold cuts
  refine List.forall_mem_append.2 ⟨?_, ?_⟩ <;> split <;> simp [Call.edits]

def Asks (r : Relaxation (Observed σ)) (m : RelaxationM (Observed σ) Unit) (cs : List (Call σ)) : Prop :=
  Ends m r (fun _ r' => r'.solver.calls = r.solver.calls.grant cs) fun e r' => Observed.Breaks e r.solver r'.solver

theorem Asks.bind {m : RelaxationM (Observed σ) Unit} {f : Unit → RelaxationM (Observed σ) Unit} (h : Asks r m cs)
    (hf : ∀ r', r'.solver.calls = r.solver.calls.grant cs → Asks r' (f ()) ds) : Asks r (m >>= f) (cs ++ ds) :=
  Ends.bind h fun _ r₁ h₁ => (hf r₁ h₁).mono (fun _ _ h => by rw [h, h₁, Trace.grant_append]) fun _ _ => .after h₁

theorem asks_edit (call : Call σ) {act : SolverM (Observed σ) Unit} (act' : SolverM σ Unit)
    (hact : act = Observed.observe call act') (hfails : ∀ s e s', act' s = .error e s' → call.Fails s e s')
    {f : Relaxation (Observed σ) → Relaxation (Observed σ)} (hf : ∀ r, (f r).solver = r.solver) :
    Asks r (do
      onSolver act
      modify f) [call] := by
  unfold Asks
  rw [hact, ends_bind]
  refine ends_onPart.2 ((Observed.ends_call hfails r.solver).mono (fun _ o h => ?_) fun _ _ h => h)
  rw [ends_modify, hf]
  exact h

theorem asks_extendColumns (columns : List (Solver.Column (Observed σ))) (r : Relaxation (Observed σ)) :
    Asks r (extendColumns columns) (if columns.isEmpty then [] else [.addColumns columns]) := by
  unfold extendColumns
  split
  · exact Eq.refl r.solver.calls
  · exact asks_edit (σ := σ) (.addColumns columns) (Solver.addColumns columns) rfl (fun _ _ _ h => h) fun _ => rfl

theorem asks_extendRows (rows : List (Solver.Row (Observed σ))) (r : Relaxation (Observed σ)) :
    Asks r (extendRows rows) (if rows.isEmpty then [] else [.addRows rows]) := by
  unfold extendRows
  split
  · exact Eq.refl r.solver.calls
  · exact asks_edit (σ := σ) (.addRows rows) (Solver.addRows rows) rfl (fun _ _ _ h => h) fun _ => rfl

theorem asks_extend (s : Snapshot (Observed σ)) (r : Relaxation (Observed σ)) :
    Asks r (extend s.columns s.rows) s.additions :=
  (asks_extendColumns s.columns r).bind fun r₁ _ => asks_extendRows s.rows r₁

theorem asks_shrinkColumns (n : Nat) (r : Relaxation (Observed σ)) :
    Asks r (shrinkColumns n) (if n < r.columns.length then [.shrinkColumns n] else []) := by
  unfold Asks shrinkColumns
  rw [ends_bind, ends_get]
  split
  · exact asks_edit (.shrinkColumns n) (Solver.shrinkColumns n) rfl (fun _ _ _ h => h) fun _ => rfl
  · exact Eq.refl r.solver.calls

theorem asks_shrinkRows (n : Nat) (r : Relaxation (Observed σ)) :
    Asks r (shrinkRows n) (if n < r.rows.length then [.shrinkRows n] else []) := by
  unfold Asks shrinkRows
  rw [ends_bind, ends_get]
  split
  · exact asks_edit (.shrinkRows n) (Solver.shrinkRows n) rfl (fun _ _ _ h => h) fun _ => rfl
  · exact Eq.refl r.solver.calls

theorem asks_shrink (size : Extent) (r : Relaxation (Observed σ)) : Asks r (shrink size) (r.cuts size) := by
  refine (((asks_shrinkColumns size.columns r).and (shrinkColumns_contents size.columns r)).mono (fun _ _ h => h)
    fun _ _ h => h.1).bind ?_
  rintro _ r₁ ⟨h₁, hcontents⟩
  have hrows : r₁.rows = r.rows := congrArg Contents.rows hcontents
  have h := asks_shrinkRows size.rows r₁
  rw [hrows] at h
  exact h.mono (fun _ _ h => by rw [h, h₁, cuts, Trace.grant_append]) fun _ _ => .after h₁

theorem asks_clear (r : Relaxation (Observed σ)) : Asks r clear [.clear] :=
  asks_edit .clear Solver.clear rfl (fun _ _ _ h => h) fun _ => rfl

end Relaxation

namespace Tree

section Forks

variable {t u : Tree σ cmp} {skip : Nat} {ids : List Handle}

instance : IsPreorder (Tree σ cmp) Alike where
  refl := .refl
  trans _ _ _ h h' := ⟨h'.nodes.trans h.nodes, h'.path.trans h.path, h'.sizes.trans h.sizes,
    h'.lpFork.trans h.lpFork, h'.subroot.trans h.subroot, h'.active.trans h.active⟩

theorem alike_replaySnapshot (s : Snapshot σ) : Along Alike (replaySnapshot s : TreeM σ cmp Unit) := fun _ =>
  (replaySnapshot_loads Upkeep.nothing.toRebuilding (.intro trivial (.refl _)) s).mono (fun _ _ h => h.alike)
    fun _ _ h => h.elim (fun h => h.2.alike) fun h => h.2.alike

def replayFork (id : Handle) : TreeM σ cmp Unit := do
  match (← read (·.node id)).role with
  | .fork s => do
      record (.replayed id s.columns.length s.rows.length)
      replaySnapshot s
  | _ => return

/-- Where no Subroot is left to replay, each node is replayed once, from above. -/
theorem replay_eq_forM (h : ∀ id ∈ ids.drop skip, ∀ n, t.nodes.get? id = some n → n.role.isSubroot = false) :
    replay skip ids t = (ids.drop skip).forM replayFork t := by
  induction ids generalizing skip t with
  | nil =>
      rw [List.drop_nil]
      unfold replay
      rfl
  | cons id ids ih =>
      cases skip with
      | succ skip =>
          unfold replay
          exact ih h
      | zero =>
          have hrest : ∀ u, Alike t u → replay 0 ids u = ids.forM replayFork u := by
            intro u hu
            refine ih fun k hk n hn => h k (List.mem_cons_of_mem _ hk) n ?_
            rw [← hu.nodes]
            exact hn
          rw [List.drop_zero, List.forM]
          unfold replay replayFork
          rw [bind_assoc]
          refine bind_congr_of_ends (ends_read.2 ?_)
          cases hn : t.nodes.get? id with
          | none =>
              rw [node_eq_error.2 ⟨hn, rfl⟩]
              trivial
          | some n =>
              rw [node_eq_ok.2 hn]
              dsimp only
              have hplain := h id List.mem_cons_self n hn
              cases hrole : n.role with
              | fork s =>
                  dsimp only
                  rw [bind_assoc]
                  refine bind_congr_of_ends ((ends_record _).2 (bind_congr_of_ends ?_))
                  exact (alike_replaySnapshot s _).mono (fun _ u hu => hrest u { hu with }) fun _ _ _ => trivial
              | subroot s =>
                  rw [hrole] at hplain
                  cases hplain
              | child _ | sibling _ | leaf | active | deadend | junction _ => exact hrest t (.refl t)

theorem replay_stretch (hu : Alike t u) {stretch : List Handle}
    (h : ∀ x ∈ stretch.drop skip, ∀ n, t.nodes.get? x = some n → n.role.isSubroot = false) :
    replay skip stretch u = (stretch.drop skip).forM replayFork u :=
  replay_eq_forM fun x hx n hn => h x hx n (hu.nodes ▸ hn)

end Forks

section Stretch

variable {K : Charge σ} {start : Array Interval} {held : Handle → Contents σ} {t u : Tree σ cmp} {id : Handle}
  {n : Node σ} {x : Handle} {c : Nat}

/-- What the Forks on a stretch of the path keep, the one furthest up first. -/
def forksAlong (t : Tree σ cmp) (stretch : List Handle) : List (Snapshot σ) :=
  stretch.filterMap fun x => (t.nodes.get? x).bind fun n => n.role.fork?

def below (t : Tree σ cmp) (id : Option Handle) : Nat :=
  ((id.bind t.nodes.get?).map fun n => n.depth + 1).getD 0

def subroot? (t : Tree σ cmp) : Option (Snapshot σ) :=
  (t.subroot.bind t.nodes.get?).bind fun n => n.role.snapshot?

theorem below_some (hn : t.nodes.get? id = some n) : t.below (some id) = n.depth + 1 := by
  unfold below
  rw [Option.bind_some, hn]
  rfl

theorem Resting.active_of_path (hr : Resting K start t) {i : Nat} (hx : t.path[i]? = some x) :
    ∃ id, t.active = some id := by
  rw [hr.active_eq, tip]
  have hlt := (List.getElem?_eq_some_iff.1 hx).1
  obtain ⟨j, hj⟩ : ∃ j, t.path.length = j + 1 := ⟨t.path.length - 1, by omega⟩
  rw [hj, before_succ (List.getElem?_eq_getElem (by omega))]
  exact ⟨_, rfl⟩

theorem Remembers.subroot_le (h : Remembers held t) (hr : Resting K start t) (hc : t.correctDepth = some c)
    (hx : x ∈ t.path) (hn : t.nodes.get? x = some n) (hq : n.role.isSubroot = true) : n.depth ≤ c := by
  obtain ⟨i, hi⟩ := List.mem_iff_getElem?.1 hx
  obtain ⟨m, hm, rfl, -⟩ := hr.walk.step i x hi
  cases hn.symm.trans hm
  obtain ⟨a, ha⟩ := hr.active_of_path hi
  obtain ⟨f, m, hf, hm, hle⟩ := hr.nearest_deepest ha hr.subroot rfl hi hn hq
  obtain ⟨j, hj, hjc⟩ := h.anchored c f hc hf
  obtain ⟨m', hm', hdepth, -⟩ := hr.walk.step j f hj
  cases hm.symm.trans hm'
  omega

/-- No node of a kind is on the path below the nearest one above the active node. -/
theorem Resting.none_below (hr : Resting K start t) (ha : t.active = some id) {q : Role σ → Bool} {g : Option Handle}
    (hg : Nearest t.nodes q t.above g) (hact : q .active = false) (hx : x ∈ t.path.drop (t.below g))
    (hn : t.nodes.get? x = some n) : q n.role = false := by
  obtain ⟨i, hi⟩ := List.mem_iff_getElem?.1 hx
  rw [List.getElem?_drop] at hi
  by_contra hq
  obtain ⟨f, m, rfl, hm, hle⟩ := hr.nearest_deepest ha hg hact hi hn (eq_true_of_ne_false hq)
  rw [below_some hm] at hle
  omega

/-- The first place that is replayed. -/
def resumesAt (t : Tree σ cmp) : Nat :=
  match t.correctDepth with
  | some c => c + 1
  | none => t.below t.subroot

theorem Remembers.none_replayed (h : Remembers held t) (hr : Resting K start t) (ha : t.active = some id) {j : Nat}
    (hx : x ∈ (t.path.take j).drop t.resumesAt) (hn : t.nodes.get? x = some n) : n.role.isSubroot = false := by
  rw [List.drop_take] at hx
  replace hx := List.mem_of_mem_take hx
  unfold resumesAt at hx
  cases hc : t.correctDepth with
  | none =>
      rw [hc] at hx
      exact hr.none_below ha hr.subroot rfl hx hn
  | some c =>
      rw [hc] at hx
      by_contra hq
      have hle := h.subroot_le hr hc (List.mem_of_mem_drop hx) hn (eq_true_of_ne_false hq)
      obtain ⟨i, hi⟩ := List.mem_iff_getElem?.1 hx
      simp only [List.getElem?_drop] at hi
      obtain ⟨m, hm, hdepth, -⟩ := hr.walk.step _ x hi
      cases hn.symm.trans hm
      omega

theorem Resting.forksAlong_take (hr : Resting K start t) (ha : t.active = some id) (k : Nat) :
    t.forksAlong ((t.path.take (t.below t.lpFork)).drop k) = t.forksAlong (t.path.drop k) := by
  have hnone : t.forksAlong ((t.path.drop (t.below t.lpFork)).drop (k - (t.path.take (t.below t.lpFork)).length)) = [] := by
    refine List.filterMap_eq_nil_iff.2 fun x hx => ?_
    cases hn : t.nodes.get? x with
    | none => rfl
    | some n =>
        have hq := hr.none_below ha hr.lpFork rfl (List.mem_of_mem_drop hx) hn
        rw [Option.bind_some]
        cases hrole : n.role <;> rw [hrole] at hq <;> first | rfl | cases hq
  conv_rhs => rw [← List.take_append_drop (t.below t.lpFork) t.path, List.drop_append]
  unfold forksAlong at hnone ⊢
  rw [List.filterMap_append, hnone, List.append_nil]

end Stretch

section Calls

variable {K : Charge (Observed σ)} {start : Array Interval} {held : Handle → Contents (Observed σ)}
  {t u : Tree (Observed σ) cmp} {cs ds : List (Call σ)} {id : Handle} {n : Node (Observed σ)} {c : Nat}

def Asks (t : Tree (Observed σ) cmp) (m : TreeM (Observed σ) cmp α) (cs : List (Call σ))
    (Q : α → Tree (Observed σ) cmp → Prop) : Prop :=
  Ends m t (fun a u => u.lp.solver.calls = t.lp.solver.calls.grant cs ∧ Q a u) fun e u =>
    ∀ e', e = .solver e' → Observed.Breaks e' t.lp.solver u.lp.solver

theorem Asks.bind {m : TreeM (Observed σ) cmp α} {f : α → TreeM (Observed σ) cmp β}
    {R : α → Tree (Observed σ) cmp → Prop} {Q : β → Tree (Observed σ) cmp → Prop} (h : Asks t m cs R)
    (hf : ∀ a u, R a u → Asks u (f a) ds Q) : Asks t (m >>= f) (cs ++ ds) Q :=
  Ends.bind h fun a u ⟨hcs, hr⟩ => (hf a u hr).mono (fun _ _ h => ⟨by rw [h.1, hcs, Trace.grant_append], h.2⟩)
    fun _ _ h e' he => (h e' he).after hcs

theorem Asks.after {m : TreeM (Observed σ) cmp α} {f : α → TreeM (Observed σ) cmp β}
    {R : α → Tree (Observed σ) cmp → Prop} {Q : β → Tree (Observed σ) cmp → Prop} (h : Asks t m [] R)
    (hf : ∀ a u, R a u → Asks u (f a) cs Q) : Asks t (m >>= f) cs Q :=
  h.bind hf

theorem Asks.before {m : TreeM (Observed σ) cmp α} {f : α → TreeM (Observed σ) cmp β}
    {R : α → Tree (Observed σ) cmp → Prop} {Q : β → Tree (Observed σ) cmp → Prop} (h : Asks t m cs R)
    (hf : ∀ a u, R a u → Asks u (f a) [] Q) : Asks t (m >>= f) cs Q := by
  rw [← List.append_nil cs]
  exact h.bind hf

theorem asks_onLp {m : RelaxationM (Observed σ) Unit} (h : t.lp.Asks m cs) : Asks t (onLp m) cs fun _ => Alike t :=
  ends_onLp.2 (h.mono (fun _ _ h => ⟨h, rfl, rfl, rfl, rfl, rfl, rfl⟩) fun _ _ h _ he => TreeError.solver.inj he ▸ h)

theorem asks_get {f : Tree (Observed σ) cmp → TreeM (Observed σ) cmp α} {Q : α → Tree (Observed σ) cmp → Prop}
    (h : Asks t (f t) cs Q) : Asks t (get >>= f) cs Q := h

theorem asks_read {g : Tree (Observed σ) cmp → Except TreeError α} {f : α → TreeM (Observed σ) cmp β}
    {Q : β → Tree (Observed σ) cmp → Prop} (hg : ∀ e, g t ≠ .error (.solver e))
    (h : ∀ a, g t = .ok a → Asks t (f a) cs Q) : Asks t (read g >>= f) cs Q := by
  unfold Asks
  rw [ends_bind, ends_read]
  cases hx : g t with
  | ok a => exact h a hx
  | error e =>
      rintro e' rfl
      exact absurd hx (hg e')

theorem asks_read_ok {x : α} {g : Tree (Observed σ) cmp → Except TreeError α} {f : α → TreeM (Observed σ) cmp β}
    {Q : β → Tree (Observed σ) cmp → Prop} (hg : g t = .ok x) (h : Asks t (f x) cs Q) :
    Asks t (read g >>= f) cs Q := by
  refine asks_read (fun e he => nomatch hg.symm.trans he) fun a ha => ?_
  cases hg.symm.trans ha
  exact h

theorem asks_node {f : Node (Observed σ) → TreeM (Observed σ) cmp α} {Q : α → Tree (Observed σ) cmp → Prop}
    (h : ∀ n, t.nodes.get? id = some n → Asks t (f n) cs Q) : Asks t (read (·.node id) >>= f) cs Q :=
  asks_read (fun _ he => nomatch (node_eq_error.1 he).2) fun n hn => h n (node_eq_ok.1 hn)

theorem asks_replaySnapshot (s : Snapshot (Observed σ)) (t : Tree (Observed σ) cmp) :
    Asks t (replaySnapshot s) s.additions fun _ => Alike t :=
  Ends.bind (asks_onLp (Relaxation.asks_extend s t.lp)) fun _ _ h => ⟨h.1, { h.2 with }⟩

theorem asks_replayFork (id : Handle) (t : Tree (Observed σ) cmp) :
    Asks t (replayFork id) (((t.nodes.get? id).bind fun n => n.role.fork?).toList.flatMap Snapshot.additions)
      fun _ => Alike t := by
  unfold replayFork
  refine asks_node fun n hn => ?_
  rw [hn, Option.bind_some]
  cases n.role with
  | fork s =>
      simp only [Role.fork?, Option.toList_some, List.flatMap_singleton]
      refine Asks.after (R := fun _ => Alike t) ⟨.refl _, { Alike.refl t with }⟩ fun _ t₁ h₁ => ?_
      exact (asks_replaySnapshot s t₁).mono (fun _ _ h => ⟨h.1, trans_of Alike h₁ h.2⟩) fun _ _ h => h
  | _ => exact ⟨.refl _, .refl t⟩

theorem asks_forks (ids : List Handle) (t : Tree (Observed σ) cmp) :
    Asks t (ids.forM replayFork)
      ((ids.filterMap fun id => (t.nodes.get? id).bind fun n => n.role.fork?).flatMap Snapshot.additions)
      fun _ => Alike t := by
  induction ids generalizing t with
  | nil => exact ⟨.refl _, .refl t⟩
  | cons id ids ih =>
      have hrest : ∀ u, Alike t u → Asks u (ids.forM replayFork)
          ((ids.filterMap fun id => (t.nodes.get? id).bind fun n => n.role.fork?).flatMap Snapshot.additions)
          fun _ => Alike t := by
        intro u hu
        rw [← hu.nodes]
        exact (ih u).mono (fun _ _ h => ⟨h.1, trans_of Alike hu h.2⟩) fun _ _ h => h
      have h := (asks_replayFork id t).bind fun _ => hrest
      rw [← List.flatMap_append] at h
      rw [List.forM, List.filterMap_cons]
      cases hfork : (t.nodes.get? id).bind fun n => n.role.fork? <;> rw [hfork] at h <;> exact h

theorem asks_replay (hu : Alike t u) {stretch : List Handle} {skip : Nat}
    (h : ∀ x ∈ stretch.drop skip, ∀ n, t.nodes.get? x = some n → n.role.isSubroot = false) :
    Asks u (replay skip stretch) ((t.forksAlong (stretch.drop skip)).flatMap Snapshot.additions)
      fun _ => Alike t := by
  have hforks := asks_forks (stretch.drop skip) u
  rw [hu.nodes] at hforks
  unfold Asks Ends
  rw [replay_stretch hu h]
  exact Ends.mono (m := fun u => (stretch.drop skip).forM replayFork u) hforks
    (fun _ _ h => ⟨h.1, trans_of Alike hu h.2⟩) fun _ _ h => h

theorem asks_rebuild (hr : Resting K start t) :
    Asks t rebuild (.clear :: t.subroot?.toList.flatMap Snapshot.additions)
      fun k u => Alike t u ∧ k = t.below t.subroot := by
  rw [← List.singleton_append]
  unfold rebuild
  refine (asks_onLp (Relaxation.asks_clear t.lp)).bind fun _ t₁ h₁ => ?_
  refine Asks.after (R := fun _ => Alike t) ⟨.refl _, { h₁ with }⟩ fun _ t₂ h₂ => ?_
  refine asks_get ?_
  rw [h₂.subroot]
  unfold subroot?
  cases hsub : t.subroot with
  | none => exact ⟨.refl _, { h₂ with }, rfl⟩
  | some f =>
      obtain ⟨n, hn, hq⟩ := (hsub ▸ hr.subroot).holds
      refine asks_read_ok (h₂.node_ok hn) ?_
      rw [Option.bind_some, hn, Option.bind_some, below_some hn]
      cases hrole : n.role with
      | subroot s =>
          simp only [Role.snapshot?, Option.toList_some, List.flatMap_singleton]
          refine Asks.after (R := fun _ => Alike t) ⟨.refl _, { h₂ with }⟩ fun _ t₃ h₃ => ?_
          exact Ends.bind (asks_replaySnapshot s t₃) fun _ t₄ h₄ => ⟨h₄.1, trans_of Alike h₃ h₄.2, rfl⟩
      | _ =>
          rw [hrole] at hq
          cases hq

theorem asks_rewind (hc : t.correctDepth = some c) {size : Extent} (hs : t.sizes[c]? = some size) :
    Asks t rewind (t.lp.cuts size) fun k u => Alike t u ∧ k = c + 1 := by
  unfold rewind
  refine asks_get ?_
  rw [hc]
  refine asks_read_ok (pathSize_ok hs)
    (Asks.after (R := fun _ u => Alike t u ∧ u.lp = t.lp) ⟨.refl _, { Alike.refl t with }, rfl⟩ ?_)
  rintro _ t₁ ⟨h₁, hlp⟩
  rw [← hlp]
  exact Ends.bind (asks_onLp (Relaxation.asks_shrink size t₁.lp)) fun _ _ h => ⟨h.1, trans_of Alike h₁ h.2, rfl⟩

theorem asks_rewind_anew (hr : Resting K start t) (hc : t.correctDepth = none) :
    Asks t rewind (.clear :: t.subroot?.toList.flatMap Snapshot.additions)
      fun k u => Alike t u ∧ k = t.below t.subroot := by
  unfold rewind
  refine asks_get ?_
  rw [hc]
  exact asks_rebuild hr

theorem rewind_resumes (hr : Resting K start t) (h : Remembers held t) :
    Ends rewind t (fun k u => Alike t u ∧ k = t.resumesAt) fun _ _ => True := by
  unfold resumesAt
  cases hc : t.correctDepth with
  | some c =>
      obtain ⟨_, _, hx, hg, -⟩ := h.marked c hc
      exact Ends.mono (asks_rewind hc (h.measured c _ _ hx hg)) (fun _ _ h => h.2) fun _ _ _ => trivial
  | none => exact Ends.mono (asks_rewind_anew hr hc) (fun _ _ h => h.2) fun _ _ _ => trivial

/-- The calls by which a load edits the relaxation. -/
def loadCalls (t : Tree (Observed σ) cmp) : List (Call σ) :=
  match t.correctDepth with
  | some c =>
      t.lp.cuts (t.sizes[c]?.getD .zero) ++
        (t.forksAlong ((t.path.take (t.below t.lpFork)).drop (c + 1))).flatMap Snapshot.additions
  | none => .clear :: (t.subroot?.toList ++ t.forksAlong (t.path.drop (t.below t.subroot))).flatMap Snapshot.additions

theorem asks_rest (hr : Resting K start t) (h : Remembers held t) (ha : t.active = some id) (hu : Alike t u)
    {target : Option Nat} (htarget : t.lpForkDepth = .ok target) :
    Asks u (do
        if let some depth := target then
          replay t.resumesAt ((← get).path.take (depth + 1))
        modify ({ · with correctDepth := target }))
      ((t.forksAlong ((t.path.take (t.below t.lpFork)).drop t.resumesAt)).flatMap Snapshot.additions)
      fun _ _ => True := by
  cases hf : t.lpFork with
  | none =>
      unfold lpForkDepth at htarget
      rw [hf] at htarget
      cases htarget
      rw [show t.below none = 0 from rfl, List.take_zero, List.drop_nil]
      exact ⟨.refl _, trivial⟩
  | some f =>
      obtain ⟨n, hn, -, -, hdepth⟩ := hr.lpFork_onPath hf
      cases htarget.symm.trans hdepth
      rw [below_some hn]
      refine asks_get ?_
      rw [hu.path]
      exact Ends.bind (asks_replay hu fun x hx m hm => h.none_replayed hr ha hx hm) fun _ _ h => ⟨h.1, trivial⟩

theorem asks_rebuildPath (hr : Resting K start t) (h : Remembers held t) (ha : t.active = some id)
    {target : Option Nat} (htarget : t.lpForkDepth = .ok target) :
    Asks t (rebuildPath target) t.loadCalls fun _ _ => True := by
  have hrest := fun u (hu : Alike t u) => asks_rest hr h ha hu htarget
  unfold rebuildPath loadCalls
  unfold resumesAt at hrest
  cases hc : t.correctDepth with
  | some c =>
      obtain ⟨_, _, hx, hg, -⟩ := h.marked c hc
      have hsize := h.measured c _ _ hx hg
      simp only [hc] at hrest
      simp only [hsize, Option.getD_some]
      refine (asks_rewind hc hsize).bind ?_
      rintro _ u ⟨hu, rfl⟩
      exact hrest u hu
  | none =>
      simp only [hc, hr.forksAlong_take ha] at hrest
      rw [List.flatMap_append, ← List.cons_append]
      refine (asks_rewind_anew hr hc).bind ?_
      rintro _ u ⟨hu, rfl⟩
      exact hrest u hu

def installs (t : Tree (Observed σ) cmp) : List (Call σ) :=
  ((t.lpFork.bind t.nodes.get?).bind Node.basis?).toList.map fun b => .setBasis b.1

def frees (t : Tree (Observed σ) cmp) (n : Node (Observed σ)) : List (Call σ) :=
  ((n.share.bind t.nodes.get?).bind fun m => m.role.warmStart?.bind WarmStart.freed?).toList.map fun b => .freeBasis b.1

theorem asks_installBasis (t : Tree (Observed σ) cmp) : Asks t installBasis t.installs fun _ => Alike t := by
  unfold installBasis installs
  refine asks_get ?_
  cases t.lpFork with
  | none => exact ⟨rfl, .refl t⟩
  | some f =>
      refine asks_node fun n hn => ?_
      rw [Option.bind_some, hn, Option.bind_some, Node.basis?]
      cases n.role.warmStart?.bind WarmStart.basis with
      | none => exact ⟨rfl, .refl t⟩
      | some b =>
          have hcall : ∀ s e s', Solver.setBasis b.2 s = .error e s' → Call.Fails s e s' (.setBasis b.1) :=
            fun s e s' h => ⟨b.2, h⟩
          refine ends_onLp.2 (ends_onPart.2 ((Observed.ends_call hcall _).mono (fun _ o h => ⟨h, { Alike.refl t with }⟩) ?_))
          exact fun e o h e' he => TreeError.solver.inj he ▸ h

theorem asks_release (f : Handle) (missing : Fault) (t : Tree (Observed σ) cmp) :
    Asks t (onWarmStart f missing WarmStart.release) [] fun b u =>
      b = ((t.nodes.get? f).bind fun m => m.role.warmStart?.bind WarmStart.freed?) ∧ ∀ k, u.nodes.get? k =
        (t.nodes.get? k).map fun m => if f = k then { m with role := m.role.repaid } else m := by
  unfold onWarmStart
  refine asks_node fun m hm => ?_
  rw [hm, Option.bind_some]
  cases hw : m.role.warmStart? with
  | none =>
      intro e he
      cases he
  | some w =>
      dsimp only
      cases hrelease : WarmStart.release w with
      | error e w' =>
          intro e he
          cases he
      | ok b w' =>
          obtain ⟨rfl, rfl⟩ := WarmStart.release_eq_ok hrelease
          refine ⟨rfl, rfl, fun k => ?_⟩
          rw [Arena.get?_set]
          split
          · rename_i hk
            rw [hk, hm]
            simp only [Option.map_some, if_pos, Role.repaid, hw]
          · rename_i hk
            simp only [if_neg (Ne.symm hk), Option.map_id']

theorem asks_releaseShare (f : Handle) (t : Tree (Observed σ) cmp) :
    Asks t (releaseShare f)
      (((t.nodes.get? f).bind fun m => m.role.warmStart?.bind WarmStart.freed?).toList.map fun b => .freeBasis b.1)
      fun _ u => ∀ k, u.nodes.get? k =
        (t.nodes.get? k).map fun m => if f = k then { m with role := m.role.repaid } else m := by
  refine Asks.after (asks_release f _ t) fun b u ⟨hb, hnodes⟩ => ?_
  rw [← hb]
  cases b with
  | none => exact ⟨rfl, hnodes⟩
  | some b =>
      unfold Asks
      simp only [ends_bind, ends_returnBasis, ends_count, ends_record]
      exact ⟨rfl, hnodes⟩

theorem asks_surrenderShare (hn : t.nodes.get? id = some n) :
    Asks t (surrenderShare id) (t.frees n) fun _ u =>
      ∀ k, u.nodes.get? k = (t.nodes.get? k).map (Node.repaid id n.share k) := by
  have hget : ∀ k, (t.nodes.set id { n with share := none }).get? k =
      (t.nodes.get? k).map fun m => { m with share := if k = id then none else m.share } := by
    intro k
    rw [Arena.get?_set]
    split
    · rename_i hk
      rw [hk, hn]
      simp
    · simp
  unfold surrenderShare frees
  refine asks_read_ok (node_eq_ok.2 hn) ?_
  unfold Asks
  rw [ends_bind, ends_setNode]
  cases n.share with
  | none => exact ⟨rfl, hget⟩
  | some f =>
      refine (asks_releaseShare f { t with nodes := t.nodes.set id { n with share := none } }).mono ?_ fun _ _ h => h
      rintro _ u ⟨hcalls, hnodes⟩
      dsimp only at hcalls hnodes
      rw [hget] at hcalls
      refine ⟨?_, fun k => ?_⟩
      · rw [hcalls, Option.bind_some]
        cases t.nodes.get? f <;> rfl
      · rw [hnodes, hget, Option.map_map]
        refine congrArg (Option.map · _) (funext fun m => ?_)
        simp only [Function.comp_apply, Node.repaid, Option.some.injEq]
        split <;> rfl

theorem edits_loadCalls (t : Tree (Observed σ) cmp) : ∀ c ∈ t.loadCalls, c.edits = true := by
  have hadditions : ∀ (ss : List (Snapshot (Observed σ))), ∀ c ∈ ss.flatMap Snapshot.additions, Call.edits c = true := by
    intro ss c hc
    obtain ⟨s, -, hc⟩ := List.mem_flatMap.1 hc
    exact s.edits_additions c hc
  unfold loadCalls
  split
  · exact List.forall_mem_append.2 ⟨Relaxation.edits_cuts _ _, hadditions _⟩
  · exact List.forall_mem_cons.2 ⟨rfl, hadditions _⟩

theorem filter_loadCalls (t : Tree (Observed σ) cmp) (n : Node (Observed σ)) :
    (t.loadCalls ++ (t.installs ++ t.frees n)).filter Call.edits = t.loadCalls := by
  have hrest : (t.installs ++ t.frees n).filter Call.edits = [] := by
    refine List.filter_eq_nil_iff.2 (List.forall_mem_append.2 ⟨fun c hc => ?_, fun c hc => ?_⟩)
    · obtain ⟨b, -, rfl⟩ := List.mem_map.1 hc
      exact Bool.false_ne_true
    · obtain ⟨b, -, rfl⟩ := List.mem_map.1 hc
      exact Bool.false_ne_true
  rw [List.filter_append, List.filter_eq_self.2 t.edits_loadCalls, hrest, List.append_nil]

theorem asks_completeLoad {u : Tree (Observed σ) cmp} (hu : Alike t u) (hn : t.nodes.get? id = some n)
    (before after : Extent) :
    Asks u (do
        installBasis
        surrenderShare id
        modify fun t => { t with focus := { t.focus with isLoaded := true } }
        count fun s => { s with loads := s.loads + 1 }
        record (.loaded id before after)) (t.installs ++ t.frees n)
      fun _ u' => ∀ k, u'.nodes.get? k = (t.nodes.get? k).map (Node.repaid id n.share k) := by
  have hinstalls : u.installs = t.installs := by
    unfold installs
    rw [hu.nodes, hu.lpFork]
  have hfrees : ∀ u', Alike t u' → u'.frees n = t.frees n := by
    intro u' hu'
    unfold frees
    rw [hu'.nodes]
  rw [← hinstalls]
  refine (asks_installBasis u).bind fun _ u₁ h₁ => ?_
  have hu₁ := trans_of Alike hu h₁
  rw [← hfrees u₁ hu₁]
  refine (asks_surrenderShare (hu₁.nodes ▸ hn)).before fun _ u₂ h₂ => ⟨rfl, fun k => ?_⟩
  rw [← hu₁.nodes]
  exact h₂ k

/-- A load edits the relaxation, installs the basis that is kept and gives the share back. -/
theorem asks_loadActive (hr : Resting K start t) (h : Remembers held t) (ha : t.active = some id)
    (hn : t.nodes.get? id = some n) :
    Asks t (loadActive id) (t.loadCalls ++ (t.installs ++ t.frees n)) fun _ u =>
      ∀ k, u.nodes.get? k = (t.nodes.get? k).map (Node.repaid id n.share k) := by
  obtain ⟨target, htarget⟩ := hr.lpForkDepth_ok
  have hrebuilt : Asks t (rebuildPath target) t.loadCalls fun _ => Alike t :=
    (Ends.and (asks_rebuildPath hr h ha htarget) (rebuildPath_alone t target)).mono
      (fun _ _ h => ⟨h.1.1, h.2.alike⟩) fun _ _ h => h.1
  unfold loadActive
  refine asks_get (asks_read_ok htarget (hrebuilt.bind fun _ u hu => asks_get ?_))
  refine asks_read (fun e he => ?_) fun expected _ => ?_
  · unfold expectedSize pathSize at he
    split at he
    · split at he <;> cases he
    · cases he
  · dsimp only
    split
    · exact fun e' he => nomatch he
    · split
      · exact asks_completeLoad (u := { u with domains := u.domains.touchAll }) { hu with } hn _ _
      · exact asks_completeLoad hu hn _ _

/-- The solver was asked for all that a load needs, and the node's share was given back. -/
structure Repays (t u : Tree (Observed σ) cmp) (id : Handle) (n : Node (Observed σ)) : Prop where
  calls : u.lp.solver.calls = t.lp.solver.calls.grant (t.loadCalls ++ (t.installs ++ t.frees n))
  nodes : ∀ k, u.nodes.get? k = (t.nodes.get? k).map (Node.repaid id n.share k)

def LoadTells (t u : Tree (Observed σ) cmp) (id : Handle) (n : Node (Observed σ)) : LoadResult → Prop
  | .loaded => Repays t u id n
  | .alreadyLoaded => t.focus.isLoaded = true
  | .cutoff => t.focus.emptyVar.isSome = true

theorem load_tells (hr : Resting K start t) (h : Remembers held t) (ha : t.active = some id)
    (hn : t.nodes.get? id = some n) :
    Ends load t (fun r u => LoadTells t u id n r) fun e u =>
      ∀ e', e = .solver e' → Observed.Breaks e' t.lp.solver u.lp.solver := by
  unfold load
  rw [ends_bind, ends_get]
  split
  · exact fun e' he => nomatch he
  · rename_i hfocus
    exact congrArg Focus.isLoaded hfocus
  · rename_i a _ v ha' hfocus
    cases ha.symm.trans ha'
    rw [ends_bind, ends_record]
    refine Ends.bind (asks_surrenderShare (t := { t with journal := t.journal.push (.loadSkipped id v) }) hn) fun _ _ _ => ?_
    exact congrArg (fun f => f.emptyVar.isSome) hfocus
  · rename_i a _ ha' hfocus
    cases ha.symm.trans ha'
    exact Ends.bind (asks_loadActive hr h ha hn) fun _ _ h => ⟨h.1, h.2⟩

/-- If no call of the solver fails, a load edits the relaxation by these calls and no others. -/
theorem asks_load (hr : Resting (fun _ _ => True) start t) (h : Tracks held t) (ha : t.active = some id)
    (hload : t.focus.isLoaded = false) (hempty : t.focus.emptyVar = none) :
    Ends load t (fun r u => r = .loaded ∧ Trace.Adds t.loadCalls t.lp.solver.calls u.lp.solver.calls)
      fun e u => (∃ e', e = .solver e') ∧ Trace.Breaks t.lp.solver.calls u.lp.solver.calls := by
  obtain ⟨n, hn, -⟩ := hr.actor ha
  refine ((load_tells hr h.toRemembers ha hn).and (load_spec Upkeep.nothing.toRebuilding hr)).mono ?_ ?_
  · rintro (_ | _ | _) u ⟨htells, -⟩
    · have hadds := Trace.adds_grant (t.loadCalls ++ (t.installs ++ t.frees n)) t.lp.solver.calls
      rw [t.filter_loadCalls, ← htells.calls] at hadds
      exact ⟨rfl, hadds⟩
    · cases hload.symm.trans htells
    · cases (congrArg Option.isSome hempty).symm.trans htells
  · rintro e u ⟨hbreaks, ⟨-, -, hnone⟩ | ⟨-, -, hfail⟩⟩
    · cases ha.symm.trans hnone
    · obtain ⟨e', he⟩ := (h.loadFails hr ha hload hfail).1
      exact ⟨⟨e', he⟩, (hbreaks e' he).trace⟩

/-- A load keeps what it can of the relaxation and appends the rest once. -/
structure Economical (t : Tree (Observed σ) cmp) : Prop where
  sized : t.sizes.length = t.path.length
  correctDepth : ∀ c, t.correctDepth = some c → c < t.path.length ∧
    ∀ x ∈ t.path, ∀ n, t.nodes.get? x = some n → n.role.isSubroot = true → n.depth ≤ c
  subroot : ∀ a, t.active = some a → Nearest t.nodes Role.isSubroot (some a) t.subroot
  /-- Only the solver makes a load fail, by a call that fails. -/
  loads : ∀ a, t.active = some a → t.focus.isLoaded = false → t.focus.emptyVar = none →
    Ends load t (fun r u => r = .loaded ∧ Trace.Adds t.loadCalls t.lp.solver.calls u.lp.solver.calls)
      fun e u => (∃ e', e = .solver e') ∧ Trace.Breaks t.lp.solver.calls u.lp.solver.calls
  /-- The replay passes no Subroot, and each node of the stretch once. -/
  replays : ∀ d k u, t.lpForkDepth = .ok (some d) → rewind t = .ok k u →
    (∀ x ∈ (t.path.take (d + 1)).drop k, ∀ n, t.nodes.get? x = some n → n.role.isSubroot = false) ∧
      replay k (u.path.take (d + 1)) u =
        ((u.path.take (d + 1)).drop k).forM replayFork u

theorem Economical.adds (h : Economical t) {a : Handle} (ha : t.active = some a) (hload : t.focus.isLoaded = false)
    (hempty : t.focus.emptyVar = none) (hrun : returns load t .loaded = true) :
    Trace.Adds t.loadCalls t.lp.solver.calls (left load t).lp.solver.calls :=
  ((h.loads a ha hload hempty).of_ok (eq_ok_of_returns hrun)).2

/-- In every run a load does no more than it must. -/
theorem load_edits {solver : σ} {domains : Domains} {settings : Settings} {t₀ : Tree (Observed σ) cmp}
    (h₀ : ofSettings (.fresh solver) domains settings = .ok t₀) (ops : List (Op (Observed σ))) :
    Economical (t₀.run ops) := by
  obtain ⟨hr, h⟩ := run_follows (resting_of_ofSettings h₀ trivial) (vacant_of_ofSettings h₀).1 ops
  generalize t₀.run ops = t at hr h
  refine ⟨hr.sized, fun c hc => ⟨?_, fun x hx n => h.subroot_le hr hc hx⟩, fun a ha => ?_, fun a => asks_load hr h,
    fun d k u hd hrun => ?_⟩
  · obtain ⟨_, -, hplace, -⟩ := h.marked c hc
    exact (List.getElem?_eq_some_iff.1 hplace).1
  · have hnear := hr.nearest_tip ha hr.subroot rfl
    rwa [show before _ _ = some a from hr.active_eq.symm.trans ha] at hnear
  · obtain ⟨hu, rfl⟩ := (rewind_resumes hr h.toRemembers).of_ok hrun
    have hnone : ∀ x ∈ (t.path.take (d + 1)).drop t.resumesAt, ∀ n, t.nodes.get? x = some n →
        n.role.isSubroot = false := by
      cases hf : t.lpFork with
      | none =>
          unfold lpForkDepth at hd
          rw [hf] at hd
          cases hd
      | some f =>
          obtain ⟨n, -, -, hplace, -⟩ := hr.lpFork_onPath hf
          obtain ⟨a, ha⟩ := hr.active_of_path hplace
          exact fun x hx n => h.none_replayed hr ha hx
    refine ⟨hnone, ?_⟩
    rw [hu.path]
    exact replay_stretch hu hnone

/-- The second child of a Fork below a Subroot comes after its sibling, and the third one after a node outside. -/
theorem load_edits_below_subroot :
    ∃ t₀ : Tree (Observed ScriptedSolver) SelectionRule.bestBound.order,
      ofSettings (.fresh .fresh) (.free 1) {} = .ok t₀ ∧
      let turn (id : Handle) (column : Int) : List (Op (Observed ScriptedSolver)) :=
        [.activate (some id), .load, .addColumn column, .solve, .create 0 0, .create 0 0, .create 0 0]
      let ops := [.setPolicy fun q => q.depth = 1, .create 0 0] ++ turn ⟨0, 0⟩ 6 ++ turn ⟨1, 0⟩ 7 ++ turn ⟨4, 0⟩ 8 ++
        [.activate (some ⟨7, 0⟩), .load, .addColumn (9 : Int), .activate (some ⟨8, 0⟩)]
      let more := ops ++ [.load, .activate (some ⟨2, 0⟩), .load, .activate (some ⟨9, 0⟩)]
      let t := t₀.run ops
      let u := t₀.run more
      (t.correctDepth = some 2 ∧ t.loadCalls.length = 1 ∧ returns load t .loaded = true ∧
        Trace.Adds t.loadCalls t.lp.solver.calls (left load t).lp.solver.calls) ∧
      u.correctDepth = none ∧ (u.subroot?.map fun s => s.columns.length) = some 2 ∧
        ((u.forksAlong (u.path.drop 2)).map fun s => s.columns.length) = [1] ∧ u.loadCalls.length = 3 ∧
        returns load u .loaded = true ∧ Trace.Adds u.loadCalls u.lp.solver.calls (left load u).lp.solver.calls := by
  refine ⟨_, rfl, ?_⟩
  intro turn ops more t u
  have ht : Economical t := @load_edits ScriptedSolver _ SelectionRule.bestBound.order .fresh (.free 1) {} _ rfl ops
  have hu : Economical u := @load_edits ScriptedSolver _ SelectionRule.bestBound.order .fresh (.free 1) {} _ rfl more
  have hloads : returns load t .loaded = true ∧ returns load u .loaded = true := by decide +kernel
  refine ⟨⟨by decide +kernel, by decide +kernel, hloads.1, ?_⟩, by decide +kernel, by decide +kernel, by decide +kernel,
    by decide +kernel, hloads.2, ?_⟩
  · exact ht.adds (show t.active = some ⟨8, 0⟩ by decide +kernel) (by decide +kernel) (by decide +kernel) hloads.1
  · exact hu.adds (show u.active = some ⟨9, 0⟩ by decide +kernel) (by decide +kernel) (by decide +kernel) hloads.2

end Calls

end Tree

end BranchBound
