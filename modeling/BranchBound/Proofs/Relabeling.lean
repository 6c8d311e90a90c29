import BranchBound.Proofs.Growth
import BranchBound.Proofs.Switching

namespace BranchBound

variable {σ : Type} [Solver σ] {cmp : NodeOrder} {start : Array Interval} {id : Handle}
  {n m : Node σ}

/-- Nothing differs that the accounts of the tree look at. -/
structure Relabeled (n m : Node σ) : Prop where
  body : m = { n with lowerBound := m.lowerBound, constraints := m.constraints, log := m.log }

namespace Relabeled

theorem refl (n : Node σ) : Relabeled n n := ⟨rfl⟩

theorem parent (h : Relabeled n m) : m.parent = n.parent := by rw [h.body]

theorem depth (h : Relabeled n m) : m.depth = n.depth := by rw [h.body]

theorem onPath (h : Relabeled n m) : m.onPath = n.onPath := by rw [h.body]

theorem share (h : Relabeled n m) : m.share = n.share := by rw [h.body]

theorem role (h : Relabeled n m) : m.role = n.role := by rw [h.body]

theorem lineage (h : Relabeled n m) : Lineage n m := ⟨h.parent, h.depth, by rw [h.role]⟩

end Relabeled

def Node.logged (n : Node σ) (c : BoundChange) : Node σ :=
  { n with log := { n.log with changes := n.log.changes ++ [c] } }

theorem Relabeled.logged (n : Node σ) (c : BoundChange) : Relabeled n (n.logged c) := ⟨rfl⟩

theorem Logs.push {a : Arena (Node σ)} {size : Nat} {c : BoundChange} (h : Logs a size) (hn : a.get? id = some n)
    (hc : c.var < size) (hs : n.log.isSealed = false) :
    Logs (a.set id (n.logged c)) size where
  inRange k m d hm hd := by
    rw [Arena.get?_set] at hm
    split at hm
    · obtain ⟨-, -, rfl⟩ := Option.map_eq_some_iff.1 hm
      rcases List.mem_append.1 hd with hd | hd
      · exact h.inRange id n d hn hd
      · rwa [List.mem_singleton.1 hd]
    · exact h.inRange k m d hm hd
  unsealed k m hm hr := by
    rw [Arena.get?_set] at hm
    split at hm
    · obtain ⟨-, -, rfl⟩ := Option.map_eq_some_iff.1 hm
      exact hs
    · exact h.unsealed k m hm hr

theorem InForce.push {a : Arena (Node σ)} {p : List Handle} {vars : Array Interval}
    {x : Interval} {c : BoundChange} (h : InForce start a (p ++ [id]) vars) (hn : a.get? id = some n)
    (hp : id ∉ p) (hx : vars[c.var]? = some x) (hc : c.old = x.bound c.side) :
    InForce start (a.set id (n.logged c)) (p ++ [id])
      (vars.modify c.var (·.setBound c.side c.new)) := by
  have hself := Arena.get?_set_self hn (n.logged c)
  have hchanges : changesAlong (a.set id (n.logged c)) (p ++ [id]) = changesAlong a (p ++ [id]) ++ [c] := by
    rw [changesAlong_concat p hself, changesAlong_set hp, changesAlong_concat p hn, List.append_assoc]
    rfl
  constructor
  · rw [hchanges, noted_append]
    exact ⟨h.noted, ⟨x, h.vars_eq ▸ hx, hc⟩, trivial⟩
  · rw [hchanges, written_append, ← h.vars_eq]
    rfl

theorem Queue.requeue {a : Arena (Node σ)} {f : Frontier cmp} (h : Queue a f) (hn : a.get? id = some n)
    (hm : m.role.name = .leaf) :
    Queue (a.set id m) (if (f.remove id).1 then (f.remove id).2.insert id m.key else (f.remove id).2) := by
  obtain ⟨hrest, hfree⟩ := h.remove id
  split
  · exact hrest.insert hfree hn hm
  · exact hrest.set hfree m

namespace Tree

variable {K K' : Charge σ} {t t' : Tree σ cmp}

/-- The active node's work goes on: the relaxation only grows, and only a loaded one is solved. -/
structure Stays (t t' : Tree σ cmp) : Prop where
  nodes : Carried Lineage t.nodes t'.nodes
  path : t'.path = t.path
  sizes : t'.sizes = t.sizes
  active : t'.active = t.active
  lpFork : t'.lpFork = t.lpFork
  subroot : t'.subroot = t.subroot
  correctDepth : t'.correctDepth = t.correctDepth
  isLoaded : t'.focus.isLoaded = t.focus.isLoaded
  isSolved : t'.focus.isSolved = true → t.focus.isSolved = true ∨ t.focus.isLoaded = true
  contents : t.lp.contents.Begins t'.lp.contents

theorem Kept.stays {gone : List Handle} (h : Kept gone t t') : Stays t t' :=
  { h with
    nodes := h.nodes.lineage
    isLoaded := by rw [h.focus]
    isSolved := by
      rw [h.focus]
      exact .inl
    contents := by
      unfold Relaxation.contents
      rw [h.columns, h.rows]
      exact .refl _ }

theorem Stays.trans {t'' : Tree σ cmp} (h : Stays t t') (h' : Stays t' t'') : Stays t t'' where
  nodes := h.nodes.trans (S := Lineage) (fun _ _ _ => Lineage.trans) h'.nodes
  path := h'.path.trans h.path
  sizes := h'.sizes.trans h.sizes
  active := h'.active.trans h.active
  lpFork := h'.lpFork.trans h.lpFork
  subroot := h'.subroot.trans h.subroot
  correctDepth := h'.correctDepth.trans h.correctDepth
  isLoaded := h'.isLoaded.trans h.isLoaded
  isSolved hs := by
    rcases h'.isSolved hs with hs | hl
    · exact h.isSolved hs
    · exact .inr (h.isLoaded ▸ hl)
  contents := h.contents.trans h'.contents

structure Quiet (t t' : Tree σ cmp) : Prop extends Stays t t' where
  domains : t.domains.Touches t'.domains

theorem Kept.quiet {gone : List Handle} (h : Kept gone t t') : Quiet t t' :=
  { h.stays with domains := h.domains ▸ .refl _ }

theorem Quiet.trans {t'' : Tree σ cmp} (h : Quiet t t') (h' : Quiet t' t'') : Quiet t t'' where
  toStays := h.toStays.trans h'.toStays
  domains := h.domains.trans h'.domains

structure Works (t t' : Tree σ cmp) : Prop extends Stays t t' where
  domains : t.domains.WellFormed → t'.domains.WellFormed

theorem Quiet.works (h : Quiet t t') : Works t t' := { h.toStays with domains := fun hd => (h.domains hd).wellFormed }

theorem Works.trans {t'' : Tree σ cmp} (h : Works t t') (h' : Works t' t'') : Works t t'' where
  toStays := h.toStays.trans h'.toStays
  domains hd := h'.domains (h.domains hd)

theorem Kept.works {gone : List Handle} (h : Kept gone t t') : Works t t' := h.quiet.works

theorem Sound.relabel {s : Stage} {F : Handle → Node σ → Node σ} {domains : Domains} (hK : Custody K K')
    (h : Sound K s t) (hF : ∀ k m, t.nodes.get? k = some m → Relabeled m (F k m))
    (frontier : Frontier cmp) (hq : Queue (t.nodes.adjust F) frontier) (hl : Logs (t.nodes.adjust F) domains.size) :
    Sound K s { t with nodes := t.nodes.adjust F, frontier := frontier, domains := domains } where
  wellFormed := h.wellFormed.adjust F
  forest := h.forest.adjust fun k m hm => ⟨(hF k m hm).parent, (hF k m hm).depth⟩
  walk := h.walk.adjust fun k m hm => ⟨(hF k m hm).parent, (hF k m hm).depth, (hF k m hm).onPath⟩
  family := h.family.adjust fun k m hm => ⟨(hF k m hm).parent, (hF k m hm).onPath,
    fun hs => (hF k m hm).share.trans hs, by rw [(hF k m hm).role], by rw [(hF k m hm).role]⟩
  places := h.places.adjust fun k m hm => ⟨(hF k m hm).parent, by rw [(hF k m hm).role]⟩
  queue := hq
  sharing := h.sharing.adjust fun k m hm => ⟨(hF k m hm).parent, (hF k m hm).share, by rw [(hF k m hm).role],
    fun _ hr => by rwa [(hF k m hm).role]⟩
  logs := hl
  books := h.books.adjust fun k m hm => by rw [Node.basis?, (hF k m hm).role]; rfl
  acting := h.acting.adjust fun k m hm => by rw [(hF k m hm).role]
  custody := hK.perm _ _ _ (bases_adjust fun k m hm => by rw [Node.basis?, (hF k m hm).role]; rfl).symm h.custody

/-- Relabeling nodes leaves the tree between two operations, if the path's changes stay in force. -/
theorem Resting.relabel {F : Handle → Node σ → Node σ} {domains : Domains} (hK : Custody K K')
    (h : Resting K start t) (hF : ∀ k m, t.nodes.get? k = some m → Relabeled m (F k m))
    (frontier : Frontier cmp) (hq : Queue (t.nodes.adjust F) frontier) (hl : Logs (t.nodes.adjust F) domains.size)
    (hf : InForce start (t.nodes.adjust F) t.path domains.vars) :
    Resting K start { t with nodes := t.nodes.adjust F, frontier := frontier, domains := domains } where
  toSound := h.toSound.relabel hK hF frontier hq hl
  active_eq := h.active_eq
  sized := h.sized
  lpFork := h.lpFork.adjust fun k m hm => ⟨(hF k m hm).parent, by rw [(hF k m hm).role]⟩
  subroot := h.subroot.adjust fun k m hm => ⟨(hF k m hm).parent, by rw [(hF k m hm).role]⟩
  inForce := hf

theorem Resting.logged (hK : Custody K K') (h : Resting K start t) (hn : t.nodes.get? id = some n)
    {c : BoundChange} (hc : c.var < t.domains.size) (hs : n.log.isSealed = false) {domains : Domains}
    (hsize : domains.size = t.domains.size)
    (hf : InForce start (t.nodes.set id (n.logged c)) t.path domains.vars) :
    Resting K start { t with nodes := t.nodes.set id (n.logged c), domains := domains } := by
  have hF := Arena.forall_set (P := fun m m' : Node σ => Relabeled m m' ∧ m'.key = m.key ∧ m'.role = m.role) hn
    ⟨.logged n c, rfl, rfl⟩ fun m => ⟨.refl m, rfl, rfl⟩
  have hlogs := h.logs.push hn hc hs
  rw [← hsize] at hlogs
  rw [Arena.set_eq_adjust] at hf hlogs ⊢
  refine { h.relabel hK (fun k m hm => (hF k m hm).1) t.frontier (h.queue.adjust fun k m hm hr => ?_) hlogs hf with }
  rw [(hF k m hm).2.2]
  exact ⟨(hF k m hm).2.1, hr⟩

theorem logChange_eq {Q : Unit → Tree σ cmp → Prop} {E : TreeError → Tree σ cmp → Prop} {c : BoundChange}
    (hs : n.log.isSealed = false) :
    Ends (logChange id n c) t Q E ↔ Q () { t with nodes := t.nodes.set id (n.logged c) } := by
  have hpush : n.log.push c = .ok { n.log with changes := n.log.changes ++ [c] } := by
    unfold ChangeLog.push
    rw [if_neg (by rw [hs]; exact Bool.false_ne_true)]
  unfold logChange
  rw [hpush]
  rfl

theorem Resting.path_eq (h : Resting K start t) (ha : t.active = some id) :
    ∃ p, t.path = p ++ [id] ∧ id ∉ p := by
  obtain ⟨n, -, -, hd, -, -, hplace⟩ := h.actor ha
  have hpath : t.path = t.path.take n.depth ++ [id] := by
    conv_lhs => rw [← List.take_of_length_le (Nat.le_of_eq hd.symm), List.take_add_one, hplace]
    rfl
  refine ⟨_, hpath, fun hid => ?_⟩
  have hnodup := h.walk.nodup
  rw [hpath, List.nodup_append'] at hnodup
  exact hnodup.2.2 hid List.mem_cons_self

theorem Resting.off_path (h : Resting K start t) (hn : t.nodes.get? id = some n)
    (hw : n.role.name.isWaiting = true) : id ∉ t.path := by
  intro hid
  obtain ⟨i, hi⟩ := List.mem_iff_getElem?.1 hid
  obtain ⟨m, hm, -, ho, -⟩ := h.walk.step i id hi
  cases hn.symm.trans hm
  cases h.family.entered id n hn ho hw

def editMisuse? (wrong : RoleName → Handle → Misuse) (id : Handle) (n : Node σ) : Option Misuse :=
  if n.role.name = .active ∨ n.role.name = .child then none else some (wrong n.role.name id)

def RejectsChange (t : Tree σ cmp) (id : Handle) (v : Nat) (e : TreeError) : Prop :=
  t.domains.size ≤ v ∧ e = .misuse (.noVariable v t.domains.size) ∨ Rejects t id (editMisuse? .changeOn id) e

theorem RejectsChange.refused {v : Nat} {e : TreeError} (h : t' = t ∧ RejectsChange t id v e) : Refused t t' e := by
  obtain ⟨rfl, ⟨-, rfl⟩ | h⟩ := h
  · exact ⟨rfl, .inr ⟨_, rfl⟩⟩
  · exact Rejects.refused ⟨rfl, h⟩

/-- Where a bound change leads: the active node's takes effect at once, a child's waits in its log. -/
inductive Changes (t : Tree σ cmp) (id : Handle) (v : Nat) (side : Side) (bound : Binary64) : Outcome → Tree σ cmp → Prop
  | active {n : Node σ} {x : Interval} {emptyVar : Option Nat} : t.nodes.get? id = some n → n.role = .active →
      t.domains.vars[v]? = some x →
      Changes t id v side bound ((x.setBound side bound).outcome v t.settings.tol) { t with
        nodes := t.nodes.set id (n.logged ⟨v, side, x.bound side, bound⟩)
        domains := t.domains.overwrite v side bound
        focus := { t.focus with emptyVar := emptyVar } }
  | child {n : Node σ} {x : Interval} : t.nodes.get? id = some n → n.role.name = .child →
      t.domains.vars[v]? = some x →
      Changes t id v side bound (((n.log.overlay v x).setBound side bound).outcome v t.settings.tol) { t with
        nodes := t.nodes.set id (n.logged ⟨v, side, (n.log.overlay v x).bound side, bound⟩) }

theorem noteEmpty_focus (o : Outcome) {E : TreeError → Tree σ cmp → Prop} :
    Ends (noteEmpty o) t (fun _ t' => ∃ w, t' = { t with focus := { t.focus with emptyVar := w } }) E := by
  cases o with
  | feasible => exact ⟨t.focus.emptyVar, rfl⟩
  | infeasible v => exact ⟨_, rfl⟩

theorem changeBound_cases (h : Resting K start t) (id : Handle) (v : Nat) (side : Side) (bound : Binary64) :
    Ends (changeBound id v side bound) t (Changes t id v side bound) fun e t' => t' = t ∧ RejectsChange t id v e := by
  unfold changeBound
  rw [ends_bind, ends_get]
  split
  · rename_i hv
    exact ⟨rfl, .inl ⟨hv, rfl⟩⟩
  · rename_i hv
    rw [ends_bind, ends_read]
    cases hn : t.nodes.get? id with
    | none =>
        rw [node_eq_error.2 ⟨hn, rfl⟩]
        exact ⟨rfl, .inr (.unknown hn)⟩
    | some n =>
        obtain ⟨x, hx⟩ : ∃ x, t.domains.vars[v]? = some x :=
          ⟨_, Array.getElem?_eq_getElem (Nat.not_le.1 hv)⟩
        rw [node_eq_ok.2 hn]
        simp only
        rw [Domains.look_eq hx, ends_bind, ends_liftExcept]
        simp only
        split
        · rename_i hrole
          have hopen := h.logs.unsealed _ n hn (.inr (by rw [hrole]; rfl))
          rw [ends_bind, logChange_eq hopen, ends_bind, ends_modify, ends_bind]
          refine (noteEmpty_focus _).mono ?_ fun _ _ h => h
          rintro _ _ ⟨w, rfl⟩
          exact .active hn hrole hx
        · rename_i pos hrole
          have hopen := h.logs.unsealed _ n hn (.inl (by rw [hrole]; rfl))
          rw [ends_bind, logChange_eq hopen]
          exact .child hn (by rw [hrole]; rfl) hx
        · rename_i hactive hchild
          refine ⟨rfl, .inr (.misuse hn (if_neg ?_))⟩
          rintro (hr | hr)
          · exact hactive (eq_active_of_name hr)
          · exact (exists_staged .children hr).elim fun i hi => hchild i (staged?_eq_some.1 hi)

theorem Changes.resting (hK : Custody K K') (h : Resting K start t) {v : Nat} {side : Side} {bound : Binary64} {o : Outcome}
    (hc : Changes t id v side bound o t') : Resting K start t' ∧ Quiet t t' := by
  cases hc with
  | @active n x emptyVar hn hrole hx =>
      have ha : t.active = some id := (h.acting id).2 ⟨n, hn, by rw [hrole]; rfl⟩
      have hopen := h.logs.unsealed _ n hn (.inr (by rw [hrole]; rfl))
      obtain ⟨p, hpath, hp⟩ := h.path_eq ha
      have hforce : InForce start (t.nodes.set id (n.logged ⟨v, side, x.bound side, bound⟩)) t.path
          (t.domains.overwrite v side bound).vars := by
        rw [Domains.vars_overwrite, hpath]
        exact InForce.push (hpath ▸ h.inForce) hn hp hx rfl
      have hsize : v < t.domains.size := (Array.getElem?_eq_some_iff.1 hx).1
      exact ⟨{ h.logged hK hn hsize hopen (Domains.size_overwrite ..) hforce with },
        { Kept.quiet (.refl t) with
          nodes := .set Lineage.refl hn (Relabeled.logged n _).lineage
          domains := .overwrite _ _ _ _ }⟩
  | @child n x hn hname hx =>
      have hw : n.role.name.isWaiting = true := by rw [hname]; rfl
      have hopen := h.logs.unsealed _ n hn (.inl hname)
      have hsize : v < t.domains.size := (Array.getElem?_eq_some_iff.1 hx).1
      refine ⟨h.logged hK hn hsize hopen rfl ?_, { Kept.quiet (.refl t) with
        nodes := .set Lineage.refl hn (Relabeled.logged n _).lineage }⟩
      have hchanges := fun m => changesAlong_set (a := t.nodes) (h.off_path hn hw) m
      exact ⟨by rw [hchanges]; exact h.inForce.noted, by rw [hchanges]; exact h.inForce.vars_eq⟩

theorem changeBound_spec (hK : Custody K K') (h : Resting K start t) (id : Handle) (v : Nat) (side : Side)
    (bound : Binary64) :
    Ends (changeBound id v side bound) t (fun _ t' => Resting K start t' ∧ Quiet t t')
      fun e t' => t' = t ∧ RejectsChange t id v e :=
  (changeBound_cases h id v side bound).mono (fun _ _ => Changes.resting hK h) fun _ _ h => h

theorem Resting.retag (hK : Custody K K') (h : Resting K start t) {F : Handle → Node σ → Node σ}
    (hF : ∀ k m, t.nodes.get? k = some m → Relabeled m (F k m) ∧ (F k m).log = m.log)
    {frontier : Frontier cmp} (hq : Queue (t.nodes.adjust F) frontier) :
    Resting K start { t with nodes := t.nodes.adjust F, frontier := frontier } ∧
      Quiet t { t with nodes := t.nodes.adjust F, frontier := frontier } := by
  have hkin : Carried Kin t.nodes (t.nodes.adjust F) :=
    .adjust fun k m hm => ⟨(hF k m hm).1.lineage, by rw [(hF k m hm).2]⟩
  have hlogs : Logs (t.nodes.adjust F) t.domains.size := by
    refine h.logs.adjust fun k m hm => ?_
    rw [(hF k m hm).2, (hF k m hm).1.role]
    exact ⟨rfl, h.logs.unsealed k m hm⟩
  have hchanges : changesAlong (t.nodes.adjust F) t.path = changesAlong t.nodes t.path := by
    refine changesAlong_eq hkin fun k hk => ?_
    obtain ⟨m, hm⟩ := h.walk.live_of_mem hk
    exact ⟨_, Arena.get?_adjust_of hm⟩
  refine ⟨{ h.relabel hK (fun k m hm => (hF k m hm).1) frontier hq hlogs ?_ with }, ?_⟩
  · exact ⟨hchanges ▸ h.inForce.noted, hchanges ▸ h.inForce.vars_eq⟩
  · exact { Kept.quiet (.refl t) with nodes := hkin.lineage }

theorem constrain_spec (hK : Custody K K') (h : Resting K start t) (id : Handle) (c : Nat) :
    Ends (constrain id c) t (fun _ t' => Resting K start t' ∧ Quiet t t')
      fun e t' => t' = t ∧ Rejects t id (editMisuse? .constrainOn id) e := by
  unfold constrain
  rw [ends_bind, ends_read]
  cases hn : t.nodes.get? id with
  | none =>
      rw [node_eq_error.2 ⟨hn, rfl⟩]
      exact ⟨rfl, .unknown hn⟩
  | some n =>
      have hF := Arena.forall_set (P := fun m m' : Node σ => (Relabeled m m' ∧ m'.log = m.log) ∧
        m'.key = m.key ∧ m'.role = m.role) hn
        (⟨⟨⟨rfl⟩, rfl⟩, rfl, rfl⟩ : (Relabeled n { n with constraints := n.constraints ++ [c] } ∧ _) ∧ _ ∧ _)
        fun m => ⟨⟨.refl m, rfl⟩, rfl, rfl⟩
      have hconstrained := h.retag hK (fun k m hm => (hF k m hm).1) (h.queue.adjust fun k m hm hr => by
        rw [(hF k m hm).2.2]
        exact ⟨(hF k m hm).2.1, hr⟩)
      rw [← Arena.set_eq_adjust] at hconstrained
      rw [node_eq_ok.2 hn]
      simp only
      split
      · exact hconstrained
      · exact hconstrained
      · rename_i hactive hchild
        refine ⟨rfl, .misuse hn (if_neg ?_)⟩
        rintro (hr | hr)
        · exact hactive (eq_active_of_name hr)
        · exact (exists_staged .children hr).elim fun i hi => hchild i (staged?_eq_some.1 hi)

theorem Resting.lift (hK : Custody K K') (h : Resting K start t) (hn : t.nodes.get? id = some n) (bound : Binary64)
    {frontier : Frontier cmp} (hq : Queue (t.nodes.set id { n with lowerBound := bound }) frontier) :
    Resting K start { t with nodes := t.nodes.set id { n with lowerBound := bound }, frontier := frontier } ∧
      Quiet t { t with nodes := t.nodes.set id { n with lowerBound := bound }, frontier := frontier } := by
  have hF := Arena.forall_set (P := fun m m' : Node σ => Relabeled m m' ∧ m'.log = m.log) hn
    (⟨⟨rfl⟩, rfl⟩ : Relabeled n { n with lowerBound := bound } ∧ _) fun m => ⟨.refl m, rfl⟩
  rw [Arena.set_eq_adjust] at hq ⊢
  exact h.retag hK hF hq

theorem Resting.child_of_listed (h : Resting K start t) {k : Handle} (hk : k ∈ t.children) :
    ∃ n, t.nodes.get? k = some n ∧ n.role.name = .child := by
  obtain ⟨i, hi⟩ := List.mem_iff_getElem?.1 hk
  obtain ⟨-, n, hn, hs, -⟩ := h.places.listed .children i k hi
  exact ⟨n, hn, by rw [staged?_eq_some.1 hs]; rfl⟩

def liftIn (children : List Handle) (bound : Binary64) (k : Handle) (n : Node σ) : Node σ :=
  if k ∈ children then { n with lowerBound := Binary64.larger n.lowerBound bound } else n

theorem liftIn_parent (children : List Handle) (bound : Binary64) (k : Handle) (n : Node σ) :
    (liftIn children bound k n).parent = n.parent := by
  unfold liftIn
  split <;> rfl

theorem liftChildren_eq (h : Resting K start t) (bound : Binary64) :
    Ends (liftChildren bound) t (fun _ t' => t' = { t with nodes := t.nodes.adjust (liftIn t.children bound) })
      fun _ _ => False := by
  unfold liftChildren
  rw [ends_bind, ends_get]
  refine (updateAll_spec (fun k => k) (fun _ n => { n with lowerBound := Binary64.larger n.lowerBound bound })
    (by rw [List.map_id']; exact h.children_nodup) fun k hk => (h.child_of_listed hk).imp fun _ h => h.1).mono ?_
    fun _ _ h => h
  rintro _ t' ⟨F, rfl, hF, hrest⟩
  rw [List.map_id'] at hrest
  have heq : t.nodes.adjust F = t.nodes.adjust (liftIn t.children bound) := by
    apply Arena.adjust_congr
    intro k m _
    unfold liftIn
    by_cases hk : k ∈ t.children
    · rw [if_pos hk, hF k hk]
    · rw [if_neg hk, hrest k m hk]
  rw [heq]

theorem liftChildren_spec (hK : Custody K K') (h : Resting K start t) (bound : Binary64) :
    Ends (liftChildren bound) t (fun _ t' => Resting K start t' ∧ Quiet t t') fun _ _ => False := by
  refine (liftChildren_eq h bound).mono ?_ fun _ _ h => h
  rintro _ t' rfl
  refine h.retag hK (fun k m hm => ?_) (h.queue.adjust fun k m hm hr => ?_)
  · unfold liftIn
    split
    · exact ⟨⟨rfl⟩, rfl⟩
    · exact ⟨.refl m, rfl⟩
  · rw [liftIn, if_neg fun hk => ?_]
    · exact ⟨rfl, hr⟩
    · obtain ⟨n, hn, hchild⟩ := h.child_of_listed hk
      cases hm.symm.trans hn
      rw [hchild] at hr
      cases hr

theorem raise_spec (hK : Custody K K') (h : Resting K start t) (id : Handle) (bound : Binary64) :
    Ends (raise id bound) t (fun _ t' => Resting K start t' ∧ Quiet t t')
      fun e t' => t' = t ∧ Rejects t id (fun _ => none) e := by
  unfold raise
  rw [ends_bind, ends_read]
  cases hn : t.nodes.get? id with
  | none =>
      rw [node_eq_error.2 ⟨hn, rfl⟩]
      exact ⟨rfl, .unknown hn⟩
  | some n =>
      rw [node_eq_ok.2 hn]
      simp only
      split
      · exact ⟨h, Kept.quiet (.refl t)⟩
      · rw [ends_bind, ends_setNode]
        split
        · rename_i hrole
          have hname : n.role.name = .leaf := by rw [hrole]; rfl
          exact h.lift hK hn bound (h.queue.requeue hn (m := { n with lowerBound := bound }) hname)
        · rename_i hrole
          have hname : n.role.name ≠ .leaf := by
            rw [hrole]
            exact RoleName.noConfusion
          obtain ⟨h₁, hquiet⟩ := h.lift hK hn bound (h.queue.set (h.toSound.unqueued hn hname) _)
          exact (liftChildren_spec hK h₁ bound).mono (fun _ _ h' => ⟨h'.1, hquiet.trans h'.2⟩) fun _ _ h => h.elim
        · rename_i hleaf _
          have hname : n.role.name ≠ .leaf := by
            intro hr
            cases hrole : n.role <;> rw [hrole] at hr <;> first | exact hleaf hrole | cases hr
          exact h.lift hK hn bound (h.queue.set (h.toSound.unqueued hn hname) _)

end Tree

end BranchBound
