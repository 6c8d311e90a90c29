import BranchBound.Proofs.Agreement
import BranchBound.Proofs.Outline
import BranchBound.Tree.Choice
import BranchBound.Tree.Clearing
import BranchBound.Tree.Loading
import BranchBound.Tree.Solving

namespace BranchBound

variable {σ α β γ δ : Type} [Solver σ] {cmp : NodeOrder} {W : α → β → Prop} {V : γ → δ → Prop}

namespace Consulted

abbrev Paired (W : α → β → Prop) (act : SolverM (Consulted σ) α) (act' : SolverM (Consulted σ) β) : Prop :=
  Alongside (fun _ => True) (fun _ _ => False) (fun o o' => o.asked = o'.asked) W act act'

omit [Solver σ] in
theorem ends_edit (act : SolverM σ α) (o : Consulted σ) :
    Ends (edit act) o (fun _ o' => o'.asked = o.asked) fun _ _ => True :=
  ends_onPart.2 ((ends_trivial act o.solver).mono (fun _ _ _ => rfl) fun _ _ _ => trivial)

omit [Solver σ] in
theorem paired_edit (act : SolverM σ α) (act' : SolverM σ β) : Paired (fun _ _ => True) (edit act) (edit act') :=
  fun o o' ho => agree_of_ends (ends_edit act o) (ends_edit act' o') fun _ _ _ _ h h' =>
    ⟨trivial, h.trans (ho.trans h'.symm)⟩

omit [Solver σ] in
theorem paired_consult (c : Consultation) (act : SolverM σ α) (act' : SolverM σ β) :
    Paired (fun _ _ => True) (consult c act) (consult c act') :=
  fun _ _ ho => paired_edit act act' _ _ (congrArg (c :: ·) ho)

theorem paired_getBasis : Paired (fun b b' => b.1 = b'.1) (getBasis (σ := σ)) getBasis :=
  fun o o' ho => (paired_consult .getBasis Solver.getBasis Solver.getBasis).bind
    (fun b b' _ => alongside_pure (a := (o.asked.length, b)) (b := (o'.asked.length, b')) (congrArg List.length ho))
    o o' ho

end Consulted

namespace Relaxation

structure Alike (r s : Relaxation (Consulted σ)) : Prop where
  columns : r.columns = s.columns
  rows : r.rows = s.rows
  asked : r.solver.asked = s.solver.asked

abbrev Paired (W : α → β → Prop) (act : RelaxationM (Consulted σ) α) (act' : RelaxationM (Consulted σ) β) : Prop :=
  Alongside (fun _ => True) (fun _ _ => False) Alike W act act'

theorem paired_onSolver {act : SolverM (Consulted σ) α} {act' : SolverM (Consulted σ) β}
    (h : Consulted.Paired W act act') : Paired W (onSolver act) (onSolver act') :=
  fun r s hrs => agree_onPart (h r.solver s.solver hrs.asked) (fun _ h => h) (fun _ _ _ _ h => h.1.elim)
    fun _ _ _ _ hab => ⟨hab.1, { hrs with asked := hab.2 }⟩

theorem paired_addColumn (c : Solver.Column σ) :
    Paired Eq (addColumn (σ := Consulted σ) c) (addColumn (σ := Consulted σ) c) :=
  (paired_onSolver (Consulted.paired_edit _ _)).bind fun _ _ _ =>
    alongside_modify fun _ _ h => { h with columns := congrArg (· ++ [c]) h.columns }

theorem paired_addRow (row : Solver.Row σ) :
    Paired Eq (addRow (σ := Consulted σ) row) (addRow (σ := Consulted σ) row) :=
  (paired_onSolver (Consulted.paired_edit _ _)).bind fun _ _ _ =>
    alongside_modify fun _ _ h => { h with rows := congrArg (· ++ [row]) h.rows }

theorem paired_clear : Paired Eq (clear (σ := Consulted σ)) clear :=
  (paired_onSolver (Consulted.paired_edit _ _)).bind fun _ _ _ =>
    alongside_modify fun _ _ h => { h with columns := rfl, rows := rfl }

end Relaxation

def TreeError.IsSolver (e : TreeError) : Prop := ∃ e', e = .solver e'

namespace Tree

/-- Two programs leave twins as twins, with results that `W` relates or errors that name at most Fork and Subroot
differently, unless the solver fails. -/
abbrev Twinned (W : α → β → Prop) (m : TreeM (Consulted σ) cmp α) (m' : TreeM (Consulted σ) cmp β) : Prop :=
  Alongside TreeError.IsSolver (fun e f => e.plain = f.plain) Twin W m m'

/-- The program cannot tell twins apart. -/
abbrev Blind (m : TreeM (Consulted σ) cmp α) : Prop := Twinned Eq m m

abbrev Paired (W : α → β → Prop) (m : TreeM (Consulted σ) cmp α) (t : Tree (Consulted σ) cmp)
    (m' : TreeM (Consulted σ) cmp β) (u : Tree (Consulted σ) cmp) : Prop :=
  Agree TreeError.IsSolver (fun e t f u => e.plain = f.plain ∧ Twin t u) m t m' u fun a t b u => W a b ∧ Twin t u

variable {t u : Tree (Consulted σ) cmp} {n m : Node (Consulted σ)}

section Primitives

def Meets (W : α → β → Prop) : Except TreeError α → Except TreeError β → Prop
  | .ok a, .ok b => W a b
  | .error e, .error f => e.plain = f.plain
  | _, _ => False

theorem Meets.bind {x : Except TreeError α} {y : Except TreeError β} {f : α → Except TreeError γ}
    {g : β → Except TreeError δ} (h : Meets W x y) (hf : ∀ a b, W a b → Meets V (f a) (g b)) :
    Meets V (x >>= f) (y >>= g) := by
  cases x <;> cases y
  · exact h
  · exact h.elim
  · exact h.elim
  · exact hf _ _ h

theorem Meets.refl (x : Except TreeError α) : Meets Eq x x := by cases x <;> rfl

theorem twinned_get {f : Tree (Consulted σ) cmp → TreeM (Consulted σ) cmp α}
    {g : Tree (Consulted σ) cmp → TreeM (Consulted σ) cmp β}
    (h : ∀ t u, Twin t u → Paired W (f t) t (g u) u) : Twinned W (get >>= f) (get >>= g) := h

theorem paired_liftExcept {x : Except TreeError α} {y : Except TreeError β} (h : Meets W x y) (ht : Twin t u) :
    Paired W (liftExcept id x) t (liftExcept id y) u := by
  cases x <;> cases y
  · exact .inr (.inr ⟨h, ht⟩)
  · exact h.elim
  · exact h.elim
  · exact ⟨h, ht⟩

theorem twinned_read {f : Tree (Consulted σ) cmp → Except TreeError α}
    {g : Tree (Consulted σ) cmp → Except TreeError β} (h : ∀ t u, Twin t u → Meets W (f t) (g u)) :
    Twinned W (read f) (read g) := fun t u ht => paired_liftExcept (h t u ht) ht

theorem twinned_throw {e f : TreeError} (h : e.plain = f.plain) :
    Twinned W (throw e : TreeM (Consulted σ) cmp α) (throw f : TreeM (Consulted σ) cmp β) := alongside_throw h

theorem twinned_liftExcept {ε : Type} (wrap : ε → TreeError) (x : Except ε α) :
    Blind (liftExcept wrap x : TreeM (Consulted σ) cmp α) :=
  alongside_liftExcept (F := fun e f => e.plain = f.plain) wrap (fun _ => rfl) x

theorem Twin.get? (h : Twin t u) (id : Handle) :
    (t.nodes.get? id).map Node.outline = (u.nodes.get? id).map Node.outline := by
  rw [← Arena.get?_map, h.nodes, Arena.get?_map]

theorem Twin.node (h : Twin t u) (id : Handle) :
    Meets (fun n m => n.outline = m.outline) (t.node id) (u.node id) := by
  have hid := h.get? id
  unfold Tree.node
  cases hn : t.nodes.get? id <;> cases hm : u.nodes.get? id <;> rw [hn, hm] at hid
  · rfl
  · cases hid
  · cases hid
  · exact Option.some.inj hid

theorem twinned_node (id : Handle) : Twinned (fun n m => n.outline = m.outline)
    (read (·.node id) : TreeM (Consulted σ) cmp (Node (Consulted σ))) (read (·.node id)) :=
  twinned_read fun _ _ h => h.node id

theorem Twin.set (h : Twin t u) (id : Handle) (hnm : n.outline = m.outline) :
    Twin { t with nodes := t.nodes.set id n } { u with nodes := u.nodes.set id m } :=
  { h with nodes := by simp only [Arena.set_map, h.nodes, hnm] }

theorem twinned_setNode (id : Handle) (h : n.outline = m.outline) :
    Twinned Eq (setNode id n : TreeM (Consulted σ) cmp Unit) (setNode id m) :=
  alongside_modify fun _ _ ht => ht.set id h

theorem twinned_updateNode {f g : Node (Consulted σ) → Node (Consulted σ)} (id : Handle)
    (h : ∀ n m, n.outline = m.outline → (f n).outline = (g m).outline) :
    Twinned Eq (updateNode id f : TreeM (Consulted σ) cmp Unit) (updateNode id g) :=
  (twinned_node id).bind fun n m hnm => twinned_setNode id (h n m hnm)

theorem twinned_record (e f : Event) :
    Twinned Eq (record e : TreeM (Consulted σ) cmp Unit) (record f) := alongside_modify fun _ _ h => { h with }

theorem twinned_count {f : Stats → Stats} (h : ∀ s, (f s).plain = f s.plain) :
    Blind (count f : TreeM (Consulted σ) cmp Unit) :=
  alongside_modify fun t u ht => { ht with stats := by rw [h, h, ht.stats] }

theorem twinned_onLp {act : RelaxationM (Consulted σ) α} {act' : RelaxationM (Consulted σ) β}
    (h : Relaxation.Paired W act act') : Twinned W (onLp act : TreeM (Consulted σ) cmp α) (onLp act') :=
  fun t u ht => agree_onPart (h t.lp u.lp ⟨ht.columns, ht.rows, ht.asked⟩) (fun e _ => ⟨e, rfl⟩)
    (fun _ _ _ _ hno => hno.1.elim) fun _ _ _ _ hab =>
      ⟨hab.1, { ht with columns := hab.2.columns, rows := hab.2.rows, asked := hab.2.asked }⟩

theorem twinned_onSolver {act : SolverM (Consulted σ) α} {act' : SolverM (Consulted σ) β}
    (h : Consulted.Paired W act act') : Twinned W (onSolver act : TreeM (Consulted σ) cmp α) (onSolver act') :=
  twinned_onLp (Relaxation.paired_onSolver h)

theorem twinned_returnBasis {b b' : Solver.Basis (Consulted σ)} (h : b.1 = b'.1) :
    Twinned Eq (returnBasis b : TreeM (Consulted σ) cmp Unit) (returnBasis b') := by
  refine twinned_onSolver (alongside_modify fun o o' ho => ?_)
  change Consultation.freeBasis b.1 :: o.asked = .freeBasis b'.1 :: o'.asked
  rw [h, ho]

end Primitives

theorem outline_withRole {r s : Role (Consulted σ)} (h : n.outline = m.outline) (hr : r.outline = s.outline) :
    { n with role := r }.outline = { m with role := s }.outline := by
  change { n.outline with role := r.outline } = { m.outline with role := s.outline }
  rw [h, hr]

section Sharing

theorem alongside_release : Alongside (fun _ => False) Eq
    (fun w v : WarmStart (Solver.Basis (Consulted σ)) => w.outline = v.outline)
    (fun b b' => b.map Prod.fst = b'.map Prod.fst) WarmStart.release WarmStart.release := by
  rintro ⟨b, k⟩ ⟨b', k'⟩ h
  obtain ⟨hb, rfl⟩ : b.map Prod.fst = b'.map Prod.fst ∧ k = k' := by simpa [WarmStart.outline] using h
  unfold Agree WarmStart.release
  by_cases h0 : k = 0
  · simp [h0, WarmStart.outline, hb]
  · by_cases h1 : 1 < k
    · simp [h0, h1, WarmStart.outline, hb]
    · simp only [if_neg h0, if_neg h1]
      cases b <;> cases b' <;> simp_all [WarmStart.outline]

theorem alongside_capture (k : Nat) : Alongside (fun _ => False) Eq
    (fun w v : WarmStart (Solver.Basis (Consulted σ)) => w.outline = v.outline) Eq
    (WarmStart.capture k) (WarmStart.capture k) := by
  rintro ⟨b, l⟩ ⟨b', l'⟩ h
  obtain ⟨hb, rfl⟩ : b.map Prod.fst = b'.map Prod.fst ∧ l = l' := by simpa [WarmStart.outline] using h
  unfold Agree WarmStart.capture
  cases b <;> cases b' <;> simp_all [WarmStart.outline, WarmStart.isAlive]

theorem twinned_onWarmStart {act : EStateM ShareError (WarmStart (Solver.Basis (Consulted σ))) α}
    {act' : EStateM ShareError (WarmStart (Solver.Basis (Consulted σ))) β} (id : Handle) (missing : Fault)
    (h : Alongside (fun _ => False) Eq (fun w v => w.outline = v.outline) W act act') :
    Twinned W (onWarmStart id missing act : TreeM (Consulted σ) cmp α)
      (onWarmStart id missing act') := by
  refine (twinned_node id).bind fun n m hnm => ?_
  have hrole : n.role.outline = m.role.outline := congrArg NodeOutline.role hnm
  have hw := Role.warmStart?_of_outline hrole
  cases hn : n.role.warmStart? <;> cases hm : m.role.warmStart? <;> rw [hn, hm] at hw
  · exact alongside_throw rfl
  · cases hw
  · cases hw
  · rename_i w v
    have hact := h w v (Option.some.inj hw)
    unfold Agree at hact
    dsimp only
    cases hx : act w <;> cases hy : act' v <;> rw [hx, hy] at hact
    · exact (twinned_setNode id (outline_withRole hnm (Role.outline_withWarmStart hrole hact.2))).bind
        fun _ _ _ => alongside_pure hact.1
    · exact hact.elim
    · exact hact.elim
    · obtain ⟨rfl, hout⟩ := (hact.resolve_left fun h => h).resolve_left fun h => h
      exact (twinned_setNode id (outline_withRole hnm (Role.outline_withWarmStart hrole hout))).bind
        fun _ _ _ => alongside_throw rfl

theorem twinned_releaseShare (fork : Handle) :
    Blind (releaseShare fork : TreeM (Consulted σ) cmp Unit) := by
  refine (twinned_onWarmStart fork _ alongside_release).bind fun b b' hb => ?_
  cases b <;> cases b'
  · exact alongside_pure rfl
  · cases hb
  · cases hb
  · exact (twinned_returnBasis (Option.some.inj hb)).bind fun _ _ _ =>
      Alongside.bind (twinned_count fun _ => rfl) fun _ _ _ => twinned_record _ _

theorem twinned_surrenderShare (id : Handle) :
    Blind (surrenderShare id : TreeM (Consulted σ) cmp Unit) := by
  refine (twinned_node id).bind fun n m hnm => ?_
  have hshare : n.share = m.share := congrArg NodeOutline.share hnm
  refine (twinned_setNode id (congrArg ({ · with share := none }) hnm)).bind fun _ _ _ => ?_
  rw [hshare]
  cases m.share with
  | none => exact alongside_pure rfl
  | some fork => exact twinned_releaseShare fork

theorem twinned_handShares (fork : Handle) :
    Blind (handShares fork : TreeM (Consulted σ) cmp Unit) :=
  twinned_get fun t u ht => ht.children ▸ Alongside.forM_same (fun c => twinned_updateNode c fun _ _ hnm =>
    congrArg ({ · with share := some fork }) hnm) t.children t u ht

end Sharing

section Freeing

theorem twinned_takeNode (id : Handle) : Twinned (fun n m => n.outline = m.outline)
    (takeNode id : TreeM (Consulted σ) cmp (Node (Consulted σ))) (takeNode id) := by
  refine twinned_get fun t u ht => ?_
  have he : (t.nodes.erase id).map (fun e => (e.1.outline, e.2.map Node.outline)) =
      (u.nodes.erase id).map fun e => (e.1.outline, e.2.map Node.outline) := by
    rw [← Arena.erase_map, ht.nodes, Arena.erase_map]
  cases hl : t.nodes.erase id <;> cases hr : u.nodes.erase id <;> rw [hl, hr] at he
  · exact .inr (.inr ⟨rfl, ht⟩)
  · cases he
  · cases he
  · obtain ⟨hnm, hnodes⟩ := Prod.mk.inj (Option.some.inj he)
    exact ⟨hnm, { ht with
      nodes := hnodes
      root := by simp only [ht.root]
      stats := congrArg (fun s : Stats => { s with freed := s.freed + 1 }) ht.stats }⟩

theorem twinned_checkBasisGone (id : Handle) {r s : Role (Consulted σ)} (h : r.outline = s.outline) :
    Twinned Eq (checkBasisGone id r : TreeM (Consulted σ) cmp Unit) (checkBasisGone id s) := by
  have hb := Role.basis_of_outline h
  unfold checkBasisGone
  cases hr : r.warmStart?.bind WarmStart.basis <;> cases hs : s.warmStart?.bind WarmStart.basis <;> rw [hr, hs] at hb
  · exact alongside_pure rfl
  · cases hb
  · cases hb
  · exact (twinned_returnBasis (Option.some.inj hb)).bind fun _ _ _ => alongside_throw rfl

theorem twinned_countOff (parent id : Handle) :
    Blind (countOff parent id : TreeM (Consulted σ) cmp Bool) := by
  refine (twinned_node parent).bind fun p q hpq => ?_
  have hrole : p.role.outline = q.role.outline := congrArg NodeOutline.role hpq
  have hopen := Role.openChildren?_of_outline hrole
  have hpath : p.onPath = q.onPath := congrArg NodeOutline.onPath hpq
  cases hq : q.role.openChildren? with
  | none =>
      rw [hq] at hopen
      obtain hsame | ⟨a, b, hp | hp, -⟩ := Role.outline_cases hrole
      · rw [hsame, hq]
        cases q.role <;> first | exact alongside_pure rfl | exact alongside_throw rfl
      · rw [hp] at hopen
        cases hopen
      · rw [hp] at hopen
        cases hopen
  | some k =>
      rw [hopen, hq]
      cases k with
      | zero => exact alongside_throw rfl
      | succ k =>
          exact (twinned_setNode parent (outline_withRole hpq (Role.outline_withOpenChildren hrole k))).bind
            fun _ _ _ => alongside_pure (congrArg (decide (k = 0) && !·) hpath)

theorem twinned_freeOne (id : Handle) : Blind (freeOne id : TreeM (Consulted σ) cmp (Option Handle)) := by
  refine (twinned_takeNode id).bind fun n m hnm => ?_
  have hshare : n.share = m.share := congrArg NodeOutline.share hnm
  have hparent : n.parent = m.parent := congrArg NodeOutline.parent hnm
  rw [hshare, hparent]
  cases m.share
  case' some fork => refine (twinned_releaseShare fork).bind fun _ _ _ => ?_
  all_goals
    refine (twinned_checkBasisGone id (congrArg NodeOutline.role hnm)).bind fun _ _ _ =>
      (twinned_record _ _).bind fun _ _ _ => ?_
    cases m.parent with
    | none => exact alongside_pure rfl
    | some parent => exact (twinned_countOff parent id).bind fun _ _ h => alongside_pure (h ▸ rfl)

theorem twinned_freeUpwards (depth : Nat) (id : Handle) :
    Blind (freeUpwards depth id : TreeM (Consulted σ) cmp Unit) := by
  induction depth generalizing id with
  | zero => exact (twinned_freeOne id).discard
  | succ depth ih =>
      refine (twinned_freeOne id).bind fun p _ h => h ▸ ?_
      cases p with
      | none => exact alongside_pure rfl
      | some p => exact ih p

theorem twinned_moveTo (pos : Nat) (id : Handle) :
    Blind (moveTo pos id : TreeM (Consulted σ) cmp Unit) := by
  refine (twinned_node id).bind fun n m hnm => ?_
  obtain hsame | ⟨a, b, hn | hn, hm | hm⟩ := Role.outline_cases (congrArg NodeOutline.role hnm)
  · rw [hsame]
    cases m.role <;> first
      | exact twinned_setNode id (outline_withRole hnm rfl)
      | exact alongside_throw rfl
  all_goals
    rw [hn, hm]
    exact alongside_throw rfl

theorem Twin.staged (h : Twin t u) (which : Staging) : t.staged which = u.staged which := by
  cases which
  · exact h.children
  · exact h.siblings

theorem Twin.withStaged (h : Twin t u) (ids : List Handle) (which : Staging) :
    Twin (t.withStaged ids which) (u.withStaged ids which) := by
  cases which
  · exact { h with children := rfl }
  · exact { h with siblings := rfl }

theorem twinned_unstage (id : Handle) (which : Staging) (pos : Nat) :
    Blind (unstage id which pos : TreeM (Consulted σ) cmp Unit) := by
  refine twinned_get fun t u ht => ?_
  rw [ht.staged which]
  split
  · exact .inr (.inr ⟨rfl, ht⟩)
  · have hrest := ht.withStaged (swapRemove (u.staged which) pos) which
    dsimp only
    cases (swapRemove (u.staged which) pos)[pos]? with
    | none => exact ⟨rfl, hrest⟩
    | some moved => exact twinned_moveTo pos moved _ _ hrest

theorem twinned_dismiss (id : Handle) : Blind (dismiss id : TreeM (Consulted σ) cmp Unit) := by
  refine (twinned_node id).bind fun n m hnm => ?_
  have hdepth : n.depth = m.depth := congrArg NodeOutline.depth hnm
  rw [Role.staged?_of_outline (congrArg NodeOutline.role hnm), hdepth]
  cases m.role.staged? with
  | none => exact twinned_freeUpwards _ _
  | some place => exact (twinned_unstage id place.1 place.2).bind fun _ _ _ => twinned_freeUpwards _ _

theorem Twin.doomed (h : Twin t u) (cutoff : Binary64) (ids : List Handle) :
    Meets Eq (t.doomed cutoff ids) (u.doomed cutoff ids) := by
  induction ids with
  | nil => rfl
  | cons id ids ih =>
      refine (h.node id).bind fun n m hnm => ih.bind fun rest _ hrest => ?_
      have hbound : n.lowerBound = m.lowerBound := congrArg NodeOutline.lowerBound hnm
      subst hrest
      unfold Node.canPrune
      rw [hbound]
      exact .refl _

theorem twinned_prune (cutoff : Binary64) :
    Blind (prune cutoff : TreeM (Consulted σ) cmp Nat) := by
  refine .bind (alongside_modifyGet fun t u ht => ?_) fun leaves leaves' (hleaves : leaves = leaves') => ?_
  · rw [ht.frontier]
    exact ⟨rfl, { ht with frontier := rfl }⟩
  subst hleaves
  have hstaged : Blind (read fun t => t.doomed cutoff (t.children ++ t.siblings) :
      TreeM (Consulted σ) cmp (List Handle)) := twinned_read fun t u ht => by
    rw [ht.children, ht.siblings]
    exact ht.doomed cutoff _
  refine hstaged.bind fun staged _ hstaged => ?_
  subst hstaged
  refine (Alongside.forM_same twinned_dismiss _).bind fun _ _ _ => ?_
  dsimp only
  split
  · exact alongside_pure rfl
  · exact (twinned_record _ _).bind fun _ _ _ => alongside_pure rfl

theorem freeMisuse?_eq (id : Handle) (h : n.outline = m.outline) : freeMisuse? id n = freeMisuse? id m := by
  have hrole : n.role.outline = m.role.outline := congrArg NodeOutline.role h
  have hpath : n.onPath = m.onPath := congrArg NodeOutline.onPath h
  have hopen := Role.openChildren?_of_outline hrole
  have hx := Role.isExhausted_of_outline hrole
  unfold freeMisuse?
  rw [hpath, hopen, hx]
  split
  · rfl
  · obtain hsame | ⟨a, b, hn | hn, hm | hm⟩ := Role.outline_cases hrole
    · rw [hsame]
    all_goals rw [hn, hm]

theorem twinned_free (id : Handle) : Blind (free id : TreeM (Consulted σ) cmp Unit) := by
  refine (twinned_node id).bind fun n m hnm => ?_
  have hleaf := Role.name_eq_leaf_of_outline (congrArg NodeOutline.role hnm)
  have hrest : Blind (do
      if m.role.name = .leaf then modify fun t => { t with frontier := (t.frontier.remove id).2 }
      dismiss id : TreeM (Consulted σ) cmp Unit) :=
    .when (alongside_modify fun _ _ ht => { ht with frontier := by rw [ht.frontier] }) (twinned_dismiss id)
  rw [freeMisuse?_eq id hnm]
  simp only [hleaf]
  cases freeMisuse? id m with
  | some e => exact Alongside.bind (alongside_throw (W := Eq) rfl) fun _ _ _ => hrest
  | none => exact hrest

end Freeing

section Moving

theorem key_of_outline (h : n.outline = m.outline) : n.key = m.key :=
  congrArg (fun o : NodeOutline => (⟨o.number, o.depth, o.lowerBound, o.estimate⟩ : NodeKey)) h

theorem outline_withLog (h : n.outline = m.outline) {r s : Role (Consulted σ)} (hr : r.outline = s.outline)
    (log : ChangeLog) : { n with role := r, log := log }.outline = { m with role := s, log := log }.outline :=
  congrArg ({ · with log := log }) (outline_withRole h hr)

theorem twinned_queueLeaf (id : Handle) : Blind (queueLeaf id : TreeM (Consulted σ) cmp Unit) := by
  refine (twinned_node id).bind fun n m hnm => ?_
  have hlog : n.log = m.log := congrArg NodeOutline.log hnm
  have hkey : n.key = m.key := key_of_outline hnm
  refine (twinned_setNode id ?_).bind fun _ _ _ => alongside_modify fun _ _ ht => { ht with frontier := ?_ }
  · rw [hlog]
    exact outline_withLog hnm rfl _
  · rw [ht.frontier]
    exact congrArg (Frontier.insert _ id) hkey

theorem twinned_flush (which : Staging) :
    Blind (flush which : TreeM (Consulted σ) cmp Unit) := by
  refine twinned_get fun t u ht => ?_
  rw [ht.staged which]
  exact ((alongside_modify fun _ _ h => h.withStaged [] which).bind fun _ _ _ =>
    Alongside.forM_same twinned_queueLeaf _ : Twinned Eq _ _) t u ht

theorem Twin.stagedPos (h : Twin t u) (id : Handle) : Meets Eq (t.stagedPos id) (u.stagedPos id) := by
  refine (h.node id).bind fun n m hnm => ?_
  rw [Role.staged?_of_outline (congrArg NodeOutline.role hnm)]
  exact .refl _

theorem twinned_renumberSiblings :
    Blind (renumberSiblings : TreeM (Consulted σ) cmp Unit) := by
  refine twinned_get fun t u ht => ?_
  rw [ht.siblings]
  refine Alongside.forM_same ?_ _ t u ht
  rintro ⟨id, pos⟩
  exact twinned_updateNode id fun _ _ hnm => outline_withRole hnm (r := .sibling pos) (s := .sibling pos) rfl

theorem twinned_clearTheWay (id : Handle) (role : RoleName) :
    Blind (clearTheWay id role : TreeM (Consulted σ) cmp Unit) := by
  have hplace : Blind (read (·.stagedPos id) : TreeM (Consulted σ) cmp Nat) :=
    twinned_read fun _ _ ht => ht.stagedPos id
  have hunstage : ∀ which, Blind (do unstage id which (← read (·.stagedPos id)) : TreeM (Consulted σ) cmp Unit) :=
    fun which => hplace.bind fun _ _ hpos => hpos ▸ twinned_unstage id which _
  cases role with
  | child =>
      refine (twinned_flush _).bind fun _ _ _ => hplace.bind fun pos _ hpos => hpos ▸ ?_
      exact (twinned_unstage id _ pos).bind fun _ _ _ => (alongside_modify fun _ _ ht =>
        { ht with children := ht.siblings, siblings := ht.children }).bind fun _ _ _ => twinned_renumberSiblings
  | sibling => exact (twinned_flush _).bind fun _ _ _ => hunstage _
  | _ =>
      refine (twinned_flush _).bind fun _ _ _ => (twinned_flush _).bind fun _ _ _ =>
        .bind (W := Eq) (alongside_modifyGet fun t u ht => ?_) fun found _ hfound => hfound ▸ ?_
      · rw [ht.frontier]
        exact ⟨rfl, { ht with frontier := rfl }⟩
      · cases found with
        | true => exact alongside_pure rfl
        | false => exact twinned_record _ _

end Moving

section Following

theorem twinned_undoLog (id : Handle) : Blind (undoLog id : TreeM (Consulted σ) cmp Unit) := by
  refine (twinned_node id).bind fun n m hnm => twinned_get fun t u ht => ?_
  have hlog : n.log = m.log := congrArg NodeOutline.log hnm
  rw [hlog, ht.domains]
  have hset : Twin { t with domains := (m.log.undo u.domains).1 } { u with domains := (m.log.undo u.domains).1 } :=
    { ht with domains := rfl }
  exact twinned_liftExcept _ _ _ _ hset

theorem twinned_undoStep (id : Handle) : Blind (undoStep id : TreeM (Consulted σ) cmp Unit) :=
  (twinned_node id).bind fun _ _ _ => (twinned_record _ _).bind fun _ _ _ => twinned_undoLog id

theorem twinned_leave (id : Handle) : Blind (leave id : TreeM (Consulted σ) cmp Unit) := by
  have hdrop : Blind (modify fun t => { t with path := t.path.dropLast } :
      TreeM (Consulted σ) cmp PUnit) := alongside_modify fun t u ht => { ht with
    path := congrArg List.dropLast ht.path }
  refine hdrop.bind fun _ _ _ => (twinned_node id).bind fun n m hnm => ?_
  have hdepth : n.depth = m.depth := congrArg NodeOutline.depth hnm
  refine (twinned_setNode id (congrArg ({ · with onPath := false }) hnm)).bind fun _ _ _ => ?_
  rw [Role.isExhausted_of_outline (congrArg NodeOutline.role hnm), hdepth]
  split
  · exact twinned_freeUpwards _ id
  · exact alongside_pure rfl

theorem twinned_abandon (keep : Nat) : Blind (abandon keep : TreeM (Consulted σ) cmp Unit) := by
  refine twinned_get fun t u ht => ?_
  have hcut : Blind (modify fun t => { t with sizes := t.sizes.take keep } : TreeM (Consulted σ) cmp PUnit) :=
    alongside_modify fun t u ht => { ht with sized := by rw [List.length_take, ht.sized, List.length_take] }
  rw [ht.path]
  exact ((Alongside.forM_same twinned_undoStep _).bind fun _ _ _ => hcut.bind fun _ _ _ =>
    Alongside.forM_same twinned_leave _ : Twinned Eq _ _) t u ht

theorem twinned_enter (id : Handle) : Blind (enter id : TreeM (Consulted σ) cmp Unit) := by
  refine (twinned_node id).bind fun n m hnm =>
    (twinned_setNode id (congrArg ({ · with onPath := true }) hnm)).bind fun _ _ _ =>
      alongside_modify fun t u ht => { ht with path := by rw [ht.path], sized := ?_ }
  rw [List.length_append, List.length_append, ht.sized]
  rfl

theorem twinned_applyLog (id : Handle) : Blind (applyLog id : TreeM (Consulted σ) cmp Outcome) := by
  refine (twinned_node id).bind fun n m hnm => (twinned_record _ _).bind fun _ _ _ => twinned_get fun t u ht => ?_
  have hlog : n.log = m.log := congrArg NodeOutline.log hnm
  rw [hlog, ht.domains, show t.settings.tol = u.settings.tol from congrArg Settings.tol ht.settings]
  have hset : Twin
      { t with
        domains := (m.log.apply u.settings.tol u.domains).2.1
        nodes := t.nodes.set id { n with log := (m.log.apply u.settings.tol u.domains).1 } }
      { u with
        domains := (m.log.apply u.settings.tol u.domains).2.1
        nodes := u.nodes.set id { m with log := (m.log.apply u.settings.tol u.domains).1 } } :=
    { ht.set id (outline_withLog hnm (congrArg NodeOutline.role hnm) _) with domains := rfl }
  exact twinned_liftExcept _ _ _ _ hset

theorem twinned_applyLogs (ids : List Handle) :
    Blind (applyLogs ids : TreeM (Consulted σ) cmp Outcome) := by
  induction ids with
  | nil => exact alongside_pure rfl
  | cons id ids ih =>
      exact (twinned_applyLog id).bind fun _ _ ho => ih.bind fun _ _ ho' => alongside_pure (by rw [ho, ho'])

/-- The way is the same, but for the nearest Subroot. -/
structure Route.Alike (r s : Route) : Prop where
  fresh : r.fresh = s.fresh
  common : r.common = s.common
  lpFork : r.lpFork = s.lpFork

theorem twinned_follow {r s : Route} (h : Route.Alike r s) (target : Option Handle) :
    Twinned Eq (follow r target : TreeM (Consulted σ) cmp Outcome) (follow s target) := by
  have hkeep : r.keep = s.keep := by
    unfold Route.keep
    rw [h.common]
  unfold follow
  rw [hkeep, h.fresh]
  refine (twinned_abandon _).bind fun _ _ _ => (Alongside.forM_same twinned_enter _).bind fun _ _ _ => ?_
  cases target
  case' some id =>
    refine (twinned_updateNode id fun n m hnm => ?_).bind fun _ _ _ => ?_
    · rw [show n.log = m.log from congrArg NodeOutline.log hnm]
      exact outline_withLog hnm rfl _
  all_goals
    refine twinned_get fun t u ht => ?_
    rw [ht.path]
    exact Alongside.at ((twinned_applyLogs _).bind fun _ _ ho => .bind (alongside_modify fun _ _ ht =>
      { ht with lpFork := h.lpFork, active := rfl, focus := rfl }) fun _ _ _ => alongside_pure ho) ht

end Following

section Route

theorem Twin.climb (h : Twin t u) (depth : Nat) (id : Option Handle) :
    Meets Eq (t.climb depth id) (u.climb depth id) := by
  induction depth generalizing id with
  | zero => exact .refl _
  | succ depth ih =>
      cases id with
      | none => exact .refl _
      | some id =>
          refine (h.node id).bind fun n m hnm => ?_
          have hpath : n.onPath = m.onPath := congrArg NodeOutline.onPath hnm
          have hdepth : n.depth = m.depth := congrArg NodeOutline.depth hnm
          have hparent : n.parent = m.parent := congrArg NodeOutline.parent hnm
          rw [hpath, hdepth, hparent]
          split
          · exact .refl _
          · exact (ih m.parent).bind fun _ _ hup => hup ▸ .refl _

theorem Twin.nearest_snapshot (h : Twin t u) (ids : List Handle) :
    Meets Eq (t.nearest? (·.snapshot?.isSome) ids) (u.nearest? (·.snapshot?.isSome) ids) := by
  induction ids with
  | nil => exact .refl _
  | cons id ids ih =>
      refine (h.node id).bind fun n m hnm => ?_
      simp only [Role.snapshot?_of_outline (congrArg NodeOutline.role hnm)]
      split
      · exact .refl _
      · exact ih

theorem ok_of_bind {x : Except TreeError α} {f : α → Except TreeError γ} {c : γ} (h : x >>= f = .ok c) :
    ∃ a, f a = .ok c := by
  cases x with
  | error e => cases h
  | ok a => exact ⟨a, h⟩

theorem Meets.of_bind {x : Except TreeError α} {y : Except TreeError β} {f : α → Except TreeError γ}
    {g : β → Except TreeError δ} {c : γ} {d : δ} (h : Meets W x y) (hx : x >>= f = .ok c) (hy : y >>= g = .ok d) :
    ∃ a b, W a b ∧ f a = .ok c ∧ g b = .ok d := by
  cases x <;> cases y
  · cases hx
  · cases hx
  · cases hy
  · exact ⟨_, _, h, hx, hy⟩

/-- Where both find the way, it is the same but for the nearest Subroot. -/
theorem Twin.route (h : Twin t u) {id : Handle} {r s : Route} (hr : t.route id = .ok r) (hs : u.route id = .ok s) :
    Route.Alike r s := by
  obtain ⟨n, m, hnm, hr, hs⟩ := (h.node id).of_bind hr hs
  have hdepth : n.depth = m.depth := congrArg NodeOutline.depth hnm
  have hparent : n.parent = m.parent := congrArg NodeOutline.parent hnm
  rw [hdepth, hparent] at hr
  obtain ⟨up, _, rfl, hr, hs⟩ := (h.climb _ _).of_bind hr hs
  dsimp only at hr hs
  rw [h.path] at hr
  split at hr
  · cases hr
  · rename_i hshort
    rw [if_neg hshort] at hs
    obtain ⟨fork, _, rfl, hr, hs⟩ := (h.nearest_snapshot _).of_bind hr hs
    obtain ⟨_, hr⟩ := ok_of_bind hr
    obtain ⟨_, hs⟩ := ok_of_bind hs
    cases hr
    cases hs
    exact ⟨rfl, rfl, rfl⟩

end Route

section Growth

theorem twinned_noteEmpty (o : Outcome) :
    Blind (noteEmpty o : TreeM (Consulted σ) cmp Unit) := by
  cases o with
  | feasible => exact alongside_pure rfl
  | infeasible v => exact alongside_modify fun _ _ ht => { ht with focus := by rw [ht.focus] }

theorem Twin.origin (h : Twin t u) (bound : Binary64) : Meets Eq (t.origin bound) (u.origin bound) := by
  unfold Tree.origin
  rw [h.active, h.root]
  cases u.active with
  | none => exact .refl _
  | some a =>
      refine (h.node a).bind fun n m hnm => ?_
      have hdepth : n.depth = m.depth := congrArg NodeOutline.depth hnm
      have hbound : n.lowerBound = m.lowerBound := congrArg NodeOutline.lowerBound hnm
      rw [hdepth, hbound]
      exact .refl _

theorem Twin.insert (h : Twin t u) (hnm : n.outline = m.outline) :
    (t.nodes.insert n).1 = (u.nodes.insert m).1 ∧
      (t.nodes.insert n).2.map Node.outline = (u.nodes.insert m).2.map Node.outline := by
  have hi := Arena.insert_map Node.outline t.nodes n
  rw [h.nodes, hnm, Arena.insert_map] at hi
  exact ⟨(congrArg Prod.fst hi).symm, (congrArg Prod.snd hi).symm⟩

theorem twinned_create (bound estimate : Binary64) :
    Blind (create bound estimate : TreeM (Consulted σ) cmp Handle) := by
  refine (twinned_read fun _ _ ht => ht.origin bound).bind fun o _ ho => ho ▸ twinned_get fun t u ht => ?_
  obtain ⟨parent, depth, bound⟩ := o
  obtain ⟨hid, hnodes⟩ := ht.insert
    (n := ⟨t.nextNumber, parent, depth, bound, estimate, [], .empty, none, false, .child t.children.length⟩)
    (m := ⟨u.nextNumber, parent, depth, bound, estimate, [], .empty, none, false, .child u.children.length⟩)
    (by rw [ht.nextNumber, ht.children])
  dsimp only
  revert hid hnodes
  rcases t.nodes.insert _ with ⟨id, a⟩
  rcases u.nodes.insert _ with ⟨_, b⟩
  rintro rfl hnodes
  exact ⟨rfl, { ht with
    nodes := hnodes
    root := by simp only [ht.root]
    children := congrArg (· ++ [id]) ht.children
    nextNumber := congrArg (· + 1) ht.nextNumber
    stats := congrArg (fun s : Stats => { s with created := s.created + 1 }) ht.stats }⟩

theorem twinned_logChange (id : Handle) (h : n.outline = m.outline) (c : BoundChange) :
    Twinned Eq (logChange id n c : TreeM (Consulted σ) cmp Unit) (logChange id m c) := by
  have hlog : n.log = m.log := congrArg NodeOutline.log h
  unfold logChange
  rw [hlog]
  exact (twinned_liftExcept _ _).bind fun log _ hl =>
    hl ▸ twinned_setNode id (outline_withLog h (congrArg NodeOutline.role h) log)

theorem twinned_changeBound (id : Handle) (v : Nat) (side : Side) (bound : Binary64) :
    Blind (changeBound id v side bound : TreeM (Consulted σ) cmp Outcome) := by
  refine twinned_get fun t u ht => ?_
  rw [ht.domains, show t.settings.tol = u.settings.tol from congrArg Settings.tol ht.settings]
  refine Alongside.when (twinned_throw rfl) ((twinned_node id).bind fun n m hnm =>
    (twinned_liftExcept _ _).bind fun x _ hx => ?_) t u ht
  subst hx
  have hlog : n.log = m.log := congrArg NodeOutline.log hnm
  obtain hsame | ⟨a, b, hn | hn, hm | hm⟩ := Role.outline_cases (congrArg NodeOutline.role hnm)
  · rw [hsame, hlog]
    cases m.role with
    | active =>
        refine (twinned_logChange id hnm _).bind fun _ _ _ => ?_
        exact (alongside_modify fun _ _ ht => { ht with domains := by rw [ht.domains] }).bind fun _ _ _ =>
          (twinned_noteEmpty _).bind fun _ _ _ => alongside_pure rfl
    | child pos => exact (twinned_logChange id hnm _).bind fun _ _ _ => alongside_pure rfl
    | _ => exact alongside_throw rfl
  all_goals
    rw [hn, hm]
    exact alongside_throw rfl

theorem twinned_constrain (id : Handle) (c : Nat) :
    Blind (constrain id c : TreeM (Consulted σ) cmp Unit) := by
  refine (twinned_node id).bind fun n m hnm => ?_
  have hset : Twinned Eq (setNode id { n with constraints := n.constraints ++ [c] } : TreeM (Consulted σ) cmp Unit)
      (setNode id { m with constraints := m.constraints ++ [c] }) :=
    twinned_setNode id (congrArg (fun o : NodeOutline => { o with constraints := o.constraints ++ [c] }) hnm)
  have hrole : n.role.outline = m.role.outline := congrArg NodeOutline.role hnm
  generalize setNode id { n with constraints := n.constraints ++ [c] } = act at hset ⊢
  generalize setNode id { m with constraints := m.constraints ++ [c] } = act' at hset ⊢
  obtain hsame | ⟨a, b, hn | hn, hm | hm⟩ := Role.outline_cases hrole
  · rw [hsame]
    cases m.role <;> first | exact hset | exact twinned_throw rfl
  all_goals
    rw [hn, hm]
    exact twinned_throw rfl

theorem twinned_liftChildren (bound : Binary64) :
    Blind (liftChildren bound : TreeM (Consulted σ) cmp Unit) := by
  refine twinned_get fun t u ht => ?_
  rw [ht.children]
  exact Alongside.forM_same (fun c => twinned_updateNode c fun _ _ hnm =>
    congrArg (fun o : NodeOutline => { o with lowerBound := Binary64.larger o.lowerBound bound }) hnm) _ t u ht

theorem twinned_raise (id : Handle) (bound : Binary64) :
    Blind (raise id bound : TreeM (Consulted σ) cmp Unit) := by
  refine (twinned_node id).bind fun n m hnm => ?_
  have hbound : n.lowerBound = m.lowerBound := congrArg NodeOutline.lowerBound hnm
  have hraised : { n with lowerBound := bound }.outline = { m with lowerBound := bound }.outline :=
    congrArg (fun o : NodeOutline => { o with lowerBound := bound }) hnm
  have hrequeue : Twinned Eq (requeue id { n with lowerBound := bound }.key : TreeM (Consulted σ) cmp Unit)
      (requeue id { m with lowerBound := bound }.key) := by
    rw [key_of_outline hraised]
    exact alongside_modify fun _ _ ht => { ht with frontier := by rw [ht.frontier] }
  dsimp only
  rw [hbound]
  split
  · exact alongside_pure rfl
  · refine (twinned_setNode id hraised).bind fun _ _ _ => ?_
    obtain hsame | ⟨a, b, hn | hn, hm | hm⟩ := Role.outline_cases (congrArg NodeOutline.role hnm)
    · generalize (requeue id { n with lowerBound := bound }.key : TreeM (Consulted σ) cmp PUnit) = act at hrequeue ⊢
      generalize (requeue id { m with lowerBound := bound }.key : TreeM (Consulted σ) cmp PUnit) = act' at hrequeue ⊢
      rw [hsame]
      cases m.role <;> first | exact hrequeue | exact twinned_liftChildren bound | exact alongside_pure rfl
    all_goals
      rw [hn, hm]
      exact alongside_pure rfl

end Growth

section Solving

theorem twinned_requireLoaded (work : LoadedWork) : Blind (requireLoaded work : TreeM (Consulted σ) cmp Unit) := by
  refine twinned_get fun t u ht => ?_
  rw [ht.active, ht.focus]
  split
  · exact ⟨rfl, ht⟩
  · exact twinned_throw rfl t u ht

theorem twinned_addColumn (c : Solver.Column σ) : Blind (addColumn c : TreeM (Consulted σ) cmp Unit) :=
  (twinned_requireLoaded _).bind fun _ _ _ => (twinned_onLp (Relaxation.paired_addColumn c)).bind fun _ _ _ =>
    alongside_modify fun _ _ ht => { ht with domains := by rw [ht.domains, ht.columns] }

theorem twinned_addRow (r : Solver.Row σ) : Blind (addRow r : TreeM (Consulted σ) cmp Unit) :=
  (twinned_requireLoaded _).bind fun _ _ _ => twinned_onLp (Relaxation.paired_addRow r)

theorem twinned_sendBounds (v : Nat) : Blind (sendBounds v : TreeM (Consulted σ) cmp Unit) := by
  have hlook : Blind (read fun t => (t.domains.look v).mapError .outOfRange : TreeM (Consulted σ) cmp Interval) :=
    twinned_read fun t u ht => by
      rw [ht.domains]
      exact .refl _
  exact hlook.bind fun x _ hx => hx ▸
    (twinned_onSolver (Consulted.paired_consult _ _ _)).mono fun _ _ _ => rfl

theorem twinned_sendTouched : Blind (sendTouched : TreeM (Consulted σ) cmp Unit) := by
  refine twinned_get fun t u ht => ?_
  rw [ht.domains, ht.columns]
  exact Alongside.forM_same twinned_sendBounds _ _ _ { ht with domains := rfl }

/-- Twins stay twins if they are solved alike. -/
theorem paired_solve (ht : Twin t u) : Agree TreeError.IsSolver (fun e t f u => e.plain = f.plain ∧ Twin t u) solve t
    solve u fun a t b u => a = b → Twin t u := by
  have hask : Twinned (fun _ _ => True) (onSolver Solver.solve : TreeM (Consulted σ) cmp SolveStatus)
      (onSolver Solver.solve) := twinned_onSolver (Consulted.paired_consult _ _ _)
  unfold solve
  refine (twinned_requireLoaded .solve t u ht).bind fun _ t₁ _ u₁ h₁ => ?_
  refine (twinned_sendTouched t₁ u₁ h₁.2).bind fun _ t₂ _ u₂ h₂ => ?_
  refine (hask t₂ u₂ h₂.2).bind fun a t₃ b u₃ h₃ => ?_
  rintro rfl
  exact { h₃.2 with focus := congrArg (fun f : Focus => { f with isSolved := a.isSolved }) h₃.2.focus }

end Solving

section Clearing

theorem twinned_reclaimBasis (h : n.outline = m.outline) :
    Twinned Eq (reclaimBasis n : TreeM (Consulted σ) cmp Unit) (reclaimBasis m) := by
  have hb := Role.basis_of_outline (congrArg NodeOutline.role h)
  unfold reclaimBasis
  cases hn : n.role.warmStart?.bind WarmStart.basis <;> cases hm : m.role.warmStart?.bind WarmStart.basis <;>
    rw [hn, hm] at hb
  · exact alongside_pure rfl
  · cases hb
  · cases hb
  · exact (twinned_returnBasis (Option.some.inj hb)).bind fun _ _ _ => twinned_count fun _ => rfl

theorem Twin.values (h : Twin t u) : List.Forall₂ (fun n m => n.outline = m.outline) (t.nodes.toList.map Prod.snd)
    (u.nodes.toList.map Prod.snd) := by
  have hlist := congrArg (·.toList.map Prod.snd) h.nodes
  simp only [Arena.toList_map, List.map_map] at hlist
  rw [List.forall₂_map_left_iff, List.forall₂_map_right_iff]
  rw [← List.forall₂_eq_eq_eq, List.forall₂_map_left_iff, List.forall₂_map_right_iff] at hlist
  exact hlist

theorem Twin.forget (h : Twin t u) : Twin
    (forget { t with stats := { t.stats with freed := t.stats.freed + t.nodes.size } })
    (forget { u with stats := { u.stats with freed := u.stats.freed + u.nodes.size } }) where
  nodes := by
    change t.nodes.clear.map _ = u.nodes.clear.map _
    rw [← Arena.clear_map, ← Arena.clear_map, h.nodes]
  root := rfl
  frontier := congrArg (fun f => f.clear.2) h.frontier
  path := rfl
  sized := rfl
  children := rfl
  siblings := rfl
  active := rfl
  lpFork := rfl
  focus := rfl
  domains := h.domains
  columns := h.columns
  rows := h.rows
  asked := h.asked
  settings := h.settings
  nextNumber := h.nextNumber
  stats := by
    have hsize : (t.nodes.map Node.outline).size = (u.nodes.map Node.outline).size := congrArg Arena.size h.nodes
    exact congrArg₂ (fun (s : Stats) k => { s with freed := s.freed + k }) h.stats hsize

theorem twinned_clear : Blind (clear : TreeM (Consulted σ) cmp Unit) := by
  refine twinned_get fun t u ht => ?_
  rw [ht.path]
  refine (Alongside.forM_same twinned_undoLog _ t u ht).bind fun _ t₁ _ u₁ h₁ =>
    twinned_get (fun t u ht => ?_) t₁ u₁ h₁.2
  refine ((Alongside.forM (fun _ _ h => twinned_reclaimBasis h) ht.values).bind fun _ _ _ =>
    (alongside_modify fun t u ht => ?_).bind fun _ _ _ => twinned_onLp Relaxation.paired_clear : Twinned Eq _ _) t u ht
  exact ht.forget

end Clearing

section Choice

theorem twinned_pop : Blind (pop : TreeM (Consulted σ) cmp (Option Handle)) := by
  refine alongside_modifyGet fun t u ht => ?_
  rw [ht.frontier]
  cases u.frontier.pop? with
  | none => exact ⟨rfl, ht⟩
  | some r => exact ⟨rfl, { ht with frontier := rfl }⟩

theorem twinned_setPolicy (p q : SnapshotPolicy) :
    Twinned Eq (setPolicy p : TreeM (Consulted σ) cmp Unit) (setPolicy q) :=
  alongside_modify fun _ _ ht => { ht with }

theorem twinned_report : Blind (report : TreeM (Consulted σ) cmp Unit) := by
  refine twinned_get fun t u ht => ?_
  have hcount : t.stats.activations = u.stats.activations :=
    show t.stats.plain.activations = u.stats.plain.activations by rw [ht.stats]
  rw [ht.settings, hcount]
  split
  · exact twinned_record _ _ t u ht
  · exact ⟨rfl, ht⟩

end Choice

end Tree

end BranchBound
