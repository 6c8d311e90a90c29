import BranchBound.Binary64.Comparison
import BranchBound.Proofs.Descent
import BranchBound.Proofs.Waiting

namespace BranchBound

variable {σ : Type} [Solver σ] {cmp : NodeOrder}

def Op.isNumeric : Op σ → Bool
  | .create bound _ | .raise _ bound => !bound.isNaN
  | _ => true

namespace Tree

variable {K K' : Charge σ} {start : Array Interval} {t u : Tree σ cmp} {id : Handle}

/-- The bound that a node has, or the one it had when its turn ended. -/
def noteSettled (settled : Handle → Binary64) (_ u : Tree σ cmp) (k : Handle) : Binary64 :=
  match u.nodes.get? k with
  | some n => if n.role.name.isProcessed then settled k else n.lowerBound
  | none => settled k

/-- Bounds are numbers and no lower than those settled for the node and for its parent. -/
structure Inherits (settled : Handle → Binary64) (t : Tree σ cmp) : Prop where
  isNaN : ∀ k n, t.nodes.get? k = some n → n.lowerBound.isNaN = false
  settled_le : ∀ k n, t.nodes.get? k = some n → settled k ≤ n.lowerBound
  settled_eq : ∀ k n, t.nodes.get? k = some n → n.role.name.isProcessed = false → settled k = n.lowerBound
  parent : ∀ k n p, t.nodes.get? k = some n → n.parent = some p → settled p ≤ n.lowerBound

/-- What an operation does to the bounds. Those of live nodes only rise, a processed one only when it is raised
itself, and no child of the active node lies below it. -/
structure Ascends (op : Op σ) (t u : Tree σ cmp) : Prop where
  known : ∀ k m, u.nodes.get? k = some m →
    (∃ n, t.nodes.get? k = some n ∧ m.parent = n.parent ∧ n.lowerBound ≤ m.lowerBound ∧
      (m.lowerBound = n.lowerBound ∨ m.role.name.isProcessed = false ∨
        ∃ b, op = .raise k b ∧ n.role.name.isProcessed = true ∧ ¬ b ≤ n.lowerBound)) ∨
    m.role.name.isProcessed = false ∧ (∀ p, m.parent = some p → u.active = some p) ∧ m.lowerBound.isNaN = false
  lifted : ∀ k n p m, u.nodes.get? k = some n → n.parent = some p → u.nodes.get? p = some m →
    m.role.name = .active → m.lowerBound ≤ n.lowerBound

section Steps

variable {settled : Handle → Binary64} {op : Op σ} {n m : Node σ} {k p : Handle}

theorem noteSettled_eq (hn : u.nodes.get? k = some n) :
    noteSettled settled t u k = if n.role.name.isProcessed then settled k else n.lowerBound := by
  unfold noteSettled
  rw [hn]

theorem Resting.active_of_parent (h : Resting K start u) (hn : u.nodes.get? k = some n) (hp : n.parent = some p)
    (hm : u.nodes.get? p = some m) (hr : m.role.name.isProcessed = false) : m.role.name = .active := by
  refine (h.family.parent k n p m hn hp hm).resolve_right fun hopen => ?_
  cases hrole : m.role <;> rw [hrole] at hopen hr <;> first | (cases hr; done) | cases hopen

theorem Inherits.step (h : Inherits settled t) (hs : Ascends op t u) (hu : Resting K start u) :
    Inherits (noteSettled settled t u) u where
  isNaN k m hm := by
    obtain ⟨n, -, -, hle, -⟩ | ⟨-, -, hnum⟩ := hs.known k m hm
    · exact (Binary64.le_iff.1 hle).2.1
    · exact hnum
  settled_le k m hm := by
    rw [noteSettled_eq hm]
    obtain ⟨n, hn, -, hle, -⟩ | ⟨hwaits, -, hnum⟩ := hs.known k m hm
    · split
      · exact Binary64.le_trans (h.settled_le k n hn) hle
      · exact Binary64.le_self (Binary64.le_iff.1 hle).2.1
    · rw [hwaits]
      exact Binary64.le_self hnum
  settled_eq k m hm hr := by
    rw [noteSettled_eq hm, hr]
    rfl
  parent k m p hm hp := by
    obtain ⟨o, ho, -⟩ := hu.forest.hung k m p hm hp
    rw [noteSettled_eq ho]
    cases hr : o.role.name.isProcessed with
    | false => exact hs.lifted k m p o hm hp ho (hu.active_of_parent hm hp ho hr)
    | true =>
        obtain ⟨n, hn, hparent, hle, -⟩ | ⟨-, hactive, -⟩ := hs.known k m hm
        · exact Binary64.le_trans (h.parent k n p hn (hparent ▸ hp)) hle
        · obtain ⟨o', ho', hact⟩ := (hu.acting p).1 (hactive p hp)
          cases ho.symm.trans ho'
          rw [hact] at hr
          cases hr

theorem Inherits.active_le (h : Inherits settled t) (hn : t.nodes.get? k = some n) (hp : n.parent = some p)
    (hm : t.nodes.get? p = some m) (hr : m.role.name.isProcessed = false) : m.lowerBound ≤ n.lowerBound := by
  rw [← h.settled_eq p m hm hr]
  exact h.parent k n p hn hp

theorem Inherits.of_remains (h : Inherits settled t) (hr : Remains t u)
    (ha : ∀ p n m, t.nodes.get? p = some n → u.nodes.get? p = some m → m.role.name = .active →
      n.role.name.isProcessed = false) : Ascends op t u where
  known k m hm := by
    obtain ⟨n, hn, hparent, -, hbound⟩ := hr k m hm
    refine .inl ⟨n, hn, hparent, ?_, .inl hbound⟩
    rw [hbound]
    exact Binary64.le_self (h.isNaN k n hn)
  lifted k m p o hm hp ho hact := by
    obtain ⟨n, hn, hparent, -, hbound⟩ := hr k m hm
    obtain ⟨q, hq, -, -, hbound'⟩ := hr p o ho
    rw [hbound, hbound']
    exact h.active_le hn (hparent ▸ hp) hq (ha p q o hq ho hact)

theorem Inherits.stay (h : Inherits settled t) : Ascends op t t :=
  h.of_remains (refl_of Remains t) fun p n m hn hm hr => by
    cases hn.symm.trans hm
    rw [hr]
    rfl

theorem Inherits.of_named (h : Inherits settled t) (hr : Remains t u)
    (hn : Carried (fun n m => m.parent = n.parent ∧ m.role.name = n.role.name) t.nodes u.nodes) : Ascends op t u :=
  h.of_remains hr fun p n m hn' hm hact => by
    obtain ⟨o, ho, -, hname⟩ := hn p m hm
    cases hn'.symm.trans ho
    rw [← hname, hact]
    rfl

theorem Inherits.origin (h : Inherits settled t) {bound bound' : Binary64} {parent : Option Handle} {depth : Nat}
    (hb : bound.isNaN = false) (ho : t.origin bound = .ok (parent, depth, bound')) :
    parent = t.active ∧ bound'.isNaN = false ∧
      ∀ p n, t.active = some p → t.nodes.get? p = some n → n.lowerBound ≤ bound' := by
  unfold Tree.origin at ho
  cases ha : t.active with
  | none =>
      simp only [ha] at ho
      split at ho
      · cases ho
        exact ⟨rfl, hb, fun _ _ hp => nomatch hp⟩
      · cases ho
  | some a =>
      simp only [ha] at ho
      cases hn : t.nodes.get? a with
      | none =>
          rw [node_eq_error.2 ⟨hn, rfl⟩] at ho
          cases ho
      | some n =>
          rw [node_eq_ok.2 hn] at ho
          cases ho
          refine ⟨rfl, Binary64.isNaN_larger hb _, ?_⟩
          rintro _ m ⟨⟩ hm
          cases hn.symm.trans hm
          exact Binary64.le_larger_right bound (h.isNaN a n hn)

theorem create_joins (ht : t.nodes.WellFormed) (bound estimate : Binary64) :
    Ends (create bound estimate) t (fun id u => ∃ m, Joined t.nodes u.nodes id m ∧
      t.origin bound = .ok (m.parent, m.depth, m.lowerBound) ∧ m.role.name = .child ∧ u.active = t.active)
      fun _ u => u = t := by
  unfold create
  rw [ends_bind, ends_read]
  cases ho : t.origin bound with
  | error e => rfl
  | ok r =>
      obtain ⟨parent, depth, bound'⟩ := r
      simp only [ends_bind, ends_get]
      let m : Node σ := {
        number := t.nextNumber
        parent := parent
        depth := depth
        lowerBound := bound'
        estimate := estimate
        constraints := []
        log := .empty
        share := none
        onPath := false
        role := .child t.children.length }
      rcases hi : t.nodes.insert m with ⟨id, nodes⟩
      exact ⟨m, joined_of_insert ht hi, rfl, rfl, rfl⟩

theorem create_ascends (h : Inherits settled t) (ht : Resting K start t) {bound : Binary64} (hb : bound.isNaN = false)
    (estimate : Binary64) :
    Ends (create bound estimate) t (fun _ u => Ascends op t u) fun _ u => Ascends op t u := by
  refine (create_joins ht.wellFormed bound estimate).mono ?_ ?_
  · rintro id u ⟨m, hjoined, horigin, hname, hactive⟩
    obtain ⟨hparent, hnum, hle⟩ := h.origin hb horigin
    refine ⟨fun k o ho => ?_, fun k o p q ho hp hq hact => ?_⟩
    · obtain ⟨-, rfl⟩ | ho := hjoined.cases ho
      · exact .inr ⟨by rw [hname]; rfl, fun p hp => hactive.trans (hparent.symm.trans hp), hnum⟩
      · exact .inl ⟨o, ho, rfl, Binary64.le_self (h.isNaN k o ho), .inl rfl⟩
    · obtain ⟨-, rfl⟩ | hq := hjoined.cases hq
      · rw [hname] at hact
        cases hact
      · obtain ⟨-, rfl⟩ | ho := hjoined.cases ho
        · exact hle p q (hparent.symm.trans hp) hq
        · exact h.active_le ho hp hq (by rw [hact]; rfl)
  · rintro e u rfl
    exact h.stay

inductive Lifts (id : Handle) (bound : Binary64) (k : Handle) (n m : Node σ) : Prop
  | self : k = id → m.lowerBound = bound → Lifts id bound k n m
  | same : k ≠ id → m.lowerBound = n.lowerBound → Lifts id bound k n m
  | child : k ≠ id → n.role.name = .child → n.lowerBound ≤ m.lowerBound → Lifts id bound k n m

structure Raised (id : Handle) (bound : Binary64) (t u : Tree σ cmp) (n : Node σ) : Prop where
  rises : ¬ bound ≤ n.lowerBound
  nodes : ∀ k m, u.nodes.get? k = some m → ∃ o, t.nodes.get? k = some o ∧ m.parent = o.parent ∧
    m.role = o.role ∧ Lifts id bound k o m
  children : n.role.name = .active → bound.isNaN = false → ∀ k m, u.nodes.get? k = some m → m.parent = some id →
    bound ≤ m.lowerBound

theorem Lifts.le {bound : Binary64} (h : Lifts id bound k n m) (hn : n.lowerBound.isNaN = false)
    (hm : m.lowerBound.isNaN = false) (hrises : k = id → ¬ bound ≤ n.lowerBound) : n.lowerBound ≤ m.lowerBound := by
  obtain ⟨hk, heq⟩ | ⟨-, heq⟩ | ⟨-, -, hle⟩ := h
  · rw [heq] at hm ⊢
    exact Binary64.le_of_not_le hm hn (hrises hk)
  · rw [heq]
    exact Binary64.le_self hn
  · exact hle

theorem Inherits.of_raised (h : Inherits settled t) {bound : Binary64} (hn : t.nodes.get? id = some n)
    (hb : bound.isNaN = false) (hraised : Raised id bound t u n) : Ascends (.raise id bound : Op σ) t u := by
  have hle : ∀ k o m, t.nodes.get? k = some o → Lifts id bound k o m → o.lowerBound ≤ m.lowerBound := by
    intro k o m ho hlifts
    refine hlifts.le (h.isNaN k o ho) ?_ fun hk => ?_
    · obtain ⟨-, heq⟩ | ⟨-, heq⟩ | ⟨-, -, hle⟩ := hlifts
      · rwa [heq]
      · rw [heq]
        exact h.isNaN k o ho
      · exact (Binary64.le_iff.1 hle).2.1
    · subst hk
      cases hn.symm.trans ho
      exact hraised.rises
  refine ⟨fun k m hm => ?_, fun k m p q hm hp hq hact => ?_⟩
  · obtain ⟨o, ho, hparent, hrole, hlifts⟩ := hraised.nodes k m hm
    refine .inl ⟨o, ho, hparent, hle k o m ho hlifts, ?_⟩
    rw [hrole]
    rcases hlifts with ⟨rfl, -⟩ | ⟨-, heq⟩ | ⟨-, hchild, -⟩
    · cases hn.symm.trans ho
      cases hr : n.role.name.isProcessed with
      | false => exact .inr (.inl rfl)
      | true => exact .inr (.inr ⟨bound, rfl, rfl, hraised.rises⟩)
    · exact .inl heq
    · rw [hchild]
      exact .inr (.inl rfl)
  · obtain ⟨o, ho, hparent, -, hlifts⟩ := hraised.nodes k m hm
    obtain ⟨q', hq', -, hrole, hlifts'⟩ := hraised.nodes p q hq
    rw [hrole] at hact
    rcases hlifts' with ⟨rfl, heq⟩ | ⟨-, heq⟩ | ⟨-, hchild, -⟩
    · cases hn.symm.trans hq'
      rw [heq]
      exact hraised.children hact hb k m hm hp
    · rw [heq]
      refine Binary64.le_trans (h.active_le ho (hparent ▸ hp) hq' ?_) (hle k o m ho hlifts)
      rw [hact]
      rfl
    · rw [hchild] at hact
      cases hact

theorem lifts_set (hn : t.nodes.get? id = some n) (bound : Binary64) (hm : (t.nodes.set id
    { n with lowerBound := bound }).get? k = some m) :
    ∃ o, t.nodes.get? k = some o ∧ m.parent = o.parent ∧ m.role = o.role ∧ Lifts id bound k o m := by
  rw [Arena.get?_set] at hm
  split at hm
  · rename_i hk
    subst hk
    rw [hn] at hm
    cases hm
    exact ⟨n, hn, rfl, rfl, .self rfl rfl⟩
  · rename_i hk
    exact ⟨m, hm, rfl, rfl, .same hk rfl⟩

theorem raise_lifts (hnum : ∀ k n, t.nodes.get? k = some n → n.lowerBound.isNaN = false)
    (ht : Resting (fun _ _ => True) start t) (bound : Binary64) (id : Handle) :
    Ends (raise id bound) t (fun _ u => u = t ∨ ∃ n, t.nodes.get? id = some n ∧ Raised id bound t u n)
      fun _ u => u = t := by
  unfold raise
  rw [ends_bind, ends_read]
  cases hn : t.nodes.get? id with
  | none =>
      rw [node_eq_error.2 ⟨hn, rfl⟩]
  | some n =>
      rw [node_eq_ok.2 hn]
      simp only
      split
      · exact .inl rfl
      · rename_i hrises
        have hset := fun k m => lifts_set (k := k) (m := m) hn bound
        rw [ends_bind, ends_setNode]
        split
        · rename_i hrole
          refine .inr ⟨n, rfl, hrises, hset, fun hact => ?_⟩
          rw [hrole] at hact
          cases hact
        · rename_i hrole
          have hname : n.role.name ≠ .leaf := by
            rw [hrole]
            exact RoleName.noConfusion
          obtain ⟨h₁, -⟩ := ht.lift Upkeep.nothing.toCustody hn bound
            (ht.queue.set (ht.toSound.unqueued hn hname) _)
          refine (liftChildren_eq h₁ bound).mono ?_ fun _ _ h => h.elim
          rintro _ u rfl
          refine .inr ⟨n, rfl, hrises, fun k m hm => ?_, fun hact hb k m hm hp => ?_⟩
          · obtain ⟨m₁, hm₁, rfl⟩ := Arena.get?_adjust_some hm
            obtain ⟨o, ho, hparent, hrole', hlifts⟩ := hset k m₁ hm₁
            by_cases hk : k ∈ t.children
            · obtain ⟨o', ho', hchild⟩ := ht.child_of_listed hk
              cases ho.symm.trans ho'
              rw [liftIn, if_pos hk]
              rcases hlifts with ⟨rfl, -⟩ | ⟨hne, heq⟩ | ⟨hne, -, hle⟩
              · cases hn.symm.trans ho
                rw [hrole] at hchild
                cases hchild
              · refine ⟨o, ho, hparent, hrole', .child hne hchild ?_⟩
                rw [heq]
                exact Binary64.le_larger_left (hnum k o ho) bound
              · exact ⟨o, ho, hparent, hrole', .child hne hchild
                  (Binary64.le_trans hle (Binary64.le_larger_left (Binary64.le_iff.1 hle).2.1 bound))⟩
            · rw [liftIn, if_neg hk]
              exact ⟨o, ho, hparent, hrole', hlifts⟩
          · obtain ⟨m₁, hm₁, rfl⟩ := Arena.get?_adjust_some hm
            obtain ⟨o, ho, hparent, -⟩ := hset k m₁ hm₁
            rw [liftIn_parent, hparent] at hp
            have hk := (ht.mem_children ((ht.acting id).2 ⟨n, hn, hact⟩) k).2 ⟨o, ho, hp⟩
            rw [liftIn, if_pos hk]
            exact Binary64.le_larger_right _ hb
        · rename_i hleaf hactive
          exact .inr ⟨n, rfl, hrises, hset, fun hact => absurd (eq_active_of_name hact) hactive⟩

theorem raise_ascends (h : Inherits settled t) (ht : Resting (fun _ _ => True) start t) {bound : Binary64}
    (hb : bound.isNaN = false) (id : Handle) :
    Ends (raise id bound) t (fun _ u => Ascends (.raise id bound : Op σ) t u)
      fun _ u => Ascends (.raise id bound : Op σ) t u := by
  refine (raise_lifts h.isNaN ht bound id).mono ?_ ?_
  · rintro _ u (rfl | ⟨n, hn, hraised⟩)
    · exact h.stay
    · exact h.of_raised hn hb hraised
  · rintro e u rfl
    exact h.stay

theorem activate_waits (target : Option Handle) (t : Tree σ cmp) :
    Ends (activate target) t (fun a _ => a = .unchanged ∨ ∀ id, target = some id →
      ∃ n, t.nodes.get? id = some n ∧ n.role.name.isWaiting = true) fun _ _ => True := by
  cases target with
  | none => exact (ends_trivial deactivate t).mono (fun _ _ _ => .inr nofun) fun _ _ _ => trivial
  | some id =>
      unfold activate
      rw [ends_bind, ends_get]
      split
      · exact .inl rfl
      · unfold switchTo
        rw [ends_bind, ends_read]
        cases hn : t.nodes.get? id with
        | none =>
            rw [node_eq_error.2 ⟨hn, rfl⟩]
            trivial
        | some n =>
            rw [node_eq_ok.2 hn]
            dsimp only
            split
            · rename_i hw
              refine (ends_trivial _ t).mono (fun _ _ _ => .inr ?_) fun _ _ _ => trivial
              rintro _ ⟨⟩
              exact ⟨n, hn, hw⟩
            · rw [ends_bind]
              trivial

theorem activate_ascends (h : Inherits settled t) (ht : Resting (fun _ _ => True) start t) (target : Option Handle) :
    Ends (activate target) t (fun _ u => Ascends op t u) fun _ u => Ascends op t u := by
  have hK : Custody (σ := σ) (fun _ _ => True) (fun _ _ => True) := Upkeep.nothing.toCustody
  refine ((remains_activate target t).and ((activate_waits target t).and (activate_cases hK ht target))).mono ?_ ?_
  · rintro a u ⟨hremains, hwaits, ⟨-, rfl, -⟩ | ⟨hne, -, harrives, -⟩⟩
    · exact h.stay
    · refine h.of_remains hremains fun p n m hn hm hact => ?_
      have hactive : u.active = target := by
        obtain ⟨-, -, -, -, hfollowed⟩ := harrives.switched
        exact hfollowed.active
      have htarget : target = some p := hactive ▸ (harrives.resting.acting p).2 ⟨m, hm, hact⟩
      obtain ⟨n', hn', hw⟩ := hwaits.resolve_left hne p htarget
      cases hn.symm.trans hn'
      cases hr : n.role.name <;> rw [hr] at hw <;> first | rfl | cases hw
  · rintro e u ⟨hremains, -, ⟨-, -, -, rfl, -⟩ | hbalks⟩
    · exact h.stay
    · exact h.of_named hremains hbalks.settles.nodes

theorem perform_ascends (h : Inherits settled t) (ht : Resting (fun _ _ => True) start t)
    (hop : op.isNumeric = true) : Ascends op t (left op.perform t) := by
  have hK : Upkeep (σ := σ) (fun _ _ => True) (fun _ _ => True) := .nothing
  have hcalm : ∀ {m : TreeM σ cmp Unit}, Along (Calm none .deals) m →
      Ends m t (fun _ u => Ascends op t u) fun _ u => Ascends op t u :=
    fun hm => (hm t).mono (fun _ _ g => h.of_named g.remains g.named) fun _ _ g => h.of_named g.remains g.named
  have hqueue : ∀ (t : Tree σ cmp) (r : Frontier.Request), Remains t { t with frontier := r.perform t.frontier } :=
    fun t _ => refl_of Remains t
  refine Ends.left (P := Ascends op t) ?_
  cases op with
  | create bound estimate => exact ends_discard.2 (create_ascends h ht (by simpa [Op.isNumeric] using hop) estimate)
  | changeBound id v side bound => exact hcalm (along_changeBound id v side bound).discard
  | constrain id c => exact hcalm (along_constrain id c)
  | raise id bound => exact raise_ascends h ht (by simpa [Op.isNumeric] using hop) id
  | addColumn c => exact hcalm (along_addColumn c)
  | addRow r => exact hcalm (along_addRow r)
  | solve => exact hcalm along_solve.discard
  | activate target => exact ends_discard.2 (activate_ascends h ht target)
  | load => exact hcalm (along_load (q := .deals) nofun).discard
  | prune cutoff =>
      exact ends_discard.2 (((along_prune (fun _ _ => Sweeps.remains) hqueue cutoff t).and
        (prune_settles hK.toRedemption ht cutoff)).mono
        (fun _ _ g => h.of_named g.1 g.2.nodes) fun _ _ g => g.2.elim)
  | free id =>
      refine ((along_free (fun _ _ => Sweeps.remains) hqueue id t).and
        ((free_settles ht.queue.nodup id).and (free_spec hK.toCustody ht id))).mono
        (fun _ _ g => h.of_named g.1 g.2.1.nodes) ?_
      rintro e u ⟨-, -, rfl, -⟩
      exact h.stay
  | pop =>
      refine ends_discard.2 ?_
      unfold pop
      rw [ends_modifyGet]
      split <;> exact h.of_named (refl_of Remains t) (.refl (fun _ => ⟨rfl, rfl⟩) t.nodes)
  | clear =>
      have hvacant : ∀ {u : Tree σ cmp}, Vacant u → Ascends (.clear : Op σ) t u := fun hv =>
        ⟨fun k _ hm => (nomatch (hv.nodes k).symm.trans hm), fun k _ _ _ hm => (nomatch (hv.nodes k).symm.trans hm)⟩
      exact (clear_spec hK.toRebuilding ht).mono (fun _ _ g => hvacant g.2.1.toVacant) fun _ _ g =>
        hvacant g.2.2.toVacant
  | setPolicy p => exact h.of_named (refl_of Remains t) (.refl (fun _ => ⟨rfl, rfl⟩) t.nodes)

end Steps

section Runs

variable {solver : σ} {domains : Domains} {settings : Settings} {t₀ : Tree σ cmp} {settled : Handle → Binary64}

def RaisedLate (t : Tree σ cmp) (ops : List (Op σ)) (k : Handle) : Prop :=
  ∃ before bound n, before ++ [.raise k bound] <+: ops ∧ (t.run before).nodes.get? k = some n ∧
    n.role.name.isProcessed = true ∧ ¬ bound ≤ n.lowerBound

theorem inherits_run (h : Inherits settled t) (ht : Resting (fun _ _ => True) start t)
    (hsettled : ∀ k n, t.nodes.get? k = some n → settled k = n.lowerBound) (ops : List (Op σ))
    (hops : ∀ op ∈ ops, op.isNumeric = true) :
    Inherits (chronicle noteSettled settled t ops) (t.run ops) ∧
      ∀ k n, (t.run ops).nodes.get? k = some n → ¬ RaisedLate t ops k →
        chronicle noteSettled settled t ops k = n.lowerBound := by
  induction ops using List.reverseRecOn with
  | nil => exact ⟨h, fun k n hn _ => hsettled k n hn⟩
  | append_singleton ops op ih =>
      obtain ⟨hinherits, heq⟩ := ih fun o ho => hops o (List.mem_append_left _ ho)
      have hascends : Ascends op (t.run ops) (t.run (ops ++ [op])) := by
        rw [run_concat]
        exact perform_ascends hinherits (run_resting .nothing ht ops) (hops op (by simp))
      rw [chronicle_concat]
      refine ⟨hinherits.step hascends (run_resting .nothing ht _), fun k m hm hlate => ?_⟩
      rw [noteSettled_eq hm]
      split
      · rename_i hr
        obtain ⟨n, hn, -, -, hbound | hidle | ⟨b, rfl, hdone, hrises⟩⟩ | ⟨hidle, -⟩ := hascends.known k m hm
        · rw [hbound]
          refine heq k n hn ?_
          rintro ⟨before, b, o, hpre, hrest⟩
          exact hlate ⟨before, b, o, hpre.trans (List.prefix_append _ _), hrest⟩
        · exact nomatch hr.symm.trans hidle
        · exact absurd ⟨ops, b, n, List.prefix_rfl, hn, hdone, hrises⟩ hlate
        · exact nomatch hr.symm.trans hidle
      · rfl

/-- A node is no lower than its parent was when the parent's turn ended, or is now while it has not. So it is no lower
than its parent unless the parent was raised after its turn. -/
theorem bounds_inherited (h₀ : ofSettings solver domains settings = .ok t₀) (ops : List (Op σ))
    (hops : ∀ op ∈ ops, op.isNumeric = true) (k : Handle) (n : Node σ) (p : Handle)
    (hn : (t₀.run ops).nodes.get? k = some n) (hp : n.parent = some p) :
    ∃ m, (t₀.run ops).nodes.get? p = some m ∧
      chronicle noteSettled (fun _ => 0) t₀ ops p ≤ n.lowerBound ∧
      chronicle noteSettled (fun _ => 0) t₀ ops p ≤ m.lowerBound ∧
      (¬ RaisedLate t₀ ops p →
        chronicle noteSettled (fun _ => 0) t₀ ops p = m.lowerBound ∧ m.lowerBound ≤ n.lowerBound) := by
  have hrest := resting_of_ofSettings (K := fun _ _ => True) h₀ trivial
  obtain ⟨hvacant, -⟩ := vacant_of_ofSettings h₀
  have hnobody : ∀ k n, t₀.nodes.get? k ≠ some n := fun k n hn => nomatch (hvacant.nodes k).symm.trans hn
  have hnew : Inherits (fun _ => 0) t₀ :=
    ⟨fun k n h => absurd h (hnobody k n), fun k n h => absurd h (hnobody k n), fun k n h => absurd h (hnobody k n),
      fun k n _ h => absurd h (hnobody k n)⟩
  obtain ⟨hinherits, heq⟩ := inherits_run hnew hrest (fun k n h => absurd h (hnobody k n)) ops hops
  obtain ⟨m, hm, -⟩ := (run_resting .nothing hrest ops).forest.hung k n p hn hp
  refine ⟨m, hm, hinherits.parent k n p hn hp, hinherits.settled_le p m hm, fun hlate => ⟨heq p m hm hlate, ?_⟩⟩
  rw [← heq p m hm hlate]
  exact hinherits.parent k n p hn hp

/-- The root is raised while it is active, and again when its child is, which has risen the first time only. -/
theorem bounds_inherited_below_root :
    ∃ t₀ : Tree ScriptedSolver SelectionRule.bestBound.order, ofSettings .fresh (.free 1) {} = .ok t₀ ∧
      let ops := [.create 0 0, .activate (some ⟨0, 0⟩), .create 0 0, .raise ⟨0, 0⟩ 3, .activate (some ⟨1, 0⟩),
        .raise ⟨0, 0⟩ 5]
      let t := t₀.run ops
      let settled := chronicle noteSettled (fun _ => 0) t₀ ops ⟨0, 0⟩
      ∃ n m, t.nodes.get? ⟨1, 0⟩ = some n ∧ n.parent = some ⟨0, 0⟩ ∧ t.nodes.get? ⟨0, 0⟩ = some m ∧
        settled ≤ n.lowerBound ∧ settled ≤ m.lowerBound ∧ 3 ≤ settled := by
  refine ⟨_, rfl, ?_⟩
  intro ops t settled
  have h := @bounds_inherited ScriptedSolver _ SelectionRule.bestBound.order .fresh (.free 1) {} _ rfl ops
    (by decide +kernel) ⟨1, 0⟩
  have hchild : (t.nodes.get? ⟨1, 0⟩).any fun n => n.parent = some ⟨0, 0⟩ := by decide +kernel
  simp only [Option.any_eq_true, decide_eq_true_eq] at hchild
  obtain ⟨n, hn, hp⟩ := hchild
  obtain ⟨m, hm, hle, hle', -⟩ := h n ⟨0, 0⟩ hn hp
  exact ⟨n, m, hn, hp, hm, hle, hle', by decide +kernel⟩

theorem not_inherited_after_raise :
    ∃ t₀ : Tree ScriptedSolver SelectionRule.bestBound.order, ofSettings .fresh (.free 1) {} = .ok t₀ ∧
      let t := t₀.run [.create 0 0, .activate (some ⟨0, 0⟩), .create 0 0, .activate (some ⟨1, 0⟩), .raise ⟨0, 0⟩ 5]
      ∃ n m, t.nodes.get? ⟨1, 0⟩ = some n ∧ n.parent = some ⟨0, 0⟩ ∧ t.nodes.get? ⟨0, 0⟩ = some m ∧
        ¬ m.lowerBound ≤ n.lowerBound := by
  refine ⟨_, rfl, ?_⟩
  intro t
  have hp : (t.nodes.get? ⟨1, 0⟩).any fun n => n.parent = some ⟨0, 0⟩ ∧
      (t.nodes.get? ⟨0, 0⟩).any fun m => ¬ m.lowerBound ≤ n.lowerBound := by decide +kernel
  simp only [Option.any_eq_true, decide_eq_true_eq] at hp
  obtain ⟨n, hn, hp, m, hm, hlt⟩ := hp
  exact ⟨n, m, hn, hp, hm, hlt⟩

end Runs

end Tree

end BranchBound
