import BranchBound.Proofs.Concluding

namespace BranchBound

variable {σ : Type} [Solver σ] {cmp : NodeOrder}

namespace Tree

variable {K K' : Charge σ} {start : Array Interval}
  {t t' : Tree σ cmp} {a : Handle} {n : Node σ}

theorem handShares_spec {f : Handle} (hn : t.children.Nodup)
    (hlive : ∀ k ∈ t.children, ∃ m, t.nodes.get? k = some m) :
    Ends (handShares f) t
      (fun _ t' => t' = { t with nodes := t.nodes.adjust fun k m =>
        if k ∈ t.children then { m with share := some f } else m }) fun _ _ => False := by
  unfold handShares
  rw [ends_bind, ends_get]
  refine (updateAll_spec (fun k => k) (fun _ m => { m with share := some f })
    (by rwa [List.map_id']) hlive).mono ?_ fun _ _ h => h
  rintro _ t' ⟨F, rfl, hF, hrest⟩
  rw [List.map_id'] at hrest
  have heq : t.nodes.adjust F = t.nodes.adjust fun k m =>
      if k ∈ t.children then { m with share := some f } else m := by
    apply Arena.adjust_congr
    intro k m _
    by_cases hk : k ∈ t.children
    · rw [if_pos hk, hF k hk]
    · rw [if_neg hk, hrest k m hk]
  rw [heq]

theorem Resting.not_shared (h : Resting K start t) (ha : t.active = some a) :
    t.nodes.count (·.share = some a) = 0 := by
  obtain ⟨n, hn, hr, -⟩ := h.actor ha
  apply Arena.count_eq_zero
  intro k m hm
  by_contra hs
  have hshare : m.share = some a := by simpa using hs
  obtain ⟨-, hnear⟩ := h.sharing.holder k m a hm hshare
  obtain ⟨n', hn', hsnap⟩ := hnear.holds
  cases hn.symm.trans hn'
  rw [hr] at hsnap
  cases hsnap

theorem Resting.child_ne (h : Resting K start t) (ha : t.active = some a) : a ∉ t.children := by
  intro hk
  obtain ⟨m, hm, hp, -⟩ := h.fresh_child ha hk
  obtain ⟨m', hm', hd⟩ := h.forest.hung a m a hm hp
  cases hm.symm.trans hm'
  omega

section Granting

variable {f : Handle} {role : Role σ} {g : Handle → Node σ → Node σ} {m : Node σ}
  {w : WarmStart (Solver.Basis σ)}

/-- What becomes of the nodes when `a` takes on its role and its children a share in `f` each, and the others
become what `g` says. -/
def granting (t : Tree σ cmp) (a f : Handle) (n : Node σ) (role : Role σ) (g : Handle → Node σ → Node σ)
    (k : Handle) (x : Node σ) : Node σ :=
  if k = a then { n with role := role, log := n.log.close }
  else if k ∈ t.children then { x with share := some f } else g k x

def Grants (t : Tree σ cmp) (a f : Handle) (g : Handle → Node σ → Node σ) : Prop :=
  ∀ k x, t.nodes.get? k = some x → k ≠ a → k ∉ t.children → Steady x (g k x) ∧
    (g k x).share = x.share ∧ (k ≠ f → (g k x).role.warmStart? = x.role.warmStart?)

theorem granting_self (x : Node σ) :
    granting t a f n role g a x = { n with role := role, log := n.log.close } := if_pos rfl

theorem granting_rest {k : Handle} (hka : k ≠ a) (hk : k ∉ t.children) (x : Node σ) :
    granting t a f n role g k x = g k x := by
  rw [granting, if_neg hka, if_neg hk]

theorem Resting.granting_child (h : Resting K start t) (ha : t.active = some a) {k : Handle} (hk : k ∈ t.children)
    (x : Node σ) : granting t a f n role g k x = { x with share := some f } := by
  have hka : k ≠ a := by
    rintro rfl
    exact h.child_ne ha hk
  rw [granting, if_neg hka, if_pos hk]

theorem Resting.granting_steady (h : Resting K start t) (ha : t.active = some a) (hg : Grants t a f g) :
    ∀ k x, t.nodes.get? k = some x → k ≠ a → Steady x (granting t a f n role g k x) := by
  intro k x hx hka
  by_cases hk : k ∈ t.children
  · rw [h.granting_child ha hk]
    exact .withShare x _
  · rw [granting_rest hka hk]
    exact (hg k x hx hka hk).1

theorem Resting.granting_eq (h : Resting K start t) (ha : t.active = some a) (role : Role σ)
    (hga : ∀ x, g a x = x) (hgc : ∀ k ∈ t.children, ∀ x, g k x = x) (hn : t.nodes.get? a = some n) :
    ((t.nodes.adjust g).adjust fun k x => if k ∈ t.children then { x with share := some f } else x).get? a =
        some n ∧
      ((t.nodes.adjust g).adjust fun k x => if k ∈ t.children then { x with share := some f } else x).set a
        { n with role := role, log := n.log.close } = t.nodes.adjust (granting t a f n role g) := by
  constructor
  · rw [Arena.get?_adjust, Arena.get?_adjust, hn, Option.map_some, Option.map_some, if_neg (h.child_ne ha), hga]
  · rw [Arena.set_eq_adjust, Arena.adjust_adjust, Arena.adjust_adjust]
    apply Arena.adjust_congr
    intro k x _
    unfold granting
    by_cases hka : k = a
    · rw [if_pos hka, if_pos hka]
    · rw [if_neg hka, if_neg hka]
      by_cases hk : k ∈ t.children
      · rw [if_pos hk, if_pos hk, hgc k hk]
      · rw [if_neg hk, if_neg hk]

theorem Resting.granting_bases (h : Resting K start t) (ha : t.active = some a) (hn : t.nodes.get? a = some n)
    (hrole : role.warmStart? = none) (hg : ∀ k x, t.nodes.get? k = some x → (g k x).basis? = x.basis?) :
    ∀ k x, t.nodes.get? k = some x → (granting t a f n role g k x).basis? = x.basis? := by
  obtain ⟨n', hn', hactive, -⟩ := h.actor ha
  cases hn.symm.trans hn'
  intro k x hx
  by_cases hka : k = a
  · subst hka
    cases hn.symm.trans hx
    rw [granting_self, Node.basis?, Node.basis?, hactive]
    change role.warmStart?.bind _ = _
    rw [hrole]
    rfl
  · by_cases hk : k ∈ t.children
    · rw [h.granting_child ha hk]
      rfl
    · rw [granting_rest hka hk]
      exact hg k x hx

/-- A node that ends without a snapshot has its nearest one where the relaxation's is. -/
theorem Resting.granting_nearest (h : Resting K start t) (ha : t.active = some a) (hn : t.nodes.get? a = some n)
    (hrole : role.isSnapshot = false) (hg : Grants t a f g) (hf : t.lpFork = some f) :
    Nearest (t.nodes.adjust (granting t a f n role g)) Role.isSnapshot (some a) (some f) := by
  obtain ⟨n', hn', hactive, -, -, hparent, -⟩ := h.actor ha
  cases hn.symm.trans hn'
  refine .above (Arena.get?_adjust_of hn) (by rw [granting_self]; exact hrole) ?_
  rw [granting_self]
  change Nearest _ _ n.parent _
  rw [hparent, ← hf]
  refine h.lpFork.adjust fun k x hx => ?_
  by_cases hka : k = a
  · subst hka
    cases hn.symm.trans hx
    rw [granting_self, hactive]
    exact ⟨rfl, hrole⟩
  · have hs : Steady x (granting t a f n role g k x) := h.granting_steady ha hg k x hx hka
    exact ⟨hs.parent, hs.kin.isSnapshot⟩

theorem Resting.childless_children (h : Resting K start t) (ha : t.active = some a) {k p : Handle}
    (hm : t.nodes.get? k = some m) (hp : m.parent = some p) : p ∉ t.children := by
  intro hpc
  obtain ⟨o, ho, -, -, hname⟩ := h.fresh_child ha hpc
  exact h.family.childless ho (.inl (by rw [hname]; rfl)) k m hm hp

theorem Resting.granting_chain (h : Resting K start t) (ha : t.active = some a) (hg : Grants t a f g)
    {x p : Option Handle} (hx : ∀ q, x = some q → q ≠ a ∧ q ∉ t.children) (hp : Nearest t.nodes Role.isSnapshot x p) :
    Nearest (t.nodes.adjust (granting t a f n role g)) Role.isSnapshot x p := by
  refine hp.transfer (P := fun k => k ≠ a ∧ k ∉ t.children) hx ?_
  rintro k m hm ⟨hka, hkc⟩
  have hsteady : Steady m (granting t a f n role g k m) := h.granting_steady ha hg k m hm hka
  refine ⟨_, Arena.get?_adjust_of hm, hsteady.parent, hsteady.kin.isSnapshot, fun q hq => ?_⟩
  refine ⟨?_, h.childless_children ha hm hq⟩
  rintro rfl
  exact hkc ((h.mem_children ha k).2 ⟨m, hm, hq⟩)

theorem Resting.granted (h : Resting K start t) (ha : t.active = some a) (hn : t.nodes.get? a = some n)
    (hshare : n.share = none) (hne : t.children ≠ []) (hg : Grants t a f g)
    (hnear : Nearest (t.nodes.adjust (granting t a f n role g)) Role.isSnapshot (some a) (some f))
    (hbare : a ≠ f → role.warmStart? = none)
    (hw : ∀ m w, t.nodes.get? f = some m → (granting t a f n role g f m).role.warmStart? = some w →
      w.shares = t.nodes.count (·.share = some f) + t.children.length ∧ w.isAlive = true) :
    Sharing (t.nodes.adjust (granting t a f n role g)) none := by
  obtain ⟨n', hn', hactive, -⟩ := h.actor ha
  cases hn.symm.trans hn'
  refine h.sharing.grant (f := f) h.children_nodup hne (fun k hk => ?_) ?_ ?_ ?_ hw
  · obtain ⟨m, hm, -, hs, -⟩ := h.fresh_child ha hk
    exact ⟨m, hm, hs⟩
  · intro k m hm
    by_cases hk : k ∈ t.children
    · rw [if_pos hk, h.granting_child ha hk]
    · rw [if_neg hk]
      by_cases hka : k = a
      · subst hka
        cases hn.symm.trans hm
        rw [granting_self]
      · rw [granting_rest hka hk]
        exact (hg k m hm hka hk).2.1
  · intro k m p hm hp
    by_cases hk : k ∈ t.children
    · obtain ⟨o, ho, hparent, -, hname⟩ := h.fresh_child ha hk
      cases hm.symm.trans ho
      rw [h.granting_child ha hk] at hp ⊢
      cases hp
      exact ⟨.inl (by rw [hname]; rfl), hparent.symm ▸ hnear⟩
    · by_cases hka : k = a
      · subst hka
        cases hn.symm.trans hm
        rw [granting_self] at hp
        exact absurd (hshare.symm.trans hp) (by simp)
      · rw [granting_rest hka hk] at hp ⊢
        obtain ⟨hsteady, hs, -⟩ := hg k m hm hka hk
        rw [hs] at hp
        obtain ⟨hr, hold⟩ := h.sharing.holder k m p hm hp
        rw [hsteady.name, hsteady.parent]
        refine ⟨hr, h.granting_chain ha hg (fun q hq => ⟨?_, h.childless_children ha hm hq⟩) hold⟩
        rintro rfl
        exact hk ((h.mem_children ha k).2 ⟨m, hm, hq⟩)
  · intro k m hm hkf
    by_cases hk : k ∈ t.children
    · rw [h.granting_child ha hk]
    · by_cases hka : k = a
      · subst hka
        cases hn.symm.trans hm
        rw [granting_self, hactive]
        exact hbare hkf
      · rw [granting_rest hka hk]
        exact (hg k m hm hka hk).2.2 hkf

theorem Resting.keeper_apart (h : Resting K start t) (ha : t.active = some a) (hm : t.nodes.get? f = some m)
    (hw : m.role.warmStart? = some w) : f ≠ a ∧ f ∉ t.children := by
  constructor
  · rintro rfl
    obtain ⟨n, hn, hactive, -⟩ := h.actor ha
    cases hn.symm.trans hm
    rw [hactive] at hw
    cases hw
  · intro hfc
    obtain ⟨o, ho, -, -, hname⟩ := h.fresh_child ha hfc
    cases hm.symm.trans ho
    rw [Role.warmStart?_of_waiting (by rw [hname]; rfl)] at hw
    cases hw

theorem concludes_forwarded (hK : Custody K K') (h : Resting K start t) (ha : t.active = some a)
    (hn : t.nodes.get? a = some n) (hshare : n.share = none) (hne : t.children ≠ []) {m' : Node σ}
    (hf : t.lpFork = some f) (hm : t.nodes.get? f = some m) (hw : m.role.warmStart? = some w)
    (halive : w.isAlive = true) (hsteady : Steady m m') (hkeep : m'.share = m.share)
    (hwarm : m'.role.warmStart? = some { w with shares := w.shares + t.children.length }) :
    Concludes K t { t with
      nodes := (t.nodes.set f m').adjust fun k x => if k ∈ t.children then { x with share := some f } else x }
      a n (.junction t.children.length) := by
  obtain ⟨hfa, hfc⟩ := h.keeper_apart ha hm hw
  rw [Arena.set_eq_adjust]
  generalize hgdef : (fun k x => if k = f then m' else x : Handle → Node σ → Node σ) = g
  have hgf : ∀ x, g f x = m' := fun x => hgdef ▸ if_pos rfl
  have hgr : ∀ k x, k ≠ f → g k x = x := fun k x hk => hgdef ▸ if_neg hk
  have hg : Grants t a f g := by
    intro k x hx _ _
    by_cases hkf : k = f
    · subst hkf
      cases hm.symm.trans hx
      rw [hgf]
      exact ⟨hsteady, hkeep, fun hk => absurd rfl hk⟩
    · rw [hgr k x hkf]
      exact ⟨.refl x, rfl, fun _ => rfl⟩
  obtain ⟨hself, hnodes⟩ := h.granting_eq (f := f) ha (.junction t.children.length)
    (fun x => hgr a x hfa.symm) (fun k hk x => hgr k x fun hkf => hfc (hkf ▸ hk)) hn
  have hbases : ∀ k x, t.nodes.get? k = some x →
      (granting t a f n (.junction t.children.length) g k x).basis? = x.basis? := by
    refine h.granting_bases ha hn rfl fun k x hx => ?_
    by_cases hkf : k = f
    · subst hkf
      cases hm.symm.trans hx
      rw [hgf, Node.basis?, Node.basis?, hwarm, hw]
      rfl
    · rw [hgr k x hkf]
  have hnear : Nearest (t.nodes.adjust (granting t a f n (.junction t.children.length) g)) Role.isSnapshot (some a)
      (some f) :=
    h.granting_nearest ha hn rfl hg hf
  refine ⟨hself, ⟨_, hnodes, granting_self n, h.granting_steady ha hg, .inr rfl, rfl, rfl, rfl, rfl, rfl, rfl⟩,
    ?_, ?_, ?_, .nothing rfl rfl rfl rfl rfl, rfl, rfl⟩
  · rw [hnodes]
    refine h.granted ha hn hshare hne hg hnear (fun _ => rfl) fun o v ho hv => ?_
    cases hm.symm.trans ho
    rw [granting_rest hfa hfc, hgf, hwarm] at hv
    cases hv
    refine ⟨?_, halive⟩
    have hcount := h.sharing.counted f m w hm hw
    simp only [rest, reduceCtorEq, decide_false, Bool.toNat_false, Nat.add_zero] at hcount
    rw [hcount]
  · rw [hnodes]
    exact h.books.adjust hbases
  · rw [hnodes]
    exact hK.perm _ _ _ (bases_adjust hbases).symm h.custody

theorem forward_alive (hK : Custody K K') (h : Resting K start t) (ha : t.active = some a)
    (hn : t.nodes.get? a = some n) (hshare : n.share = none) (hne : t.children ≠ []) (hf : t.lpFork = some f)
    (hm : t.nodes.get? f = some m) (hw : m.role.warmStart? = some w) (halive : w.isAlive = true) :
    Ends (handShares f) { t with
        nodes := t.nodes.set f { m with
          role := m.role.withWarmStart { w with shares := w.shares + t.children.length } } }
      (fun _ t' => Concludes K t t' a n (.junction t.children.length)) fun _ _ => False := by
  have hsteady := Steady.withWarmStart m { w with shares := w.shares + t.children.length }
  have hwarm : ({ m with role := m.role.withWarmStart { w with shares := w.shares + t.children.length } } :
      Node σ).role.warmStart? = some { w with shares := w.shares + t.children.length } := by
    rw [Role.warmStart?_withWarmStart, hw]
    rfl
  have hmatch := Matched.set Steady.refl hm hsteady
  refine (handShares_spec (t := { t with nodes := t.nodes.set f { m with
    role := m.role.withWarmStart { w with shares := w.shares + t.children.length } } }) h.children_nodup
    fun k hk => ?_).mono ?_ fun _ _ h => h
  · obtain ⟨o, ho, -⟩ := h.fresh_child ha hk
    obtain ⟨o', ho', -⟩ := hmatch.forth k o ho
    exact ⟨o', ho'⟩
  · rintro _ _ rfl
    exact concludes_forwarded hK h ha hn hshare hne hf hm hw halive hsteady rfl hwarm

end Granting

/-- The children of a Junction share in the warm start of the nearest Fork or Subroot. -/
theorem forwardShares_spec (hK : Custody K K') (h : Resting K start t) (ha : t.active = some a)
    (hn : t.nodes.get? a = some n) (hshare : n.share = none) (hne : t.children ≠ []) :
    Ends forwardShares t (fun _ t' => Concludes K t t' a n (.junction t.children.length))
      fun _ _ => False := by
  have hrole : Processed t.children (.junction t.children.length : Role σ) := .inr rfl
  unfold forwardShares
  simp only [ends_bind, ends_get]
  cases hf : t.lpFork with
  | none => exact concludes_plain hK h ha hn hrole rfl t.journal ⟨rfl, rfl, rfl, rfl⟩ hshare
  | some f =>
      have hnear := h.lpFork
      rw [hf] at hnear
      obtain ⟨m, hm, hsnap⟩ := hnear.holds
      obtain ⟨w, hw⟩ := Role.isSnapshot_iff.1 hsnap
      obtain ⟨n', hn', hactive, -, -, hparent, -⟩ := h.actor ha
      cases hn.symm.trans hn'
      simp only [ends_bind, ends_read, node_eq_ok.2 hm, hw]
      by_cases halive : w.isAlive = true
      · rw [if_pos halive, ends_bind]
        unfold onWarmStart WarmStart.capture
        simp only [ends_bind, ends_read, node_eq_ok.2 hm, hw, if_pos halive, ends_setNode, ends_pure]
        exact forward_alive hK h ha hn hshare hne hf hm hw halive
      · rw [if_neg halive]
        simp only [ends_bind, ends_record, ends_count]
        exact concludes_plain hK h ha hn hrole rfl _ ⟨rfl, rfl, rfl, rfl⟩ hshare

end Tree

end BranchBound
