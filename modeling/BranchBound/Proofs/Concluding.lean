import BranchBound.Proofs.Pruning
import BranchBound.Tree.Retirement

namespace BranchBound

variable {σ : Type} [Solver σ] {cmp : NodeOrder}

theorem eq_active_of_name {r : Role σ} (h : r.name = .active) : r = .active := by
  cases r <;> first | rfl | cases h

namespace Tree

variable {K K' : Charge σ} {start : Array Interval}
  {t t' : Tree σ cmp} {a : Handle} {n : Node σ}

theorem Resting.actor (h : Resting K start t) (ha : t.active = some a) :
    ∃ n, t.nodes.get? a = some n ∧ n.role = .active ∧ n.depth + 1 = t.path.length ∧
      n.onPath = true ∧ n.parent = t.above ∧ t.path[n.depth]? = some a := by
  obtain ⟨n, hn, hr⟩ := (h.acting a).1 ha
  have htip := h.active_eq
  rw [ha] at htip
  unfold tip at htip
  cases hlen : t.path.length with
  | zero =>
      rw [hlen] at htip
      cases htip
  | succ i =>
      rw [hlen] at htip
      have hplace : t.path[i]? = some a := htip.symm
      obtain ⟨m, hm, hd, ho, hp⟩ := h.walk.step i a hplace
      cases hn.symm.trans hm
      refine ⟨n, hn, eq_active_of_name hr, by rw [hd], ho, ?_, hd.symm ▸ hplace⟩
      rw [hp, above, hlen]
      rfl

theorem Resting.not_active (h : Resting K start t) (ha : t.active = none) {k : Handle}
    (hn : t.nodes.get? k = some n) : n.role.name ≠ .active := by
  intro hact
  cases ha.symm.trans ((h.acting k).2 ⟨n, hn, hact⟩)

theorem Resting.mem_children (h : Resting K start t) (ha : t.active = some a) (k : Handle) :
    k ∈ t.children ↔ ∃ m, t.nodes.get? k = some m ∧ m.parent = some a := by
  constructor
  · intro hk
    obtain ⟨i, hi⟩ := List.mem_iff_getElem?.1 hk
    obtain ⟨-, m, hm, -, hp⟩ := h.places.listed .children i k hi
    exact ⟨m, hm, hp.trans (h.active_eq ▸ ha)⟩
  · rintro ⟨m, hm, hp⟩
    obtain ⟨n, hn, hr, -⟩ := h.actor ha
    obtain ⟨hname, -⟩ := h.family.fresh k m a n hm hp hn (hr ▸ rfl)
    obtain ⟨i, hi⟩ : ∃ i, m.role = .child i := by
      cases hrole : m.role <;> rw [hrole] at hname <;> first | exact ⟨_, rfl⟩ | cases hname
    exact List.mem_of_getElem? (h.places.placed k m .children i hm (hi ▸ rfl) List.not_mem_nil)

theorem Resting.children_nodup (h : Resting K start t) : t.children.Nodup :=
  h.places.nodup .children

theorem Resting.fresh_child (h : Resting K start t) (ha : t.active = some a) {k : Handle}
    (hk : k ∈ t.children) : ∃ m, t.nodes.get? k = some m ∧ m.parent = some a ∧ m.share = none ∧
      m.role.name = .child := by
  obtain ⟨m, hm, hp⟩ := (h.mem_children ha k).1 hk
  obtain ⟨n, hn, hr, -⟩ := h.actor ha
  obtain ⟨hname, hs⟩ := h.family.fresh k m a n hm hp hn (hr ▸ rfl)
  exact ⟨m, hm, hp, hs, hname⟩

theorem Resting.count_children (h : Resting K start t) (ha : t.active = some a) :
    t.nodes.count (·.parent = some a) = t.children.length := by
  rw [← Arena.countP_mem h.children_nodup fun k hk => (h.fresh_child ha hk).imp fun _ h => h.1]
  refine List.countP_congr fun e he => ?_
  have hm := Arena.mem_toList.1 he
  rw [decide_eq_true_eq, decide_eq_true_eq, h.mem_children ha]
  constructor
  · intro hp
    exact ⟨e.2, hm, hp⟩
  · rintro ⟨m, hm', hp⟩
    cases hm.symm.trans hm'
    exact hp

def Processed (children : List Handle) (r : Role σ) : Prop :=
  (children = [] ∧ r = .deadend) ∨ r.openChildren? = some children.length

theorem Processed.not_waiting {children : List Handle} {r : Role σ} (h : Processed children r) :
    r.name.isWaiting = false ∧ r.name ≠ .active ∧ r.staged? = none := by
  rcases h with ⟨-, rfl⟩ | h
  · exact ⟨rfl, RoleName.noConfusion, rfl⟩
  · have hopen : r.openChildren?.isSome = true := by rw [h]; rfl
    exact ⟨Role.not_waiting_of_open hopen, Role.not_active_of_open hopen, Role.not_staged_of_open hopen⟩

/-- What ends the active node's turn, besides the accounts of shares and bases. -/
structure Retires (t t' : Tree σ cmp) (a : Handle) (n : Node σ) (role : Role σ)
    (F : Handle → Node σ → Node σ) : Prop where
  nodes : t'.nodes = t.nodes.adjust F
  self : F a n = { n with role := role, log := n.log.close }
  others : ∀ k m, t.nodes.get? k = some m → k ≠ a → Steady m (F k m)
  role : Processed t.children role
  path : t'.path = t.path
  root : t'.root = t.root
  frontier : t'.frontier = t.frontier
  children : t'.children = t.children
  siblings : t'.siblings = t.siblings
  domains : t'.domains = t.domains

section Retires

variable {role : Role σ} {F : Handle → Node σ → Node σ}

theorem Retires.fields (h : Retires t t' a n role F) (hn : t.nodes.get? a = some n) :
    ∀ k m, t.nodes.get? k = some m → (F k m).parent = m.parent ∧ (F k m).depth = m.depth ∧
      (F k m).onPath = m.onPath ∧ (F k m).log.changes = m.log.changes := by
  intro k m hm
  by_cases hk : k = a
  · subst hk
    cases hn.symm.trans hm
    rw [h.self]
    exact ⟨rfl, rfl, rfl, rfl⟩
  · have hs := h.others k m hm hk
    exact ⟨hs.parent, hs.depth, hs.onPath, hs.kin.changes⟩

theorem Retires.idle (h : Retires t t' a n role F) (hr : Resting K start t) (ha : t.active = some a)
    (hn : t.nodes.get? a = some n) {k : Handle} {m : Node σ} (hm : t.nodes.get? k = some m) :
    (F k m).role.name ≠ .active := by
  intro hact
  by_cases hk : k = a
  · subst hk
    cases hn.symm.trans hm
    rw [h.self] at hact
    exact h.role.not_waiting.2.1 hact
  · rw [(h.others k m hm hk).name] at hact
    exact hk (Option.some.inj (((hr.acting k).2 ⟨m, hm, hact⟩).symm.trans ha))

theorem Retires.counted (h : Retires t t' a n role F) (hr : Resting K start t) (ha : t.active = some a)
    (hn : t.nodes.get? a = some n) {k : Handle} {m : Node σ} {c : Nat} (hm : t.nodes.get? k = some m)
    (hc : (F k m).role.openChildren? = some c) : c = t.nodes.count (·.parent = some k) := by
  by_cases hk : k = a
  · subst hk
    cases hn.symm.trans hm
    rw [h.self] at hc
    rw [hr.count_children ha]
    rcases h.role with ⟨-, hrole⟩ | hrole
    · rw [hrole] at hc
      cases hc
    · exact Option.some.inj (hc.symm.trans hrole)
  · rw [(h.others k m hm hk).openChildren] at hc
    exact hr.family.counted k m c hm hc

theorem Retires.parent (h : Retires t t' a n role F) (hr : Resting K start t) (ha : t.active = some a)
    (hn : t.nodes.get? a = some n) {k p : Handle} {m o : Node σ} (hm : t.nodes.get? k = some m)
    (hp : m.parent = some p) (ho : t.nodes.get? p = some o) :
    (F p o).role.name = .active ∨ (F p o).role.openChildren?.isSome = true := by
  by_cases hpa : p = a
  · subst hpa
    cases hn.symm.trans ho
    rw [h.self]
    rcases h.role with ⟨hnil, -⟩ | hrole
    · have hk := (hr.mem_children ha k).2 ⟨m, hm, hp⟩
      rw [hnil] at hk
      cases hk
    · right
      change role.openChildren?.isSome = true
      rw [hrole]
      rfl
  · rw [(h.others p o ho hpa).name, (h.others p o ho hpa).openChildren]
    exact hr.family.parent k m p o hm hp ho

theorem Retires.family (h : Retires t t' a n role F) (hr : Resting K start t)
    (ha : t.active = some a) (hn : t.nodes.get? a = some n) : Family t'.nodes [] none := by
  have hF := h.fields hn
  obtain ⟨n', hn', -, -, hon, -⟩ := hr.actor ha
  cases hn.symm.trans hn'
  rw [h.nodes]
  constructor
  case counted =>
    intro k m c hm hc
    obtain ⟨o, ho, rfl⟩ := Arena.get?_adjust_some hm
    rw [Arena.count_adjust_congr fun k m hm => by rw [(hF k m hm).1]]
    exact h.counted hr ha hn ho hc
  case parent =>
    intro k m p m' hm hp hm'
    obtain ⟨o, ho, rfl⟩ := Arena.get?_adjust_some hm
    obtain ⟨o', ho', rfl⟩ := Arena.get?_adjust_some hm'
    exact h.parent hr ha hn ho ((hF k o ho).1.symm.trans hp) ho'
  case fresh =>
    intro k m p m' hm hp hm' hact
    obtain ⟨o', ho', rfl⟩ := Arena.get?_adjust_some hm'
    exact absurd hact (h.idle hr ha hn ho')
  case spent =>
    intro k m hm hx
    obtain ⟨o, ho, rfl⟩ := Arena.get?_adjust_some hm
    rw [(hF k o ho).2.2.1]
    by_cases hk : k = a
    · subst hk
      cases hn.symm.trans ho
      exact .inl hon
    · rw [isExhausted_congr (h.others k o ho hk).name (h.others k o ho hk).openChildren] at hx
      exact hr.family.spent k o ho hx
  case entered =>
    intro k m hm hpath hw
    obtain ⟨o, ho, rfl⟩ := Arena.get?_adjust_some hm
    rw [(hF k o ho).2.2.1] at hpath
    by_cases hk : k = a
    · subst hk
      cases hn.symm.trans ho
      rw [h.self] at hw
      exact absurd hw (by rw [h.role.not_waiting.1]; exact Bool.false_ne_true)
    · rw [(h.others k o ho hk).name] at hw
      exact hr.family.entered k o ho hpath hw

theorem Retires.staged (h : Retires t t' a n role F) (hn : t.nodes.get? a = some n) (hactive : n.role = .active)
    {k : Handle} {m : Node σ} (hm : t.nodes.get? k = some m) : (F k m).role.staged? = m.role.staged? := by
  by_cases hk : k = a
  · subst hk
    cases hn.symm.trans hm
    rw [h.self, hactive]
    exact h.role.not_waiting.2.2
  · exact (h.others k m hm hk).staged

theorem Retires.unsealed (h : Retires t t' a n role F) (hr : Resting K start t) (hn : t.nodes.get? a = some n)
    {k : Handle} {m : Node σ} (hm : t.nodes.get? k = some m)
    (hopen : (F k m).role.name = .child ∨ (F k m).role.name = .active) : (F k m).log.isSealed = false := by
  by_cases hk : k = a
  · subst hk
    cases hn.symm.trans hm
    rw [h.self] at hopen
    obtain ⟨hwaits, hidle, -⟩ := h.role.not_waiting
    rcases hopen with hopen | hopen
    · rw [show role.name = .child from hopen] at hwaits
      cases hwaits
    · exact absurd hopen hidle
  · rw [(h.others k m hm hk).name] at hopen
    rw [(h.others k m hm hk).log]
    exact hr.logs.unsealed k m hm hopen

theorem Retires.sound (h : Retires t t' a n role F) (hr : Resting K start t)
    (ha : t.active = some a) (hn : t.nodes.get? a = some n) (hs : Sharing t'.nodes none)
    (hb : Books t'.nodes t'.stats) (hc : K t'.lp (bases t'.nodes)) :
    Sound K ⟨none, t.above, [], none, none⟩ t' := by
  have hF := h.fields hn
  obtain ⟨n', hn', hactive, -⟩ := hr.actor ha
  cases hn.symm.trans hn'
  constructor
  case wellFormed =>
    rw [h.nodes]
    exact hr.wellFormed.adjust F
  case forest =>
    rw [h.nodes, h.root]
    exact hr.forest.adjust fun k m hm => ⟨(hF k m hm).1, (hF k m hm).2.1⟩
  case walk =>
    rw [h.nodes, h.path]
    exact hr.walk.adjust fun k m hm => ⟨(hF k m hm).1, (hF k m hm).2.1, (hF k m hm).2.2.1⟩
  case family => exact h.family hr ha hn
  case places =>
    have htip : t'.tip = t.tip := by
      unfold tip
      rw [h.path]
    have hlists : t'.staged = t.staged := by
      funext w
      cases w
      · exact h.children
      · exact h.siblings
    rw [h.nodes, htip, hlists]
    exact hr.places.adjust fun k m hm => ⟨(hF k m hm).1, h.staged hn hactive hm⟩
  case queue =>
    rw [h.nodes, h.frontier]
    refine hr.queue.adjust fun k m hm hleaf => ?_
    have hk : k ≠ a := by
      rintro rfl
      cases hn.symm.trans hm
      rw [hactive] at hleaf
      cases hleaf
    exact ⟨(h.others k m hm hk).key, (h.others k m hm hk).name.trans hleaf⟩
  case sharing => exact hs
  case logs =>
    rw [h.nodes, h.domains]
    exact hr.logs.adjust fun k m hm => ⟨(hF k m hm).2.2.2, h.unsealed hr hn hm⟩
  case books => exact hb
  case acting =>
    refine fun k => ⟨fun hk => (nomatch hk), ?_⟩
    rintro ⟨m, hm, hact⟩
    rw [h.nodes] at hm
    obtain ⟨o, ho, rfl⟩ := Arena.get?_adjust_some hm
    exact absurd hact (h.idle hr ha hn ho)
  case custody => exact hc

end Retires

/-- What the role at the end of a turn keeps of the relaxation, and what that does to the marks. -/
inductive Leaves (t t' : Tree σ cmp) (a : Handle) (n : Node σ) (role : Role σ) : Prop
  | nothing : role.layer = none → t'.sizes = t.sizes → t'.lpFork = t.lpFork → t'.subroot = t.subroot →
      t'.correctDepth = t.correctDepth → Leaves t t' a n role
  | snapshot (full : Bool) (above : Extent) : t.focus.isSolved = true →
      t.parentSize n.depth = .ok above → above.columns < t.lp.size.columns ∨ above.rows < t.lp.size.rows →
      role.layer = some (full, ⟨(t.lp.suffix (if full then .zero else above)).1,
        (t.lp.suffix (if full then .zero else above)).2⟩) →
      t'.sizes = t.sizes.set n.depth t.lp.size → t'.lpFork = some a →
      t'.subroot = (if full then some a else t.subroot) → t'.correctDepth = some n.depth →
      Leaves t t' a n role

/-- The active node, once it takes on the role, has ended its turn. -/
structure Concludes (K : Charge σ) (t t' : Tree σ cmp) (a : Handle)
    (n : Node σ) (role : Role σ) : Prop where
  self : t'.nodes.get? a = some n
  retires : ∃ F, Retires t
    { t' with nodes := t'.nodes.set a { n with role := role, log := n.log.close } } a n role F
  sharing : Sharing (t'.nodes.set a { n with role := role, log := n.log.close }) none
  books : Books (t'.nodes.set a { n with role := role, log := n.log.close }) t'.stats
  custody : K t'.lp (bases (t'.nodes.set a { n with role := role, log := n.log.close }))
  leaves : Leaves t t' a n role
  columns : t'.lp.columns = t.lp.columns
  rows : t'.lp.rows = t.lp.rows

theorem concludes_plain (hK : Custody K K') (h : Resting K start t) (ha : t.active = some a)
    (hn : t.nodes.get? a = some n) {role : Role σ} (hrole : Processed t.children role)
    (hbare : role.layer = none) {stats : Stats} (journal : Array Event)
    (hs : stats.created = t.stats.created ∧ stats.freed = t.stats.freed ∧
      stats.captured = t.stats.captured ∧ stats.basesFreed = t.stats.basesFreed)
    (hshare : n.share = none) :
    Concludes K t { t with stats := stats, journal := journal } a n role := by
  have hwarm : role.warmStart? = none := by
    cases hw : role.warmStart? with
    | none => rfl
    | some w =>
        have hsnap := Role.isSnapshot_iff.2 ⟨w, hw⟩
        rw [Role.isSnapshot_eq, hbare] at hsnap
        cases hsnap
  obtain ⟨n', hn', hactive, -⟩ := h.actor ha
  cases hn.symm.trans hn'
  have hbasis : ({ n with role := role, log := n.log.close } : Node σ).basis? = n.basis? := by
    simp only [Node.basis?, hwarm, hactive]
    rfl
  have hsharing : SameSharing n { n with role := role, log := n.log.close } :=
    ⟨rfl, rfl, by rw [hwarm, hactive]; rfl, fun hsome => by rw [hshare] at hsome; cases hsome⟩
  have hF := Arena.forall_set hn hsharing SameSharing.refl
  have hbases := Arena.forall_set (P := fun m m' : Node σ => m'.basis? = m.basis?) hn hbasis
    fun _ => rfl
  refine ⟨hn, ⟨_, Arena.set_eq_adjust t.nodes a _, if_pos rfl, fun k m _ hk => ?_, hrole, rfl, rfl, rfl,
    rfl, rfl, rfl⟩, ?_, ?_, ?_, .nothing hbare rfl rfl rfl rfl, rfl, rfl⟩
  · rw [if_neg hk]
    exact .refl m
  · rw [Arena.set_eq_adjust]
    exact h.sharing.adjust hF
  · rw [Arena.set_eq_adjust]
    have hbooks := h.books.adjust hbases
    exact ⟨by rw [hs.1, hs.2.1]; exact hbooks.nodes, by rw [hs.2.2.1, hs.2.2.2]; exact hbooks.bases⟩
  · rw [Arena.set_eq_adjust]
    exact hK.perm _ _ _ (bases_adjust hbases).symm h.custody

end Tree

end BranchBound
