import BranchBound.Proofs.Sharing
import BranchBound.Tree.Freeing

namespace BranchBound

variable {σ : Type} [Solver σ] {cmp : NodeOrder}

structure SameButOpen (n m : Node σ) : Prop where
  body : m = { n with role := m.role }
  name : m.role.name = n.role.name
  staged : m.role.staged? = n.role.staged?
  warmStart : m.role.warmStart? = n.role.warmStart?

namespace SameButOpen

variable {n m : Node σ}

theorem refl (n : Node σ) : SameButOpen n n := ⟨rfl, rfl, rfl, rfl⟩

theorem parent (h : SameButOpen n m) : m.parent = n.parent := by rw [h.body]

theorem depth (h : SameButOpen n m) : m.depth = n.depth := by rw [h.body]

theorem onPath (h : SameButOpen n m) : m.onPath = n.onPath := by rw [h.body]

theorem share (h : SameButOpen n m) : m.share = n.share := by rw [h.body]

theorem log (h : SameButOpen n m) : m.log = n.log := by rw [h.body]

theorem key (h : SameButOpen n m) : m.key = n.key := by rw [h.body]; rfl

theorem basis (h : SameButOpen n m) : m.basis? = n.basis? := by rw [Node.basis?, h.warmStart]; rfl

theorem sameSharing (h : SameButOpen n m) : SameSharing n m :=
  ⟨h.parent, h.share, h.warmStart, fun _ hr => by rwa [h.name]⟩

end SameButOpen

structure CountedOff (k : Nat) (n m : Node σ) : Prop extends SameButOpen n m where
  before : n.role.openChildren? = some (k + 1)
  after : m.role.openChildren? = some k
  layer : m.role.layer = n.role.layer

theorem CountedOff.withOpenChildren {n : Node σ} {k : Nat} (hk : n.role.openChildren? = some (k + 1)) :
    CountedOff k n { n with role := n.role.withOpenChildren k } where
  body := rfl
  name := Role.name_withOpenChildren k n.role
  staged := Role.staged?_withOpenChildren k n.role
  warmStart := Role.warmStart?_withOpenChildren k n.role
  before := hk
  after := by
    rw [Role.openChildren?_withOpenChildren, hk]
    rfl
  layer := Role.layer_withOpenChildren k n.role

theorem CountedOff.kin {n m : Node σ} {k : Nat} (h : CountedOff k n m) : Kin n m :=
  ⟨⟨h.parent, h.depth, h.layer⟩, congrArg _ h.log⟩

theorem CountedOff.not_waiting {n m : Node σ} {k : Nat} (h : CountedOff k n m) :
    n.role.name.isWaiting = false :=
  Role.not_waiting_of_open (by rw [h.before]; rfl)

section Accounts

variable {a : Arena (Node σ)} {p : Handle} {n m : Node σ} {loose : List Handle} {k : Nat}

theorem Family.childless (h : Family a loose none) (hn : a.get? p = some n)
    (hr : n.role.name.isWaiting = true ∨ n.role.isExhausted = true) :
    ∀ k m, a.get? k = some m → m.parent ≠ some p := by
  intro k m hm hp
  rcases h.parent k m p n hm hp hn with hact | hopen
  · rcases hr with hr | hr
    · rw [hact] at hr
      cases hr
    · exact Role.not_active_of_exhausted hr hact
  · rcases hr with hr | hr
    · rw [Role.not_waiting_of_open hopen] at hr
      cases hr
    · obtain ⟨c, hc⟩ := Option.isSome_iff_exists.1 hopen
      have hpos : 0 < a.count (·.parent = some p) := Arena.count_pos.2 ⟨k, m, hm, decide_eq_true hp⟩
      have hcount := h.counted p n c hn hc
      have hzero := Role.eq_zero_of_exhausted hr hc
      omega

theorem Sharing.basis_gone (h : Sharing a none) (hn : a.get? p = some n)
    (hc : ∀ k m, a.get? k = some m → m.parent ≠ some p) : n.basis? = none := by
  unfold Node.basis?
  cases hw : n.role.warmStart? with
  | none => rfl
  | some w =>
      have hzero : a.count (·.share = some p) = 0 := by
        refine Arena.count_eq_zero fun k m hm => ?_
        by_contra hs
        have hp : m.share = some p := by simpa using hs
        obtain ⟨-, hnear⟩ := h.holder k m p hm hp
        obtain ⟨j, o, ho, hpar⟩ := hnear.child_of_ne (hc k m hm)
        exact hc j o ho hpar
      have hs := h.counted p n w hn hw
      rw [hzero] at hs
      have ha := h.alive p n w hn hw
      rw [hs] at ha
      simpa [WarmStart.isAlive] using ha

theorem Family.countOff {loose' : List Handle} (h : Family a loose (some p)) (hn : a.get? p = some n)
    (hm : CountedOff k n m) (hsub : ∀ g ∈ loose, g ∈ loose')
    (hspent : k = 0 → n.onPath = true ∨ p ∈ loose') : Family (a.set p m) loose' none := by
  have hcount : ∀ g, (a.set p m).count (·.parent = some g) = a.count (·.parent = some g) :=
    fun g => Arena.count_set_congr hn (by rw [hm.parent])
  have hF := Arena.forall_set hn hm.toSameButOpen SameButOpen.refl
  rw [Arena.set_eq_adjust] at hcount ⊢
  constructor
  case counted =>
    intro j x c hx hc
    obtain ⟨o, ho, rfl⟩ := Arena.get?_adjust_some hx
    rw [hcount]
    by_cases hj : j = p
    · subst hj
      rw [if_pos rfl, hm.after] at hc
      cases hc
      have hfull := h.counted j n (k + 1) hn hm.before
      simp at hfull ⊢
      exact hfull
    · rw [if_neg hj] at hc
      rw [h.counted j o c ho hc]
      simp [Ne.symm hj]
  case parent =>
    intro j x g y hx hp hy
    obtain ⟨o, ho, rfl⟩ := Arena.get?_adjust_some hx
    obtain ⟨o', ho', rfl⟩ := Arena.get?_adjust_some hy
    rw [(hF j o ho).parent] at hp
    by_cases hg : g = p
    · rw [if_pos hg, hm.after]
      exact .inr rfl
    · rw [if_neg hg]
      exact h.parent j o g o' ho hp ho'
  case fresh =>
    intro j x g y hx hp hy hact
    obtain ⟨o, ho, rfl⟩ := Arena.get?_adjust_some hx
    obtain ⟨o', ho', rfl⟩ := Arena.get?_adjust_some hy
    rw [(hF j o ho).parent] at hp
    rw [(hF g o' ho').name] at hact
    rw [(hF j o ho).name, (hF j o ho).share]
    exact h.fresh j o g o' ho hp ho' hact
  case spent =>
    intro j x hx hspare
    obtain ⟨o, ho, rfl⟩ := Arena.get?_adjust_some hx
    rw [(hF j o ho).onPath]
    by_cases hj : j = p
    · subst hj
      cases hn.symm.trans ho
      rw [if_pos rfl] at hspare
      exact hspent (Role.eq_zero_of_exhausted hspare hm.after)
    · rw [if_neg hj] at hspare
      exact (h.spent j o ho hspare).imp_right (hsub j)
  case entered =>
    intro j x hx hon hw
    obtain ⟨o, ho, rfl⟩ := Arena.get?_adjust_some hx
    rw [(hF j o ho).onPath] at hon
    rw [(hF j o ho).name] at hw
    exact hsub j (h.entered j o ho hon hw)

end Accounts

/-- Of the nodes that are still there, nobody changed place; waiting nodes did not change at all and
are all there, those in `gone` aside. -/
structure Spared (gone : List Handle) (a b : Arena (Node σ)) : Prop where
  carried : Carried Kin a b
  waiting : ∀ h n, a.get? h = some n → n.role.name.isWaiting = true → h ∉ gone → b.get? h = some n

namespace Spared

variable {a b c : Arena (Node σ)} {gone gone' : List Handle}

theorem trans (h : Spared gone a b) (h' : Spared gone' b c) : Spared (gone ++ gone') a c where
  carried := h.carried.kin_trans h'.carried
  waiting k n hn hw hk := by
    rw [List.mem_append, not_or] at hk
    exact h'.waiting k n (h.waiting k n hn hw hk.1) hw hk.2

theorem set {p : Handle} {n m : Node σ} (hn : a.get? p = some n) (hkin : Kin n m)
    (hw : n.role.name.isWaiting = false) : Spared [] a (a.set p m) where
  carried := .set Kin.refl hn hkin
  waiting k o ho hr _ := by
    rw [Arena.get?_set_ne, ho]
    rintro rfl
    cases hn.symm.trans ho
    rw [hw] at hr
    cases hr

theorem erase {id : Handle} {n : Node σ} (he : a.erase id = some (n, b)) : Spared [id] a b where
  carried := .erase Kin.refl he
  waiting k o ho _ hk := by
    rw [Arena.get?_of_erase he, if_neg (fun h => hk (List.mem_singleton.2 h)), ho]

end Spared

namespace Tree

variable {K : Charge σ} {t : Tree σ cmp}
  {actor anchor : Option Handle} {loose : List Handle} {id p : Handle} {n m : Node σ}

/-- The node can be freed: it is off the path, explored or not, with nobody below it. -/
structure Removable (t : Tree σ cmp) (id : Handle) (n : Node σ) : Prop where
  live : t.nodes.get? id = some n
  offPath : n.onPath = false
  done : n.role.name.isWaiting = true ∨ n.role.isExhausted = true
  unqueued : id ∉ t.frontier.ids

theorem Removable.not_active (h : Removable t id n) : n.role.name ≠ .active := by
  rcases h.done with hr | hr
  · intro hact
    rw [hact] at hr
    cases hr
  · exact Role.not_active_of_exhausted hr

theorem takeNode_spec (hK : Redemption K) (h : Sound K ⟨actor, anchor, id :: loose, none, none⟩ t)
    (hr : Removable t id n) :
    Ends (takeNode id) t
      (fun m t' => m = n ∧ n.basis? = none ∧ ∃ nodes root stats, Spared [id] t.nodes nodes ∧
        nodes.get? id = none ∧
        (∀ p, n.parent = some p → ∃ m, nodes.get? p = some m ∧ t.nodes.get? p = some m) ∧
        t' = t.settle nodes root t.lp.solver stats t.journal ∧
        Sound K ⟨actor, anchor, loose, n.share, n.parent⟩ t')
      fun _ _ => False := by
  have hchild := h.family.childless hr.live hr.done
  have hgone := h.sharing.basis_gone hr.live hchild
  obtain ⟨⟨n', b⟩, he⟩ : ∃ r, t.nodes.erase id = some r := by
    unfold Arena.erase
    rw [hr.live]
    exact ⟨_, rfl⟩
  obtain rfl : n = n' := Option.some.inj (hr.live.symm.trans (Arena.erase_eq_some he).1)
  unfold takeNode
  simp only [ends_bind, ends_get, he, ends_set, ends_count, ends_pure]
  refine ⟨trivial, hgone, b, _, _, .erase he, ?_, ?_, rfl, ?_⟩
  · rw [Arena.get?_of_erase he, if_pos rfl]
  · intro p hp
    obtain ⟨m, hm, -⟩ := h.forest.hung id n p hr.live hp
    refine ⟨m, ?_, hm⟩
    rw [Arena.get?_of_erase he, if_neg]
    · exact hm
    · rintro rfl
      exact hchild p n hr.live hp
  exact {
    wellFormed := h.wellFormed.erase he
    forest := h.forest.erase he hchild
    walk := h.walk.erase he hr.offPath
    family := h.family.erase he
    places := h.places.erase he
    queue := h.queue.erase he hr.unqueued
    sharing := h.sharing.erase he h.forest hchild
    logs := h.logs.erase he
    books := h.books.erase he h.wellFormed hgone
    acting := h.acting.erase he hr.not_active
    custody := hK.perm _ _ _ (bases_erase he hgone) h.custody }

theorem Sound.countNone (h : Sound K ⟨actor, anchor, loose, none, some p⟩ t) (hn : t.nodes.get? p = some n)
    (hk : n.role.openChildren? = none) : Sound K ⟨actor, anchor, loose, none, none⟩ t := by
  refine { h with family := { h.family with counted := ?_ } }
  intro j o c ho hc
  have hcount := h.family.counted j o c ho hc
  have hne : j ≠ p := by
    rintro rfl
    cases hn.symm.trans ho
    rw [hk] at hc
    cases hc
  simpa [Ne.symm hne] using hcount

theorem Sound.countOff (hK : Redemption K) (h : Sound K ⟨actor, anchor, loose, none, some p⟩ t) {k : Nat}
    (hn : t.nodes.get? p = some n) (hm : CountedOff k n m) :
    Sound K ⟨actor, anchor, if k = 0 && !n.onPath then p :: loose else loose, none, none⟩
      { t with nodes := t.nodes.set p m } := by
  generalize hlist : (if k = 0 && !n.onPath then p :: loose else loose) = loose'
  have hsub : ∀ g ∈ loose, g ∈ loose' := by
    intro g hg
    rw [← hlist]
    split
    · exact List.mem_cons_of_mem p hg
    · exact hg
  have hspent : k = 0 → n.onPath = true ∨ p ∈ loose' := by
    rintro rfl
    cases hon : n.onPath with
    | true => exact .inl rfl
    | false =>
        rw [← hlist, hon]
        exact .inr List.mem_cons_self
  have hplaces : Places t.nodes loose' t.tip anchor t.staged := by
    refine h.places.loosen hsub fun j hj hnot w i hi => ?_
    have hjp : j = p := by
      rw [← hlist] at hj
      split at hj
      · exact (List.mem_cons.1 hj).resolve_right hnot
      · exact absurd hj hnot
    subst hjp
    obtain ⟨-, o, ho, hs, -⟩ := h.places.listed w i j hi
    cases hn.symm.trans ho
    rw [Role.not_staged_of_open (by rw [hm.before]; rfl)] at hs
    cases hs
  have hfamily := h.family.countOff hn hm hsub hspent
  have hwell := h.wellFormed.set p m
  have hF := Arena.forall_set hn hm.toSameButOpen SameButOpen.refl
  rw [Arena.set_eq_adjust] at hfamily hwell ⊢
  have hbases := bases_adjust fun k o ho => (hF k o ho).basis
  exact {
    wellFormed := hwell
    forest := h.forest.adjust fun k o ho => ⟨(hF k o ho).parent, (hF k o ho).depth⟩
    walk := h.walk.adjust fun k o ho => ⟨(hF k o ho).parent, (hF k o ho).depth, (hF k o ho).onPath⟩
    family := hfamily
    places := hplaces.adjust fun k o ho => ⟨(hF k o ho).parent, (hF k o ho).staged⟩
    queue := h.queue.adjust fun k o ho hr => ⟨(hF k o ho).key, (hF k o ho).name.trans hr⟩
    sharing := h.sharing.adjust fun k o ho => (hF k o ho).sameSharing
    logs := h.logs.adjust fun k o ho => ⟨congrArg _ (hF k o ho).log, by
      rw [(hF k o ho).name, (hF k o ho).log]
      exact h.logs.unsealed k o ho⟩
    books := h.books.adjust fun k o ho => (hF k o ho).basis
    acting := h.acting.adjust fun k o ho => by rw [(hF k o ho).name]
    custody := hK.perm _ _ _ hbases.symm h.custody }

theorem Removable.of_countedOff (hm : CountedOff 0 n m) (hq : Queue t.nodes t.frontier)
    (hn : t.nodes.get? p = some n) (hon : n.onPath = false) : Removable { t with nodes := t.nodes.set p m } p m where
  live := by
    change (t.nodes.set p m).get? p = some m
    exact Arena.get?_set_self hn _
  offPath := hm.onPath.trans hon
  done := .inr (Role.isExhausted_of_open hm.after)
  unqueued := by
    intro hmem
    obtain ⟨e, he, rfl⟩ := List.mem_map.1 hmem
    obtain ⟨o, ho, hleaf, -⟩ := hq.entry e he
    cases hn.symm.trans ho
    have hw := hm.not_waiting
    rw [hleaf] at hw
    cases hw

theorem countOff_spec (hK : Redemption K) (h : Sound K ⟨actor, anchor, loose, none, some p⟩ t)
    (hm : t.nodes.get? p = some m)
    (hrole : m.role.name = .active ∨ m.role.openChildren?.isSome = true) :
    Ends (countOff p id) t
      (fun gone t' => ∃ nodes, Spared [] t.nodes nodes ∧ t' = { t with nodes := nodes } ∧
        Sound K ⟨actor, anchor, if gone then p :: loose else loose, none, none⟩ t' ∧
        (gone = true → ∃ m', Removable t' p m' ∧ m'.role.name.isWaiting = false ∧ m'.depth = m.depth))
      fun _ _ => False := by
  unfold countOff
  simp only [ends_bind, ends_read, node_eq_ok.2 hm]
  cases hk : m.role.openChildren? with
  | none =>
      have hact : m.role.name = .active := by
        rw [hk] at hrole
        exact hrole.resolve_right (by simp)
      have hactive : m.role = .active := by
        cases hr : m.role <;> rw [hr] at hact <;> first | rfl | cases hact
      rw [hactive]
      exact ⟨t.nodes, ⟨.refl Kin.refl _, fun k n hn _ _ => hn⟩, rfl, h.countNone hm hk, Bool.noConfusion⟩
  | some c =>
      have hcount := h.family.counted p m c hm hk
      simp only [decide_true, Bool.toNat_true] at hcount
      obtain ⟨k, rfl⟩ : ∃ k, c = k + 1 := ⟨_, hcount⟩
      have hoff := CountedOff.withOpenChildren hk
      simp only [ends_bind, ends_setNode, ends_pure]
      refine ⟨_, .set hm hoff.kin hoff.not_waiting, rfl, h.countOff hK hm hoff, fun hgone => ?_⟩
      rw [Bool.and_eq_true, decide_eq_true_eq, Bool.not_eq_true'] at hgone
      obtain ⟨rfl, hon⟩ := hgone
      exact ⟨_, Removable.of_countedOff hoff h.queue hm hon, by rw [hoff.name, hoff.not_waiting], hoff.depth⟩

theorem checkBasisGone_spec {Q : Unit → Tree σ cmp → Prop} {E : TreeError → Tree σ cmp → Prop}
    (hb : n.basis? = none) (h : Q () t) : Ends (checkBasisGone id n.role) t Q E := by
  unfold checkBasisGone
  rw [show n.role.warmStart?.bind WarmStart.basis = none from hb]
  exact h

theorem freeOne_end (hK : Redemption K) {nodes : Arena (Node σ)} {root : Option Handle} {solver : σ}
    {stats : Stats} {journal : Array Event}
    (h : Sound K ⟨actor, anchor, loose, none, n.parent⟩ (t.settle nodes root solver stats journal))
    (hb : n.basis? = none) (hspared : Spared [id] t.nodes nodes)
    (hparent : ∀ p, n.parent = some p → ∃ m, nodes.get? p = some m ∧ n.depth = m.depth + 1 ∧
      (m.role.name = .active ∨ m.role.openChildren?.isSome = true)) :
    Ends (do
        checkBasisGone id n.role
        record (.freed id)
        match n.parent with
        | some parent => return if ← countOff parent id then some parent else none
        | none => return none) (t.settle nodes root solver stats journal)
      (fun next t' => ∃ nodes root solver stats journal, Spared [id] t.nodes nodes ∧
        t' = t.settle nodes root solver stats journal ∧
        Sound K ⟨actor, anchor, next.toList ++ loose, none, none⟩ t' ∧
        ∀ p, next = some p → ∃ m, Removable t' p m ∧ m.role.name.isWaiting = false ∧
          n.depth = m.depth + 1)
      fun _ _ => False := by
  simp only [ends_bind]
  refine checkBasisGone_spec hb ?_
  simp only [ends_record]
  cases hp : n.parent with
  | none =>
      rw [hp] at h
      refine ⟨_, _, _, _, _, hspared, rfl, ?_, fun p hp => by cases hp⟩
      exact { h with }
  | some p =>
      rw [hp] at h
      obtain ⟨m, hm, hd, hrole⟩ := hparent p hp
      have hrecorded : Sound K ⟨actor, anchor, loose, none, some p⟩
          (t.settle nodes root solver stats (journal.push (.freed id))) := { h with }
      simp only [ends_bind]
      refine (countOff_spec hK hrecorded hm hrole).mono ?_ fun _ _ h => h
      rintro gone t' ⟨nodes', hspared', rfl, h', hgone⟩
      refine ⟨nodes', _, _, _, _, hspared.trans hspared', rfl, ?_, ?_⟩
      · cases gone <;> exact h'
      · intro q hq
        cases gone with
        | false => cases hq
        | true =>
            cases hq
            obtain ⟨m', hr, hw, hd'⟩ := hgone rfl
            exact ⟨m', hr, hw, by rw [hd, hd']⟩

/-- Freeing one node gives its share back and counts it off. The parent that has to follow is
named. -/
theorem freeOne_spec (hK : Redemption K) (h : Sound K ⟨actor, anchor, id :: loose, none, none⟩ t)
    (hr : Removable t id n) :
    Ends (freeOne id) t
      (fun next t' => ∃ nodes root solver stats journal, Spared [id] t.nodes nodes ∧
        t' = t.settle nodes root solver stats journal ∧
        Sound K ⟨actor, anchor, next.toList ++ loose, none, none⟩ t' ∧
        ∀ p, next = some p → ∃ m, Removable t' p m ∧ m.role.name.isWaiting = false ∧
          n.depth = m.depth + 1)
      fun _ _ => False := by
  have hparent : ∀ p, n.parent = some p → ∃ m, t.nodes.get? p = some m ∧ n.depth = m.depth + 1 ∧
      (m.role.name = .active ∨ m.role.openChildren?.isSome = true) := by
    intro p hp
    obtain ⟨m, hm, hd⟩ := h.forest.hung id n p hr.live hp
    exact ⟨m, hm, hd, h.family.parent id n p m hr.live hp hm⟩
  unfold freeOne
  rw [ends_bind]
  refine (takeNode_spec hK h hr).mono ?_ fun _ _ h => h
  rintro n t₁ ⟨rfl, hb, nodes, root, stats, hspared, -, hkept, rfl, h₁⟩
  cases hs : n.share with
  | none =>
      rw [hs] at h₁
      refine freeOne_end (t := t) hK h₁ hb hspared fun p hp => ?_
      obtain ⟨m, hm, hm'⟩ := hkept p hp
      obtain ⟨m', hm'', hrest⟩ := hparent p hp
      cases hm'.symm.trans hm''
      exact ⟨m, hm, hrest⟩
  | some f =>
      rw [hs] at h₁
      rw [ends_bind]
      refine (releaseShare_spec hK h₁ rfl).mono ?_ fun _ _ h => h
      rintro _ t₂ ⟨h₂, o, w, solver, stats', journal, ho, hsnap, rfl⟩
      have hidle := Role.not_waiting_of_isSnapshot hsnap
      have hstep := Matched.set Steady.refl ho (.withWarmStart o w)
      refine freeOne_end (t := t) hK h₂ hb (hspared.trans (.set ho (Steady.withWarmStart o w).kin hidle))
        fun p hp => ?_
      obtain ⟨m, hm, hm'⟩ := hkept p hp
      obtain ⟨m'', hm'', hd, hrole⟩ := hparent p hp
      cases hm'.symm.trans hm''
      -- Giving the share back leaves the parent's role and children as they are.
      obtain ⟨m', hm₂, hsteady⟩ := hstep.forth p m hm
      exact ⟨m', hm₂, by rw [hd, hsteady.depth], by rw [hsteady.name, hsteady.openChildren]; exact hrole⟩

/-- Freeing upwards ends, and takes away nothing but the node and its ancestors without children. -/
theorem freeUpwards_spec (hK : Redemption K) {depth : Nat}
    (h : Sound K ⟨actor, anchor, id :: loose, none, none⟩ t) (hr : Removable t id n)
    (hd : n.depth = depth) :
    Ends (freeUpwards depth id) t
      (fun _ t' => ∃ nodes root solver stats journal, Spared [id] t.nodes nodes ∧
        t' = t.settle nodes root solver stats journal ∧
        Sound K ⟨actor, anchor, loose, none, none⟩ t')
      fun _ _ => False := by
  induction depth generalizing id n t with
  | zero =>
      unfold freeUpwards
      rw [ends_discard]
      refine (freeOne_spec hK h hr).mono ?_ fun _ _ h => h
      rintro next t' ⟨nodes, root, solver, stats, journal, hspared, rfl, h', hnext⟩
      cases next with
      | none => exact ⟨nodes, root, solver, stats, journal, hspared, rfl, h'⟩
      | some p =>
          obtain ⟨m, -, -, hd'⟩ := hnext p rfl
          omega
  | succ depth ih =>
      unfold freeUpwards
      rw [ends_bind]
      refine (freeOne_spec hK h hr).mono ?_ fun _ _ h => h
      rintro next t' ⟨nodes, root, solver, stats, journal, hspared, rfl, h', hnext⟩
      cases next with
      | none => exact ⟨nodes, root, solver, stats, journal, hspared, rfl, h'⟩
      | some p =>
          obtain ⟨m, hr', hidle, hd'⟩ := hnext p rfl
          refine (ih h' hr' (by omega)).mono ?_ fun _ _ h => h
          rintro _ t'' ⟨nodes', root', solver', stats', journal', hspared', rfl, h''⟩
          refine ⟨nodes', root', solver', stats', journal', ⟨hspared.carried.kin_trans hspared'.carried, ?_⟩,
            rfl, h''⟩
          intro k o ho hw hk
          have ho' := hspared.waiting k o ho hw hk
          refine hspared'.waiting k o ho' hw fun hkp => ?_
          -- The parent counted children, so it does not wait.
          obtain rfl := List.mem_singleton.1 hkp
          cases hr'.live.symm.trans ho'
          rw [hidle] at hw
          cases hw

end Tree

end BranchBound
