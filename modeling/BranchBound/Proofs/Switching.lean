import BranchBound.Proofs.Path

namespace BranchBound

variable {σ : Type} [Solver σ] {cmp : NodeOrder} {a b : Arena (Node σ)} {id : Handle} {n m : Node σ}

theorem Walk.nodup {path : List Handle} (h : Walk a path) : path.Nodup := by
  rw [List.nodup_iff_getElem?_ne_getElem?]
  intro i j hij hj heq
  obtain ⟨k, hk⟩ : ∃ k, path[j]? = some k := ⟨_, List.getElem?_eq_getElem hj⟩
  have := h.place_unique (heq.trans hk) hk
  omega

theorem Family.activate (h : Family a [id] none) (hn : a.get? id = some n) (hr : n.role.name.isWaiting = true)
    (ha : Acting a none) (hm : Recast n m) (hm' : m.role = .active) : Family (a.set id m) [] none := by
  have hchildless := h.childless hn (.inl hr)
  have hidle : ∀ k o, a.get? k = some o → o.role.name ≠ .active := by
    intro k o ho hact
    cases (ha k).2 ⟨o, ho, hact⟩
  have hF := Arena.forall_set (P := fun o o' : Node σ => o'.parent = o.parent ∧ o'.onPath = o.onPath ∧
    o'.role.openChildren? = o.role.openChildren?) hn
    ⟨hm.parent, hm.onPath, by rw [hm', Role.openChildren?_of_waiting hr]; rfl⟩ fun _ => ⟨rfl, rfl, rfl⟩
  have hother : ∀ k o, k ≠ id → (if k = id then m else o) = o := fun k o hk => if_neg hk
  rw [Arena.set_eq_adjust]
  constructor
  case counted =>
    intro k o c hk hc
    obtain ⟨o, ho, rfl⟩ := Arena.get?_adjust_some hk
    rw [(hF k o ho).2.2] at hc
    rw [h.counted k o c ho hc, Arena.count_adjust_congr fun k o ho => by rw [(hF k o ho).1]]
  case parent =>
    intro k o g o' hk hg hk'
    obtain ⟨o, ho, rfl⟩ := Arena.get?_adjust_some hk
    obtain ⟨o', ho', rfl⟩ := Arena.get?_adjust_some hk'
    rw [(hF k o ho).1] at hg
    rw [(hF g o' ho').2.2]
    exact .inr ((h.parent k o g o' ho hg ho').resolve_left (hidle g o' ho'))
  case fresh =>
    intro k o g o' hk hg hk' hact
    obtain ⟨o, ho, rfl⟩ := Arena.get?_adjust_some hk
    obtain ⟨o', ho', rfl⟩ := Arena.get?_adjust_some hk'
    rw [(hF k o ho).1] at hg
    by_cases hgid : g = id
    · exact absurd (hgid ▸ hg) (hchildless k o ho)
    · rw [hother g o' hgid] at hact
      exact absurd hact (hidle g o' ho')
  case spent =>
    intro k o hk hx
    obtain ⟨o, ho, rfl⟩ := Arena.get?_adjust_some hk
    by_cases hkid : k = id
    · rw [if_pos hkid, hm'] at hx
      cases hx
    · rw [hother k o hkid] at hx ⊢
      exact (h.spent k o ho hx).imp_right fun hl => absurd (List.mem_singleton.1 hl) hkid
  case entered =>
    intro k o hk hon hw
    obtain ⟨o, ho, rfl⟩ := Arena.get?_adjust_some hk
    by_cases hkid : k = id
    · rw [if_pos hkid, hm'] at hw
      cases hw
    · rw [hother k o hkid] at hon hw
      exact absurd (List.mem_singleton.1 (h.entered k o ho hon hw)) hkid

namespace Tree

variable {K K' : Charge σ} {start : Array Interval} {s : Stage}
  {t t' : Tree σ cmp} {anchor target : Option Handle} {loose : List Handle} {r : Route}

theorem Sound.activate (hK : Custody K K') (h : Sound K ⟨none, anchor, [id], none, none⟩ t)
    (hn : t.nodes.get? id = some n) (hw : n.role.name.isWaiting = true) (hq : id ∉ t.frontier.ids) :
    Sound K ⟨some id, anchor, [], none, none⟩
      { t with nodes := t.nodes.set id { n with role := .active, log := n.log.reopen } } := by
  have hcast : Recast n { n with role := .active, log := n.log.reopen } := rfl
  have hopen : ({ n with role := .active, log := n.log.reopen } : Node σ).log.isSealed = false := rfl
  have hrole : ({ n with role := .active, log := n.log.reopen } : Node σ).role = .active := rfl
  generalize ({ n with role := .active, log := n.log.reopen } : Node σ) = n' at hcast hopen hrole ⊢
  have hwell := h.wellFormed.set id n'
  have hfamily := h.family.activate hn hw h.acting hcast hrole
  have hplaces := h.places.enqueue (n := n') (by rw [hrole]; rfl)
  have hF := Arena.forall_set (P := fun m m' : Node σ => Recast m m' ∧ SameSharing m m' ∧
      m'.basis? = m.basis? ∧ (m' = m ∨ m'.role = .active ∧ m'.log.isSealed = false)) hn
    ⟨hcast, ⟨hcast.parent, hcast.share, by rw [hrole, Role.warmStart?_of_waiting hw]; rfl,
      fun _ _ => .inr (by rw [hrole]; rfl)⟩,
      by rw [Node.basis?, Node.basis?, hrole, Role.warmStart?_of_waiting hw]; rfl, .inr ⟨hrole, hopen⟩⟩
    fun m => ⟨.refl m, .refl m, rfl, .inl rfl⟩
  have hqueue := h.queue.set hq n'
  have hacting : Acting (t.nodes.set id n') (some id) := by
    intro k
    rw [Arena.get?_set]
    constructor
    · rintro ⟨⟩
      exact ⟨n', by rw [if_pos rfl, hn]; rfl, by rw [hrole]; rfl⟩
    · rintro ⟨o, ho, hact⟩
      by_cases hk : k = id
      · rw [hk]
      · rw [if_neg hk] at ho
        cases (h.acting k).2 ⟨o, ho, hact⟩
  rw [Arena.set_eq_adjust] at hfamily hwell hplaces hqueue hacting ⊢
  exact {
    wellFormed := hwell
    forest := h.forest.adjust fun k m hm => ⟨(hF k m hm).1.parent, (hF k m hm).1.depth⟩
    walk := h.walk.adjust fun k m hm =>
      ⟨(hF k m hm).1.parent, (hF k m hm).1.depth, (hF k m hm).1.onPath⟩
    family := hfamily
    places := hplaces
    queue := hqueue
    sharing := h.sharing.adjust fun k m hm => (hF k m hm).2.1
    logs := h.logs.adjust fun k m hm => ⟨(hF k m hm).1.changes, fun hr => by
      rcases (hF k m hm).2.2.2 with he | ⟨-, ho⟩
      · rw [he] at hr ⊢
        exact h.logs.unsealed k m hm hr
      · exact ho⟩
    books := h.books.adjust fun k m hm => (hF k m hm).2.2.1
    acting := hacting
    custody := hK.perm _ _ _ (bases_adjust fun k m hm => (hF k m hm).2.2.1).symm h.custody }

section Follow

def KeepsWrites (n m : Node σ) : Prop := SameWrites m.log.changes n.log.changes

/-- What the logs from place `k` of the path on make of the bounds that the ones above it leave. -/
def judge (start : Array Interval) (t : Tree σ cmp) (k : Nat) : Outcome :=
  verdict t.settings.tol (written start (changesAlong t.nodes (t.path.take k)))
    (changesAlong t.nodes (t.path.drop k))

/-- What stays of a tree when the nodes of a route are entered. The path beyond what was kept is new, and so
are the sizes on it. -/
structure Entered (t t' : Tree σ cmp) (r : Route) : Prop where
  nodes : Carried Lineage t.nodes t'.nodes
  waiting : ∀ k n, t.nodes.get? k = some n → n.role.name.isWaiting = true → ∃ m, t'.nodes.get? k = some m
  writes : Carried KeepsWrites t.nodes t'.nodes
  path : t'.path = t.path.take r.keep ++ r.fresh.reverse
  sizes : t'.sizes.take r.keep = t.sizes.take r.keep
  length : t'.sizes.length = t'.path.length
  sized : SizedFrom t'.nodes t'.path t'.sizes r.keep
  columns : t'.lp.columns = t.lp.columns
  rows : t'.lp.rows = t.lp.rows
  domains : t.domains.Touches t'.domains

/-- What the tree is after following a route. -/
structure Followed (t t' : Tree σ cmp) (r : Route) (target : Option Handle) : Prop extends Entered t t' r where
  correctDepth : t'.correctDepth = t.correctDepthAfter r
  lpFork : t'.lpFork = r.lpFork
  subroot : t'.subroot = r.subroot
  active : t'.active = target
  isLoaded : t'.focus.isLoaded = false
  isSolved : t'.focus.isSolved = false

structure Target (t : Tree σ cmp) (anchor : Option Handle) (id : Handle) : Prop where
  unqueued : id ∉ t.frontier.ids
  live : ∃ n, t.nodes.get? id = some n ∧ n.role.name.isWaiting = true ∧ n.onPath = false ∧ n.parent = anchor

theorem Target.not_onPath (h : Target t anchor id) (hw : Walk t.nodes t.path) :
    id ∉ t.path := by
  intro hid
  obtain ⟨n, hn, -, hoff, -⟩ := h.live
  obtain ⟨i, hi⟩ := List.mem_iff_getElem?.1 hid
  obtain ⟨m, hm, -, hon, -⟩ := hw.step i id hi
  cases hn.symm.trans hm
  rw [hoff] at hon
  cases hon

theorem Entered.take_path (h : Entered t t' r) (hk : r.keep ≤ t.path.length) :
    t'.path.take r.keep = t.path.take r.keep := by
  rw [h.path, List.take_left' (List.length_take_of_le hk)]

theorem Leads.entered_off (hr : Leads t r target anchor) (hw : Walk t.nodes t.path) (hent : Entered t t' r) :
    ∀ k ∈ t'.path.drop r.keep, k ∉ t.path := by
  rw [hent.path, List.drop_left' (List.length_take_of_le hr.keep_le)]
  intro k hfresh hk
  obtain ⟨i, hi⟩ := List.mem_iff_getElem?.1 hk
  obtain ⟨n, hn, -, hon, -⟩ := hw.step i k hi
  exact Bool.noConfusion (hon.symm.trans (hr.off k (List.mem_reverse.1 hfresh) n hn))

theorem Entered.above_eq (h : Entered t t' r) (hw : Walk t'.nodes t'.path) (htip : t'.tip = target)
    (ht : ∀ id, target = some id → Target t anchor id) (hout : target = none → anchor = none ∧ r = .out) :
    t'.above = anchor := by
  cases target with
  | none =>
      obtain ⟨rfl, rfl⟩ := hout rfl
      unfold above
      rw [h.path]
      rfl
  | some id =>
      obtain ⟨n, hn, -, -, hp⟩ := (ht id rfl).live
      obtain ⟨m, hm⟩ := hw.live_before _ id htip
      obtain ⟨n', hn', hnm⟩ := h.nodes id m hm
      cases hn.symm.trans hn'
      rw [← hp, ← hnm.parent]
      exact (hw.parent_of_end htip hm).symm

def arrive (r : Route) (target : Option Handle) (t : Tree σ cmp) : Tree σ cmp := { t with
  correctDepth := t.correctDepthAfter r
  lpFork := r.lpFork
  subroot := r.subroot
  active := target
  focus := .fresh }

theorem applyEnd_spec (hK : Custody K K') (h : Sound K ⟨target, anchor, [], none, none⟩ t)
    (hlen : t.sizes.length = t.path.length)
    (hf : InForce start t.nodes (t.path.take r.keep) t.domains.vars) (htip : t.tip = target)
    (habove : t.above = anchor) (hfork : Nearest t.nodes Role.isSnapshot anchor r.lpFork)
    (hsub : Nearest t.nodes Role.isSubroot anchor r.subroot) :
    Ends (do
        let outcome ← applyLogs (t.path.drop r.keep)
        modify (arrive r target)
        return outcome) t
      (fun o t' => Resting K start t' ∧ ∃ nodes domains journal,
        t' = arrive r target { t with nodes := nodes, domains := domains, journal := journal } ∧
        Matched Rerouted t.nodes nodes ∧ t.domains.Touches domains ∧ o = t'.judge start r.keep)
      fun _ _ => False := by
  have hlive : ∀ k ∈ t.path.drop r.keep, ∃ n, t.nodes.get? k = some n :=
    fun _ hk => h.walk.live_of_mem (List.mem_of_mem_drop hk)
  subst habove htip
  rw [ends_bind]
  refine (applyLogs_spec hK h hf hlive ?_).mono ?_ fun _ _ h => h
  · rw [List.take_append_drop]
    exact h.walk.nodup
  · rintro o t₁ ⟨h₁, nodes, domains, journal, rfl, hmatch, hf₁, htouch, ho⟩
    rw [List.take_append_drop] at hf₁
    have hline := hmatch.back.mono fun _ _ => Rerouted.lineage
    have hanchor : Live nodes t.above := h₁.walk.live_before _
    refine ⟨?_, nodes, domains, journal, rfl, hmatch, htouch, ho⟩
    exact {
      toSound := { h₁ with }
      active_eq := rfl
      sized := hlen
      lpFork := hfork.carry hline (fun _ _ => Lineage.isSnapshot) h₁.forest hanchor
      subroot := hsub.carry hline (fun _ _ => Lineage.isSubroot) h₁.forest hanchor
      inForce := hf₁ }

theorem followEnd_spec (hK : Custody K K') (hr : Leads t r target anchor)
    (ht : ∀ id, target = some id → Target t anchor id) (hout : target = none → anchor = none ∧ r = .out)
    (hent : Entered t t' r) (h : Sound K ⟨target, anchor, [], none, none⟩ t')
    (hf : InForce start t'.nodes (t.path.take r.keep) t'.domains.vars) (htip : t'.tip = target)
    (hdepth : t'.correctDepthAfter r = t.correctDepthAfter r) :
    Ends (do
        let outcome ← applyLogs (t'.path.drop r.keep)
        modify (arrive r target)
        return outcome) t'
      (fun o t₃ => Resting K start t₃ ∧ Followed t t₃ r target ∧ t₃.focus = .fresh ∧ o = t₃.judge start r.keep)
      fun _ _ => False := by
  have habove := hent.above_eq h.walk htip ht hout
  have hanchor : Live t'.nodes anchor := habove ▸ h.walk.live_before _
  have hfork := hr.lpFork.carry hent.nodes (fun _ _ => Lineage.isSnapshot) h.forest hanchor
  have hsub := hr.subroot.carry hent.nodes (fun _ _ => Lineage.isSubroot) h.forest hanchor
  rw [← hent.take_path hr.keep_le] at hf
  refine (applyEnd_spec hK h hent.length hf htip habove hfork hsub).mono ?_ fun _ _ h => h
  rintro o t₃ ⟨hresting, nodes, domains, journal, rfl, hre, htouch, ho⟩
  have hline := hre.mono fun _ _ => Rerouted.lineage
  refine ⟨hresting, ?_, rfl, ho⟩
  exact {
    nodes := hent.nodes.trans (S := Lineage) (fun _ _ _ => Lineage.trans) hline.back
    waiting := fun k n hn hw => by
      obtain ⟨m, hm⟩ := hent.waiting k n hn hw
      obtain ⟨m', hm', -⟩ := hline.forth k m hm
      exact ⟨m', hm'⟩
    writes := hent.writes.trans (S := Rerouted) (fun _ _ _ h h' => h'.writes.trans h) hre.back
    path := hent.path
    sizes := hent.sizes
    length := hent.length
    sized := hent.sized.carry hline
    correctDepth := hdepth
    lpFork := rfl
    subroot := rfl
    active := rfl
    isLoaded := rfl
    isSolved := rfl
    columns := hent.columns
    rows := hent.rows
    domains := hent.domains.trans htouch }

theorem abandon_spec (hK : Custody K K') (h : Sound K ⟨none, anchor, loose, none, none⟩ t)
    (hc : t.children = []) (hf : InForce start t.nodes t.path t.domains.vars) {keep : Nat}
    (hl : ∀ k ∈ t.path, k ∉ loose) :
    Ends (abandon keep) t
      (fun _ t' => Sound K ⟨none, anchor, loose, none, none⟩ t' ∧
        InForce start t'.nodes t'.path t'.domains.vars ∧ ∃ nodes root solver domains stats journal,
          t' = { t.settle nodes root solver stats journal with
            path := t.path.take keep, sizes := t.sizes.take keep, domains := domains } ∧
          Spared [] t.nodes nodes ∧ t.domains.Touches domains)
      fun _ _ => False := by
  have hlive : ∀ k ∈ t.path.drop keep, ∃ n, t.nodes.get? k = some n :=
    fun _ hk => h.walk.live_of_mem (List.mem_of_mem_drop hk)
  have hsplit : t.path = t.path.take keep ++ t.path.drop keep := (List.take_append_drop keep _).symm
  unfold abandon
  rw [ends_bind, ends_get, ends_bind]
  refine (undoAll_spec (fun _ _ _ _ => undoStep_spec) (hsplit ▸ hf) hlive).mono ?_ fun _ _ h => h
  rintro _ t₁ ⟨domains, journal, rfl, hf₁, htouch⟩
  have hsize : domains.size = t.domains.size := hf₁.size_eq.trans hf.size_eq.symm
  have hlogs : Logs t.nodes domains.size := by
    rw [hsize]
    exact h.logs
  have h₁ : Sound K ⟨none, anchor, loose, none, none⟩
      { t with sizes := t.sizes.take keep, domains := domains, journal := journal } :=
    { h with logs := hlogs }
  rw [ends_bind, ends_modify]
  refine (leaveAll_spec hK h₁ hsplit hc fun k hk => hl k (List.mem_of_mem_drop hk)).mono ?_
    fun _ _ h => h
  rintro _ t₂ ⟨h₂, nodes, root, solver, stats, journal', rfl, hspared⟩
  refine ⟨h₂, ?_, nodes, root, solver, domains, stats, journal', rfl, hspared, htouch⟩
  have hchanges : changesAlong nodes (t.path.take keep) = changesAlong t.nodes (t.path.take keep) :=
    changesAlong_eq hspared.carried fun _ => h₂.walk.live_of_mem
  exact ⟨hchanges ▸ hf₁.noted, hchanges ▸ hf₁.vars_eq⟩

theorem focusTarget_spec (hK : Custody K K') {id : Handle}
    (h : Sound K ⟨none, anchor, [id], none, none⟩ t) (hn : t.nodes.get? id = some n)
    (hw : n.role.name.isWaiting = true) (hq : id ∉ t.frontier.ids) :
    Ends (updateNode id fun n => { n with role := .active, log := n.log.reopen }) t
      (fun _ t' => Sound K ⟨some id, anchor, [], none, none⟩ t' ∧ ∃ nodes, t' = { t with nodes := nodes } ∧
        Matched Kin t.nodes nodes)
      fun _ _ => False := by
  have hkin : Kin n { n with role := .active, log := n.log.reopen } :=
    ⟨⟨rfl, rfl, (Role.layer_of_waiting hw).symm⟩, rfl⟩
  rw [ends_updateNode hn]
  exact ⟨h.activate hK hn hw hq, _, rfl, .set Kin.refl hn hkin⟩

theorem follow_spec (hK : Custody K K') (target : Option Handle)
    (h : Sound K ⟨none, anchor, target.toList, none, none⟩ t)
    (hc : t.children = []) (hlen : t.sizes.length = t.path.length)
    (hf : InForce start t.nodes t.path t.domains.vars) (hr : Leads t r target anchor)
    (ht : ∀ id, target = some id → Target t anchor id)
    (hout : target = none → anchor = none ∧ r = .out) :
    Ends (follow r target) t
      (fun o t' => Resting K start t' ∧ Followed t t' r target ∧ t'.focus = .fresh ∧ o = t'.judge start r.keep)
      fun _ _ => False := by
  have hoff : ∀ k ∈ t.path, k ∉ target.toList := by
    intro k hk hmem
    exact (ht k (Option.mem_toList.1 hmem)).not_onPath h.walk hk
  have hlength : (t.path.take r.keep).length = r.keep := List.length_take_of_le hr.keep_le
  have hlength' : (t.sizes.take r.keep).length = r.keep := List.length_take_of_le (hlen ▸ hr.keep_le)
  unfold follow
  rw [ends_bind]
  refine (abandon_spec hK h hc hf hoff).mono ?_ fun _ _ h => h
  rintro _ t₁ ⟨h₁, hf₁, nodes, root, solver, domains, stats, journal, rfl, hspared, htouch⟩
  have hlive : Live nodes target := by
    rintro id rfl
    obtain ⟨n, hn, hw, -⟩ := (ht id rfl).live
    exact ⟨n, hspared.waiting id n hn hw List.not_mem_nil⟩
  have htip : before (t.path.take r.keep) (t.path.take r.keep).length = before t.path r.keep := by
    rw [hlength, before_take (Nat.le_refl _)]
  have hclimb : Climb nodes target r.fresh (before (t.path.take r.keep) (t.path.take r.keep).length) := by
    rw [htip]
    exact hr.climb.carry hspared.carried.lineage h₁.forest hlive
  rw [ends_bind]
  refine (enterAll_spec hK h₁ hc (hlength'.trans hlength.symm) hclimb fun k n hk hn hw => ?_).mono ?_ fun _ _ h => h
  · rw [Option.mem_toList, ← hk, hr.head]
  rintro _ t₂ ⟨h₂, nodes₂, more, rfl, hmarked, hmore, htip₂, hsized⟩
  rw [hlength] at hsized
  -- To give the target its role changes neither the path nor what the logs of its nodes say.
  have hentered : ∀ nodes₃, Matched Kin nodes₂ nodes₃ →
      Entered t { t.settle nodes root solver stats journal with
        nodes := nodes₃, path := t.path.take r.keep ++ r.fresh.reverse
        sizes := t.sizes.take r.keep ++ more, domains := domains } r := by
    intro nodes₃ hkin
    have hcarried := (hspared.carried.kin_trans (hmarked.back.mono fun _ _ => Marked.toKin)).kin_trans hkin.back
    exact {
      nodes := hcarried.lineage
      waiting := fun k n hn hw => by
        obtain ⟨m, hm, -⟩ := hmarked.forth k n (hspared.waiting k n hn hw List.not_mem_nil)
        obtain ⟨m', hm', -⟩ := hkin.forth k m hm
        exact ⟨m', hm'⟩
      writes := hcarried.mono fun _ _ h => congrArg _ h.changes
      path := rfl
      sizes := List.take_left' hlength'
      length := by rw [List.length_append, List.length_append, List.length_reverse, hlength, hlength', hmore]
      sized := hsized.carry (hkin.mono fun _ _ => Kin.toLineage)
      columns := rfl
      rows := rfl
      domains := htouch }
  have hinForce : ∀ nodes₃, Matched Kin nodes₂ nodes₃ → Walk nodes₃ (t.path.take r.keep ++ r.fresh.reverse) →
      InForce start nodes₃ (t.path.take r.keep) domains.vars := by
    intro nodes₃ hkin hwalk
    have hchanges : changesAlong nodes₃ (t.path.take r.keep) = changesAlong nodes (t.path.take r.keep) :=
      changesAlong_eq ((hmarked.back.mono fun _ _ => Marked.toKin).kin_trans hkin.back)
        fun _ hk => hwalk.live_of_mem (List.mem_append_left _ hk)
    exact ⟨hchanges ▸ hf₁.noted, hchanges ▸ hf₁.vars_eq⟩
  cases target with
  | none =>
      have hkin : Matched Kin nodes₂ nodes₂ := .refl Kin.refl _
      exact followEnd_spec hK hr ht hout (hentered _ hkin) h₂ (hinForce _ hkin h₂.walk) htip₂ rfl
  | some id =>
      obtain ⟨n, hn, hw, -⟩ := (ht id rfl).live
      obtain ⟨m, hm, hnm⟩ := hmarked.forth id n (hspared.waiting id n hn hw List.not_mem_nil)
      rw [ends_bind]
      refine (focusTarget_spec hK h₂ hm (by rw [hnm.role, hw]) (ht id rfl).unqueued).mono ?_ fun _ _ h => h
      rintro _ t₃ ⟨h₃, nodes₃, rfl, hkin⟩
      exact followEnd_spec hK hr ht hout (hentered _ hkin) h₃ (hinForce _ hkin h₃.walk) htip₂ rfl

end Follow

end Tree

end BranchBound
