import BranchBound.Proofs.Pruning
import BranchBound.Proofs.Strays
import BranchBound.Tree.Activation

namespace BranchBound

variable {σ : Type} [Solver σ] {cmp : NodeOrder}

theorem Family.adjustWaiting {a : Arena (Node σ)} {loose : List Handle} {lost : Option Handle}
    {F : Handle → Node σ → Node σ} (h : Family a loose lost) (ha : Acting a none)
    (hF : ∀ k n, a.get? k = some n → Shelved n (F k n)) : Family (a.adjust F) loose lost := by
  have hidle : ∀ k n, a.get? k = some n → n.role.name ≠ .active := by
    intro k n hn hact
    cases (ha k).2 ⟨n, hn, hact⟩
  have hopen : ∀ k n, a.get? k = some n → (F k n).role.openChildren? = n.role.openChildren? := by
    intro k n hn
    rcases (hF k n hn).role with he | ⟨hw, hw'⟩
    · rw [he]
    · rw [Role.openChildren?_of_waiting hw, Role.openChildren?_of_waiting hw']
  constructor
  case counted =>
    intro k m c hm hc
    obtain ⟨n, hn, rfl⟩ := Arena.get?_adjust_some hm
    rw [hopen k n hn] at hc
    rw [h.counted k n c hn hc, Arena.count_adjust_congr fun k n hn => by rw [(hF k n hn).cast.parent]]
  case parent =>
    intro k m p m' hm hp hm'
    obtain ⟨n, hn, rfl⟩ := Arena.get?_adjust_some hm
    obtain ⟨n', hn', rfl⟩ := Arena.get?_adjust_some hm'
    rw [(hF k n hn).cast.parent] at hp
    rw [hopen p n' hn']
    exact .inr ((h.parent k n p n' hn hp hn').resolve_left (hidle p n' hn'))
  case fresh =>
    intro k m p m' hm hp hm' hact
    obtain ⟨n', hn', rfl⟩ := Arena.get?_adjust_some hm'
    rcases (hF p n' hn').role with he | ⟨-, hw⟩
    · rw [he] at hact
      exact absurd hact (hidle p n' hn')
    · exact absurd hact (Role.not_active_of_waiting hw)
  case spent =>
    intro k m hm hx
    obtain ⟨n, hn, rfl⟩ := Arena.get?_adjust_some hm
    rw [(hF k n hn).cast.onPath]
    rcases (hF k n hn).role with he | ⟨-, hw⟩
    · rw [he] at hx
      exact h.spent k n hn hx
    · rw [Role.not_waiting_of_exhausted hx] at hw
      cases hw
  case entered =>
    intro k m hm ho hw
    obtain ⟨n, hn, rfl⟩ := Arena.get?_adjust_some hm
    rw [(hF k n hn).cast.onPath] at ho
    refine h.entered k n hn ho ?_
    rcases (hF k n hn).role with he | ⟨hw', -⟩
    · rwa [he] at hw
    · exact hw'

structure Renumbers (ids : List Handle) (F : Handle → Node σ → Node σ) : Prop where
  listed : ∀ (i : Nat) k, ids[i]? = some k → ∀ m, F k m = { m with role := .sibling i }
  rest : ∀ k m, k ∉ ids → F k m = m

section Renumbers

variable {a : Arena (Node σ)} {loose : List Handle} {tip tip' anchor : Option Handle}
  {staged staged' : Staging → List Handle} {F : Handle → Node σ → Node σ} {k : Handle} {m : Node σ}

theorem Places.renumbered (h : Places a loose tip anchor staged) (hF : Renumbers (staged .children) F)
    (hm : a.get? k = some m) :
    (∃ i : Nat, (staged .children)[i]? = some k ∧ m.role = .child i ∧ F k m = { m with role := .sibling i }) ∨
      k ∉ staged .children ∧ F k m = m := by
  by_cases hk : k ∈ staged .children
  · obtain ⟨i, hi⟩ := List.mem_iff_getElem?.1 hk
    obtain ⟨-, m', hm', hs, -⟩ := h.listed .children i k hi
    cases hm.symm.trans hm'
    exact .inl ⟨i, hi, staged?_eq_some.1 hs, hF.listed i k hi m⟩
  · exact .inr ⟨hk, hF.rest k m hk⟩

theorem Places.shelved_of_renumbers (h : Places a loose tip anchor staged) (hF : Renumbers (staged .children) F)
    (hm : a.get? k = some m) : Shelved m (F k m) := by
  obtain ⟨i, -, hrole, he⟩ | ⟨-, he⟩ := h.renumbered hF hm
  · rw [he]
    exact ⟨rfl, .inr ⟨by rw [hrole]; rfl, rfl⟩, by rw [hrole]; exact Nat.zero_le 1⟩
  · rw [he]
    exact .refl m

theorem Places.leaf_of_renumbers (h : Places a loose tip anchor staged) (hF : Renumbers (staged .children) F)
    (hm : a.get? k = some m) : (F k m).role.name = .leaf ↔ m.role.name = .leaf := by
  obtain ⟨i, -, hrole, he⟩ | ⟨-, he⟩ := h.renumbered hF hm
  · rw [he, hrole]
    exact ⟨RoleName.noConfusion, RoleName.noConfusion⟩
  · rw [he]

theorem Places.renumber (h : Places a loose tip anchor staged) (hF : Renumbers (staged .children) F)
    (hempty : staged .siblings = []) (hchildren : staged' .children = [])
    (hsiblings : staged' .siblings = staged .children) : Places (a.adjust F) loose tip' tip staged' where
  listed w i k hk := by
    cases w with
    | children =>
        rw [hchildren] at hk
        cases hk
    | siblings =>
        rw [hsiblings] at hk
        obtain ⟨hl, m, hm, -, hp⟩ := h.listed .children i k hk
        refine ⟨hl, _, Arena.get?_adjust_of hm, ?_, ?_⟩ <;> rw [hF.listed i k hk]
        · rfl
        · exact hp
  placed k m w i hm hs hl := by
    obtain ⟨o, ho, rfl⟩ := Arena.get?_adjust_some hm
    obtain ⟨j, hj, -, he⟩ | ⟨hk, he⟩ := h.renumbered hF ho
    · rw [he] at hs
      cases hs
      rw [hsiblings]
      exact hj
    · rw [he] at hs
      have hplaced := h.placed k o w i ho hs hl
      cases w with
      | children => exact absurd (List.mem_of_getElem? hplaced) hk
      | siblings =>
          rw [hempty] at hplaced
          cases hplaced

end Renumbers

namespace Tree

variable {K K' : Charge σ} {t : Tree σ cmp}
  {anchor : Option Handle} {loose : List Handle} {id : Handle} {n : Node σ}

theorem Sound.renumber (hK : Custody K K') (h : Sound K ⟨none, anchor, loose, none, none⟩ t)
    (hsib : t.siblings = []) {F : Handle → Node σ → Node σ} (hF : Renumbers t.children F) :
    Sound K ⟨none, t.tip, loose, none, none⟩
      { t with nodes := t.nodes.adjust F, children := [], siblings := t.children } := by
  have hshelved : ∀ k m, t.nodes.get? k = some m → Shelved m (F k m) :=
    fun _ _ hm => h.places.shelved_of_renumbers hF hm
  have hbasis : ∀ k m, t.nodes.get? k = some m → (F k m).role.warmStart? = m.role.warmStart? := by
    intro k m hm
    rcases (hshelved k m hm).role with he | ⟨hw, hw'⟩
    · rw [he]
    · rw [Role.warmStart?_of_waiting hw, Role.warmStart?_of_waiting hw']
  have hbases : ∀ k m, t.nodes.get? k = some m → (F k m).basis? = m.basis? := by
    intro k m hm
    rw [Node.basis?, hbasis k m hm]
    rfl
  exact {
    wellFormed := h.wellFormed.adjust F
    forest := h.forest.adjust fun k m hm => ⟨(hshelved k m hm).cast.parent, (hshelved k m hm).cast.depth⟩
    walk := h.walk.adjust fun k m hm => ⟨(hshelved k m hm).cast.parent, (hshelved k m hm).cast.depth,
      (hshelved k m hm).cast.onPath⟩
    family := h.family.adjustWaiting h.acting hshelved
    places := h.places.renumber hF hsib rfl rfl
    queue := h.queue.adjust fun k m hm hleaf =>
      ⟨(hshelved k m hm).cast.key, (h.places.leaf_of_renumbers hF hm).2 hleaf⟩
    sharing := by
      refine h.sharing.adjust fun k m hm => ⟨(hshelved k m hm).cast.parent, (hshelved k m hm).cast.share,
        hbasis k m hm, fun _ hr => ?_⟩
      rcases (hshelved k m hm).role with he | ⟨-, hw⟩
      · rwa [he]
      · exact .inl hw
    logs := by
      refine h.logs.adjust fun k m hm => ⟨(hshelved k m hm).cast.changes, fun hr => ?_⟩
      obtain ⟨i, -, -, he⟩ | ⟨-, he⟩ := h.places.renumbered hF hm
      · rw [he] at hr
        rcases hr with hr | hr <;> cases hr
      · rw [he] at hr ⊢
        exact h.logs.unsealed k m hm hr
    books := h.books.adjust hbases
    acting := by
      refine h.acting.adjust fun k m hm => ?_
      rcases (hshelved k m hm).role with he | ⟨hw, hw'⟩
      · rw [he]
      · exact ⟨fun hr => absurd hr (Role.not_active_of_waiting hw'),
          fun hr => absurd hr (Role.not_active_of_waiting hw)⟩
    custody := hK.perm _ _ _ (bases_adjust hbases).symm h.custody }

theorem renumberSiblings_spec (hn : t.siblings.Nodup)
    (hlive : ∀ k ∈ t.siblings, ∃ m, t.nodes.get? k = some m) :
    Ends renumberSiblings t (fun _ t' => ∃ F, t' = { t with nodes := t.nodes.adjust F } ∧ Renumbers t.siblings F)
      fun _ _ => False := by
  unfold renumberSiblings
  rw [ends_bind, ends_get]
  have hkeys : t.siblings.zipIdx.map Prod.fst = t.siblings := List.zipIdx_map_fst 0 t.siblings
  refine (updateAll_spec Prod.fst (fun e m => { m with role := .sibling e.2 })
    (by rw [hkeys]; exact hn) fun e he => hlive e.1 ?_).mono ?_ fun _ _ h => h
  · rw [← hkeys]
    exact List.mem_map_of_mem he
  · rintro _ t' ⟨F, rfl, hF, hrest⟩
    rw [hkeys] at hrest
    exact ⟨F, rfl, fun i k hk m => hF (k, i) (List.mem_zipIdx_iff_getElem?.2 hk) m, hrest⟩

theorem Kept.shelve {nodes : Arena (Node σ)} {frontier : Frontier cmp} {children siblings : List Handle}
    {journal : Array Event} (h : Matched Shelved t.nodes nodes) :
    Kept [] t { t with
      nodes := nodes, frontier := frontier, children := children, siblings := siblings, journal := journal } where
  nodes := h.back.mono fun _ _ => Shelved.kin
  waiting k n hn hw _ := by
    obtain ⟨m, hm, hs⟩ := h.forth k n hn
    refine ⟨m, hm, ?_⟩
    rcases hs.role with he | ⟨-, hw'⟩
    · rwa [he]
    · exact hw'
  path := rfl
  sizes := rfl
  active := rfl
  lpFork := rfl
  subroot := rfl
  correctDepth := rfl
  focus := rfl
  domains := rfl
  columns := rfl
  rows := rfl

theorem Proceeds.shelve {nodes : Arena (Node σ)} {frontier : Frontier cmp} {children siblings : List Handle}
    {journal : Array Event} (h : Matched Shelved t.nodes nodes) :
    Proceeds t { t with
      nodes := nodes, frontier := frontier, children := children, siblings := siblings, journal := journal } :=
  ⟨h.back.mono fun _ _ => Shelved.persists, rfl⟩

/-- With no siblings left, any node may count as their parent. -/
theorem Sound.reanchor {s : Stage} (h : Sound K s t) (hs : t.siblings = []) (anchor : Option Handle) :
    Sound K { s with anchor := anchor } t := by
  refine { h with places := ⟨fun w i k hk => ?_, h.places.placed⟩ }
  cases w with
  | children => exact h.places.listed .children i k hk
  | siblings =>
      rw [show t.staged .siblings = [] from hs] at hk
      cases hk

/-- The tree with a target set apart, ready for the path to change. -/
structure Cleared (K : Charge σ) (id : Handle) (n : Node σ)
    (t t' : Tree σ cmp) : Prop where
  sound : Sound K ⟨none, n.parent, [id], none, none⟩ t'
  kept : Kept [] t t'
  self : t'.nodes.get? id = some n
  children : t'.children = []
  unqueued : id ∉ t'.frontier.ids
  tends : Tends (some id) t t'
  proceeds : Proceeds t t'

theorem stagedPos_ok {w : Staging} {pos : Nat} (hn : t.nodes.get? id = some n)
    (hs : n.role.staged? = some (w, pos)) : t.stagedPos id = .ok pos := by
  unfold stagedPos
  simp only [node_eq_ok.2 hn]
  simp only [bind, Except.bind, hs]
  rfl

/-- The target is out of its list, and the other list is empty. -/
structure SetAside (K : Charge σ) (anchor : Option Handle) (id : Handle) (n : Node σ) (other : Staging)
    (t t' : Tree σ cmp) : Prop where
  sound : Sound K ⟨none, anchor, [id], none, none⟩ t'
  kept : Kept [] t t'
  self : t'.nodes.get? id = some n
  emptied : t'.staged other = []
  tip : t'.tip = t.tip
  tends : Tends (some id) t t'
  proceeds : Proceeds t t'

theorem setAside_spec (hK : Custody K K') (h : Sound K ⟨none, anchor, [], none, none⟩ t)
    (hn : t.nodes.get? id = some n) {which other : Staging} (hne : other ≠ which) {pos : Nat}
    (hs : n.role.staged? = some (which, pos)) {Q : Tree σ cmp → Prop}
    (hQ : ∀ t', SetAside K anchor id n other t t' → Q t') :
    Ends (do
      flush other
      unstage id which (← read (·.stagedPos id)) : TreeM σ cmp Unit) t (fun _ => Q) fun _ _ => False := by
  have hpos := h.places.placed id n which pos hn hs List.not_mem_nil
  have hout : id ∉ t.staged other := by
    intro hmem
    obtain ⟨i, hi⟩ := List.mem_iff_getElem?.1 hmem
    exact hne (h.places.place_unique hi hpos).1
  rw [ends_bind]
  refine (flush_spec hK.toRedemption h other).mono ?_ fun _ _ h => h
  rintro _ t₁ ⟨h₁, nodes₁, frontier, rfl, hmatch₁, hsame, hids⟩
  have hn₁ : nodes₁.get? id = some n := (hsame id hout).trans hn
  have hpos₁ := h₁.places.placed id n which pos hn₁ hs List.not_mem_nil
  have hkept₁ : Kept [] t { t.withStaged [] other with nodes := nodes₁, frontier := frontier } := by
    cases other <;> exact .shelve hmatch₁
  have hproceeds₁ : Proceeds t { t.withStaged [] other with nodes := nodes₁, frontier := frontier } := by
    cases other <;> exact .shelve hmatch₁
  have hempty : ({ t.withStaged [] other with nodes := nodes₁, frontier := frontier } : Tree σ cmp).staged other =
      [] := by
    cases other <;> rfl
  rw [ends_bind, ends_read, stagedPos_ok hn₁ hs]
  refine ((unstage_spec hK.toRedemption h₁ hpos₁).and
    (along_of_sweeps (x := none) (q := .deals) (sweeps_unstage id which pos) _)).mono ?_ fun _ _ h => h.1
  rintro _ t₂ ⟨⟨h₂, nodes₂, children, siblings, rfl, hmoved, hself, hother⟩, hcalm⟩
  refine hQ _ ⟨h₂, hkept₁.trans (.restage _ _ hmoved), hself.trans hn₁, (hother other hne).trans hempty, ?_,
    trans_of (Tends (some id)) (.of_flush h.places hmatch₁ hsame hids) hcalm.tends.weaken,
    trans_of Proceeds hproceeds₁ hcalm.proceeds⟩
  cases other <;> rfl

theorem clearChild_spec (hK : Custody K K') (h : Sound K ⟨none, anchor, [], none, none⟩ t)
    (hn : t.nodes.get? id = some n) (pos : Nat) (hs : n.role.staged? = some (.children, pos)) :
    Ends (clearTheWay id .child) t (fun _ t' => Cleared K id n t t') fun _ _ => False := by
  suffices hnext : ∀ t₂, SetAside K anchor id n .siblings t t₂ → Ends (do
      modify fun t => { t with children := t.siblings, siblings := t.children }
      renumberSiblings : TreeM σ cmp Unit) t₂ (fun _ t' => Cleared K id n t t') fun _ _ => False by
    have haside := setAside_spec hK h hn Staging.noConfusion hs hnext
    simpa only [clearTheWay, ends_bind] using haside
  intro t₂ haside
  have h₂ := haside.sound
  have hp : n.parent = t.tip := h.places.parent_of_staged hn hs List.not_mem_nil
  have hempty : t₂.siblings = [] := haside.emptied
  have hlive : ∀ k ∈ t₂.children, ∃ m, t₂.nodes.get? k = some m := by
    intro k hk
    obtain ⟨i, hi⟩ := List.mem_iff_getElem?.1 hk
    obtain ⟨-, m, hm, -⟩ := h₂.places.listed .children i k hi
    exact ⟨m, hm⟩
  have hfree : id ∉ t₂.children := by
    intro hk
    obtain ⟨i, hi⟩ := List.mem_iff_getElem?.1 hk
    exact (h₂.places.listed .children i id hi).1 List.mem_cons_self
  rw [ends_bind, ends_modify]
  refine (renumberSiblings_spec (h₂.places.nodup .children) hlive).mono ?_ fun _ _ h => h
  rintro _ t₃ ⟨F, rfl, hF⟩
  have h₃ := h₂.renumber hK hempty hF
  have hn₃ : (t₂.nodes.adjust F).get? id = some n := by
    rw [Arena.get?_adjust, haside.self, Option.map_some, hF.rest id n hfree]
  rw [hempty]
  refine ⟨?_, haside.kept.trans (.shelve (.adjust fun _ _ hm => h₂.places.shelved_of_renumbers hF hm)), hn₃, rfl,
    h₃.unqueued hn₃ (not_leaf_of_staged hs), trans_of (Tends (some id)) haside.tends ?_,
    trans_of Proceeds haside.proceeds ?_⟩
  · rw [hp, ← haside.tip]
    exact h₃
  · refine .of_names (fun k m hm => ?_) fun _ _ _ _ => .rfl
    obtain ⟨o, ho, rfl⟩ := Arena.get?_adjust_some (a := t₂.nodes) hm
    exact ⟨o, ho, fun _ => h₂.places.leaf_of_renumbers hF ho⟩
  · have hshelved : Matched Shelved t₂.nodes (t₂.nodes.adjust F) :=
      .adjust fun _ _ hm => h₂.places.shelved_of_renumbers hF hm
    exact .shelve hshelved

theorem clearSibling_spec (hK : Custody K K') (h : Sound K ⟨none, anchor, [], none, none⟩ t)
    (hn : t.nodes.get? id = some n) (pos : Nat) (hs : n.role.staged? = some (.siblings, pos)) :
    Ends (clearTheWay id .sibling) t (fun _ t' => Cleared K id n t t') fun _ _ => False := by
  refine setAside_spec hK h hn Staging.noConfusion hs fun t' haside => ?_
  have hp : n.parent = anchor := h.places.parent_of_staged hn hs List.not_mem_nil
  refine ⟨?_, haside.kept, haside.self, haside.emptied, haside.sound.unqueued haside.self (not_leaf_of_staged hs),
    haside.tends, haside.proceeds⟩
  rw [hp]
  exact haside.sound

theorem clearLeaf_spec (hK : Custody K K') (h : Sound K ⟨none, anchor, [], none, none⟩ t)
    (hn : t.nodes.get? id = some n) (hr : n.role = .leaf) :
    Ends (clearTheWay id .leaf) t (fun _ t' => Cleared K id n t t') fun _ _ => False := by
  have hs : n.role.staged? = none := by rw [hr]; rfl
  have hout : ∀ w, id ∉ t.staged w := by
    intro w hmem
    obtain ⟨i, hi⟩ := List.mem_iff_getElem?.1 hmem
    obtain ⟨-, m, hm, hs', -⟩ := h.places.listed w i id hi
    cases hn.symm.trans hm
    rw [hs] at hs'
    cases hs'
  unfold clearTheWay
  rw [ends_bind]
  refine (flush_spec hK.toRedemption h .siblings).mono ?_ fun _ _ h => h
  rintro _ t₁ ⟨h₁, nodes₁, frontier₁, rfl, hmatch₁, hsame₁, hids₁⟩
  have hn₁ : nodes₁.get? id = some n := (hsame₁ id (hout .siblings)).trans hn
  rw [ends_bind]
  refine (flush_spec hK.toRedemption h₁ .children).mono ?_ fun _ _ h => h
  rintro _ t₂ ⟨h₂, nodes₂, frontier₂, rfl, hmatch₂, hsame₂, hids₂⟩
  have hn₂ : nodes₂.get? id = some n := (hsame₂ id (hout .children)).trans hn₁
  have htends := trans_of (Tends (some id)) (Tends.of_flush h.places hmatch₁ hsame₁ hids₁)
    (Tends.of_flush h₁.places hmatch₂ hsame₂ hids₂)
  have hremoved : ∀ k, some id ≠ some k → (k ∈ (frontier₂.remove id).2.ids ↔ k ∈ frontier₂.ids) := fun k hk =>
    Frontier.mem_ids_remove h₂.queue.nodup fun he => hk (congrArg some he.symm)
  have htaken := trans_of (Tends (some id)) htends (Tends.of_frontier fun k _ _ hk => hremoved k hk)
  obtain ⟨hqueue, hfree⟩ := h₂.queue.remove id
  have hapart := ((h₂.reanchor rfl n.parent).setApart hn₂ hs)
  have hmatch := Matched.trans (S := Shelved) (fun _ _ _ => Shelved.trans) hmatch₁ hmatch₂
  simp only [ends_bind, ends_modifyGet]
  split
  · exact ⟨{ hapart with queue := hqueue }, .shelve hmatch, hn₂, rfl, hfree, htaken, .shelve hmatch⟩
  · exact ⟨{ hapart with queue := hqueue }, .shelve hmatch, hn₂, rfl, hfree, ⟨htaken.live, htaken.strays⟩,
      .shelve hmatch⟩

theorem clearTheWay_spec (hK : Custody K K') (h : Sound K ⟨none, anchor, [], none, none⟩ t)
    (hn : t.nodes.get? id = some n) (hw : n.role.name.isWaiting = true) :
    Ends (clearTheWay id n.role.name) t (fun _ t' => Cleared K id n t t') fun _ _ => False := by
  have hchild := clearChild_spec hK h hn
  have hsibling := clearSibling_spec hK h hn
  have hleaf := clearLeaf_spec hK h hn
  cases hrole : n.role <;> rw [hrole] at hchild hsibling hleaf hw
  case child pos => exact hchild pos rfl
  case sibling pos => exact hsibling pos rfl
  case leaf => exact hleaf rfl
  all_goals cases hw

end Tree

end BranchBound
