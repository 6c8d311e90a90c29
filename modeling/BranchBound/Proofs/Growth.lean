import BranchBound.Proofs.Calm
import BranchBound.Proofs.Retirement
import BranchBound.Tree.Growth

namespace BranchBound

variable {σ : Type} [Solver σ] {cmp : NodeOrder} {a b : Arena (Node σ)} {root up tip anchor : Option Handle}
  {id : Handle} {n m : Node σ} {pos : Nat}

/-- A node as it is created below `up`, at place `pos` of the children. -/
structure Newborn (up : Option Handle) (pos : Nat) (m : Node σ) : Prop where
  parent : m.parent = up
  log : m.log = .empty
  share : m.share = none
  onPath : m.onPath = false
  role : m.role = .child pos

structure Joined (a b : Arena (Node σ)) (id : Handle) (m : Node σ) : Prop where
  vacant : a.get? id = none
  get : ∀ k, b.get? k = if k = id then some m else a.get? k
  count : ∀ p : Node σ → Bool, b.count p = a.count p + (p m).toNat
  bases : m.basis? = none → (bases b).Perm (bases a)
  size : b.size = a.size + 1

theorem joined_of_insert (ha : a.WellFormed) (hi : a.insert m = (id, b)) : Joined a b id m where
  vacant := (Arena.get?_insert ha hi).1
  get := (Arena.get?_insert ha hi).2
  count := Arena.count_insert ha hi
  bases hm := by
    refine ((Arena.toList_insert_perm ha hi).filterMap _).trans ?_
    exact .of_eq (List.filterMap_cons_none hm)
  size := by
    rw [(ha.insert hi).size_eq, (Arena.toList_insert_perm ha hi).length_eq, List.length_cons, ← ha.size_eq]

namespace Joined

theorem old (h : Joined a b id m) {k : Handle} (hn : a.get? k = some n) : b.get? k = some n := by
  rw [h.get, if_neg, hn]
  rintro rfl
  rw [h.vacant] at hn
  cases hn

theorem self (h : Joined a b id m) : b.get? id = some m := by rw [h.get, if_pos rfl]

theorem cases (h : Joined a b id m) {k : Handle} (hn : b.get? k = some n) :
    k = id ∧ n = m ∨ a.get? k = some n := by
  rw [h.get] at hn
  split at hn
  · rename_i hk
    cases hn
    exact .inl ⟨hk, rfl⟩
  · exact .inr hn

theorem nearest (h : Joined a b id m) {q : Role σ → Bool} {x g : Option Handle} (hg : Nearest a q x g) :
    Nearest b q x g :=
  hg.transfer (P := fun _ => True) (fun _ _ => trivial) fun _ n hn _ =>
    ⟨n, h.old hn, rfl, rfl, fun _ _ => trivial⟩

theorem forest (h : Joined a b id m) (hf : Forest a root)
    (hp : match m.parent with
      | none => root = none ∧ m.depth = 0
      | some p => ∃ n, a.get? p = some n ∧ m.depth = n.depth + 1) :
    Forest b (if m.parent.isNone then some id else root) where
  rooted k n hn hk := by
    obtain ⟨rfl, rfl⟩ | hn := h.cases hn
    · rw [hk] at hp ⊢
      exact ⟨rfl, hp.2⟩
    · obtain ⟨hroot, hd⟩ := hf.rooted k n hn hk
      cases hm : m.parent with
      | none =>
          rw [hm] at hp
          cases hp.1.symm.trans hroot
      | some p => exact ⟨hroot, hd⟩
  hung k n p hn hk := by
    obtain ⟨rfl, rfl⟩ | hn := h.cases hn
    · rw [hk] at hp
      obtain ⟨o, ho, hd⟩ := hp
      exact ⟨o, h.old ho, hd⟩
    · obtain ⟨o, ho, hd⟩ := hf.hung k n p hn hk
      exact ⟨o, h.old ho, hd⟩
  root_live k hk := by
    cases hm : m.parent with
    | none =>
        rw [hm] at hk
        cases hk
        exact ⟨m, h.self, hm⟩
    | some p =>
        rw [hm] at hk
        obtain ⟨n, hn, hk⟩ := hf.root_live k hk
        exact ⟨n, h.old hn, hk⟩

theorem walk (h : Joined a b id m) {path : List Handle} (hw : Walk a path) (ho : m.onPath = false) :
    Walk b path where
  step i k hk := by
    obtain ⟨n, hn, hrest⟩ := hw.step i k hk
    exact ⟨n, h.old hn, hrest⟩
  flagged k n hn hk := by
    obtain ⟨rfl, rfl⟩ | hn := h.cases hn
    · cases ho.symm.trans hk
    · exact hw.flagged k n hn hk

theorem family (h : Joined a b id m) (hf : Family a [] none) (ha : Forest a root) (hm : Newborn up pos m)
    (hp : ∀ p, up = some p → ∃ n, a.get? p = some n ∧ n.role = .active) : Family b [] none := by
  have hparent : ∀ k n p o, a.get? k = some n → n.parent = some p → b.get? p = some o →
      a.get? p = some o := by
    intro k n p o hn hk ho
    obtain ⟨o', ho', -⟩ := ha.hung k n p hn hk
    rw [← ho, h.old ho', ho']
  constructor
  case counted =>
    intro k n c hn hc
    obtain ⟨rfl, rfl⟩ | hn := h.cases hn
    · rw [hm.role] at hc
      cases hc
    · have hne : decide (m.parent = some k) = false := by
        refine decide_eq_false fun hk => ?_
        obtain ⟨n', hn', hact⟩ := hp k (hm.parent.symm.trans hk)
        cases hn.symm.trans hn'
        rw [hact] at hc
        cases hc
      rw [h.count, hne]
      exact hf.counted k n c hn hc
  case parent =>
    intro k n p o hn hk ho
    obtain ⟨rfl, rfl⟩ | hn := h.cases hn
    · obtain ⟨n', hn', hact⟩ := hp p (hm.parent.symm.trans hk)
      cases (h.old hn').symm.trans ho
      exact .inl (by rw [hact]; rfl)
    · exact hf.parent k n p o hn hk (hparent k n p o hn hk ho)
  case fresh =>
    intro k n p o hn hk ho hact
    obtain ⟨rfl, rfl⟩ | hn := h.cases hn
    · exact ⟨by rw [hm.role]; rfl, hm.share⟩
    · exact hf.fresh k n p o hn hk (hparent k n p o hn hk ho) hact
  case spent =>
    intro k n hn hx
    obtain ⟨rfl, rfl⟩ | hn := h.cases hn
    · rw [hm.role] at hx
      cases hx
    · exact hf.spent k n hn hx
  case entered =>
    intro k n hn ho hw
    obtain ⟨rfl, rfl⟩ | hn := h.cases hn
    · cases hm.onPath.symm.trans ho
    · exact hf.entered k n hn ho hw

theorem places (h : Joined a b id m) {staged staged' : Staging → List Handle}
    (hs : Places a [] tip anchor staged) (hm : Newborn tip (staged .children).length m)
    (hc : staged' .children = staged .children ++ [id]) (hsib : staged' .siblings = staged .siblings) :
    Places b [] tip anchor staged' where
  listed w i k hk := by
    have hcases : (staged w)[i]? = some k ∨ w = .children ∧ i = (staged .children).length ∧ k = id := by
      cases w with
      | siblings =>
          rw [hsib] at hk
          exact .inl hk
      | children =>
          rw [hc, List.getElem?_append] at hk
          split at hk
          · exact .inl hk
          · rename_i hi
            obtain ⟨hlt, rfl⟩ := List.getElem?_eq_some_iff.1 hk
            rw [List.length_singleton] at hlt
            exact .inr ⟨rfl, by omega, List.getElem_singleton _⟩
    rcases hcases with hk | ⟨rfl, rfl, rfl⟩
    · obtain ⟨hl, n, hn, hrest⟩ := hs.listed w i k hk
      exact ⟨hl, n, h.old hn, hrest⟩
    · exact ⟨List.not_mem_nil, m, h.self, by rw [hm.role]; rfl, hm.parent⟩
  placed k n w i hn hk hl := by
    obtain ⟨rfl, rfl⟩ | hn := h.cases hn
    · rw [hm.role] at hk
      cases hk
      rw [hc]
      exact List.getElem?_concat_length
    · have hold := hs.placed k n w i hn hk hl
      cases w with
      | siblings => rw [hsib, hold]
      | children => rw [hc, List.getElem?_append_left (List.getElem?_eq_some_iff.1 hold).1, hold]

theorem sharing (h : Joined a b id m) (hs : Sharing a none) (hm : Newborn up pos m) : Sharing b none where
  counted f n w hn hw := by
    obtain ⟨rfl, rfl⟩ | hn := h.cases hn
    · rw [hm.role] at hw
      cases hw
    · have hne : decide (m.share = some f) = false := decide_eq_false (by rw [hm.share]; exact nofun)
      rw [h.count, hne]
      exact hs.counted f n w hn hw
  alive f n w hn hw := by
    obtain ⟨rfl, rfl⟩ | hn := h.cases hn
    · rw [hm.role] at hw
      cases hw
    · exact hs.alive f n w hn hw
  holder k n f hn hf := by
    obtain ⟨rfl, rfl⟩ | hn := h.cases hn
    · cases hm.share.symm.trans hf
    · exact (hs.holder k n f hn hf).imp_right h.nearest
  due_keeps f hf := nomatch hf

theorem logs (h : Joined a b id m) {size : Nat} (hl : Logs a size) (hm : Newborn up pos m) : Logs b size where
  inRange k n c hn hc := by
    obtain ⟨rfl, rfl⟩ | hn := h.cases hn
    · rw [hm.log] at hc
      cases hc
    · exact hl.inRange k n c hn hc
  unsealed k n hn hr := by
    obtain ⟨rfl, rfl⟩ | hn := h.cases hn
    · rw [hm.log]
      rfl
    · exact hl.unsealed k n hn hr

theorem acting (h : Joined a b id m) {actor : Option Handle} (ha : Acting a actor) (hm : m.role.name ≠ .active) :
    Acting b actor := by
  intro k
  rw [ha k]
  constructor
  · rintro ⟨n, hn, hr⟩
    exact ⟨n, h.old hn, hr⟩
  · rintro ⟨n, hn, hr⟩
    obtain ⟨rfl, rfl⟩ | hn := h.cases hn
    · exact absurd hr hm
    · exact ⟨n, hn, hr⟩

end Joined

namespace Tree

variable {K K' : Charge σ} {start : Array Interval} {t t' : Tree σ cmp}

/-- A node that nobody looks at yet is new. -/
structure Sprouts (t t' : Tree σ cmp) (id : Handle) : Prop where
  joined : ∃ m, Joined t.nodes t'.nodes id m ∧ m.role.name = .child
  frontier : t'.frontier = t.frontier
  path : t'.path = t.path
  sizes : t'.sizes = t.sizes
  active : t'.active = t.active
  lpFork : t'.lpFork = t.lpFork
  subroot : t'.subroot = t.subroot
  correctDepth : t'.correctDepth = t.correctDepth
  focus : t'.focus = t.focus
  lp : t'.lp = t.lp
  domains : t'.domains = t.domains
  numbered : ∀ m, t'.nodes.get? id = some m → m.number = t.nextNumber
  unlogged : ∀ m, t'.nodes.get? id = some m → m.log.changes = []
  tally : t'.tally = (t.nextNumber + 1, t.stats.created + 1, t.stats.activations)

theorem Resting.origin_ok (h : Resting K start t) (bound : Binary64) :
    (t.origin bound = .error (.misuse .createAway) ∧ t.active = none ∧ t.root ≠ none) ∨
      ∃ parent depth bound', t.origin bound = .ok (parent, depth, bound') ∧ parent = t.active ∧
        match parent with
        | none => t.root = none ∧ depth = 0
        | some p => ∃ n, t.nodes.get? p = some n ∧ n.role = .active ∧ depth = n.depth + 1 := by
  unfold origin
  cases ha : t.active with
  | none =>
      cases hr : t.root with
      | none => exact .inr ⟨none, 0, bound, rfl, rfl, rfl, rfl⟩
      | some r => exact .inl ⟨rfl, rfl, nofun⟩
  | some a =>
      obtain ⟨n, hn, hact, -⟩ := h.actor ha
      simp only [node_eq_ok.2 hn]
      exact .inr ⟨some a, n.depth + 1, Binary64.larger bound n.lowerBound, rfl, rfl, n, hn, hact, rfl⟩

theorem Resting.join (hK : Custody K K') (h : Resting K start t) {nodes : Arena (Node σ)}
    (hi : t.nodes.insert m = (id, nodes)) (hm : Newborn t.active t.children.length m)
    (hp : match t.active with
      | none => t.root = none ∧ m.depth = 0
      | some p => ∃ n, t.nodes.get? p = some n ∧ n.role = .active ∧ m.depth = n.depth + 1)
    (number : Nat) (journal : Array Event) :
    Resting K start { t with
      nodes := nodes
      nextNumber := number
      children := t.children ++ [id]
      root := if m.parent.isNone then some id else t.root
      stats := { t.stats with created := t.stats.created + 1 }
      journal := journal } := by
  have hj := joined_of_insert h.wellFormed hi
  have hbasis : m.basis? = none := by
    rw [Node.basis?, hm.role]
    rfl
  have hname : m.role.name = .child := by rw [hm.role]; rfl
  have hforest : Forest nodes (if m.parent.isNone then some id else t.root) := by
    refine hj.forest h.forest ?_
    rw [hm.parent]
    revert hp
    cases t.active with
    | none => exact fun h => h
    | some p =>
        rintro ⟨n, hn, -, hd⟩
        exact ⟨n, hn, hd⟩
  have hfamily : Family nodes [] none := by
    refine hj.family h.family h.forest hm fun p hpar => ?_
    rw [hpar] at hp
    obtain ⟨n, hn, hact, -⟩ := hp
    exact ⟨n, hn, hact⟩
  have hplaces : Places nodes [] t.tip t.above
      ({ t with children := t.children ++ [id] } : Tree σ cmp).staged := by
    refine hj.places h.places ?_ rfl rfl
    rw [← h.active_eq]
    exact hm
  have hqueue : Queue nodes t.frontier := by
    refine ⟨h.queue.nodup, fun e he => ?_⟩
    obtain ⟨n, hn, hrest⟩ := h.queue.entry e he
    exact ⟨n, hj.old hn, hrest⟩
  have hbooks : Books nodes { t.stats with created := t.stats.created + 1 } := by
    refine ⟨?_, ?_⟩
    · rw [hj.size, ← Nat.add_assoc, ← h.books.nodes]
    · rw [(hj.bases hbasis).length_eq]
      exact h.books.bases
  have hchanges : changesAlong nodes t.path = changesAlong t.nodes t.path := by
    refine List.flatMap_congr fun k hk => ?_
    obtain ⟨n, hn⟩ := h.walk.live_of_mem hk
    unfold logOf
    rw [hn, hj.old hn]
  exact {
    wellFormed := h.wellFormed.insert hi
    forest := hforest
    walk := hj.walk h.walk hm.onPath
    family := hfamily
    places := hplaces
    queue := hqueue
    sharing := hj.sharing h.sharing hm
    logs := hj.logs h.logs hm
    books := hbooks
    acting := hj.acting h.acting (by rw [hname]; exact RoleName.noConfusion)
    custody := hK.perm _ _ _ (hj.bases hbasis).symm h.custody
    active_eq := h.active_eq
    sized := h.sized
    lpFork := hj.nearest h.lpFork
    subroot := hj.nearest h.subroot
    inForce := ⟨hchanges ▸ h.inForce.noted, hchanges ▸ h.inForce.vars_eq⟩ }

theorem create_spec (hK : Custody K K') (h : Resting K start t) (bound estimate : Binary64) :
    Ends (create bound estimate) t (fun id t' => Resting K start t' ∧ Sprouts t t' id)
      fun e t' => t' = t ∧ e = .misuse .createAway ∧ t.active = none ∧ t.root ≠ none := by
  unfold create
  rw [ends_bind, ends_read]
  obtain ⟨herr, hidle, hroot⟩ | ⟨parent, depth, bound', hok, rfl, hp⟩ := h.origin_ok bound
  · rw [herr]
    exact ⟨rfl, rfl, hidle, hroot⟩
  · rw [hok]
    simp only [ends_bind, ends_get]
    let m : Node σ := {
      number := t.nextNumber
      parent := t.active
      depth := depth
      lowerBound := bound'
      estimate := estimate
      constraints := []
      log := .empty
      share := none
      onPath := false
      role := .child t.children.length }
    have hm : Newborn t.active t.children.length m := ⟨rfl, rfl, rfl, rfl, rfl⟩
    rcases hi : t.nodes.insert m with ⟨id, nodes⟩
    have hjoined := joined_of_insert h.wellFormed hi
    have hself : ∀ o, nodes.get? id = some o → o = m := fun o ho => Option.some.inj (ho.symm.trans hjoined.self)
    exact ⟨h.join hK hi hm hp _ _, ⟨m, hjoined, rfl⟩, rfl, rfl, rfl, rfl, rfl, rfl, rfl, rfl, rfl, rfl,
      fun o ho => by rw [hself o ho], fun o ho => by rw [hself o ho]; rfl, rfl⟩

end Tree

end BranchBound
