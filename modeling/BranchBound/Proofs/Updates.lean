import BranchBound.Proofs.Invariant

namespace BranchBound

variable {σ : Type} [Solver σ] {cmp : NodeOrder} {a b : Arena (Node σ)} {F : Handle → Node σ → Node σ}
  {root tip anchor actor due lost : Option Handle} {loose : List Handle} {path : List Handle}
  {staged : Staging → List Handle} {f : Frontier cmp} {size : Nat} {stats : Stats}

namespace Arena

variable {α : Type} {a b : Arena α} {h : Handle} {x y : α} {P : α → α → Prop}

theorem forall_set (hx : a.get? h = some x) (hy : P x y) (hP : ∀ z, P z z) :
    ∀ k z, a.get? k = some z → P z (if k = h then y else z) := by
  intro k z hz
  by_cases hk : k = h
  · subst hk
    cases hx.symm.trans hz
    rwa [if_pos rfl]
  · rw [if_neg hk]
    exact hP z

theorem get?_adjust_some {F : Handle → α → α} (hy : (a.adjust F).get? h = some y) :
    ∃ x, a.get? h = some x ∧ F h x = y := by
  rw [get?_adjust] at hy
  exact Option.map_eq_some_iff.1 hy

theorem get?_adjust_of {F : Handle → α → α} (hx : a.get? h = some x) :
    (a.adjust F).get? h = some (F h x) := by
  rw [get?_adjust, hx]
  rfl

end Arena

/-- The same nodes are live, and each stands in the relation `R` to what it was. -/
structure Matched (R : Node σ → Node σ → Prop) (a b : Arena (Node σ)) : Prop where
  back : Carried R a b
  forth : ∀ k n, a.get? k = some n → ∃ m, b.get? k = some m ∧ R n m

namespace Matched

variable {R S T : Node σ → Node σ → Prop} {c : Arena (Node σ)} {h : Handle} {n m : Node σ}

theorem refl (hR : ∀ n, R n n) (a : Arena (Node σ)) : Matched R a a where
  back := .refl hR a
  forth _ n hn := ⟨n, hn, hR n⟩

theorem trans (hT : ∀ n m k, R n m → S m k → T n k) (h : Matched R a b) (h' : Matched S b c) :
    Matched T a c where
  back := h.back.trans hT h'.back
  forth k n hn := by
    obtain ⟨m, hm, hnm⟩ := h.forth k n hn
    obtain ⟨o, ho, hmo⟩ := h'.forth k m hm
    exact ⟨o, ho, hT n m o hnm hmo⟩

theorem mono (hS : ∀ n m, R n m → S n m) (h : Matched R a b) : Matched S a b where
  back := h.back.mono hS
  forth k n hn := by
    obtain ⟨m, hm, hnm⟩ := h.forth k n hn
    exact ⟨m, hm, hS n m hnm⟩

theorem adjust (hF : ∀ k n, a.get? k = some n → R n (F k n)) : Matched R a (a.adjust F) where
  back := .adjust hF
  forth k n hn := ⟨_, Arena.get?_adjust_of hn, hF k n hn⟩

theorem set (hR : ∀ n, R n n) (hn : a.get? h = some n) (hm : R n m) : Matched R a (a.set h m) := by
  rw [Arena.set_eq_adjust]
  exact adjust (Arena.forall_set hn hm hR)

end Matched

/-- Nothing but the role differs, and whether the log is sealed. -/
def Recast (n m : Node σ) : Prop :=
  m = { n with role := m.role, log := ⟨n.log.changes, m.log.isSealed⟩ }

namespace Recast

variable {n m : Node σ}

theorem refl (n : Node σ) : Recast n n := rfl

theorem number (h : Recast n m) : m.number = n.number := by rw [h]

theorem parent (h : Recast n m) : m.parent = n.parent := by rw [h]

theorem depth (h : Recast n m) : m.depth = n.depth := by rw [h]

theorem onPath (h : Recast n m) : m.onPath = n.onPath := by rw [h]

theorem share (h : Recast n m) : m.share = n.share := by rw [h]

theorem key (h : Recast n m) : m.key = n.key := by rw [h]; rfl

theorem changes (h : Recast n m) : m.log.changes = n.log.changes := by rw [h]

end Recast

structure Steady (n m : Node σ) : Prop where
  body : m = { n with share := m.share, role := m.role }
  name : m.role.name = n.role.name
  staged : m.role.staged? = n.role.staged?
  openChildren : m.role.openChildren? = n.role.openChildren?
  layer : m.role.layer = n.role.layer

namespace Steady

variable {n m k : Node σ}

theorem refl (n : Node σ) : Steady n n := ⟨rfl, rfl, rfl, rfl, rfl⟩

theorem trans (h : Steady n m) (h' : Steady m k) : Steady n k where
  body := by rw [h'.body, h.body]
  name := h'.name.trans h.name
  staged := h'.staged.trans h.staged
  openChildren := h'.openChildren.trans h.openChildren
  layer := h'.layer.trans h.layer

theorem parent (h : Steady n m) : m.parent = n.parent := by rw [h.body]

theorem depth (h : Steady n m) : m.depth = n.depth := by rw [h.body]

theorem onPath (h : Steady n m) : m.onPath = n.onPath := by rw [h.body]

theorem log (h : Steady n m) : m.log = n.log := by rw [h.body]

theorem key (h : Steady n m) : m.key = n.key := by rw [h.body]; rfl

theorem kin (h : Steady n m) : Kin n m := ⟨⟨h.parent, h.depth, h.layer⟩, congrArg _ h.log⟩

theorem withWarmStart (n : Node σ) (w : WarmStart (Solver.Basis σ)) :
    Steady n { n with role := n.role.withWarmStart w } where
  body := rfl
  name := Role.name_withWarmStart w n.role
  staged := Role.staged?_withWarmStart w n.role
  openChildren := Role.openChildren?_withWarmStart w n.role
  layer := Role.layer_withWarmStart w n.role

theorem withShare (n : Node σ) (x : Option Handle) : Steady n { n with share := x } :=
  ⟨rfl, rfl, rfl, rfl, rfl⟩

end Steady

theorem Matched.steady_trans {c : Arena (Node σ)} (h : Matched Steady a b) (h' : Matched Steady b c) :
    Matched Steady a c := Matched.trans (S := Steady) (fun _ _ _ => Steady.trans) h h'

/-- Updates of several live nodes are one change of the arena. -/
theorem Tree.updateAll_spec {β : Type} {t : Tree σ cmp} (key : β → Handle)
    (upd : β → Node σ → Node σ) {xs : List β} (hn : (xs.map key).Nodup)
    (hlive : ∀ x ∈ xs, ∃ n, t.nodes.get? (key x) = some n) :
    Ends (xs.forM fun x => updateNode (key x) (upd x)) t
      (fun _ t' => ∃ F, t' = { t with nodes := t.nodes.adjust F } ∧
        (∀ x ∈ xs, ∀ n, F (key x) n = upd x n) ∧ ∀ k n, k ∉ xs.map key → F k n = n)
      fun _ _ => False := by
  induction xs generalizing t with
  | nil =>
      refine ⟨fun _ n => n, ?_, fun _ hx => (List.not_mem_nil hx).elim, fun _ _ _ => rfl⟩
      rw [Arena.adjust_self]
  | cons x xs ih =>
      rw [List.map_cons, List.nodup_cons] at hn
      obtain ⟨n, hx⟩ := hlive x List.mem_cons_self
      rw [List.forM, ends_bind, ends_updateNode hx]
      refine (ih hn.2 ?_).mono ?_ fun _ _ h => h
      · intro y hy
        obtain ⟨m, hm⟩ := hlive y (List.mem_cons_of_mem x hy)
        have hne : key y ≠ key x := fun he => hn.1 (he ▸ List.mem_map_of_mem hy)
        refine ⟨m, ?_⟩
        change (t.nodes.set (key x) _).get? (key y) = some m
        rw [Arena.get?_set_ne _ hne, hm]
      · rintro _ t' ⟨F, rfl, hF, hrest⟩
        refine ⟨fun k m => if k = key x then upd x m else F k m, ?_, ?_, ?_⟩
        · have hset : (t.nodes.set (key x) (upd x n)).adjust F =
              t.nodes.adjust fun k m => if k = key x then upd x m else F k m := by
            rw [Arena.set_eq_adjust, Arena.adjust_adjust]
            apply Arena.adjust_congr
            intro k m hm
            by_cases hk : k = key x
            · subst hk
              cases hx.symm.trans hm
              rw [if_pos rfl, if_pos rfl]
              exact hrest _ _ hn.1
            · rw [if_neg hk, if_neg hk]
          rw [← hset]
        · intro y hy m
          rcases List.mem_cons.1 hy with rfl | hy
          · exact if_pos rfl
          · have hne : key y ≠ key x := fun he => hn.1 (he ▸ List.mem_map_of_mem hy)
            exact (if_neg hne).trans (hF y hy m)
        · intro k m hk
          rw [List.map_cons, List.mem_cons, not_or] at hk
          exact (if_neg hk.1).trans (hrest k m hk.2)

section Adjust

theorem Nearest.adjust {q : Role σ → Bool} {x g : Option Handle}
    (hF : ∀ k n, a.get? k = some n → (F k n).parent = n.parent ∧ q (F k n).role = q n.role)
    (h : Nearest a q x g) : Nearest (a.adjust F) q x g := by
  refine h.transfer (P := fun _ => True) (fun _ _ => trivial) ?_
  intro k n hn _
  obtain ⟨hp, hq⟩ := hF k n hn
  exact ⟨_, Arena.get?_adjust_of hn, hp, hq, fun _ _ => trivial⟩

theorem Forest.adjust (hF : ∀ k n, a.get? k = some n → (F k n).parent = n.parent ∧ (F k n).depth = n.depth)
    (h : Forest a root) : Forest (a.adjust F) root where
  rooted k m hm hp := by
    obtain ⟨n, hn, rfl⟩ := Arena.get?_adjust_some hm
    rw [(hF k n hn).1] at hp
    rw [(hF k n hn).2]
    exact h.rooted k n hn hp
  hung k m p hm hp := by
    obtain ⟨n, hn, rfl⟩ := Arena.get?_adjust_some hm
    rw [(hF k n hn).1] at hp
    obtain ⟨o, ho, hd⟩ := h.hung k n p hn hp
    refine ⟨_, Arena.get?_adjust_of ho, ?_⟩
    rw [(hF k n hn).2, (hF p o ho).2, hd]
  root_live k hk := by
    obtain ⟨n, hn, hp⟩ := h.root_live k hk
    exact ⟨_, Arena.get?_adjust_of hn, (hF k n hn).1.trans hp⟩

theorem Walk.adjust (hF : ∀ k n, a.get? k = some n →
      (F k n).parent = n.parent ∧ (F k n).depth = n.depth ∧ (F k n).onPath = n.onPath)
    (h : Walk a path) : Walk (a.adjust F) path where
  step i s hs := by
    obtain ⟨n, hn, hd, ho, hp⟩ := h.step i s hs
    obtain ⟨hp', hd', ho'⟩ := hF _ n hn
    exact ⟨_, Arena.get?_adjust_of hn, hd'.trans hd, ho'.trans ho, hp'.trans hp⟩
  flagged k m hm ho := by
    obtain ⟨n, hn, rfl⟩ := Arena.get?_adjust_some hm
    rw [(hF k n hn).2.2] at ho
    exact h.flagged k n hn ho

structure SameFamily (n m : Node σ) : Prop where
  parent : m.parent = n.parent
  onPath : m.onPath = n.onPath
  share : n.share = none → m.share = none
  name : m.role.name = n.role.name
  openChildren : m.role.openChildren? = n.role.openChildren?

theorem isExhausted_congr {r r' : Role σ} (hn : r'.name = r.name)
    (ho : r'.openChildren? = r.openChildren?) : r'.isExhausted = r.isExhausted := by
  have hr : ∀ r : Role σ, r.isExhausted = (decide (r.name = .deadend) || r.openChildren? == some 0) := by
    intro r
    cases r <;> rfl
  rw [hr, hr, hn, ho]

theorem Family.adjust (hF : ∀ k n, a.get? k = some n → SameFamily n (F k n))
    (h : Family a loose lost) : Family (a.adjust F) loose lost where
  counted k m c hm hc := by
    obtain ⟨n, hn, rfl⟩ := Arena.get?_adjust_some hm
    rw [(hF k n hn).openChildren] at hc
    rw [h.counted k n c hn hc, Arena.count_adjust_congr fun k n hn => by rw [(hF k n hn).parent]]
  parent k m p m' hm hp hm' := by
    obtain ⟨n, hn, rfl⟩ := Arena.get?_adjust_some hm
    obtain ⟨n', hn', rfl⟩ := Arena.get?_adjust_some hm'
    rw [(hF k n hn).parent] at hp
    rw [(hF p n' hn').name, (hF p n' hn').openChildren]
    exact h.parent k n p n' hn hp hn'
  fresh k m p m' hm hp hm' ha := by
    obtain ⟨n, hn, rfl⟩ := Arena.get?_adjust_some hm
    obtain ⟨n', hn', rfl⟩ := Arena.get?_adjust_some hm'
    rw [(hF k n hn).parent] at hp
    rw [(hF p n' hn').name] at ha
    rw [(hF k n hn).name]
    exact (h.fresh k n p n' hn hp hn' ha).imp_right (hF k n hn).share
  spent k m hm he := by
    obtain ⟨n, hn, rfl⟩ := Arena.get?_adjust_some hm
    rw [isExhausted_congr (hF k n hn).name (hF k n hn).openChildren] at he
    rw [(hF k n hn).onPath]
    exact h.spent k n hn he
  entered k m hm ho hw := by
    obtain ⟨n, hn, rfl⟩ := Arena.get?_adjust_some hm
    rw [(hF k n hn).onPath] at ho
    rw [(hF k n hn).name] at hw
    exact h.entered k n hn ho hw

theorem Places.adjust (hF : ∀ k n, a.get? k = some n →
      (F k n).parent = n.parent ∧ (F k n).role.staged? = n.role.staged?)
    (h : Places a loose tip anchor staged) : Places (a.adjust F) loose tip anchor staged where
  listed w i k hk := by
    obtain ⟨hl, n, hn, hs, hp⟩ := h.listed w i k hk
    obtain ⟨hp', hs'⟩ := hF k n hn
    exact ⟨hl, _, Arena.get?_adjust_of hn, hs'.trans hs, hp'.trans hp⟩
  placed k m w i hm hs hl := by
    obtain ⟨n, hn, rfl⟩ := Arena.get?_adjust_some hm
    rw [(hF k n hn).2] at hs
    exact h.placed k n w i hn hs hl

theorem Places.loosen {loose' : List Handle} (h : Places a loose tip anchor staged)
    (hl : ∀ k ∈ loose, k ∈ loose')
    (hn : ∀ k ∈ loose', k ∉ loose → ∀ w (i : Nat), (staged w)[i]? ≠ some k) :
    Places a loose' tip anchor staged where
  listed w i k hk := by
    obtain ⟨hloose, hrest⟩ := h.listed w i k hk
    exact ⟨fun hk' => hn k hk' hloose w i hk, hrest⟩
  placed k n w i hn hs hk := h.placed k n w i hn hs fun hk' => hk (hl k hk')

theorem Family.loosen {loose' : List Handle} (h : Family a loose lost)
    (hl : ∀ k ∈ loose, k ∈ loose') : Family a loose' lost :=
  { h with
    spent := fun k n hn hx => (h.spent k n hn hx).imp_right (hl k)
    entered := fun k n hn ho hw => hl k (h.entered k n hn ho hw) }

theorem Queue.adjust (hF : ∀ k n, a.get? k = some n → n.role.name = .leaf →
      (F k n).key = n.key ∧ (F k n).role.name = .leaf)
    (h : Queue a f) : Queue (a.adjust F) f where
  nodup := h.nodup
  entry e he := by
    obtain ⟨n, hn, hr, hk⟩ := h.entry e he
    obtain ⟨hk', hr'⟩ := hF _ n hn hr
    exact ⟨_, Arena.get?_adjust_of hn, hr', hk.trans hk'.symm⟩

theorem Queue.of_filter {f' : Frontier cmp} {p : Queued → Bool} (h : Queue a f)
    (hp : f'.toList.Perm (f.toList.filter p)) : Queue a f' where
  nodup := by
    refine ((hp.map Queued.id).nodup_iff).2 ?_
    exact h.nodup.sublist (List.filter_sublist.map Queued.id)
  entry e he := h.entry e (List.mem_of_mem_filter (hp.mem_iff.1 he))

/-- Entries are drained by the keys they are queued under, which are those of their nodes. -/
theorem Queue.drain (h : Queue a f) (p : NodeKey → Bool) :
    (f.drain p).1.Nodup ∧ (∀ k, k ∈ (f.drain p).1 ↔ k ∈ f.ids ∧ ∃ n, a.get? k = some n ∧ p n.key = true) ∧
      (∀ k ∈ (f.drain p).1, k ∉ (f.drain p).2.ids) ∧ Queue a (f.drain p).2 := by
  have hfst := f.extract_fst fun q => p q.key
  have hperm := f.toList_extract_perm fun q => p q.key
  have hmem : ∀ k, k ∈ (f.drain p).1 ↔ k ∈ f.ids ∧ ∃ n, a.get? k = some n ∧ p n.key = true := by
    intro k
    unfold Frontier.drain
    rw [hfst, List.mem_map]
    constructor
    · rintro ⟨e, he, rfl⟩
      obtain ⟨he, hp⟩ := List.mem_filter.1 he
      obtain ⟨n, hn, -, hkey⟩ := h.entry e he
      exact ⟨List.mem_map_of_mem he, n, hn, hkey ▸ hp⟩
    · rintro ⟨hk, n, hn, hp⟩
      obtain ⟨e, he, rfl⟩ := List.mem_map.1 hk
      obtain ⟨n', hn', -, hkey⟩ := h.entry e he
      cases hn.symm.trans hn'
      exact ⟨e, List.mem_filter.2 ⟨he, by rw [hkey, hp]⟩, rfl⟩
  refine ⟨?_, hmem, fun k hk hrest => ?_, h.of_filter hperm⟩
  · unfold Frontier.drain
    rw [hfst]
    exact h.nodup.sublist (List.filter_sublist.map Queued.id)
  · obtain ⟨e, he, rfl⟩ := List.mem_map.1 hrest
    obtain ⟨he, hp⟩ := List.mem_filter.1 (hperm.mem_iff.1 he)
    obtain ⟨n, hn, -, hkey⟩ := h.entry e he
    obtain ⟨-, n', hn', hp'⟩ := (hmem e.id).1 hk
    cases hn.symm.trans hn'
    rw [hkey, hp'] at hp
    cases hp

theorem Queue.remove (h : Queue a f) (id : Handle) :
    Queue a (f.remove id).2 ∧ id ∉ (f.remove id).2.ids := by
  have hperm := Frontier.toList_remove_perm h.nodup id
  refine ⟨h.of_filter hperm, fun hid => ?_⟩
  obtain ⟨e, he, hid⟩ := List.mem_map.1 hid
  have := (List.mem_filter.1 (hperm.mem_iff.1 he)).2
  simp [hid] at this

theorem Queue.set {id : Handle} (h : Queue a f) (hid : id ∉ f.ids) (m : Node σ) : Queue (a.set id m) f where
  nodup := h.nodup
  entry e he := by
    obtain ⟨n, hn, hrest⟩ := h.entry e he
    refine ⟨n, ?_, hrest⟩
    rw [Arena.get?_set_ne _ (fun hk : e.id = id => hid (hk ▸ List.mem_map_of_mem he)), hn]

structure SameSharing (n m : Node σ) : Prop where
  parent : m.parent = n.parent
  share : m.share = n.share
  warmStart : m.role.warmStart? = n.role.warmStart?
  idle : n.share.isSome = true → n.role.name.isWaiting = true ∨ n.role.name = .active →
    m.role.name.isWaiting = true ∨ m.role.name = .active

theorem SameSharing.refl (n : Node σ) : SameSharing n n := ⟨rfl, rfl, rfl, fun _ h => h⟩

theorem isSnapshot_congr {r r' : Role σ} (h : r'.warmStart? = r.warmStart?) :
    r'.isSnapshot = r.isSnapshot := by
  rw [Bool.eq_iff_iff, Role.isSnapshot_iff, Role.isSnapshot_iff, h]

theorem Sharing.adjust (hF : ∀ k n, a.get? k = some n → SameSharing n (F k n))
    (h : Sharing a due) : Sharing (a.adjust F) due where
  counted k m w hm hw := by
    obtain ⟨n, hn, rfl⟩ := Arena.get?_adjust_some hm
    rw [(hF k n hn).warmStart] at hw
    rw [h.counted k n w hn hw, Arena.count_adjust_congr fun k n hn => by rw [(hF k n hn).share]]
  alive k m w hm hw := by
    obtain ⟨n, hn, rfl⟩ := Arena.get?_adjust_some hm
    rw [(hF k n hn).warmStart] at hw
    exact h.alive k n w hn hw
  holder k m g hm hg := by
    obtain ⟨n, hn, rfl⟩ := Arena.get?_adjust_some hm
    rw [(hF k n hn).share] at hg
    rw [(hF k n hn).parent]
    obtain ⟨hr, hnear⟩ := h.holder k n g hn hg
    refine ⟨(hF k n hn).idle (hg ▸ rfl) hr, hnear.adjust fun k n hn => ?_⟩
    exact ⟨(hF k n hn).parent, isSnapshot_congr (hF k n hn).warmStart⟩
  due_keeps k hk := by
    obtain ⟨n, w, hn, hw⟩ := h.due_keeps k hk
    exact ⟨_, w, Arena.get?_adjust_of hn, (hF k n hn).warmStart.trans hw⟩

theorem Logs.adjust (hF : ∀ k n, a.get? k = some n → (F k n).log.changes = n.log.changes ∧
      ((F k n).role.name = .child ∨ (F k n).role.name = .active → (F k n).log.isSealed = false))
    (h : Logs a size) : Logs (a.adjust F) size where
  inRange k m c hm hc := by
    obtain ⟨n, hn, rfl⟩ := Arena.get?_adjust_some hm
    rw [(hF k n hn).1] at hc
    exact h.inRange k n c hn hc
  unsealed k m hm hr := by
    obtain ⟨n, hn, rfl⟩ := Arena.get?_adjust_some hm
    exact (hF k n hn).2 hr

theorem bases_adjust (hF : ∀ k n, a.get? k = some n → (F k n).basis? = n.basis?) :
    (bases (a.adjust F)).Perm (bases a) := by
  unfold bases
  refine ((Arena.toList_adjust_perm F a).filterMap _).trans (List.Perm.of_eq ?_)
  rw [List.filterMap_map]
  refine List.filterMap_congr fun e he => ?_
  exact hF e.1 e.2 (Arena.mem_toList.1 he)

theorem Books.adjust (hF : ∀ k n, a.get? k = some n → (F k n).basis? = n.basis?)
    (h : Books a stats) : Books (a.adjust F) stats where
  nodes := h.nodes
  bases := by rw [(bases_adjust hF).length_eq, h.bases]

theorem Acting.adjust (hF : ∀ k n, a.get? k = some n → ((F k n).role.name = .active ↔ n.role.name = .active))
    (h : Acting a actor) : Acting (a.adjust F) actor := by
  intro k
  rw [h k]
  constructor
  · rintro ⟨n, hn, hr⟩
    exact ⟨_, Arena.get?_adjust_of hn, (hF k n hn).2 hr⟩
  · rintro ⟨m, hm, hr⟩
    obtain ⟨n, hn, rfl⟩ := Arena.get?_adjust_some hm
    exact ⟨n, hn, (hF k n hn).1 hr⟩

end Adjust

section Erase

variable {id : Handle} {n : Node σ}

theorem Nearest.child_of_ne {q : Role σ → Bool} {x : Option Handle} {g : Handle}
    (h : Nearest a q x (some g)) (hne : x ≠ some g) : ∃ k m, a.get? k = some m ∧ m.parent = some g := by
  generalize hg : some g = y at h hne ⊢
  induction h with
  | top => cases hg
  | here => exact absurd rfl hne
  | @above k m g' hm _ _ ih =>
      by_cases hp : m.parent = g'
      · exact ⟨k, m, hm, hp⟩
      · exact ih hg hp

theorem Forest.erase (he : a.erase id = some (n, b))
    (hc : ∀ k m, a.get? k = some m → m.parent ≠ some id) (h : Forest a root) :
    Forest b (if root = some id then none else root) where
  rooted k m hm hp := by
    rw [Arena.get?_of_erase he] at hm
    split at hm
    · cases hm
    · rename_i hk
      obtain ⟨hr, hd⟩ := h.rooted k m hm hp
      rw [if_neg (fun h => hk (Option.some.inj (hr.symm.trans h)))]
      exact ⟨hr, hd⟩
  hung k m p hm hp := by
    rw [Arena.get?_of_erase he] at hm
    split at hm
    · cases hm
    · obtain ⟨o, ho, hd⟩ := h.hung k m p hm hp
      refine ⟨o, ?_, hd⟩
      rw [Arena.get?_of_erase he, if_neg]
      · exact ho
      · rintro rfl
        exact hc k m hm hp
  root_live k hk := by
    split at hk
    · cases hk
    · rename_i hr
      obtain ⟨m, hm, hp⟩ := h.root_live k hk
      refine ⟨m, ?_, hp⟩
      rw [Arena.get?_of_erase he, if_neg (fun hid : k = id => hr (hid ▸ hk)), hm]

theorem Walk.erase (he : a.erase id = some (n, b)) (ho : n.onPath = false) (h : Walk a path) :
    Walk b path where
  step i s hs := by
    obtain ⟨m, hm, hd, hon, hp⟩ := h.step i s hs
    refine ⟨m, ?_, hd, hon, hp⟩
    rw [Arena.get?_of_erase he, if_neg]
    · exact hm
    · intro hk
      rw [hk, (Arena.erase_eq_some he).1] at hm
      cases hm
      rw [ho] at hon
      cases hon
  flagged k m hm hon := by
    rw [Arena.get?_of_erase he] at hm
    split at hm
    · cases hm
    · exact h.flagged k m hm hon

theorem Family.erase (he : a.erase id = some (n, b)) (h : Family a (id :: loose) none) :
    Family b loose n.parent where
  counted k m c hm hc := by
    rw [Arena.get?_of_erase he] at hm
    split at hm
    · cases hm
    · rw [h.counted k m c hm hc, Arena.count_erase he]
      rfl
  parent k m p m' hm hp hm' := by
    rw [Arena.get?_of_erase he] at hm hm'
    split at hm
    · cases hm
    · split at hm'
      · cases hm'
      · exact h.parent k m p m' hm hp hm'
  fresh k m p m' hm hp hm' ha := by
    rw [Arena.get?_of_erase he] at hm hm'
    split at hm
    · cases hm
    · split at hm'
      · cases hm'
      · exact h.fresh k m p m' hm hp hm' ha
  spent k m hm hx := by
    rw [Arena.get?_of_erase he] at hm
    split at hm
    · cases hm
    · rename_i hk
      exact (h.spent k m hm hx).imp_right fun hl => (List.mem_cons.1 hl).resolve_left hk
  entered k m hm ho hw := by
    rw [Arena.get?_of_erase he] at hm
    split at hm
    · cases hm
    · rename_i hk
      exact (List.mem_cons.1 (h.entered k m hm ho hw)).resolve_left hk

theorem Places.erase (he : a.erase id = some (n, b))
    (h : Places a (id :: loose) tip anchor staged) : Places b loose tip anchor staged where
  listed w i k hk := by
    obtain ⟨hl, m, hm, hs, hp⟩ := h.listed w i k hk
    rw [List.mem_cons, not_or] at hl
    refine ⟨hl.2, m, ?_, hs, hp⟩
    rw [Arena.get?_of_erase he, if_neg hl.1, hm]
  placed k m w i hm hs hl := by
    rw [Arena.get?_of_erase he] at hm
    split at hm
    · cases hm
    · rename_i hk
      exact h.placed k m w i hm hs (by simp [hk, hl])

theorem Queue.erase (he : a.erase id = some (n, b)) (hid : id ∉ f.ids) (h : Queue a f) :
    Queue b f where
  nodup := h.nodup
  entry e hf := by
    obtain ⟨m, hm, hr, hk⟩ := h.entry e hf
    refine ⟨m, ?_, hr, hk⟩
    rw [Arena.get?_of_erase he, if_neg, hm]
    rintro rfl
    exact hid (List.mem_map_of_mem hf)

theorem Sharing.erase (he : a.erase id = some (n, b)) (hf : Forest a root)
    (hc : ∀ k m, a.get? k = some m → m.parent ≠ some id) (h : Sharing a none) :
    Sharing b n.share where
  counted k m w hm hw := by
    rw [Arena.get?_of_erase he] at hm
    split at hm
    · cases hm
    · rw [h.counted k m w hm hw, Arena.count_erase he]
      rfl
  alive k m w hm hw := by
    rw [Arena.get?_of_erase he] at hm
    split at hm
    · cases hm
    · exact h.alive k m w hm hw
  holder k m g hm hg := by
    have hm' := hm
    rw [Arena.get?_of_erase he] at hm
    split at hm
    · cases hm
    · obtain ⟨hr, hnear⟩ := h.holder k m g hm hg
      have hb := hf.erase he hc
      exact ⟨hr, hnear.carry (Carried.erase Lineage.refl he) (fun _ _ => Lineage.isSnapshot) hb
        (hb.live_parent hm')⟩
  due_keeps g hg := by
    obtain ⟨-, hnear⟩ := h.holder id n g (Arena.erase_eq_some he).1 hg
    obtain ⟨m, hm, hs⟩ := hnear.holds
    obtain ⟨w, hw⟩ := Role.isSnapshot_iff.1 hs
    refine ⟨m, w, ?_, hw⟩
    rw [Arena.get?_of_erase he, if_neg, hm]
    rintro rfl
    -- Nobody hangs from the freed node, so it cannot be what its own share lies in.
    obtain ⟨k, o, ho, hp⟩ := hnear.child_of_ne (hc g n (Arena.erase_eq_some he).1)
    exact hc k o ho hp

theorem Logs.erase (he : a.erase id = some (n, b)) (h : Logs a size) : Logs b size where
  inRange k m c hm hc := by
    rw [Arena.get?_of_erase he] at hm
    split at hm
    · cases hm
    · exact h.inRange k m c hm hc
  unsealed k m hm hr := by
    rw [Arena.get?_of_erase he] at hm
    split at hm
    · cases hm
    · exact h.unsealed k m hm hr

theorem bases_erase (he : a.erase id = some (n, b)) (hn : n.basis? = none) :
    (bases a).Perm (bases b) := by
  unfold bases
  refine ((Arena.toList_erase_perm he).filterMap _).trans (List.Perm.of_eq ?_)
  rw [List.filterMap_cons, hn]

theorem Books.erase (he : a.erase id = some (n, b)) (hw : a.WellFormed) (hn : n.basis? = none)
    (h : Books a stats) : Books b { stats with freed := stats.freed + 1 } where
  nodes := by
    have hlen := (Arena.toList_erase_perm he).length_eq
    rw [List.length_cons, ← hw.size_eq, ← (hw.erase he).size_eq] at hlen
    change stats.created = stats.freed + 1 + b.size
    rw [h.nodes, hlen]
    omega
  bases := by rw [← (bases_erase he hn).length_eq]; exact h.bases

theorem Acting.erase (he : a.erase id = some (n, b)) (hn : n.role.name ≠ .active)
    (h : Acting a actor) : Acting b actor := by
  intro k
  rw [h k]
  have hid := (Arena.erase_eq_some he).1
  constructor
  · rintro ⟨m, hm, hr⟩
    refine ⟨m, ?_, hr⟩
    rw [Arena.get?_of_erase he, if_neg, hm]
    rintro rfl
    cases hid.symm.trans hm
    exact hn hr
  · rintro ⟨m, hm, hr⟩
    rw [Arena.get?_of_erase he] at hm
    split at hm
    · cases hm
    · exact ⟨m, hm, hr⟩

end Erase

end BranchBound
