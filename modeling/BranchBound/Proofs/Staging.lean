import BranchBound.Proofs.Roles
import BranchBound.Proofs.Updates
import BranchBound.Tree.Staging

namespace BranchBound

variable {σ : Type} [Solver σ] {cmp : NodeOrder}

theorem getElem?_swapRemove {α : Type} (xs : List α) {i : Nat} (hi : i < xs.length) (j : Nat) :
    (swapRemove xs i)[j]? =
      if j + 1 < xs.length then if j = i then xs.getLast? else xs[j]? else none := by
  unfold swapRemove
  cases hx : xs.getLast? with
  | none =>
      obtain rfl := List.getLast?_eq_none_iff.1 hx
      cases hi
  | some x =>
      simp only [List.getElem?_dropLast, List.length_set, List.getElem?_set]
      by_cases hj : j + 1 < xs.length
      · rw [if_pos hj, if_pos (by omega)]
        by_cases hij : j = i
        · rw [if_pos hij, if_pos hij.symm, if_pos hi]
        · rw [if_neg hij, if_neg (Ne.symm hij)]
      · rw [if_neg hj, if_neg (by omega)]

structure Moved (n m : Node σ) : Prop where
  body : m = { n with role := m.role }
  name : m.role.name = n.role.name
  idle : m.role = n.role ∨ n.role.name.isWaiting = true

namespace Moved

variable {n m : Node σ}

theorem refl (n : Node σ) : Moved n n := ⟨rfl, rfl, .inl rfl⟩

theorem parent (h : Moved n m) : m.parent = n.parent := by rw [h.body]

theorem depth (h : Moved n m) : m.depth = n.depth := by rw [h.body]

theorem onPath (h : Moved n m) : m.onPath = n.onPath := by rw [h.body]

theorem share (h : Moved n m) : m.share = n.share := by rw [h.body]

theorem log (h : Moved n m) : m.log = n.log := by rw [h.body]

theorem key (h : Moved n m) : m.key = n.key := by rw [h.body]; rfl

theorem openChildren (h : Moved n m) : m.role.openChildren? = n.role.openChildren? := by
  rcases h.idle with hr | hw
  · rw [hr]
  · rw [Role.openChildren?_of_waiting hw, Role.openChildren?_of_waiting (h.name ▸ hw)]

theorem warmStart (h : Moved n m) : m.role.warmStart? = n.role.warmStart? := by
  rcases h.idle with hr | hw
  · rw [hr]
  · rw [Role.warmStart?_of_waiting hw, Role.warmStart?_of_waiting (h.name ▸ hw)]

theorem layer (h : Moved n m) : m.role.layer = n.role.layer := by
  rcases h.idle with hr | hw
  · rw [hr]
  · rw [Role.layer_of_waiting hw, Role.layer_of_waiting (h.name ▸ hw)]

theorem kin (h : Moved n m) : Kin n m := ⟨⟨h.parent, h.depth, h.layer⟩, congrArg _ h.log⟩

theorem basis (h : Moved n m) : m.basis? = n.basis? := by
  rw [Node.basis?, h.warmStart]
  rfl

theorem sameFamily (h : Moved n m) : SameFamily n m :=
  ⟨h.parent, h.onPath, fun hs => h.share.trans hs, h.name, h.openChildren⟩

theorem sameSharing (h : Moved n m) : SameSharing n m :=
  ⟨h.parent, h.share, h.warmStart, fun _ hr => by rwa [h.name]⟩

end Moved

def Staging.roleAt (w : Staging) (pos : Nat) : Role σ :=
  match w with
  | .children => .child pos
  | .siblings => .sibling pos

theorem staged?_eq_some {r : Role σ} {w : Staging} {i : Nat} :
    r.staged? = some (w, i) ↔ r = w.roleAt i := by
  cases r <;> cases w <;> simp [Role.staged?, Staging.roleAt]

theorem exists_staged {r : Role σ} (w : Staging) (h : r.name = (w.roleAt 0 : Role σ).name) :
    ∃ i, r.staged? = some (w, i) := by
  cases r <;> cases w <;> first | exact ⟨_, rfl⟩ | cases h

theorem waiting_of_staged {r : Role σ} {w : Staging} {i : Nat} (h : r.staged? = some (w, i)) :
    r.name.isWaiting = true := by
  cases r <;> first | rfl | cases h

theorem not_leaf_of_staged {r : Role σ} {w : Staging} {i : Nat} (h : r.staged? = some (w, i)) : r.name ≠ .leaf := by
  rw [staged?_eq_some.1 h]
  cases w <;> exact RoleName.noConfusion

theorem Moved.toPlace {n : Node σ} {w : Staging} {i : Nat} (h : n.role.staged? = some (w, i))
    (pos : Nat) : Moved n { n with role := w.roleAt pos } where
  body := rfl
  name := by
    rw [staged?_eq_some.1 h]
    cases w <;> rfl
  idle := .inr (waiting_of_staged h)

/-- Nothing but the role differs, which moved forward, and a waiting node still waits. -/
structure Shelved (n m : Node σ) : Prop where
  cast : Recast n m
  role : m = n ∨ n.role.name.isWaiting = true ∧ m.role.name.isWaiting = true
  stage : n.role.name.stage ≤ m.role.name.stage

namespace Shelved

variable {n m : Node σ}

theorem refl (n : Node σ) : Shelved n n := ⟨.refl n, .inl rfl, Nat.le_refl _⟩

theorem trans {k : Node σ} (h : Shelved n m) (h' : Shelved m k) : Shelved n k := by
  rcases h'.role with rfl | ⟨-, hk⟩
  · exact h
  · rcases h.role with rfl | ⟨hn, -⟩
    · exact h'
    · refine ⟨?_, .inr ⟨hn, hk⟩, Nat.le_trans h.stage h'.stage⟩
      have hm := h.cast
      have hk' := h'.cast
      unfold Recast at *
      rw [hk', hm]

theorem kin (h : Shelved n m) : Kin n m := by
  refine ⟨⟨h.cast.parent, h.cast.depth, ?_⟩, h.cast.changes⟩
  rcases h.role with rfl | ⟨hn, hm⟩
  · rfl
  · rw [Role.layer_of_waiting hn, Role.layer_of_waiting hm]

theorem persists (h : Shelved n m) : Persists n m := by
  obtain rfl | ⟨-, hm⟩ := h.role
  · exact .refl m
  · apply Persists.of_stage h.cast.number h.cast.parent h.cast.depth h.stage
    rw [RoleName.isWaiting_iff] at hm
    omega

end Shelved

section Places

variable {a : Arena (Node σ)} {loose : List Handle} {tip anchor : Option Handle}
  {staged staged' : Staging → List Handle} {which : Staging} {pos : Nat} {id : Handle}

theorem Places.place_unique (h : Places a loose tip anchor staged) {w w' : Staging} {i j : Nat}
    {k : Handle} (hi : (staged w)[i]? = some k) (hj : (staged w')[j]? = some k) : w = w' ∧ i = j := by
  obtain ⟨-, n, hn, hs, -⟩ := h.listed w i k hi
  obtain ⟨-, m, hm, hs', -⟩ := h.listed w' j k hj
  cases hn.symm.trans hm
  rw [hs] at hs'
  cases hs'
  exact ⟨rfl, rfl⟩

theorem Places.parent_of_staged {n : Node σ} {w : Staging} {i : Nat} (h : Places a loose tip anchor staged)
    (hn : a.get? id = some n) : n.role.staged? = some (w, i) → id ∉ loose →
      n.parent = match w with | .children => tip | .siblings => anchor := by
  intro hs hl
  obtain ⟨-, m, hm, -, hp⟩ := h.listed w i id (h.placed id n w i hn hs hl)
  cases hn.symm.trans hm
  exact hp

theorem Places.nodup (h : Places a loose tip anchor staged) (w : Staging) : (staged w).Nodup := by
  rw [List.nodup_iff_getElem?_ne_getElem?]
  intro i j hij hj heq
  have hk := List.getElem?_eq_getElem hj
  have := (h.place_unique (heq.trans hk) hk).2
  omega

/-- When a node is taken out, the last one of its list takes its place. -/
theorem Places.getElem?_unstaged (h : Places a loose tip anchor staged) (hid : (staged which)[pos]? = some id)
    {last : Handle} (hlast : (staged which)[(staged which).length - 1]? = some last)
    (hsame : ∀ w, w ≠ which → staged' w = staged w) (hrest : staged' which = swapRemove (staged which) pos)
    (w : Staging) (j : Nat) :
    (staged' w)[j]? = if (staged w)[j]? = some last then none else
      if (staged w)[j]? = some id then some last else (staged w)[j]? := by
  have hpos : pos < (staged which).length := (List.getElem?_eq_some_iff.1 hid).1
  by_cases hw : w = which
  · subst hw
    rw [hrest, getElem?_swapRemove _ hpos]
    have hlast_iff : (staged w)[j]? = some last ↔ j = (staged w).length - 1 :=
      ⟨fun hj => (h.place_unique hj hlast).2, fun hj => hj ▸ hlast⟩
    have hid_iff : (staged w)[j]? = some id ↔ j = pos := ⟨fun hj => (h.place_unique hj hid).2, fun hj => hj ▸ hid⟩
    rw [List.getLast?_eq_getElem?, hlast]
    by_cases hj : j + 1 < (staged w).length
    · rw [if_pos hj, if_neg (mt hlast_iff.1 (by omega))]
      simp only [hid_iff]
    · rw [if_neg hj]
      split
      · rfl
      · rename_i hne
        have hout : (staged w).length ≤ j := by
          have := mt hlast_iff.2 hne
          omega
        rw [if_neg (mt hid_iff.1 (by omega)), List.getElem?_eq_none hout]
  · rw [hsame w hw, if_neg fun hj => hw (h.place_unique hj hlast).1, if_neg fun hj => hw (h.place_unique hj hid).1]

theorem Places.unstageLast (h : Places a loose tip anchor staged)
    (hid : (staged which)[pos]? = some id) (hpos : pos + 1 = (staged which).length)
    (hsame : ∀ w, w ≠ which → staged' w = staged w) (hrest : staged' which = swapRemove (staged which) pos) :
    Places a (id :: loose) tip anchor staged' := by
  have hlast : (staged which)[(staged which).length - 1]? = some id := by
    rwa [show (staged which).length - 1 = pos by omega]
  have hget := h.getElem?_unstaged hid hlast hsame hrest
  constructor
  · intro w i k hk
    rw [hget] at hk
    split at hk
    · cases hk
    · rename_i hne
      obtain ⟨hl, hrest⟩ := h.listed w i k hk
      refine ⟨fun hmem => ?_, hrest⟩
      rcases List.mem_cons.1 hmem with rfl | hmem
      · exact hne hk
      · exact hl hmem
  · intro k n w i hn hs hl
    rw [List.mem_cons, not_or] at hl
    have hk := h.placed k n w i hn hs hl.2
    have hne : (staged w)[i]? ≠ some id := fun he => hl.1 (Option.some.inj (hk.symm.trans he))
    rw [hget, if_neg hne, if_neg hne, hk]

theorem Places.unstageInner (h : Places a loose tip anchor staged)
    (hid : (staged which)[pos]? = some id) {last : Handle}
    (hlast : (staged which)[(staged which).length - 1]? = some last)
    (hpos : pos + 1 < (staged which).length) {n : Node σ} (hn : a.get? last = some n)
    (hsame : ∀ w, w ≠ which → staged' w = staged w) (hrest : staged' which = swapRemove (staged which) pos) :
    Places (a.set last { n with role := which.roleAt pos }) (id :: loose) tip anchor staged' := by
  have hget := h.getElem?_unstaged hid hlast hsame hrest
  obtain ⟨hfree, o, ho, hrole, hparent⟩ := h.listed which _ last hlast
  cases hn.symm.trans ho
  have hne : last ≠ id := by
    rintro rfl
    have := (h.place_unique hlast hid).2
    omega
  constructor
  · intro w i k hk
    rw [hget] at hk
    split at hk
    · cases hk
    · rename_i hl
      split at hk
      · rename_i hi
        cases hk
        obtain ⟨rfl, rfl⟩ := h.place_unique hi hid
        refine ⟨by simp [hne, hfree], { n with role := w.roleAt i }, ?_, staged?_eq_some.2 rfl, hparent⟩
        exact Arena.get?_set_self hn _
      · rename_i hi
        obtain ⟨hloose, m, hm, hs, hp⟩ := h.listed w i k hk
        rw [hk] at hi hl
        have hki : k ≠ id := fun he => hi (congrArg some he)
        have hkl : k ≠ last := fun he => hl (congrArg some he)
        refine ⟨by simp [hki, hloose], m, ?_, hs, hp⟩
        rw [Arena.get?_set_ne _ hkl, hm]
  · intro k m w i hm hs hl
    rw [List.mem_cons, not_or] at hl
    rw [Arena.get?_set] at hm
    split at hm
    · rename_i hk
      subst hk
      rw [hn] at hm
      cases hm
      have hwi := staged?_eq_some.2 (rfl : which.roleAt pos = (which.roleAt pos : Role σ))
      rw [hwi] at hs
      cases hs
      rw [hget, if_neg, if_pos hid]
      exact fun hl' => hne (Option.some.inj (hl'.symm.trans hid))
    · rename_i hk
      have hkw := h.placed k m w i hm hs hl.2
      rw [hget, hkw, if_neg, if_neg]
      · exact fun he => hl.1 (Option.some.inj he)
      · exact fun he => hk (Option.some.inj he)

theorem Places.enqueue {n : Node σ} (h : Places a (id :: loose) tip anchor staged)
    (hr : n.role.staged? = none) : Places (a.set id n) loose tip anchor staged where
  listed w i k hk := by
    obtain ⟨hl, m, hm, hs, hp⟩ := h.listed w i k hk
    rw [List.mem_cons, not_or] at hl
    refine ⟨hl.2, m, ?_, hs, hp⟩
    rw [Arena.get?_set_ne _ hl.1, hm]
  placed k m w i hm hs hl := by
    rw [Arena.get?_set] at hm
    split at hm
    · obtain ⟨-, -, rfl⟩ := Option.map_eq_some_iff.1 hm
      rw [hr] at hs
      cases hs
    · rename_i hk
      exact h.placed k m w i hm hs (by simp [hk, hl])

end Places

theorem Family.requeue {a : Arena (Node σ)} {loose : List Handle} {lost : Option Handle}
    {id : Handle} {n m : Node σ} (h : Family a (id :: loose) lost) (hn : a.get? id = some n)
    (hp : m.parent = n.parent) (ho : m.onPath = false) (hr : n.role.name.isWaiting = true)
    (hr' : m.role.name.isWaiting = true) (ha : Acting a none) : Family (a.set id m) loose lost := by
  have hidle : ∀ k o, a.get? k = some o → o.role.name ≠ .active := by
    intro k o hk hact
    cases (ha k).2 ⟨o, hk, hact⟩
  have hF := Arena.forall_set (P := fun o o' : Node σ => o'.parent = o.parent ∧
    o'.role.openChildren? = o.role.openChildren?) hn
    ⟨hp, by rw [Role.openChildren?_of_waiting hr, Role.openChildren?_of_waiting hr']⟩ fun _ => ⟨rfl, rfl⟩
  have hcount : ∀ g, (a.set id m).count (·.parent = some g) = a.count (·.parent = some g) :=
    fun g => Arena.count_set_congr hn (by rw [hp])
  rw [Arena.set_eq_adjust] at hcount ⊢
  constructor
  case counted =>
    intro k o c hk hc
    obtain ⟨o, ho, rfl⟩ := Arena.get?_adjust_some hk
    rw [(hF k o ho).2] at hc
    rw [hcount, h.counted k o c ho hc]
  case parent =>
    intro k o g o' hk hg hk'
    obtain ⟨o, ho, rfl⟩ := Arena.get?_adjust_some hk
    obtain ⟨o', ho', rfl⟩ := Arena.get?_adjust_some hk'
    rw [(hF k o ho).1] at hg
    rw [(hF g o' ho').2]
    exact .inr ((h.parent k o g o' ho hg ho').resolve_left (hidle g o' ho'))
  case fresh =>
    intro k o g o' hk hg hk' hact
    obtain ⟨o', ho', rfl⟩ := Arena.get?_adjust_some hk'
    by_cases hgid : g = id
    · rw [if_pos hgid] at hact
      exact absurd hact (Role.not_active_of_waiting hr')
    · rw [if_neg hgid] at hact
      exact absurd hact (hidle g o' ho')
  case spent =>
    intro k o hk hx
    obtain ⟨o, ho', rfl⟩ := Arena.get?_adjust_some hk
    by_cases hkid : k = id
    · rw [if_pos hkid] at hx
      rw [Role.not_waiting_of_exhausted hx] at hr'
      cases hr'
    · rw [if_neg hkid] at hx ⊢
      exact (h.spent k o ho' hx).imp_right fun hl => (List.mem_cons.1 hl).resolve_left hkid
  case entered =>
    intro k o hk hon hw
    obtain ⟨o, ho', rfl⟩ := Arena.get?_adjust_some hk
    by_cases hkid : k = id
    · rw [if_pos hkid, ho] at hon
      cases hon
    · rw [if_neg hkid] at hon hw
      exact (List.mem_cons.1 (h.entered k o ho' hon hw)).resolve_left hkid

theorem Queue.insert {a : Arena (Node σ)} {f : Frontier cmp} {id : Handle} {n m : Node σ}
    (h : Queue a f) (hid : id ∉ f.ids) (hn : a.get? id = some n) (hm : m.role.name = .leaf) :
    Queue (a.set id m) (f.insert id m.key) := by
  have hperm := f.toList_insert_perm id m.key
  constructor
  · refine ((hperm.map Queued.id).nodup_iff).2 ?_
    exact List.nodup_cons.2 ⟨hid, h.nodup⟩
  · intro e he
    rcases List.mem_cons.1 (hperm.mem_iff.1 he) with rfl | he'
    · refine ⟨m, ?_, hm, rfl⟩
      exact Arena.get?_set_self hn _
    · obtain ⟨o, ho, hr, hk⟩ := h.entry e he'
      refine ⟨o, ?_, hr, hk⟩
      rw [Arena.get?_set_ne, ho]
      rintro rfl
      exact hid (List.mem_map_of_mem he')

namespace Tree

variable {K : Charge σ} {s : Stage} {t : Tree σ cmp}
  {id : Handle} {which : Staging} {pos : Nat}

/-- Moves within the staging lists concern the account of the places only. -/
theorem Sound.restage {F : Handle → Node σ → Node σ} {children siblings : List Handle}
    {loose : List Handle} {anchor : Option Handle} (hK : Redemption K) (h : Sound K s t)
    (hF : ∀ k m, t.nodes.get? k = some m → Moved m (F k m)) (hl : ∀ k ∈ s.loose, k ∈ loose)
    (hp : Places (t.nodes.adjust F) loose t.tip anchor
      ({ t with children := children, siblings := siblings } : Tree σ cmp).staged) :
    Sound K { s with loose := loose, anchor := anchor }
      { t with nodes := t.nodes.adjust F, children := children, siblings := siblings } where
  wellFormed := h.wellFormed.adjust F
  forest := h.forest.adjust fun k m hm => ⟨(hF k m hm).parent, (hF k m hm).depth⟩
  walk := h.walk.adjust fun k m hm => ⟨(hF k m hm).parent, (hF k m hm).depth, (hF k m hm).onPath⟩
  family := (h.family.loosen hl).adjust fun k m hm => (hF k m hm).sameFamily
  places := hp
  queue := h.queue.adjust fun k m hm hr => ⟨(hF k m hm).key, (hF k m hm).name.trans hr⟩
  sharing := h.sharing.adjust fun k m hm => (hF k m hm).sameSharing
  logs := h.logs.adjust fun k m hm => ⟨congrArg _ (hF k m hm).log, by
    rw [(hF k m hm).name, (hF k m hm).log]
    exact h.logs.unsealed k m hm⟩
  books := h.books.adjust fun k m hm => (hF k m hm).basis
  acting := h.acting.adjust fun k m hm => by rw [(hF k m hm).name]
  custody := hK.perm _ _ _ (bases_adjust fun k m hm => (hF k m hm).basis).symm h.custody

theorem moveTo_eq {Q : Unit → Tree σ cmp → Prop} {E : TreeError → Tree σ cmp → Prop} {n : Node σ}
    {i : Nat} (hn : t.nodes.get? id = some n) (hs : n.role.staged? = some (which, i)) :
    Ends (moveTo pos id) t Q E ↔
      Q () { t with nodes := t.nodes.set id { n with role := which.roleAt pos } } := by
  unfold moveTo
  simp only [ends_bind, ends_read, node_eq_ok.2 hn, staged?_eq_some.1 hs]
  cases which <;> rfl

/-- A staged node can be taken out of its list. It is in no list then, and only the node that takes
its place has moved. -/
theorem unstage_spec (hK : Redemption K) (h : Sound K s t) (hid : (t.staged which)[pos]? = some id) :
    Ends (unstage id which pos) t
      (fun _ t' => Sound K { s with loose := id :: s.loose } t' ∧ ∃ nodes children siblings,
        t' = { t with nodes := nodes, children := children, siblings := siblings } ∧
        Matched Moved t.nodes nodes ∧ nodes.get? id = t.nodes.get? id ∧
        ∀ w, w ≠ which → t'.staged w = t.staged w)
      fun _ _ => False := by
  have hlen : pos < (t.staged which).length := (List.getElem?_eq_some_iff.1 hid).1
  obtain ⟨children, siblings, hstate⟩ : ∃ children siblings,
      t.withStaged (swapRemove (t.staged which) pos) which =
        { t with children := children, siblings := siblings } := by
    cases which <;> exact ⟨_, _, rfl⟩
  have hother : ∀ w, w ≠ which →
      ({ t with children := children, siblings := siblings } : Tree σ cmp).staged w = t.staged w := by
    intro w hw
    rw [← hstate]
    cases w <;> cases which <;> first | rfl | exact absurd rfl hw
  have hself : ({ t with children := children, siblings := siblings } : Tree σ cmp).staged which =
      swapRemove (t.staged which) pos := by
    rw [← hstate]
    cases which <;> rfl
  unfold unstage
  simp only [ends_bind, ends_get, hid, ne_eq, not_true_eq_false, if_false, ends_set,
    getElem?_swapRemove _ hlen, hstate]
  by_cases hpos : pos + 1 < (t.staged which).length
  · obtain ⟨last, hlast⟩ : ∃ last, (t.staged which)[(t.staged which).length - 1]? = some last :=
      ⟨_, List.getElem?_eq_getElem (by omega)⟩
    obtain ⟨-, n, hn, hs, -⟩ := h.places.listed which _ last hlast
    have hne : id ≠ last := by
      rintro rfl
      have := (h.places.place_unique hlast hid).2
      omega
    have hplaces := h.places.unstageInner hid hlast hpos hn hother hself
    have hmoved := Moved.toPlace hs pos
    rw [if_pos hpos, if_pos trivial, List.getLast?_eq_getElem?, hlast]
    apply (moveTo_eq (t := { t with children := children, siblings := siblings }) hn hs).2
    refine ⟨?_, _, children, siblings, rfl, .set Moved.refl hn hmoved, ?_, ?_⟩
    · rw [Arena.set_eq_adjust] at hplaces ⊢
      exact h.restage (t := t) hK (Arena.forall_set hn hmoved Moved.refl) (fun _ => List.mem_cons_of_mem id) hplaces
    · change (t.nodes.set last _).get? id = _
      rw [Arena.get?_set_ne _ hne]
    · intro w hw
      exact hother w hw
  · have hplaces := h.places.unstageLast hid (by omega) hother hself
    rw [if_neg hpos]
    refine ⟨?_, t.nodes, children, siblings, rfl, .refl Moved.refl _, rfl, hother⟩
    exact { h with
      family := h.family.loosen fun _ => List.mem_cons_of_mem id
      places := hplaces }

theorem Sound.unqueued {n : Node σ} (h : Sound K s t) (hn : t.nodes.get? id = some n)
    (hr : n.role.name ≠ .leaf) : id ∉ t.frontier.ids := by
  intro hid
  obtain ⟨e, he, rfl⟩ := List.mem_map.1 hid
  obtain ⟨m, hm, hleaf, -⟩ := h.queue.entry e he
  cases hn.symm.trans hm
  exact hr hleaf

section Flush

variable {anchor : Option Handle} {loose : List Handle} {n : Node σ}

theorem Sound.queueLeaf (hK : Redemption K) (h : Sound K ⟨none, anchor, id :: loose, none, none⟩ t)
    (hn : t.nodes.get? id = some n) (hs : n.role.staged? = some (which, pos))
    (ho : n.onPath = false) :
    Sound K ⟨none, anchor, loose, none, none⟩ { t with
      nodes := t.nodes.set id { n with role := .leaf, log := n.log.close }
      frontier := t.frontier.insert id ({ n with role := .leaf, log := n.log.close } : Node σ).key } := by
  have hwait := waiting_of_staged hs
  have hunqueued : id ∉ t.frontier.ids := h.unqueued hn (not_leaf_of_staged hs)
  have hcast : Recast n { n with role := .leaf, log := n.log.close } := rfl
  have hleaf : ({ n with role := .leaf, log := n.log.close } : Node σ).role = .leaf := rfl
  generalize ({ n with role := .leaf, log := n.log.close } : Node σ) = n' at hcast hleaf ⊢
  have hwell := h.wellFormed.set id n'
  have hfamily := h.family.requeue hn hcast.parent (hcast.onPath.trans ho) hwait (by rw [hleaf]; rfl)
    h.acting
  have hplaces := h.places.enqueue (n := n') (by rw [hleaf]; rfl)
  have hqueue := h.queue.insert hunqueued hn (by rw [hleaf]; rfl)
  have hF := Arena.forall_set (P := fun m m' : Node σ => Recast m m' ∧ SameSharing m m' ∧
      m'.basis? = m.basis? ∧ (m'.role.name = .active ↔ m.role.name = .active) ∧
      (m'.role.name = .child ∨ m'.role.name = .active → m' = m)) hn
    ⟨hcast, ⟨hcast.parent, hcast.share, by rw [hleaf, Role.warmStart?_of_waiting hwait]; rfl,
      fun _ _ => .inl (by rw [hleaf]; rfl)⟩,
      by rw [Node.basis?, Node.basis?, hleaf, Role.warmStart?_of_waiting hwait]; rfl,
      by rw [hleaf]; exact ⟨RoleName.noConfusion, fun hr => absurd hr (Role.not_active_of_waiting hwait)⟩,
      by rw [hleaf]; rintro (hr | hr) <;> cases hr⟩
    fun m => ⟨.refl m, .refl m, rfl, .rfl, fun _ => rfl⟩
  rw [Arena.set_eq_adjust] at hfamily hwell hplaces hqueue ⊢
  exact {
    wellFormed := hwell
    forest := h.forest.adjust fun k m hm => ⟨(hF k m hm).1.parent, (hF k m hm).1.depth⟩
    walk := h.walk.adjust fun k m hm =>
      ⟨(hF k m hm).1.parent, (hF k m hm).1.depth, (hF k m hm).1.onPath⟩
    family := hfamily
    places := hplaces
    queue := hqueue
    sharing := h.sharing.adjust fun k m hm => (hF k m hm).2.1
    logs := h.logs.adjust fun k m hm => ⟨(hF k m hm).1.changes, fun hr => by
      have hsame := (hF k m hm).2.2.2.2 hr
      rw [hsame] at hr ⊢
      exact h.logs.unsealed k m hm hr⟩
    books := h.books.adjust fun k m hm => (hF k m hm).2.2.1
    acting := h.acting.adjust fun k m hm => (hF k m hm).2.2.2.1
    custody := hK.perm _ _ _ (bases_adjust fun k m hm => (hF k m hm).2.2.1).symm h.custody }

theorem Sound.unlist (h : Sound K ⟨none, anchor, loose, none, none⟩ t) (which : Staging) :
    Sound K ⟨none, anchor, t.staged which ++ loose, none, none⟩ (t.withStaged [] which) := by
  have hplaces : Places t.nodes (t.staged which ++ loose) t.tip anchor (t.withStaged [] which).staged := by
    constructor
    · intro w i k hk
      by_cases hw : w = which
      · subst hw
        cases w <;> cases hk
      · have hkw : (t.staged w)[i]? = some k := by
          cases w <;> cases which <;> first | exact hk | exact absurd rfl hw
        obtain ⟨hl, hrest⟩ := h.places.listed w i k hkw
        refine ⟨fun hmem => ?_, hrest⟩
        rcases List.mem_append.1 hmem with hmem | hmem
        · obtain ⟨j, hj⟩ := List.mem_iff_getElem?.1 hmem
          exact hw (h.places.place_unique hkw hj).1
        · exact hl hmem
    · intro k n w i hn hs hl
      rw [List.mem_append, not_or] at hl
      have hk := h.places.placed k n w i hn hs hl.2
      by_cases hw : w = which
      · subst hw
        exact absurd (List.mem_of_getElem? hk) hl.1
      · cases w <;> cases which <;> first | exact hk | exact absurd rfl hw
  have hfamily : Family t.nodes (t.staged which ++ loose) none :=
    h.family.loosen fun _ => List.mem_append_right _
  cases which <;> exact { h with family := hfamily, places := hplaces }

theorem flush_spec (hK : Redemption K) (h : Sound K ⟨none, anchor, loose, none, none⟩ t)
    (which : Staging) :
    Ends (flush which) t
      (fun _ t' => Sound K ⟨none, anchor, loose, none, none⟩ t' ∧ ∃ nodes frontier,
        t' = { t.withStaged [] which with nodes := nodes, frontier := frontier } ∧
        Matched Shelved t.nodes nodes ∧
        (∀ k, k ∉ t.staged which → nodes.get? k = t.nodes.get? k) ∧
        ∀ k, k ∈ frontier.ids ↔ k ∈ t.frontier.ids ∨ k ∈ t.staged which)
      fun _ _ => False := by
  unfold flush
  simp only [ends_bind, ends_get, ends_modify]
  refine (Ends.forM (I := fun xs t' => Sound K ⟨none, anchor, xs ++ loose, none, none⟩ t' ∧
    xs.Nodup ∧ (∀ k ∈ xs, k ∈ t.staged which) ∧ (∀ k ∈ xs, ∃ n w i, t'.nodes.get? k = some n ∧
      n.role.staged? = some (w, i) ∧ n.onPath = false) ∧ ∃ nodes frontier,
        t' = { t.withStaged [] which with nodes := nodes, frontier := frontier } ∧
        Matched Shelved t.nodes nodes ∧
        (∀ k, k ∉ t.staged which → nodes.get? k = t.nodes.get? k) ∧
        ∀ k, k ∈ frontier.ids ↔ k ∈ t.frontier.ids ∨ k ∈ t.staged which ∧ k ∉ xs) ?_ ?_).mono ?_ fun _ _ h => h
  · rintro k xs _ ⟨hsound, hnodup, hsub, hstaged, nodes, frontier, rfl, hmatch, hsame, hids⟩
    rw [List.nodup_cons] at hnodup
    obtain ⟨n, w, i, hn, hs, ho⟩ := hstaged k List.mem_cons_self
    have hshelved : Shelved n { n with role := .leaf, log := n.log.close } :=
      ⟨rfl, .inr ⟨waiting_of_staged hs, rfl⟩, RoleName.isWaiting_iff.1 (waiting_of_staged hs)⟩
    unfold BranchBound.Tree.queueLeaf
    simp only [ends_bind, ends_read, node_eq_ok.2 hn, ends_setNode, ends_modify]
    refine ⟨hsound.queueLeaf hK hn hs ho, hnodup.2, fun j hj => hsub j (List.mem_cons_of_mem k hj),
      ?_, _, _, rfl, ?_, ?_, ?_⟩
    · intro j hj
      obtain ⟨m, w', i', hm, hrest⟩ := hstaged j (List.mem_cons_of_mem k hj)
      refine ⟨m, w', i', ?_, hrest⟩
      rw [Arena.get?_set_ne _ (fun hjk : j = k => hnodup.1 (hjk ▸ hj))]
      exact hm
    · exact Matched.trans (S := Shelved) (fun _ _ _ => Shelved.trans) hmatch
        (.set Shelved.refl hn hshelved)
    · intro j hj
      rw [Arena.get?_set_ne _ (fun hjk : j = k => hj (hjk ▸ hsub k List.mem_cons_self)), hsame j hj]
    · intro j
      have hperm :=
        (frontier.toList_insert_perm k ({ n with role := .leaf, log := n.log.close } : Node σ).key).map Queued.id
      have hcons : j ∈ k :: frontier.ids ↔ j = k ∨ j ∈ frontier.ids := List.mem_cons
      refine (hperm.mem_iff.trans hcons).trans ?_
      rw [hids j, List.mem_cons, not_or]
      by_cases hj : j = k
      · subst hj
        simp [hsub j List.mem_cons_self, hnodup.1]
      · simp [hj]
  · have hnodes : (t.withStaged [] which).nodes = t.nodes ∧
        (t.withStaged [] which).frontier = t.frontier := by
      cases which <;> exact ⟨rfl, rfl⟩
    refine ⟨h.unlist which, h.places.nodup which, fun _ hk => hk, ?_, t.nodes, t.frontier, ?_,
      .refl Shelved.refl _, fun _ _ => rfl, fun k => by simp⟩
    · intro k hk
      obtain ⟨i, hi⟩ := List.mem_iff_getElem?.1 hk
      obtain ⟨hl, n, hn, hs, -⟩ := h.places.listed which i k hi
      refine ⟨n, which, i, hnodes.1 ▸ hn, hs, ?_⟩
      cases ho : n.onPath with
      | false => rfl
      | true => exact absurd (h.family.entered k n hn ho (waiting_of_staged hs)) hl
    · cases which <;> rfl
  · rintro _ t' ⟨hsound, -, -, -, nodes, frontier, rfl, hmatch, hsame, hids⟩
    exact ⟨hsound, nodes, frontier, rfl, hmatch, hsame, fun k => by simpa using hids k⟩

end Flush

end Tree

end BranchBound
