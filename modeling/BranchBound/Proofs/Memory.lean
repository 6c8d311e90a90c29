import BranchBound.Proofs.Activation
import BranchBound.Proofs.Clearing
import BranchBound.Proofs.Relabeling
import BranchBound.Proofs.Relaxation

namespace BranchBound

variable {σ : Type} [Solver σ] {cmp : NodeOrder} {a b : Arena (Node σ)} {root g g' : Option Handle}
  {held held' : Handle → Contents σ} {path : List Handle} {sizes : List Extent} {h : Handle} {n : Node σ} {i j : Nat}

theorem Role.extend_congr {above : Contents σ} {r r' : Role σ} (h : r'.layer = r.layer) :
    r'.extend above = r.extend above := by
  unfold Role.extend
  rw [h]

theorem Role.extend_of_not_snapshot {above : Contents σ} {r : Role σ} (h : r.isSnapshot = false) :
    r.extend above = above := by
  unfold Role.extend
  rw [Role.isSnapshot_eq, Option.isSome_eq_false_iff, Option.isNone_iff_eq_none] at h
  rw [h]

/-- What a node left behind, nothing above all of them. -/
def heldAt (held : Handle → Contents σ) : Option Handle → Contents σ
  | none => .empty
  | some h => held h

/-- Every Fork and Subroot keeps what it adds to the relaxation left by the nearest one above it, which it
began with. -/
def Layered (held : Handle → Contents σ) (a : Arena (Node σ)) : Prop :=
  ∀ h n, a.get? h = some n → n.role.isSnapshot = true →
    ∃ g, Nearest a Role.isSnapshot n.parent g ∧ held h = n.role.extend (heldAt held g) ∧
      (heldAt held g).Begins (held h)

def Measured (held : Handle → Contents σ) (a : Arena (Node σ)) (path : List Handle) (sizes : List Extent) : Prop :=
  ∀ (i : Nat) h g, path[i]? = some h → Nearest a Role.isSnapshot (some h) g →
    sizes[i]? = some (heldAt held g).size

def Reached (held : Handle → Contents σ) (a : Arena (Node σ)) (path : List Handle) (c : Contents σ)
    (i : Nat) : Prop :=
  ∃ h g, path[i]? = some h ∧ Nearest a Role.isSnapshot (some h) g ∧ (heldAt held g).Begins c

theorem heldAt_congr {q : Role σ → Bool} {x : Option Handle} (hg : Nearest a q x g)
    (hag : ∀ h n, a.get? h = some n → q n.role = true → held' h = held h) :
    heldAt held' g = heldAt held g := by
  cases g with
  | none => rfl
  | some f =>
      obtain ⟨n, hn, hq⟩ := hg.holds
      exact hag f n hn hq

namespace Layered

theorem heldAt_eq (hl : Layered held a) (hn : a.get? h = some n)
    (hg : Nearest a Role.isSnapshot (some h) g) (hg' : Nearest a Role.isSnapshot n.parent g') :
    heldAt held g = n.role.extend (heldAt held g') ∧ (heldAt held g').Begins (heldAt held g) := by
  cases hg with
  | here hn' hq =>
      obtain ⟨g₁, hg₁, hheld, hbegins⟩ := hl h _ hn' hq
      cases hn.symm.trans hn'
      rw [hg₁.unique hg'] at hheld hbegins
      exact ⟨hheld, hbegins⟩
  | above hn' hq hg₁ =>
      cases hn.symm.trans hn'
      rw [hg₁.unique hg', Role.extend_of_not_snapshot hq]
      exact ⟨rfl, .refl _⟩

theorem begins_before (hl : Layered held a) (hw : Walk a path) (hf : Forest a root) (hij : i ≤ j)
    (hj : j ≤ path.length) (hg : Nearest a Role.isSnapshot (before path i) g)
    (hg' : Nearest a Role.isSnapshot (before path j) g') : (heldAt held g).Begins (heldAt held g') := by
  induction j generalizing g' with
  | zero =>
      obtain rfl : i = 0 := by omega
      rw [hg.unique hg']
      exact .refl _
  | succ j ih =>
      rcases Nat.eq_or_lt_of_le hij with rfl | hlt
      · rw [hg.unique hg']
        exact .refl _
      · obtain ⟨k, hk⟩ : ∃ k, path[j]? = some k := ⟨_, List.getElem?_eq_getElem hj⟩
        obtain ⟨n, hn, -, -, hp⟩ := hw.step j k hk
        obtain ⟨g₁, hg₁⟩ := hf.exists_nearest (hw.live_before j)
        rw [before_succ hk] at hg'
        exact (ih (Nat.le_of_lt_succ hlt) (Nat.le_of_lt hj) hg₁).trans (hl.heldAt_eq hn hg' (hp ▸ hg₁)).2

theorem carry (hl : Layered held a) (hc : Carried Lineage a b) (hb : Forest b root) : Layered held b := by
  intro h m hm hq
  obtain ⟨n, hn, hline⟩ := hc h m hm
  obtain ⟨g, hg, hheld, hbegins⟩ := hl h n hn (hline.isSnapshot ▸ hq)
  refine ⟨g, ?_, ?_, hbegins⟩
  · rw [hline.parent]
    exact hg.carry hc (fun _ _ => Lineage.isSnapshot) hb (hline.parent ▸ hb.live_parent hm)
  · rw [hheld, Role.extend_congr hline.layer]

theorem congr (hl : Layered held a)
    (hag : ∀ h n, a.get? h = some n → n.role.isSnapshot = true → held' h = held h) : Layered held' a := by
  intro h n hn hq
  obtain ⟨g, hg, hheld, hbegins⟩ := hl h n hn hq
  refine ⟨g, hg, ?_⟩
  rw [heldAt_congr hg hag, hag h n hn hq]
  exact ⟨hheld, hbegins⟩

end Layered

theorem Nearest.of_carried {q : Role σ → Bool} {x : Option Handle} (hc : Carried Lineage a b)
    (hq : ∀ n m : Node σ, Lineage n m → q m.role = q n.role) (ha : Forest a root) {root' : Option Handle}
    (hb : Forest b root') (hg : Nearest b q x g) : Nearest a q x g := by
  have hx : Live a x := by
    rintro k rfl
    obtain ⟨m, hm⟩ := hg.live k rfl
    obtain ⟨n, hn, -⟩ := hc k m hm
    exact ⟨n, hn⟩
  obtain ⟨g₁, hg₁⟩ := ha.exists_nearest hx
  rwa [(hg₁.carry hc hq hb hg.live).unique hg] at hg₁

theorem Measured.carry (hm : Measured held a path sizes) (hc : Carried Lineage a b) (ha : Forest a root)
    {root' : Option Handle} (hb : Forest b root') : Measured held b path sizes :=
  fun i k g hk hg => hm i k g hk (hg.of_carried hc (fun _ _ => Lineage.isSnapshot) ha hb)

theorem Measured.congr (hm : Measured held a path sizes)
    (hag : ∀ h n, a.get? h = some n → n.role.isSnapshot = true → held' h = held h) :
    Measured held' a path sizes := by
  intro i k g hk hg
  rw [heldAt_congr hg hag]
  exact hm i k g hk hg

theorem Measured.take (hm : Measured held a path sizes) (keep : Nat) :
    Measured held a (path.take keep) (sizes.take keep) := by
  intro i k g hk hg
  rw [List.getElem?_take] at hk ⊢
  split at hk
  · rename_i hi
    rw [if_pos hi]
    exact hm i k g hk hg
  · cases hk

theorem SizedFrom.measured {keep : Nat} (hs : SizedFrom a path sizes keep) (hl : Layered held a) (hw : Walk a path)
    (hf : Forest a root) (hm : Measured held a (path.take keep) (sizes.take keep)) :
    Measured held a path sizes := by
  intro i
  induction i with
  | zero =>
      intro k g hk hg
      rcases Nat.lt_or_ge 0 keep with hkept | hnew
      · rw [← List.getElem?_take_of_lt hkept] at hk ⊢
        exact hm 0 k g hk hg
      · obtain ⟨n, hn, hsize⟩ := hs 0 k hnew hk
        obtain ⟨m, hn', -, -, hp⟩ := hw.step 0 k hk
        cases hn.symm.trans hn'
        have htop : Nearest a Role.isSnapshot n.parent none := hp ▸ .top
        rw [hsize, (hl.heldAt_eq hn hg htop).1, Role.size_extend]
        rfl
  | succ i ih =>
      intro k g hk hg
      rcases Nat.lt_or_ge (i + 1) keep with hkept | hnew
      · rw [← List.getElem?_take_of_lt hkept] at hk ⊢
        exact hm (i + 1) k g hk hg
      · obtain ⟨n, hn, hsize⟩ := hs (i + 1) k hnew hk
        obtain ⟨m, hn', -, -, hp⟩ := hw.step (i + 1) k hk
        cases hn.symm.trans hn'
        obtain ⟨up, hup⟩ : ∃ up, path[i]? = some up :=
          ⟨_, List.getElem?_eq_getElem (Nat.lt_of_succ_lt (List.getElem?_eq_some_iff.1 hk).1)⟩
        obtain ⟨g₁, hg₁⟩ := hf.exists_nearest (hw.live_before (i + 1))
        rw [hsize, (hl.heldAt_eq hn hg (hp ▸ hg₁)).1, Role.size_extend]
        rw [before_succ hup] at hg₁
        rw [sizeAbove, ih up g₁ hup hg₁]
        rfl

namespace Tree

variable {K K' : Charge σ} {start : Array Interval} {t t' t₁ t₂ : Tree σ cmp}

/-- The nearest Subroot lies no deeper than the correct depth, so that nothing replayed from there on starts
anew. -/
def Anchored (t : Tree σ cmp) : Prop :=
  ∀ c f, t.correctDepth = some c → t.subroot = some f → ∃ i, t.path[i]? = some f ∧ i ≤ c

/-- What the nodes keep, the sizes along the path and the correct depth fit in with what was left. -/
structure Remembers (held : Handle → Contents σ) (t : Tree σ cmp) : Prop where
  layered : Layered held t.nodes
  measured : Measured held t.nodes t.path t.sizes
  marked : ∀ c, t.correctDepth = some c → Reached held t.nodes t.path t.lp.contents c
  anchored : t.Anchored

/-- A loaded relaxation begins with what was left at the nearest Fork or Subroot. -/
structure Tracks (held : Handle → Contents σ) (t : Tree σ cmp) : Prop extends Remembers held t where
  loaded : t.focus.isSolved = true → t.focus.isLoaded = true
  begun : t.focus.isLoaded = true → (heldAt held t.lpFork).Begins t.lp.contents

theorem Remembers.congr (h : Remembers held t)
    (hag : ∀ h n, t.nodes.get? h = some n → n.role.isSnapshot = true → held' h = held h) :
    Remembers held' t where
  layered := h.layered.congr hag
  measured := h.measured.congr hag
  marked c hc := by
    obtain ⟨k, g, hk, hg, hb⟩ := h.marked c hc
    exact ⟨k, g, hk, hg, heldAt_congr hg hag ▸ hb⟩
  anchored := h.anchored

theorem Remembers.carry (h : Remembers held t) (hc : Carried Lineage t.nodes t'.nodes)
    (hf : Forest t.nodes t.root) (hf' : Forest t'.nodes t'.root) (hw : Walk t'.nodes t'.path)
    (hp : t'.path = t.path) (hs : t'.sizes = t.sizes) (hsub : t'.subroot = t.subroot)
    (hd : t'.correctDepth = t.correctDepth) (hb : t.lp.contents.Begins t'.lp.contents) : Remembers held t' where
  layered := h.layered.carry hc hf'
  measured := by
    rw [hp, hs]
    exact h.measured.carry hc hf hf'
  marked c hc' := by
    rw [hd] at hc'
    obtain ⟨k, g, hk, hg, hbegins⟩ := h.marked c hc'
    rw [← hp] at hk
    exact ⟨k, g, hk, hg.carry hc (fun _ _ => Lineage.isSnapshot) hf'
      (hw.live_of_mem (List.mem_of_getElem? hk) |>.elim fun _ => live_some), hbegins.trans hb⟩
  anchored c f hc hf := by
    rw [hp]
    exact h.anchored c f (hd ▸ hc) (hsub ▸ hf)

theorem Tracks.stays (h : Tracks held t) (hr : Resting K start t) (hr' : Resting K' start t')
    (hs : Stays t t') : Tracks held t' where
  toRemembers := h.carry hs.nodes hr.forest hr'.forest hr'.walk hs.path hs.sizes hs.subroot
    hs.correctDepth hs.contents
  loaded hs' := by
    rw [hs.isLoaded]
    exact (hs.isSolved hs').elim h.loaded fun hl => hl
  begun hl := by
    rw [hs.isLoaded] at hl
    rw [hs.lpFork]
    exact (h.begun hl).trans hs.contents

theorem Tracks.sprouts {id : Handle} (h : Tracks held t) (hr : Resting K start t) (hs : Sprouts t t' id) :
    Tracks held t' := by
  obtain ⟨m, hj, hm⟩ := hs.joined
  have hplain : m.role.isSnapshot = false := by
    rw [Role.isSnapshot_eq, Role.layer_of_waiting (by rw [hm]; rfl)]
    rfl
  refine ⟨⟨fun k n hn hq => ?_, fun i k g hk hg => ?_, fun c hc => ?_, fun c f hc hf => ?_⟩, fun hs' => ?_,
    fun hl => ?_⟩
  · obtain ⟨rfl, rfl⟩ | hn := hj.cases hn
    · cases hplain.symm.trans hq
    · obtain ⟨g, hg, hrest⟩ := h.layered k n hn hq
      exact ⟨g, hj.nearest hg, hrest⟩
  · rw [hs.path] at hk
    obtain ⟨n, hn⟩ := hr.walk.live_of_mem (List.mem_of_getElem? hk)
    obtain ⟨g₁, hg₁⟩ := hr.forest.exists_nearest (live_some hn)
    rw [(hj.nearest hg₁).unique hg] at hg₁
    rw [hs.sizes]
    exact h.measured i k g hk hg₁
  · rw [hs.correctDepth] at hc
    obtain ⟨k, g, hk, hg, hb⟩ := h.marked c hc
    rw [hs.lp]
    exact ⟨k, g, hs.path ▸ hk, hj.nearest hg, hb⟩
  · rw [hs.path]
    exact h.anchored c f (hs.correctDepth ▸ hc) (hs.subroot ▸ hf)
  · rw [hs.focus] at hs' ⊢
    exact h.loaded hs'
  · rw [hs.focus] at hl
    rw [hs.lpFork, hs.lp]
    exact h.begun hl

theorem Tracks.vacant (hv : Vacant t) : Tracks held t where
  layered k n hn := nomatch (hv.nodes k).symm.trans hn
  measured i k g hk := by
    rw [hv.path] at hk
    cases hk
  marked c hc := nomatch hv.correctDepth.symm.trans hc
  anchored c f hc := nomatch hv.correctDepth.symm.trans hc
  loaded hs := by
    rw [hv.focus] at hs
    cases hs
  begun hl := by
    rw [hv.focus] at hl
    cases hl

def noteLeft (held : Handle → Contents σ) (t : Tree σ cmp) : Handle → Contents σ := fun h =>
  if t.active = some h then t.lp.contents else held h

theorem noteLeft_eq (held : Handle → Contents σ) (hr : Resting K start t) (h : Handle) (n : Node σ)
    (hn : t.nodes.get? h = some n) (hq : n.role.isSnapshot = true) : noteLeft held t h = held h := by
  refine if_neg fun ha => ?_
  obtain ⟨m, hm, hact, -⟩ := hr.actor ha
  cases hn.symm.trans hm
  rw [hact] at hq
  cases hq

theorem Ended.contents (he : Ended K t t₁) : t₁.lp.contents = t.lp.contents := by
  unfold Relaxation.contents
  rw [he.columns, he.rows]

theorem Ended.carried (he : Ended K t t₁) (hr : Resting K' start t)
    (hplain : ∀ a m, t.active = some a → t₁.nodes.get? a = some m → m.role.layer = none) :
    Carried Lineage t.nodes t₁.nodes := by
  intro k m hm
  obtain ⟨n, hn, hturned⟩ := he.nodes.back k m hm
  refine ⟨n, hn, ?_⟩
  cases hturned with
  | waits _ hs => exact hs.kin.toLineage
  | done hact _ _ hp hd =>
      have ha := (hr.acting k).2 ⟨n, hn, hact⟩
      refine ⟨hp, hd, ?_⟩
      rw [hplain k m ha hm, eq_active_of_name hact]
      rfl

theorem Resting.no_grandchild (hr : Resting K start t) {a k p : Handle} {o : Node σ} (ha : t.active = some a)
    (hn : t.nodes.get? k = some n) (hp : n.parent = some p) (ho : t.nodes.get? p = some o) :
    o.parent ≠ some a := by
  intro hpo
  obtain ⟨o', ho', hact, -⟩ := hr.actor ha
  obtain ⟨hchild, -⟩ := hr.family.fresh p o a o' ho hpo ho' (hact ▸ rfl)
  rcases hr.family.parent k n p o hn hp ho with hact' | hopen
  · cases hchild.symm.trans hact'
  · have hwaits := Role.not_waiting_of_open hopen
    rw [hchild] at hwaits
    cases hwaits

/-- Off the active node and its children, a turn changes neither parents nor what is kept of the relaxation. -/
theorem Ended.nearest (he : Ended K t t₁) (hr : Resting K' start t) {a : Handle} (ha : t.active = some a)
    {q : Role σ → Bool} (hq : ∀ n m : Node σ, Lineage n m → q m.role = q n.role) {x g : Option Handle}
    (hg : Nearest t.nodes q x g)
    (hx : ∀ k, x = some k → k ≠ a ∧ ∀ n, t.nodes.get? k = some n → n.parent ≠ some a) :
    Nearest t₁.nodes q x g := by
  refine hg.transfer (P := fun k => k ≠ a ∧ ∀ n, t.nodes.get? k = some n → n.parent ≠ some a) hx ?_
  rintro k n hn ⟨hne, hup⟩
  obtain ⟨m, hm, hturned⟩ := he.nodes.forth k n hn
  have hline : Lineage n m := by
    cases hturned with
    | waits _ hs => exact hs.kin.toLineage
    | done hact => exact absurd (Option.some.inj (((hr.acting k).2 ⟨n, hn, hact⟩).symm.trans ha)) hne
  exact ⟨m, hm, hline.parent, hq n m hline, fun p hp =>
    ⟨fun hpa => hup n hn (hpa ▸ hp), fun o ho => hr.no_grandchild ha hn hp ho⟩⟩

theorem Ended.nearest_above (he : Ended K t t₁) (hr : Resting K' start t) {a : Handle} (ha : t.active = some a)
    {q : Role σ → Bool} (hq : ∀ n m : Node σ, Lineage n m → q m.role = q n.role) {g : Option Handle}
    (hg : Nearest t.nodes q t.above g) : Nearest t₁.nodes q t.above g := by
  obtain ⟨n, hn, -, -, -, hpar, -⟩ := hr.actor ha
  refine he.nearest hr ha hq hg fun p hp => ?_
  obtain ⟨o, ho, hdepth⟩ := hr.forest.hung a n p hn (hpar.trans hp)
  exact hr.forest.apart_of_shallower hn ho (by omega)

theorem Ended.nearest_parent (he : Ended K t t₁) (hr : Resting K' start t) {a k : Handle} (ha : t.active = some a)
    {q : Role σ → Bool} (hq : ∀ n m : Node σ, Lineage n m → q m.role = q n.role) {g : Option Handle}
    (hn : t.nodes.get? k = some n) (hsnap : n.role.isSnapshot = true) (hg : Nearest t.nodes q n.parent g) :
    Nearest t₁.nodes q n.parent g := by
  obtain ⟨o, ho, hact, -⟩ := hr.actor ha
  refine he.nearest hr ha hq hg fun p hp => ⟨?_, fun o₁ ho₁ => hr.no_grandchild ha hn hp ho₁⟩
  rintro rfl
  obtain ⟨hchild, -⟩ := hr.family.fresh k n p o hn hp ho (hact ▸ rfl)
  have hwaits := Role.not_waiting_of_isSnapshot hsnap
  rw [hchild] at hwaits
  cases hwaits

theorem Remembers.parentSize_eq (h : Remembers held t) (hr : Resting K start t) {a : Handle}
    (ha : t.active = some a) (hn : t.nodes.get? a = some n) {above : Extent}
    (hs : t.parentSize n.depth = .ok above) : above = (heldAt held t.lpFork).size := by
  obtain ⟨m, hm, -, hd, -⟩ := hr.actor ha
  cases hn.symm.trans hm
  have hfork := hr.lpFork
  unfold Tree.above at hfork
  rw [← hd, Nat.add_sub_cancel] at hfork
  cases hdepth : n.depth with
  | zero =>
      rw [hdepth] at hs hfork
      cases hs
      rw [hfork.unique .top]
      rfl
  | succ d =>
      rw [hdepth] at hs hfork
      obtain ⟨up, hup⟩ : ∃ up, t.path[d]? = some up := ⟨_, List.getElem?_eq_getElem (by omega)⟩
      rw [before_succ hup] at hfork
      exact Except.ok.inj (hs.symm.trans (pathSize_ok (h.measured d up _ hup hfork)))

/-- A Fork or Subroot that the active node becomes keeps what makes up the relaxation on top of what was
left above. -/
theorem Tracks.snapshot_eq (h : Tracks held t) (hr : Resting K start t) {a : Handle}
    (ha : t.active = some a) (hn : t.nodes.get? a = some n) {full : Bool} {above : Extent} {role : Role σ}
    (hsolved : t.focus.isSolved = true) (habove : t.parentSize n.depth = .ok above)
    (hlayer : role.layer = some (full, ⟨(t.lp.suffix (if full then .zero else above)).1,
      (t.lp.suffix (if full then .zero else above)).2⟩)) :
    t.lp.contents = role.extend (heldAt held t.lpFork) := by
  have hbegun := h.begun (h.loaded hsolved)
  unfold Role.extend
  rw [hlayer]
  cases full with
  | true => rfl
  | false =>
      rw [h.parentSize_eq hr ha hn habove]
      exact (Relaxation.append_suffix hbegun).symm

theorem Resting.anchored_snapshot (hr : Resting K start t) {a : Handle} (ha : t.active = some a)
    (hn : t.nodes.get? a = some n) (hp : t₁.path = t.path)
    (hsub : t₁.subroot = some a ∨ t₁.subroot = t.subroot) (hd : t₁.correctDepth = some n.depth) :
    t₁.Anchored := by
  obtain ⟨n', hn', -, hlen, -, -, hplace⟩ := hr.actor ha
  cases hn.symm.trans hn'
  intro c f hc hf
  cases hd.symm.trans hc
  rw [hp]
  rcases hsub with hsub | hsub
  · cases hsub.symm.trans hf
    exact ⟨n.depth, hplace, Nat.le_refl _⟩
  · rw [hsub] at hf
    obtain ⟨m, -, -, hplace', hm⟩ := hr.walk.nearest_onPath (hf ▸ hr.subroot)
    exact ⟨m.depth, hplace', by omega⟩

theorem Ended.remembers_snapshot (he : Ended K t t₁) (hr : Resting K' start t) (h : Tracks held t) {a : Handle}
    {m : Node σ} (ha : t.active = some a) (hn : t.nodes.get? a = some n) (hm : t₁.nodes.get? a = some m)
    (hself : m.role.isSnapshot = true) (hbegun : (heldAt held t.lpFork).Begins t.lp.contents)
    (hkeeps : t.lp.contents = m.role.extend (heldAt held t.lpFork))
    (hsizes : t₁.sizes = t.sizes.set n.depth t.lp.size) (hsub : t₁.subroot = some a ∨ t₁.subroot = t.subroot)
    (hd : t₁.correctDepth = some n.depth) : Remembers (noteLeft held t) t₁ := by
  have hag := noteLeft_eq held hr
  have hheld : noteLeft held t a = t.lp.contents := if_pos ha
  obtain ⟨n', hn', -, hlen, -, hpar, hplace⟩ := hr.actor ha
  cases hn.symm.trans hn'
  have hmp : m.parent = n.parent := by
    obtain ⟨m', hm', hturned⟩ := he.nodes.forth a n hn
    cases hm.symm.trans hm'
    exact hturned.parent
  have hlt : n.depth < t.sizes.length := by
    rw [hr.sized]
    omega
  refine ⟨fun k o ho hq => ?_, fun i k g hk hg => ?_, fun c hc => ?_, ?_⟩
  · by_cases hk : k = a
    · subst hk
      cases hm.symm.trans ho
      refine ⟨t.lpFork, ?_, ?_⟩
      · rw [hmp, hpar]
        exact he.nearest_above hr ha (fun _ _ => Lineage.isSnapshot) hr.lpFork
      · rw [hheld, heldAt_congr hr.lpFork hag]
        exact ⟨hkeeps, hbegun⟩
    · obtain ⟨o', ho', hturned⟩ := he.nodes.back k o ho
      have hline : Lineage o' o := by
        cases hturned with
        | waits _ hs => exact hs.kin.toLineage
        | done hact' => exact absurd (Option.some.inj (((hr.acting k).2 ⟨o', ho', hact'⟩).symm.trans ha)) hk
      rw [hline.isSnapshot] at hq
      obtain ⟨g, hg, heq, hb⟩ := h.layered k o' ho' hq
      refine ⟨g, ?_, ?_⟩
      · rw [hline.parent]
        exact he.nearest_parent hr ha (fun _ _ => Lineage.isSnapshot) ho' hq hg
      · rw [heldAt_congr hg hag, hag k o' ho' hq, Role.extend_congr hline.layer]
        exact ⟨heq, hb⟩
  · rw [he.path] at hk
    rw [hsizes]
    obtain ⟨o, ho, hdo, -⟩ := hr.walk.step i k hk
    by_cases hi : i = n.depth
    · subst hi
      cases hplace.symm.trans hk
      rw [hg.unique (.here hm hself), List.getElem?_set_self hlt]
      exact congrArg (some ·.size) hheld.symm
    · have := (List.getElem?_eq_some_iff.1 hk).1
      obtain ⟨g₁, hg₁⟩ := hr.forest.exists_nearest (live_some ho)
      have hg₂ := he.nearest hr ha (fun _ _ => Lineage.isSnapshot) hg₁ fun k' hk' =>
        Option.some.inj hk' ▸ hr.forest.apart_of_shallower hn ho (by omega)
      rw [hg.unique hg₂, heldAt_congr hg₁ hag, List.getElem?_set_ne (Ne.symm hi)]
      exact h.measured i k g₁ hk hg₁
  · cases hd.symm.trans hc
    refine ⟨a, some a, he.path ▸ hplace, .here hm hself, ?_⟩
    rw [he.contents]
    exact hheld ▸ .refl _
  · exact hr.anchored_snapshot ha hn he.path hsub hd

theorem Ended.remembers (he : Ended K t t₁) (hr : Resting K' start t) (h : Tracks held t) :
    Remembers (noteLeft held t) t₁ := by
  have hag := noteLeft_eq held hr
  cases ha : t.active with
  | none =>
      rw [he.idle ha]
      exact h.congr hag
  | some a =>
      obtain ⟨n, m, hn, hm, hleaves⟩ := he.leaves a ha
      cases hleaves with
      | nothing hlayer hsizes hfork hsub hd =>
          have hc := he.carried hr fun b o hb ho => by
            cases ha.symm.trans hb
            cases hm.symm.trans ho
            exact hlayer
          refine Remembers.carry (h.congr hag) hc hr.forest he.sound.forest he.sound.walk he.path hsizes
            hsub hd ?_
          rw [he.contents]
          exact .refl _
      | snapshot full above hsolved habove _ hlayer hsizes hfork hsub hd =>
          refine he.remembers_snapshot hr h ha hn hm ?_ (h.begun (h.loaded hsolved))
            (h.snapshot_eq hr ha hn hsolved habove hlayer) hsizes ?_ hd
          · rw [Role.isSnapshot_eq, hlayer]
            rfl
          · rw [hsub]
            cases full with
            | true => exact .inl rfl
            | false => exact .inr rfl

theorem Remembers.kept {gone : List Handle} {s s' : Stage} (h : Remembers held t₁) (hk : Kept gone t₁ t₂)
    (hs : Sound K s t₁) (hs' : Sound K' s' t₂) : Remembers held t₂ := by
  have hstays := hk.stays
  exact h.carry hstays.nodes hs.forest hs'.forest hs'.walk hstays.path hstays.sizes hstays.subroot
    hstays.correctDepth hstays.contents

theorem Followed.lt_keep {s : Stage} {r : Route} {target anchor : Option Handle} (hf : Followed t₂ t' r target)
    (hs : Sound K s t₂) (hl : Leads t₂ r target anchor) {k : Handle} (hk : t₂.path[i]? = some k)
    (hk' : t'.path[i]? = some k) : i < r.keep := by
  by_contra hge
  obtain ⟨m, hm, -, hon, -⟩ := hs.walk.step i k hk
  have hlen : (t₂.path.take r.keep).length = r.keep := List.length_take_of_le hl.keep_le
  rw [hf.path, List.getElem?_append_right (by omega)] at hk'
  cases hon.symm.trans (hl.off k (List.mem_reverse.1 (List.mem_of_getElem? hk')) m hm)

theorem Followed.anchored {s : Stage} {r : Route} {target anchor : Option Handle} (hf : Followed t₂ t' r target)
    (h : t₂.Anchored) (hs : Sound K s t₂) (hr : Resting K' start t') (hl : Leads t₂ r target anchor) :
    t'.Anchored := by
  intro c f hc hsub
  rw [hf.correctDepth] at hc
  unfold correctDepthAfter at hc
  split at hc
  · rename_i hsame
    cases hd : t₂.correctDepth with
    | none =>
        rw [hd] at hc
        cases hc
    | some c₂ =>
        cases hcommon : r.common with
        | none =>
            rw [hd, hcommon] at hc
            cases hc
        | some d =>
            rw [hd, hcommon] at hc
            cases hc
            obtain ⟨i, hplace, hi⟩ := h c₂ f hd (by rw [← hsame, ← hf.subroot, hsub])
            -- The depth of the Subroot tells that its place on the new path is the old one.
            obtain ⟨n, hn, -, hplace', -⟩ := hr.walk.nearest_onPath (hsub ▸ hr.subroot)
            obtain ⟨m, hm, hline⟩ := hf.nodes f n hn
            obtain ⟨m', hm', hdepth, -⟩ := hs.walk.step i f hplace
            cases hm.symm.trans hm'
            rw [hline.depth, hdepth] at hplace'
            have hlt := hf.lt_keep hs hl hplace hplace'
            refine ⟨i, hplace', ?_⟩
            unfold Route.keep at hlt
            rw [hcommon] at hlt
            exact Nat.le_min.2 ⟨hi, Nat.le_of_lt_succ hlt⟩
  · cases hc

/-- Along a route the sizes of the nodes entered are those of what was left, and the correct depth goes up
to what the paths share. -/
theorem Remembers.followed {s : Stage} {r : Route} {target anchor : Option Handle} (h : Remembers held t₂)
    (hs : Sound K s t₂) (hr : Resting K' start t') (hl : Leads t₂ r target anchor)
    (hf : Followed t₂ t' r target) : Remembers held t' := by
  have htake := hf.take_path hl.keep_le
  have hlayered := h.layered.carry hf.nodes hr.forest
  have hcontents : t'.lp.contents = t₂.lp.contents := by
    unfold Relaxation.contents
    rw [hf.columns, hf.rows]
  refine ⟨hlayered, hf.sized.measured hlayered hr.walk hr.forest ?_, fun c hc => ?_, hf.anchored h.anchored hs hr hl⟩
  · rw [htake, hf.sizes]
    exact (h.measured.take r.keep).carry hf.nodes hs.forest hr.forest
  · rw [hf.correctDepth] at hc
    unfold correctDepthAfter at hc
    split at hc
    · cases hd : t₂.correctDepth with
      | none =>
          rw [hd] at hc
          cases hc
      | some c₂ =>
          cases hcommon : r.common with
          | none =>
              rw [hd, hcommon] at hc
              cases hc
          | some d =>
              rw [hd, hcommon] at hc
              cases hc
              have hkeep : d < r.keep := by
                unfold Route.keep
                rw [hcommon]
                exact Nat.lt_succ_self d
              have hlt : min c₂ d < r.keep := Nat.lt_of_le_of_lt (Nat.min_le_right _ _) hkeep
              obtain ⟨k₂, g₂, hk₂, hg₂, hb₂⟩ := h.marked c₂ hd
              obtain ⟨k, hk⟩ : ∃ k, t₂.path[min c₂ d]? = some k :=
                ⟨_, List.getElem?_eq_getElem (Nat.lt_of_lt_of_le hlt hl.keep_le)⟩
              obtain ⟨g, hg⟩ := hs.forest.exists_nearest (hs.walk.live_before (min c₂ d + 1))
              rw [← before_succ hk₂] at hg₂
              have hb := h.layered.begins_before hs.walk hs.forest
                (Nat.succ_le_succ (Nat.min_le_left c₂ d)) (List.getElem?_eq_some_iff.1 hk₂).1 hg hg₂
              rw [before_succ hk] at hg
              have hk' : t'.path[min c₂ d]? = some k := by
                rw [← hk, ← List.getElem?_take_of_lt hlt, htake, List.getElem?_take_of_lt hlt]
              obtain ⟨m, hm⟩ := hr.walk.live_of_mem (List.mem_of_getElem? hk')
              refine ⟨k, g, hk', hg.carry hf.nodes (fun _ _ => Lineage.isSnapshot) hr.forest (live_some hm), ?_⟩
              rw [hcontents]
              exact hb.trans hb₂
    · cases hc

theorem Tracks.switched {target : Option Handle} (h : Tracks held t) (hr : Resting K' start t)
    (hr' : Resting K' start t') (hs : Switched K t t' target) : Tracks (noteLeft held t) t' := by
  obtain ⟨hended, hkept, hsound, hleads, hfollowed⟩ := hs
  have h₁ := hended.remembers hr h
  have h₂ := h₁.kept hkept hended.sound hsound
  refine ⟨h₂.followed hsound hr' hleads hfollowed, fun hs => ?_, fun hl => ?_⟩
  · cases hfollowed.isSolved.symm.trans hs
  · cases hfollowed.isLoaded.symm.trans hl

end Tree

end BranchBound
