import BranchBound.Tree.State
import BranchBound.Proofs.Arena
import BranchBound.Proofs.Contents

namespace BranchBound

variable {σ : Type} [Solver σ] {a b c : Arena (Node σ)} {q : Role σ → Bool} {root : Option Handle}
  {x y z g g' : Option Handle} {h p : Handle} {n m : Node σ} {path : List Handle}

/-- Every node but the root hangs from a live one, a level deeper. -/
structure Forest (a : Arena (Node σ)) (root : Option Handle) : Prop where
  rooted : ∀ h n, a.get? h = some n → n.parent = none → root = some h ∧ n.depth = 0
  hung : ∀ h n p, a.get? h = some n → n.parent = some p →
    ∃ m, a.get? p = some m ∧ n.depth = m.depth + 1
  root_live : ∀ h, root = some h → ∃ n, a.get? h = some n ∧ n.parent = none

/-- Following the parents from `x`, the listed nodes lie before `y`. -/
inductive Climb (a : Arena (Node σ)) : Option Handle → List Handle → Option Handle → Prop
  | done {x : Option Handle} : Climb a x [] x
  | step {h : Handle} {n : Node σ} {l : List Handle} {y : Option Handle} :
      a.get? h = some n → Climb a n.parent l y → Climb a (some h) (h :: l) y

inductive Nearest (a : Arena (Node σ)) (q : Role σ → Bool) : Option Handle → Option Handle → Prop
  | top : Nearest a q none none
  | here {h : Handle} {n : Node σ} : a.get? h = some n → q n.role = true →
      Nearest a q (some h) (some h)
  | above {h : Handle} {n : Node σ} {g : Option Handle} : a.get? h = some n → q n.role = false →
      Nearest a q n.parent g → Nearest a q (some h) g

/-- The live nodes of `b` were live in `a`, and stand in the relation `R` to what they were. -/
def Carried (R : Node σ → Node σ → Prop) (a b : Arena (Node σ)) : Prop :=
  ∀ h m, b.get? h = some m → ∃ n, a.get? h = some n ∧ R n m

structure Lineage (n m : Node σ) : Prop where
  parent : m.parent = n.parent
  depth : m.depth = n.depth
  layer : m.role.layer = n.role.layer

structure Kin (n m : Node σ) : Prop extends Lineage n m where
  changes : m.log.changes = n.log.changes

def Live (a : Arena (Node σ)) (x : Option Handle) : Prop := ∀ h, x = some h → ∃ n, a.get? h = some n

def before (path : List Handle) : Nat → Option Handle
  | 0 => none
  | i + 1 => path[i]?

/-- The path runs down from the root, and its nodes are exactly those marked as on it. -/
structure Walk (a : Arena (Node σ)) (path : List Handle) : Prop where
  step : ∀ i h, path[i]? = some h →
    ∃ n, a.get? h = some n ∧ n.depth = i ∧ n.onPath = true ∧ n.parent = before path i
  flagged : ∀ h n, a.get? h = some n → n.onPath = true → h ∈ path

theorem Lineage.refl (n : Node σ) : Lineage n n := ⟨rfl, rfl, rfl⟩

theorem Kin.refl (n : Node σ) : Kin n n := ⟨.refl n, rfl⟩

theorem Lineage.trans {k : Node σ} (h : Lineage n m) (h' : Lineage m k) : Lineage n k :=
  ⟨h'.parent.trans h.parent, h'.depth.trans h.depth, h'.layer.trans h.layer⟩

theorem Kin.trans {k : Node σ} (h : Kin n m) (h' : Kin m k) : Kin n k :=
  ⟨h.toLineage.trans h'.toLineage, h'.changes.trans h.changes⟩

theorem Lineage.isSnapshot (h : Lineage n m) : m.role.isSnapshot = n.role.isSnapshot := by
  rw [Role.isSnapshot_eq, Role.isSnapshot_eq, h.layer]

theorem Lineage.isSubroot (h : Lineage n m) : m.role.isSubroot = n.role.isSubroot := by
  rw [Role.isSubroot_eq, Role.isSubroot_eq, h.layer]

section Carried

variable {R S T : Node σ → Node σ → Prop}

theorem Carried.refl (hR : ∀ n, R n n) (a : Arena (Node σ)) : Carried R a a :=
  fun _ m hm => ⟨m, hm, hR m⟩

theorem Carried.trans (hT : ∀ n m k, R n m → S m k → T n k) (h : Carried R a b)
    (h' : Carried S b c) : Carried T a c := by
  intro k m hm
  obtain ⟨n, hn, hnm⟩ := h' k m hm
  obtain ⟨o, ho, hon⟩ := h k n hn
  exact ⟨o, ho, hT o n m hon hnm⟩

theorem Carried.mono (hS : ∀ n m, R n m → S n m) (h : Carried R a b) : Carried S a b := by
  intro k m hm
  obtain ⟨n, hn, hnm⟩ := h k m hm
  exact ⟨n, hn, hS n m hnm⟩

theorem Carried.kin_trans (h : Carried Kin a b) (h' : Carried Kin b c) : Carried Kin a c :=
  Carried.trans (S := Kin) (fun _ _ _ => Kin.trans) h h'

theorem Carried.lineage (h : Carried Kin a b) : Carried Lineage a b := h.mono fun _ _ => Kin.toLineage

theorem Carried.adjust {f : Handle → Node σ → Node σ} (h : ∀ k n, a.get? k = some n → R n (f k n)) :
    Carried R a (a.adjust f) := by
  intro k m hm
  rw [Arena.get?_adjust] at hm
  obtain ⟨n, hn, rfl⟩ := Option.map_eq_some_iff.1 hm
  exact ⟨n, hn, h k n hn⟩

theorem Carried.set (hR : ∀ n, R n n) (hn : a.get? h = some n) (hm : R n m) :
    Carried R a (a.set h m) := by
  rw [Arena.set_eq_adjust]
  apply Carried.adjust
  intro k o ho
  by_cases hk : k = h
  · subst hk
    cases hn.symm.trans ho
    rwa [if_pos rfl]
  · rw [if_neg hk]
    exact hR o

theorem Carried.erase (hR : ∀ n, R n n) (he : a.erase h = some (n, b)) : Carried R a b := by
  intro k m hm
  rw [Arena.get?_of_erase he] at hm
  split at hm
  · cases hm
  · exact ⟨m, hm, hR m⟩

end Carried

theorem live_none : Live a none := fun _ h => nomatch h

theorem live_some (hn : a.get? h = some n) : Live a (some h) := by
  rintro _ ⟨⟩
  exact ⟨n, hn⟩

theorem Forest.live_parent (ha : Forest a root) (hn : a.get? h = some n) : Live a n.parent := by
  intro p hp
  obtain ⟨m, hm, -⟩ := ha.hung h n p hn hp
  exact ⟨m, hm⟩

theorem Forest.apart_of_shallower (ha : Forest a root) {k : Handle} {o : Node σ} (hn : a.get? h = some n)
    (ho : a.get? k = some o) (hd : o.depth < n.depth) : k ≠ h ∧ ∀ m, a.get? k = some m → m.parent ≠ some h := by
  refine ⟨?_, fun m hm hp => ?_⟩
  · rintro rfl
    cases hn.symm.trans ho
    exact Nat.lt_irrefl _ hd
  · cases ho.symm.trans hm
    obtain ⟨n', hn', hdn⟩ := ha.hung k o h ho hp
    cases hn.symm.trans hn'
    omega

/-- What holds of a node once it holds of its children holds of every node. -/
theorem Forest.induction_children (ha : Forest a root) {P : Handle → Prop}
    (step : ∀ h n, a.get? h = some n → (∀ k m, a.get? k = some m → m.parent = some h → P k) → P h)
    (hn : a.get? h = some n) : P h := by
  obtain ⟨deepest, hdeep⟩ : ∃ d, ∀ k m, a.get? k = some m → m.depth ≤ d :=
    ⟨(a.toList.map fun e => e.2.depth).max?.getD 0, fun k m hm =>
      List.le_max?_getD_of_mem (List.mem_map_of_mem (Arena.mem_toList.2 hm : (k, m) ∈ a.toList))⟩
  induction hd : deepest - n.depth using Nat.strongRecOn generalizing h n with
  | ind d ih =>
      refine step h n hn fun k m hm hp => ?_
      obtain ⟨n', hn', hdm⟩ := ha.hung k m h hm hp
      cases hn.symm.trans hn'
      have hle := hdeep k m hm
      exact ih (deepest - m.depth) (by omega) hm rfl

namespace Climb

theorem append {l l' : List Handle} (h : Climb a x l y) (h' : Climb a y l' z) :
    Climb a x (l ++ l') z := by
  induction h with
  | done => exact h'
  | step hn _ ih => exact .step hn (ih h')

theorem carry {l : List Handle} (hc : Carried Lineage a b) (hb : Forest b root) (h : Climb a x l y)
    (hx : Live b x) : Climb b x l y := by
  induction h with
  | done => exact .done
  | step hn _ ih =>
      obtain ⟨m, hm⟩ := hx _ rfl
      obtain ⟨n', hn', hr⟩ := hc _ m hm
      cases hn.symm.trans hn'
      have hp := hb.live_parent hm
      rw [hr.parent] at hp
      refine .step hm ?_
      rw [hr.parent]
      exact ih hp

theorem eq_head {l : List Handle} (h : Climb a x l y) (hp : l.head? = some p) : x = some p := by
  cases h with
  | done => cases hp
  | step => exact hp

theorem unique {l l' : List Handle} (h : Climb a x l y) (h' : Climb a x l' y) (hy : y = none) : l = l' := by
  induction h generalizing l' with
  | done =>
      cases h' with
      | done => rfl
      | step => cases hy
  | step hn _ ih =>
      cases h' with
      | done => cases hy
      | step hn' h' =>
          cases hn.symm.trans hn'
          rw [ih h' hy]

end Climb

theorem Forest.exists_climb (ha : Forest a root) (hx : Live a x) : ∃ l, Climb a x l none := by
  cases x with
  | none => exact ⟨[], .done⟩
  | some h =>
      obtain ⟨n, hn⟩ := hx h rfl
      induction hd : n.depth generalizing h n with
      | zero =>
          cases hp : n.parent with
          | none => exact ⟨[h], .step hn (hp ▸ .done)⟩
          | some p =>
              obtain ⟨m, -, hdm⟩ := ha.hung h n p hn hp
              omega
      | succ d ih =>
          cases hp : n.parent with
          | none => exact ⟨[h], .step hn (hp ▸ .done)⟩
          | some p =>
              obtain ⟨m, hm, hdm⟩ := ha.hung h n p hn hp
              obtain ⟨l, hl⟩ := ih p (live_some hm) m hm (by omega)
              exact ⟨h :: l, .step hn (hp ▸ hl)⟩

namespace Nearest

theorem unique (hg : Nearest a q x g) (hg' : Nearest a q x g') : g = g' := by
  induction hg with
  | top =>
      cases hg'
      rfl
  | here hn hq =>
      cases hg' with
      | here => rfl
      | above hn' hq' =>
          cases hn.symm.trans hn'
          rw [hq] at hq'
          cases hq'
  | above hn hq _ ih =>
      cases hg' with
      | here hn' hq' =>
          cases hn.symm.trans hn'
          rw [hq] at hq'
          cases hq'
      | above hn' _ h' =>
          cases hn.symm.trans hn'
          exact ih h'

theorem holds (h : Nearest a q x (some p)) : ∃ n, a.get? p = some n ∧ q n.role = true := by
  generalize hg : some p = g at h
  induction h with
  | top => cases hg
  | here hn hq =>
      cases hg
      exact ⟨_, hn, hq⟩
  | above _ _ _ ih => exact ih hg

theorem live (h : Nearest a q x g) : Live a x := by
  cases h with
  | top => exact live_none
  | here hn => exact live_some hn
  | above hn => exact live_some hn

theorem of_climb {l : List Handle} (h : Climb a x l none) : ∃ g, Nearest a q x g := by
  generalize hy : (none : Option Handle) = y at h
  induction h with
  | done => exact ⟨none, hy ▸ .top⟩
  | step hn _ ih =>
      obtain ⟨g, hg⟩ := ih hy
      cases hq : q (Node.role _) with
      | true => exact ⟨_, .here hn hq⟩
      | false => exact ⟨g, .above hn hq hg⟩

/-- On a set of nodes that is closed upwards, only parents and roles matter. -/
theorem transfer {P : Handle → Prop} (hg : Nearest a q x g) (hx : ∀ h, x = some h → P h)
    (hstep : ∀ h n, a.get? h = some n → P h → ∃ m, b.get? h = some m ∧ m.parent = n.parent ∧
      q m.role = q n.role ∧ ∀ p, n.parent = some p → P p) : Nearest b q x g := by
  induction hg with
  | top => exact .top
  | here hn hq =>
      obtain ⟨m, hm, -, hr, -⟩ := hstep _ _ hn (hx _ rfl)
      exact .here hm (hr.trans hq)
  | above hn hq _ ih =>
      obtain ⟨m, hm, hp, hr, hup⟩ := hstep _ _ hn (hx _ rfl)
      refine .above hm (hr.trans hq) ?_
      rw [hp]
      exact ih hup

theorem carry (hc : Carried Lineage a b) (hq : ∀ n m : Node σ, Lineage n m → q m.role = q n.role)
    (hb : Forest b root) (hg : Nearest a q x g) (hx : Live b x) : Nearest b q x g := by
  refine hg.transfer (P := fun h => ∃ m, b.get? h = some m) hx ?_
  rintro h n hn ⟨m, hm⟩
  obtain ⟨n', hn', hr⟩ := hc h m hm
  cases hn.symm.trans hn'
  have hp := hb.live_parent hm
  rw [hr.parent] at hp
  exact ⟨m, hm, hr.parent, hq n m hr, hp⟩

end Nearest

theorem Forest.exists_nearest (ha : Forest a root) (hx : Live a x) : ∃ g, Nearest a q x g :=
  let ⟨_, hl⟩ := ha.exists_climb hx
  Nearest.of_climb hl

section Before

variable {i j : Nat}

theorem before_succ (hh : path[i]? = some h) : before path (i + 1) = some h := hh

theorem before_take (hi : i ≤ j) : before (path.take j) i = before path i := by
  cases i with
  | zero => rfl
  | succ i => rw [before, before, List.getElem?_take_of_lt hi]

theorem before_append (hi : i ≤ path.length) (l : List Handle) :
    before (path ++ l) i = before path i := by
  cases i with
  | zero => rfl
  | succ i => rw [before, before, List.getElem?_append_left hi]

theorem before_length_append (path : List Handle) (h : Handle) :
    before (path ++ [h]) (path ++ [h]).length = some h := by
  rw [List.length_append, List.length_singleton]
  exact before_succ List.getElem?_concat_length

end Before

namespace Walk

variable {i j : Nat}

theorem live_before (hw : Walk a path) (i : Nat) : Live a (before path i) := by
  cases i with
  | zero => exact live_none
  | succ i =>
      intro h hh
      obtain ⟨n, hn, -⟩ := hw.step i h hh
      exact ⟨n, hn⟩

theorem live_of_mem (hw : Walk a path) (hh : h ∈ path) : ∃ n, a.get? h = some n := by
  obtain ⟨i, hi⟩ := List.mem_iff_getElem?.1 hh
  obtain ⟨n, hn, -⟩ := hw.step i h hi
  exact ⟨n, hn⟩

theorem parent_of_end (hw : Walk a path) (hh : before path path.length = some h)
    (hn : a.get? h = some n) : n.parent = before path (path.length - 1) := by
  cases hlen : path.length with
  | zero =>
      rw [hlen] at hh
      cases hh
  | succ i =>
      rw [hlen] at hh
      obtain ⟨m, hm, -, -, hp⟩ := hw.step i h hh
      cases hn.symm.trans hm
      exact hp

theorem climb (hw : Walk a path) (hi : i ≤ path.length) :
    Climb a (before path i) (path.take i).reverse none := by
  induction i with
  | zero => exact .done
  | succ i ih =>
      obtain ⟨h, hh⟩ : ∃ h, path[i]? = some h := ⟨_, List.getElem?_eq_getElem hi⟩
      obtain ⟨n, hn, -, -, hp⟩ := hw.step i h hh
      rw [before_succ hh, List.take_add_one, hh, Option.toList_some, List.reverse_append]
      refine .step hn ?_
      rw [hp]
      exact ih (Nat.le_of_lt hi)

theorem nearest_onPath (hw : Walk a path) {g : Handle} (hg : Nearest a q (before path i) (some g)) :
    ∃ n, a.get? g = some n ∧ q n.role = true ∧ path[n.depth]? = some g ∧ n.depth < i := by
  induction i with
  | zero => cases hg
  | succ i ih =>
      cases hb : path[i]? with
      | none =>
          rw [before, hb] at hg
          cases hg
      | some h =>
          rw [before_succ hb] at hg
          obtain ⟨n, hn, rfl, -, hp⟩ := hw.step i h hb
          cases hg with
          | here hn' hq =>
              cases hn.symm.trans hn'
              exact ⟨n, hn, hq, hb, Nat.lt_succ_self _⟩
          | above hn' _ h' =>
              cases hn.symm.trans hn'
              rw [hp] at h'
              obtain ⟨m, hm, hq, hm', hlt⟩ := ih h'
              exact ⟨m, hm, hq, hm', Nat.lt_succ_of_lt hlt⟩

/-- What is nearest above a place on the path is nearest above the places down from it. -/
theorem nearest_between {g : Option Handle} (hw : Walk a path) (hg : Nearest a q (before path j) g)
    (hj : j ≤ path.length) (hi : i ≤ j) (hd : ∀ f n, g = some f → a.get? f = some n → n.depth < i) :
    Nearest a q (before path i) g := by
  induction j with
  | zero =>
      obtain rfl : i = 0 := by omega
      exact hg
  | succ j ih =>
      rcases Nat.eq_or_lt_of_le hi with rfl | hlt
      · exact hg
      · obtain ⟨h, hh⟩ : ∃ h, path[j]? = some h := ⟨_, List.getElem?_eq_getElem hj⟩
        obtain ⟨n, hn, hdepth, -, hp⟩ := hw.step j h hh
        rw [before_succ hh] at hg
        cases hg with
        | here =>
            have := hd _ n rfl hn
            omega
        | above hn' _ hg' =>
            cases hn.symm.trans hn'
            exact ih (hp ▸ hg') (Nat.le_of_lt hj) (Nat.le_of_lt_succ hlt)

theorem at_depth (hw : Walk a path) (hn : a.get? h = some n) (ho : n.onPath = true) :
    path[n.depth]? = some h := by
  obtain ⟨i, hi⟩ := List.mem_iff_getElem?.1 (hw.flagged h n hn ho)
  obtain ⟨m, hm, hd, -⟩ := hw.step i h hi
  cases hn.symm.trans hm
  exact hd ▸ hi

theorem place_unique (hw : Walk a path) (hi : path[i]? = some h) (hj : path[j]? = some h) : i = j := by
  obtain ⟨n, hn, hd, -⟩ := hw.step i h hi
  obtain ⟨m, hm, hd', -⟩ := hw.step j h hj
  cases hn.symm.trans hm
  exact hd.symm.trans hd'

end Walk

end BranchBound
