import BranchBound.Proofs.Calm
import BranchBound.Proofs.Reconstruction

namespace BranchBound.Tree

variable {σ : Type} [Solver σ] {cmp : NodeOrder} {K : Charge σ} {start : Array Interval} {t u : Tree σ cmp}
  {id : Handle} {n : Node σ}

/-- Who is active, what the path holds, and what the nodes hang from. -/
structure Rooted (t : Tree σ cmp) : Prop where
  active : ∀ h, t.active = some h ↔ ∃ n, t.nodes.get? h = some n ∧ n.role.name = .active
  idle : t.active = none → t.path = []
  chain : Climb t.nodes t.active t.path.reverse none
  depth : ∀ i h, t.path[i]? = some h → ∃ n, t.nodes.get? h = some n ∧ n.depth = i
  onPath : ∀ h n, t.nodes.get? h = some n → (n.onPath = true ↔ h ∈ t.path)
  sized : t.sizes.length = t.path.length
  hung : ∀ h n, t.nodes.get? h = some n → t.root ≠ some h →
    ∃ p m, n.parent = some p ∧ t.nodes.get? p = some m ∧ n.depth = m.depth + 1
  root : ∀ h, t.root = some h → ∃ n, t.nodes.get? h = some n ∧ n.parent = none ∧ n.depth = 0
  vacant : t.root = none ↔ ∀ h, t.nodes.get? h = none

/-- The live nodes are nodes of `t`, and hang where they hang there. -/
def Hangs (t u : Tree σ cmp) : Prop :=
  Carried (fun n m => m.parent = n.parent ∧ m.depth = n.depth) t.nodes u.nodes

instance : IsPreorder (Tree σ cmp) Hangs where
  refl t := .refl (fun _ => ⟨rfl, rfl⟩) t.nodes
  trans _ _ _ h h' := Carried.trans (fun _ _ _ g g' => ⟨g'.1.trans g.1, g'.2.trans g.2⟩) h h'

def Remains (t u : Tree σ cmp) : Prop :=
  Carried (fun n m => m.parent = n.parent ∧ m.depth = n.depth ∧ m.lowerBound = n.lowerBound) t.nodes u.nodes

instance : IsPreorder (Tree σ cmp) Remains where
  refl t := .refl (fun _ => ⟨rfl, rfl, rfl⟩) t.nodes
  trans _ _ _ h h' := Carried.trans (fun _ _ _ g g' =>
    ⟨g'.1.trans g.1, g'.2.1.trans g.2.1, g'.2.2.trans g.2.2⟩) h h'

theorem Remains.hangs (h : Remains t u) : Hangs t u := by
  intro k m hm
  obtain ⟨n, hn, hparent, hdepth, -⟩ := h k m hm
  exact ⟨n, hn, hparent, hdepth⟩

theorem Calm.remains {x : Option Handle} {q : Dealing} (h : Calm x q t u) : Remains t u := by
  intro k m hm
  obtain ⟨n, hn, hs⟩ := h.nodes k m hm
  exact ⟨n, hn, hs.parent, hs.depth, hs.lowerBound⟩

theorem Calm.hangs {x : Option Handle} {q : Dealing} (h : Calm x q t u) : Hangs t u := h.remains.hangs

theorem Sweeps.remains (h : Sweeps t u) : Remains t u := Calm.remains (x := none) (q := .keeps) h.calm

theorem Sweeps.hangs (h : Sweeps t u) : Hangs t u := h.remains.hangs

/-- What starts at a node ends at the root at the latest: no more steps are ever needed than the node has
ancestors. -/
structure Shallow (u : Tree σ cmp) (id : Handle) (n : Node σ) : Prop where
  climb : ∀ k, u.climb (n.depth + k) n.parent = u.climb n.depth n.parent
  fresh : ∀ r, u.route id = .ok r → r.fresh.length ≤ n.depth + 1
  cascade : ∀ k, freeUpwards (n.depth + k) id u = freeUpwards n.depth id u

section Forest

theorem Resting.no_climb (h : Resting K start t) (hr : t.root = none) {x y : Option Handle} {l : List Handle}
    (hl : Climb t.nodes x l y) (hy : y = none) : x = none := by
  induction hl with
  | done => exact hy
  | @step k n l y hn _ ih =>
      have hroot := (h.forest.rooted k n hn (ih hy)).1
      rw [hr] at hroot
      cases hroot

theorem Resting.vacant_of_root (h : Resting K start t) (hr : t.root = none) (k : Handle) : t.nodes.get? k = none := by
  cases hn : t.nodes.get? k with
  | none => rfl
  | some n =>
      obtain ⟨l, hl⟩ := h.forest.exists_climb (live_some hn)
      cases h.no_climb hr hl rfl

theorem Resting.rooted (h : Resting K start t) : Rooted t where
  active := h.acting
  idle := h.path_nil
  chain := h.ancestry
  depth i k hk := by
    obtain ⟨n, hn, hd, -⟩ := h.walk.step i k hk
    exact ⟨n, hn, hd⟩
  onPath k n hn := by
    refine ⟨h.walk.flagged k n hn, fun hk => ?_⟩
    obtain ⟨i, hi⟩ := List.mem_iff_getElem?.1 hk
    obtain ⟨m, hm, -, ho, -⟩ := h.walk.step i k hi
    cases hn.symm.trans hm
    exact ho
  sized := h.sized
  hung k n hn hr := by
    cases hp : n.parent with
    | none => exact absurd (h.forest.rooted k n hn hp).1 hr
    | some p =>
        obtain ⟨m, hm, hd⟩ := h.forest.hung k n p hn hp
        exact ⟨p, m, rfl, hm, hd⟩
  root k hr := by
    obtain ⟨n, hn, hp⟩ := h.forest.root_live k hr
    exact ⟨n, hn, hp, (h.forest.rooted k n hn hp).2⟩
  vacant := by
    refine ⟨h.vacant_of_root, fun hv => ?_⟩
    cases hr : t.root with
    | none => rfl
    | some k =>
        obtain ⟨n, hn, -⟩ := h.forest.root_live k hr
        rw [hv k] at hn
        cases hn

end Forest

section Fuel

theorem climb_length {fuel : Nat} {x : Option Handle} {up : List Handle} {common : Option Nat}
    (h : u.climb fuel x = .ok (up, common)) : up.length ≤ fuel := by
  induction fuel generalizing x up common with
  | zero =>
      cases x <;> cases h <;> exact Nat.le_refl 0
  | succ fuel ih =>
      cases x with
      | none =>
          cases h
          exact Nat.zero_le _
      | some p =>
          unfold climb at h
          cases hn : u.node p with
          | error e =>
              rw [hn] at h
              cases h
          | ok n =>
              rw [hn] at h
              change (if n.onPath = true then _ else _) = _ at h
              split at h
              · cases h
                exact Nat.zero_le _
              · cases hup : u.climb fuel n.parent with
                | error e =>
                    rw [hup] at h
                    cases h
                | ok r =>
                    rw [hup] at h
                    cases h
                    exact Nat.succ_le_succ (ih hup)

theorem route_fresh {r : Route} (h : u.route id = .ok r) : ∃ n up common, u.nodes.get? id = some n ∧
    u.climb n.depth n.parent = .ok (up, common) ∧ r.fresh = id :: up := by
  unfold route at h
  simp only [bind, Except.bind] at h
  split at h
  · cases h
  · rename_i n hn
    split at h
    · cases h
    · rename_i up hup
      refine ⟨n, up.1, up.2, node_eq_ok.1 hn, hup, ?_⟩
      split at h
      · cases h
      · split at h
        · cases h
        · split at h
          · cases h
          · cases h
            rfl

/-- The climb ends at the root before its fuel does. -/
theorem climb_stable (hf : Forest t.nodes t.root) (hu : Hangs t u) (k : Nat) {fuel : Nat} {x : Option Handle}
    (hx : ∀ p, x = some p → ∃ m, t.nodes.get? p = some m ∧ m.depth < fuel) :
    u.climb (fuel + k) x = u.climb fuel x := by
  induction fuel generalizing x with
  | zero =>
      cases x with
      | none => cases k <;> rfl
      | some p =>
          obtain ⟨m, -, hd⟩ := hx p rfl
          omega
  | succ fuel ih =>
      cases x with
      | none => cases k <;> rfl
      | some p =>
          rw [Nat.succ_add]
          unfold climb
          cases hn : u.node p with
          | error e => rfl
          | ok n =>
              obtain ⟨m, hm, hd⟩ := hx p rfl
              obtain ⟨m', hm', hplace⟩ := hu p n (node_eq_ok.1 hn)
              cases hm.symm.trans hm'
              have hup := ih (x := n.parent) fun q hq => by
                obtain ⟨o, ho, hdo⟩ := hf.hung p m q hm (hplace.1 ▸ hq)
                exact ⟨o, ho, by omega⟩
              change (if n.onPath = true then _ else _) = (if n.onPath = true then _ else _)
              rw [hup]

theorem taken_next (id : Handle) (n : Node σ) (u : Tree σ cmp) : Ends (do
    if let some fork := n.share then releaseShare fork
    checkBasisGone id n.role
    record (.freed id)
    match n.parent with
    | some parent => return if ← countOff parent id then some parent else none
    | none => return none : TreeM σ cmp (Option Handle)) u
    (fun next _ => ∀ p, next = some p → n.parent = some p) fun _ _ => True := by
  have hend : ∀ v : Tree σ cmp, Ends (do
      checkBasisGone id n.role
      record (.freed id)
      match n.parent with
      | some parent => return if ← countOff parent id then some parent else none
      | none => return none : TreeM σ cmp (Option Handle)) v
      (fun next _ => ∀ p, next = some p → n.parent = some p) fun _ _ => True := by
    intro v
    refine (ends_trivial (checkBasisGone id n.role) v).bind fun _ v' _ => ?_
    rw [ends_bind, ends_record]
    cases n.parent with
    | none => exact fun p hp => nomatch hp
    | some parent =>
        refine (ends_trivial (countOff parent id) _).bind fun gone _ _ => ?_
        cases gone with
        | false => exact fun p hp => nomatch hp
        | true => exact fun p hp => hp
  cases n.share with
  | none => exact hend u
  | some fork => exact (ends_trivial (releaseShare fork) u).bind fun _ v _ => hend v

theorem freeOne_next (id : Handle) (u : Tree σ cmp) :
    Ends (freeOne id) u (fun next u' => Hangs u u' ∧ ∀ p, next = some p →
      ∃ n, u.nodes.get? id = some n ∧ n.parent = some p) fun _ _ => True := by
  have hhangs : Ends (freeOne id) u (fun _ => Hangs u) fun _ _ => True :=
    (sweeps_freeOne id u).mono (fun _ _ h => h.hangs) fun _ _ _ => trivial
  have htaken : Ends (takeNode id) u (fun n _ => u.nodes.get? id = some n) fun _ _ => True := by
    unfold takeNode
    rw [ends_bind, ends_get]
    cases he : u.nodes.erase id with
    | none => trivial
    | some r => exact (Arena.erase_eq_some he).1
  have hnext : Ends (freeOne id) u (fun next _ => ∀ p, next = some p →
      ∃ n, u.nodes.get? id = some n ∧ n.parent = some p) fun _ _ => True :=
    htaken.bind fun n v hn => (taken_next id n v).mono (fun _ _ h p hp => ⟨n, hn, h p hp⟩) fun _ _ _ => trivial
  exact (hhangs.and hnext).mono (fun _ _ h => h) fun _ _ _ => trivial

theorem freeOne_shallower (hf : Forest t.nodes t.root) (hu : Hangs t u) {p : Handle} {u' : Tree σ cmp}
    (hrun : freeOne id u = .ok (some p) u') : Hangs t u' ∧
      ∃ n m, t.nodes.get? id = some n ∧ t.nodes.get? p = some m ∧ n.depth = m.depth + 1 := by
  obtain ⟨hhangs, hparent⟩ := (freeOne_next id u).of_ok hrun
  obtain ⟨n, hn, hp⟩ := hparent p rfl
  obtain ⟨n', hn', hplace⟩ := hu id n hn
  obtain ⟨m, hm, hd⟩ := hf.hung id n' p hn' (hplace.1 ▸ hp)
  exact ⟨trans_of Hangs hu hhangs, n', m, hn', hm, hd⟩

theorem freeUpwards_stable (hf : Forest t.nodes t.root) (hu : Hangs t u) (k : Nat) {fuel : Nat}
    (hid : ∀ n, t.nodes.get? id = some n → n.depth ≤ fuel) :
    freeUpwards (fuel + k) id u = freeUpwards fuel id u := by
  induction fuel generalizing id u with
  | zero =>
      cases k with
      | zero => rfl
      | succ k =>
          rw [Nat.zero_add]
          unfold freeUpwards
          change EStateM.bind (freeOne id) _ u = EStateM.map _ (freeOne id) u
          unfold EStateM.bind EStateM.map
          cases hrun : freeOne id u with
          | error e u' => rfl
          | ok next u' =>
              cases next with
              | none => rfl
              | some p =>
                  obtain ⟨-, n, m, hn, -, hd⟩ := freeOne_shallower hf hu hrun
                  have := hid n hn
                  omega
  | succ fuel ih =>
      rw [Nat.succ_add]
      unfold freeUpwards
      change EStateM.bind (freeOne id) _ u = EStateM.bind (freeOne id) _ u
      unfold EStateM.bind
      cases hrun : freeOne id u with
      | error e u' => rfl
      | ok next u' =>
          cases next with
          | none => rfl
          | some p =>
              obtain ⟨hu', n, m, hn, hm, hd⟩ := freeOne_shallower hf hu hrun
              refine ih hu' fun o ho => ?_
              cases hm.symm.trans ho
              have := hid n hn
              omega

theorem Resting.shallow (h : Resting K start t) (hu : Hangs t u) (hn : u.nodes.get? id = some n) :
    Shallow u id n := by
  obtain ⟨m, hm, hp, hd⟩ := hu id n hn
  constructor
  case climb =>
    intro k
    refine climb_stable h.forest hu k fun p hparent => ?_
    obtain ⟨o, ho, hdo⟩ := h.forest.hung id m p hm (hp ▸ hparent)
    exact ⟨o, ho, by omega⟩
  case fresh =>
    intro r hr
    obtain ⟨o, up, common, ho, hup, hfresh⟩ := route_fresh hr
    cases hn.symm.trans ho
    rw [hfresh]
    exact Nat.succ_le_succ (climb_length hup)
  case cascade =>
    intro k
    refine freeUpwards_stable h.forest hu k fun o ho => ?_
    cases hm.symm.trans ho
    omega

end Fuel

section Hanging

theorem remains_recast (t : Tree σ cmp) (id : Handle) (n : Node σ) (role : Role σ) (log : ChangeLog)
    (hn : t.nodes.get? id = some n) :
    Remains t { t with nodes := t.nodes.set id { n with role := role, log := log } } :=
  .set (fun _ => ⟨rfl, rfl, rfl⟩) hn ⟨rfl, rfl, rfl⟩

theorem remains_clearTheWay (target : Handle) (role : RoleName) :
    Along Remains (clearTheWay target role : TreeM σ cmp Unit) :=
  along_clearTheWay (fun _ _ => Sweeps.remains) (fun t _ => refl_of Remains t)
    remains_recast (fun t _ _ => refl_of Remains t) target role

theorem remains_activate (target : Option Handle) : Along Remains (activate target : TreeM σ cmp Activation) :=
  along_activate (fun _ _ _ => Calm.remains) (fun t _ => refl_of Remains t) remains_recast
    (fun t _ _ => refl_of Remains t) (fun t _ _ => refl_of Remains t) rfl target

end Hanging

section Runs

variable {solver : σ} {domains : Domains} {settings : Settings} {t₀ : Tree σ cmp}

/-- The active node is the only one in that role, the path is its line of ancestors, and every node hangs from a
live one up to the root. So in every tree that an activation or a freeing leads through, following parents ends
after at most as many steps as the node has ancestors, and one more. -/
theorem path_and_roles (h₀ : ofSettings solver domains settings = .ok t₀) (ops : List (Op σ)) :
    Rooted (t₀.run ops) ∧
      (∀ u id n, Hangs (t₀.run ops) u → u.nodes.get? id = some n → Shallow u id n) ∧
      Along Hangs (retire : TreeM σ cmp Unit) ∧
      (∀ id role, Along Hangs (clearTheWay id role : TreeM σ cmp Unit)) ∧
      (∀ id which pos, Along Hangs (unstage id which pos : TreeM σ cmp Unit)) ∧
      (∀ id, Along Hangs (leave id : TreeM σ cmp Unit)) ∧
      (∀ keep, Along Hangs (abandon keep : TreeM σ cmp Unit)) ∧
      (∀ id, Along Hangs (enter id : TreeM σ cmp Unit)) ∧
      (∀ r target, Along Hangs (follow r target : TreeM σ cmp Outcome)) ∧
      ∀ id, Along Hangs (dismiss id : TreeM σ cmp Unit) := by
  have h := run_resting Upkeep.nothing (resting_of_ofSettings h₀ trivial) ops
  refine ⟨h.rooted, fun u id n hu hn => h.shallow hu hn, fun t => ?_,
    fun id role => (remains_clearTheWay id role).mono fun _ _ => Remains.hangs,
    fun id which pos => (sweeps_unstage id which pos).mono fun _ _ => Sweeps.hangs,
    fun id => (along_leave (x := none) (q := .deals) id).mono fun _ _ => Calm.hangs,
    fun keep => (along_abandon (x := none) (q := .deals) keep).mono fun _ _ => Calm.hangs,
    fun id => (along_enter (x := none) (q := .deals) id).mono fun _ _ => Calm.hangs,
    fun r target => (along_follow (q := .deals) r target).mono fun _ _ => Calm.hangs,
    fun id => (sweeps_dismiss id).mono fun _ _ => Sweeps.hangs⟩
  exact (calm_retire t).mono (fun _ _ => Calm.hangs) fun _ _ => Calm.hangs

theorem path_and_roles_at_grandchild :
    ∃ t₀ : Tree ScriptedSolver SelectionRule.bestBound.order, ofSettings .fresh (.free 1) {} = .ok t₀ ∧
      let t := t₀.run [.create 0 0, .activate (some ⟨0, 0⟩), .create 0 0, .create 0 0, .activate (some ⟨1, 0⟩),
        .create 0 0, .activate (some ⟨3, 0⟩), .prune 0]
      t.path = [⟨0, 0⟩, ⟨1, 0⟩, ⟨3, 0⟩] ∧ t.active = some ⟨3, 0⟩ ∧ t.nodes.size = 3 ∧
        Rooted t ∧ ∀ n, t.nodes.get? ⟨3, 0⟩ = some n → Shallow t ⟨3, 0⟩ n := by
  refine ⟨_, rfl, by decide +kernel, by decide +kernel, by decide +kernel, ?_⟩
  have h := @path_and_roles ScriptedSolver _ SelectionRule.bestBound.order .fresh (.free 1) {} _ rfl
  exact ⟨(h _).1, fun n => (h _).2.1 _ _ n (refl_of Hangs _)⟩

end Runs

end BranchBound.Tree
