import BranchBound.Proofs.Runs
import BranchBound.Solver.Scripted

namespace BranchBound.Tree

variable {σ : Type} [Solver σ] {cmp : NodeOrder} {K K' : Charge σ} {start : Array Interval} {t u t' : Tree σ cmp}
  {a f id : Handle} {n m : Node σ} {dealt : Option Handle}

def warm (t : Tree σ cmp) (f : Handle) : Bool := ((t.nodes.get? f).bind Node.basis?).isSome

def SharedByOthers (t : Tree σ cmp) (f : Handle) : Prop :=
  ∃ k n, t.nodes.get? k = some n ∧ n.share = some f ∧ t.active ≠ some k

theorem Resting.warm_iff (h : Resting K start t) :
    t.warm f = true ↔ ∃ k n, t.nodes.get? k = some n ∧ n.share = some f := by
  constructor
  · intro hwarm
    unfold warm at hwarm
    obtain ⟨b, hb⟩ := Option.isSome_iff_exists.1 hwarm
    obtain ⟨n, hn, hbasis⟩ := Option.bind_eq_some_iff.1 hb
    obtain ⟨w, hw, hwb⟩ := Option.bind_eq_some_iff.1 hbasis
    have hpos := (h.sharing.alive f n w hn hw).1 (by rw [WarmStart.isAlive, hwb]; rfl)
    rw [h.shares_eq hn hw, Arena.count_pos] at hpos
    obtain ⟨k, o, ho, hs⟩ := hpos
    exact ⟨k, o, ho, of_decide_eq_true hs⟩
  · rintro ⟨k, o, ho, hs⟩
    obtain ⟨-, hnear⟩ := h.sharing.holder k o f ho hs
    obtain ⟨n, hn, hsnap⟩ := hnear.holds
    obtain ⟨w, hw⟩ := Role.isSnapshot_iff.1 hsnap
    have hpos : 0 < w.shares := by
      rw [h.shares_eq hn hw, Arena.count_pos]
      exact ⟨k, o, ho, decide_eq_true hs⟩
    have halive := (h.sharing.alive f n w hn hw).2 hpos
    unfold warm
    rw [hn, Option.bind_some, Node.basis?, hw]
    exact halive

/-- The nodes that are left hold the shares that they held, and no more children have started cold. -/
structure KeepsShares (t u : Tree σ cmp) : Prop where
  nodes : Carried (fun n m => m.share = n.share) t.nodes u.nodes
  cold : u.stats.coldChildren = t.stats.coldChildren

theorem KeepsShares.of_nodes (hn : u.nodes = t.nodes) (hc : u.stats.coldChildren = t.stats.coldChildren) :
    KeepsShares t u := ⟨fun _ m hm => ⟨m, hn ▸ hm, rfl⟩, hc⟩

instance : IsPreorder (Tree σ cmp) KeepsShares where
  refl _ := .of_nodes rfl rfl
  trans _ _ _ h h' := ⟨.trans (fun _ _ _ g g' => g'.trans g) h.nodes h'.nodes, h'.cold.trans h.cold⟩

theorem Calm.keepsShares {x : Option Handle} (h : Calm x .keeps t u) : KeepsShares t u where
  nodes k m hm := (h.nodes k m hm).imp fun _ hn => ⟨hn.1, hn.2.share⟩
  cold := h.cold nofun

theorem Sweeps.keepsShares (h : Sweeps t u) : KeepsShares t u := Calm.keepsShares (x := none) h.calm

theorem activate_keepsShares (target : Option Handle) (t : Tree σ cmp) :
    Ends (activate target) t
      (fun a u => a = .unchanged ∧ u = t ∨ ∃ t₁, retire t = .ok ⟨⟩ t₁ ∧ KeepsShares t₁ u) fun _ _ => True := by
  have hrecast : ∀ (t : Tree σ cmp) id n role log, t.nodes.get? id = some n →
      KeepsShares t { t with nodes := t.nodes.set id { n with role := role, log := log } } :=
    fun t id n role log hn => ⟨.set (fun _ => rfl) hn rfl, rfl⟩
  exact activate_retires (fun _ _ _ => Calm.keepsShares) (fun _ _ => .of_nodes rfl rfl) hrecast
    (fun _ _ _ => .of_nodes rfl rfl) (fun _ _ _ => .of_nodes rfl rfl) target t

section Retirement

/-- The children hold what was dealt, and of the others nobody took a share and the giver has none. Children who were
dealt nothing start cold. -/
structure Deals (t u : Tree σ cmp) (giver dealt : Option Handle) : Prop where
  children : ∀ k m, k ∈ t.children → u.nodes.get? k = some m → m.share = dealt
  others : ∀ k m g, k ∉ t.children → u.nodes.get? k = some m → m.share = some g →
    giver ≠ some k ∧ ∃ n, t.nodes.get? k = some n ∧ n.share = some g
  cold : u.stats.coldChildren = t.stats.coldChildren + if dealt.isSome then 0 else t.children.length

theorem Deals.keep {giver : Option Handle} (h : Deals t t' giver dealt) (hk : KeepsShares t' u) :
    Deals t u giver dealt where
  children k m hc hm := by
    obtain ⟨n, hn, hs⟩ := hk.nodes k m hm
    exact hs.trans (h.children k n hc hn)
  others k m g hc hm hg := by
    obtain ⟨n, hn, hs⟩ := hk.nodes k m hm
    exact h.others k n g hc hn (hs.symm.trans hg)
  cold := hk.cold.trans h.cold

theorem forwardShares_deals (h : Resting K start t) (ha : t.active = some a) (hf : t.lpFork = some f) :
    Ends forwardShares t (fun _ u => Deals t u none (if t.warm f then some f else none)) fun _ _ => True := by
  have hnear := h.lpFork
  rw [hf] at hnear
  obtain ⟨n, hn, hsnap⟩ := hnear.holds
  obtain ⟨w, hw⟩ := Role.isSnapshot_iff.1 hsnap
  have hwarm : t.warm f = w.isAlive := by
    unfold warm
    rw [hn, Option.bind_some, Node.basis?, hw]
    rfl
  unfold forwardShares
  simp only [ends_bind, ends_get, hf, ends_read, node_eq_ok.2 hn, hw]
  rw [hwarm]
  by_cases halive : w.isAlive = true
  · rw [if_pos halive, if_pos halive, ends_bind]
    unfold onWarmStart WarmStart.capture
    simp only [ends_bind, ends_read, node_eq_ok.2 hn, hw, if_pos halive, ends_setNode, ends_pure]
    have hmatch := Matched.set Steady.refl hn (.withWarmStart n { w with shares := w.shares + t.children.length })
    refine (handShares_spec (t := { t with nodes := t.nodes.set f { n with
      role := n.role.withWarmStart { w with shares := w.shares + t.children.length } } }) h.children_nodup
      fun k hk => ?_).mono ?_ fun _ _ h => h.elim
    · obtain ⟨o, ho, -⟩ := h.fresh_child ha hk
      obtain ⟨o', ho', -⟩ := hmatch.forth k o ho
      exact ⟨o', ho'⟩
    · rintro _ _ rfl
      have hset : Carried (fun n m : Node σ => m.share = n.share) t.nodes (t.nodes.set f { n with
        role := n.role.withWarmStart { w with shares := w.shares + t.children.length } }) := .set (fun _ => rfl) hn rfl
      refine ⟨fun k m hk hm => ?_, fun k m g hk hm hs => ⟨(Option.some_ne_none k).symm, ?_⟩, rfl⟩
      · obtain ⟨o, -, rfl⟩ := Arena.get?_adjust_some hm
        rw [if_pos hk]
      · obtain ⟨o, ho, rfl⟩ := Arena.get?_adjust_some hm
        obtain ⟨n', hn', hshare⟩ := hset k o ho
        rw [if_neg hk] at hs
        exact ⟨n', hn', hshare.symm.trans hs⟩
  · rw [if_neg halive, if_neg halive]
    simp only [ends_bind, ends_record, ends_count]
    refine ⟨fun k m hk hm => ?_, fun k m g _ hm hs => ⟨(Option.some_ne_none k).symm, m, hm, hs⟩, rfl⟩
    obtain ⟨o, ho, -, hnone, -⟩ := h.fresh_child ha hk
    cases hm.symm.trans ho
    exact hnone

theorem takeSnapshot_name (depth : Nat) (above : Extent) (t : Tree σ cmp) :
    Ends (takeSnapshot a depth above) t (fun role _ => role.name ≠ .junction) fun _ _ => True := by
  unfold takeSnapshot
  refine (ends_trivial _ t).bind fun c t₁ _ => (ends_trivial _ t₁).bind fun full t₂ _ => ?_
  refine (ends_trivial _ t₂).bind fun t₃ t₄ _ => (ends_trivial _ t₄).bind fun basis t₅ _ => ?_
  refine (ends_trivial _ t₅).bind fun _ t₆ _ => (ends_trivial _ t₆).bind fun _ t₇ _ => ?_
  refine (ends_trivial _ t₇).bind fun _ t₈ _ => (ends_trivial _ t₈).bind fun _ t₉ _ => ?_
  cases full with
  | true => exact (ends_trivial _ t₉).bind fun _ _ _ => RoleName.noConfusion
  | false => exact RoleName.noConfusion

theorem finalRole_deals (h : Resting K start t) (ha : t.active = some a) (hf : t.lpFork = some f) :
    Ends (finalRole a) t
      (fun role u => role.name = .junction → Deals t u none (if t.warm f then some f else none)) fun _ _ => True := by
  unfold finalRole
  rw [ends_bind, ends_read]
  cases t.node a with
  | error e => trivial
  | ok n =>
      simp only [ends_bind, ends_read]
      cases t.parentSize n.depth with
      | error e => trivial
      | ok above =>
          simp only [ends_get]
          split
          · exact RoleName.noConfusion
          · split
            · exact (takeSnapshot_name _ _ t).mono (fun _ _ hname hr => absurd hr hname) fun _ _ h => h
            · rw [ends_bind]
              exact (forwardShares_deals h ha hf).mono (fun _ _ h _ => h) fun _ _ h => h

structure Surrenders (K : Charge σ) (start : Array Interval) (t u : Tree σ cmp) : Prop where
  resting : Resting K start u
  active : u.active = t.active
  lpFork : u.lpFork = t.lpFork
  children : u.children = t.children
  shares : ∀ k m, u.nodes.get? k = some m → ∃ n, t.nodes.get? k = some n ∧
    m.share = if t.active = some k then none else n.share
  warm : ∀ f, u.warm f = true ↔ t.SharedByOthers f
  cold : u.stats.coldChildren = t.stats.coldChildren

theorem Surrenders.deals (h : Surrenders K start t t') (hd : Deals t' u none dealt) : Deals t u t.active dealt where
  children k m hk hm := hd.children k m (h.children ▸ hk) hm
  others k m g hk hm hg := by
    obtain ⟨-, o, ho, hog⟩ := hd.others k m g (h.children ▸ hk) hm hg
    obtain ⟨n, hn, hshare⟩ := h.shares k o ho
    rw [hog] at hshare
    split at hshare
    · cases hshare
    · rename_i hne
      exact ⟨hne, n, hn, hshare.symm⟩
  cold := by rw [hd.cold, h.cold, h.children]

theorem surrenderShare_surrenders (hK : Custody K K') (h : Resting K start t) (ha : t.active = some a) :
    Ends (surrenderShare a) t (fun _ u => Surrenders K start t u) fun _ _ => True := by
  obtain ⟨n, hn, -⟩ := h.actor ha
  have hkeeps : Ends (surrenderShare a) t
      (fun _ => KeepsShares { t with nodes := t.nodes.set a { n with share := none } }) fun _ _ => True := by
    unfold surrenderShare
    simp only [ends_bind, ends_read, node_eq_ok.2 hn, ends_setNode]
    cases n.share with
    | none => exact refl_of KeepsShares _
    | some fork => exact (sweeps_releaseShare fork _).mono (fun _ _ => Sweeps.keepsShares) fun _ _ _ => trivial
  refine ((surrenderShare_spec hK.toRedemption h.toSound rfl hn).and hkeeps).mono ?_ fun _ _ _ => trivial
  rintro _ _ ⟨⟨hsound, nodes, solver, stats, journal, -, rfl, hmatch, -, -⟩, hkeeps⟩
  have hresting := h.of_kept hsound (Kept.of_steady hmatch solver stats journal)
  have hshares : ∀ k m, nodes.get? k = some m → ∃ n, t.nodes.get? k = some n ∧
      m.share = if t.active = some k then none else n.share := by
    intro k m hm
    obtain ⟨o, ho, hshare⟩ := hkeeps.nodes k m hm
    rw [ha, hshare]
    change (t.nodes.set a { n with share := none }).get? k = some o at ho
    rw [Arena.get?_set] at ho
    by_cases hk : k = a
    · subst hk
      rw [if_pos rfl, hn] at ho
      cases ho
      exact ⟨n, hn, by rw [if_pos rfl]⟩
    · rw [if_neg hk] at ho
      exact ⟨o, ho, by rw [if_neg fun hka => hk (Option.some.inj hka).symm]⟩
  refine ⟨hresting, rfl, rfl, rfl, hshares, fun f => ?_, hkeeps.cold⟩
  rw [hresting.warm_iff]
  constructor
  · rintro ⟨k, m, hm, hs⟩
    obtain ⟨o, ho, hshare⟩ := hshares k m hm
    rw [hs] at hshare
    split at hshare
    · cases hshare
    · rename_i hk
      exact ⟨k, o, ho, hshare.symm, hk⟩
  · rintro ⟨k, o, ho, hs, hk⟩
    obtain ⟨m, hm, -⟩ := hmatch.forth k o ho
    obtain ⟨o', ho', hshare⟩ := hshares k m hm
    cases ho.symm.trans ho'
    rw [if_neg hk] at hshare
    exact ⟨k, m, hm, hshare.trans hs⟩

/-- The retiring node gives its share back first. Its children are dealt shares only if that was not the last one. -/
theorem retire_deals (hK : Custody K K') (h : Resting K start t) (ha : t.active = some a) (hf : t.lpFork = some f) :
    Ends retire t (fun _ u => ∀ m, u.nodes.get? a = some m → m.role.name = .junction →
      (t.SharedByOthers f → Deals t u (some a) (some f)) ∧ (¬ t.SharedByOthers f → Deals t u (some a) none))
      fun _ _ => True := by
  unfold retire
  rw [ends_bind, ends_get]
  simp only [ha]
  refine (surrenderShare_surrenders hK h ha).bind fun _ t₁ h₁ => ?_
  rw [ends_bind, ends_get]
  refine (finalRole_deals h₁.resting (h₁.active.trans ha) (h₁.lpFork.trans hf)).bind fun role t₂ hdeals => ?_
  rw [ends_bind, ends_read]
  cases hn₂ : t₂.node a with
  | error e => trivial
  | ok n₂ =>
      simp only [ends_bind, ends_record, ends_setNode, ends_modify]
      intro m hm hr
      cases (Arena.get?_set_self (node_eq_ok.1 hn₂) _).symm.trans hm
      have hset : KeepsShares t₂ { t₂ with nodes := t₂.nodes.set a { n₂ with
        role := role, log := n₂.log.close } } := ⟨.set (fun _ => rfl) (node_eq_ok.1 hn₂) rfl, rfl⟩
      have hdealt := h₁.deals (hdeals hr)
      rw [ha] at hdealt
      constructor
      · intro hshared
        rw [if_pos ((h₁.warm f).2 hshared)] at hdealt
        exact (hdealt.keep hset).keep (.of_nodes rfl rfl)
      · intro hlast
        rw [if_neg fun hwarm => hlast ((h₁.warm f).1 hwarm)] at hdealt
        exact (hdealt.keep hset).keep (.of_nodes rfl rfl)

end Retirement

section Turn

theorem Switched.waiting {target : Option Handle} (hs : Switched K t t' target) (h : Resting K' start t)
    (hn : t.nodes.get? id = some n) (hw : n.role.name.isWaiting = true) : ∃ m, t'.nodes.get? id = some m := by
  obtain ⟨hended, hkept, -, -, hfollowed⟩ := hs
  obtain ⟨m, hm, hname, -⟩ := hended.waits h hn hw
  obtain ⟨m', hm', hw'⟩ := hkept.waiting id m hm (by rw [hname, hw]) List.not_mem_nil
  exact hfollowed.waiting id m' hm' hw'

structure Bequeaths (t t' : Tree σ cmp) (f : Handle) (dealt : Option Handle) : Prop where
  warm : t'.warm f = dealt.isSome
  children : ∀ k ∈ t.children, ∃ m, t'.nodes.get? k = some m ∧ m.share = dealt
  cold : t'.stats.coldChildren = t.stats.coldChildren + if dealt.isSome then 0 else t.children.length

theorem Deals.bequeaths (hd : Deals t t' (some a) dealt) (h' : Resting K start t') (ha : t.active = some a)
    (hdealt : t.SharedByOthers f ∧ dealt = some f ∨ ¬ t.SharedByOthers f ∧ dealt = none) (hne : t.children ≠ [])
    (hlive : ∀ k ∈ t.children, ∃ m, t'.nodes.get? k = some m) : Bequeaths t t' f dealt where
  children k hk := by
    obtain ⟨m, hm⟩ := hlive k hk
    exact ⟨m, hm, hd.children k m hk hm⟩
  cold := hd.cold
  warm := by
    rw [Bool.eq_iff_iff, h'.warm_iff]
    obtain ⟨-, rfl⟩ | ⟨hlast, rfl⟩ := hdealt
    · obtain ⟨k, hk⟩ := List.exists_mem_of_ne_nil _ hne
      obtain ⟨m, hm⟩ := hlive k hk
      exact iff_of_true ⟨k, m, hm, hd.children k m hk hm⟩ rfl
    · refine iff_of_false ?_ Bool.false_ne_true
      rintro ⟨k, m, hm, hs⟩
      by_cases hk : k ∈ t.children
      · cases (hd.children k m hk hm).symm.trans hs
      · obtain ⟨hka, n, hn, hshare⟩ := hd.others k m f hk hm hs
        exact hlast ⟨k, n, hn, hshare, ha ▸ hka⟩

theorem activate_bequeaths (h : Resting (fun _ _ => True) start t) {target : Option Handle} {act : Activation}
    (ha : t.active = some a) (hne : t.children ≠ []) (hf : t.lpFork = some f)
    (hrun : activate target t = .ok act t') (hact : act ≠ .unchanged) (hm : t'.nodes.get? a = some m)
    (hr : m.role.name = .junction) :
    (t.SharedByOthers f → Bequeaths t t' f (some f)) ∧ (¬ t.SharedByOthers f → Bequeaths t t' f none) := by
  have hK : Upkeep (σ := σ) (fun _ _ => True) (fun _ _ => True) := .nothing
  obtain ⟨hidle, -⟩ | ⟨-, -, harrives, -⟩ := (activate_cases hK.toCustody h target).of_ok hrun
  · exact absurd hidle hact
  obtain ⟨hidle, -⟩ | ⟨t₁, hretire, hkeeps⟩ := (activate_keepsShares target t).of_ok hrun
  · exact absurd hidle hact
  obtain ⟨t₂, hretire₂, -, hpersists⟩ := harrives.turn
  obtain rfl : t₂ = t₁ := by
    rw [hretire] at hretire₂
    cases hretire₂
    rfl
  -- Nobody becomes a Junction but by the end of its turn.
  obtain ⟨m₁, hm₁, hpersists⟩ := hpersists a m hm
  have hdone : m₁.role.name.isProcessed = true := hpersists.unturned (by rw [hr]; rfl)
  have hdeals := (retire_deals hK.toCustody h ha hf).of_ok hretire m₁ hm₁ ((hpersists.settled hdone).1.symm.trans hr)
  have hlive : ∀ k ∈ t.children, ∃ m, t'.nodes.get? k = some m := by
    intro k hk
    obtain ⟨n, hn, -, -, hname⟩ := h.fresh_child ha hk
    exact harrives.switched.waiting h hn (by rw [hname]; rfl)
  exact ⟨fun hshared => ((hdeals.1 hshared).keep hkeeps).bequeaths harrives.resting ha (.inl ⟨hshared, rfl⟩) hne hlive,
    fun hlast => ((hdeals.2 hlast).keep hkeeps).bequeaths harrives.resting ha (.inr ⟨hlast, rfl⟩) hne hlive⟩

/-- A node that retires as a Junction gives its own share back before its children get theirs. With another share out,
each child holds one in the basis of the nearest Fork or Subroot. Without, the basis is gone, which only happens
if the node has not used its share, and all children start cold. -/
theorem junction_children_share {solver : σ} {domains : Domains} {settings : Settings} {t₀ : Tree σ cmp}
    (h₀ : ofSettings solver domains settings = .ok t₀) (ops : List (Op σ)) {target : Option Handle} {act : Activation}
    (ha : (t₀.run ops).active = some a) (hne : (t₀.run ops).children ≠ []) (hf : (t₀.run ops).lpFork = some f)
    (hrun : activate target (t₀.run ops) = .ok act t') (hact : act ≠ .unchanged) (hm : t'.nodes.get? a = some m)
    (hr : m.role.name = .junction) :
    let t := t₀.run ops
    (t.SharedByOthers f → Bequeaths t t' f (some f)) ∧
      (¬ t.SharedByOthers f → Bequeaths t t' f none ∧
        (t.warm f = true → ∃ n, t.nodes.get? a = some n ∧ n.share = some f)) := by
  intro t
  have h : Resting _ _ t := run_resting .nothing (resting_of_ofSettings (K := fun _ _ => True) h₀ trivial) ops
  obtain ⟨hshared, hlast⟩ := activate_bequeaths h ha hne hf hrun hact hm hr
  refine ⟨hshared, fun hl => ⟨hlast hl, fun hwarm => ?_⟩⟩
  obtain ⟨k, n, hn, hs⟩ := h.warm_iff.1 hwarm
  by_cases hk : t.active = some k
  · cases ha.symm.trans hk
    exact ⟨n, hn, hs⟩
  · exact absurd ⟨k, n, hn, hs, hk⟩ hl

theorem junction_children_share_beside_leaf :
    ∃ t₀ : Tree ScriptedSolver SelectionRule.bestBound.order, ofSettings .fresh (.free 1) {} = .ok t₀ ∧
      let t := t₀.run [.create 0 0, .activate (some ⟨0, 0⟩), .load, .addColumn (7 : Int), .solve, .create 0 0,
        .create 0 0, .activate (some ⟨1, 0⟩), .create 0 0]
      let t' := left (activate (some ⟨3, 0⟩)) t
      t.active = some ⟨1, 0⟩ ∧ t.children = [⟨3, 0⟩] ∧ t.lpFork = some ⟨0, 0⟩ ∧
        returns (activate (some ⟨3, 0⟩)) t (.activated ⟨3, 0⟩) = true ∧
        (t'.nodes.get? ⟨1, 0⟩).map (·.role.name) = some .junction ∧ t.SharedByOthers ⟨0, 0⟩ ∧
        Bequeaths t t' ⟨0, 0⟩ (some ⟨0, 0⟩) := by
  refine ⟨_, rfl, ?_⟩
  intro t t'
  have ha : t.active = some ⟨1, 0⟩ := by decide +kernel
  have hchildren : t.children = [⟨3, 0⟩] := by decide +kernel
  have hf : t.lpFork = some ⟨0, 0⟩ := by decide +kernel
  have hrun : returns (activate (some ⟨3, 0⟩)) t (.activated ⟨3, 0⟩) = true := by decide +kernel
  have hrole : (t'.nodes.get? ⟨1, 0⟩).map (·.role.name) = some .junction := by decide +kernel
  have hshare : (t.nodes.get? ⟨2, 0⟩).bind Node.share = some ⟨0, 0⟩ := by decide +kernel
  obtain ⟨m, hm, hr⟩ := Option.map_eq_some_iff.1 hrole
  obtain ⟨n, hn, hs⟩ := Option.bind_eq_some_iff.1 hshare
  have hshared : t.SharedByOthers ⟨0, 0⟩ := ⟨⟨2, 0⟩, n, hn, hs, by rw [ha]; decide⟩
  have h := @junction_children_share ScriptedSolver _ SelectionRule.bestBound.order t' ⟨1, 0⟩ ⟨0, 0⟩ m .fresh (.free 1)
    {} _ rfl _ _ _ ha (hchildren ▸ List.cons_ne_nil _ _) hf (eq_ok_of_returns hrun) Activation.noConfusion hm hr
  exact ⟨ha, hchildren, hf, hrun, hrole, hshared, h.1 hshared⟩

/-- The retired node never loaded and holds the only share left. The basis goes with it, and its child starts cold. -/
theorem junction_spends_last_share :
    ∃ t₀ : Tree ScriptedSolver SelectionRule.bestBound.order, ofSettings .fresh (.free 1) {} = .ok t₀ ∧
      let t := t₀.run [.create 0 0, .activate (some ⟨0, 0⟩), .load, .addColumn (7 : Int), .solve, .create 0 0,
        .activate (some ⟨1, 0⟩), .create 0 0]
      let t' := left (activate (some ⟨2, 0⟩)) t
      t.active = some ⟨1, 0⟩ ∧ t.children = [⟨2, 0⟩] ∧ t.lpFork = some ⟨0, 0⟩ ∧ t.warm ⟨0, 0⟩ = true ∧
        returns (activate (some ⟨2, 0⟩)) t (.activated ⟨2, 0⟩) = true ∧
        (t'.nodes.get? ⟨1, 0⟩).map (·.role.name) = some .junction ∧ t'.warm ⟨0, 0⟩ = false ∧
        (t'.nodes.get? ⟨2, 0⟩).map Node.share = some none ∧ t'.stats.coldChildren = 1 := by
  refine ⟨_, rfl, ?_⟩
  decide +kernel

end Turn

end BranchBound.Tree
