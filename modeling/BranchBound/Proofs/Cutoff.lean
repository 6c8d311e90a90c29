import BranchBound.Proofs.Census
import BranchBound.Proofs.Foremost

namespace BranchBound.Tree

variable {σ : Type} [Solver σ] {cmp : NodeOrder} {K K' : Charge σ} {start start' : Array Interval}
  {t u : Tree σ cmp} {cutoff : Binary64} {ids : List Handle} {k f : Handle} {n m : Node σ}

/-- Who has to go: a listed node with a lower bound of `cutoff` or more, and whoever has had its turn, is off the path
and is left without a child by that. -/
inductive Condemned (t : Tree σ cmp) (cutoff : Binary64) : Handle → Prop
  | bound {k : Handle} {n : Node σ} : k ∈ t.pool → t.nodes.get? k = some n → cutoff ≤ n.lowerBound →
      Condemned t cutoff k
  | childless {k : Handle} {n : Node σ} : t.nodes.get? k = some n → n.role.name ∈ [.junction, .fork, .subroot] →
      n.onPath = false → (∀ c m, t.nodes.get? c = some m → m.parent = some k → Condemned t cutoff c) →
      Condemned t cutoff k

section Removal

theorem Cuts.gone_of_condemned (hc : Cuts cutoff ids t u) (hu : Resting K start u) (hk : t.Condemned cutoff k) :
    u.nodes.get? k = none := by
  induction hk with
  | @bound k n hk hn hcut =>
      refine hc.gone k ((hc.mem k).2 ⟨?_, n, hn, hcut⟩)
      simpa only [pool, List.mem_append] using hk
  | @childless k n hn hrole hoff _ ih =>
      cases hm : u.nodes.get? k with
      | none => rfl
      | some m =>
          obtain ⟨n', hn', hwanes⟩ := hc.sweeps.nodes k m hm
          cases hn.symm.trans hn'
          -- If it stayed it would have a child left, who would be condemned as well.
          obtain ⟨j, o, ho, hp⟩ := hu.exists_child hm (hwanes.name ▸ hrole) (hwanes.onPath.trans hoff)
          obtain ⟨o', ho', hwanes'⟩ := hc.sweeps.nodes j o ho
          rw [ih j o' ho' (hwanes'.parent.symm.trans hp)] at ho
          cases ho

theorem Cuts.condemned_of_gone (hc : Cuts cutoff ids t u) (h : Resting K start t) (hu : Resting K' start' u)
    (hn : t.nodes.get? k = some n) (hgone : u.nodes.get? k = none) : t.Condemned cutoff k := by
  refine h.forest.induction_children (P := fun k => u.nodes.get? k = none → t.Condemned cutoff k)
    (fun k n hn ih hgone => ?_) hn hgone
  have hdead : ∀ m, u.nodes.get? k ≠ some m := fun m hm => nomatch hgone.symm.trans hm
  by_cases hk : k ∈ ids
  · obtain ⟨hpool, n', hn', hcut⟩ := (hc.mem k).1 hk
    exact .bound (by simpa only [pool, List.mem_append] using hpool) hn' hcut
  · have hoff : n.onPath = false := by
      cases ho : n.onPath with
      | false => rfl
      | true =>
          obtain ⟨m, hm⟩ := hu.walk.live_of_mem (hc.kept.path ▸ h.walk.flagged k n hn ho)
          exact absurd hm (hdead m)
    have hturned : n.role.name.isWaiting = false := by
      cases hw : n.role.name.isWaiting with
      | false => rfl
      | true =>
          obtain ⟨m, hm, -⟩ := hc.kept.waiting k n hn hw hk
          exact absurd hm (hdead m)
    have hidle : n.role.name ≠ .active := by
      intro hact
      obtain ⟨m, hm, -⟩ := (hu.acting k).1 (hc.kept.active.trans ((h.acting k).2 ⟨n, hn, hact⟩))
      exact hdead m hm
    refine .childless hn (h.processed hn hturned hidle) hoff fun c m hm hp => ih c m hm hp ?_
    cases hm' : u.nodes.get? c with
    | none => rfl
    | some m' =>
        obtain ⟨o, ho, hwanes⟩ := hc.sweeps.nodes c m' hm'
        cases hm.symm.trans ho
        obtain ⟨p, hp', -⟩ := hu.forest.hung c m' k hm' (hwanes.parent.trans hp)
        exact absurd hp' (hdead p)

end Removal

section Shares

def sharesReturned (t u : Tree σ cmp) (f : Handle) : Nat :=
  t.nodes.toList.countP fun e => e.2.share = some f && (u.nodes.get? e.1).isNone

def isSpent (t u : Tree σ cmp) (e : Handle × Node σ) : Bool :=
  e.2.role.warmStart?.map WarmStart.shares = some (t.sharesReturned u e.1)

def lapsed (t u : Tree σ cmp) : List (Solver.Basis σ) :=
  (t.nodes.toList.filter (t.isSpent u)).filterMap fun e => e.2.basis?

theorem Cuts.live (hc : Cuts cutoff ids t u) (k : Handle) (m : Node σ) (hm : u.nodes.get? k = some m) :
    ∃ n, t.nodes.get? k = some n :=
  (hc.sweeps.nodes k m hm).imp fun _ => And.left

theorem Cuts.shares_split (hc : Cuts cutoff ids t u) (f : Handle) :
    t.nodes.count (·.share = some f) = u.nodes.count (·.share = some f) + t.sharesReturned u f := by
  rw [Arena.count_lookup hc.live]
  refine Arena.countP_split fun e he => ?_
  cases hm : u.nodes.get? e.1 with
  | none => simp
  | some m =>
      obtain ⟨n, hn, hwanes⟩ := hc.sweeps.nodes e.1 m hm
      cases hn.symm.trans (Arena.mem_toList.1 he)
      simp [hwanes.share]

/-- What is left of the node `k`. In its role it knows the place in the staging list that it has now, the children that
are left, and the shares that are left in its warm start, which keeps the basis as long as there are any. -/
structure Withstands (t u : Tree σ cmp) (k : Handle) (n m : Node σ) : Prop extends Wanes n m where
  staged : ∀ w i, m.role.staged? = some (w, i) ↔ (u.staged w)[i]? = some k
  openChildren : m.role.openChildren? = n.role.openChildren?.map fun _ => u.nodes.count (·.parent = some k)
  warmStart : ∀ w, n.role.warmStart? = some w → ∃ w', m.role.warmStart? = some w' ∧
    w.shares = w'.shares + t.sharesReturned u k ∧ w'.basis = if w'.shares = 0 then none else w.basis

theorem Cuts.withstands (hc : Cuts cutoff ids t u) (h : Resting K start t) (hu : Resting K' start' u)
    (hm : u.nodes.get? k = some m) : ∃ n, t.nodes.get? k = some n ∧ t.Withstands u k n m := by
  obtain ⟨n, hn, hwanes⟩ := hc.sweeps.nodes k m hm
  refine ⟨n, hn, hwanes, fun w i => ?_, ?_, fun w hw => ?_⟩
  · constructor
    · intro hi
      exact hu.places.placed k m w i hm hi List.not_mem_nil
    · intro hi
      obtain ⟨-, m', hm', hs, -⟩ := hu.places.listed w i k hi
      cases hm.symm.trans hm'
      exact hs
  · have hsame : m.role.openChildren?.isSome = n.role.openChildren?.isSome := by
      rw [Role.isSome_openChildren?, Role.isSome_openChildren?, hwanes.name]
    cases hopen : m.role.openChildren? with
    | none =>
        rw [hopen] at hsame
        cases hbefore : n.role.openChildren? with
        | none => rfl
        | some c => rw [hbefore] at hsame; cases hsame
    | some c =>
        rw [hopen] at hsame
        obtain ⟨c', hbefore⟩ := Option.isSome_iff_exists.1 hsame.symm
        rw [hbefore, hu.open_eq hm hopen]
        rfl
  · have hsnap : m.role.isSnapshot = true := by
      rw [Role.isSnapshot_eq, hwanes.layer, ← Role.isSnapshot_eq]
      exact Role.isSnapshot_iff.2 ⟨w, hw⟩
    obtain ⟨w', hw'⟩ := Role.isSnapshot_iff.1 hsnap
    refine ⟨w', hw', ?_, ?_⟩
    · rw [h.shares_eq hn hw, hu.shares_eq hm hw', hc.shares_split]
    · have hbasis := hwanes.basis
      simp only [Node.basis?, hw, hw', Option.bind_some] at hbasis
      exact w'.basis_eq (hu.sharing.alive k m w' hm hw') hbasis

theorem Resting.share_live (h : Resting K start t) (hf : t.nodes.get? f = none) :
    t.nodes.count (·.share = some f) = 0 := by
  refine Arena.count_eq_zero fun k n hn => ?_
  by_contra hs
  obtain ⟨-, hnear⟩ := h.sharing.holder k n f hn (by simpa using hs)
  obtain ⟨m, hm, -⟩ := hnear.holds
  rw [hf] at hm
  cases hm

def redeemed (r₀ : Relaxation σ) (kept : List (Solver.Basis σ)) : Charge σ := fun r l =>
  ∃ bs, r = r₀.giveBack bs ∧ (bs ++ l).Perm kept

theorem redeemed_redemption (r₀ : Relaxation σ) (kept : List (Solver.Basis σ)) : Redemption (redeemed r₀ kept) where
  perm r l l' hl := by
    rintro ⟨bs, hr, hperm⟩
    exact ⟨bs, hr, (hl.symm.append_left bs).trans hperm⟩
  freeBasis r l b := by
    rintro ⟨bs, rfl, hperm⟩
    refine ⟨bs ++ [b], (Relaxation.giveBack_append r₀ bs [b]).symm, ?_⟩
    rwa [List.append_assoc]

theorem Cuts.basis_left (hc : Cuts cutoff ids t u) (h : Resting K start t) (hu : Resting K' start' u)
    (hn : t.nodes.get? k = some n) :
    (u.nodes.get? k).bind Node.basis? = if t.isSpent u (k, n) then none else n.basis? := by
  cases hw : n.role.warmStart? with
  | none =>
      have hnone : n.basis? = none := by
        unfold Node.basis?
        rw [hw]
        rfl
      rw [hnone, ite_self]
      cases hm : u.nodes.get? k with
      | none => rfl
      | some m =>
          obtain ⟨n', hn', hwanes⟩ := hc.sweeps.nodes k m hm
          cases hn.symm.trans hn'
          exact hwanes.basis.elim (fun hb => hb.trans hnone) id
  | some w =>
      have hspent : t.isSpent u (k, n) = decide (w.shares = t.sharesReturned u k) := by
        simp only [isSpent, hw, Option.map_some, Option.some.injEq]
      rw [hspent]
      cases hm : u.nodes.get? k with
      | none =>
          have hgone := hc.shares_split k
          rw [hu.share_live hm, Nat.zero_add, ← h.shares_eq hn hw] at hgone
          simp [hgone]
      | some m =>
          obtain ⟨n', hn', hleft⟩ := hc.withstands h hu hm
          cases hn.symm.trans hn'
          obtain ⟨w', hw', hshares, hbasis⟩ := hleft.warmStart w hw
          simp only [Option.bind_some, Node.basis?, hw, hw', hbasis, hshares]
          by_cases hzero : w'.shares = 0
          · simp [hzero]
          · simp [hzero]

theorem Cuts.perm_lapsed (hc : Cuts cutoff ids t u) (h : Resting K start t) (hu : Resting K' start' u)
    {bs : List (Solver.Basis σ)} (hperm : (bs ++ bases u.nodes).Perm (bases t.nodes)) : bs.Perm (t.lapsed u) := by
  have hsplit : (t.lapsed u ++ (t.nodes.toList.filter fun e => !t.isSpent u e).filterMap fun e => e.2.basis?).Perm
      (bases t.nodes) := by
    unfold lapsed bases
    rw [← List.filterMap_append]
    exact (List.filter_append_perm (t.isSpent u) _).filterMap _
  have hkept : (bases u.nodes).Perm
      ((t.nodes.toList.filter fun e => !t.isSpent u e).filterMap fun e => e.2.basis?) := by
    unfold bases
    refine ((Arena.toList_perm_lookup hc.live).filterMap _).trans (.of_eq ?_)
    rw [List.filterMap_filterMap, List.filterMap_filter]
    refine List.filterMap_congr fun e he => ?_
    rw [Option.bind_map]
    refine (hc.basis_left h hu (Arena.mem_toList.1 he)).trans ?_
    cases t.isSpent u e <;> rfl
  exact (List.perm_append_right_iff _).1 ((hperm.trans hsplit.symm).trans (hkept.symm.append_left _))

end Shares

section Cutoff

/-- Pruning freed `count` waiting nodes: the condemned ones, and with them those that are left without a child. Whoever
stays is the same, nobody came, and bases went back to the solver, each once, as their last shares went. All else is
as it was. -/
structure Prunes (cutoff : Binary64) (count : Nat) (t u : Tree σ cmp) : Prop where
  freed : ∀ k n, t.nodes.get? k = some n → (u.nodes.get? k = none ↔ t.Condemned cutoff k)
  count_eq : count = t.nodes.toList.countP fun e => e.2.role.name.isWaiting && (u.nodes.get? e.1).isNone
  left : ∀ k m, u.nodes.get? k = some m → ∃ n, t.nodes.get? k = some n ∧ t.Withstands u k n m
  queued : u.frontier.toList.Perm (t.frontier.toList.filter fun e => !decide (cutoff ≤ e.key.lowerBound))
  lp : ∃ bs, bs.Perm (t.lapsed u) ∧ u.lp = t.lp.giveBack bs
  frame : u = { t with
    nodes := u.nodes, root := u.root, frontier := u.frontier, children := u.children, siblings := u.siblings,
    lp := u.lp, stats := u.stats, journal := u.journal }

theorem Cuts.count_eq (hc : Cuts cutoff ids t u) (h : Resting K start t) :
    ids.length = t.nodes.toList.countP fun e => e.2.role.name.isWaiting && (u.nodes.get? e.1).isNone := by
  have hlive : ∀ k ∈ ids, ∃ n, t.nodes.get? k = some n := fun k hk => ((hc.mem k).1 hk).2.imp fun _ => And.left
  rw [← Arena.countP_mem hc.nodup hlive]
  refine List.countP_congr fun e he => ?_
  have hn : t.nodes.get? e.1 = some e.2 := Arena.mem_toList.1 he
  rw [decide_eq_true_iff, Bool.and_eq_true, Option.isNone_iff_eq_none]
  constructor
  · intro hk
    refine ⟨?_, hc.gone e.1 hk⟩
    obtain ⟨n, hn', hw⟩ := ((hc.mem e.1).1 hk).1.elim (fun hs => (h.toSound.waiting_of_staged hs).2)
      h.toSound.waiting_of_queued
    cases hn.symm.trans hn'
    exact hw
  · rintro ⟨hw, hgone⟩
    by_contra hk
    obtain ⟨m, hm, -⟩ := hc.kept.waiting e.1 e.2 hn hw hk
    rw [hgone] at hm
    cases hm

theorem Resting.prunes (h : Resting K start t) (cutoff : Binary64) :
    Ends (prune cutoff) t (fun count u => Prunes cutoff count t u) fun _ _ => False := by
  have hkept : Resting (redeemed t.lp (bases t.nodes)) start t := { h with custody := ⟨[], rfl, .refl _⟩ }
  refine (prune_cuts (redeemed_redemption _ _) hkept cutoff).mono ?_ fun _ _ h => h
  rintro _ u ⟨hu, ids, hc, rfl⟩
  obtain ⟨bs, hlp, hperm⟩ := hu.custody
  exact {
    freed := fun k n hn => ⟨hc.condemned_of_gone h hu hn, hc.gone_of_condemned hu⟩
    count_eq := hc.count_eq h
    left := fun k m => hc.withstands h hu
    queued := hc.frontier
    lp := ⟨bs, hc.perm_lapsed h hu hperm, hlp⟩
    frame := by
      have hpolicy : u.policy = t.policy := hc.sweeps.policy
      have hsettings : u.settings = t.settings := hc.sweeps.settings
      have hnumber : u.nextNumber = t.nextNumber := hc.sweeps.nextNumber
      rw [← hc.kept.path, ← hc.kept.sizes, ← hc.kept.active, ← hc.kept.lpFork, ← hc.kept.subroot, ← hc.kept.correctDepth,
        ← hc.kept.focus, ← hc.kept.domains, ← hpolicy, ← hsettings, ← hnumber] }

/-- In every reachable state pruning frees the waiting nodes that are listed and no better than the cutoff, whoever is
left without a child by that, and nobody else. -/
theorem prune_exact {solver : σ} {domains : Domains} {settings : Settings} {t₀ : Tree σ cmp}
    (h₀ : ofSettings solver domains settings = .ok t₀) (ops : List (Op σ)) (cutoff : Binary64) :
    ∃ count u, prune cutoff (t₀.run ops) = .ok count u ∧ Prunes cutoff count (t₀.run ops) u := by
  have hrest := resting_of_ofSettings (K := fun _ _ => True) h₀ trivial
  exact ((run_resting .nothing hrest ops).prunes cutoff).exists_ok

/-- Two leaves, the Fork above them with the basis they share, and a Child are pruned; the other Child takes the
place of that one. -/
theorem prune_exact_with_fork :
    ∃ t₀ : Tree ScriptedSolver SelectionRule.bestBound.order, ofSettings .fresh (.free 1) {} = .ok t₀ ∧
      let t := t₀.run [.create 0 0, .activate (some ⟨0, 0⟩), .load, .addColumn (7 : Int), .solve, .create 0 0,
        .create 0 0, .activate (some ⟨1, 0⟩), .load, .addColumn (8 : Int), .solve, .create 5 0, .create 6 0,
        .activate (some ⟨2, 0⟩), .create 7 0, .create 4 0]
      let u := left (prune 5) t
      t.pool = [⟨5, 0⟩, ⟨6, 0⟩, ⟨3, 0⟩, ⟨4, 0⟩] ∧ u.pool = [⟨6, 0⟩] ∧ (t.nodes.get? ⟨1, 0⟩).isSome = true ∧
        (u.nodes.get? ⟨1, 0⟩).isSome = false ∧ u.stats.basesFreed = 1 ∧ Prunes 5 3 t u := by
  refine ⟨_, rfl, ?_⟩
  intro t u
  have hrun : returns (prune 5) t 3 = true := by decide +kernel
  obtain ⟨count, v, hv, hprunes⟩ :=
    @prune_exact ScriptedSolver _ SelectionRule.bestBound.order .fresh (.free 1) {} _ rfl _ 5
  cases (eq_ok_of_returns hrun).symm.trans hv
  exact ⟨by decide +kernel, by decide +kernel, by decide +kernel, by decide +kernel, by decide +kernel, hprunes⟩

end Cutoff

end BranchBound.Tree
