import BranchBound.Proofs.Path
import BranchBound.Proofs.Relaxation
import BranchBound.Proofs.Sweeping
import BranchBound.Tree.Clearing

namespace BranchBound

theorem Arena.toList_of_vacant {α : Type} {a : Arena α} (h : ∀ k, a.get? k = none) : a.toList = [] := by
  refine List.eq_nil_iff_forall_not_mem.2 fun e he => ?_
  cases (h e.1).symm.trans (Arena.mem_toList.1 he)

/-- A statement stays true while the bases that are no longer kept go back in turn. -/
theorem Redemption.giveBack {σ : Type} [Solver σ] {K : Charge σ} (hK : Redemption K) {bs l : List (Solver.Basis σ)}
    {r : Relaxation σ} (h : K r (bs ++ l)) : K (r.giveBack bs) l := by
  induction bs generalizing r with
  | nil => exact h
  | cons b bs ih => exact ih (hK.freeBasis r (bs ++ l) b h)

namespace Tree

variable {σ : Type} [Solver σ] {cmp : NodeOrder} {K K' : Charge σ}
  {start : Array Interval} {t t' : Tree σ cmp}

theorem bases_of_vacant {a : Arena (Node σ)} (h : ∀ k, a.get? k = none) : bases a = [] := by
  unfold bases
  rw [Arena.toList_of_vacant h]
  rfl

structure Vacant (t : Tree σ cmp) : Prop where
  wellFormed : t.nodes.WellFormed
  nodes : ∀ k, t.nodes.get? k = none
  root : t.root = none
  frontier : t.frontier.toList = []
  path : t.path = []
  sizes : t.sizes = []
  children : t.children = []
  siblings : t.siblings = []
  active : t.active = none
  lpFork : t.lpFork = none
  subroot : t.subroot = none
  correctDepth : t.correctDepth = none
  focus : t.focus = .fresh

theorem Vacant.resting (h : Vacant t) (hb : Books t.nodes t.stats) (hk : K t.lp []) (hv : t.domains.vars = start) :
    Resting K start t := by
  have hlive : ∀ {k n}, t.nodes.get? k = some n → False := fun hn => nomatch (h.nodes _).symm.trans hn
  have hstaged : ∀ w, t.staged w = [] := by
    intro w
    cases w
    · exact h.children
    · exact h.siblings
  have hqueue : Queue t.nodes t.frontier := by
    refine ⟨?_, fun e he => ?_⟩
    · rw [Frontier.ids_eq, h.frontier]
      exact List.nodup_nil
    · rw [h.frontier] at he
      cases he
  have hnear : ∀ q : Role σ → Bool, Nearest t.nodes q t.above none := by
    intro q
    unfold above
    rw [h.path]
    exact .top
  have hforest : Forest t.nodes t.root := by
    refine ⟨fun _ _ hn => (hlive hn).elim, fun _ _ _ hn => (hlive hn).elim, fun k hk => ?_⟩
    cases h.root.symm.trans hk
  have hwalk : Walk t.nodes t.path := by
    refine ⟨fun i k hk => ?_, fun _ _ hn => (hlive hn).elim⟩
    rw [h.path] at hk
    cases hk
  have hplaces : Places t.nodes [] t.tip t.above t.staged := by
    refine ⟨fun w i k hk => ?_, fun _ _ _ _ hn => (hlive hn).elim⟩
    rw [hstaged w] at hk
    cases hk
  have hacting : Acting t.nodes t.active := by
    intro k
    constructor
    · intro hk
      cases h.active.symm.trans hk
    · rintro ⟨n, hn, -⟩
      exact (hlive hn).elim
  have htip : t.tip = none := by
    unfold tip
    rw [h.path]
    rfl
  exact {
    wellFormed := h.wellFormed
    forest := hforest
    walk := hwalk
    family := ⟨fun _ _ _ hn => (hlive hn).elim, fun _ _ _ _ hn => (hlive hn).elim,
      fun _ _ _ _ hn => (hlive hn).elim, fun _ _ hn => (hlive hn).elim, fun _ _ hn => (hlive hn).elim⟩
    places := hplaces
    queue := hqueue
    sharing := ⟨fun _ _ _ hn => (hlive hn).elim, fun _ _ _ hn => (hlive hn).elim,
      fun _ _ _ hn => (hlive hn).elim, fun _ hk => nomatch hk⟩
    logs := ⟨fun _ _ _ hn => (hlive hn).elim, fun _ _ hn => (hlive hn).elim⟩
    books := hb
    acting := hacting
    custody := (bases_of_vacant h.nodes).symm ▸ hk
    active_eq := h.active.trans htip.symm
    sized := by rw [h.sizes, h.path]; rfl
    lpFork := h.lpFork.symm ▸ hnear _
    subroot := h.subroot.symm ▸ hnear _
    inForce := by
      rw [h.path, hv]
      exact ⟨trivial, rfl⟩ }

theorem reclaimAll_spec (ns : List (Node σ)) (t : Tree σ cmp) :
    Ends (ns.forM reclaimBasis) t
      (fun _ u => u = { t with
        lp := t.lp.giveBack (ns.filterMap Node.basis?)
        stats := { t.stats with basesFreed := t.stats.basesFreed + (ns.filterMap Node.basis?).length } })
      fun _ _ => False := by
  induction ns generalizing t with
  | nil => exact Eq.refl t
  | cons n ns ih =>
      simp only [List.forM, ends_bind]
      unfold reclaimBasis
      cases hb : n.basis? with
      | none =>
          rw [List.filterMap_cons_none hb]
          rw [show n.role.warmStart?.bind WarmStart.basis = none from hb]
          exact ih t
      | some b =>
          rw [List.filterMap_cons_some hb]
          rw [show n.role.warmStart?.bind WarmStart.basis = some b from hb]
          simp only [ends_bind, ends_returnBasis, ends_count]
          refine (ih _).mono ?_ fun _ _ h => h
          rintro _ _ rfl
          rw [List.length_cons, Nat.add_comm (List.length _) 1, ← Nat.add_assoc]
          rfl

theorem forget_vacant (h : t.nodes.WellFormed) : Vacant t.forget where
  wellFormed := h.clear
  nodes := Arena.get?_clear _
  root := rfl
  frontier := by
    have hperm := t.frontier.toList_extract_perm fun _ => true
    rw [show (t.frontier.toList.filter fun _ => !true) = [] from List.filter_eq_nil_iff.2 fun _ _ => by simp] at hperm
    exact hperm.eq_nil
  path := rfl
  sizes := rfl
  children := rfl
  siblings := rfl
  active := rfl
  lpFork := rfl
  subroot := rfl
  correctDepth := rfl
  focus := rfl

/-- All nodes are gone, and the bounds of those on the path were put back. -/
structure Emptied (t t' : Tree σ cmp) : Prop extends Vacant t' where
  domains : t.domains.Touches t'.domains

/-- A clear gives back the bases that are kept and asks the solver last. Whatever comes of that, no node is left and the
bounds are those at the start. -/
theorem clear_cases (h : Resting K start t) :
    Ends clear t
      (fun _ u => Relaxation.clear (t.lp.giveBack (bases t.nodes)) = .ok () u.lp ∧ Emptied t u ∧
        u.domains.vars = start ∧ Books u.nodes u.stats)
      fun e u => ∃ e', e = .solver e' ∧ Relaxation.clear (t.lp.giveBack (bases t.nodes)) = .error e' u.lp ∧ Emptied t u ∧
        u.domains.vars = start ∧ Books u.nodes u.stats := by
  have hlist : (t.nodes.toList.map Prod.snd).filterMap Node.basis? = bases t.nodes := by
    rw [List.filterMap_map]
    rfl
  unfold clear
  rw [ends_bind, ends_get, ends_bind]
  refine (undoAll_spec (p := []) (fun t p last n hf hn => (undoLog_spec hf hn).mono
    (fun _ _ ⟨d, he, hf'⟩ => ⟨d, t.journal, he, hf'⟩) fun _ _ h => h) h.inForce
    fun _ => h.walk.live_of_mem).mono ?_ fun _ _ h => h.elim
  rintro _ t₁ ⟨domains, journal, rfl, hf, htouch⟩
  rw [ends_bind, ends_get, ends_bind]
  refine (reclaimAll_spec _ _).mono ?_ fun _ _ h => h.elim
  rintro _ t₂ rfl
  simp only [hlist]
  have hbooks : Books t.nodes.clear { t.stats with
      basesFreed := t.stats.basesFreed + (bases t.nodes).length, freed := t.stats.freed + t.nodes.size } := by
    refine ⟨h.books.nodes, ?_⟩
    rw [bases_of_vacant (Arena.get?_clear t.nodes)]
    exact h.books.bases
  rw [ends_bind, ends_modify, ends_onLp]
  refine (ends_run _ _).mono ?_ ?_
  · intro _ lp hrun
    exact ⟨hrun, { forget_vacant h.wellFormed with domains := htouch }, hf.vars_eq, hbooks⟩
  · intro e lp hrun
    exact ⟨e, rfl, hrun, { forget_vacant h.wellFormed with domains := htouch }, hf.vars_eq, hbooks⟩

theorem clear_ends {K₁ : Charge σ} (hK : Redemption K) (hclear : ∀ r l, K r l →
      Ends Relaxation.clear r (fun _ r' => K₁ r' l) fun _ r' => K' r' l) (h : Resting K start t) :
    Ends clear t (fun _ t' => Resting K₁ start t' ∧ Emptied t t' ∧ t'.lp.contents = .empty)
      fun e t' => (∃ e', e = .solver e') ∧ Resting K' start t' ∧ Emptied t t' := by
  have hk : K t.lp (bases t.nodes ++ []) := by
    rw [List.append_nil]
    exact h.custody
  have hcleared := (hclear _ _ (hK.giveBack hk)).and (Relaxation.clear_contents _)
  refine (clear_cases h).mono ?_ ?_
  · rintro _ u ⟨hrun, hemptied, hvars, hbooks⟩
    obtain ⟨hk', hc⟩ := hcleared.of_ok hrun
    exact ⟨hemptied.toVacant.resting hbooks hk' hvars, hemptied, hc⟩
  · rintro _ u ⟨e, rfl, hrun, hemptied, hvars, hbooks⟩
    exact ⟨⟨e, rfl⟩, hemptied.toVacant.resting hbooks (hcleared.of_error hrun).1 hvars, hemptied⟩

theorem clear_spec (hK : Rebuilding K K') (h : Resting K start t) :
    Ends clear t (fun _ t' => Resting K start t' ∧ Emptied t t' ∧ t'.lp.contents = .empty)
      fun e t' => (∃ e', e = .solver e') ∧ Resting K' start t' ∧ Emptied t t' :=
  clear_ends hK.toRedemption hK.clear h

end Tree

end BranchBound
