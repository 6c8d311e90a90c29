import BranchBound.Proofs.Granting

namespace BranchBound

variable {σ : Type} [Solver σ] {cmp : NodeOrder}

namespace Tree

variable {K K' : Charge σ} {start : Array Interval}
  {t t' : Tree σ cmp} {a : Handle} {n : Node σ}

theorem pathSize_ok {depth : Nat} {size : Extent} (h : t.sizes[depth]? = some size) :
    t.pathSize depth = .ok size := by
  unfold pathSize
  rw [h]

theorem Resting.pathSize_of_lt (h : Resting K start t) {depth : Nat} (hd : depth < t.path.length) :
    ∃ size, t.pathSize depth = .ok size :=
  ⟨_, pathSize_ok (List.getElem?_eq_getElem (h.sized ▸ hd))⟩

theorem Resting.subrootSize_ok (h : Resting K start t) : ∃ size, t.subrootSize = .ok size := by
  unfold subrootSize
  have hnear := h.subroot
  cases hs : t.subroot with
  | none => exact ⟨_, rfl⟩
  | some g =>
      rw [hs] at hnear
      obtain ⟨n, hn, -, hplace, -⟩ := h.walk.nearest_onPath hnear
      simp only [node_eq_ok.2 hn]
      exact h.pathSize_of_lt (List.getElem?_eq_some_iff.1 hplace).1

theorem Resting.snapshotQuery_ok (h : Resting K start t) (depth : Nat) (above : Extent) :
    ∃ c, t.snapshotQuery depth above = .ok c := by
  obtain ⟨size, hsize⟩ := h.subrootSize_ok
  unfold snapshotQuery
  rw [hsize]
  exact ⟨_, rfl⟩

theorem concludes_snapshot (hK : Custody K K') (h : Resting K start t) (ha : t.active = some a)
    (hn : t.nodes.get? a = some n) (hshare : n.share = none) (hne : t.children ≠ [])
    {above : Extent} (hsolved : t.focus.isSolved = true) (habove : t.parentSize n.depth = .ok above)
    (hgrown : above.columns < t.lp.size.columns ∨ above.rows < t.lp.size.rows) {basis : Solver.Basis σ} {solver : σ}
    (hcustody : K { t.lp with solver := solver } (basis :: bases t.nodes)) (full : Bool)
    {role : Role σ} (hopen : role.openChildren? = some t.children.length)
    (hwarm : role.warmStart? = some ⟨some basis, t.children.length⟩)
    (hlayer : role.layer = some (full, ⟨(t.lp.suffix (if full then .zero else above)).1,
      (t.lp.suffix (if full then .zero else above)).2⟩)) (journal : Array Event) :
    Concludes K t { t with
      nodes := t.nodes.adjust fun k m => if k ∈ t.children then { m with share := some a } else m
      sizes := t.sizes.set n.depth t.lp.size
      lpFork := some a
      subroot := if full then some a else t.subroot
      correctDepth := some n.depth
      lp := { t.lp with solver := solver }
      stats := { t.stats with captured := t.stats.captured + 1 }
      journal := journal } a n role := by
  obtain ⟨n', hn', hactive, -⟩ := h.actor ha
  cases hn.symm.trans hn'
  have hg : Grants t a a fun _ x => x := fun _ x _ _ _ => ⟨.refl x, rfl, fun _ => rfl⟩
  obtain ⟨hself, hnodes⟩ := h.granting_eq (f := a) (g := fun _ x => x) ha role (fun _ => rfl)
    (fun _ _ _ => rfl) hn
  rw [Arena.adjust_self] at hself hnodes
  have hnear : Nearest (t.nodes.adjust (granting t a a n role fun _ x => x)) Role.isSnapshot
      (some a) (some a) :=
    .here (Arena.get?_adjust_of hn) (by rw [granting_self]; exact Role.isSnapshot_iff.2 ⟨_, hwarm⟩)
  have hbases : (bases (t.nodes.adjust (granting t a a n role fun _ x => x))).Perm
      (basis :: bases t.nodes) := by
    rw [← hnodes]
    refine (bases_set_cons hself ?_ ?_).trans ((bases_adjust fun k x _ => ?_).cons basis)
    · rw [Node.basis?, hactive]
      rfl
    · change role.warmStart?.bind WarmStart.basis = some basis
      rw [hwarm]
      rfl
    · split <;> rfl
  refine ⟨hself, ⟨_, hnodes, granting_self n, h.granting_steady ha hg, .inr hopen, rfl, rfl, rfl, rfl,
    rfl, rfl⟩, ?_, ?_, ?_, .snapshot full above hsolved habove hgrown hlayer rfl rfl rfl rfl, rfl, rfl⟩
  · rw [hnodes]
    refine h.granted ha hn hshare hne hg hnear (fun hk => absurd rfl hk) fun o v ho hv => ?_
    cases hn.symm.trans ho
    rw [granting_self] at hv
    cases hwarm.symm.trans hv
    rw [h.not_shared ha]
    exact ⟨(Nat.zero_add _).symm, rfl⟩
  · rw [hnodes]
    refine ⟨h.books.nodes, ?_⟩
    rw [hbases.length_eq, List.length_cons]
    change t.stats.captured + 1 = t.stats.basesFreed + _
    rw [h.books.bases]
    omega
  · rw [hnodes]
    exact hK.perm _ _ _ hbases.symm hcustody

def Unmoved (t t' : Tree σ cmp) : Prop :=
  ∃ solver journal, t' = { t with lp := { t.lp with solver := solver }, journal := journal }

theorem Unmoved.kept (h : Unmoved t t') : Kept [] t t' := by
  obtain ⟨solver, journal, rfl⟩ := h
  exact { Kept.refl t with }

/-- A node that leaves with a snapshot captures the basis once for each child; nothing has changed
when the solver has no basis to give. -/
theorem takeSnapshot_spec (hK : Custody K K') (h : Resting K start t) (ha : t.active = some a)
    (hn : t.nodes.get? a = some n) (hshare : n.share = none) (hne : t.children ≠ [])
    {above : Extent} (hsolved : t.focus.isSolved = true) (habove : t.parentSize n.depth = .ok above)
    (hgrown : above.columns < t.lp.size.columns ∨ above.rows < t.lp.size.rows) :
    Ends (takeSnapshot a n.depth above) t (fun role t' => Concludes K t t' a n role)
      fun e t' => (∃ e', e = .solver e') ∧ Resting K' start t' ∧ Unmoved t t' := by
  obtain ⟨c, hc⟩ := h.snapshotQuery_ok n.depth above
  unfold takeSnapshot askPolicy
  simp only [ends_bind, ends_read, hc, ends_record, ends_get, ends_pure]
  refine ends_onSolver_of (t := { t with journal := t.journal.push (.consulted c) })
    (hK.getBasis t.lp _ h.custody) ?_ ?_
  · intro basis solver hcustody
    obtain ⟨n', hn', hactive, hlen, -⟩ := h.actor ha
    cases hn.symm.trans hn'
    have hin : n.depth < t.sizes.length := by
      rw [h.sized]
      omega
    refine (handShares_spec (t := { t with
      journal := t.journal.push (.consulted c), lp := { t.lp with solver := solver } })
      h.children_nodup fun k hk => (h.fresh_child ha hk).imp fun _ h => h.1).mono ?_ fun _ _ h => h.elim
    rintro _ _ rfl
    unfold setPathSize
    simp only [ends_count, ends_bind, ends_get, if_pos hin, ends_set, ends_modify]
    cases hfull : t.policy c with
    | false =>
        exact concludes_snapshot hK h ha hn hshare hne hsolved habove hgrown hcustody false rfl rfl rfl _
    | true =>
        exact concludes_snapshot hK h ha hn hshare hne hsolved habove hgrown hcustody true rfl rfl rfl _
  · intro e solver hcustody
    exact ⟨⟨e, rfl⟩, { h with custody := hcustody }, solver, _, rfl⟩

theorem Resting.parentSize_ok (h : Resting K start t) {depth : Nat} (hd : depth < t.path.length) :
    ∃ size, t.parentSize depth = .ok size := by
  cases depth with
  | zero => exact ⟨_, rfl⟩
  | succ d => exact h.pathSize_of_lt (Nat.lt_of_succ_lt hd)

theorem finalRole_spec (hK : Custody K K') (h : Resting K start t) (ha : t.active = some a)
    (hn : t.nodes.get? a = some n) (hshare : n.share = none) :
    Ends (finalRole a) t (fun role t' => Concludes K t t' a n role)
      fun e t' => t.focus.isSolved = true ∧ (∃ e', e = .solver e') ∧ Resting K' start t' ∧ Unmoved t t' := by
  obtain ⟨n', hn', -, hlen, -⟩ := h.actor ha
  cases hn.symm.trans hn'
  obtain ⟨above, habove⟩ := h.parentSize_ok (show n.depth < t.path.length by omega)
  unfold finalRole
  simp only [ends_bind, ends_read, node_eq_ok.2 hn, habove, ends_get]
  by_cases hempty : t.children = []
  · rw [if_pos (by rw [hempty]; rfl)]
    exact concludes_plain hK h ha hn (.inl ⟨hempty, rfl⟩) rfl t.journal ⟨rfl, rfl, rfl, rfl⟩ hshare
  · rw [if_neg (by simpa using hempty)]
    split
    · rename_i hbig
      exact (takeSnapshot_spec hK h ha hn hshare hempty hbig.1 habove hbig.2).mono (fun _ _ h => h) fun _ _ h => ⟨hbig.1, h⟩
    · rw [ends_bind]
      exact (forwardShares_spec hK h ha hn hshare hempty).mono (fun _ _ h => h) fun _ _ h => h.elim

/-- What the end of the active node's turn makes of a node: the active one is processed, of the
others only shares and warm starts change. -/
inductive Turned (n m : Node σ) : Prop
  | waits : n.role.name ≠ .active → Steady n m → Turned n m
  | done : n.role.name = .active → m.role.name.isWaiting = false → m.role.name ≠ .active →
      m.parent = n.parent → m.depth = n.depth → m.log.changes = n.log.changes → Turned n m

namespace Turned

variable {n m k : Node σ}

theorem of_steady (h : Steady n m) (h' : Turned m k) : Turned n k := by
  cases h' with
  | waits hr h' => exact .waits (h.name ▸ hr) (h.trans h')
  | done hr hw ha hp hd hc =>
      exact .done (h.name ▸ hr) hw ha (hp.trans h.parent) (hd.trans h.depth) (hc.trans h.kin.changes)

theorem parent (h : Turned n m) : m.parent = n.parent := by
  cases h with
  | waits _ h => exact h.parent
  | done _ _ _ h => exact h

theorem changes (h : Turned n m) : m.log.changes = n.log.changes := by
  cases h with
  | waits _ h => exact h.kin.changes
  | done _ _ _ _ _ h => exact h

end Turned

structure Ended (K : Charge σ) (t t' : Tree σ cmp) : Prop where
  sound : Sound K ⟨none, t.above, [], none, none⟩ t'
  nodes : Matched Turned t.nodes t'.nodes
  active : t'.active = none
  path : t'.path = t.path
  children : t'.children = t.children
  siblings : t'.siblings = t.siblings
  domains : t'.domains = t.domains
  columns : t'.lp.columns = t.lp.columns
  rows : t'.lp.rows = t.lp.rows
  leaves : ∀ a, t.active = some a → ∃ n m, t.nodes.get? a = some n ∧ t'.nodes.get? a = some m ∧
    Leaves t t' a n m.role
  idle : t.active = none → t' = t

theorem Ended.sized (he : Ended K t t') (h : Resting K' start t) : t'.sizes.length = t'.path.length := by
  rw [he.path, ← h.sized]
  cases ha : t.active with
  | none => rw [he.idle ha]
  | some a =>
      obtain ⟨n, m, -, -, hleaves⟩ := he.leaves a ha
      cases hleaves with
      | nothing _ hsizes => rw [hsizes]
      | snapshot _ _ _ _ _ _ hsizes => rw [hsizes, List.length_set]

theorem Retires.turned {role : Role σ} {F : Handle → Node σ → Node σ} (h : Retires t t' a n role F)
    (hr : Resting K start t) (ha : t.active = some a) (hn : t.nodes.get? a = some n) (hactive : n.role.name = .active) :
    Matched Turned t.nodes t'.nodes := by
  rw [h.nodes]
  refine .adjust fun k o ho => ?_
  by_cases hk : k = a
  · subst hk
    cases hn.symm.trans ho
    rw [h.self]
    exact .done hactive h.role.not_waiting.1 h.role.not_waiting.2.1 rfl rfl rfl
  · refine .waits (fun hact => ?_) (h.others k o ho hk)
    exact hk (Option.some.inj (((hr.acting k).2 ⟨o, ho, hact⟩).symm.trans ha))

def Unladen (t : Tree σ cmp) : Prop :=
  t.focus.isSolved = true → ∀ a n, t.active = some a → t.nodes.get? a = some n → n.share = none

/-- When the solver has no basis to give, the share is already gone. -/
theorem retire_spec (hK : Custody K K') (h : Resting K start t) :
    Ends retire t (fun _ t' => Ended K t t') fun e t' =>
      (∃ e', e = .solver e') ∧ Resting K' start t' ∧ Kept [] t t' ∧ (Unladen t → Unmoved t t') := by
  unfold retire
  rw [ends_bind, ends_get]
  cases ha : t.active with
  | none =>
      refine ⟨?_, .mk ?_ ?_, ha, rfl, rfl, rfl, rfl, rfl, rfl, fun a hb => ?_, fun _ => rfl⟩
      · have hsound := h.toSound
        rw [show t.rest = ⟨none, t.above, [], none, none⟩ by rw [rest, ha]] at hsound
        exact hsound
      · intro k m hm
        exact ⟨m, hm, .waits (h.not_active ha hm) (.refl m)⟩
      · intro k m hm
        exact ⟨m, hm, .waits (h.not_active ha hm) (.refl m)⟩
      · rw [ha] at hb
        cases hb
  | some a =>
      obtain ⟨n, hn, hactive, -⟩ := h.actor ha
      rw [ends_bind]
      refine ((surrenderShare_spec hK.toRedemption h.toSound rfl hn).and (surrenderShare_idle hn)).mono ?_ fun _ _ h => h.1.elim
      rintro _ t₁ ⟨⟨hsound, nodes, solver, stats, journal, m, rfl, hmatch, hm, hshare⟩, hidle⟩
      have hkept := Kept.of_steady hmatch solver stats journal
      have h₁ := h.of_kept hsound hkept
      have hsteady : Steady n m := by
        obtain ⟨m', hm', hs⟩ := hmatch.forth a n hn
        cases hm.symm.trans hm'
        exact hs
      simp only [ends_bind, ends_get]
      refine (finalRole_spec hK h₁ ha hm hshare).mono ?_ fun _ _ hfail => ?_
      case refine_2 =>
        obtain ⟨hsolved, he, hrest, hmoved⟩ := hfail
        exact ⟨he, hrest, hkept.trans hmoved.kept, fun hfree => hidle (hfree hsolved a n ha hn) ▸ hmoved⟩
      rintro role t₂ hconc
      obtain ⟨F, hret⟩ := hconc.retires
      have h₂ := hret.sound h₁ ha hm hconc.sharing hconc.books hconc.custody
      have hactive' : m.role.name = .active := by rw [hsteady.name, hactive]; rfl
      have hself := Arena.get?_set_self hconc.self { m with role := role, log := m.log.close }
      have hturned : Matched Turned nodes (t₂.nodes.set a { m with role := role, log := m.log.close }) :=
        hret.turned h₁ ha hm hactive'
      simp only [ends_read, node_eq_ok.2 hconc.self, ends_record, ends_setNode, ends_modify]
      refine ⟨{ h₂ with }, ?_, rfl, hret.path, hret.children, hret.siblings, hret.domains,
        hconc.columns, hconc.rows, ?_, ?_⟩
      · exact Matched.trans (S := Turned) (fun _ _ _ => Turned.of_steady) hmatch hturned
      · rintro b hb
        obtain rfl : a = b := Option.some.inj (ha.symm.trans hb)
        refine ⟨n, _, hn, hself, ?_⟩
        cases hconc.leaves with
        | nothing hl hp hf hs hc => exact .nothing hl hp hf hs hc
        | snapshot full above hsolved habove hgrown hlayer hp hf hs hc =>
            rw [hsteady.depth] at habove hp hc
            exact .snapshot full above hsolved habove hgrown hlayer hp hf hs hc
      · intro hidle
        rw [ha] at hidle
        cases hidle

end Tree

end BranchBound
