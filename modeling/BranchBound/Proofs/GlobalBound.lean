import BranchBound.Proofs.Turns

namespace BranchBound.Tree

variable {σ : Type} [Solver σ] {cmp : NodeOrder} {K : Charge σ} {start : Array Interval} {t u : Tree σ cmp}
  {id k : Handle} {n m : Node σ} {op : Op σ} {z : Binary64}

/-- A node still to be explored that is no leaf handed out to the caller. -/
structure Open (t : Tree σ cmp) (k : Handle) (n : Node σ) : Prop where
  live : t.nodes.get? k = some n
  isProcessed : n.role.name.isProcessed = false
  kept : ¬ Strays t k

section Open

theorem Resting.mem_staged (h : Resting K start t) (w : Staging) (k : Handle) :
    k ∈ t.staged w ↔ ∃ n i, t.nodes.get? k = some n ∧ n.role = w.roleAt i := by
  constructor
  · intro hk
    obtain ⟨i, hi⟩ := List.mem_iff_getElem?.1 hk
    obtain ⟨-, n, hn, hs, -⟩ := h.places.listed w i k hi
    exact ⟨n, i, hn, staged?_eq_some.1 hs⟩
  · rintro ⟨n, i, hn, hr⟩
    exact List.mem_of_getElem? (h.places.placed k n w i hn (staged?_eq_some.2 hr) List.not_mem_nil)

theorem Resting.open_near (h : Resting K start t) :
    k ∈ t.children ++ t.siblings ++ t.active.toList ↔ ∃ n, Open t k n ∧ n.role.name ≠ .leaf := by
  have hopen : ∀ {n}, t.nodes.get? k = some n → n.role.name.isProcessed = false → n.role.name ≠ .leaf →
      Open t k n ∧ n.role.name ≠ .leaf := by
    intro n hn hr hleaf
    refine ⟨⟨hn, hr, ?_⟩, hleaf⟩
    rintro ⟨⟨o, ho, hr'⟩, -⟩
    cases hn.symm.trans ho
    exact hleaf hr'
  have hmem : k ∈ t.children ++ t.siblings ++ t.active.toList ↔ (∃ w, k ∈ t.staged w) ∨ t.active = some k := by
    simp only [List.mem_append, Option.mem_toList]
    refine or_congr_left ⟨fun h => h.elim (fun h => ⟨.children, h⟩) fun h => ⟨.siblings, h⟩, ?_⟩
    rintro ⟨_ | _, hk⟩
    · exact .inl hk
    · exact .inr hk
  rw [hmem]
  constructor
  · rintro (⟨w, hk⟩ | hk)
    · obtain ⟨n, i, hn, hr⟩ := (h.mem_staged w k).1 hk
      refine ⟨n, hopen hn ?_ ?_⟩ <;> cases w <;> simp [hr, Staging.roleAt, Role.name, RoleName.isProcessed]
    · obtain ⟨n, hn, hr⟩ := (h.acting k).1 hk
      exact ⟨n, hopen hn (by rw [hr]; rfl) (by rw [hr]; simp)⟩
  · rintro ⟨n, ⟨hn, hr, -⟩, hleaf⟩
    cases hrole : n.role with
    | child i => exact .inl ⟨.children, (h.mem_staged _ k).2 ⟨n, i, hn, hrole⟩⟩
    | sibling i => exact .inl ⟨.siblings, (h.mem_staged _ k).2 ⟨n, i, hn, hrole⟩⟩
    | active => exact .inr ((h.acting k).2 ⟨n, hn, by rw [hrole]; rfl⟩)
    | leaf => exact absurd (by rw [hrole]; rfl) hleaf
    | _ =>
        rw [hrole] at hr
        cases hr

theorem Resting.open_leaf (h : Resting K start t) :
    (∃ e ∈ t.frontier.toList, e.key.lowerBound = z) ↔ ∃ k n, Open t k n ∧ n.role.name = .leaf ∧ n.lowerBound = z := by
  constructor
  · rintro ⟨e, he, rfl⟩
    obtain ⟨n, hn, hleaf, hkey⟩ := h.queue.entry e he
    refine ⟨e.id, n, ⟨hn, by rw [hleaf]; rfl, fun hno => hno.2 (List.mem_map_of_mem he)⟩, hleaf, ?_⟩
    rw [hkey]
    rfl
  · rintro ⟨k, n, ⟨hn, -, hkept⟩, hleaf, rfl⟩
    have hk : k ∈ t.frontier.ids := by
      by_contra hk
      exact hkept ⟨⟨n, hn, hleaf⟩, hk⟩
    obtain ⟨e, he, rfl⟩ := List.mem_map.1 hk
    obtain ⟨o, ho, -, hkey⟩ := h.queue.entry e he
    cases hn.symm.trans ho
    refine ⟨e, he, ?_⟩
    rw [hkey]
    rfl

theorem Resting.bounds_near (h : Resting K start t) : z ∈ (t.children ++ t.siblings ++ t.active.toList).filterMap
    (fun id => (t.nodes.get? id).map Node.lowerBound) ↔
      ∃ k n, Open t k n ∧ n.role.name ≠ .leaf ∧ n.lowerBound = z := by
  simp only [List.mem_filterMap, Option.map_eq_some_iff, h.open_near]
  constructor
  · rintro ⟨k, ⟨n, hopen, hleaf⟩, m, hm, rfl⟩
    cases hm.symm.trans hopen.live
    exact ⟨k, n, hopen, hleaf, rfl⟩
  · rintro ⟨k, n, hopen, hleaf, rfl⟩
    exact ⟨k, ⟨n, hopen, hleaf⟩, n, hopen.live, rfl⟩

theorem Resting.bounds_queued (h : Resting K start t) : z ∈ t.frontier.toList.map (·.key.lowerBound) ↔
    ∃ k n, Open t k n ∧ n.role.name = .leaf ∧ n.lowerBound = z := by
  rw [List.mem_map]
  exact h.open_leaf

theorem Resting.le_lowerBound_iff (h : Resting K start t) : z ≤ t.lowerBound ↔
    z.isNaN = false ∧ ∀ k n, Open t k n → n.lowerBound.isNaN = false → z ≤ n.lowerBound := by
  unfold lowerBound Frontier.lowerBound
  simp only [Binary64.le_smaller_iff (Binary64.isNaN_least _), Binary64.isNaN_least, Binary64.le_least_iff, h.bounds_near,
    h.bounds_queued]
  constructor
  · rintro ⟨⟨hz, hn⟩, hq⟩
    refine ⟨hz, fun k n hopen hnum => ?_⟩
    by_cases hleaf : n.role.name = .leaf
    · exact (hq trivial).2 _ ⟨k, n, hopen, hleaf, rfl⟩ hnum
    · exact hn _ ⟨k, n, hopen, hleaf, rfl⟩ hnum
  · rintro ⟨hz, hall⟩
    refine ⟨⟨hz, ?_⟩, fun _ => ⟨hz, ?_⟩⟩
    · rintro _ ⟨k, n, hopen, -, rfl⟩ hnum
      exact hall k n hopen hnum
    · rintro _ ⟨k, n, hopen, -, rfl⟩ hnum
      exact hall k n hopen hnum

theorem isNaN_lowerBound (t : Tree σ cmp) : t.lowerBound.isNaN = false := by
  unfold lowerBound
  exact Binary64.isNaN_smaller (Binary64.isNaN_least _) _

theorem Resting.lowerBound_reached (h : Resting K start t) : t.lowerBound = Binary64.infinity ∨
    ∃ k n, Open t k n ∧ n.lowerBound.isNaN = false ∧ n.lowerBound ≤ t.lowerBound := by
  have hreached {xs : List Binary64} (hxs : ∀ x ∈ xs, ∃ k n, Open t k n ∧ n.lowerBound = x)
      (hleast : t.lowerBound = Binary64.least xs) : t.lowerBound = Binary64.infinity ∨
        ∃ k n, Open t k n ∧ n.lowerBound.isNaN = false ∧ n.lowerBound ≤ t.lowerBound := by
    rw [hleast]
    obtain ⟨x, hx, hnum, hle⟩ | ⟨-, hinf⟩ := Binary64.least_reached xs
    · obtain ⟨k, n, hopen, rfl⟩ := hxs x hx
      exact .inr ⟨k, n, hopen, hnum, hle⟩
    · exact .inl hinf
  obtain hnear | hqueued := Binary64.smaller_eq_or (Binary64.least ((t.children ++ t.siblings ++
    t.active.toList).filterMap fun id => (t.nodes.get? id).map Node.lowerBound)) t.frontier.lowerBound
  · refine hreached (fun x hx => ?_) hnear
    obtain ⟨k, n, hopen, -, hn⟩ := h.bounds_near.1 hx
    exact ⟨k, n, hopen, hn⟩
  · refine hreached (fun x hx => ?_) hqueued
    obtain ⟨k, n, hopen, -, hn⟩ := h.bounds_queued.1 hx
    exact ⟨k, n, hopen, hn⟩

theorem Resting.lowerBound_le_iff (h : Resting K start t) : t.lowerBound ≤ z ↔
    (∃ k n, Open t k n ∧ n.lowerBound.isNaN = false ∧ n.lowerBound ≤ z) ∨ Binary64.infinity ≤ z := by
  constructor
  · intro hle
    obtain hinf | ⟨k, n, hopen, hnum, hn⟩ := h.lowerBound_reached
    · exact .inr (hinf ▸ hle)
    · exact .inl ⟨k, n, hopen, hnum, Binary64.le_trans hn hle⟩
  · rintro (⟨k, n, hopen, hnum, hn⟩ | hinf)
    · exact Binary64.le_trans ((h.le_lowerBound_iff.1 (Binary64.le_self t.isNaN_lowerBound)).2 k n hopen hnum) hn
    · exact Binary64.le_trans (Binary64.le_infinity t.isNaN_lowerBound) hinf

end Open

def BoundsNumbers (t : Tree σ cmp) : Prop := ∀ k n, t.nodes.get? k = some n → n.lowerBound.isNaN = false

/-- Each bound that is a number is no lower than the node's was, or than that of the active node, whose child the node
is. -/
def Climbs (t u : Tree σ cmp) : Prop := ∀ k m, u.nodes.get? k = some m → m.lowerBound.isNaN = false →
  ∃ j n, t.nodes.get? j = some n ∧ (j = k ∨ t.active = some j) ∧ n.lowerBound ≤ m.lowerBound

section Climbs

theorem BoundsNumbers.remains (h : BoundsNumbers t) (hr : Remains t u) : Climbs t u := by
  intro k m hm _
  obtain ⟨n, hn, -, -, hbound⟩ := hr k m hm
  refine ⟨k, n, hn, .inl rfl, ?_⟩
  rw [hbound]
  exact Binary64.le_self (h k n hn)

theorem BoundsNumbers.raised (h : BoundsNumbers t) {bound : Binary64} (hn : t.nodes.get? id = some n)
    (hr : Raised id bound t u n) : Climbs t u := by
  intro k m hm hnum
  obtain ⟨o, ho, -, -, hlifts⟩ := hr.nodes k m hm
  refine ⟨k, o, ho, .inl rfl, hlifts.le (h k o ho) hnum fun hk => ?_⟩
  subst hk
  cases hn.symm.trans ho
  exact hr.rises

theorem BoundsNumbers.origin (h : BoundsNumbers t) (hroot : t.root ≠ none) {bound bound' : Binary64}
    {parent : Option Handle} {depth : Nat} (ho : t.origin bound = .ok (parent, depth, bound')) :
    ∃ p n, t.active = some p ∧ t.nodes.get? p = some n ∧ n.lowerBound ≤ bound' := by
  unfold Tree.origin at ho
  cases ha : t.active with
  | none =>
      simp only [ha] at ho
      split at ho
      · rename_i hnone
        exact absurd (Option.isNone_iff_eq_none.1 hnone) hroot
      · cases ho
  | some p =>
      simp only [ha] at ho
      cases hn : t.nodes.get? p with
      | none =>
          rw [node_eq_error.2 ⟨hn, rfl⟩] at ho
          cases ho
      | some n =>
          rw [node_eq_ok.2 hn] at ho
          cases ho
          exact ⟨p, n, rfl, hn, Binary64.le_larger_right bound (h p n hn)⟩

theorem create_climbs (h : BoundsNumbers t) (ht : Resting K start t) (hroot : t.root ≠ none) (bound estimate : Binary64) :
    Ends (create bound estimate) t (fun _ => Climbs t) fun _ => Climbs t := by
  have hstay : Climbs t t := h.remains (refl_of Remains t)
  refine (create_joins ht.wellFormed bound estimate).mono ?_ ?_
  · rintro id u ⟨o, hjoined, horigin, -, -⟩ k m hm hnum
    obtain ⟨-, rfl⟩ | hm := hjoined.cases hm
    · obtain ⟨p, n, hp, hn, hle⟩ := h.origin hroot horigin
      exact ⟨p, n, hn, .inr hp, hle⟩
    · exact hstay k m hm hnum
  · rintro e u rfl
    exact hstay

theorem perform_climbs (h : BoundsNumbers t) (ht : Resting (fun _ _ => True) start t) (op : Op σ)
    (hroot : t.root = none → ∀ bound estimate, op ≠ .create bound estimate) : Climbs t (left op.perform t) := by
  have hK : Upkeep (σ := σ) (fun _ _ => True) (fun _ _ => True) := .nothing
  have hremains : ∀ {m : TreeM σ cmp Unit}, Along Remains m → Ends m t (fun _ => Climbs t) fun _ => Climbs t :=
    fun hm => (hm t).mono (fun _ _ => h.remains) fun _ _ => h.remains
  have hcalm : ∀ {m : TreeM σ cmp Unit}, Along (Calm none .deals) m → Ends m t (fun _ => Climbs t) fun _ => Climbs t :=
    fun hm => hremains (hm.mono fun _ _ => Calm.remains)
  have hqueue : ∀ (t : Tree σ cmp) (r : Frontier.Request), Remains t { t with frontier := r.perform t.frontier } :=
    fun t _ => refl_of Remains t
  refine Ends.left (P := Climbs t) ?_
  cases op with
  | create bound estimate => exact ends_discard.2 (create_climbs h ht (fun hr => hroot hr bound estimate rfl) bound estimate)
  | changeBound id v side bound => exact hcalm (along_changeBound id v side bound).discard
  | constrain id c => exact hcalm (along_constrain id c)
  | raise id bound =>
      refine (raise_lifts h ht bound id).mono ?_ ?_
      · rintro _ u (rfl | ⟨n, hn, hraised⟩)
        · exact h.remains (refl_of Remains _)
        · exact h.raised hn hraised
      · rintro e u rfl
        exact h.remains (refl_of Remains _)
  | addColumn c => exact hcalm (along_addColumn c)
  | addRow r => exact hcalm (along_addRow r)
  | solve => exact hcalm along_solve.discard
  | activate target => exact hremains (remains_activate target).discard
  | load => exact hcalm (along_load (q := .deals) nofun).discard
  | prune cutoff => exact hremains (along_prune (fun _ _ => Sweeps.remains) hqueue cutoff).discard
  | free id => exact hremains (along_free (fun _ _ => Sweeps.remains) hqueue id)
  | pop => exact hremains (along_pop hqueue).discard
  | clear =>
      have hvacant : ∀ {u : Tree σ cmp}, Vacant u → Climbs t u :=
        fun hv k _ hm => (nomatch (hv.nodes k).symm.trans hm)
      exact (clear_spec hK.toRebuilding ht).mono (fun _ _ g => hvacant g.2.1.toVacant) fun _ _ g =>
        hvacant g.2.2.toVacant
  | setPolicy p => exact hremains fun t => refl_of Remains t

end Climbs

section Steps

theorem Moves.known (h : Moves op t u) (hn : t.nodes.get? k = some n) (hm : u.nodes.get? k = some m) :
    Evolves n m ∧ (m.role.name ≠ n.role.name → ∃ target, op = .activate target ∧ u.active = target) := by
  cases h with
  | pauses h =>
      obtain ⟨o, ho, hidles⟩ := h.nodes k m hm
      cases hn.symm.trans ho
      exact ⟨hidles.toEvolves, fun hne => absurd hidles.name hne⟩
  | creates id o hj _ _ _ =>
      cases (hj.old hn).symm.trans hm
      exact ⟨.refl n, fun hne => absurd rfl hne⟩
  | turns target t₁ hop hactive _ _ hadvances hpersists _ =>
      obtain ⟨o, ho, hom⟩ := hpersists k m hm
      obtain ⟨n', hn', hno⟩ := hadvances k o ho
      cases hn.symm.trans hn'
      exact ⟨hno.toEvolves.trans hom.toEvolves, fun _ => ⟨target, hop, hactive⟩⟩

theorem Moves.open_before (h : Moves op t u) (hu : Resting K start u) {handed : Option Handle}
    (hp : Passes t u handed) (hactivate : ∀ k, op = .activate (some k) → ¬ Strays t k) (hm : Open u k m)
    (hn : t.nodes.get? k = some n) : Open t k n := by
  obtain ⟨hevolves, hrole⟩ := h.known hn hm.live
  refine ⟨hn, ?_, fun hstrays => ?_⟩
  · have := hm.isProcessed
    rw [RoleName.isProcessed_eq_false] at *
    exact Nat.le_trans hevolves.stage this
  · -- A leaf that strayed and does no longer has become active.
    have hact : u.active = some k := by
      by_contra hidle
      exact hm.kept ((hp.strays k m hm.live).2 ⟨.inl hstrays, hidle⟩)
    obtain ⟨o, ho, hactive⟩ := (hu.acting k).1 hact
    cases hm.live.symm.trans ho
    obtain ⟨⟨o', ho', hleaf⟩, -⟩ := id hstrays
    cases hn.symm.trans ho'
    obtain ⟨target, hop, htarget⟩ := hrole (by rw [hactive, hleaf]; simp)
    exact hactivate k (hop.trans (by rw [← htarget, hact])) hstrays

theorem Resting.open_active (h : Resting K start t) (ha : t.active = some k) (hn : t.nodes.get? k = some n) :
    Open t k n := by
  obtain ⟨o, ho, hact⟩ := (h.acting k).1 ha
  cases hn.symm.trans ho
  exact ⟨hn, by rw [hact]; rfl, fun hstrays => h.not_active_of_leaf hstrays.1.choose_spec.1 hstrays.1.choose_spec.2 ha⟩

theorem lowerBound_le_of_climbs (ht : Resting K start t) (hu : Resting K start u) (hc : Climbs t u)
    (hopen : ∀ k n m, Open u k m → t.nodes.get? k = some n → Open t k n) (hnum : BoundsNumbers t) :
    t.lowerBound ≤ u.lowerBound := by
  have hbound := ht.le_lowerBound_iff.1 (Binary64.le_self t.isNaN_lowerBound)
  apply hu.le_lowerBound_iff.2
  refine ⟨t.isNaN_lowerBound, fun k m hm hm' => ?_⟩
  obtain ⟨j, n, hn, hj, hle⟩ := hc k m hm.live hm'
  have hbefore : Open t j n := by
    obtain rfl | hj := hj
    · exact hopen j n m hm hn
    · exact ht.open_active hj hn
  exact Binary64.le_trans (hbound.2 j n hbefore (hnum j n hn)) hle

end Steps

section Runs

variable {solver : σ} {domains : Domains} {settings : Settings} {t₀ : Tree σ cmp}

theorem Vacant.outstanding (hv : Vacant t) (h : Resting (fun _ _ => True) start t) (ops : List (Op σ)) (k : Handle) :
    k ∈ t.outstanding [] ops ↔ Strays (t.run ops) k := by
  have hnobody : ∀ k n, t.nodes.get? k ≠ some n := fun k n hn => nomatch (hv.nodes k).symm.trans hn
  refine (run_strays h (fun k n hn => absurd hn (hnobody k n)) ops fun k => ?_).2 k
  exact iff_of_false List.not_mem_nil fun ⟨⟨n, hn, _⟩, _⟩ => hnobody k n hn

theorem boundsNumbers_run (h₀ : ofSettings solver domains settings = .ok t₀) (ops : List (Op σ))
    (hops : ∀ op ∈ ops, op.isNumeric = true) : BoundsNumbers (t₀.run ops) := by
  have hv := (vacant_of_ofSettings h₀).1
  have hnobody : ∀ k n, t₀.nodes.get? k ≠ some n := fun k n hn => nomatch (hv.nodes k).symm.trans hn
  have hnew : Inherits (fun _ => 0) t₀ :=
    ⟨fun k n h => absurd h (hnobody k n), fun k n h => absurd h (hnobody k n), fun k n h => absurd h (hnobody k n),
      fun k n _ h => absurd h (hnobody k n)⟩
  have hrest := resting_of_ofSettings (K := fun _ _ => True) h₀ trivial
  exact (inherits_run hnew hrest (fun k n h => absurd h (hnobody k n)) ops hops).1.isNaN

/-- No operation makes the lower bound fall, whether it succeeds or not, unless it creates a root or activates a leaf
that was handed out. -/
theorem lowerBound_le_perform (h₀ : ofSettings solver domains settings = .ok t₀) (ops : List (Op σ))
    (hnum : BoundsNumbers (t₀.run ops)) (op : Op σ)
    (hroot : (t₀.run ops).root = none → ∀ bound estimate, op ≠ .create bound estimate)
    (hactivate : ∀ k ∈ t₀.outstanding [] ops, op ≠ .activate (some k)) :
    (t₀.run ops).lowerBound ≤ (left op.perform (t₀.run ops)).lowerBound := by
  have hnew := resting_of_ofSettings (K := fun _ _ => True) h₀ trivial
  have hrest := run_resting .nothing hnew ops
  have hrest' := run_resting .nothing hrest [op]
  have hout := (vacant_of_ofSettings h₀).1.outstanding hnew ops
  have hmoves := perform_moves hrest op
  refine lowerBound_le_of_climbs hrest hrest' (perform_climbs hnum hrest op hroot) (fun k n m hm hn => ?_) hnum
  refine hmoves.open_before hrest' (perform_passes hrest op) (fun k hop hk => ?_) hm hn
  exact hactivate k ((hout k).2 hk) hop

/-- The turn goes on to a child with a higher bound, while a leaf with a lower one is handed out. -/
theorem lowerBound_le_perform_below_handed_out :
    ∃ t₀ : Tree ScriptedSolver SelectionRule.bestBound.order, ofSettings .fresh (.free 1) {} = .ok t₀ ∧
      let ops := [.create 0 0, .activate (some ⟨0, 0⟩), .create 1 0, .create 4 0, .activate none, .pop,
        .activate (some ⟨2, 0⟩), .create 5 0]
      let t := t₀.run ops
      let u := left (Op.activate (some ⟨3, 0⟩)).perform t
      t₀.outstanding [] ops = [⟨1, 0⟩] ∧ t.lowerBound ≤ u.lowerBound ∧ ¬ u.lowerBound ≤ t.lowerBound := by
  refine ⟨_, rfl, ?_⟩
  intro ops t u
  have hnum := @boundsNumbers_run ScriptedSolver _ SelectionRule.bestBound.order .fresh (.free 1) {} _ rfl ops
    (by decide +kernel)
  refine ⟨by decide +kernel, ?_, by decide +kernel⟩
  refine @lowerBound_le_perform ScriptedSolver _ SelectionRule.bestBound.order .fresh (.free 1) {} _ rfl ops hnum
    (.activate (some ⟨3, 0⟩)) (fun _ _ _ => nofun) ?_
  rintro k hk ⟨⟩
  exact absurd hk (by decide +kernel)

/-- The lower bound is the least bound of a node still to be explored, the leaves handed out apart: such a leaf it
passes over, whatever the bound of that leaf is. -/
theorem lowerBound_covers (h₀ : ofSettings solver domains settings = .ok t₀) (ops : List (Op σ)) :
    let t := t₀.run ops
    let out := t₀.outstanding [] ops
    (∀ k n, t.nodes.get? k = some n → n.role.name.isProcessed = false → n.lowerBound.isNaN = false → k ∉ out →
      t.lowerBound ≤ n.lowerBound) ∧
    ∀ k ∈ out, k ∉ t.frontier.ids ∧ ∃ n, t.nodes.get? k = some n ∧ n.role.name = .leaf ∧
      (t.lowerBound ≤ n.lowerBound ↔ Binary64.infinity ≤ n.lowerBound ∨
        ∃ j m, t.nodes.get? j = some m ∧ m.role.name.isProcessed = false ∧ m.lowerBound.isNaN = false ∧ j ∉ out ∧
          m.lowerBound ≤ n.lowerBound) := by
  intro t out
  have hnew := resting_of_ofSettings (K := fun _ _ => True) h₀ trivial
  have hrest := run_resting .nothing hnew ops
  have hout : ∀ k, k ∈ out ↔ Strays t k := (vacant_of_ofSettings h₀).1.outstanding hnew ops
  have hopen : ∀ k n, Open t k n ↔ t.nodes.get? k = some n ∧ n.role.name.isProcessed = false ∧ k ∉ out := by
    intro k n
    rw [hout]
    exact ⟨fun h => ⟨h.live, h.isProcessed, h.kept⟩, fun h => ⟨h.1, h.2.1, h.2.2⟩⟩
  constructor
  · intro k n hn hrole hnum hk
    refine hrest.lowerBound_le_iff.2 (.inl ⟨k, n, (hopen k n).2 ⟨hn, hrole, hk⟩, hnum, ?_⟩)
    exact Binary64.le_self hnum
  · intro k hk
    obtain ⟨⟨n, hn, hleaf⟩, hqueue⟩ := (hout k).1 hk
    refine ⟨hqueue, n, hn, hleaf, ?_⟩
    rw [hrest.lowerBound_le_iff, or_comm]
    refine or_congr_right ⟨?_, ?_⟩
    · rintro ⟨j, m, hj, hnum, hle⟩
      obtain ⟨hm, hrole, hj⟩ := (hopen j m).1 hj
      exact ⟨j, m, hm, hrole, hnum, hj, hle⟩
    · rintro ⟨j, m, hm, hrole, hnum, hj, hle⟩
      exact ⟨j, m, (hopen j m).2 ⟨hm, hrole, hj⟩, hnum, hle⟩

theorem lowerBound_covers_all_but_handed_out :
    ∃ t₀ : Tree ScriptedSolver SelectionRule.bestBound.order, ofSettings .fresh (.free 1) {} = .ok t₀ ∧
      let ops := [.create 0 0, .activate (some ⟨0, 0⟩), .create 1 0, .create 4 0, .activate none, .pop]
      let t := t₀.run ops
      t₀.outstanding [] ops = [⟨1, 0⟩] ∧ ⟨1, 0⟩ ∉ t.frontier.ids ∧ t.lowerBound ≤ 4 ∧ ¬ t.lowerBound ≤ 1 := by
  refine ⟨_, rfl, ?_⟩
  intro ops t
  obtain ⟨hcovers, hmisses⟩ := @lowerBound_covers ScriptedSolver _ SelectionRule.bestBound.order .fresh (.free 1) {} _ rfl ops
  have hleaf : (t.nodes.get? ⟨2, 0⟩).map (fun n => (n.role.name, n.lowerBound)) = some (.leaf, 4) := by decide +kernel
  obtain ⟨n, hn, hrole⟩ := Option.map_eq_some_iff.1 hleaf
  obtain ⟨hrole, hbound⟩ := Prod.mk.inj hrole
  refine ⟨by decide +kernel, (hmisses ⟨1, 0⟩ (by decide +kernel)).1, ?_, by decide +kernel⟩
  rw [← hbound]
  exact hcovers ⟨2, 0⟩ n hn (by rw [hrole]; rfl) (by rw [hbound]; decide +kernel) (by decide +kernel)

/-- A leaf with bound 1 that was handed out is all that is left to explore, and the lower bound is infinity. -/
theorem lowerBound_misses_handed_out :
    ∃ t₀ : Tree ScriptedSolver SelectionRule.bestBound.order, ofSettings .fresh (.free 1) {} = .ok t₀ ∧
      let ops := [.create 0 0, .activate (some ⟨0, 0⟩), .create 1 0, .activate none, .pop]
      let t := t₀.run ops
      BoundsNumbers t ∧ (t.nodes.get? ⟨1, 0⟩).map (fun n => (n.role.name, n.lowerBound)) = some (.leaf, 1) ∧
        t.lowerBound = Binary64.infinity ∧ ¬ t.lowerBound ≤ 1 := by
  refine ⟨_, rfl, ?_⟩
  intro ops t
  refine ⟨?_, by decide +kernel, by decide +kernel, by decide +kernel⟩
  exact @boundsNumbers_run ScriptedSolver _ SelectionRule.bestBound.order .fresh (.free 1) {} _ rfl ops (by decide +kernel)

end Runs

end BranchBound.Tree
