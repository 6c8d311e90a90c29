import BranchBound.Proofs.Freeing
import BranchBound.Proofs.Staging
import BranchBound.Proofs.Sweeping

namespace BranchBound.Tree

variable {σ : Type} [Solver σ] {cmp : NodeOrder} {K K' : Charge σ}
  {start : Array Interval} {t t' : Tree σ cmp} {actor anchor : Option Handle} {loose : List Handle}
  {id : Handle} {n : Node σ}

theorem Kept.settle {nodes : Arena (Node σ)} (h : Spared [id] t.nodes nodes) (root : Option Handle)
    (solver : σ) (stats : Stats) (journal : Array Event) :
    Kept [id] t (t.settle nodes root solver stats journal) where
  nodes := h.carried
  waiting k n hn hw hk := ⟨n, h.waiting k n hn hw hk, hw⟩
  path := rfl
  sizes := rfl
  active := rfl
  lpFork := rfl
  subroot := rfl
  correctDepth := rfl
  focus := rfl
  domains := rfl
  columns := rfl
  rows := rfl

theorem Kept.of_steady {nodes : Arena (Node σ)} (h : Matched Steady t.nodes nodes)
    (solver : σ) (stats : Stats) (journal : Array Event) :
    Kept [] t (t.settle nodes t.root solver stats journal) where
  nodes := h.back.mono fun _ _ => Steady.kin
  waiting k n hn hw _ := by
    obtain ⟨m, hm, hsteady⟩ := h.forth k n hn
    exact ⟨m, hm, by rw [hsteady.name, hw]⟩
  path := rfl
  sizes := rfl
  active := rfl
  lpFork := rfl
  subroot := rfl
  correctDepth := rfl
  focus := rfl
  domains := rfl
  columns := rfl
  rows := rfl

theorem Kept.restage {nodes : Arena (Node σ)} (children siblings : List Handle)
    (h : Matched Moved t.nodes nodes) :
    Kept [] t { t with nodes := nodes, children := children, siblings := siblings } where
  nodes := h.back.mono fun _ _ => Moved.kin
  waiting k n hn hw _ := by
    obtain ⟨m, hm, hmoved⟩ := h.forth k n hn
    exact ⟨m, hm, by rw [hmoved.name, hw]⟩
  path := rfl
  sizes := rfl
  active := rfl
  lpFork := rfl
  subroot := rfl
  correctDepth := rfl
  focus := rfl
  domains := rfl
  columns := rfl
  rows := rfl

theorem changesAlong_congr {a b : Arena (Node σ)} {path : List Handle}
    (hc : ∀ k m, b.get? k = some m → ∃ n, a.get? k = some n ∧ m.log.changes = n.log.changes)
    (hl : ∀ k ∈ path, ∃ m, b.get? k = some m) : changesAlong b path = changesAlong a path := by
  unfold changesAlong
  refine List.flatMap_congr fun k hk => ?_
  obtain ⟨m, hm⟩ := hl k hk
  obtain ⟨n, hn, hchanges⟩ := hc k m hm
  unfold logOf
  rw [hn, hm]
  exact hchanges

theorem changesAlong_eq {a b : Arena (Node σ)} {path : List Handle} (hc : Carried Kin a b)
    (hl : ∀ k ∈ path, ∃ m, b.get? k = some m) : changesAlong b path = changesAlong a path :=
  changesAlong_congr (fun k m hm => (hc k m hm).imp fun _ h => ⟨h.1, h.2.changes⟩) hl

/-- A step that keeps the active node's work between two operations leads to a place between two
operations. -/
theorem Resting.of_kept {gone : List Handle} (h : Resting K start t) (hs : Sound K t.rest t')
    (hk : Kept gone t t') : Resting K start t' := by
  have habove : t'.above = t.above := by
    unfold above
    rw [hk.path]
  have hrest : t'.rest = t.rest := by
    unfold rest
    rw [hk.active, habove]
  have hlive : Live t'.nodes t.above := by
    rw [← habove]
    exact hs.walk.live_before _
  refine { toSound := hrest ▸ hs, active_eq := ?_, sized := ?_, lpFork := ?_, subroot := ?_, inForce := ?_ }
  · rw [hk.active, h.active_eq]
    unfold tip
    rw [hk.path]
  · rw [hk.sizes, hk.path, h.sized]
  · rw [habove, hk.lpFork]
    exact h.lpFork.carry hk.nodes.lineage (fun _ _ => Lineage.isSnapshot) hs.forest hlive
  · rw [habove, hk.subroot]
    exact h.subroot.carry hk.nodes.lineage (fun _ _ => Lineage.isSubroot) hs.forest hlive
  · have hwalk := hs.walk
    rw [hk.path] at hwalk
    have hchanges := changesAlong_eq hk.nodes fun _ => hwalk.live_of_mem
    rw [hk.path, hk.domains]
    exact ⟨hchanges ▸ h.inForce.noted, hchanges ▸ h.inForce.vars_eq⟩

theorem Sound.setApart {s : Stage} (h : Sound K s t) (hn : t.nodes.get? id = some n)
    (hs : n.role.staged? = none) : Sound K { s with loose := id :: s.loose } t := { h with
  family := h.family.loosen fun _ => List.mem_cons_of_mem id
  places := by
    refine h.places.loosen (fun _ => List.mem_cons_of_mem id) fun k hk hnot w i hi => ?_
    obtain rfl := (List.mem_cons.1 hk).resolve_right hnot
    obtain ⟨-, m, hm, hs', -⟩ := h.places.listed w i k hi
    cases hn.symm.trans hm
    rw [hs] at hs'
    cases hs' }

theorem dismiss_spec (hK : Redemption K) (h : Sound K ⟨actor, anchor, loose, none, none⟩ t)
    (hr : Removable t id n) (hl : id ∉ loose) :
    Ends (dismiss id) t
      (fun _ t' => Sound K ⟨actor, anchor, loose, none, none⟩ t' ∧ Kept [id] t t' ∧
        t'.frontier = t.frontier)
      fun _ _ => False := by
  unfold dismiss
  simp only [ends_bind, ends_read, node_eq_ok.2 hr.live]
  cases hs : n.role.staged? with
  | none =>
      refine (freeUpwards_spec hK (h.setApart hr.live hs) hr rfl).mono ?_ fun _ _ h => h
      rintro _ t' ⟨nodes, root, solver, stats, journal, hspared, rfl, h'⟩
      exact ⟨h', .settle hspared _ _ _ _, rfl⟩
  | some place =>
      obtain ⟨which, pos⟩ := place
      rw [ends_bind]
      refine (unstage_spec hK h (h.places.placed id n which pos hr.live hs hl)).mono ?_ fun _ _ h => h
      rintro _ t₁ ⟨h₁, nodes, children, siblings, rfl, hmoved, hself, -⟩
      have hr₁ : Removable { t with nodes := nodes, children := children, siblings := siblings } id n :=
        ⟨hself.trans hr.live, hr.offPath, hr.done, hr.unqueued⟩
      refine (freeUpwards_spec hK h₁ hr₁ rfl).mono ?_ fun _ _ h => h
      rintro _ t' ⟨nodes', root, solver, stats, journal, hspared, rfl, h'⟩
      exact ⟨h', (Kept.restage children siblings hmoved).trans (.settle hspared _ _ _ _), rfl⟩

theorem doomed_spec (cutoff : Binary64) {ids : List Handle} (h : ∀ k ∈ ids, ∃ n, t.nodes.get? k = some n) :
    ∃ l, t.doomed cutoff ids = .ok l ∧ l.Sublist ids ∧
      ∀ k, k ∈ l ↔ k ∈ ids ∧ ∃ n, t.nodes.get? k = some n ∧ cutoff ≤ n.lowerBound := by
  induction ids with
  | nil => exact ⟨[], rfl, .slnil, fun k => by simp⟩
  | cons k ids ih =>
      obtain ⟨n, hn⟩ := h k List.mem_cons_self
      obtain ⟨l, hl, hsub, hmem⟩ := ih fun j hj => h j (List.mem_cons_of_mem k hj)
      unfold doomed
      rw [node_eq_ok.2 hn, hl]
      refine ⟨if n.canPrune cutoff then k :: l else l, rfl, ?_, fun j => ?_⟩
      · split
        · exact hsub.cons_cons k
        · exact hsub.cons k
      · have hk : (∃ m, t.nodes.get? k = some m ∧ cutoff ≤ m.lowerBound) ↔ n.canPrune cutoff = true := by
          simp [hn, Node.canPrune]
        split
        · rename_i hcut
          rw [List.mem_cons, List.mem_cons, hmem]
          constructor
          · rintro (rfl | ⟨hj, hcheap⟩)
            · exact ⟨.inl rfl, hk.2 hcut⟩
            · exact ⟨.inr hj, hcheap⟩
          · rintro ⟨rfl | hj, hcheap⟩
            · exact .inl rfl
            · exact .inr ⟨hj, hcheap⟩
        · rename_i hcut
          rw [List.mem_cons, hmem]
          constructor
          · rintro ⟨hj, hcheap⟩
            exact ⟨.inr hj, hcheap⟩
          · rintro ⟨rfl | hj, hcheap⟩
            · exact absurd (hk.1 hcheap) hcut
            · exact ⟨hj, hcheap⟩

theorem dismissAll_spec (hK : Redemption K) {ids : List Handle}
    (h : Sound K ⟨actor, anchor, [], none, none⟩ t) (hn : ids.Nodup)
    (hids : ∀ k ∈ ids, k ∉ t.frontier.ids ∧ ∃ n, t.nodes.get? k = some n ∧ n.role.name.isWaiting = true) :
    Ends (ids.forM dismiss) t
      (fun _ t' => Sound K ⟨actor, anchor, [], none, none⟩ t' ∧ Kept ids t t')
      fun _ _ => False := by
  induction ids generalizing t with
  | nil => exact ⟨h, .refl t⟩
  | cons k ids ih =>
      obtain ⟨hfree, n, hlive, hw⟩ := hids k List.mem_cons_self
      rw [List.nodup_cons] at hn
      have hoff : n.onPath = false := by
        cases ho : n.onPath with
        | false => rfl
        | true => cases h.family.entered k n hlive ho hw
      refine (dismiss_spec hK h ⟨hlive, hoff, .inl hw, hfree⟩ List.not_mem_nil).bind fun _ t₁ h₁ => ?_
      obtain ⟨h₁, hkept, hfrontier⟩ := h₁
      refine (ih h₁ hn.2 fun j hj => ?_).mono (fun _ t₂ h₂ => ⟨h₂.1, hkept.trans h₂.2⟩) fun _ _ h => h
      obtain ⟨hfree', m, hm, hw'⟩ := hids j (List.mem_cons_of_mem k hj)
      have hne : j ∉ [k] := fun hjk => hn.1 (List.mem_singleton.1 hjk ▸ hj)
      exact ⟨hfrontier ▸ hfree', hkept.waiting j m hm hw' hne⟩

theorem Sound.staged_nodup {s : Stage} (h : Sound K s t) : (t.children ++ t.siblings).Nodup := by
  rw [List.nodup_append']
  refine ⟨h.places.nodup .children, h.places.nodup .siblings, ?_⟩
  intro k hc hs
  obtain ⟨i, hi⟩ := List.mem_iff_getElem?.1 hc
  obtain ⟨j, hj⟩ := List.mem_iff_getElem?.1 hs
  cases (h.places.place_unique (show (t.staged .children)[i]? = some k from hi)
    (show (t.staged .siblings)[j]? = some k from hj)).1

theorem Sound.waiting_of_staged {s : Stage} (h : Sound K s t) {k : Handle}
    (hk : k ∈ t.children ++ t.siblings) :
    k ∉ t.frontier.ids ∧ ∃ n, t.nodes.get? k = some n ∧ n.role.name.isWaiting = true := by
  obtain ⟨w, i, hi⟩ : ∃ (w : Staging) (i : Nat), (t.staged w)[i]? = some k := by
    rcases List.mem_append.1 hk with hk | hk
    · obtain ⟨i, hi⟩ := List.mem_iff_getElem?.1 hk
      exact ⟨.children, i, hi⟩
    · obtain ⟨i, hi⟩ := List.mem_iff_getElem?.1 hk
      exact ⟨.siblings, i, hi⟩
  obtain ⟨-, n, hn, hs, -⟩ := h.places.listed w i k hi
  exact ⟨h.unqueued hn (not_leaf_of_staged hs), n, hn, BranchBound.waiting_of_staged hs⟩

/-- The nodes in `ids` were the waiting ones with a lower bound of `cutoff` or more. They have gone, and those whose
last child went with them. -/
structure Cuts (cutoff : Binary64) (ids : List Handle) (t u : Tree σ cmp) : Prop where
  nodup : ids.Nodup
  mem : ∀ k, k ∈ ids ↔ (k ∈ t.children ++ t.siblings ∨ k ∈ t.frontier.ids) ∧
    ∃ n, t.nodes.get? k = some n ∧ cutoff ≤ n.lowerBound
  gone : ∀ k ∈ ids, u.nodes.get? k = none
  kept : Kept ids t u
  sweeps : Sweeps { t with frontier := u.frontier } u
  frontier : u.frontier.toList.Perm (t.frontier.toList.filter fun e => !decide (cutoff ≤ e.key.lowerBound))

theorem Sound.waiting_of_queued {s : Stage} (h : Sound K s t) {k : Handle} (hk : k ∈ t.frontier.ids) :
    ∃ n, t.nodes.get? k = some n ∧ n.role.name.isWaiting = true := by
  obtain ⟨e, he, rfl⟩ := List.mem_map.1 hk
  obtain ⟨n, hn, hname, -⟩ := h.queue.entry e he
  exact ⟨n, hn, by rw [hname]; rfl⟩

theorem prune_cuts (hK : Redemption K) (h : Resting K start t) (cutoff : Binary64) :
    Ends (prune cutoff) t (fun count u => Resting K start u ∧ ∃ ids, Cuts cutoff ids t u ∧ count = ids.length)
      fun _ _ => False := by
  unfold prune
  simp only [ends_bind, ends_modifyGet]
  obtain ⟨hleaves, hleaf, hout, hqueue⟩ := h.queue.drain fun k => decide (cutoff ≤ k.lowerBound)
  have hperm : (t.frontier.drain fun k => decide (cutoff ≤ k.lowerBound)).2.toList.Perm
      (t.frontier.toList.filter fun e => !decide (cutoff ≤ e.key.lowerBound)) := t.frontier.toList_extract_perm _
  generalize (t.frontier.drain fun k => decide (cutoff ≤ k.lowerBound)) = r at hleaves hleaf hout hqueue hperm ⊢
  obtain ⟨leaves, rest⟩ := r
  have hdrained : Sound K t.rest { t with frontier := rest } := { h.toSound with queue := hqueue }
  obtain ⟨l, hl, hsub, hdoomed⟩ := doomed_spec (t := { t with frontier := rest }) cutoff fun k hk => by
    obtain ⟨-, n, hn, -⟩ := hdrained.waiting_of_staged hk
    exact ⟨n, hn⟩
  replace hleaf : ∀ k, k ∈ leaves ↔ k ∈ t.frontier.ids ∧ ∃ n, t.nodes.get? k = some n ∧ cutoff ≤ n.lowerBound :=
    fun k => (hleaf k).trans (by simp only [decide_eq_true_eq]; rfl)
  replace hdoomed : ∀ k, k ∈ l ↔ k ∈ t.children ++ t.siblings ∧
      ∃ n, t.nodes.get? k = some n ∧ cutoff ≤ n.lowerBound := hdoomed
  have hmem : ∀ k, k ∈ leaves ++ l ↔ (k ∈ t.children ++ t.siblings ∨ k ∈ t.frontier.ids) ∧
      ∃ n, t.nodes.get? k = some n ∧ cutoff ≤ n.lowerBound := by
    intro k
    rw [List.mem_append, hleaf, hdoomed, or_comm, or_and_right]
  have hnodup : (leaves ++ l).Nodup := by
    refine List.nodup_append'.2 ⟨hleaves, hdrained.staged_nodup.sublist hsub, fun k hk hstaged => ?_⟩
    exact (h.toSound.waiting_of_staged (hsub.subset hstaged)).1 ((hleaf k).1 hk).1
  have hall : ∀ k ∈ leaves ++ l, k ∉ rest.ids ∧ ∃ n, t.nodes.get? k = some n ∧ n.role.name.isWaiting = true := by
    intro k hk
    rcases List.mem_append.1 hk with hk | hk
    · exact ⟨hout k hk, h.toSound.waiting_of_queued ((hleaf k).1 hk).1⟩
    · exact hdrained.waiting_of_staged (hsub.subset hk)
  rw [ends_read, hl]
  simp only
  refine ((dismissAll_spec hK hdrained hnodup hall).and (dismissAll_gone (leaves ++ l) _)).mono ?_ fun _ _ h => h.1
  rintro _ u ⟨⟨hsound, hkept⟩, hsweeps, hgone⟩
  have hrest : u.frontier = rest := hsweeps.frontier
  have hkept' : Kept (leaves ++ l) t u := { hkept with }
  have hcuts : Cuts cutoff (leaves ++ l) t u := ⟨hnodup, hmem, hgone, hkept', hrest ▸ hsweeps, hrest ▸ hperm⟩
  have hresting := h.of_kept hsound hkept'
  split
  · exact ⟨hresting, _, hcuts, rfl⟩
  · exact ⟨{ hresting with }, _, { hcuts with kept := { hkept' with }, sweeps := { hcuts.sweeps with } }, rfl⟩

theorem prune_spec (hK : Custody K K') (h : Resting K start t) (cutoff : Binary64) :
    Ends (prune cutoff) t (fun _ t' => Resting K start t' ∧ ∃ gone, Kept gone t t') fun _ _ => False :=
  (prune_cuts hK.toRedemption h cutoff).mono (fun _ _ ⟨hresting, ids, hcuts, _⟩ => ⟨hresting, ids, hcuts.kept⟩)
    fun _ _ h => h

theorem free_spec (hK : Custody K K') (h : Resting K start t) (id : Handle) :
    Ends (free id) t (fun _ t' => Resting K start t' ∧ ∃ gone, Kept gone t t')
      fun e t' => t' = t ∧ Rejects t id (freeMisuse? id) e := by
  unfold free
  rw [ends_bind, ends_read]
  cases hn : t.nodes.get? id with
  | none =>
      rw [node_eq_error.2 ⟨hn, rfl⟩]
      exact ⟨rfl, .unknown hn⟩
  | some n =>
      rw [node_eq_ok.2 hn]
      cases hm : freeMisuse? id n with
      | some m =>
          simp only [hm, ends_bind, ends_throw]
          exact ⟨trivial, .misuse hn hm⟩
      | none =>
          have hoff : n.onPath = false := by
            cases ho : n.onPath with
            | false => rfl
            | true => simp [freeMisuse?, ho] at hm
          have hdone : n.role.name.isWaiting = true ∨ n.role.isExhausted = true := by
            cases hr : n.role <;> simp_all [freeMisuse?, Role.name, RoleName.isWaiting, Role.isExhausted]
          simp only [hm]
          by_cases hleaf : n.role.name = .leaf
          · obtain ⟨hqueue, hfree⟩ := h.queue.remove id
            have hsound : Sound K t.rest { t with frontier := (t.frontier.remove id).2 } :=
              { h.toSound with queue := hqueue }
            simp only [if_pos hleaf, ends_bind, ends_modify]
            refine (dismiss_spec hK.toRedemption hsound ⟨hn, hoff, hdone, hfree⟩ List.not_mem_nil).mono ?_
              fun _ _ h => h.elim
            rintro _ t' ⟨hsound', hkept, -⟩
            have hkept' : Kept [id] t t' := { hkept with }
            exact ⟨h.of_kept hsound' hkept', [id], hkept'⟩
          · rw [if_neg hleaf]
            have hfree := h.toSound.unqueued hn hleaf
            refine (dismiss_spec hK.toRedemption h.toSound ⟨hn, hoff, hdone, hfree⟩ List.not_mem_nil).mono ?_
              fun _ _ h => h.elim
            rintro _ t' ⟨hsound', hkept, -⟩
            exact ⟨h.of_kept hsound' hkept, [id], hkept⟩

end BranchBound.Tree
