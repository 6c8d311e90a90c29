import BranchBound.Proofs.Census

namespace BranchBound

variable {σ : Type} [Solver σ] {cmp : NodeOrder}

def Op.handsOut (t : Tree σ cmp) : Op σ → Option Handle
  | .pop => match Tree.pop t with
      | .ok id _ => id
      | .error _ _ => none
  | _ => none

namespace Tree

variable {K K' : Charge σ} {start : Array Interval} {t u : Tree σ cmp} {id : Handle} {n : Node σ}
  {x : Option Handle} {q : Dealing}

/-- The leaves handed out, those of `out` included, that were neither activated nor freed since. -/
def outstanding (t : Tree σ cmp) (out : List Handle) : List (Op σ) → List Handle
  | [] => out
  | op :: ops =>
      let u := left op.perform t
      let out := (out ++ (op.handsOut t).toList).filter fun h => u.contains h ∧ u.active ≠ some h
      outstanding u out ops

/-- The waiting nodes and the lists that name them. -/
structure Listed (t : Tree σ cmp) (out : List Handle) : Prop where
  children_nodup : t.children.Nodup
  siblings_nodup : t.siblings.Nodup
  child : ∀ (i : Nat) h, t.children[i]? = some h ↔ ∃ n, t.nodes.get? h = some n ∧ n.role = .child i
  sibling : ∀ (i : Nat) h, t.siblings[i]? = some h ↔ ∃ n, t.nodes.get? h = some n ∧ n.role = .sibling i
  child_parent : ∀ h n, t.nodes.get? h = some n → n.role.name = .child →
    n.parent = t.active ∧ (t.active = none → t.root = some h)
  sibling_parent : ∀ h n, t.nodes.get? h = some n → n.role.name = .sibling →
    ∃ a m, t.active = some a ∧ t.nodes.get? a = some m ∧ n.parent = m.parent
  frontier_nodup : t.frontier.ids.Nodup
  frontier : ∀ h, h ∈ t.frontier.ids ↔ (∃ n, t.nodes.get? h = some n ∧ n.role.name = .leaf) ∧ h ∉ out
  handed : ∀ h ∈ out, ∃ n, t.nodes.get? h = some n ∧ n.role.name = .leaf
  key : ∀ e ∈ t.frontier.toList, ∃ n, t.nodes.get? e.id = some n ∧ e.key = n.key

def Fostered (t : Tree σ cmp) : Prop :=
  ∀ h n, t.nodes.get? h = some n → n.role.name = .sibling → n.parent ≠ none

theorem Settles.fostered (h : Settles t u) (ht : Fostered t) : Fostered u := by
  intro k m hm hr
  obtain ⟨n, hn, hparent, hname⟩ := h.nodes k m hm
  rw [hparent]
  exact ht k n hn (hname.symm.trans hr)

theorem Settles.of_taken {f : Frontier cmp} (h : Sweeps { t with frontier := f } u)
    (hf : ∀ k m, u.nodes.get? k = some m → (k ∈ f.ids ↔ k ∈ t.frontier.ids)) : Settles t u := by
  refine .of_ids h.settles.nodes fun k m hm => ?_
  rw [h.frontier]
  exact hf k m hm

section Dismissal

theorem Cuts.settles {cutoff : Binary64} {ids : List Handle} (h : Cuts cutoff ids t u) (hq : Queue t.nodes t.frontier) :
    Settles t u := by
  refine .of_taken h.sweeps fun k m hm => ?_
  rw [Frontier.ids_eq, Frontier.ids_eq, List.mem_map, List.mem_map]
  constructor
  · rintro ⟨e, he, rfl⟩
    exact ⟨e, List.mem_of_mem_filter (h.frontier.mem_iff.1 he), rfl⟩
  · rintro ⟨e, he, rfl⟩
    refine ⟨e, h.frontier.mem_iff.2 (List.mem_filter.2 ⟨he, ?_⟩), rfl⟩
    -- Whoever was taken out of the frontier is gone.
    obtain ⟨n, hn, -, hkey⟩ := hq.entry e he
    by_contra hcut
    rw [Bool.not_eq_true', decide_eq_false_iff_not, not_not, hkey] at hcut
    have hgone := h.gone e.id ((h.mem e.id).2 ⟨.inr (List.mem_map_of_mem he), n, hn, hcut⟩)
    rw [hm] at hgone
    cases hgone

theorem prune_settles (hK : Redemption K) (h : Resting K start t) (cutoff : Binary64) :
    Ends (prune cutoff) t (fun _ => Settles t) fun _ _ => False :=
  (prune_cuts hK h cutoff).mono (fun _ _ ⟨_, _, hcuts, _⟩ => hcuts.settles h.queue) fun _ _ h => h

theorem free_settles (hq : t.frontier.ids.Nodup) (id : Handle) :
    Ends (free id) t (fun _ => Settles t) fun _ _ => True := by
  unfold free
  rw [ends_bind, ends_read]
  cases hn : t.node id with
  | error e => trivial
  | ok n =>
      dsimp only
      cases freeMisuse? id n with
      | some m => trivial
      | none =>
          by_cases hleaf : n.role.name = .leaf
          · simp only [if_pos hleaf, ends_bind, ends_modify]
            refine (dismiss_gone id { t with frontier := (t.frontier.remove id).2 }).mono ?_ fun _ _ _ => trivial
            rintro _ u ⟨hsweeps, hgone⟩
            refine .of_taken hsweeps fun k m hm => Frontier.mem_ids_remove hq ?_
            rintro rfl
            rw [hgone] at hm
            cases hm
          · rw [if_neg hleaf]
            exact (dismiss_gone id t).mono (fun _ _ h => h.1.settles) fun _ _ _ => trivial

end Dismissal

theorem along_liftChildren (bound : Binary64) : Along Settles (liftChildren bound : TreeM σ cmp Unit) := by
  refine along_get fun t => Along.forM (fun c => along_node fun u n hn => ?_) t.children t
  exact .of_ids (.set (m := { n with lowerBound := Binary64.larger n.lowerBound bound }) (fun _ => ⟨rfl, rfl⟩) hn
    ⟨rfl, rfl⟩) fun _ _ _ => .rfl

theorem raise_settles (hq : t.frontier.ids.Nodup) (id : Handle) (bound : Binary64) :
    Ends (raise id bound) t (fun _ => Settles t) fun _ => Settles t := by
  unfold raise
  rw [ends_bind, ends_read]
  cases hn : t.node id with
  | error e => exact refl_of Settles t
  | ok n =>
      have hset : Carried (fun n m => m.parent = n.parent ∧ m.role.name = n.role.name) t.nodes
          (t.nodes.set id { n with lowerBound := bound }) :=
        .set (fun _ => ⟨rfl, rfl⟩) (node_eq_ok.1 hn) ⟨rfl, rfl⟩
      dsimp only
      split
      · exact refl_of Settles t
      · rw [ends_bind, ends_setNode]
        split
        · exact .of_ids hset fun _ _ _ => Frontier.mem_ids_requeue hq id _
        · exact (along_liftChildren bound).after (.of_ids hset fun _ _ _ => .rfl)
        · exact .of_ids hset fun _ _ _ => .rfl

section Turn

theorem Resting.fostered (h : Resting K start t) (ha : t.active ≠ none) : Fostered t := by
  intro k n hn hr hp
  obtain ⟨i, hi⟩ := exists_staged .siblings hr
  have hparent : n.parent = t.above := h.places.parent_of_staged hn hi List.not_mem_nil
  obtain ⟨a, ha⟩ := Option.ne_none_iff_exists'.1 ha
  obtain ⟨m, hm, hact, -, -, habove, -⟩ := h.actor ha
  have hroot := (h.forest.rooted k n hn hp).1
  rw [(h.forest.rooted a m hm (habove.trans (hparent.symm.trans hp))).1] at hroot
  cases hroot
  cases hn.symm.trans hm
  rw [hact] at hr
  cases hr

theorem activate_waiting (h : Resting K start t) (hK : Custody K K) (target : Option Handle) :
    Ends (activate target) t (fun _ u => (Tends none t u ∨ Tends u.active t u) ∧ (Fostered t → Fostered u))
      fun _ => Settles t := by
  refine (activate_cases hK h target).mono ?_ ?_
  · rintro _ u (⟨-, rfl, -⟩ | ⟨-, -, harrives, -⟩)
    · exact ⟨.inl (refl_of (Tends none) _), id⟩
    · have hactive : u.active = target := by
        obtain ⟨-, -, -, -, hfollowed⟩ := harrives.switched
        exact hfollowed.active
      rw [hactive]
      refine ⟨.inr harrives.tends, fun _ => ?_⟩
      cases target with
      | none => exact fun k m hm hr => absurd hr (harrives.unstaged rfl k m hm)
      | some id => exact harrives.resting.fostered (hactive ▸ Option.some_ne_none id)
  · rintro e u (⟨-, -, -, rfl, -⟩ | hbalks)
    · exact (refl_of (Calm none .deals) _).settles
    · exact hbalks.settles

end Turn

section Step

theorem Resting.not_active_of_leaf (h : Resting K start t) (hn : t.nodes.get? id = some n)
    (hr : n.role.name = .leaf) : t.active ≠ some id := by
  intro ha
  obtain ⟨m, hm, hact⟩ := (h.acting id).1 ha
  cases hn.symm.trans hm
  rw [hact] at hr
  cases hr

/-- Among the nodes still live those stray that did before, and the one handed out, unless active now. -/
structure Passes (t u : Tree σ cmp) (handed : Option Handle) : Prop where
  strays : ∀ k m, u.nodes.get? k = some m →
    (Strays u k ↔ (Strays t k ∨ handed = some k) ∧ u.active ≠ some k)
  fostered : Fostered t → Fostered u

theorem Tends.passes (h : Tends none t u ∨ Tends u.active t u) (hu : Resting K start u)
    (hf : Fostered t → Fostered u) : Passes t u none := by
  refine ⟨fun k m hm => ?_, hf⟩
  by_cases hk : u.active = some k
  · refine iff_of_false ?_ fun hno => hno.2 hk
    rintro ⟨⟨n, hn, hleaf⟩, -⟩
    exact hu.not_active_of_leaf hn hleaf hk
  · have hstrays : Strays u k ↔ Strays t k := by
      rcases h with h | h
      · exact h.strays k m hm nofun
      · exact h.strays k m hm hk
    simp [hstrays, hk]

theorem Settles.passes (h : Settles t u) (hu : Resting K start u) : Passes t u none :=
  Tends.passes (.inl h.tends) hu h.fostered

theorem Sprouts.passes (h : Sprouts t u id) (hu : Resting K start u) : Passes t u none := by
  obtain ⟨m, hjoined, hname⟩ := h.joined
  refine ⟨fun k o ho => ?_, fun hf k o ho hr => ?_⟩
  · have hsame : Strays u k ↔ Strays t k := by
      unfold Strays
      rw [h.frontier]
      refine and_congr_left fun _ => ⟨?_, fun ⟨n, hn, hleaf⟩ => ⟨n, hjoined.old hn, hleaf⟩⟩
      rintro ⟨n, hn, hleaf⟩
      obtain ⟨-, rfl⟩ | hn := hjoined.cases hn
      · rw [hname] at hleaf
        cases hleaf
      · exact ⟨n, hn, hleaf⟩
    have hidle : Strays u k → u.active ≠ some k := fun ⟨⟨_, hn, hleaf⟩, _⟩ => hu.not_active_of_leaf hn hleaf
    rw [← hsame]
    simp only [reduceCtorEq, or_false]
    exact ⟨fun hs => ⟨hs, hidle hs⟩, And.left⟩
  · obtain ⟨-, rfl⟩ | ho := hjoined.cases ho
    · rw [hname] at hr
      cases hr
    · exact hf k o ho hr

theorem pop_passes (h : Resting K start t) : Ends pop t (fun id u => Passes t u id) fun _ _ => False := by
  unfold pop
  rw [ends_modifyGet]
  split
  · rename_i id rest hp
    obtain ⟨key, hperm⟩ := Frontier.toList_pop?_perm hp
    have hids : t.frontier.ids.Perm (id :: rest.ids) := hperm.map Queued.id
    have hout : id ∉ rest.ids := (List.nodup_cons.1 (hids.nodup_iff.1 h.queue.nodup)).1
    obtain ⟨n, hn, hleaf, -⟩ := h.queue.entry ⟨id, key⟩ (hperm.mem_iff.2 List.mem_cons_self)
    refine ⟨fun k m hm => ?_, fun hf => hf⟩
    have hrest : k ∉ rest.ids ↔ k ∉ t.frontier.ids ∨ id = k := by
      rw [hids.mem_iff, List.mem_cons, not_or]
      by_cases hk : k = id
      · simp [hk, hout]
      · simp [hk, Ne.symm hk]
    have hidle : (∃ n, t.nodes.get? k = some n ∧ n.role.name = .leaf) → t.active ≠ some k :=
      fun ⟨o, ho, hr⟩ => h.not_active_of_leaf ho hr
    unfold Strays
    change _ ∧ k ∉ rest.ids ↔ (_ ∨ some id = some k) ∧ t.active ≠ some k
    rw [hrest, Option.some.injEq]
    constructor
    · rintro ⟨hl, hk | hk⟩
      · exact ⟨.inl ⟨hl, hk⟩, hidle hl⟩
      · exact ⟨.inr hk, hidle hl⟩
    · rintro ⟨⟨hl, hk⟩ | rfl, -⟩
      · exact ⟨hl, .inl hk⟩
      · exact ⟨⟨n, hn, hleaf⟩, .inr rfl⟩
  · exact (refl_of (Calm none .deals) t).settles.passes h

theorem perform_passes (h : Resting (fun _ _ => True) start t) (op : Op σ) :
    Passes t (left op.perform t) (op.handsOut t) := by
  have hK : Upkeep (σ := σ) (fun _ _ => True) (fun _ _ => True) := .nothing
  have hrest := (perform_spec hK h op).mono (fun _ _ h => h) fun _ _ h' => h'.resting h fun _ _ h => h
  suffices hpass : Ends op.perform t
      (fun _ u => Resting (fun _ _ => True) start u → Passes t u (op.handsOut t))
      fun _ u => Resting (fun _ _ => True) start u → Passes t u (op.handsOut t) from
    ((hrest.and hpass).mono (fun _ _ h => h.2 h.1) fun _ _ h => h.2 h.1).left
  have hstay : Settles t t := (refl_of (Calm none .deals) t).settles
  have hcalm : ∀ {m : TreeM σ cmp Unit}, Along (Calm none .deals) m →
      Ends m t (fun _ u => Resting (fun _ _ => True) start u → Passes t u none)
        fun _ u => Resting (fun _ _ => True) start u → Passes t u none :=
    fun hm => (hm t).mono (fun _ _ h => h.settles.passes) fun _ _ h => h.settles.passes
  cases op with
  | create bound estimate =>
      refine ends_discard.2 ((create_spec hK.toCustody h bound estimate).mono (fun _ _ h => h.2.passes) ?_)
      rintro e u ⟨rfl, -⟩
      exact hstay.passes
  | changeBound id v side bound => exact hcalm (along_changeBound id v side bound).discard
  | constrain id c => exact hcalm (along_constrain id c)
  | raise id bound =>
      exact (raise_settles h.queue.nodup id bound).mono (fun _ _ h => h.passes) fun _ _ h => h.passes
  | addColumn c => exact hcalm (along_addColumn c)
  | addRow r => exact hcalm (along_addRow r)
  | solve => exact hcalm along_solve.discard
  | activate target =>
      exact ends_discard.2 ((activate_waiting h hK.toCustody target).mono
        (fun _ _ h hu => Tends.passes h.1 hu h.2) fun _ _ h => h.passes)
  | load => exact hcalm (along_load (q := .deals) nofun).discard
  | prune cutoff =>
      exact ends_discard.2 ((prune_settles hK.toRedemption h cutoff).mono (fun _ _ h => h.passes) fun _ _ h => h.elim)
  | free id =>
      refine ((free_spec hK.toCustody h id).and (free_settles h.queue.nodup id)).mono (fun _ _ h => h.2.passes) ?_
      rintro e u ⟨⟨rfl, -⟩, -⟩
      exact hstay.passes
  | pop =>
      refine ends_discard.2 (((pop_passes h).and (ends_run pop t)).mono ?_ fun _ _ h => h.1.elim)
      rintro id u ⟨hpasses, hrun⟩ -
      unfold Op.handsOut
      rw [hrun]
      exact hpasses
  | clear =>
      have hvacant : ∀ {u : Tree σ cmp}, Vacant u → Passes t u none := fun hv =>
        ⟨fun k _ hm => (nomatch (hv.nodes k).symm.trans hm), fun _ k _ hm => (nomatch (hv.nodes k).symm.trans hm)⟩
      exact (clear_spec hK.toRebuilding h).mono (fun _ _ h _ => hvacant h.2.1.toVacant)
        fun _ _ h _ => hvacant h.2.2.toVacant
  | setPolicy p =>
      have hset : Settles t { t with policy := p } := .of_ids (.refl (fun _ => ⟨rfl, rfl⟩) t.nodes) fun _ _ _ => .rfl
      exact hset.passes

end Step

section Run

theorem Passes.outstanding {out : List Handle} {handed : Option Handle} (h : Passes t u handed)
    (hout : ∀ k, k ∈ out ↔ Strays t k) (k : Handle) :
    (k ∈ (out ++ handed.toList).filter fun h => u.contains h ∧ u.active ≠ some h) ↔ Strays u k := by
  rw [List.mem_filter, List.mem_append, hout, Option.mem_toList, decide_eq_true_iff]
  constructor
  · rintro ⟨hk, hlive, hidle⟩
    obtain ⟨m, hm⟩ := Option.isSome_iff_exists.1 hlive
    exact (h.strays k m hm).2 ⟨hk, hidle⟩
  · intro hk
    obtain ⟨m, hm, -⟩ := hk.1
    obtain ⟨hold, hidle⟩ := (h.strays k m hm).1 hk
    exact ⟨hold, Option.isSome_iff_exists.2 ⟨m, hm⟩, hidle⟩

theorem run_strays (h : Resting (fun _ _ => True) start t) (hf : Fostered t) (ops : List (Op σ)) {out : List Handle}
    (hout : ∀ k, k ∈ out ↔ Strays t k) :
    Fostered (t.run ops) ∧ ∀ k, k ∈ t.outstanding out ops ↔ Strays (t.run ops) k := by
  induction ops generalizing t out with
  | nil => exact ⟨hf, hout⟩
  | cons op ops ih =>
      have hpasses := perform_passes h op
      exact ih (run_resting .nothing h [op]) (hpasses.fostered hf) (hpasses.outstanding hout)

theorem Resting.listed {out : List Handle} (h : Resting K start t) (hf : Fostered t)
    (hout : ∀ k, k ∈ out ↔ Strays t k) : Listed t out := by
  have hstaged : ∀ (w : Staging) (i : Nat) k,
      (t.staged w)[i]? = some k ↔ ∃ n, t.nodes.get? k = some n ∧ n.role = w.roleAt i := by
    intro w i k
    constructor
    · intro hk
      obtain ⟨-, n, hn, hs, -⟩ := h.places.listed w i k hk
      exact ⟨n, hn, staged?_eq_some.1 hs⟩
    · rintro ⟨n, hn, hr⟩
      exact h.places.placed k n w i hn (staged?_eq_some.2 hr) List.not_mem_nil
  constructor
  case children_nodup => exact h.places.nodup .children
  case siblings_nodup => exact h.places.nodup .siblings
  case child => exact hstaged .children
  case sibling => exact hstaged .siblings
  case child_parent =>
    intro k n hn hr
    obtain ⟨i, hi⟩ := exists_staged .children hr
    have hp := h.places.parent_of_staged hn hi List.not_mem_nil
    rw [← h.active_eq] at hp
    exact ⟨hp, fun ha => (h.forest.rooted k n hn (hp.trans ha)).1⟩
  case sibling_parent =>
    intro k n hn hr
    obtain ⟨i, hi⟩ := exists_staged .siblings hr
    have hp : n.parent = t.above := h.places.parent_of_staged hn hi List.not_mem_nil
    cases ha : t.active with
    | none =>
        refine absurd (hp.trans ?_) (hf k n hn hr)
        unfold above
        rw [h.path_nil ha]
        rfl
    | some a =>
        obtain ⟨m, hm, -, -, -, habove, -⟩ := h.actor ha
        exact ⟨a, m, rfl, hm, hp.trans habove.symm⟩
  case frontier_nodup => exact h.queue.nodup
  case frontier =>
    intro k
    rw [hout]
    unfold Strays
    constructor
    · intro hk
      obtain ⟨e, he, rfl⟩ := List.mem_map.1 hk
      obtain ⟨n, hn, hleaf, -⟩ := h.queue.entry e he
      exact ⟨⟨n, hn, hleaf⟩, fun hno => hno.2 hk⟩
    · rintro ⟨hleaf, hno⟩
      by_contra hk
      exact hno ⟨hleaf, hk⟩
  case handed => exact fun k hk => ((hout k).1 hk).1
  case key =>
    intro e he
    obtain ⟨n, hn, -, hkey⟩ := h.queue.entry e he
    exact ⟨n, hn, hkey⟩

/-- No waiting node is lost or listed twice: each is in the list of its role, at its place and next to those it
belongs with, or a leaf handed out to the caller and still to be explored. -/
theorem waiting_listed {solver : σ} {domains : Domains} {settings : Settings} {t₀ : Tree σ cmp}
    (h₀ : ofSettings solver domains settings = .ok t₀) (ops : List (Op σ)) :
    Listed (t₀.run ops) (t₀.outstanding [] ops) := by
  have hrest := resting_of_ofSettings (K := fun _ _ => True) h₀ trivial
  obtain ⟨hvacant, -⟩ := vacant_of_ofSettings h₀
  have hnobody : ∀ k n, t₀.nodes.get? k ≠ some n := fun k n hn => nomatch (hvacant.nodes k).symm.trans hn
  have hf : Fostered t₀ := fun k n hn => absurd hn (hnobody k n)
  have hout : ∀ k, k ∈ [] ↔ Strays t₀ k := fun k =>
    iff_of_false List.not_mem_nil fun ⟨⟨n, hn, _⟩, _⟩ => hnobody k n hn
  obtain ⟨hf', hout'⟩ := run_strays hrest hf ops hout
  exact (run_resting .nothing hrest ops).listed hf' hout'

theorem waiting_listed_after_pop :
    ∃ t₀ : Tree ScriptedSolver SelectionRule.bestBound.order, ofSettings .fresh (.free 1) {} = .ok t₀ ∧
      let ops := [.create 0 0, .activate (some ⟨0, 0⟩), .create 2 0, .create 1 0, .create 3 0, .activate none,
        .raise ⟨2, 0⟩ 4, .pop, .activate (some ⟨2, 0⟩), .create 5 0]
      (t₀.run ops).children = [⟨4, 0⟩] ∧ (t₀.run ops).frontier.ids = [⟨3, 0⟩] ∧
        t₀.outstanding [] ops = [⟨1, 0⟩] ∧ Listed (t₀.run ops) (t₀.outstanding [] ops) := by
  have h := @waiting_listed ScriptedSolver _ SelectionRule.bestBound.order .fresh (.free 1) {} _ rfl
  exact ⟨_, rfl, by decide +kernel, by decide +kernel, by decide +kernel, h _⟩

end Run

end Tree

end BranchBound
