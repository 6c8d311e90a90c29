import BranchBound.Proofs.Retirement
import BranchBound.Proofs.Switching

namespace BranchBound

namespace Outcome

def var? : Outcome → Option Nat
  | feasible => none
  | infeasible v => some v

def activation (id : Handle) : Outcome → Activation
  | feasible => .activated id
  | infeasible v => .cutoff id v

theorem activation_ne_unchanged (id : Handle) (o : Outcome) : o.activation id ≠ .unchanged := by cases o <;> nofun

end Outcome

namespace Tree

variable {σ : Type} [Solver σ] {cmp : NodeOrder} {K K' : Charge σ}
  {start : Array Interval} {t t' t₁ t₂ : Tree σ cmp} {anchor target : Option Handle} {id : Handle} {n : Node σ}

theorem changesAlong_sameWrites {a b : Arena (Node σ)} {path : List Handle} (hc : Carried KeepsWrites a b)
    (hl : ∀ k ∈ path, ∃ m, b.get? k = some m) : SameWrites (changesAlong b path) (changesAlong a path) := by
  induction path with
  | nil => rfl
  | cons k path ih =>
      suffices hlog : SameWrites (logOf b k) (logOf a k) from
        hlog.append (ih fun k' hk => hl k' (List.mem_cons_of_mem k hk))
      obtain ⟨m, hm⟩ := hl k List.mem_cons_self
      obtain ⟨n, hn, hwrites⟩ := hc k m hm
      rw [logOf_eq hm, logOf_eq hn]
      exact hwrites

theorem Ended.inForce (h : Ended K t t₁) (hf : InForce start t.nodes t.path t.domains.vars) :
    InForce start t₁.nodes t₁.path t₁.domains.vars := by
  have hchanges : changesAlong t₁.nodes t₁.path = changesAlong t.nodes t.path := by
    rw [← h.path]
    refine changesAlong_congr (fun k m hm => ?_) fun _ => h.sound.walk.live_of_mem
    obtain ⟨n, hn, hturned⟩ := h.nodes.back k m hm
    exact ⟨n, hn, hturned.changes⟩
  rw [h.domains]
  exact ⟨hchanges ▸ hf.noted, hchanges ▸ hf.vars_eq⟩

theorem Kept.sized {gone : List Handle} (h : Kept gone t t₁) (hs : t.sizes.length = t.path.length) :
    t₁.sizes.length = t₁.path.length := by rw [h.sizes, h.path, hs]

theorem Kept.inForce {gone : List Handle} {s : Stage} (h : Kept gone t t₁) (hs : Sound K s t₁)
    (hf : InForce start t.nodes t.path t.domains.vars) :
    InForce start t₁.nodes t₁.path t₁.domains.vars := by
  have hwalk := hs.walk
  rw [h.path] at hwalk
  have hchanges := changesAlong_eq h.nodes fun _ => hwalk.live_of_mem
  rw [h.path, h.domains]
  exact ⟨hchanges ▸ hf.noted, hchanges ▸ hf.vars_eq⟩

/-- The active designation has moved: the active node ended its turn, the way was cleared, and the path
led to the target. -/
inductive Switched (K : Charge σ) (t t' : Tree σ cmp)
    (target : Option Handle) : Prop
  | intro {t₁ t₂ : Tree σ cmp} {s : Stage} {r : Route} {anchor : Option Handle} : Ended K t t₁ → Kept [] t₁ t₂ →
      Sound K s t₂ → Leads t₂ r target anchor → Followed t₂ t' r target → Switched K t t' target

theorem Switched.touches (h : Switched K t t' target) : t.domains.Touches t'.domains := by
  obtain ⟨hended, hkept, -, -, hfollowed⟩ := h
  have hd := hfollowed.domains
  rwa [hkept.domains, hended.domains] at hd

/-- How the active designation has moved to a node: the path down to place `k` was kept, other nodes were
entered from there on, and what their logs make of the bounds above decides the answer. -/
structure Decides (start : Array Interval) (t t' : Tree σ cmp) (id : Handle) (a : Activation) (k : Nat) :
    Prop where
  kept : t'.path.take k = t.path.take k
  entered : ∀ g ∈ t'.path.drop k, g ∉ t.path
  writes : Carried KeepsWrites t.nodes t'.nodes
  activation : a = (t'.judge start k).activation id
  emptyVar : t'.focus.emptyVar = (t'.judge start k).var?

structure Balks (K' : Charge σ) (start : Array Interval) (t : Tree σ cmp) (e : TreeError) (t' : Tree σ cmp) :
    Prop where
  solver : ∃ e', e = .solver e'
  resting : Resting K' start t'
  kept : Kept [] t t'
  unmoved : Unladen t → Unmoved t t'
  settles : Settles t t'
  pauses : Pauses t t'

/-- The turn has gone to the target. -/
structure Arrives (K : Charge σ) (start : Array Interval) (t t' : Tree σ cmp) (target : Option Handle) : Prop where
  resting : Resting K start t'
  switched : Switched K t t' target
  tends : Tends target t t'
  unstaged : target = none → ∀ k m, t'.nodes.get? k = some m → m.role.name ≠ .sibling
  childless : ∀ k m, t'.nodes.get? k = some m → m.role.name ≠ .child
  turn : ∃ t₁, retire t = .ok ⟨⟩ t₁ ∧ Carried Advances t.nodes t₁.nodes ∧ Carried Persists t₁.nodes t'.nodes
  tally : t'.tally = (t.nextNumber, t.stats.created, t.stats.activations + if target.isSome then 1 else 0)

theorem Ended.advances {q : Dealing} (he : Ended K t t') (h : Resting K' start t) (hcalm : Calm t.active q t t') :
    Carried Advances t.nodes t'.nodes := by
  apply hcalm.carried (fun _ _ => Persists.advances)
  intro k n m hk hn hm hs
  obtain ⟨o, ho, hact⟩ := (h.acting k).1 hk
  cases hn.symm.trans ho
  obtain ⟨o', ho', hturned⟩ := he.nodes.back k m hm
  cases hn.symm.trans ho'
  cases hturned with
  | waits hidle => exact absurd hact hidle
  | done _ hidle hnot =>
      rw [← Bool.not_eq_true, RoleName.isWaiting_iff] at hidle
      have hopen : n.role.name.isProcessed = false := by rw [hact]; rfl
      refine ⟨⟨hs.number, hs.parent, hs.depth, ?_, fun hr => Bool.noConfusion (hopen.symm.trans hr)⟩, fun _ => .inr hact⟩
      rw [hact]
      exact Nat.not_le.1 hidle

theorem Ended.tends {q : Dealing} (he : Ended K t t') (hcalm : Calm t.active q t t') : Tends none t t' := by
  refine .of_names (fun k m hm => ?_) fun _ _ _ _ => by rw [hcalm.frontier]
  obtain ⟨n, hn, hturned⟩ := he.nodes.back k m hm
  refine ⟨n, hn, fun _ => ?_⟩
  cases hturned with
  | waits _ hs => rw [hs.name]
  | done hact hidle =>
      refine iff_of_false (fun hleaf => ?_) fun hleaf => ?_
      · rw [hleaf] at hidle
        cases hidle
      · rw [hact] at hleaf
        cases hleaf

theorem retire_cases (hK : Custody K K') (h : Resting K start t) :
    Ends retire t (fun _ t' => Ended K t t' ∧ retire t = .ok ⟨⟩ t' ∧ Tends none t t' ∧
      Carried Advances t.nodes t'.nodes ∧ t'.tally = t.tally) (Balks K' start t) := by
  refine (((retire_spec hK h).and (calm_retire t)).and (ends_run retire t)).mono ?_ ?_
  · rintro _ t' ⟨⟨hended, hcalm⟩, hrun⟩
    exact ⟨hended, hrun, hended.tends hcalm, hended.advances h hcalm, hcalm.tally⟩
  · rintro e t' ⟨⟨⟨he, hrest, hkept, hmoved⟩, hcalm⟩, -⟩
    exact ⟨he, hrest, hkept, hmoved, hcalm.settles, hcalm.pauses⟩

theorem deactivate_spec (hK : Custody K K') (h : Resting K start t) :
    Ends deactivate t (fun a t' => a ≠ .unchanged ∧ Arrives K start t t' none) (Balks K' start t) := by
  unfold deactivate
  refine (retire_cases hK h).bind ?_
  rintro _ t₁ ⟨hended, hretire, htends₁, hadvances, htally⟩
  rw [ends_bind]
  refine (flush_spec hK.toRedemption hended.sound .siblings).mono ?_ fun _ _ h => h.elim
  rintro _ t₂ ⟨h₂, nodes₂, frontier₂, rfl, hmatch₂, hsame₂, hids₂⟩
  have htends₂ := trans_of (Tends none) htends₁ (Tends.of_flush hended.sound.places hmatch₂ hsame₂ hids₂)
  rw [ends_bind]
  refine (flush_spec hK.toRedemption h₂ .children).mono ?_ fun _ _ h => h.elim
  rintro _ t₃ ⟨h₃, nodes₃, frontier₃, rfl, hmatch₃, hsame₃, hids₃⟩
  have htends₃ := trans_of (Tends none) htends₂ (Tends.of_flush h₂.places hmatch₃ hsame₃ hids₃)
  have hkept : Kept [] t₁ { t₁ with
      nodes := nodes₃, frontier := frontier₃, children := [], siblings := [] } :=
    .shelve (Matched.trans (S := Shelved) (fun _ _ _ => Shelved.trans) hmatch₂ hmatch₃)
  have h₄ := h₃.reanchor rfl none
  have hnone : ∀ (w : Staging) k m, nodes₃.get? k = some m → m.role.name ≠ (w.roleAt 0 : Role σ).name := by
    intro w k m hm hr
    obtain ⟨i, hi⟩ := exists_staged w hr
    cases w <;> cases h₃.places.placed k m _ i hm hi List.not_mem_nil
  have hleads := leads_out { t₁ with
    nodes := nodes₃, frontier := frontier₃, children := [], siblings := [] }
  rw [ends_bind, ends_discard]
  refine ((follow_spec hK none h₄ rfl (hended.sized h) (hkept.inForce h₃ (hended.inForce h.inForce)) hleads
    (fun id hid => nomatch hid) fun _ => ⟨rfl, rfl⟩).and
    (along_follow (q := .deals) .out none _)).mono ?_ fun _ _ h => h.1.elim
  rintro _ t' ⟨⟨hresting, hfollowed, -⟩, hcalm⟩
  have htends := trans_of (Tends none) htends₃ hcalm.tends
  have hflushed : Proceeds t₁ { t₁ with nodes := nodes₃, frontier := frontier₃, children := [], siblings := [] } :=
    .shelve (Matched.trans (S := Shelved) (fun _ _ _ => Shelved.trans) hmatch₂ hmatch₃)
  have hproceeds := trans_of Proceeds hflushed hcalm.proceeds
  have hunstaged : ∀ (w : Staging) k m, t'.nodes.get? k = some m → m.role.name ≠ (w.roleAt 0 : Role σ).name := by
    intro w k m hm hr
    obtain ⟨n, hn, hs⟩ := hcalm.nodes k m hm
    exact hnone w k n hn ((hs.name nofun).symm.trans hr)
  exact ⟨Activation.noConfusion, { hresting with }, .intro hended hkept h₄ hleads { hfollowed with },
    ⟨htends.live, htends.strays⟩, fun _ => hunstaged .siblings, hunstaged .children,
    ⟨t₁, hretire, hadvances, hproceeds.nodes⟩, hproceeds.tally.trans htally⟩

theorem noteSwitch_spec (h : Resting K start t₁) (hs : Switched K t t₁ (some id)) (ht : Tends (some id) t t₁)
    (hturn : ∃ t₂, retire t = .ok ⟨⟩ t₂ ∧ Carried Advances t.nodes t₂.nodes ∧ Carried Persists t₂.nodes t₁.nodes)
    (htally : t₁.tally = t.tally) (hchildless : ∀ k m, t₁.nodes.get? k = some m → m.role.name ≠ .child)
    (hfresh : t₁.focus = .fresh) (outcome : Outcome) (common : Option Nat)
    (fork : Option Handle) {E : TreeError → Tree σ cmp → Prop} :
    Ends (do
        noteEmpty outcome
        let depth := (← get).path.length - 1
        count fun s => { s with activations := s.activations + 1, maxDepth := max s.maxDepth depth }
        record (.activated id depth common fork)
        report
        match outcome with
        | .feasible => return .activated id
        | .infeasible v => return Activation.cutoff id v) t₁
      (fun a t' => a = outcome.activation id ∧ Arrives K start t t' (some id) ∧ ∃ focus stats journal,
        t' = { t₁ with focus := focus, stats := stats, journal := journal } ∧ focus.emptyVar = outcome.var?) E := by
  obtain ⟨hended, hkept, hsound, hleads, hfollowed⟩ := hs
  have hnoted : ∀ (focus : Focus) (stats : Stats) (journal : Array Event),
      focus.isLoaded = t₁.focus.isLoaded → focus.isSolved = t₁.focus.isSolved →
      SameBooks t₁.stats stats → stats.activations = t₁.stats.activations + 1 →
      Arrives K start t { t₁ with focus := focus, stats := stats, journal := journal } (some id) := by
    intro focus stats journal hl hso hb ha
    simp only [Tree.tally, Prod.mk.injEq] at htally
    refine ⟨{ h with books := h.books.congr hb }, .intro hended hkept hsound hleads { hfollowed with
      isLoaded := hl.trans hfollowed.isLoaded
      isSolved := hso.trans hfollowed.isSolved }, ⟨ht.live, ht.strays⟩, nofun, hchildless, hturn, ?_⟩
    simp [htally, ha, hb.created]
  have hempty : t₁.focus.emptyVar = none := by rw [hfresh]; rfl
  unfold noteEmpty report
  cases outcome with
  | feasible =>
      simp only [ends_bind, ends_pure, ends_get, ends_count, ends_record]
      split
      · exact ⟨rfl, hnoted t₁.focus _ _ rfl rfl ⟨rfl, rfl, rfl, rfl⟩ rfl, t₁.focus, _, _, rfl, hempty⟩
      · exact ⟨rfl, hnoted t₁.focus _ _ rfl rfl ⟨rfl, rfl, rfl, rfl⟩ rfl, t₁.focus, _, _, rfl, hempty⟩
  | infeasible v =>
      have hvar : (t₁.focus.emptyVar <|> some v) = some v := by rw [hempty]; rfl
      simp only [ends_bind, ends_modify, ends_pure, ends_get, ends_count, ends_record]
      split
      · exact ⟨rfl, hnoted _ _ _ rfl rfl ⟨rfl, rfl, rfl, rfl⟩ rfl, _, _, _, rfl, hvar⟩
      · exact ⟨rfl, hnoted _ _ _ rfl rfl ⟨rfl, rfl, rfl, rfl⟩ rfl, _, _, _, rfl, hvar⟩

theorem Ended.waits (he : Ended K' t t₁) (h : Resting K start t) (hn : t.nodes.get? id = some n)
    (hw : n.role.name.isWaiting = true) :
    ∃ m, t₁.nodes.get? id = some m ∧ m.role.name = n.role.name ∧ m.onPath = false := by
  have hoff : n.onPath = false := by
    cases ho : n.onPath with
    | false => rfl
    | true => cases h.family.entered id n hn ho hw
  obtain ⟨m, hm, hturned⟩ := he.nodes.forth id n hn
  cases hturned with
  | done hact => exact absurd hact (Role.not_active_of_waiting hw)
  | waits _ hsteady => exact ⟨m, hm, hsteady.name, hsteady.onPath.trans hoff⟩

section Cleared

variable {t₃ : Tree σ cmp} {m : Node σ} {q : Dealing}

theorem Cleared.proceeds_to (hc : Cleared K id m t₁ t₂) (hcalm : Calm (some id) q t₂ t₃)
    (hw : m.role.name.isWaiting = true) (hactive : ∃ o, t₃.nodes.get? id = some o ∧ o.role.name = .active) :
    Proceeds t₂ t₃ := by
  refine ⟨hcalm.carried (fun _ _ h => h) ?_, hcalm.tally⟩
  intro k n o hk hn ho hs
  cases hk
  cases hc.self.symm.trans hn
  obtain ⟨o', ho', hact⟩ := hactive
  cases ho.symm.trans ho'
  rw [RoleName.isWaiting_iff] at hw
  apply Persists.of_stage hs.number hs.parent hs.depth <;> rw [hact]
  · exact Nat.le_succ_of_le hw
  · exact Nat.le_refl 3

theorem Cleared.childless (hc : Cleared K id m t₁ t₂) (hcalm : Calm (some id) q t₂ t₃)
    (hactive : ∃ o, t₃.nodes.get? id = some o ∧ o.role.name = .active) (k : Handle) (o : Node σ)
    (ho : t₃.nodes.get? k = some o) : o.role.name ≠ .child := by
  intro hr
  obtain ⟨n, hn, hs⟩ := hcalm.nodes k o ho
  by_cases hk : k = id
  · obtain ⟨o', ho', hact⟩ := hactive
    cases ho.symm.trans (hk ▸ ho')
    cases hr.symm.trans hact
  · obtain ⟨i, hi⟩ := exists_staged .children ((hs.name fun he => hk (Option.some.inj he).symm).symm.trans hr)
    have hlisted := hc.sound.places.placed k n .children i hn hi (by simpa using hk)
    rw [show t₂.staged .children = [] from hc.children] at hlisted
    cases hlisted

end Cleared

def activateMisuse? (n : Node σ) : Option Misuse :=
  if n.role.name.isWaiting then none else some (.activateRole n.role.name)

/-- The turn goes to a node that waits, unless the solver fails while the active node ends its own. -/
theorem switchTo_spec (hK : Custody K K') (h : Resting K start t) (hn : t.nodes.get? id = some n)
    (hw : n.role.name.isWaiting = true) :
    Ends (switchTo id) t (fun a t' => Arrives K start t t' (some id) ∧ ∃ k, Decides start t t' id a k)
      (Balks K' start t) := by
  unfold switchTo
  rw [ends_bind, ends_read, node_eq_ok.2 hn]
  simp only [hw, if_true]
  refine (retire_cases hK h).bind ?_
  rintro _ t₁ ⟨hended, hretire, htends₁, hadvances, htally⟩
  obtain ⟨m, hm, hname, hoff⟩ := hended.waits h hn hw
  rw [← hname] at hw ⊢
  rw [ends_bind]
  refine (clearTheWay_spec hK hended.sound hm hw).mono ?_ fun _ _ h => h.elim
  rintro _ t₂ hcleared
  obtain ⟨r, hr, hleads⟩ := route_spec hcleared.sound hcleared.self hoff
  rw [ends_bind, ends_read, hr]
  have htarget : Target t₂ m.parent id := ⟨hcleared.unqueued, m, hcleared.self, hw, hoff, rfl⟩
  simp only
  rw [ends_bind]
  refine ((follow_spec hK (some id) hcleared.sound hcleared.children (hcleared.kept.sized (hended.sized h))
    (hcleared.kept.inForce hcleared.sound (hended.inForce h.inForce)) hleads
    (fun k hk => Option.some.inj hk ▸ htarget) fun hk => absurd hk (Option.some_ne_none id)).and
    (along_follow (q := .deals) r (some id) t₂)).mono ?_ fun _ _ h => h.1.elim
  rintro outcome t₃ ⟨⟨hresting, hfollowed, hfresh, hjudged⟩, hcalm⟩
  have htends₃ := trans_of (Tends (some id)) (trans_of (Tends (some id)) htends₁.weaken hcleared.tends) hcalm.tends
  have hactive := (hresting.acting id).1 hfollowed.active
  have hproceeds := trans_of Proceeds hcleared.proceeds (hcleared.proceeds_to hcalm hw hactive)
  refine (noteSwitch_spec hresting (.intro hended hcleared.kept hcleared.sound hleads hfollowed) htends₃
    ⟨t₁, hretire, hadvances, hproceeds.nodes⟩ (hproceeds.tally.trans htally) (hcleared.childless hcalm hactive)
    hfresh outcome r.common r.lpFork).mono ?_ fun _ _ h => h
  rintro a t' ⟨ha, harrives, focus, stats, journal, rfl, hempty⟩
  refine ⟨harrives, r.keep, ?_⟩
  have hpath : t₂.path = t.path := by rw [hcleared.kept.path, hended.path]
  have hwrites : Carried KeepsWrites t.nodes t₂.nodes :=
    hended.nodes.back.trans (S := Kin) (fun _ _ _ h h' => congrArg _ (h'.changes.trans h.changes)) hcleared.kept.nodes
  exact {
    kept := by
      rw [← hpath]
      exact hfollowed.take_path hleads.keep_le
    entered := by
      rw [← hpath]
      exact fun g hg => hleads.entered_off hcleared.sound.walk hfollowed.toEntered g hg
    writes := hwrites.trans (S := KeepsWrites) (fun _ _ _ h h' => SameWrites.trans h' h) hfollowed.writes
    activation := hjudged ▸ ha
    emptyVar := hjudged ▸ hempty }

def Activates (K : Charge σ) (start : Array Interval) (t : Tree σ cmp) (target : Option Handle) (a : Activation)
    (t' : Tree σ cmp) : Prop :=
  a = .unchanged ∧ t' = t ∧ target.isSome = true ∧ t.active = target ∨
    a ≠ .unchanged ∧ (target.isSome = true → t.active ≠ target) ∧ Arrives K start t t' target ∧
      ∀ id, target = some id → ∃ k, Decides start t t' id a k

def ActivateFails (K' : Charge σ) (start : Array Interval) (t : Tree σ cmp) (target : Option Handle) (e : TreeError)
    (t' : Tree σ cmp) : Prop :=
  (∃ id, target = some id ∧ t.active ≠ some id ∧ t' = t ∧ Rejects t id activateMisuse? e) ∨ Balks K' start t e t'

theorem switchTo_cases (hK : Custody K K') (h : Resting K start t) (ha : t.active ≠ some id) :
    Ends (switchTo id) t (Activates K start t (some id)) (ActivateFails K' start t (some id)) := by
  cases hn : t.nodes.get? id with
  | none =>
      unfold switchTo
      rw [ends_bind, ends_read, node_eq_error.2 ⟨hn, rfl⟩]
      exact .inl ⟨id, rfl, ha, rfl, .unknown hn⟩
  | some n =>
      cases hw : n.role.name.isWaiting with
      | true =>
          refine (switchTo_spec hK h hn hw).mono ?_ fun _ _ => .inr
          rintro a t' ⟨harrives, k, hdecides⟩
          refine .inr ⟨hdecides.activation ▸ Outcome.activation_ne_unchanged id _, fun _ => ha, harrives, ?_⟩
          rintro _ ⟨⟩
          exact ⟨k, hdecides⟩
      | false =>
          unfold switchTo
          rw [ends_bind, ends_read, node_eq_ok.2 hn]
          simp only [hw, Bool.false_eq_true, if_false, ends_bind, ends_throw]
          refine .inl ⟨id, rfl, ha, rfl, .misuse hn ?_⟩
          rw [activateMisuse?, hw]
          rfl

theorem activate_cases (hK : Custody K K') (h : Resting K start t) (target : Option Handle) :
    Ends (activate target) t (Activates K start t target) (ActivateFails K' start t target) := by
  cases target with
  | none => exact (deactivate_spec hK h).mono (fun _ _ h' => .inr ⟨h'.1, nofun, h'.2, nofun⟩) fun _ _ => .inr
  | some id =>
      unfold activate
      rw [ends_bind, ends_get]
      split
      · rename_i hid
        exact .inl ⟨rfl, rfl, rfl, hid⟩
      · rename_i hid
        exact switchTo_cases hK h hid

theorem ActivateFails.fails {e : TreeError} (h : ActivateFails K' start t target e t') : Fails K' start t e t' := by
  obtain ⟨id, -, -, hrejects⟩ | hbalks := h
  · exact .inl (Rejects.refused hrejects)
  · exact .inr ⟨hbalks.solver, hbalks.resting⟩

theorem activate_spec (hK : Custody K K') (h : Resting K start t) (target : Option Handle) :
    Ends (activate target) t
      (fun a t' => Resting K start t' ∧ (a = .unchanged ∧ t' = t ∧ target.isSome ∧ t.active = target ∨
        a ≠ .unchanged ∧ (target.isSome = true → t.active ≠ target) ∧ Switched K t t' target))
      (Fails K' start t) := by
  refine (activate_cases hK h target).mono ?_ fun _ _ => ActivateFails.fails
  rintro a t' (⟨ha, rfl, hsame⟩ | ⟨ha, hne, harrives, -⟩)
  · exact ⟨h, .inl ⟨ha, rfl, hsame⟩⟩
  · exact ⟨harrives.resting, .inr ⟨ha, hne, harrives.switched⟩⟩

end Tree

end BranchBound
