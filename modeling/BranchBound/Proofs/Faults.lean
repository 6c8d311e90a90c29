import BranchBound.Proofs.Fidelity

namespace BranchBound

variable {σ : Type} [Solver σ] {cmp : NodeOrder}

def Op.subject? : Op σ → Option Handle
  | .changeBound id _ _ _ | .constrain id _ | .raise id _ | .free id => some id
  | .activate target => target
  | _ => none

namespace Tree

variable {K K' : Charge σ} {start : Array Interval} {t t' : Tree σ cmp} {held : Handle → Contents σ} {id : Handle}
  {n : Node σ} {x y : Option Handle}

/-- The mistakes that a caller can make, with the errors that tell of them. -/
inductive Mistake (t : Tree σ cmp) : Op σ → TreeError → Prop
  | unknown {op : Op σ} {id : Handle} : op.subject? = some id → t.nodes.get? id = none →
      Mistake t op (.unknownNode id)
  | createAway {bound estimate : Binary64} : t.active = none → t.root ≠ none →
      Mistake t (.create bound estimate) (.misuse .createAway)
  | noVariable {id : Handle} {v : Nat} {side : Side} {bound : Binary64} : t.domains.size ≤ v →
      Mistake t (.changeBound id v side bound) (.misuse (.noVariable v t.domains.size))
  | changeOn {id : Handle} {n : Node σ} {v : Nat} {side : Side} {bound : Binary64} : t.nodes.get? id = some n →
      n.role.name ≠ .active → n.role.name ≠ .child →
      Mistake t (.changeBound id v side bound) (.misuse (.changeOn n.role.name id))
  | constrainOn {id : Handle} {n : Node σ} {c : Nat} : t.nodes.get? id = some n →
      n.role.name ≠ .active → n.role.name ≠ .child →
      Mistake t (.constrain id c) (.misuse (.constrainOn n.role.name id))
  | addColumn {c : Solver.Column σ} : ¬ t.Ready → Mistake t (.addColumn c) (.misuse (.notLoaded .addColumn))
  | addRow {r : Solver.Row σ} : ¬ t.Ready → Mistake t (.addRow r) (.misuse (.notLoaded .addRow))
  | solve : ¬ t.Ready → Mistake t .solve (.misuse (.notLoaded .solve))
  | nothingToLoad : t.active = none → Mistake t .load (.misuse .nothingToLoad)
  | activateRole {id : Handle} {n : Node σ} : t.nodes.get? id = some n → t.active ≠ some id →
      n.role.name.isWaiting = false → Mistake t (.activate (some id)) (.misuse (.activateRole n.role.name))
  | freeOnPath {id : Handle} {n : Node σ} : t.nodes.get? id = some n → n.onPath = true →
      Mistake t (.free id) (.misuse (.freeOnPath id))
  | freeParent {id : Handle} {n : Node σ} {k : Nat} : t.nodes.get? id = some n → n.onPath = false →
      n.role.openChildren? = some k → 0 < k → Mistake t (.free id) (.misuse (.freeParent id (some k)))

/-- An operation that fails was refused for a mistake of the caller, or the solver has failed. -/
def Justified (t : Tree σ cmp) (op : Op σ) (e : TreeError) (t' : Tree σ cmp) : Prop :=
  t' = t ∧ Mistake t op e ∨ ∃ e', e = .solver e'

structure InBounds (t : Tree σ cmp) : Prop where
  -- the slots that new nodes take
  vacant : ∀ i ∈ t.nodes.vacant, i < t.nodes.slots.size
  -- the variables that are touched, sent to the solver, and changed by the logs along a path
  queue : ∀ v ∈ t.domains.queue, v < t.domains.size
  flags : t.domains.queued.size = t.domains.size
  logs : ∀ h n c, t.nodes.get? h = some n → c ∈ n.log.changes → c.var < t.domains.size
  -- the places of the path that a load starts from and ends at, and the sizes there
  sizes : t.sizes.length = t.path.length
  correctDepth : ∀ c, t.correctDepth = some c → c < t.path.length
  lpFork : ∀ f n, t.lpFork = some f → t.nodes.get? f = some n → n.depth < t.path.length

section Choice

theorem foldlM_ok {ε α β : Type} {f : β → α → Except ε β} {P : β → Prop} {xs : List α} {b : β}
    (hf : ∀ x ∈ xs, ∀ b, P b → ∃ c, f b x = .ok c ∧ P c) (hb : P b) : ∃ c, xs.foldlM f b = .ok c ∧ P c := by
  induction xs generalizing b with
  | nil => exact ⟨b, rfl, hb⟩
  | cons x xs ih =>
      obtain ⟨c, hc, hP⟩ := hf x List.mem_cons_self b hb
      rw [List.foldlM_cons, hc]
      exact ih (fun y hy => hf y (List.mem_cons_of_mem x hy)) hP

theorem better_ok (hx : Live t.nodes x) (hy : Live t.nodes y) : ∃ z, t.better x y = .ok z ∧ Live t.nodes z := by
  cases x with
  | none => cases y <;> exact ⟨_, rfl, hy⟩
  | some i =>
      cases y with
      | none => exact ⟨_, rfl, hx⟩
      | some j =>
          obtain ⟨n, hn⟩ := hx i rfl
          obtain ⟨m, hm⟩ := hy j rfl
          refine ⟨some (if (cmp m.key n.key).isGT then j else i), ?_, ?_⟩
          · unfold better
            simp only [node_eq_ok.2 hn, node_eq_ok.2 hm]
            rfl
          · split
            · exact hy
            · exact hx

theorem bestOf_ok (ids : List Handle) (hids : ∀ k ∈ ids, ∃ n, t.nodes.get? k = some n) :
    ∃ z, t.bestOf ids = .ok z ∧ Live t.nodes z := by
  refine foldlM_ok (fun k hk x hx => ?_) fun _ hk => nomatch hk
  obtain ⟨n, hn⟩ := hids k hk
  exact better_ok hx (live_some hn)

theorem Resting.choices_ok (h : Resting K start t) :
    (∃ c, t.bestChild = .ok c) ∧ (∃ c, t.bestSibling = .ok c) ∧ ∃ c, t.bestNode = .ok c := by
  obtain ⟨c, hc, hlive⟩ := bestOf_ok t.children fun k hk =>
    (h.toSound.waiting_of_staged (List.mem_append_left _ hk)).2.imp fun _ => And.left
  obtain ⟨s, hs, hlive'⟩ := bestOf_ok t.siblings fun k hk =>
    (h.toSound.waiting_of_staged (List.mem_append_right _ hk)).2.imp fun _ => And.left
  obtain ⟨y, hy, hlive''⟩ := better_ok hlive hlive'
  have hleaf : Live t.nodes t.bestLeaf := by
    intro k hk
    obtain ⟨e, he, rfl⟩ := Option.map_eq_some_iff.1 hk
    obtain ⟨n, hn, -⟩ := h.queue.entry e (Array.mem_toList_iff.2 (Array.mem_of_getElem? he))
    exact ⟨n, hn⟩
  obtain ⟨z, hz, -⟩ := better_ok hleaf hlive''
  refine ⟨⟨c, hc⟩, ⟨s, hs⟩, z, ?_⟩
  unfold bestNode bestChild bestSibling
  rw [hc, hs]
  change (t.better c s >>= _) = _
  rw [hy]
  exact hz

end Choice

section Errors

theorem freeMisuse?_eq_some {m : Misuse} (h : freeMisuse? id n = some m) :
    n.onPath = true ∧ m = .freeOnPath id ∨ n.onPath = false ∧ (n.role = .active ∨
      ∃ k, n.role.openChildren? = some k ∧ 0 < k ∧ m = .freeParent id (some k)) := by
  unfold freeMisuse? at h
  split at h
  · rename_i ho
    exact .inl ⟨ho, (Option.some.inj h).symm⟩
  · rename_i ho
    refine .inr ⟨Bool.eq_false_iff.2 ho, ?_⟩
    have hparent : ∀ k, n.role.openChildren? = some k →
        (if n.role.isExhausted = true then none else some (.freeParent id n.role.openChildren?)) = some m →
        ∃ k, n.role.openChildren? = some k ∧ 0 < k ∧ m = .freeParent id (some k) := by
      intro k hk hm
      split at hm
      · cases hm
      · rename_i hleft
        rw [Role.isExhausted_of_open hk, decide_eq_true_iff] at hleft
        rw [hk] at hm
        exact ⟨k, hk, Nat.pos_of_ne_zero hleft, (Option.some.inj hm).symm⟩
    cases hrole : n.role with
    | active => exact .inl rfl
    | junction k =>
        rw [hrole] at h hparent
        exact .inr (hparent k rfl h)
    | fork s =>
        rw [hrole] at h hparent
        exact .inr (hparent s.openChildren rfl h)
    | subroot s =>
        rw [hrole] at h hparent
        exact .inr (hparent s.openChildren rfl h)
    | child _ | sibling _ | leaf | deadend =>
        rw [hrole] at h
        cases h

theorem Resting.free_mistake (hr : Resting K start t) (hn : t.nodes.get? id = some n) {m : Misuse}
    (hm : freeMisuse? id n = some m) : Mistake t (.free id) (.misuse m) := by
  obtain ⟨ho, rfl⟩ | ⟨ho, hact | ⟨k, hk, hpos, rfl⟩⟩ := freeMisuse?_eq_some hm
  · exact .freeOnPath hn ho
  · obtain ⟨n', hn', -, -, hon, -⟩ := hr.actor ((hr.acting id).2 ⟨n, hn, by rw [hact]; rfl⟩)
    cases hn.symm.trans hn'
    cases ho.symm.trans hon
  · exact .freeParent hn ho hk hpos

theorem Rejects.mistake {wrong : Node σ → Option Misuse} {op : Op σ} {e : TreeError} (h : Rejects t id wrong e)
    (hop : op.subject? = some id)
    (hm : ∀ n m, t.nodes.get? id = some n → wrong n = some m → Mistake t op (.misuse m)) : Mistake t op e := by
  cases h with
  | unknown hn => exact .unknown hop hn
  | misuse hn hw => exact hm _ _ hn hw

theorem editMisuse?_eq_some {wrong : RoleName → Handle → Misuse} {m : Misuse} (h : editMisuse? wrong id n = some m) :
    n.role.name ≠ .active ∧ n.role.name ≠ .child ∧ m = wrong n.role.name id := by
  unfold editMisuse? at h
  split at h
  · cases h
  · rename_i hno
    rw [not_or] at hno
    exact ⟨hno.1, hno.2, (Option.some.inj h).symm⟩

theorem activateMisuse?_eq_some {m : Misuse} (h : activateMisuse? n = some m) :
    n.role.name.isWaiting = false ∧ m = .activateRole n.role.name := by
  unfold activateMisuse? at h
  split at h
  · cases h
  · rename_i hw
    exact ⟨Bool.eq_false_iff.2 hw, (Option.some.inj h).symm⟩

theorem Stalls.justified {work : LoadedWork} {op : Op σ} {e : TreeError} (h : Stalls K' start work t e t')
    (hop : ¬ t.Ready → Mistake t op (.misuse (.notLoaded work))) (hd : t.domains.WellFormed) :
    Justified t op e t' ∧ t'.domains.WellFormed := by
  obtain ⟨rfl, rfl, hidle⟩ | ⟨he, -, hworks⟩ := h
  · exact ⟨.inl ⟨rfl, hop hidle⟩, hd⟩
  · exact ⟨.inr he, hworks.domains hd⟩

theorem activate_justified (hK : Custody K K') (hr : Resting K start t) (hd : t.domains.WellFormed)
    (target : Option Handle) :
    Ends (activate target) t (fun _ t' => t'.domains.WellFormed)
      fun e t' => Justified t (.activate target) e t' ∧ t'.domains.WellFormed := by
  refine (activate_cases hK hr target).mono ?_ ?_
  · rintro _ t' (⟨-, rfl, -⟩ | ⟨-, -, harrives, -⟩)
    · exact hd
    · exact (harrives.switched.touches hd).wellFormed
  · rintro e t' (⟨id, rfl, hid, rfl, hrejects⟩ | hbalks)
    · refine ⟨.inl ⟨rfl, hrejects.mistake rfl fun n m hn hm => ?_⟩, hd⟩
      obtain ⟨hw, rfl⟩ := activateMisuse?_eq_some hm
      exact .activateRole hn hid hw
    · exact ⟨.inr hbalks.solver, hbalks.kept.works.domains hd⟩

theorem load_justified (hK : Rebuilding K K') (hr : Resting K start t) (h : Tracks held t)
    (hd : t.domains.WellFormed) :
    Ends load t (fun _ t' => t'.domains.WellFormed)
      fun e t' => Justified t .load e t' ∧ t'.domains.WellFormed := by
  refine (load_spec hK hr).mono ?_ ?_
  · rintro (_ | _ | _) t' ⟨-, hends⟩
    · obtain ⟨-, target, t₁, -, -, -, hdomains⟩ := hends
      rw [hdomains]
      split
      · exact hd
      · exact (Domains.Touches.touchAll _ hd).wellFormed
    · obtain rfl : t' = t := hends
      exact hd
    · exact hends.works.domains hd
  · rintro e t' (⟨rfl, rfl, ha⟩ | ⟨hsome, hload, hfail⟩)
    · exact ⟨.inl ⟨rfl, .nothingToLoad ha⟩, hd⟩
    · obtain ⟨a, ha⟩ := Option.isSome_iff_exists.1 hsome
      exact ⟨.inr (h.loadFails hr ha hload hfail).1, hfail.domains hd⟩

theorem perform_justified (hK : Upkeep K K') (hr : Resting K start t) (h : Tracks held t)
    (hd : t.domains.WellFormed) (op : Op σ) :
    Ends op.perform t (fun _ t' => t'.domains.WellFormed)
      fun e t' => Justified t op e t' ∧ t'.domains.WellFormed := by
  have hC : Custody K K' := hK.toCustody
  have hquiet : ∀ {t'}, Resting K start t' ∧ Quiet t t' → t'.domains.WellFormed := fun h' => h'.2.works.domains hd
  have hrefused : ∀ {e t'}, t' = t → Mistake t op e → Justified t op e t' ∧ t'.domains.WellFormed := by
    rintro e _ rfl hm
    exact ⟨.inl ⟨rfl, hm⟩, hd⟩
  cases op with
  | create bound estimate =>
      exact ends_discard.2 ((create_spec hC hr bound estimate).mono (fun _ _ h' => h'.2.domains ▸ hd)
        fun _ _ ⟨ht, he, ha, hroot⟩ => hrefused ht (he ▸ .createAway ha hroot))
  | changeBound id v side bound =>
      refine ends_discard.2 ((changeBound_spec hC hr id v side bound).mono (fun _ _ => hquiet) ?_)
      rintro e t' ⟨ht, ⟨hv, rfl⟩ | hrejects⟩
      · exact hrefused ht (.noVariable hv)
      · refine hrefused ht (hrejects.mistake rfl fun n m hn hm => ?_)
        obtain ⟨ha, hc, rfl⟩ := editMisuse?_eq_some hm
        exact .changeOn hn ha hc
  | constrain id c =>
      refine (constrain_spec hC hr id c).mono (fun _ _ => hquiet) ?_
      rintro e t' ⟨ht, hrejects⟩
      refine hrefused ht (hrejects.mistake rfl fun n m hn hm => ?_)
      obtain ⟨ha, hc, rfl⟩ := editMisuse?_eq_some hm
      exact .constrainOn hn ha hc
  | raise id bound =>
      exact (raise_spec hC hr id bound).mono (fun _ _ => hquiet)
        fun _ _ ⟨ht, hrejects⟩ => hrefused ht (hrejects.mistake rfl fun _ _ _ hm => nomatch hm)
  | addColumn c => exact (addColumn_spec hK hr c).mono (fun _ _ => hquiet) fun _ _ h' => h'.justified .addColumn hd
  | addRow r =>
      exact (addRow_spec (fun s l => hK.addRow s l r) hr).mono (fun _ _ => hquiet)
        fun _ _ h' => h'.justified .addRow hd
  | solve =>
      refine ends_discard.2 ((solve_spec hK hr).mono (fun _ _ h' => h'.2.domains hd) ?_)
      rintro e t' (hstalls | ⟨⟨v, hv, hout, -⟩, -⟩)
      · exact hstalls.justified .solve hd
      · have := hd.lt_of_waits ((hd.mem_queue v).1 (Array.mem_toList_iff.1 hv))
        omega
  | activate target => exact ends_discard.2 (activate_justified hC hr hd target)
  | load => exact ends_discard.2 (load_justified hK.toRebuilding hr h hd)
  | prune cutoff =>
      exact ends_discard.2 ((prune_spec hC hr cutoff).mono (fun _ _ ⟨_, _, hkept⟩ => hkept.works.domains hd)
        fun _ _ h' => h'.elim)
  | free id =>
      exact (free_spec hC hr id).mono (fun _ _ ⟨_, _, hkept⟩ => hkept.works.domains hd)
        fun _ _ ⟨ht, hrejects⟩ => hrefused ht (hrejects.mistake rfl fun _ _ hn hm => hr.free_mistake hn hm)
  | pop => exact ends_discard.2 ((pop_spec hr).mono (fun _ _ => hquiet) fun _ _ h' => h'.elim)
  | clear =>
      exact (clear_spec hK.toRebuilding hr).mono (fun _ _ h' => (h'.2.1.domains hd).wellFormed)
        fun _ _ h' => ⟨.inr h'.1, (h'.2.2.domains hd).wellFormed⟩
  | setPolicy p => exact (setPolicy_spec hr p).mono (fun _ _ => hquiet) fun _ _ h' => h'.elim

end Errors

section Run

/-- What holds between any two operations of a run, whatever the solver does. -/
structure Intact (start : Array Interval) (t : Tree σ cmp) : Prop where
  resting : Resting (fun _ _ => True) start t
  tracks : ∃ held, Tracks held t
  domains : t.domains.WellFormed

theorem perform_intact (h : Intact start t) (op : Op σ) : Intact start (left op.perform t) := by
  obtain ⟨held, htracks⟩ := h.tracks
  have hfollows := perform_follows htracks h.resting op
  have hdomains : (left op.perform t).domains.WellFormed :=
    Ends.left (P := fun t' => t'.domains.WellFormed)
      ((perform_justified .nothing h.resting htracks h.domains op).mono (fun _ _ h' => h') fun _ _ h' => h'.2)
  exact ⟨hfollows.1, ⟨_, hfollows.2⟩, hdomains⟩

theorem Intact.inBounds (h : Intact start t) : InBounds t where
  vacant i hi := by
    obtain ⟨g, hg⟩ := (h.resting.wellFormed.mem_vacant i).1 hi
    exact (Array.getElem?_eq_some_iff.1 hg).1
  queue v hv := h.domains.lt_of_waits ((h.domains.mem_queue v).1 hv)
  flags := h.domains.size
  logs := h.resting.logs.inRange
  sizes := h.resting.sized
  correctDepth c hc := by
    obtain ⟨held, htracks⟩ := h.tracks
    obtain ⟨k, -, hplace, -⟩ := htracks.marked c hc
    exact (List.getElem?_eq_some_iff.1 hplace).1
  lpFork f n hf hn := by
    obtain ⟨m, hm, -, hplace, -⟩ := h.resting.lpFork_onPath hf
    cases hn.symm.trans hm
    exact (List.getElem?_eq_some_iff.1 hplace).1

theorem intact_of_ofSettings {solver : σ} {domains : Domains} {settings : Settings}
    (h₀ : ofSettings solver domains settings = .ok t) (hd : domains.WellFormed) : Intact domains.vars t := by
  obtain ⟨hvacant, -, -, -, hdomains⟩ := vacant_of_ofSettings h₀
  exact ⟨resting_of_ofSettings h₀ trivial, ⟨fun _ => .empty, .vacant hvacant⟩, hdomains ▸ hd⟩

/-- Whatever was done before, and whichever calls of the solver have failed: an operation fails only for a mistake
of the caller, which leaves the tree as it was, or since the solver fails. To choose a node never fails, and no
index is out of bounds. -/
theorem faults_unreachable {solver : σ} {domains : Domains} {settings : Settings} {t₀ : Tree σ cmp}
    (h₀ : ofSettings solver domains settings = .ok t₀) (hd : domains.WellFormed) (ops : List (Op σ)) :
    (∀ op e t', op.perform (t₀.run ops) = .error e t' → Justified (t₀.run ops) op e t') ∧
      ((∃ c, (t₀.run ops).bestChild = .ok c) ∧ (∃ c, (t₀.run ops).bestSibling = .ok c) ∧
        ∃ c, (t₀.run ops).bestNode = .ok c) ∧
      InBounds (t₀.run ops) := by
  have h : Intact domains.vars (t₀.run ops) :=
    run_induction (intact_of_ofSettings h₀ hd) (fun _ op h => perform_intact h op) ops
  refine ⟨fun op e t' hrun => ?_, h.resting.choices_ok, h.inBounds⟩
  obtain ⟨held, htracks⟩ := h.tracks
  exact ((perform_justified .nothing h.resting htracks h.domains op).of_error hrun).1

/-- The solver does not empty itself when the root is loaded, and has no basis when the root ends its turn. Both
are tried again. -/
theorem faults_unreachable_after_retries :
    ∃ t₀ : Tree ScriptedSolver SelectionRule.bestBound.order,
      ofSettings ((ScriptedSolver.fresh.planFailure .clear (some ⟨0, "busy"⟩)).planFailure .getBasis
        (some ⟨0, "busy"⟩)) (.free 1) {} = .ok t₀ ∧
      let ops : List (Op ScriptedSolver) := [.create 0 0, .activate (some ⟨0, 0⟩), .load, .load, .addColumn (7 : Int),
        .solve, .create 0 0, .activate (some ⟨1, 0⟩), .activate (some ⟨1, 0⟩), .load]
      ((t₀.run ops).lp.solver.calls.filter Prod.snd).size = 2 ∧ (t₀.run ops).focus.isLoaded = true ∧
        (∀ op e t', op.perform (t₀.run ops) = .error e t' → Justified (t₀.run ops) op e t') ∧
        InBounds (t₀.run ops) := by
  refine ⟨_, rfl, by decide +kernel, by decide +kernel, ?_⟩
  have h := @faults_unreachable ScriptedSolver _ SelectionRule.bestBound.order
    ((ScriptedSolver.fresh.planFailure .clear (some ⟨0, "busy"⟩)).planFailure .getBasis (some ⟨0, "busy"⟩))
    (.free 1) {} _ rfl (Domains.ofIntervals_wellFormed _)
  exact ⟨(h _).1, (h _).2.2⟩

end Run

end Tree

end BranchBound
