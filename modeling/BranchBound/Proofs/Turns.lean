import BranchBound.Proofs.DualBounds
import BranchBound.Proofs.Roles

namespace BranchBound.Tree

variable {σ : Type} [Solver σ] {cmp : NodeOrder} {K : Charge σ} {start : Array Interval} {t u v : Tree σ cmp}
  {id k j : Handle} {n m : Node σ} {op : Op σ} {nums : List Nat}

/-- What an operation does to the roles: it leaves them alone, makes a Child, or moves the turn. Only the end of the
turn makes a node processed, and from then on there is nothing more to become of it. -/
inductive Moves (op : Op σ) (t u : Tree σ cmp) : Prop
  | pauses : Pauses t u → Moves op t u
  | creates (id : Handle) (m : Node σ) : Joined t.nodes u.nodes id m → m.role.name = .child →
      m.number = t.nextNumber → u.tally = (t.nextNumber + 1, t.stats.created + 1, t.stats.activations) → Moves op t u
  | turns (target : Option Handle) (t₁ : Tree σ cmp) : op = .activate target → u.active = target →
      (∀ id, target = some id → ∃ n, t.nodes.get? id = some n ∧ n.role.name.isWaiting = true) →
      retire t = .ok ⟨⟩ t₁ → Carried Advances t.nodes t₁.nodes → Carried Persists t₁.nodes u.nodes →
      u.tally = (t.nextNumber, t.stats.created, t.stats.activations + if target.isSome then 1 else 0) → Moves op t u

section Steps

theorem Pauses.lift (hn : t.nodes.get? id = some n) (bound : Binary64) :
    Pauses t { t with nodes := t.nodes.set id { n with lowerBound := bound } } :=
  ⟨.set Idles.refl hn (.lift n bound), rfl⟩

theorem pauses_liftChildren (bound : Binary64) : Along Pauses (liftChildren bound : TreeM σ cmp Unit) := by
  refine along_get fun t => ?_
  apply Along.forM
  intro c
  apply along_node
  intro t n hn
  exact .lift hn _

theorem pauses_raise (id : Handle) (bound : Binary64) : Along Pauses (raise id bound : TreeM σ cmp Unit) := by
  apply along_node
  intro t n hn
  dsimp only
  split
  · exact along_pure () t
  · rw [ends_bind, ends_setNode]
    have hlift := Pauses.lift hn bound
    split
    · exact ⟨hlift.nodes, hlift.tally⟩
    · exact (pauses_liftChildren bound).after hlift
    · exact hlift

theorem activate_moves (h : Resting (fun _ _ => True) start t) (target : Option Handle) :
    Ends (activate target) t (fun _ => Moves (.activate target) t) fun _ => Moves (.activate target) t := by
  refine ((activate_waits target t).and (activate_cases Upkeep.nothing.toCustody h target)).mono ?_ ?_
  · rintro a u ⟨hwaits, ⟨-, rfl, -⟩ | ⟨hne, -, harrives, -⟩⟩
    · exact .pauses (refl_of Pauses _)
    · obtain ⟨t₁, hretire, hadvances, hpersists⟩ := harrives.turn
      obtain ⟨-, -, -, -, hfollowed⟩ := harrives.switched
      exact .turns target t₁ rfl hfollowed.active (hwaits.resolve_left hne) hretire hadvances hpersists harrives.tally
  · rintro e u ⟨-, ⟨-, -, -, rfl, -⟩ | hbalks⟩
    · exact .pauses (refl_of Pauses _)
    · exact .pauses hbalks.pauses

def SameTally (t u : Tree σ cmp) : Prop := u.tally = t.tally

instance : IsPreorder (Tree σ cmp) SameTally where
  refl _ := rfl
  trans _ _ _ h h' := h'.trans h

theorem along_clear {R : Tree σ cmp → Tree σ cmp → Prop} [IsPreorder (Tree σ cmp) R]
    (hcalm : ∀ t u, Calm none .deals t u → R t u)
    (hforget : ∀ t : Tree σ cmp, R t (forget { t with stats := { t.stats with freed := t.stats.freed + t.nodes.size } })) :
    Along R (clear : TreeM σ cmp Unit) := by
  have hundo : Along R (do
      ((← get).path).reverse.forM undoLog : TreeM σ cmp Unit) :=
    (along_get fun t => Along.forM along_undoLog _ t).mono hcalm
  have hreclaim : Along R (do
      ((← get).nodes.toList.map Prod.snd).forM reclaimBasis : TreeM σ cmp Unit) := by
    refine Along.mono ?_ hcalm
    refine along_get fun t => Along.forM (fun n => ?_) _ t
    unfold reclaimBasis
    split
    · exact (along_returnBasis _).bind fun _ => along_count (by simp)
    · exact along_pure _
  have hforgotten : Along R (do
      modify fun t => forget { t with stats := { t.stats with freed := t.stats.freed + t.nodes.size } }
      onLp Relaxation.clear : TreeM σ cmp Unit) :=
    .bind hforget fun _ => (along_onLp _).mono hcalm
  exact hundo.bind fun _ => hreclaim.bind fun _ => hforgotten

theorem perform_moves (h : Resting (fun _ _ => True) start t) (op : Op σ) : Moves op t (left op.perform t) := by
  have hK : Upkeep (σ := σ) (fun _ _ => True) (fun _ _ => True) := .nothing
  have hpauses : ∀ {op : Op σ} {m : TreeM σ cmp Unit}, Along Pauses m →
      Ends m t (fun _ => Moves op t) fun _ => Moves op t :=
    fun hm => (hm t).mono (fun _ _ => .pauses) fun _ _ => .pauses
  have hcalm : ∀ {m : TreeM σ cmp Unit}, Along (Calm none .deals) m → Along Pauses m :=
    fun hm => hm.mono fun _ _ => Calm.pauses
  have hqueue : ∀ (t : Tree σ cmp) (r : Frontier.Request), Pauses t { t with frontier := r.perform t.frontier } :=
    fun t _ => ⟨.refl Idles.refl t.nodes, rfl⟩
  refine Ends.left (P := Moves op t) ?_
  cases op with
  | create bound estimate =>
      refine ends_discard.2 ((create_spec hK.toCustody h bound estimate).mono ?_ ?_)
      · rintro id u ⟨-, hsprouts⟩
        obtain ⟨m, hjoined, hname⟩ := hsprouts.joined
        exact .creates id m hjoined hname (hsprouts.numbered m hjoined.self) hsprouts.tally
      · rintro e u ⟨rfl, -⟩
        exact .pauses (refl_of Pauses _)
  | changeBound id v side bound => exact hpauses (hcalm (along_changeBound id v side bound).discard)
  | constrain id c => exact hpauses (hcalm (along_constrain id c))
  | raise id bound => exact hpauses (pauses_raise id bound)
  | addColumn c => exact hpauses (hcalm (along_addColumn c))
  | addRow r => exact hpauses (hcalm (along_addRow r))
  | solve => exact hpauses (hcalm along_solve.discard)
  | activate target => exact ends_discard.2 (activate_moves h target)
  | load => exact hpauses (hcalm (along_load (q := .deals) nofun).discard)
  | prune cutoff => exact hpauses (along_prune (fun _ _ h => Calm.pauses (q := .keeps) h.calm) hqueue cutoff).discard
  | free id => exact hpauses (along_free (fun _ _ h => Calm.pauses (q := .keeps) h.calm) hqueue id)
  | pop => exact hpauses (along_pop hqueue).discard
  | clear =>
      have hvacant : ∀ {u : Tree σ cmp}, Vacant u → u.tally = t.tally → Moves .clear t u := by
        intro u hv htally
        exact .pauses ⟨fun k m hm => (nomatch (hv.nodes k).symm.trans hm), htally⟩
      exact ((clear_spec hK.toRebuilding h).and (along_clear (R := SameTally) (fun _ _ => Calm.tally) (fun _ => rfl) t)).mono
        (fun _ _ h => hvacant h.1.2.1.toVacant h.2) fun _ _ h => hvacant h.1.2.2.toVacant h.2
  | setPolicy p => exact hpauses fun t => ⟨.refl Idles.refl t.nodes, rfl⟩

end Steps

section Careers

/-- A node goes by its number, also when it is gone. -/
structure Numbered (t : Tree σ cmp) : Prop where
  lt : ∀ k n, t.nodes.get? k = some n → n.number < t.nextNumber
  unique : ∀ k n j m, t.nodes.get? k = some n → t.nodes.get? j = some m → m.number = n.number → j = k

def noteTurn (nums : List Nat) (t u : Tree σ cmp) : List Nat :=
  if u.active = t.active then nums else nums ++ ((u.active.bind u.nodes.get?).map Node.number).toList

def turns (t : Tree σ cmp) (ops : List (Op σ)) : List Nat := chronicle noteTurn [] t ops

/-- Whoever had a turn is past waiting, so that it never gets another one. -/
structure Counts (nums : List Nat) (t : Tree σ cmp) : Prop where
  nodup : nums.Nodup
  lt : ∀ i ∈ nums, i < t.nextNumber
  begun : ∀ k n, t.nodes.get? k = some n → n.number ∈ nums → n.role.name.isWaiting = false
  activations : t.stats.activations = nums.length
  created : t.stats.created = t.nextNumber

theorem Counts.activations_le (h : Counts nums t) : t.stats.activations ≤ t.stats.created := by
  rw [h.activations, h.created, ← List.length_range (n := t.nextNumber)]
  apply (List.subperm_of_subset h.nodup ?_).length_le
  intro i hi
  exact List.mem_range.2 (h.lt i hi)

theorem Numbered.carry (h : Numbered t) (hn : Carried Evolves t.nodes u.nodes) (hu : u.nextNumber = t.nextNumber) :
    Numbered u where
  lt k m hm := by
    obtain ⟨n, hn, hevolves⟩ := hn k m hm
    rw [hevolves.number, hu]
    exact h.lt k n hn
  unique k m j o hm ho heq := by
    obtain ⟨n, hn', hevolves⟩ := hn k m hm
    obtain ⟨n', hn'', hevolves'⟩ := hn j o ho
    exact h.unique k n j n' hn' hn'' (hevolves'.number.symm.trans (heq.trans hevolves.number))

theorem Numbered.join (h : Numbered t) (hj : Joined t.nodes u.nodes id m) (hm : m.number = t.nextNumber)
    (hu : u.nextNumber = t.nextNumber + 1) : Numbered u where
  lt k n hn := by
    rw [hu]
    obtain ⟨-, rfl⟩ | hn := hj.cases hn
    · exact Nat.lt_succ_of_le (Nat.le_of_eq hm)
    · exact Nat.lt_succ_of_lt (h.lt k n hn)
  unique k n j o hn ho heq := by
    obtain ⟨rfl, rfl⟩ | hn := hj.cases hn <;> obtain ⟨rfl, rfl⟩ | ho := hj.cases ho
    · rfl
    · have := h.lt j o ho
      omega
    · have := h.lt k n hn
      omega
    · exact h.unique k n j o hn ho heq

theorem Counts.carry (h : Counts nums t) (hn : Carried Evolves t.nodes u.nodes) (hu : u.tally = t.tally) :
    Counts nums u := by
  simp only [tally, Prod.mk.injEq] at hu
  refine ⟨h.nodup, fun i hi => hu.1 ▸ h.lt i hi, fun k m hm hi => ?_, hu.2.2.trans h.activations, ?_⟩
  · obtain ⟨n, hn, hevolves⟩ := hn k m hm
    exact hevolves.not_waiting (h.begun k n hn (hevolves.number ▸ hi))
  · rw [hu.1, hu.2.1]
    exact h.created

theorem Counts.join (h : Counts nums t) (hj : Joined t.nodes u.nodes id m) (hm : m.number = t.nextNumber)
    (hu : u.tally = (t.nextNumber + 1, t.stats.created + 1, t.stats.activations)) : Counts nums u := by
  simp only [tally, Prod.mk.injEq] at hu
  refine ⟨h.nodup, fun i hi => ?_, fun k n hn hi => ?_, hu.2.2.trans h.activations, ?_⟩
  · rw [hu.1]
    exact Nat.lt_succ_of_lt (h.lt i hi)
  · obtain ⟨-, rfl⟩ | hn := hj.cases hn
    · have := h.lt n.number hi
      omega
    · exact h.begun k n hn hi
  · rw [hu.1, hu.2.1, h.created]

theorem Counts.begin (h : Counts nums t) (hn : t.nodes.get? id = some n) (hw : n.role.name.isWaiting = true)
    (hlt : n.number < t.nextNumber) (hnodes : Carried Evolves t.nodes u.nodes) (hm : u.nodes.get? id = some m)
    (hact : m.role.name = .active) (huniq : Numbered u)
    (hu : u.tally = (t.nextNumber, t.stats.created, t.stats.activations + 1)) :
    Counts (nums ++ [m.number]) u := by
  simp only [tally, Prod.mk.injEq] at hu
  obtain ⟨n', hn', hevolves⟩ := hnodes id m hm
  cases hn.symm.trans hn'
  have hnew : m.number ∉ nums := by
    rw [hevolves.number]
    intro hi
    cases hw.symm.trans (h.begun id n hn hi)
  refine ⟨?_, fun i hi => ?_, fun k o ho hi => ?_, ?_, ?_⟩
  · simpa using List.Nodup.concat hnew h.nodup
  · rw [List.mem_append, List.mem_singleton] at hi
    rw [hu.1]
    obtain hi | rfl := hi
    · exact h.lt i hi
    · rwa [hevolves.number]
  · rw [List.mem_append, List.mem_singleton] at hi
    obtain hi | hi := hi
    · obtain ⟨n₁, hn₁, hevolves₁⟩ := hnodes k o ho
      exact hevolves₁.not_waiting (h.begun k n₁ hn₁ (hevolves₁.number ▸ hi))
    · cases huniq.unique id m k o hm ho hi
      cases hm.symm.trans ho
      rw [hact]
      rfl
  · rw [hu.2.2, h.activations, List.length_append, List.length_singleton]
  · rw [hu.1, hu.2.1, h.created]

theorem noteTurn_eq (h : ∀ k, u.active = some k → t.active = some k) : noteTurn nums t u = nums := by
  unfold noteTurn
  cases hu : u.active with
  | none => simp
  | some k => rw [h k hu, if_pos rfl]

theorem Moves.evolves (h : Moves op t u) (hm : u.nodes.get? k = some m) :
    (∃ n, t.nodes.get? k = some n ∧ Evolves n m) ∨ m.number = t.nextNumber := by
  cases h with
  | pauses h =>
      obtain ⟨n, hn, hidles⟩ := h.nodes k m hm
      exact .inl ⟨n, hn, hidles.toEvolves⟩
  | creates id o hj _ ho _ =>
      obtain ⟨-, rfl⟩ | hm := hj.cases hm
      · exact .inr ho
      · exact .inl ⟨m, hm, .refl m⟩
  | turns target t₁ _ _ _ _ hadvances hpersists _ =>
      obtain ⟨o, ho, hom⟩ := hpersists k m hm
      obtain ⟨n, hn, hno⟩ := hadvances k o ho
      exact .inl ⟨n, hn, hno.toEvolves.trans hom.toEvolves⟩

theorem Moves.counts (h : Moves op t u) (ht : Resting K start t) (hu : Resting K start u) (hn : Numbered t)
    (hc : Counts nums t) : Numbered u ∧ Counts (noteTurn nums t u) u := by
  cases h with
  | pauses h =>
      have hnodes : Carried Evolves t.nodes u.nodes := h.nodes.mono fun _ _ => Idles.toEvolves
      have htally := h.tally
      simp only [tally, Prod.mk.injEq] at htally
      rw [noteTurn_eq]
      · exact ⟨hn.carry hnodes htally.1, hc.carry hnodes h.tally⟩
      · intro k hk
        obtain ⟨m, hm, hact⟩ := (hu.acting k).1 hk
        obtain ⟨n, hn, hidles⟩ := h.nodes k m hm
        exact (ht.acting k).2 ⟨n, hn, hidles.name ▸ hact⟩
  | creates id m hj hname hm htally =>
      have hnext := htally
      simp only [tally, Prod.mk.injEq] at hnext
      rw [noteTurn_eq]
      · exact ⟨hn.join hj hm hnext.1, hc.join hj hm htally⟩
      · intro k hk
        obtain ⟨o, ho, hact⟩ := (hu.acting k).1 hk
        obtain ⟨-, rfl⟩ | ho := hj.cases ho
        · rw [hname] at hact
          cases hact
        · exact (ht.acting k).2 ⟨o, ho, hact⟩
  | turns target t₁ _ hactive hwaits _ hadvances hpersists htally =>
      have hnodes : Carried Evolves t.nodes u.nodes :=
        hadvances.trans (S := Persists) (fun _ _ _ h h' => h.toEvolves.trans h'.toEvolves) hpersists
      have hnext := htally
      simp only [tally, Prod.mk.injEq] at hnext
      have hnum := hn.carry hnodes hnext.1
      refine ⟨hnum, ?_⟩
      cases target with
      | none =>
          rw [noteTurn_eq fun k hk => (nomatch hactive.symm.trans hk)]
          exact hc.carry hnodes htally
      | some id =>
          obtain ⟨n, hn', hw⟩ := hwaits id rfl
          obtain ⟨m, hm, hact⟩ := (hu.acting id).1 hactive
          have hne : u.active ≠ t.active := by
            intro heq
            obtain ⟨o, ho, hact'⟩ := (ht.acting id).1 (heq.symm.trans hactive)
            cases hn'.symm.trans ho
            rw [hact'] at hw
            cases hw
          unfold noteTurn
          rw [if_neg hne, hactive, Option.bind_some, hm]
          exact hc.begin hn' hw (hn.lt id n hn') hnodes hm hact hnum htally

theorem Moves.nextNumber_le (h : Moves op t u) : t.nextNumber ≤ u.nextNumber := by
  have htally : ∀ {x y}, u.tally = (t.nextNumber, x, y) → t.nextNumber ≤ u.nextNumber :=
    fun h => Nat.le_of_eq (congrArg Prod.fst h).symm
  cases h with
  | pauses h => exact htally h.tally
  | creates _ _ _ _ _ h => exact Nat.le_of_lt (Nat.lt_of_succ_le (Nat.le_of_eq (congrArg Prod.fst h).symm))
  | turns _ _ _ _ _ _ _ _ h => exact htally h

/-- Whoever is live in the end has evolved from the node there was at its handle, or came later. -/
theorem run_evolves (ht : Resting (fun _ _ => True) start t) (ops : List (Op σ)) :
    t.nextNumber ≤ (t.run ops).nextNumber ∧ ∀ k m, (t.run ops).nodes.get? k = some m →
      (∃ n, t.nodes.get? k = some n ∧ Evolves n m) ∨ t.nextNumber ≤ m.number := by
  induction ops using List.reverseRecOn with
  | nil => exact ⟨Nat.le_refl _, fun k m hm => .inl ⟨m, hm, .refl m⟩⟩
  | append_singleton ops op ih =>
      have hmoves := perform_moves (run_resting .nothing ht ops) op
      rw [run_concat]
      refine ⟨Nat.le_trans ih.1 hmoves.nextNumber_le, fun k m hm => ?_⟩
      obtain ⟨o, ho, hom⟩ | hnew := hmoves.evolves hm
      · obtain ⟨n, hn, hno⟩ | hlater := ih.2 k o ho
        · exact .inl ⟨n, hn, hno.trans hom⟩
        · exact .inr (hom.number ▸ hlater)
      · exact .inr (hnew ▸ ih.1)

theorem Numbered.evolves (h : Numbered t) (ht : Resting (fun _ _ => True) start t) (ops : List (Op σ))
    (hn : t.nodes.get? k = some n) (hm : (t.run ops).nodes.get? j = some m) (heq : m.number = n.number) :
    j = k ∧ Evolves n m := by
  obtain ⟨o, ho, hevolves⟩ | hlater := (run_evolves ht ops).2 j m hm
  · obtain rfl := h.unique k n j o hn ho (hevolves.number.symm.trans heq)
    cases hn.symm.trans ho
    exact ⟨rfl, hevolves⟩
  · have := h.lt k n hn
    omega

theorem run_counts (ht : Resting (fun _ _ => True) start t) (hn : Numbered t) (hc : Counts [] t) (ops : List (Op σ)) :
    Numbered (t.run ops) ∧ Counts (t.turns ops) (t.run ops) := by
  induction ops using List.reverseRecOn with
  | nil => exact ⟨hn, hc⟩
  | append_singleton ops op ih =>
      rw [show t.turns (ops ++ [op]) = noteTurn (t.turns ops) (t.run ops) (t.run (ops ++ [op])) from chronicle_concat ..]
      rw [run_concat]
      have hrest := run_resting .nothing ht ops
      exact (perform_moves hrest op).counts hrest (run_resting .nothing hrest [op]) ih.1 ih.2

end Careers

end BranchBound.Tree
