import BranchBound.Proofs.Turns

namespace BranchBound

variable {σ : Type} [Solver σ] {cmp : NodeOrder}

def Op.replacesPolicy : Op σ → Bool
  | .setPolicy _ => true
  | _ => false

namespace Tree

variable {q : Bool} {t u : Tree σ cmp}

/-- The settings stand, and the frontier has done nothing but serve requests. The policy stands unless it is
replaced. -/
structure Abides (replaces : Bool) (t u : Tree σ cmp) : Prop where
  settings : u.settings = t.settings
  policy : replaces = false → u.policy = t.policy
  requests : ∃ rs, u.frontier = t.frontier.run rs

instance : IsPreorder (Tree σ cmp) (Abides q) where
  refl _ := ⟨rfl, fun _ => rfl, [], rfl⟩
  trans t u v h h' := by
    obtain ⟨rs, hrs⟩ := h.requests
    obtain ⟨rs', hrs'⟩ := h'.requests
    refine ⟨h'.settings.trans h.settings, fun hq => (h'.policy hq).trans (h.policy hq), rs ++ rs', ?_⟩
    rw [hrs', hrs]
    exact List.foldl_append.symm

theorem Abides.of_rules (hr : u.rules = t.rules) (hf : u.frontier = t.frontier) : Abides q t u :=
  ⟨congrArg Prod.snd hr, fun _ => congrArg Prod.fst hr, [], hf⟩

theorem Abides.of_request (r : Frontier.Request) (hr : u.rules = t.rules) (hf : u.frontier = r.perform t.frontier) :
    Abides q t u := ⟨congrArg Prod.snd hr, fun _ => congrArg Prod.fst hr, [r], hf⟩

theorem Calm.abides {x : Option Handle} {hands : Dealing} (h : Calm x hands t u) : Abides q t u :=
  .of_rules h.rules h.frontier

theorem Abides.inOrder [Std.TransCmp cmp] (h : Abides q t u) (ht : t.frontier.InOrder) : u.frontier.InOrder := by
  obtain ⟨rs, hrs⟩ := h.requests
  rw [hrs]
  exact Frontier.run_inOrder ht rs

def SameSettings (t u : Tree σ cmp) : Prop := u.settings = t.settings

section Programs

variable {α : Type} {m : TreeM σ cmp α}

theorem abides_of_calm {x : Option Handle} {hands : Dealing} (h : Along (Calm x hands) m) : Along (Abides q) m :=
  h.mono fun _ _ => Calm.abides

theorem abides_setNode (id : Handle) (n : Node σ) : Along (Abides q) (setNode id n : TreeM σ cmp Unit) :=
  fun _ => .of_rules rfl rfl

theorem abides_count (f : Stats → Stats) : Along (Abides q) (count f : TreeM σ cmp Unit) :=
  fun _ => .of_rules rfl rfl

theorem abides_create (bound estimate : Binary64) : Along (Abides q) (create bound estimate : TreeM σ cmp Handle) := by
  have hrecord : ∀ e, Along (Abides q) (record e : TreeM σ cmp Unit) := fun e t => .of_rules rfl rfl
  refine (along_read _).bind fun origin => along_get fun t => ?_
  dsimp only
  rw [ends_bind, ends_set]
  refine Along.after (R := Abides q) ?_ (.of_rules rfl rfl)
  exact (abides_count _).bind fun _ => (hrecord _).bind fun _ => along_pure _

theorem abides_requeue (id : Handle) (key : NodeKey) : Along (Abides q) (requeue id key : TreeM σ cmp Unit) := by
  intro t
  have hremove : Abides q t { t with frontier := (t.frontier.remove id).2 } := .of_request (.remove id) rfl rfl
  have hinsert : Abides q { t with frontier := (t.frontier.remove id).2 }
      { t with frontier := (t.frontier.remove id).2.insert id key } := .of_request (.insert id key) rfl rfl
  unfold requeue
  rw [ends_modify]
  dsimp only
  split
  · exact trans_of (Abides q) hremove hinsert
  · exact hremove

theorem abides_raise (id : Handle) (bound : Binary64) : Along (Abides q) (raise id bound : TreeM σ cmp Unit) := by
  refine (along_read _).bind fun n => ?_
  have hlift : Along (Abides q) (liftChildren bound : TreeM σ cmp Unit) :=
    along_get fun t => Along.forM (fun c => (along_read _).bind fun n => abides_setNode c _) _ t
  dsimp only
  split
  · exact along_pure _
  · refine (abides_setNode id _).bind fun _ => ?_
    split
    · exact abides_requeue id _
    · exact hlift
    · exact along_pure _

theorem Sweeps.abides (h : Sweeps t u) : Abides q t u :=
  have hcalm : Calm none .keeps t u := h.calm
  hcalm.abides

theorem abides_activate (target : Option Handle) :
    Along (Abides q) (activate target : TreeM σ cmp Activation) :=
  along_activate (fun _ _ _ => Calm.abides) (fun _ r => .of_request r rfl rfl) (fun _ _ _ _ _ _ => .of_rules rfl rfl)
    (fun _ _ _ => .of_rules rfl rfl) (fun _ _ _ => .of_rules rfl rfl) rfl target

theorem abides_perform (op : Op σ) : Along (Abides op.replacesPolicy) (op.perform : TreeM σ cmp Unit) := by
  have hqueue : ∀ (t : Tree σ cmp) (r : Frontier.Request),
      Abides false t { t with frontier := r.perform t.frontier } := fun _ r => .of_request r rfl rfl
  have hcalm : ∀ {m : TreeM σ cmp Unit}, Along (Calm none .deals) m → Along (Abides false) m := abides_of_calm
  cases op with
  | create bound estimate => exact (abides_create bound estimate).discard
  | changeBound id v side bound => exact hcalm (along_changeBound id v side bound).discard
  | constrain id c => exact hcalm (along_constrain id c)
  | raise id bound => exact abides_raise id bound
  | addColumn c => exact hcalm (along_addColumn c)
  | addRow r => exact hcalm (along_addRow r)
  | solve => exact hcalm along_solve.discard
  | activate target => exact (abides_activate target).discard
  | load => exact hcalm (along_load (q := .deals) nofun).discard
  | prune cutoff => exact (along_prune (fun _ _ => Sweeps.abides) hqueue cutoff).discard
  | free id => exact along_free (fun _ _ => Sweeps.abides) hqueue id
  | pop => exact (along_pop hqueue).discard
  | clear => exact along_clear (fun _ _ => Calm.abides) fun _ => .of_request .clear rfl rfl
  | setPolicy p => exact fun _ => ⟨rfl, nofun, [], rfl⟩

theorem settings_create (bound estimate : Binary64) : Along SameSettings (create bound estimate : TreeM σ cmp Handle) :=
  (abides_create (q := true) bound estimate).mono fun _ _ => Abides.settings

theorem settings_activate (target : Option Handle) : Along SameSettings (activate target : TreeM σ cmp Activation) :=
  (abides_activate (q := true) target).mono fun _ _ => Abides.settings

theorem settings_perform (op : Op σ) : Along SameSettings (op.perform : TreeM σ cmp Unit) :=
  (abides_perform op).mono fun _ _ => Abides.settings

end Programs

theorem settings_of_ofSettings {solver : σ} {domains : Domains} {settings : Settings}
    (h : ofSettings solver domains settings = .ok t) : t.settings = settings := by
  unfold ofSettings at h
  split at h
  · cases h
  · cases h
    rfl

theorem policy_of_ofSettings {solver : σ} {domains : Domains} {settings : Settings}
    (h : ofSettings solver domains settings = .ok t) : t.policy = settings.snapshot.policy := by
  unfold ofSettings at h
  split at h
  · cases h
  · cases h
    rfl

theorem run_settings (t : Tree σ cmp) (ops : List (Op σ)) : (t.run ops).settings = t.settings :=
  run_induction (P := SameSettings t) rfl
    (fun u op h => (Ends.left (P := SameSettings u) (settings_perform op u)).trans h) ops

end Tree

end BranchBound
