import BranchBound.Proofs.Constancy
import BranchBound.Proofs.Fidelity
import BranchBound.Proofs.Reconstruction

namespace BranchBound

variable {tol : Binary64} {vars : Array Interval} {cs : List BoundChange} {v : Nat}

theorem SameWrites.eq_of_noted {ds : List BoundChange} (h : SameWrites cs ds) (hc : Noted vars cs) (hd : Noted vars ds) :
    cs = ds := by
  induction cs generalizing ds vars with
  | nil => exact (List.map_eq_nil_iff.1 h.symm).symm
  | cons c cs ih =>
      obtain ⟨d, ds', rfl, he, hs⟩ := List.map_eq_cons_iff.1 h.symm
      obtain ⟨⟨x, hx, hold⟩, hrest⟩ := hc
      obtain ⟨⟨y, hy, hold'⟩, hrest'⟩ := hd
      simp only [Prod.mk.injEq] at he
      obtain ⟨hvar, hside, hnew⟩ := he
      rw [hvar, hx] at hy
      cases hy
      rw [hvar, hside, hnew] at hrest'
      rw [ih hs.symm hrest hrest']
      congr 1
      cases c
      cases d
      simp_all

namespace Outcome

theorem var?_all (os : List Outcome) : (all os).var? = os.findSome? var? := by
  induction os using List.reverseRecOn with
  | nil => rfl
  | append_singleton os o ih =>
      rw [all_concat, List.findSome?_append, ← ih]
      cases all os <;> cases o <;> rfl

theorem activation_eq (id : Handle) (o : Outcome) :
    o.activation id = o.var?.elim (.activated id) (.cutoff id) := by
  cases o <;> rfl

end Outcome

structure Answer where
  var : Nat
  side : Side
  bound : Binary64
  outcome : Outcome

def Answer.asked (a : Answer) : Nat × Side × Binary64 := (a.var, a.side, a.bound)

/-- What was told of a node's bound changes, in order, and whether the active node has got one since the first. -/
structure Forecast where
  answers : List Answer
  isStale : Bool

namespace Forecast

variable {f : Forecast} {a : Answer} {x : Interval}

def blank : Forecast := ⟨[], false⟩

def add (f : Forecast) (a : Answer) : Forecast := { f with answers := f.answers ++ [a] }

def unsettle (f : Forecast) : Forecast := { f with isStale := f.isStale || !f.answers.isEmpty }

def emptyVar? (f : Forecast) : Option Nat := f.answers.findSome? fun a => a.outcome.var?

/-- The changes are those asked for. Unless the forecast is stale, they have noted what they will replace, and the
verdict on them is the one that was told. -/
structure Accurate (tol : Binary64) (f : Forecast) (vars : Array Interval) (cs : List BoundChange) : Prop where
  asked : cs.map (fun c => (c.var, c.side, c.new)) = f.answers.map Answer.asked
  noted : f.isStale = false → Noted vars cs
  verdict : f.isStale = false → verdict tol vars cs = .all (f.answers.map Answer.outcome)

theorem Accurate.blank : Accurate tol .blank vars [] := ⟨rfl, fun _ => trivial, fun _ => rfl⟩

theorem answers_of_unsettle (h : f.unsettle.isStale = false) : f.answers = [] := by
  simp only [unsettle, Bool.or_eq_false_iff, Bool.not_eq_false', List.isEmpty_iff] at h
  exact h.2

/-- Changed bounds matter only where something was told. -/
theorem Accurate.unsettle {vars' : Array Interval} (h : f.Accurate tol vars cs) : f.unsettle.Accurate tol vars' cs := by
  have hnil : f.unsettle.isStale = false → f.answers = [] ∧ cs = [] := by
    intro hs
    have hanswers := answers_of_unsettle hs
    exact ⟨hanswers, List.map_eq_nil_iff.1 (by rw [h.asked, hanswers]; rfl)⟩
  refine ⟨h.asked, fun hs => ?_, fun hs => ?_⟩
  · rw [(hnil hs).2]
    trivial
  · rw [(hnil hs).2, show f.unsettle.answers = [] from (hnil hs).1]
    rfl

theorem Accurate.add {log : ChangeLog} {side : Side} {bound : Binary64} (h : f.Accurate tol vars log.changes)
    (hx : vars[v]? = some x) :
    (f.add ⟨v, side, bound, ((log.overlay v x).setBound side bound).outcome v tol⟩).Accurate tol vars
      (log.changes ++ [⟨v, side, (log.overlay v x).bound side, bound⟩]) := by
  have hy : (written vars log.changes)[v]? = some (log.overlay v x) := by
    rw [log.getElem?_written, hx]
    rfl
  refine ⟨?_, fun hs => noted_append.2 ⟨h.noted hs, ⟨_, hy, rfl⟩, trivial⟩, fun hs => ?_⟩
  · rw [Forecast.add, List.map_append, List.map_append, h.asked]
    rfl
  · rw [verdict_concat hy, h.verdict hs, Forecast.add, List.map_append]
    exact (Outcome.all_concat _ _).symm

end Forecast

variable {σ α : Type} [Solver σ] {cmp : NodeOrder}

namespace Tree

variable {K : Charge σ} {start : Array Interval} {t u : Tree σ cmp} {c id : Handle} {n m : Node σ} {f : Forecast}

def foretell (c : Handle) (f : Forecast) (t : Tree σ cmp) : Op σ → Forecast
  | .create bound estimate => match create bound estimate t with
      | .ok id _ => if id = c then .blank else f
      | .error _ _ => f
  | .changeBound id v side bound => match changeBound id v side bound t with
      | .ok o _ => if id = c then f.add ⟨v, side, bound, o⟩ else if t.active = some id then f.unsettle else f
      | .error _ _ => f
  | _ => f

def forecast (c : Handle) (f : Forecast) (t : Tree σ cmp) : List (Op σ) → Forecast
  | [] => f
  | op :: ops => forecast c (foretell c f t op) (left op.perform t) ops

/-- As long as `c` is a Child, the account is right. -/
def Foretold (c : Handle) (f : Forecast) (t : Tree σ cmp) : Prop :=
  ∀ n, t.nodes.get? c = some n → n.role.name = .child →
    f.Accurate t.settings.tol t.domains.vars n.log.changes

def KeepsChanges (n m : Node σ) : Prop := m.log.changes = n.log.changes

structure SameLogs (t u : Tree σ cmp) : Prop where
  nodes : Carried KeepsChanges t.nodes u.nodes
  vars : u.domains.vars = t.domains.vars

section SameLogs

theorem SameLogs.of_eq (hn : u.nodes = t.nodes) (hv : u.domains.vars = t.domains.vars) : SameLogs t u :=
  ⟨fun _ m hm => ⟨m, hn ▸ hm, rfl⟩, hv⟩

instance : IsPreorder (Tree σ cmp) SameLogs where
  refl _ := .of_eq rfl rfl
  trans _ _ _ h h' := ⟨h.nodes.trans (S := KeepsChanges) (fun _ _ _ h h' => Eq.trans h' h) h'.nodes, h'.vars.trans h.vars⟩

theorem SameLogs.set (hn : t.nodes.get? id = some n) (hm : m.log.changes = n.log.changes) :
    SameLogs t { t with nodes := t.nodes.set id m } :=
  ⟨.set (R := KeepsChanges) (fun _ => rfl) hn hm, rfl⟩

theorem Kept.sameLogs {gone : List Handle} (h : Kept gone t u) : SameLogs t u :=
  ⟨h.nodes.mono fun _ _ => Kin.changes, by rw [h.domains]⟩

theorem Stranded.sameLogs (h : Stranded t u) : SameLogs t u := by
  obtain ⟨hvars⟩ := h
  exact .of_eq rfl hvars

theorem Reloads.sameLogs (h : Reloads t u) : SameLogs t u := by
  obtain ⟨target, t₁, -, hrun, hdone, hdomains⟩ := h
  refine ⟨?_, ?_⟩
  · rw [← ((rebuildPath_alone t target).of_ok hrun).alike.nodes]
    exact hdone.nodes.mono fun _ _ => Kin.changes
  · rw [hdomains]
    split
    · rfl
    · exact Domains.vars_touchAll _

theorem sameLogs_constrain (id : Handle) (x : Nat) : Along SameLogs (constrain id x : TreeM σ cmp Unit) := by
  apply along_node
  intro t n hn
  split
  · exact .set hn rfl
  · exact .set hn rfl
  · exact along_throw _ t

theorem sameLogs_raise (id : Handle) (bound : Binary64) : Along SameLogs (raise id bound : TreeM σ cmp Unit) := by
  have hlift : Along SameLogs (liftChildren bound : TreeM σ cmp Unit) := by
    refine along_get fun t => Along.forM (fun c => ?_) _ t
    apply along_node
    intro t n hn
    exact SameLogs.set hn rfl
  apply along_node
  intro t n hn
  dsimp only
  split
  · exact along_pure () t
  · rw [ends_bind, ends_setNode]
    have hset : SameLogs t { t with nodes := t.nodes.set id { n with lowerBound := bound } } := .set hn rfl
    split
    · exact ⟨hset.nodes, hset.vars⟩
    · exact hlift.after hset
    · exact hset

theorem sameLogs_onLp (act : RelaxationM σ α) : Along SameLogs (onLp act : TreeM σ cmp α) := fun t =>
  ends_onLp.2 ((ends_trivial act t.lp).mono (fun _ _ _ => .of_eq rfl rfl) fun _ _ _ => .of_eq rfl rfl)

theorem sameLogs_requireLoaded (work : LoadedWork) : Along SameLogs (requireLoaded work : TreeM σ cmp Unit) := by
  refine along_get fun t => ?_
  split
  · exact along_pure _ t
  · exact along_throw _ t

theorem sameLogs_addColumn (x : Solver.Column σ) : Along SameLogs (addColumn x : TreeM σ cmp Unit) :=
  (sameLogs_requireLoaded _).bind fun _ => (sameLogs_onLp _).bind fun _ _ => .of_eq rfl (Domains.vars_enqueue _ _)

theorem sameLogs_addRow (x : Solver.Row σ) : Along SameLogs (addRow x : TreeM σ cmp Unit) :=
  (sameLogs_requireLoaded _).bind fun _ => sameLogs_onLp _

theorem sameLogs_solve : Along SameLogs (solve : TreeM σ cmp SolveStatus) := by
  have hsend : Along SameLogs (sendTouched : TreeM σ cmp Unit) := by
    refine along_get fun t => ?_
    rw [ends_bind, ends_set]
    exact (Along.forM (fun v => (along_read _).bind fun _ => sameLogs_onLp _) _).after (SameLogs.of_eq rfl rfl)
  refine (sameLogs_requireLoaded _).bind fun _ => hsend.bind fun _ => (sameLogs_onLp _).bind fun status t => ?_
  simp only [ends_bind, ends_modify, ends_get, ends_record, ends_pure]
  exact .of_eq rfl rfl

theorem load_sameLogs (h : Resting (fun _ _ => True) start t) :
    Ends load t (fun _ => SameLogs t) fun _ => SameLogs t := by
  refine (load_spec Upkeep.nothing.toRebuilding h).mono ?_ ?_
  · rintro (_ | _ | _) u ⟨-, hends⟩
    · exact hends.2.sameLogs
    · obtain rfl : u = t := hends
      exact refl_of SameLogs _
    · exact Kept.sameLogs hends
  · rintro e u (⟨rfl, -⟩ | ⟨-, -, hfails⟩)
    · exact refl_of SameLogs _
    · exact hfails.stranded.sameLogs

end SameLogs

theorem Moves.pauses_of {op : Op σ} (h : Moves op t u) (hlogs : SameLogs t u) (hop : ∀ target, op ≠ .activate target) :
    Pauses t u := by
  cases h with
  | pauses h => exact h
  | creates id m hj =>
      obtain ⟨n, hn, -⟩ := hlogs.nodes id m hj.self
      cases hj.vacant.symm.trans hn
  | turns target _ h => exact absurd h (hop target)

theorem Foretold.carry (h : Foretold c f t) (hp : Pauses t u) (hl : SameLogs t u) (hs : SameSettings t u) :
    Foretold c f u := by
  intro m hm hr
  obtain ⟨n, hn, hidles⟩ := hp.nodes c m hm
  obtain ⟨n', hn', hlog⟩ := hl.nodes c m hm
  cases hn.symm.trans hn'
  rw [show u.settings = t.settings from hs, hl.vars, show m.log.changes = n.log.changes from hlog]
  exact h n hn (hidles.name ▸ hr)

theorem Foretold.sprouts (h : Foretold c f t) (hsprouts : Sprouts t u id) (hs : SameSettings t u) :
    Foretold c (if id = c then .blank else f) u := by
  obtain ⟨o, hj, -⟩ := hsprouts.joined
  intro m hm hr
  split
  · rename_i hid
    rw [hsprouts.unlogged m (hid ▸ hm)]
    exact .blank
  · rename_i hid
    rw [show u.settings = t.settings from hs, hsprouts.domains]
    refine h m ?_ hr
    rw [hj.get] at hm
    rwa [if_neg fun he => hid he.symm] at hm

/-- What is told of a Child's change is added to the account, and the active node's changes unsettle it. -/
theorem Foretold.changes (h : Foretold c f t) (ht : Resting K start t) {v : Nat} {side : Side} {bound : Binary64}
    {o : Outcome} (hc : Changes t id v side bound o u) :
    Foretold c (if id = c then f.add ⟨v, side, bound, o⟩ else if t.active = some id then f.unsettle else f) u := by
  intro m hm hr
  cases hc with
  | @active n x w hn hrole hx =>
      have hactive : t.active = some id := (ht.acting id).2 ⟨n, hn, by rw [hrole]; rfl⟩
      change (t.nodes.set id _).get? c = some m at hm
      rw [Arena.get?_set] at hm
      by_cases hid : c = id
      · subst hid
        rw [if_pos rfl, hn] at hm
        cases hm
        cases hr.symm.trans (congrArg Role.name hrole)
      · rw [if_neg hid] at hm
        rw [if_neg (Ne.symm hid), if_pos hactive]
        exact (h m hm hr).unsettle
  | @child n x hn hname hx =>
      change (t.nodes.set id _).get? c = some m at hm
      rw [Arena.get?_set] at hm
      by_cases hid : c = id
      · subst hid
        rw [if_pos rfl, hn] at hm
        cases hm
        rw [if_pos rfl]
        exact (h n hn hname).add hx
      · have hidle : t.active ≠ some id := by
          intro hactive
          obtain ⟨o, ho, hact⟩ := (ht.acting id).1 hactive
          cases hn.symm.trans ho
          cases hname.symm.trans hact
        rw [if_neg hid] at hm
        rw [if_neg (Ne.symm hid), if_neg hidle]
        exact h m hm hr

theorem create_foretells (h : Resting (fun _ _ => True) start t) (hf : Foretold c f t) (bound estimate : Binary64) :
    Ends (create bound estimate) t (fun _ => Foretold c (foretell c f t (.create bound estimate)))
      fun _ => Foretold c (foretell c f t (.create bound estimate)) := by
  refine (((create_spec Upkeep.nothing.toCustody h bound estimate).and (settings_create bound estimate t)).and
    (ends_run _ t)).mono ?_ ?_
  · rintro id u ⟨⟨⟨-, hsprouts⟩, hset⟩, hrun⟩
    simp only [foretell, hrun]
    exact hf.sprouts hsprouts hset
  · rintro e u ⟨⟨⟨rfl, -⟩, -⟩, hrun⟩
    simp only [foretell, hrun]
    exact hf

theorem changeBound_foretells (h : Resting (fun _ _ => True) start t) (hf : Foretold c f t) (id : Handle) (v : Nat)
    (side : Side) (bound : Binary64) :
    Ends (changeBound id v side bound) t (fun _ => Foretold c (foretell c f t (.changeBound id v side bound)))
      fun _ => Foretold c (foretell c f t (.changeBound id v side bound)) := by
  refine ((changeBound_cases h id v side bound).and (ends_run _ t)).mono ?_ ?_
  · rintro o u ⟨hchanges, hrun⟩
    simp only [foretell, hrun]
    exact hf.changes h hchanges
  · rintro e u ⟨⟨rfl, -⟩, hrun⟩
    simp only [foretell, hrun]
    exact hf

theorem activate_foretells (h : Resting (fun _ _ => True) start t) (hf : Foretold c f t) (target : Option Handle) :
    Ends (activate target) t (fun _ => Foretold c f) fun _ => Foretold c f := by
  refine ((activate_cases Upkeep.nothing.toCustody h target).and (settings_activate target t)).mono ?_ ?_
  · rintro a u ⟨⟨-, rfl, -⟩ | ⟨-, -, harrives, -⟩, -⟩
    · exact hf
    · exact fun m hm hr => absurd hr (harrives.childless c m hm)
  · rintro e u ⟨⟨id, -, -, rfl, -⟩ | hbalks, hset⟩
    · exact hf
    · exact hf.carry hbalks.pauses hbalks.kept.sameLogs hset

theorem perform_foretells (h : Resting (fun _ _ => True) start t) (hf : Foretold c f t) (op : Op σ) :
    Foretold c (foretell c f t op) (left op.perform t) := by
  have hK : Upkeep (σ := σ) (fun _ _ => True) (fun _ _ => True) := .nothing
  have hsettings : SameSettings t (left op.perform t) := Ends.left (settings_perform op t)
  have hmoves := perform_moves h op
  have hkeeps : foretell c f t op = f → (∀ target, op ≠ .activate target) →
      Ends op.perform t (fun _ => SameLogs t) (fun _ => SameLogs t) →
      Foretold c (foretell c f t op) (left op.perform t) := by
    intro hsame hop hlogs
    rw [hsame]
    exact hf.carry (hmoves.pauses_of hlogs.left hop) hlogs.left hsettings
  have hqueue : ∀ (t : Tree σ cmp) (r : Frontier.Request), SameLogs t { t with frontier := r.perform t.frontier } :=
    fun _ _ => .of_eq rfl rfl
  cases op with
  | create bound estimate =>
      exact Ends.left (P := Foretold c _) (ends_discard.2 (create_foretells h hf bound estimate))
  | changeBound id v side bound =>
      exact Ends.left (P := Foretold c _) (ends_discard.2 (changeBound_foretells h hf id v side bound))
  | constrain id x => exact hkeeps rfl nofun (sameLogs_constrain id x t)
  | raise id bound => exact hkeeps rfl nofun (sameLogs_raise id bound t)
  | addColumn x => exact hkeeps rfl nofun (sameLogs_addColumn x t)
  | addRow x => exact hkeeps rfl nofun (sameLogs_addRow x t)
  | solve => exact hkeeps rfl nofun (sameLogs_solve.discard t)
  | activate target => exact Ends.left (P := Foretold c f) (ends_discard.2 (activate_foretells h hf target))
  | load => exact hkeeps rfl nofun (ends_discard.2 (load_sameLogs h))
  | prune cutoff =>
      refine hkeeps rfl nofun (ends_discard.2 ((prune_spec hK.toCustody h cutoff).mono ?_ fun _ _ h => h.elim))
      rintro _ u ⟨-, gone, hkept⟩
      exact hkept.sameLogs
  | free id =>
      refine hkeeps rfl nofun ((free_spec hK.toCustody h id).mono ?_ ?_)
      · rintro _ u ⟨-, gone, hkept⟩
        exact hkept.sameLogs
      · rintro e u ⟨rfl, -⟩
        exact refl_of SameLogs _
  | pop => exact hkeeps rfl nofun ((along_pop hqueue).discard t)
  | clear =>
      have hvacant : ∀ {u : Tree σ cmp}, Vacant u → Foretold c f u := fun hv m hm => nomatch (hv.nodes c).symm.trans hm
      exact Ends.left (P := Foretold c f) ((clear_spec hK.toRebuilding h).mono (fun _ _ h => hvacant h.2.1.toVacant)
        fun _ _ h => hvacant h.2.2.toVacant)
  | setPolicy p => exact hkeeps rfl nofun (.of_eq rfl rfl)

theorem run_foretells (h : Resting (fun _ _ => True) start t) (hf : Foretold c f t) (ops : List (Op σ)) :
    Foretold c (forecast c f t ops) (t.run ops) := by
  induction ops generalizing t f with
  | nil => exact hf
  | cons op ops ih => exact ih (run_resting .nothing h [op]) (perform_foretells h hf op)

section Arrival

theorem climb_of_evolves {a b : Arena (Node σ)} {x y : Option Handle} {l : List Handle} (hc : Carried Evolves a b)
    (h : Climb b x l y) : Climb a x l y := by
  induction h with
  | done => exact .done
  | step hm _ ih =>
      obtain ⟨n, hn, hevolves⟩ := hc _ _ hm
      exact .step hn (hevolves.parent ▸ ih)

theorem Arrives.path_of_child (h : Resting K start t) (hu : Arrives K start t u (some c))
    (hn : t.nodes.get? c = some n) (hr : n.role.name = .child) :
    u.path = t.path ++ [c] := by
  obtain ⟨t₁, -, hadvances, hpersists⟩ := hu.turn
  have hevolves : Carried Evolves t.nodes u.nodes :=
    hadvances.trans (S := Persists) (fun _ _ _ h h' => h.toEvolves.trans h'.toEvolves) hpersists
  obtain ⟨-, -, -, -, hfollowed⟩ := hu.switched
  obtain ⟨i, hi⟩ := exists_staged .children hr
  obtain ⟨-, n', hn', -, hparent⟩ := h.places.listed .children i c (h.places.placed c n .children i hn hi List.not_mem_nil)
  cases hn.symm.trans hn'
  have hup := climb_of_evolves hevolves (hfollowed.active ▸ hu.resting.ancestry)
  have hchild : Climb t.nodes (some c) (c :: t.path.reverse) none := by
    refine .step hn ?_
    rw [hparent]
    exact h.active_eq ▸ h.ancestry
  have heq := congrArg List.reverse (hup.unique hchild rfl)
  rwa [List.reverse_reverse, List.reverse_cons, List.reverse_reverse] at heq

theorem Decides.kept_of_child {a : Activation} {k : Nat} (hd : Decides start t u c a k)
    (hpath : u.path = t.path ++ [c]) : k = t.path.length := by
  have hlength : u.path.length = t.path.length + 1 := by simpa using congrArg List.length hpath
  have hkept := congrArg List.length hd.kept
  simp only [List.length_take, hlength] at hkept
  refine Nat.le_antisymm (by omega) (Nat.not_lt.1 fun hlt => ?_)
  refine hd.entered t.path[k] ?_ (List.getElem_mem hlt)
  rw [hpath, List.drop_append_of_le_length (Nat.le_of_lt hlt), List.drop_eq_getElem_cons hlt]
  exact List.mem_cons_self

theorem Decides.of_child {a : Activation} {k : Nat} (h : Resting K start t) (hu : Arrives K start t u (some c))
    (hd : Decides start t u c a k) (hn : t.nodes.get? c = some n) (hr : n.role.name = .child) :
    a = (verdict u.settings.tol t.domains.vars n.log.changes).activation c ∧
      ∃ m, u.nodes.get? c = some m ∧ SameWrites m.log.changes n.log.changes ∧ Noted t.domains.vars m.log.changes := by
  have hpath := hu.path_of_child h hn hr
  obtain rfl := hd.kept_of_child hpath
  have htake : u.path.take t.path.length = t.path := by rw [hpath, List.take_left]
  have hdrop : u.path.drop t.path.length = [c] := by rw [hpath, List.drop_left]
  have hlive : ∀ k ∈ u.path, ∃ m, u.nodes.get? k = some m := fun _ => hu.resting.walk.live_of_mem
  obtain ⟨m, hm⟩ := hlive c (List.mem_of_mem_drop (hdrop ▸ List.mem_singleton_self c))
  obtain ⟨n', hn', hwrites⟩ := hd.writes c m hm
  cases hn.symm.trans hn'
  have habove : SameWrites (changesAlong u.nodes t.path) (changesAlong t.nodes t.path) :=
    changesAlong_sameWrites hd.writes fun k hk => hlive k (List.mem_of_mem_take (htake.symm ▸ hk))
  have hvars := (habove.written start).trans h.inForce.vars_eq.symm
  have hlog : changesAlong u.nodes (u.path.drop t.path.length) = m.log.changes := by
    rw [hdrop]
    exact changesAlong_concat [] hm
  refine ⟨?_, m, hm, hwrites, ?_⟩
  · rw [hd.activation, judge, htake, hvars, hlog, hwrites.verdict]
  · have hnoted := hu.resting.inForce.noted
    rw [← List.take_append_drop t.path.length u.path, changesAlong_append, noted_append, htake, hvars, hlog] at hnoted
    exact hnoted.2

end Arrival

/-- A Child is activated with the outcome told of its changes: the first empty domain makes it a cutoff. Its log has
noted beforehand what it replaces. It takes that the active node has got no bound change since the Child's first. -/
theorem activation_foretold {solver : σ} {domains : Domains} {settings : Settings} {t₀ : Tree σ cmp}
    (h₀ : ofSettings solver domains settings = .ok t₀) (ops : List (Op σ)) {c : Handle} {n : Node σ}
    (hn : (t₀.run ops).nodes.get? c = some n) (hchild : n.role.name = .child)
    (hfresh : (forecast c .blank t₀ ops).isStale = false) :
    n.log.changes.map (fun e => (e.var, e.side, e.new)) = (forecast c .blank t₀ ops).answers.map Answer.asked ∧
      (n.log.apply settings.tol (t₀.run ops).domains).1 = n.log ∧
      (∀ a u, activate (some c) (t₀.run ops) = .ok a u →
        a = (forecast c .blank t₀ ops).emptyVar?.elim (.activated c) (.cutoff c) ∧
        ∃ m, u.nodes.get? c = some m ∧ m.log.changes = n.log.changes) ∧
      ∀ e u, activate (some c) (t₀.run ops) = .error e u → ∃ e', e = .solver e' := by
  have h := resting_of_ofSettings (K := fun _ _ => True) h₀ trivial
  have hr := run_resting Upkeep.nothing h ops
  have htol : (t₀.run ops).settings.tol = settings.tol := by rw [run_settings, settings_of_ofSettings h₀]
  have htold := run_foretells h (f := .blank) (c := c)
    (fun m hm => nomatch ((vacant_of_ofSettings h₀).1.nodes c).symm.trans hm) ops n hn hchild
  rw [htol] at htold
  generalize forecast c .blank t₀ ops = f at *
  generalize t₀.run ops = t at *
  have hnoted := htold.noted hfresh
  have hidle : t.active ≠ some c := by
    intro hactive
    obtain ⟨o, ho, hact⟩ := (hr.acting c).1 hactive
    cases hn.symm.trans ho
    cases hchild.symm.trans hact
  have hcases := activate_cases Upkeep.nothing.toCustody hr (some c)
  refine ⟨htold.asked, ?_, fun a u hrun => ?_, fun e u hrun => ?_⟩
  · obtain ⟨-, -, happlied, hwrites, hsealed⟩ := n.log.apply_noted settings.tol (hr.logs.inRange c n · hn)
    calc
      _ = { n.log with changes := (n.log.apply settings.tol t.domains).1.changes } := rfl
      _ = n.log := by rw [hwrites.eq_of_noted happlied hnoted]
  · obtain ⟨-, -, -, hactive⟩ | ⟨-, -, harrives, hdecided⟩ := hcases.of_ok hrun
    · exact absurd hactive hidle
    · obtain ⟨k, hdecides⟩ := hdecided c rfl
      obtain ⟨ha, m, hm, hwrites, hnoted'⟩ := hdecides.of_child hr harrives hn hchild
      have hsame : u.settings = t.settings := (settings_activate (some c) t).of_ok hrun
      rw [hsame, htol, htold.verdict hfresh, Outcome.activation_eq, Outcome.var?_all, List.findSome?_map] at ha
      exact ⟨ha, m, hm, hwrites.eq_of_noted hnoted' hnoted⟩
  · obtain ⟨_, ⟨⟩, -, -, hrejects⟩ | hbalks := hcases.of_error hrun
    · cases hrejects with
      | unknown hnone => cases hn.symm.trans hnone
      | misuse hn' hmisuse =>
          cases hn.symm.trans hn'
          rw [activateMisuse?, hchild] at hmisuse
          cases hmisuse
    · exact hbalks.solver

/-- Of four changes, one with a bound that is not a number, the first and the third empty a domain, and two are taken
back. The first decides. -/
theorem activation_foretold_after_widening :
    ∃ t₀ : Tree ScriptedSolver SelectionRule.bestBound.order,
      ofSettings .fresh (.ofIntervals [⟨0, 10⟩, ⟨0, 10⟩]) {} = .ok t₀ ∧
      let ops : List (Op ScriptedSolver) := [.create 0 0, .activate (some ⟨0, 0⟩), .changeBound ⟨0, 0⟩ 0 .upper 8,
        .create 0 0, .changeBound ⟨1, 0⟩ 1 .lower 20, .changeBound ⟨1, 0⟩ 1 .lower 5,
        .changeBound ⟨1, 0⟩ 0 .lower 9, .changeBound ⟨1, 0⟩ 0 .upper .nan]
      let t := t₀.run ops
      let f := forecast ⟨1, 0⟩ .blank t₀ ops
      f.isStale = false ∧
        f.answers.map Answer.outcome = [.infeasible 1, .feasible, .infeasible 0, .feasible] ∧
        returns (activate (some ⟨1, 0⟩)) t (.cutoff ⟨1, 0⟩ 1) = true ∧
        f.emptyVar?.elim (.activated ⟨1, 0⟩) (.cutoff ⟨1, 0⟩) = Activation.cutoff ⟨1, 0⟩ 1 ∧
        ∃ n m, t.nodes.get? ⟨1, 0⟩ = some n ∧ n.role.name = .child ∧
          n.log.changes.map (fun e => (e.var, e.side, e.new)) = f.answers.map Answer.asked ∧
          (n.log.apply ({} : Settings).tol t.domains).1 = n.log ∧
          (left (activate (some ⟨1, 0⟩)) t).nodes.get? ⟨1, 0⟩ = some m ∧ m.log.changes = n.log.changes := by
  refine ⟨_, rfl, ?_⟩
  intro ops t f
  have hfresh : f.isStale = false := by decide +kernel
  have hreturns : returns (activate (some ⟨1, 0⟩)) t (.cutoff ⟨1, 0⟩ 1) = true := by decide +kernel
  have hname : (t.nodes.get? ⟨1, 0⟩).map (·.role.name) = some .child := by decide +kernel
  obtain ⟨n, hn, hchild⟩ := Option.map_eq_some_iff.1 hname
  obtain ⟨hasked, hnoted, hends, -⟩ := @activation_foretold ScriptedSolver _ SelectionRule.bestBound.order .fresh
    (.ofIntervals [⟨0, 10⟩, ⟨0, 10⟩]) {} _ rfl ops ⟨1, 0⟩ n hn hchild hfresh
  obtain ⟨hanswer, m, hm, hsame⟩ := hends _ _ (eq_ok_of_returns hreturns)
  exact ⟨hfresh, by decide +kernel, hreturns, hanswer.symm, n, m, hn, hchild, hasked, hnoted, hm, hsame⟩

end Tree

end BranchBound
