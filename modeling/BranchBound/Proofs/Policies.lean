import BranchBound.Proofs.Fidelity
import BranchBound.Proofs.Pairing
import BranchBound.Proofs.Replies

namespace BranchBound

variable {σ : Type} [Solver σ] {cmp : NodeOrder}

inductive Op.Like : Op σ → Op σ → Prop
  | same (op : Op σ) : Like op op
  | policies (p q : SnapshotPolicy) : Like (.setPolicy p) (.setPolicy q)

theorem Role.isSnapshot_of_outline {r s : Role (Consulted σ)} (h : r.outline = s.outline) :
    r.isSnapshot = s.isSnapshot := snapshot?_of_outline h

namespace Tree

variable {start : Array Interval} {held : Handle → Contents (Consulted σ)} {t u : Tree (Consulted σ) cmp}

section Step

theorem Twin.refl (t : Tree (Consulted σ) cmp) : Twin t t :=
  ⟨rfl, rfl, rfl, rfl, rfl, rfl, rfl, rfl, rfl, rfl, rfl, rfl, rfl, rfl, rfl, rfl, rfl⟩

theorem Twin.nearest (h : Twin t u) {x g : Option Handle} (hg : Nearest t.nodes Role.isSnapshot x g) :
    Nearest u.nodes Role.isSnapshot x g := by
  have hlook : ∀ {id n}, t.nodes.get? id = some n → ∃ m, u.nodes.get? id = some m ∧ n.outline = m.outline := by
    intro id n hn
    have hid := h.get? id
    rw [hn] at hid
    obtain ⟨m, hm, hout⟩ := Option.map_eq_some_iff.1 hid.symm
    exact ⟨m, hm, hout.symm⟩
  induction hg with
  | top => exact .top
  | here hn hq =>
      obtain ⟨m, hm, hout⟩ := hlook hn
      exact .here hm (Role.isSnapshot_of_outline (congrArg NodeOutline.role hout) ▸ hq)
  | above hn hq _ ih =>
      obtain ⟨m, hm, hout⟩ := hlook hn
      rw [show Node.parent _ = m.parent from congrArg NodeOutline.parent hout] at ih
      exact .above hm (Role.isSnapshot_of_outline (congrArg NodeOutline.role hout) ▸ hq) ih

/-- Twins between two operations, with one memory of what was left. -/
structure Coupled (start : Array Interval) (held : Handle → Contents (Consulted σ)) (t u : Tree (Consulted σ) cmp) :
    Prop extends Twin t u where
  restingLeft : Resting (fun _ _ => True) start t
  restingRight : Resting (fun _ _ => True) start u
  tracksLeft : Tracks held t
  tracksRight : Tracks held u

theorem Coupled.sizes_eq (h : Coupled start held t u) : t.sizes = u.sizes := by
  refine List.ext_getElem h.sized fun i hi hi' => ?_
  have hplace : i < t.path.length := h.restingLeft.sized ▸ hi
  have hget := List.getElem?_eq_getElem hplace
  obtain ⟨n, hn⟩ := h.restingLeft.walk.live_of_mem (List.getElem_mem hplace)
  obtain ⟨g, hg⟩ := h.restingLeft.forest.exists_nearest (q := Role.isSnapshot) (live_some hn)
  have hleft := h.tracksLeft.measured i _ g hget hg
  have hright := h.tracksRight.measured i _ g (h.path ▸ hget) (h.toTwin.nearest hg)
  rw [List.getElem?_eq_getElem hi] at hleft
  rw [List.getElem?_eq_getElem hi', ← hleft] at hright
  exact (Option.some.inj hright).symm

theorem Coupled.abreast (h : Coupled start held t u) : Abreast (fun _ _ => True) start t u :=
  ⟨h.toTwin, h.restingLeft, h.restingRight, h.sizes_eq⟩

theorem Coupled.answer (h : Coupled start held t u) (op : Op (Consulted σ)) :
    Agree TreeError.IsSolver (fun e t f u => e.plain = f.plain ∧ Twin t u) op.answer t op.answer u
      fun a t b u => (∀ x y, a = .solved x → b = .solved y → x = y) → a = b ∧ Twin t u := by
  have ht := h.toTwin
  have hK := (Upkeep.nothing (σ := Consulted σ)).toCustody
  have hpaired : ∀ {α : Type} {f : α → Reply} {act : TreeM (Consulted σ) cmp α}, Paired Eq act t act u →
      Agree TreeError.IsSolver (fun e t f u => e.plain = f.plain ∧ Twin t u) (f <$> act) t (f <$> act) u
        fun a t b u => (∀ x y, a = .solved x → b = .solved y → x = y) → a = b ∧ Twin t u :=
    fun hact => hact.map fun _ _ _ _ g _ => ⟨congrArg _ g.1, g.2⟩
  cases op with
  | create bound estimate => exact hpaired (twinned_create bound estimate t u ht)
  | changeBound id v side bound => exact hpaired (twinned_changeBound id v side bound t u ht)
  | constrain id c => exact hpaired (twinned_constrain id c t u ht)
  | raise id bound => exact hpaired (twinned_raise id bound t u ht)
  | addColumn c => exact hpaired (twinned_addColumn (σ := σ) c t u ht)
  | addRow r => exact hpaired (twinned_addRow (σ := σ) r t u ht)
  | solve =>
      refine (paired_solve ht).map fun x _ y _ g hsame => ?_
      have hxy : x = y := hsame x y rfl rfl
      exact ⟨congrArg _ hxy, g hxy⟩
  | activate target => exact hpaired (paired_activate hK h.abreast target)
  | load => exact hpaired (paired_load h.abreast h.tracksLeft.toRemembers h.tracksRight.toRemembers)
  | prune cutoff => exact hpaired (twinned_prune cutoff t u ht)
  | free id => exact hpaired (twinned_free id t u ht)
  | pop => exact hpaired (twinned_pop t u ht)
  | clear => exact hpaired (twinned_clear t u ht)
  | setPolicy p => exact hpaired (twinned_setPolicy p p t u ht)

theorem Coupled.perform (h : Coupled start held t u) {op op' : Op (Consulted σ)}
    (ht : Twin (left op.perform t) (left op'.perform u)) :
    Coupled start (noteChange held t (left op.perform t)) (left op.perform t) (left op'.perform u) := by
  have hcontents : t.lp.contents = u.lp.contents := by
    unfold Relaxation.contents
    rw [h.columns, h.rows]
  have hsame : noteChange held t (left op.perform t) = noteChange held u (left op'.perform u) := by
    unfold noteChange
    rw [h.active, hcontents, ht.active]
  -- Each run keeps track by itself. That both remember the same is what makes their reloads meet.
  obtain ⟨hr, htracks⟩ := perform_follows h.tracksLeft h.restingLeft op
  obtain ⟨hr', htracks'⟩ := perform_follows h.tracksRight h.restingRight op'
  exact ⟨ht, hr, hr', htracks, hsame ▸ htracks'⟩

theorem Coupled.step (h : Coupled start held t u) {op op' : Op (Consulted σ)} (hop : Op.Like op op')
    (hl : ∀ e, result op.answer t ≠ .error (.solver e)) (hr : ∀ e, result op'.answer u ≠ .error (.solver e))
    (hsame : ∀ x y, result op.answer t = .ok (.solved x) → result op'.answer u = .ok (.solved y) → x = y) :
    (result op.answer t).mapError TreeError.plain = (result op'.answer u).mapError TreeError.plain ∧
      ∃ held', Coupled start held' (left op.perform t) (left op'.perform u) := by
  have hagree : Agree TreeError.IsSolver (fun e t f u => e.plain = f.plain ∧ Twin t u) op.answer t op'.answer u
      fun a t b u => (∀ x y, a = .solved x → b = .solved y → x = y) → a = b ∧ Twin t u := by
    cases hop with
    | same => exact h.answer op
    | policies p q => exact (twinned_setPolicy p q t u h.toTwin).map fun _ _ _ _ g _ => ⟨rfl, g.2⟩
  have hsolver : ∀ {o : Op (Consulted σ)} {v : Tree (Consulted σ) cmp}, (∀ e, result o.answer v ≠ .error (.solver e)) →
      ∀ e, result o.answer v = .error e → ¬ e.IsSolver := by
    rintro o v hno _ he ⟨e, rfl⟩
    exact hno e he
  rcases hagree.result (hsolver hl) (hsolver hr) with ⟨a, b, ha, hb, hab⟩ | ⟨e, f, he, hf, hef, ht⟩
  · obtain ⟨rfl, ht⟩ := hab fun x y hx hy => hsame x y (hx ▸ ha) (hy ▸ hb)
    rw [← Op.left_perform, ← Op.left_perform] at ht
    exact ⟨by rw [ha, hb], _, h.perform ht⟩
  · rw [← Op.left_perform, ← Op.left_perform] at ht
    refine ⟨?_, _, h.perform ht⟩
    rw [he, hf]
    exact congrArg Except.error hef

end Step

section Run

theorem Coupled.run (h : Coupled start held t u) {ops ops' : List (Op (Consulted σ))}
    (hops : List.Forall₂ Op.Like ops ops') (hl : ∀ e, .error (.solver e) ∉ t.replies ops)
    (hr : ∀ e, .error (.solver e) ∉ u.replies ops')
    (hsame : ∀ (i : Nat) x y, (t.replies ops)[i]? = some (.ok (.solved x)) →
      (u.replies ops')[i]? = some (.ok (.solved y)) → x = y) :
    (t.replies ops).map (·.mapError TreeError.plain) = (u.replies ops').map (·.mapError TreeError.plain) ∧
      ∀ k, ∃ held', Coupled start held' (t.run (ops.take k)) (u.run (ops'.take k)) := by
  -- What is remembered changes with every operation that moves the active designation.
  induction hops generalizing held t u with
  | nil => exact ⟨rfl, fun k => ⟨held, by rwa [List.take_nil]⟩⟩
  | cons hop _ ih =>
      obtain ⟨hreply, held', hnext⟩ := h.step hop (fun e he => hl e (he ▸ List.mem_cons_self))
        (fun e he => hr e (he ▸ List.mem_cons_self)) fun x y hx hy => hsame 0 x y (congrArg some hx) (congrArg some hy)
      obtain ⟨hreplies, htrees⟩ := ih hnext (fun e he => hl e (List.mem_cons_of_mem _ he))
        (fun e he => hr e (List.mem_cons_of_mem _ he)) fun i => hsame (i + 1)
      refine ⟨congrArg₂ List.cons hreply hreplies, fun k => ?_⟩
      cases k with
      | zero => exact ⟨held, h⟩
      | succ k => exact htrees k

/-- Two runs that differ only in their snapshot policies, in which the solver never fails and solves alike, return
the same, but for whether an error calls a node a Fork or a Subroot. After every operation the trees are twins, with
the same sizes along the path. -/
theorem policies_affect_cost {solver : σ} {domains : Domains} {settings : Settings} {t₀ : Tree (Consulted σ) cmp}
    (h₀ : ofSettings (.fresh solver) domains settings = .ok t₀) {ops ops' : List (Op (Consulted σ))}
    (hops : List.Forall₂ Op.Like ops ops') (hok : ∀ e, .error (.solver e) ∉ t₀.replies ops)
    (hok' : ∀ e, .error (.solver e) ∉ t₀.replies ops')
    (hsame : ∀ (i : Nat) x y, (t₀.replies ops)[i]? = some (.ok (.solved x)) →
      (t₀.replies ops')[i]? = some (.ok (.solved y)) → x = y) :
    (t₀.replies ops).map (·.mapError TreeError.plain) = (t₀.replies ops').map (·.mapError TreeError.plain) ∧
      ∀ k, Twin (t₀.run (ops.take k)) (t₀.run (ops'.take k)) ∧
        (t₀.run (ops.take k)).sizes = (t₀.run (ops'.take k)).sizes := by
  have hr : Resting (fun _ _ => True) domains.vars t₀ := resting_of_ofSettings h₀ trivial
  have ht : Tracks (fun _ => .empty) t₀ := .vacant (vacant_of_ofSettings h₀).1
  have hcoupled : Coupled domains.vars (fun _ => .empty) t₀ t₀ := ⟨.refl t₀, hr, hr, ht, ht⟩
  obtain ⟨hreplies, htrees⟩ := hcoupled.run hops hok hok' hsame
  exact ⟨hreplies, fun k => (htrees k).elim fun _ h => ⟨h.toTwin, h.sizes_eq⟩⟩

/-- Below a root that is a Subroot in one run and a Fork in the other, the second child loads what the first did. -/
theorem policies_affect_cost_below_root :
    let ops (p : SnapshotRule) : List (Op (Consulted ScriptedSolver)) := [.setPolicy p.policy, .create 0 0,
      .activate (some ⟨0, 0⟩), .load, .addColumn (7 : Int), .solve, .create 0 0, .create 0 0,
      .activate (some ⟨1, 0⟩), .load, .addRow (9 : Int), .solve, .activate (some ⟨2, 0⟩), .load]
    ∃ (t₀ : Tree (Consulted ScriptedSolver) SelectionRule.bestBound.order) (answers : List Reply),
      ofSettings (.fresh .fresh) (.free 1) {} = .ok t₀ ∧
      t₀.replies (ops .full) = answers.map .ok ∧ t₀.replies (ops .incremental) = answers.map .ok ∧
      (t₀.run (ops .full)).subroot = some ⟨0, 0⟩ ∧ (t₀.run (ops .incremental)).subroot = none ∧
      ∀ k, Twin (t₀.run ((ops .full).take k)) (t₀.run ((ops .incremental).take k)) ∧
        (t₀.run ((ops .full).take k)).sizes = (t₀.run ((ops .incremental).take k)).sizes := by
  intro ops
  have hops : List.Forall₂ Op.Like (ops .full) (ops .incremental) :=
    .cons (.policies _ _) (List.forall₂_same.2 fun op _ => .same op)
  have hanswered : ∀ (t₀ : Tree (Consulted ScriptedSolver) SelectionRule.bestBound.order) (answers : List Reply),
      ofSettings (.fresh .fresh) (.free 1) {} = .ok t₀ → t₀.replies (ops .full) = answers.map .ok ∧
        t₀.replies (ops .incremental) = answers.map .ok →
      ∀ k, Twin (t₀.run ((ops .full).take k)) (t₀.run ((ops .incremental).take k)) ∧
        (t₀.run ((ops .full).take k)).sizes = (t₀.run ((ops .incremental).take k)).sizes := by
    rintro t₀ answers h₀ ⟨hfull, hincremental⟩
    refine (policies_affect_cost h₀ hops (fun e => by simp [hfull]) (fun e => by simp [hincremental])
      fun i x y hx hy => ?_).2
    rw [hfull] at hx
    rw [hincremental, hx] at hy
    cases hy
    rfl
  refine ⟨_, [.done, .created ⟨0, 0⟩, .activated (.activated ⟨0, 0⟩), .loaded .loaded, .done, .solved .optimal,
    .created ⟨1, 0⟩, .created ⟨2, 0⟩, .activated (.activated ⟨1, 0⟩), .loaded .loaded, .done, .solved .optimal,
    .activated (.activated ⟨2, 0⟩), .loaded .loaded], rfl, ?full, ?incremental, by decide +kernel, by decide +kernel,
    hanswered _ _ rfl ⟨?full, ?incremental⟩⟩
  case full => decide +kernel
  case incremental => decide +kernel

/-- An error can tell whether the root has become a Subroot or a Fork. -/
theorem policies_told_apart_by_error :
    let ops (p : SnapshotRule) : List (Op (Consulted ScriptedSolver)) := [.setPolicy p.policy, .create 0 0,
      .activate (some ⟨0, 0⟩), .load, .addColumn (7 : Int), .solve, .create 0 0, .activate (some ⟨1, 0⟩),
      .activate (some ⟨0, 0⟩)]
    ∃ (t₀ : Tree (Consulted ScriptedSolver) SelectionRule.bestBound.order) (answers : List Reply),
      ofSettings (.fresh .fresh) (.free 1) {} = .ok t₀ ∧
      t₀.replies (ops .full) = answers.map .ok ++ [.error (.misuse (.activateRole .subroot))] ∧
      t₀.replies (ops .incremental) = answers.map .ok ++ [.error (.misuse (.activateRole .fork))] :=
  ⟨_, [.done, .created ⟨0, 0⟩, .activated (.activated ⟨0, 0⟩), .loaded .loaded, .done, .solved .optimal,
    .created ⟨1, 0⟩, .activated (.activated ⟨1, 0⟩)], rfl, by decide +kernel, by decide +kernel⟩

end Run

end Tree

end BranchBound
