import BranchBound.Proofs.Constancy
import BranchBound.Proofs.LoadCalls
import Mathlib.Algebra.BigOperators.Group.List.Basic
import Mathlib.Algebra.GroupWithZero.Nat
import Mathlib.Data.Nat.Init

namespace BranchBound

variable {σ : Type} [Solver σ] {cmp : NodeOrder} {a b : Arena (Node σ)} {root root' g g' : Option Handle}
  {held held' : Handle → Contents σ} {path : List Handle} {i j limit : Nat}

def Contents.beyond (c d : Contents σ) : Nat :=
  (d.columns.length - c.columns.length) + (d.rows.length - c.rows.length)

def Snapshot.length (s : Snapshot σ) : Nat := s.columns.length + s.rows.length

def Call.gain : Call σ → Nat
  | .addColumns cs => cs.length
  | .addRows rs => rs.length
  | _ => 0

theorem gain_additions (ss : List (Snapshot (Observed σ))) :
    ((ss.flatMap Snapshot.additions).map Call.gain).sum = (ss.map Snapshot.length).sum := by
  induction ss with
  | nil => rfl
  | cons s ss ih =>
      have hone : (s.additions.map Call.gain).sum = s.length := by
        unfold Snapshot.additions Snapshot.length
        cases s.columns <;> cases s.rows <;> simp [Call.gain]
      rw [List.flatMap_cons, List.map_append, List.sum_append, ih, hone, List.map_cons, List.sum_cons]

namespace Role

theorem isSome_fork? (r : Role σ) : r.fork?.isSome = (r.layer.map Prod.fst == some false) := by
  cases r <;> rfl

theorem isSome_fork?_of {r : Role σ} (h : r.isSnapshot = true) (h' : r.isSubroot = false) : r.fork?.isSome = true := by
  rw [isSnapshot_eq] at h
  rw [isSubroot_eq] at h'
  rw [isSome_fork?]
  obtain ⟨⟨full, c⟩, hlayer⟩ := Option.isSome_iff_exists.1 h
  rw [hlayer] at h' ⊢
  cases full with
  | false => rfl
  | true => cases h'

theorem isSnapshot_of_fork? {r : Role σ} (h : r.fork?.isSome = true) : r.isSnapshot = true := by
  cases r <;> first | rfl | cases h

theorem layer_of_not_processed {r : Role σ} (h : r.name.isProcessed = false) : r.layer = none := by
  cases r <;> first | rfl | cases h

end Role

theorem Persists.lineage {n m : Node σ} (h : Persists n m) : Lineage n m := by
  refine ⟨h.parent, h.depth, ?_⟩
  cases hn : n.role.name.isProcessed with
  | true => exact (h.settled hn).2.1
  | false =>
      have hm : m.role.name.isProcessed = false := by
        by_contra hm
        exact Bool.noConfusion (hn.symm.trans (h.unturned (eq_true_of_ne_false hm)))
      rw [Role.layer_of_not_processed hn, Role.layer_of_not_processed hm]

/-- What was left at a Fork is by no more than the limit larger than what was left at the nearest Subroot above it. -/
def Limited (limit : Nat) (held : Handle → Contents σ) (a : Arena (Node σ)) : Prop :=
  ∀ h n g, a.get? h = some n → n.role.fork?.isSome = true → Nearest a Role.isSubroot n.parent g →
    (heldAt held g).beyond (held h) ≤ limit

namespace Limited

theorem congr (h : Limited limit held a)
    (hag : ∀ k n, a.get? k = some n → n.role.isSnapshot = true → held' k = held k) : Limited limit held' a := by
  intro k n g hn hfork hg
  rw [hag k n hn (Role.isSnapshot_of_fork? hfork),
    heldAt_congr hg fun j m hm hq => hag j m hm (Role.isSnapshot_of_isSubroot hq)]
  exact h k n g hn hfork hg

theorem carry (h : Limited limit held a) (hc : Carried Lineage a b) (ha : Forest a root) (hb : Forest b root') :
    Limited limit held b := by
  intro k m g hm hfork hg
  obtain ⟨n, hn, hline⟩ := hc k m hm
  rw [hline.parent] at hg
  refine h k n g hn ?_ (hg.of_carried hc (fun _ _ => Lineage.isSubroot) ha hb)
  rw [Role.isSome_fork?, ← hline.layer, ← Role.isSome_fork?]
  exact hfork

theorem join {id : Handle} {m : Node σ} (h : Limited limit held a) (hj : Joined a b id m) (ha : Forest a root)
    (hm : m.role.name = .child) : Limited limit held b := by
  intro k n g hn hfork hg
  obtain ⟨-, rfl⟩ | hn := hj.cases hn
  · have hsnap := Role.not_waiting_of_isSnapshot (Role.isSnapshot_of_fork? hfork)
    rw [hm] at hsnap
    cases hsnap
  · obtain ⟨g₁, hg₁⟩ := ha.exists_nearest (ha.live_parent hn)
    rw [hg.unique (hj.nearest hg₁)]
    exact h k n g₁ hn hfork hg₁

end Limited

namespace Tree

section Policy

variable {K K' : Charge σ} {start : Array Interval} {t t₁ : Tree σ cmp} {n : Node σ}

theorem takeSnapshot_asks (a : Handle) (depth : Nat) (above : Extent) (t : Tree σ cmp) :
    Ends (takeSnapshot a depth above) t
      (fun role _ => role.fork?.isSome = true → ∃ c, t.snapshotQuery depth above = .ok c ∧ t.policy c = false)
      fun _ _ => True := by
  unfold takeSnapshot askPolicy
  rw [ends_bind, ends_read]
  cases hc : t.snapshotQuery depth above with
  | error e => trivial
  | ok c =>
      simp only [ends_bind, ends_record, ends_get, ends_pure]
      refine (ends_trivial _ _).mono (fun basis t₁ _ => ?_) fun _ _ h => h
      refine (ends_trivial _ _).mono (fun _ t₂ _ => ?_) fun _ _ h => h
      rw [ends_count]
      refine (ends_trivial _ _).mono (fun _ t₃ _ => ?_) fun _ _ h => h
      rw [ends_modify]
      cases hfull : t.policy c with
      | false => exact fun _ => ⟨c, rfl, hfull⟩
      | true =>
          intro hfork
          cases hfork

theorem finalRole_asks {a : Handle} (hn : t.nodes.get? a = some n) :
    Ends (finalRole a) t
      (fun role _ => role.fork?.isSome = true →
        ∃ above c, t.snapshotQuery n.depth above = .ok c ∧ t.policy c = false)
      fun _ _ => True := by
  unfold finalRole
  simp only [ends_bind, ends_read, node_eq_ok.2 hn]
  cases t.parentSize n.depth with
  | error e => trivial
  | ok above =>
      simp only [ends_get]
      split
      · intro hfork
        cases hfork
      · split
        · exact (takeSnapshot_asks a n.depth above t).mono (fun _ _ h hfork => ⟨above, h hfork⟩) fun _ _ h => h
        · rw [ends_bind]
          refine (ends_trivial _ _).mono (fun _ _ _ hfork => ?_) fun _ _ h => h
          cases hfork

theorem Remembers.subrootSize_eq (h : Remembers held t) (hr : Resting K start t) :
    t.subrootSize = .ok (heldAt held t.subroot).size := by
  unfold subrootSize
  have hnear := hr.subroot
  cases hs : t.subroot with
  | none => rfl
  | some f =>
      rw [hs] at hnear
      obtain ⟨n, hn, hq, hplace, -⟩ := hr.walk.nearest_onPath hnear
      simp only [node_eq_ok.2 hn]
      exact pathSize_ok (h.measured n.depth f _ hplace (.here hn (Role.isSnapshot_of_isSubroot hq)))

/-- The active node becomes a Fork only where the policy wants no complete snapshot, and the policy has seen by how much
the relaxation exceeds what was left at the nearest Subroot. -/
theorem retire_asks (hK : Custody K K') (hr : Resting K start t) (h : Remembers held t) {a : Handle}
    (ha : t.active = some a) :
    Ends retire t
      (fun _ u => ∀ m, u.nodes.get? a = some m → m.role.fork?.isSome = true →
        ∃ c, c.replayLength = (heldAt held t.subroot).beyond t.lp.contents ∧ t.policy c = false)
      fun _ _ => True := by
  obtain ⟨n, hn, -⟩ := hr.actor ha
  unfold retire
  rw [ends_bind, ends_get, ha]
  dsimp only
  rw [ends_bind]
  refine (surrenderShare_spec hK.toRedemption hr.toSound rfl hn).mono ?_ fun _ _ h => h.elim
  rintro _ t₁ ⟨hsound, nodes, solver, stats, journal, m, rfl, hmatch, hm, -⟩
  have hkept := Kept.of_steady hmatch solver stats journal
  have h₁ := h.kept hkept hr.toSound hsound
  rw [ends_bind, ends_get, ends_bind]
  refine (finalRole_asks hm).mono (fun role u hasked => ?_) fun _ _ h => h
  rw [ends_bind, ends_read]
  cases ho : u.node a with
  | error e => trivial
  | ok o =>
      simp only [ends_bind, ends_record, ends_setNode, ends_modify]
      intro o' ho' hfork
      cases (Arena.get?_set_self (node_eq_ok.1 ho) _).symm.trans ho'
      obtain ⟨above, c, hc, hpolicy⟩ := hasked hfork
      refine ⟨c, ?_, hpolicy⟩
      unfold snapshotQuery at hc
      rw [h₁.subrootSize_eq (hr.of_kept hsound hkept)] at hc
      cases hc
      rfl

theorem Ended.limited (he : Ended K t t₁) (hr : Resting K' start t) (h : Limited limit held t.nodes)
    (hfork : ∀ a m, t.active = some a → t₁.nodes.get? a = some m → m.role.fork?.isSome = true →
      (heldAt held t.subroot).beyond t.lp.contents ≤ limit) : Limited limit (noteLeft held t) t₁.nodes := by
  have hag := noteLeft_eq held hr
  cases ha : t.active with
  | none =>
      rw [he.idle ha]
      exact h.congr hag
  | some a =>
      obtain ⟨n, hn, -, -, -, hpar, -⟩ := hr.actor ha
      have hsub := he.nearest_above hr ha (fun _ _ => Lineage.isSubroot) hr.subroot
      intro k m g hm hf hg
      obtain ⟨o, ho, hturned⟩ := he.nodes.back k m hm
      rw [hturned.parent] at hg
      by_cases hk : k = a
      · subst hk
        cases hn.symm.trans ho
        rw [hpar] at hg
        rw [hg.unique hsub, show noteLeft held t k = t.lp.contents from if_pos ha,
          heldAt_congr hr.subroot fun j x hx hq => hag j x hx (Role.isSnapshot_of_isSubroot hq)]
        exact hfork k m ha hm hf
      · have hline : Lineage o m := by
          cases hturned with
          | waits _ hs => exact hs.kin.toLineage
          | done hact => exact absurd (Option.some.inj (((hr.acting k).2 ⟨o, ho, hact⟩).symm.trans ha)) hk
        rw [Role.isSome_fork?, hline.layer, ← Role.isSome_fork?] at hf
        obtain ⟨g₁, hg₁⟩ := hr.forest.exists_nearest (hr.forest.live_parent ho)
        rw [hg.unique (he.nearest_parent hr ha (fun _ _ => Lineage.isSubroot) ho (Role.isSnapshot_of_fork? hf) hg₁)]
        exact h.congr hag k o g₁ ho hf hg₁

end Policy

section Runs

variable {K : Charge σ} {start : Array Interval} {t u : Tree σ cmp} {op : Op σ}

structure Thrifty (limit : Nat) (held : Handle → Contents σ) (t : Tree σ cmp) : Prop where
  policy : t.policy = (SnapshotRule.replayLimit limit).policy
  limited : Limited limit held t.nodes

theorem noteChange_eq (held : Handle → Contents σ) (hr : Resting K start t) (u : Tree σ cmp) (h : Handle) (n : Node σ)
    (hn : t.nodes.get? h = some n) (hq : n.role.isSnapshot = true) : noteChange held t u h = held h := by
  rw [← noteLeft_eq held hr h n hn hq]
  unfold noteChange noteLeft
  by_cases ha : t.active = some h
  · have hheld := noteLeft_eq held hr h n hn hq
    unfold noteLeft at hheld
    rw [if_pos ha] at hheld ⊢
    split
    · rfl
    · exact hheld.symm
  · rw [if_neg ha, if_neg fun h => ha h.1]

theorem Thrifty.moves (h : Thrifty limit held t) (ht : Tracks held t) (hr : Resting (fun _ _ => True) start t)
    (hu : Resting (fun _ _ => True) start u) (hmoves : Moves op t u) (hp : u.policy = t.policy) :
    Thrifty limit (noteChange held t u) u := by
  have hag := noteChange_eq held hr u
  refine ⟨hp.trans h.policy, ?_⟩
  cases hmoves with
  | pauses hpauses =>
      exact (h.limited.congr hag).carry (hpauses.nodes.mono fun _ _ g => g.persists.lineage) hr.forest hu.forest
  | creates id m hj hm => exact (h.limited.congr hag).join hj hr.forest hm
  | turns target t₁ _ hactive hwaits hretire _ hpersists =>
      have hK : Upkeep (σ := σ) (fun _ _ => True) (fun _ _ => True) := .nothing
      have hended := (retire_spec hK.toCustody hr).of_ok hretire
      have hne : target.isSome = true → t.active ≠ target := by
        intro hsome ha
        obtain ⟨id, rfl⟩ := Option.isSome_iff_exists.1 hsome
        obtain ⟨n, hn, hw⟩ := hwaits id rfl
        obtain ⟨m, hm, hact, -⟩ := hr.actor ha
        cases hn.symm.trans hm
        rw [hact] at hw
        cases hw
      rw [noteChange_switched hactive hne]
      refine Limited.carry (hended.limited hr h.limited fun a m ha hm hfork => ?_)
        (hpersists.mono fun _ _ => Persists.lineage) hended.sound.forest hu.forest
      obtain ⟨c, hc, hpolicy⟩ := (retire_asks hK.toCustody hr ht.toRemembers ha).of_ok hretire m hm hfork
      rw [h.policy] at hpolicy
      rw [← hc]
      exact Nat.le_of_not_lt (of_decide_eq_false hpolicy)

theorem run_thrifty (hr : Resting (fun _ _ => True) start t) (hv : Vacant t)
    (hpolicy : t.policy = (SnapshotRule.replayLimit limit).policy) (ops : List (Op σ))
    (hops : ∀ op ∈ ops, op.replacesPolicy = false) : Thrifty limit (t.remembered ops) (t.run ops) := by
  induction ops using List.reverseRecOn with
  | nil => exact ⟨hpolicy, fun k n g hn => nomatch (hv.nodes k).symm.trans hn⟩
  | append_singleton ops op ih =>
      have hthrifty := ih fun o ho => hops o (List.mem_append_left _ ho)
      obtain ⟨hr', htracks⟩ := run_follows hr hv ops
      have habides : Abides op.replacesPolicy (t.run ops) (left op.perform (t.run ops)) :=
        Ends.left (P := Abides op.replacesPolicy (t.run ops)) (abides_perform op _)
      rw [show t.remembered (ops ++ [op]) = noteChange (t.remembered ops) (t.run ops) (t.run (ops ++ [op])) from
        chronicle_concat ..]
      rw [run_concat]
      exact hthrifty.moves htracks hr' (run_resting .nothing hr' [op]) (perform_moves hr' op)
        (habides.policy (hops op (List.mem_append_right _ (List.mem_singleton_self op))))

end Runs

section Stretch

variable {K : Charge σ} {start : Array Interval} {t : Tree σ cmp}

theorem mem_stretch {x : Handle} {k : Nat} (hx : path[k]? = some x) (hi : i ≤ k) (hj : k < j) :
    x ∈ (path.take j).drop i := by
  refine List.mem_iff_getElem?.2 ⟨k - i, ?_⟩
  rw [List.getElem?_drop, Nat.add_sub_cancel' hi, List.getElem?_take_of_lt hj, hx]

/-- Where no Subroot stands on a stretch of the path, what its Forks keep is what was left below it without what was
left above it. -/
theorem length_forksAlong (hl : Layered held t.nodes) (hw : Walk t.nodes t.path) (hf : Forest t.nodes t.root)
    (hij : i ≤ j) (hj : j ≤ t.path.length)
    (hnone : ∀ x ∈ (t.path.take j).drop i, ∀ n, t.nodes.get? x = some n → n.role.isSubroot = false)
    (hg : Nearest t.nodes Role.isSnapshot (before t.path i) g)
    (hg' : Nearest t.nodes Role.isSnapshot (before t.path j) g') :
    (heldAt held g').columns.length = (heldAt held g).columns.length +
        ((t.forksAlong ((t.path.take j).drop i)).map fun s => s.columns.length).sum ∧
      (heldAt held g').rows.length = (heldAt held g).rows.length +
        ((t.forksAlong ((t.path.take j).drop i)).map fun s => s.rows.length).sum := by
  induction j, hij using Nat.le_induction generalizing g' with
  | base =>
      rw [hg.unique hg', List.drop_eq_nil_of_le (List.length_take_le i t.path)]
      exact ⟨rfl, rfl⟩
  | succ j hij ih =>
      obtain ⟨x, hx⟩ : ∃ x, t.path[j]? = some x := ⟨_, List.getElem?_eq_getElem hj⟩
      obtain ⟨n, hn, -, -, hp⟩ := hw.step j x hx
      have hlen : i ≤ (t.path.take j).length := by
        rw [List.length_take]
        omega
      have hstretch : (t.path.take (j + 1)).drop i = (t.path.take j).drop i ++ [x] := by
        rw [List.take_add_one, hx, Option.toList_some, List.drop_append_of_le_length hlen]
      rw [hstretch] at hnone ⊢
      obtain ⟨g₁, hg₁⟩ := hf.exists_nearest (hw.live_before j)
      obtain ⟨hcols, hrows⟩ := ih (Nat.le_of_succ_le hj) (fun y hy => hnone y (List.mem_append_left _ hy)) hg₁
      have hplain := hnone x (List.mem_append_right _ (List.mem_singleton_self x)) n hn
      rw [before_succ hx] at hg'
      rw [(hl.heldAt_eq hn hg' (hp ▸ hg₁)).1]
      have hlast : t.forksAlong [x] = n.role.fork?.toList := by
        unfold forksAlong
        rw [List.filterMap_cons, hn, Option.bind_some]
        cases n.role.fork? <;> rfl
      have happend : t.forksAlong ((t.path.take j).drop i ++ [x]) =
          t.forksAlong ((t.path.take j).drop i) ++ n.role.fork?.toList := by
        rw [← hlast]
        exact List.filterMap_append
      rw [happend]
      cases hrole : n.role with
      | fork s =>
          simp [Role.extend, Role.layer, Role.fork?, Contents.append, Snapshot.contents, hcols, hrows, Nat.add_assoc]
      | subroot s =>
          rw [hrole] at hplain
          cases hplain
      | child _ | sibling _ | leaf | active | deadend | junction _ =>
          simp [Role.extend, Role.layer, Role.fork?, hcols, hrows]

theorem begins_above_stretch (hl : Layered held t.nodes) (hw : Walk t.nodes t.path) (hf : Forest t.nodes t.root)
    (hi : i ≤ t.path.length)
    (hnone : ∀ x ∈ (t.path.take j).drop i, ∀ n, t.nodes.get? x = some n → n.role.isSubroot = false)
    (hg : Nearest t.nodes Role.isSnapshot (before t.path i) g)
    (hg' : Nearest t.nodes Role.isSubroot (before t.path j) g') : (heldAt held g').Begins (heldAt held g) := by
  cases g' with
  | none => exact Contents.empty_begins _
  | some f =>
      obtain ⟨n, hn, hq, hplace, hlt⟩ := hw.nearest_onPath hg'
      have habove : n.depth + 1 ≤ i := by
        by_contra hge
        have hmem := mem_stretch hplace (show i ≤ n.depth by omega) hlt
        exact Bool.noConfusion (hq.symm.trans (hnone f hmem n hn))
      refine hl.begins_before hw hf habove hi ?_ hg
      rw [before_succ hplace]
      exact .here hn (Role.isSnapshot_of_isSubroot hq)

def replayed (t : Tree σ cmp) : List (Snapshot σ) :=
  t.forksAlong ((t.path.take (t.below t.lpFork)).drop t.resumesAt)

theorem Thrifty.replayed_le (h : Thrifty limit held t) (ht : Tracks held t) (hr : Resting K start t) {a : Handle}
    (ha : t.active = some a) : (t.replayed.map Snapshot.length).sum ≤ limit := by
  unfold replayed
  cases hfork : t.lpFork with
  | none =>
      rw [show t.below none = 0 from rfl, List.take_zero, List.drop_nil]
      exact Nat.zero_le limit
  | some f =>
      obtain ⟨n, hn, hsnap, hplace, -⟩ := hr.lpFork_onPath hfork
      rw [below_some hn]
      have hlt := (List.getElem?_eq_some_iff.1 hplace).1
      obtain hgt | hle := Nat.lt_or_ge n.depth t.resumesAt
      · rw [List.drop_eq_nil_of_le]
        · exact Nat.zero_le limit
        · rw [List.length_take]
          omega
      · have hnone : ∀ x ∈ (t.path.take (n.depth + 1)).drop t.resumesAt, ∀ m, t.nodes.get? x = some m →
            m.role.isSubroot = false := fun _ hx _ => ht.none_replayed hr ha hx
        have hbefore : ∀ x ∈ (t.path.take n.depth).drop t.resumesAt, ∀ m, t.nodes.get? x = some m →
            m.role.isSubroot = false := by
          refine fun x hx => hnone x (List.mem_of_mem_take (i := n.depth - t.resumesAt) ?_)
          rwa [← List.drop_take, List.take_take, Nat.min_eq_left (Nat.le_succ n.depth)]
        obtain ⟨m, hm, -, -, hpar⟩ := hr.walk.step n.depth f hplace
        cases hn.symm.trans hm
        obtain ⟨g, hg⟩ := hr.forest.exists_nearest (hr.walk.live_before t.resumesAt)
        obtain ⟨g', hg'⟩ := hr.forest.exists_nearest (q := Role.isSubroot) (hr.forest.live_parent hn)
        have hself : Nearest t.nodes Role.isSnapshot (before t.path (n.depth + 1)) (some f) := by
          rw [before_succ hplace]
          exact .here hn hsnap
        have hlen := length_forksAlong ht.layered hr.walk hr.forest (j := n.depth + 1) (by omega) hlt hnone hg hself
        obtain ⟨hcols, hrows⟩ := begins_above_stretch ht.layered hr.walk hr.forest
          (Nat.le_trans hle (Nat.le_of_lt hlt)) hbefore hg (hpar ▸ hg')
        have hplain := hnone f (mem_stretch hplace hle (Nat.lt_succ_self n.depth)) n hn
        have hlimit := h.limited f n g' hn (Role.isSome_fork?_of hsnap hplain) hg'
        unfold Contents.beyond at hlimit
        unfold Snapshot.length
        rw [List.sum_map_add]
        have hle := hcols.length_le
        have hle' := hrows.length_le
        change (held f).columns.length = _ ∧ (held f).rows.length = _ at hlen
        omega

end Stretch

section Calls

variable {K : Charge (Observed σ)} {start : Array Interval} {t : Tree (Observed σ) cmp} {id : Handle}

def rewindCalls (t : Tree (Observed σ) cmp) : List (Call σ) :=
  match t.correctDepth with
  | some c => t.lp.cuts (t.sizes[c]?.getD .zero)
  | none => .clear :: t.subroot?.toList.flatMap Snapshot.additions

theorem loadCalls_eq (hr : Resting K start t) (ha : t.active = some id) :
    t.loadCalls = t.rewindCalls ++ t.replayed.flatMap Snapshot.additions := by
  unfold loadCalls rewindCalls replayed resumesAt
  cases t.correctDepth with
  | some c => rfl
  | none =>
      dsimp only
      rw [hr.forksAlong_take ha, List.flatMap_append, List.cons_append]

/-- Under a limit on the replay, the calls of a load that append what Forks keep append no more columns and rows
together than the limit, however many Forks there are. Its other calls cut off or copy a Subroot. -/
theorem replay_limited {solver : σ} {domains : Domains} {settings : Settings} {t₀ t' : Tree (Observed σ) cmp}
    (h₀ : ofSettings (.fresh solver) domains settings = .ok t₀) (hrule : settings.snapshot = .replayLimit limit)
    (ops : List (Op (Observed σ))) (hops : ∀ op ∈ ops, op.replacesPolicy = false)
    (hload : load (t₀.run ops) = .ok .loaded t') :
    let t := t₀.run ops
    Trace.Adds (t.rewindCalls ++ t.replayed.flatMap Snapshot.additions) t.lp.solver.calls t'.lp.solver.calls ∧
      ((t.replayed.flatMap Snapshot.additions).map Call.gain).sum ≤ limit := by
  intro t
  have hnew := resting_of_ofSettings (K := fun _ _ => True) h₀ trivial
  have hvacant := (vacant_of_ofSettings h₀).1
  have hpolicy : t₀.policy = (SnapshotRule.replayLimit limit).policy := by
    rw [policy_of_ofSettings h₀, hrule]
  obtain ⟨hr, htracks⟩ : Resting _ _ t ∧ Tracks _ t := run_follows hnew hvacant ops
  have hthrifty : Thrifty limit _ t := run_thrifty hnew hvacant hpolicy ops hops
  obtain ⟨a, ha⟩ := Option.isSome_iff_exists.1 ((load_spec Upkeep.nothing.toRebuilding hr).of_ok hload).2.1
  obtain ⟨n, hn, -⟩ := hr.actor ha
  have htells : Repays t t' a n := (load_tells hr htracks.toRemembers ha hn).of_ok hload
  constructor
  · rw [← loadCalls_eq hr ha, ← t.filter_loadCalls n, htells.calls]
    exact Trace.adds_grant _ _
  · rw [gain_additions]
    exact hthrifty.replayed_le htracks hr ha

/-- Below a Subroot two Forks use up the limit. The Subroot is one because a Fork there would have passed it. -/
theorem replay_limited_below_subroot :
    ∃ t₀ : Tree (Observed ScriptedSolver) SelectionRule.bestBound.order,
      ofSettings (.fresh .fresh) (.free 1) { snapshot := .replayLimit 2 } = .ok t₀ ∧
      let turn (id : Handle) (column : Int) : List (Op (Observed ScriptedSolver)) :=
        [.activate (some id), .load, .addColumn column, .solve, .create 0 0, .create 0 0, .create 0 0]
      let ops := .create 0 0 :: turn ⟨0, 0⟩ 5 ++ turn ⟨1, 0⟩ 6 ++ turn ⟨4, 0⟩ 7 ++ turn ⟨7, 0⟩ 8 ++ turn ⟨10, 0⟩ 9 ++
        [.activate (some ⟨2, 0⟩), .load, .activate (some ⟨13, 0⟩)]
      let t := t₀.run ops
      let replays := t.replayed.flatMap Snapshot.additions
      returns load t .loaded = true ∧ (∀ op ∈ ops, op.replacesPolicy = false) ∧ t.subroot = some ⟨4, 0⟩ ∧
        t.rewindCalls.map Call.gain = [0, 3] ∧ replays.map Call.gain = [1, 1] ∧
        Trace.Adds (t.rewindCalls ++ replays) t.lp.solver.calls (left load t).lp.solver.calls ∧
        (replays.map Call.gain).sum ≤ 2 := by
  refine ⟨_, rfl, ?_⟩
  intro turn ops t replays
  have hload : returns load t .loaded = true := by decide +kernel
  have hops : ∀ op ∈ ops, op.replacesPolicy = false := by
    have hall : ops.all (!·.replacesPolicy) = true := rfl
    simpa only [List.all_eq_true, Bool.not_eq_true'] using hall
  have h := @replay_limited ScriptedSolver _ SelectionRule.bestBound.order 2 .fresh (.free 1)
    { snapshot := .replayLimit 2 } _ _ rfl rfl ops hops (eq_ok_of_returns hload)
  subst replays t
  exact ⟨hload, hops, by decide +kernel, by decide +kernel, by decide +kernel, h⟩

end Calls

end Tree

end BranchBound
