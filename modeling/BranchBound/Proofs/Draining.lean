import BranchBound.Proofs.Touching
import Mathlib.Data.List.DropRight

namespace BranchBound

section FirstOccurrences

variable {α : Type} [DecidableEq α]

theorem eraseDups_concat (l : List α) (a : α) :
    (l ++ [a]).eraseDups = if a ∈ l then l.eraseDups else l.eraseDups ++ [a] := by
  rw [List.eraseDups_append]
  by_cases ha : a ∈ l <;> simp [List.removeAll, ha, List.eraseDups_cons]

theorem nodup_eraseDups (l : List α) : l.eraseDups.Nodup := by
  induction l using List.reverseRecOn with
  | nil => exact List.nodup_nil
  | append_singleton l a ih =>
      rw [eraseDups_concat]
      split
      · exact ih
      · rename_i ha
        refine List.nodup_append.2 ⟨ih, by simp, fun b hb c hc => ?_⟩
        obtain rfl := List.mem_singleton.1 hc
        rintro rfl
        exact ha (List.mem_eraseDups.1 hb)

end FirstOccurrences

namespace Domains

inductive Request
  | set (v : Nat) (side : Side) (value : Binary64)
  | touch (v : Nat)
  | touchAll
  | apply (log : ChangeLog) (tol : Binary64)
  | undo (log : ChangeLog)
  | drain

namespace Request

def perform (d : Domains) : Request → Domains × Except OutOfRange (List Nat)
  | set v side value =>
      match d.setBound v side value with
      | .ok d' => (d', .ok [])
      | .error e => (d, .error e)
  | touch v =>
      match d.touch v with
      | .ok d' => (d', .ok [])
      | .error e => (d, .error e)
  | touchAll => (d.touchAll, .ok [])
  | apply log tol => ((log.apply tol d).2.1, (log.apply tol d).2.2.map fun _ => [])
  | undo log => ((log.undo d).1, (log.undo d).2.map fun _ => [])
  | drain => (d.drain.2, .ok d.drain.1)

/-- The variables that a request touches among `n`, in order. -/
def marks (n : Nat) : Request → List Nat
  | set v _ _ => [v]
  | touch v => [v]
  | touchAll => List.range n
  | apply log _ => log.changes.map BoundChange.var
  | undo log => log.changes.reverse.map BoundChange.var
  | drain => []

def InRange (n : Nat) (r : Request) : Prop := ∀ v ∈ r.marks n, v < n

instance (n : Nat) (r : Request) : Decidable (r.InRange n) := inferInstanceAs (Decidable (∀ v ∈ r.marks n, v < n))

def drains : Request → Bool
  | drain => true
  | _ => false

end Request

def run (d : Domains) (rs : List Request) : Domains := rs.foldl (fun d r => (r.perform d).1) d

def drained (rs : List Request) : List Request := rs.rdropWhile (!·.drains)

def since (rs : List Request) : List Request := rs.rtakeWhile (!·.drains)

/-- The queue holds what was marked, each variable once and in the place where it was marked first. -/
structure Queues (marks : List Nat) (d : Domains) : Prop where
  wellFormed : d.WellFormed
  queue : d.queue.toList = marks.eraseDups

variable {d : Domains} {marks : List Nat} {v : Nat}

theorem ofIntervals_queues (xs : List Interval) : (ofIntervals xs).Queues [] := ⟨ofIntervals_wellFormed xs, rfl⟩

theorem Queues.waits (h : d.Queues marks) (v : Nat) : d.Waits v ↔ v ∈ marks := by
  rw [← h.wellFormed.mem_queue, ← Array.mem_toList_iff, h.queue, List.mem_eraseDups]

theorem Queues.enqueue (h : d.Queues marks) (hv : v < d.size) : (d.enqueue v).Queues (marks ++ [v]) := by
  refine ⟨h.wellFormed.enqueue v, ?_⟩
  rw [eraseDups_concat, ← h.queue]
  obtain ⟨b, hb⟩ := h.wellFormed.flag hv
  unfold Domains.enqueue
  cases b with
  | true => rw [hb, if_pos ((h.waits v).1 hb)]
  | false =>
      have hnew : v ∉ marks := by
        rw [← h.waits, Waits, hb]
        simp
      rw [hb, if_neg hnew]
      exact Array.toList_push

theorem Queues.enqueueAll (h : d.Queues marks) {vs : List Nat} (hvs : ∀ v ∈ vs, v < d.size) :
    (vs.foldl Domains.enqueue d).Queues (marks ++ vs) := by
  induction vs generalizing d marks with
  | nil => rwa [List.append_nil]
  | cons v vs ih =>
      rw [List.append_cons]
      refine ih (h.enqueue (hvs v List.mem_cons_self)) fun w hw => ?_
      rw [size_enqueue]
      exact hvs w (List.mem_cons_of_mem v hw)

theorem Queues.touchAll (h : d.Queues marks) : d.touchAll.Queues (marks ++ List.range d.size) :=
  h.enqueueAll fun _ hv => List.mem_range.1 hv

theorem Queues.overwrite (h : d.Queues marks) (hv : v < d.size) (side : Side) (value : Binary64) :
    (d.overwrite v side value).Queues (marks ++ [v]) := by
  have hmodified : ({ d with vars := d.vars.modify v (·.setBound side value) } : Domains).Queues marks := by
    refine ⟨⟨?_, h.wellFormed.mem_queue⟩, h.queue⟩
    rw [h.wellFormed.size]
    simp [size]
  refine hmodified.enqueue ?_
  simpa [size] using hv

theorem Queues.overwriteAll (h : d.Queues marks) (value : BoundChange → Binary64) {cs : List BoundChange}
    (hc : ∀ c ∈ cs, c.var < d.size) : (d.overwriteAll value cs).Queues (marks ++ cs.map BoundChange.var) := by
  induction cs generalizing d marks with
  | nil => rwa [List.map_nil, List.append_nil]
  | cons c cs ih =>
      rw [List.map_cons, List.append_cons]
      exact ih (h.overwrite (hc c List.mem_cons_self) c.side (value c)) (forall_lt_overwrite hc c.var c.side (value c))

theorem WellFormed.queued_eq (h : d.WellFormed) (hnone : ∀ v, ¬ d.Waits v) : d.queued = .replicate d.size false := by
  apply Array.ext_getElem?
  intro v
  rw [Array.getElem?_replicate]
  split
  · obtain ⟨b, hb⟩ := h.flag ‹_›
    cases b with
    | false => exact hb
    | true => exact absurd hb (hnone v)
  · rename_i hv
    rw [← h.size] at hv
    exact Array.getElem?_eq_none (Nat.not_lt.1 hv)

theorem Queues.drain (h : d.Queues marks) : d.drain.2.Queues [] := ⟨h.wellFormed.drain, rfl⟩

namespace Request

variable {r : Request}

theorem perform_queues (h : d.Queues marks) (hr : r.InRange d.size) :
    (∃ vs, (r.perform d).2 = .ok vs) ∧
      (r.perform d).1.Queues (if r.drains then [] else marks ++ r.marks d.size) := by
  cases r with
  | set v side value =>
      have hv := hr v List.mem_cons_self
      rw [perform, setBound, look_eq (Array.getElem?_eq_getElem hv)]
      exact ⟨⟨_, rfl⟩, h.overwrite hv side value⟩
  | touch v =>
      have hv := hr v List.mem_cons_self
      rw [perform, Domains.touch, look_eq (Array.getElem?_eq_getElem hv)]
      exact ⟨⟨_, rfl⟩, h.enqueue hv⟩
  | touchAll => exact ⟨⟨_, rfl⟩, h.touchAll⟩
  | apply log tol =>
      have hc : ∀ c ∈ log.changes, c.var < d.size := fun c hc => hr c.var (List.mem_map_of_mem hc)
      obtain ⟨⟨o, ho⟩, -⟩ := log.apply_noted tol hc
      refine ⟨⟨[], by rw [perform, ho]; rfl⟩, ?_⟩
      change (applyChanges tol log.changes d).domains.Queues _
      rw [applyChanges_domains tol hc]
      exact h.overwriteAll BoundChange.new hc
  | undo log =>
      have hc : ∀ c ∈ log.changes.reverse, c.var < d.size := fun c hc => hr c.var (List.mem_map_of_mem hc)
      rw [perform, ChangeLog.undo, revertChanges_eq hc]
      exact ⟨⟨_, rfl⟩, h.overwriteAll BoundChange.old hc⟩
  | drain => exact ⟨⟨_, rfl⟩, h.drain⟩

theorem perform_touches (d : Domains) (hr : r.drains = false) : Touches d (r.perform d).1 := by
  cases r with
  | set v side value =>
      rw [perform, setBound]
      cases d.look v with
      | error e => exact .refl d
      | ok x => exact .overwrite d v side value
  | touch v =>
      rw [perform, Domains.touch]
      cases d.look v with
      | error e => exact .refl d
      | ok x => exact .enqueue d v
  | touchAll => exact .touchAll d
  | apply log tol => exact .apply tol log.changes d
  | undo log => exact .revert log.changes.reverse d
  | drain => cases hr

end Request

variable {rs : List Request}

theorem run_append (d : Domains) (rs rs' : List Request) : d.run (rs ++ rs') = (d.run rs).run rs' := List.foldl_append

theorem run_concat (d : Domains) (rs : List Request) (r : Request) : d.run (rs ++ [r]) = (r.perform (d.run rs)).1 :=
  run_append d rs [r]

theorem run_since (d : Domains) (rs : List Request) : (d.run (drained rs)).run (since rs) = d.run rs := by
  rw [← run_append, drained, since, List.rdropWhile_append_rtakeWhile]

theorem size_perform (h : d.WellFormed) (r : Request) : (r.perform d).1.size = d.size := by
  cases hr : r.drains with
  | true =>
      cases r with
      | drain => rfl
      | _ => cases hr
  | false => exact (Request.perform_touches d hr h).size

theorem run_queues (h : d.Queues []) (hr : ∀ r ∈ rs, r.InRange d.size) :
    (d.run rs).Queues ((since rs).flatMap (Request.marks d.size)) ∧ (d.run rs).size = d.size := by
  induction rs using List.reverseRecOn with
  | nil => exact ⟨h, rfl⟩
  | append_singleton rs r ih =>
      obtain ⟨hqueue, hsize⟩ := ih fun r hm => hr r (List.mem_append_left _ hm)
      have hlast : r.InRange (d.run rs).size := by
        rw [hsize]
        exact hr r (List.mem_append_right _ List.mem_cons_self)
      obtain ⟨-, hperformed⟩ := Request.perform_queues hqueue hlast
      rw [run_concat, size_perform hqueue.wellFormed, since, List.rtakeWhile_concat]
      refine ⟨?_, hsize⟩
      cases hdrains : r.drains with
      | true => simpa [hdrains] using hperformed
      | false => simpa [hdrains, hsize, since] using hperformed

theorem run_touches (d : Domains) (hr : ∀ r ∈ rs, r.drains = false) : Touches d (d.run rs) := by
  induction rs using List.reverseRecOn with
  | nil => exact .refl d
  | append_singleton rs r ih =>
      rw [run_concat]
      have hrest := ih fun r hm => hr r (List.mem_append_left _ hm)
      exact hrest.trans (Request.perform_touches _ (hr r (List.mem_append_right _ List.mem_cons_self)))

theorem waits_of_changed (h : d.Queues []) (hr : ∀ r ∈ rs, r.InRange d.size)
    (hne : (d.run rs).vars[v]? ≠ (d.run (drained rs)).vars[v]?) : (d.run rs).Waits v := by
  have hsub : drained rs ⊆ rs := (List.rdropWhile_prefix _ rs).subset
  have hdrained := (run_queues h fun r hm => hr r (hsub hm)).1
  have htouches : Touches (d.run (drained rs)) ((d.run (drained rs)).run (since rs)) :=
    run_touches _ fun r hm => by simpa using List.mem_rtakeWhile_imp hm
  rw [run_since] at htouches
  apply Classical.byContradiction
  intro hwaits
  exact hne ((htouches hdrained.wellFormed).same v hwaits)

/-- What a drain hands out after these requests, and what it leaves. -/
structure HandsOut (start : Domains) (rs : List Request) : Prop where
  served : ∀ before r, before ++ [r] <+: rs → ∃ vs, (r.perform (start.run before)).2 = .ok vs
  handed : (start.run rs).drain.1 = ((since rs).flatMap (Request.marks start.size)).eraseDups
  nodup : (start.run rs).drain.1.Nodup
  mem_handed : ∀ v, v ∈ (start.run rs).drain.1 ↔ ∃ r ∈ since rs, v ∈ r.marks start.size
  changed : ∀ v, (start.run rs).vars[v]? ≠ (start.run (drained rs)).vars[v]? → v ∈ (start.run rs).drain.1
  emptied : (start.run rs).drain.2.queue = #[]
  cleared : (start.run rs).drain.2.queued = .replicate start.size false

/-- A drain hands out exactly the variables touched since the one before, in the order of their first touch. -/
theorem touched_handed_out (xs : List Interval) (rs : List Request) (hr : ∀ r ∈ rs, r.InRange xs.length) :
    (ofIntervals xs).HandsOut rs := by
  have hstart := ofIntervals_queues xs
  have hsize : (ofIntervals xs).size = xs.length := by simp [ofIntervals, size]
  rw [← hsize] at hr
  generalize ofIntervals xs = start at hstart hr
  obtain ⟨hqueue, hrun⟩ := run_queues hstart hr
  constructor
  case served =>
    intro before r hbefore
    have hsub := hbefore.subset
    obtain ⟨hqueue, hrun⟩ := run_queues hstart fun r hm => hr r (hsub (List.mem_append_left _ hm))
    refine (Request.perform_queues hqueue ?_).1
    rw [hrun]
    exact hr r (hsub (List.mem_append_right _ List.mem_cons_self))
  case handed => exact hqueue.queue
  case nodup =>
    change (start.run rs).queue.toList.Nodup
    rw [hqueue.queue]
    exact nodup_eraseDups _
  case mem_handed =>
    intro v
    change v ∈ (start.run rs).queue.toList ↔ _
    rw [hqueue.queue, List.mem_eraseDups, List.mem_flatMap]
  case changed =>
    intro v hne
    exact Array.mem_toList_iff.2 ((hqueue.wellFormed.mem_queue v).2 (waits_of_changed hstart hr hne))
  case emptied => rfl
  case cleared =>
    rw [hqueue.wellFormed.drain.queued_eq (not_waits_drain hqueue.wellFormed)]
    exact congrArg (Array.replicate · false) hrun

/-- A log that was applied and taken back leaves its variables touched, after the one touched before. -/
theorem touched_handed_out_after_undo :
    let xs : List Interval := [⟨0, 10⟩, ⟨0, 10⟩, ⟨0, 10⟩]
    let log : ChangeLog := ⟨[⟨2, .upper, 0, 4⟩, ⟨1, .lower, 0, 3⟩], true⟩
    let rs : List Request := [.set 0 .lower 1, .touchAll, .drain, .touch 1, .apply log 0, .undo log]
    (∀ r ∈ rs, r.InRange xs.length) ∧ (ofIntervals xs).HandsOut rs ∧ ((ofIntervals xs).run rs).drain.1 = [1, 2] := by
  intro xs log rs
  have hrange : ∀ r ∈ rs, r.InRange xs.length := by decide +kernel
  exact ⟨hrange, touched_handed_out xs rs hrange, by decide +kernel⟩

end Domains

end BranchBound
