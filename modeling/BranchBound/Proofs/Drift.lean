import Mathlib.Data.List.Induction
import BranchBound.Proofs.Relaxation
import BranchBound.Solver.Scripted

namespace BranchBound

variable {σ α : Type} [Solver σ]

inductive Edit (σ : Type) [Solver σ]
  | addColumn (c : Solver.Column σ)
  | addRow (r : Solver.Row σ)
  | extend (cs : List (Solver.Column σ)) (rs : List (Solver.Row σ))
  | shrink (size : Extent)
  | clear

def Edit.perform : Edit σ → RelaxationM σ Unit
  | .addColumn c => Relaxation.addColumn c
  | .addRow r => Relaxation.addRow r
  | .extend cs rs => Relaxation.extend cs rs
  | .shrink size => Relaxation.shrink size
  | .clear => Relaxation.clear

/-- A solver whose columns and rows can be looked at. A call that succeeds does what it says, one that fails changes
neither, and a batch is added one by one, up to the first failure. -/
structure Faithful (view : σ → Contents σ) : Prop where
  addColumn : ∀ s c, Ends (Solver.addColumn c) s (fun _ s' => view s' = (view s).append ⟨[c], []⟩)
    fun _ s' => view s' = view s
  addRow : ∀ s r, Ends (Solver.addRow r) s (fun _ s' => view s' = (view s).append ⟨[], [r]⟩)
    fun _ s' => view s' = view s
  addColumns : ∀ cs : List (Solver.Column σ), Solver.addColumns cs = cs.forM Solver.addColumn
  addRows : ∀ rs : List (Solver.Row σ), Solver.addRows rs = rs.forM Solver.addRow
  shrinkColumns : ∀ s n, Ends (Solver.shrinkColumns n) s
    (fun _ s' => view s' = { view s with columns := (view s).columns.take n }) fun _ s' => view s' = view s
  shrinkRows : ∀ s n, Ends (Solver.shrinkRows n) s
    (fun _ s' => view s' = { view s with rows := (view s).rows.take n }) fun _ s' => view s' = view s
  clear : ∀ s, Ends Solver.clear s (fun _ s' => view s' = .empty) fun _ s' => view s' = view s

/-- Where the copy of a list and the list itself part, if they do, after both have come to new lengths. They part
where the list has grown by more than its copy, and are the same again when both are cut off above that place. -/
def gapAfter (gap : Option Nat) (copied real copied' real' : Nat) : Option Nat :=
  if real' < real then gap.filter (· < real')
  else if copied' - copied < real' - real then gap <|> some copied
  else gap

/-- The copy is the same as the list up to the gap, and everywhere without one. -/
structure Copies (gap : Option Nat) (copied real : List α) : Prop where
  le : copied.length ≤ real.length
  lt : ∀ p, gap = some p → p < real.length
  below : ∀ p, gap = some p → p ≤ copied.length ∧ copied.take p = real.take p
  whole : gap = none → copied = real

theorem Copies.of_eq {copied real : List α} (h : copied = real) : Copies none copied real :=
  ⟨Nat.le_of_eq (congrArg _ h), nofun, nofun, fun _ => h⟩

inductive Shift (copied real : List α) : List α → List α → Prop
  | append (xs : List α) : Shift copied real (copied ++ xs) (real ++ xs)
  | spill (xs : List α) : Shift copied real copied (real ++ xs)
  | cut (n : Nat) : n < copied.length → Shift copied real (copied.take n) (real.take n)
  | clear : Shift copied real [] []

theorem Shift.refl (copied real : List α) : Shift copied real copied real := by
  simpa using @Shift.append α copied real []

section Shift

variable {gap : Option Nat} {copied real copied' real' : List α}

theorem Copies.append (h : Copies gap copied real) (xs : List α) : Copies gap (copied ++ xs) (real ++ xs) where
  le := by simpa using h.le
  lt p hp := by
    have := h.lt p hp
    rw [List.length_append]
    omega
  below p hp := by
    obtain ⟨hle, htake⟩ := h.below p hp
    have := h.lt p hp
    rw [List.take_append_of_le_length hle, List.take_append_of_le_length (by omega), List.length_append]
    exact ⟨by omega, htake⟩
  whole hg := by rw [h.whole hg]

theorem Copies.spill (h : Copies gap copied real) {xs : List α} (hxs : xs ≠ []) :
    Copies (gap <|> some copied.length) copied (real ++ xs) := by
  have hpos := List.length_pos_iff.2 hxs
  have hle := h.le
  cases gap with
  | none =>
      obtain rfl := h.whole rfl
      refine ⟨by simp, ?_, ?_, nofun⟩ <;> rintro _ ⟨⟩
      · rw [List.length_append]
        omega
      · simp
  | some p =>
      have hlt := h.lt p rfl
      obtain ⟨hbelow, htake⟩ := h.below p rfl
      refine ⟨?_, ?_, ?_, nofun⟩
      · rw [List.length_append]
        omega
      · rintro _ ⟨⟩
        rw [List.length_append]
        omega
      · rintro _ ⟨⟩
        rw [List.take_append_of_le_length (by omega)]
        exact ⟨hbelow, htake⟩

theorem Copies.cut (h : Copies gap copied real) {n : Nat} (hn : n < copied.length) :
    Copies (gap.filter (· < n)) (copied.take n) (real.take n) := by
  have hle := h.le
  have hcopied : (copied.take n).length = n := by rw [List.length_take]; omega
  have hreal : (real.take n).length = n := by rw [List.length_take]; omega
  refine ⟨by omega, fun p hp => ?_, fun p hp => ?_, fun hg => ?_⟩
  · obtain ⟨-, hp⟩ := Option.filter_eq_some_iff.1 hp
    rw [hreal]
    simpa using hp
  · obtain ⟨hgap, hp⟩ := Option.filter_eq_some_iff.1 hp
    have hp : p < n := by simpa using hp
    rw [hcopied, List.take_take, List.take_take, Nat.min_eq_left (Nat.le_of_lt hp)]
    exact ⟨Nat.le_of_lt hp, (h.below p hgap).2⟩
  · cases hgap : gap with
    | none => rw [h.whole hgap]
    | some p =>
        have hp : n ≤ p := by simpa [hgap] using hg
        have htake := congrArg (List.take n) (h.below p hgap).2
        rwa [List.take_take, List.take_take, Nat.min_eq_left hp] at htake

theorem Copies.shift (h : Copies gap copied real) (hs : Shift copied real copied' real') :
    Copies (gapAfter gap copied.length real.length copied'.length real'.length) copied' real' := by
  unfold gapAfter
  cases hs with
  | append xs =>
      rw [if_neg (by simp), if_neg (by simp)]
      exact h.append xs
  | spill xs =>
      rw [if_neg (by simp)]
      cases xs with
      | nil => simpa using h
      | cons x xs =>
          rw [if_pos (by simp)]
          exact h.spill (List.cons_ne_nil x xs)
  | cut n hn =>
      have hle := h.le
      have hreal : (real.take n).length = n := by rw [List.length_take]; omega
      rw [hreal, if_pos (by omega)]
      exact h.cut hn
  | clear =>
      rw [List.length_nil]
      split
      · refine ⟨Nat.le_refl _, fun p hp => ?_, fun p hp => ?_, fun _ => rfl⟩ <;> simp at hp
      · obtain rfl : gap = none := Option.eq_none_iff_forall_ne_some.2 fun p hp => by
          have := h.lt p hp
          omega
        rw [if_neg (by simp)]
        exact ⟨Nat.le_refl _, nofun, nofun, fun _ => rfl⟩

end Shift

structure Gaps where
  columns : Option Nat
  rows : Option Nat
deriving DecidableEq

def Gaps.after (g : Gaps) : Extent × Extent → Extent × Extent → Gaps
  | (copied, real), (copied', real') =>
      ⟨gapAfter g.columns copied.columns real.columns copied'.columns real'.columns,
        gapAfter g.rows copied.rows real.rows copied'.rows real'.rows⟩

namespace Relaxation

variable {view : σ → Contents σ} {r r' : Relaxation σ}

def Synced (view : σ → Contents σ) (r : Relaxation σ) : Prop := r.contents = view r.solver

structure Shifts (view : σ → Contents σ) (r r' : Relaxation σ) : Prop where
  columns : Shift r.columns (view r.solver).columns r'.columns (view r'.solver).columns
  rows : Shift r.rows (view r.solver).rows r'.rows (view r'.solver).rows

def Spilled (view : σ → Contents σ) (cs : List (Solver.Column σ)) (rs : List (Solver.Row σ)) (r : Relaxation σ) :
    Prop :=
  (∃ k, 0 < k ∧ k < cs.length ∧ view r.solver = r.contents.append ⟨cs.take k, []⟩) ∨
    ∃ k, 0 < k ∧ k < rs.length ∧ view r.solver = r.contents.append ⟨[], rs.take k⟩

section Calls

variable {act : SolverM σ Unit} {f : Relaxation σ → Relaxation σ} {Q : Unit → σ → Prop} {E : SolverError → σ → Prop}

theorem ends_edit (h : Ends act r.solver Q E) :
    Ends (do
        onSolver act
        modify f : RelaxationM σ Unit) r (fun _ r' => ∃ s, r' = f { r with solver := s } ∧ Q () s)
      fun e r' => ∃ s, r' = { r with solver := s } ∧ E e s := by
  unfold onSolver
  simp only [ends_bind, ends_onPart, ends_modify]
  exact h.mono (fun _ s hs => ⟨s, rfl, hs⟩) fun _ s hs => ⟨s, rfl, hs⟩

theorem addColumns_view (hv : Faithful view) (cs : List (Solver.Column σ)) (s : σ) :
    Ends (Solver.addColumns cs) s (fun _ s' => view s' = (view s).append ⟨cs, []⟩)
      fun _ s' => ∃ k, k < cs.length ∧ view s' = (view s).append ⟨cs.take k, []⟩ := by
  rw [hv.addColumns]
  induction cs generalizing s with
  | nil => exact (Contents.append_empty _).symm
  | cons c cs ih =>
      rw [List.forM, ends_bind]
      refine (hv.addColumn s c).mono (fun _ s₁ h₁ => ?_) fun _ s₁ h₁ =>
        ⟨0, Nat.succ_pos _, h₁.trans (Contents.append_empty _).symm⟩
      refine (ih s₁).mono (fun _ s' h => ?_) fun _ s' h => ?_
      · simp [h, h₁, Contents.append]
      · obtain ⟨k, hk, h⟩ := h
        exact ⟨k + 1, Nat.succ_lt_succ hk, by simp [h, h₁, Contents.append]⟩

theorem addRows_view (hv : Faithful view) (rs : List (Solver.Row σ)) (s : σ) :
    Ends (Solver.addRows rs) s (fun _ s' => view s' = (view s).append ⟨[], rs⟩)
      fun _ s' => ∃ k, k < rs.length ∧ view s' = (view s).append ⟨[], rs.take k⟩ := by
  rw [hv.addRows]
  induction rs generalizing s with
  | nil => exact (Contents.append_empty _).symm
  | cons r rs ih =>
      rw [List.forM, ends_bind]
      refine (hv.addRow s r).mono (fun _ s₁ h₁ => ?_) fun _ s₁ h₁ =>
        ⟨0, Nat.succ_pos _, h₁.trans (Contents.append_empty _).symm⟩
      refine (ih s₁).mono (fun _ s' h => ?_) fun _ s' h => ?_
      · simp [h, h₁, Contents.append]
      · obtain ⟨k, hk, h⟩ := h
        exact ⟨k + 1, Nat.succ_lt_succ hk, by simp [h, h₁, Contents.append]⟩

/-- What the edits do to the copy and to the solver: both have followed `g`, or the solver has failed before either
has changed. -/
def Follows (view : σ → Contents σ) (g : Contents σ → Contents σ) (r r' : Relaxation σ) : Prop :=
  r'.contents = g r.contents ∧ view r'.solver = g (view r.solver)

theorem extendColumns_follows (hv : Faithful view) (cs : List (Solver.Column σ)) (r : Relaxation σ) :
    Ends (extendColumns cs) r (fun _ => Follows view (·.append ⟨cs, []⟩) r)
      fun _ r' => r'.contents = r.contents ∧
        ∃ k, k < cs.length ∧ view r'.solver = (view r.solver).append ⟨cs.take k, []⟩ := by
  unfold extendColumns
  split
  · rename_i hempty
    rw [List.isEmpty_iff.1 hempty]
    exact ⟨(Contents.append_empty _).symm, (Contents.append_empty _).symm⟩
  · refine (ends_edit (addColumns_view hv cs r.solver)).mono ?_ ?_
    · rintro _ _ ⟨s, rfl, hs⟩
      exact ⟨by simp [contents, Contents.append], hs⟩
    · rintro _ _ ⟨s, rfl, hs⟩
      exact ⟨rfl, hs⟩

theorem extendRows_follows (hv : Faithful view) (rs : List (Solver.Row σ)) (r : Relaxation σ) :
    Ends (extendRows rs) r (fun _ => Follows view (·.append ⟨[], rs⟩) r)
      fun _ r' => r'.contents = r.contents ∧
        ∃ k, k < rs.length ∧ view r'.solver = (view r.solver).append ⟨[], rs.take k⟩ := by
  unfold extendRows
  split
  · rename_i hempty
    rw [List.isEmpty_iff.1 hempty]
    exact ⟨(Contents.append_empty _).symm, (Contents.append_empty _).symm⟩
  · refine (ends_edit (addRows_view hv rs r.solver)).mono ?_ ?_
    · rintro _ _ ⟨s, rfl, hs⟩
      exact ⟨by simp [contents, Contents.append], hs⟩
    · rintro _ _ ⟨s, rfl, hs⟩
      exact ⟨rfl, hs⟩

def cutColumns (n : Nat) (r : Relaxation σ) (c : Contents σ) : Contents σ :=
  if n < r.columns.length then { c with columns := c.columns.take n } else c

def cutRows (n : Nat) (r : Relaxation σ) (c : Contents σ) : Contents σ :=
  if n < r.rows.length then { c with rows := c.rows.take n } else c

theorem shrinkColumns_follows (hv : Faithful view) (n : Nat) (r : Relaxation σ) :
    Ends (shrinkColumns n) r (fun _ => Follows view (cutColumns n r) r) fun _ => Follows view id r := by
  unfold shrinkColumns Follows cutColumns
  rw [ends_bind, ends_get]
  split
  · refine (ends_edit (hv.shrinkColumns r.solver n)).mono ?_ ?_
    · rintro _ _ ⟨s, rfl, hs⟩
      exact ⟨rfl, hs⟩
    · rintro _ _ ⟨s, rfl, hs⟩
      exact ⟨rfl, hs⟩
  · exact ⟨rfl, rfl⟩

theorem shrinkRows_follows (hv : Faithful view) (n : Nat) (r : Relaxation σ) :
    Ends (shrinkRows n) r (fun _ => Follows view (cutRows n r) r) fun _ => Follows view id r := by
  unfold shrinkRows Follows cutRows
  rw [ends_bind, ends_get]
  split
  · refine (ends_edit (hv.shrinkRows r.solver n)).mono ?_ ?_
    · rintro _ _ ⟨s, rfl, hs⟩
      exact ⟨rfl, hs⟩
    · rintro _ _ ⟨s, rfl, hs⟩
      exact ⟨rfl, hs⟩
  · exact ⟨rfl, rfl⟩

end Calls

theorem Follows.synced {g : Contents σ → Contents σ} (h : Follows view g r r') (hr : Synced view r) : Synced view r' :=
  h.1.trans ((congrArg g hr).trans h.2.symm)

theorem Follows.appends {c : Contents σ} (h : Follows view (·.append c) r r') : Shifts view r r' := by
  obtain ⟨hcopy, hview⟩ := h
  obtain ⟨hcolumns, hrows⟩ := Contents.mk.inj hcopy
  exact ⟨hcolumns ▸ hview ▸ .append c.columns, hrows ▸ hview ▸ .append c.rows⟩

theorem Follows.stays (h : Follows view id r r') : Shifts view r r' :=
  appends (c := .empty) (by simpa [Follows] using h)

theorem Follows.empties (h : Follows view (fun _ => .empty) r r') : Shifts view r r' := by
  obtain ⟨hcopy, hview⟩ := h
  obtain ⟨hcolumns, hrows⟩ := Contents.mk.inj hcopy
  exact ⟨hcolumns ▸ hview ▸ .clear, hrows ▸ hview ▸ .clear⟩

theorem Shifts.halves {r₁ : Relaxation σ} (hc : Shift r.columns (view r.solver).columns r₁.columns
    (view r₁.solver).columns) (hr : Shift r₁.rows (view r₁.solver).rows r'.rows (view r'.solver).rows)
    (hrows : r₁.rows = r.rows ∧ (view r₁.solver).rows = (view r.solver).rows)
    (hcolumns : r'.columns = r₁.columns ∧ (view r'.solver).columns = (view r₁.solver).columns) :
    Shifts view r r' :=
  ⟨by rwa [hcolumns.1, hcolumns.2], by rwa [← hrows.1, ← hrows.2]⟩

theorem Synced.of_batch {c : Contents σ} (hr : Synced view r) (hstay : r'.contents = r.contents)
    (hview : view r'.solver = (view r.solver).append c) (hc : c = .empty) : Synced view r' := by
  rw [Synced, hstay, hview, hc, Contents.append_empty]
  exact hr

theorem extend_shifts (hv : Faithful view) (cs : List (Solver.Column σ)) (rs : List (Solver.Row σ))
    (r : Relaxation σ) :
    Ends (extend cs rs) r
      (fun _ r' => Shifts view r r' ∧ (Synced view r → Synced view r'))
      fun _ r' => Shifts view r r' ∧ (Synced view r → Synced view r' ∨ Spilled view cs rs r') := by
  unfold extend
  rw [ends_bind]
  refine (extendColumns_follows hv cs r).mono (fun _ r₁ h₁ => ?_) ?_
  · have hrows₁ : r₁.rows = r.rows ∧ (view r₁.solver).rows = (view r.solver).rows := by
      have := Contents.mk.inj h₁.1
      simp [this.2, h₁.2, Contents.append, contents]
    refine (extendRows_follows hv rs r₁).mono (fun _ r' h => ?_) ?_
    · have hcolumns' : r'.columns = r₁.columns ∧ (view r'.solver).columns = (view r₁.solver).columns := by
        have := Contents.mk.inj h.1
        simp [this.1, h.2, Contents.append, contents]
      exact ⟨.halves h₁.appends.columns h.appends.rows hrows₁ hcolumns', fun hr => h.synced (h₁.synced hr)⟩
    · rintro _ r' ⟨hstay, k, hk, hview⟩
      obtain ⟨hcolumns', hrows'⟩ := Contents.mk.inj hstay
      refine ⟨.halves h₁.appends.columns ?_ hrows₁ ⟨hcolumns', ?_⟩, fun hr => ?_⟩
      · rw [hrows', hview]
        exact .spill _
      · simp [hview, Contents.append]
      · rcases Nat.eq_zero_or_pos k with rfl | hpos
        · exact .inl ((h₁.synced hr).of_batch hstay hview rfl)
        · exact .inr (.inr ⟨k, hpos, hk, by rw [hview, hstay, h₁.synced hr]⟩)
  · rintro _ r' ⟨hstay, k, hk, hview⟩
    obtain ⟨hcolumns, hrows⟩ := Contents.mk.inj hstay
    refine ⟨⟨?_, ?_⟩, fun hr => ?_⟩
    · rw [hcolumns, hview]
      exact .spill _
    · rw [hrows, hview, Contents.append, List.append_nil]
      exact .refl _ _
    · rcases Nat.eq_zero_or_pos k with rfl | hpos
      · exact .inl (hr.of_batch hstay hview rfl)
      · exact .inr (.inl ⟨k, hpos, hk, by rw [hview, hstay, hr]⟩)

theorem cutColumns_shifts {n : Nat} (h : Follows view (cutColumns n r) r r') :
    Shift r.columns (view r.solver).columns r'.columns (view r'.solver).columns ∧
      r'.rows = r.rows ∧ (view r'.solver).rows = (view r.solver).rows := by
  obtain ⟨hcopy, hview⟩ := h
  rw [hview]
  by_cases hlt : n < r.columns.length
  · simp only [cutColumns, if_pos hlt] at hcopy ⊢
    obtain ⟨hcolumns, hrows⟩ := Contents.mk.inj hcopy
    rw [hcolumns, hrows]
    exact ⟨.cut n hlt, rfl, trivial⟩
  · simp only [cutColumns, if_neg hlt] at hcopy ⊢
    obtain ⟨hcolumns, hrows⟩ := Contents.mk.inj hcopy
    rw [hcolumns, hrows]
    exact ⟨.refl _ _, rfl, trivial⟩

theorem cutRows_shifts {n : Nat} (h : Follows view (cutRows n r) r r') :
    Shift r.rows (view r.solver).rows r'.rows (view r'.solver).rows ∧
      r'.columns = r.columns ∧ (view r'.solver).columns = (view r.solver).columns := by
  obtain ⟨hcopy, hview⟩ := h
  rw [hview]
  by_cases hlt : n < r.rows.length
  · simp only [cutRows, if_pos hlt] at hcopy ⊢
    obtain ⟨hcolumns, hrows⟩ := Contents.mk.inj hcopy
    rw [hcolumns, hrows]
    exact ⟨.cut n hlt, rfl, trivial⟩
  · simp only [cutRows, if_neg hlt] at hcopy ⊢
    obtain ⟨hcolumns, hrows⟩ := Contents.mk.inj hcopy
    rw [hcolumns, hrows]
    exact ⟨.refl _ _, rfl, trivial⟩

theorem shrink_shifts (hv : Faithful view) (size : Extent) (r : Relaxation σ) :
    Ends (shrink size) r (fun _ r' => Shifts view r r' ∧ (Synced view r → Synced view r'))
      fun _ r' => Shifts view r r' ∧ (Synced view r → Synced view r') := by
  unfold shrink
  rw [ends_bind]
  refine (shrinkColumns_follows hv size.columns r).mono (fun _ r₁ h₁ => ?_) fun _ r' h => ⟨h.stays, h.synced⟩
  obtain ⟨hcolumns, hrows⟩ := cutColumns_shifts h₁
  refine (shrinkRows_follows hv size.rows r₁).mono (fun _ r' h => ?_) fun _ r' h => ?_
  · obtain ⟨hrows', hcolumns'⟩ := cutRows_shifts h
    exact ⟨.halves hcolumns hrows' hrows hcolumns', fun hr => h.synced (h₁.synced hr)⟩
  · have := Contents.mk.inj h.1
    exact ⟨.halves hcolumns h.stays.rows hrows ⟨this.1, congrArg Contents.columns h.2⟩,
      fun hr => h.synced (h₁.synced hr)⟩

/-- Whatever is done and wherever the solver fails, columns and rows change in one of the four ways, and a copy that
was right is right afterwards unless a batch has been broken off. -/
theorem perform_shifts (hv : Faithful view) (edit : Edit σ) (r : Relaxation σ) :
    Ends edit.perform r (fun _ r' => Shifts view r r' ∧ (Synced view r → Synced view r'))
      fun _ r' => Shifts view r r' ∧
        (Synced view r → Synced view r' ∨ ∃ cs rs, edit = .extend cs rs ∧ Spilled view cs rs r') := by
  have hstays : ∀ r' : Relaxation σ, Follows view id r r' → Shifts view r r' ∧
      (Synced view r → Synced view r' ∨ ∃ cs rs, edit = .extend cs rs ∧ Spilled view cs rs r') :=
    fun r' h => ⟨h.stays, fun hr => .inl (h.synced hr)⟩
  cases edit with
  | addColumn c =>
      refine (ends_edit (hv.addColumn r.solver c)).mono ?_ ?_
      · rintro _ _ ⟨s, rfl, hs⟩
        have h : Follows view (·.append ⟨[c], []⟩) r { r with solver := s, columns := r.columns ++ [c] } :=
          ⟨by simp [contents, Contents.append], hs⟩
        exact ⟨h.appends, h.synced⟩
      · rintro _ _ ⟨s, rfl, hs⟩
        exact hstays _ ⟨rfl, hs⟩
  | addRow row =>
      refine (ends_edit (hv.addRow r.solver row)).mono ?_ ?_
      · rintro _ _ ⟨s, rfl, hs⟩
        have h : Follows view (·.append ⟨[], [row]⟩) r { r with solver := s, rows := r.rows ++ [row] } :=
          ⟨by simp [contents, Contents.append], hs⟩
        exact ⟨h.appends, h.synced⟩
      · rintro _ _ ⟨s, rfl, hs⟩
        exact hstays _ ⟨rfl, hs⟩
  | extend cs rs =>
      exact (extend_shifts hv cs rs r).mono (fun _ _ h => h) fun _ r' h =>
        ⟨h.1, fun hr => (h.2 hr).imp_right fun h => ⟨cs, rs, rfl, h⟩⟩
  | shrink size =>
      exact (shrink_shifts hv size r).mono (fun _ _ h => h) fun _ r' h => ⟨h.1, fun hr => .inl (h.2 hr)⟩
  | clear =>
      refine (ends_edit (hv.clear r.solver)).mono ?_ ?_
      · rintro _ _ ⟨s, rfl, hs⟩
        have h : Follows view (fun _ => .empty) r { r with solver := s, columns := [], rows := [] } := ⟨rfl, hs⟩
        exact ⟨h.empties, h.synced⟩
      · rintro _ _ ⟨s, rfl, hs⟩
        exact hstays _ ⟨rfl, hs⟩

def edited (r : Relaxation σ) (edits : List (Edit σ)) : Relaxation σ :=
  edits.foldl (fun r edit => left edit.perform r) r

def gaps (view : σ → Contents σ) (g : Gaps) (r : Relaxation σ) : List (Edit σ) → Gaps
  | [] => g
  | edit :: edits =>
      let r' := left edit.perform r
      gaps view (g.after (r.size, (view r.solver).size) (r'.size, (view r'.solver).size)) r' edits

structure Mirrors (view : σ → Contents σ) (g : Gaps) (r : Relaxation σ) : Prop where
  columns : Copies g.columns r.columns (view r.solver).columns
  rows : Copies g.rows r.rows (view r.solver).rows

theorem Mirrors.after {g : Gaps} (h : Mirrors view g r) (hs : Shifts view r r') :
    Mirrors view (g.after (r.size, (view r.solver).size) (r'.size, (view r'.solver).size)) r' :=
  ⟨h.columns.shift hs.columns, h.rows.shift hs.rows⟩

theorem mirrors_edited (hv : Faithful view) {g : Gaps} (h : Mirrors view g r) (edits : List (Edit σ)) :
    Mirrors view (gaps view g r edits) (r.edited edits) := by
  induction edits generalizing g r with
  | nil => exact h
  | cons edit edits ih =>
      refine ih (h.after ?_)
      exact ((perform_shifts hv edit r).mono (fun _ _ h => h.1) fun _ _ h => h.1).left

theorem synced_edited (hv : Faithful view) (hr : Synced view r) {edits : List (Edit σ)}
    (hok : ∀ before cs rs, before ++ [.extend cs rs] <+: edits → ∃ r', extend cs rs (r.edited before) = .ok () r') :
    Synced view (r.edited edits) := by
  induction edits using List.reverseRecOn with
  | nil => exact hr
  | append_singleton edits edit ih =>
      have hrest := ih fun before cs rs h => hok before cs rs (h.trans (List.prefix_append _ _))
      unfold edited at hrest ⊢
      rw [List.foldl_append]
      have hlast := perform_shifts hv edit (r.edited edits)
      refine Ends.left (P := Synced view) ((hlast.and (ends_run _ _)).mono (fun _ _ h => h.1.2 hrest) ?_)
      rintro e r' ⟨⟨-, h⟩, hrun⟩
      refine (h hrest).resolve_right ?_
      rintro ⟨cs, rs, rfl, -⟩
      obtain ⟨r'', hr''⟩ := hok edits cs rs List.prefix_rfl
      cases hrun.symm.trans hr''

/-- Of a relaxation that starts empty, the copy is what the solver holds up to a place that the sizes alone tell, and
the whole of it if there is none. It comes to be short only by a batch broken off, of which the solver has then kept
the beginning. -/
theorem copy_accounted (hv : Faithful view) {s : σ} (hs : view s = .empty) (edits : List (Edit σ)) :
    Mirrors view (gaps view ⟨none, none⟩ (ofSolver s) edits) ((ofSolver s).edited edits) ∧
      (∀ edit : Edit σ, Synced view ((ofSolver s).edited edits) →
        Ends edit.perform ((ofSolver s).edited edits) (fun _ => Synced view) fun _ r' =>
          Synced view r' ∨ ∃ cs rs, edit = .extend cs rs ∧ Spilled view cs rs r') ∧
      ((∀ before cs rs, before ++ [.extend cs rs] <+: edits →
          ∃ r', extend cs rs ((ofSolver s).edited before) = .ok () r') → Synced view ((ofSolver s).edited edits)) := by
  have h₀ : Synced view (ofSolver s) := hs.symm
  refine ⟨mirrors_edited hv ⟨?_, ?_⟩ edits, fun edit hr => ?_, synced_edited hv h₀⟩
  · exact Copies.of_eq (congrArg Contents.columns h₀)
  · exact Copies.of_eq (congrArg Contents.rows h₀)
  · exact (perform_shifts hv edit _).mono (fun _ _ h => h.2 hr) fun _ _ h => h.2 hr

end Relaxation

namespace ScriptedSolver

def held (s : ScriptedSolver) : Contents ScriptedSolver := ⟨s.columns, s.rows⟩

theorem attemptEdit_held (m : SolverMethod) (c : SolverCall) {edit : ScriptedSolver → ScriptedSolver}
    {f : Contents ScriptedSolver → Contents ScriptedSolver} (hf : ∀ s, (edit s).held = f s.held) (s : ScriptedSolver) :
    Ends (attemptEdit m c edit) s (fun _ s' => s'.held = f s.held) fun _ s' => s'.held = s.held := by
  unfold attemptEdit attempt Ends
  rcases hplan : s.plan m with - | ⟨_ | k, text⟩ <;> simp only [hplan]
  · exact hf _
  · rfl
  · exact hf _

theorem faithful : Faithful held where
  addColumn s _ := attemptEdit_held (f := (·.append _)) _ _ (fun _ => by simp [held, Contents.append]) s
  addRow s _ := attemptEdit_held (f := (·.append _)) _ _ (fun _ => by simp [held, Contents.append]) s
  addColumns _ := rfl
  addRows _ := rfl
  shrinkColumns s n := attemptEdit_held (f := fun c => { c with columns := c.columns.take n }) _ _ (fun _ => rfl) s
  shrinkRows s n := attemptEdit_held (f := fun c => { c with rows := c.rows.take n }) _ _ (fun _ => rfl) s
  clear s := attemptEdit_held (f := fun _ => .empty) _ _ (fun _ => rfl) s

end ScriptedSolver

namespace Relaxation

/-- The second column of the batch fails. The copy lacks the first one, and is right again after clearing. -/
theorem copy_accounted_batch_broken :
    let r := ofSolver (ScriptedSolver.fresh.planFailure .addColumn (some ⟨1, "boom"⟩))
    let broken : List (Edit ScriptedSolver) := [.extend [(1 : Int), (2 : Int)] [], .addRow (5 : Int)]
    let cleared := broken ++ [.clear, .addColumn (3 : Int)]
    Mirrors ScriptedSolver.held ⟨some 0, none⟩ (r.edited broken) ∧
      Mirrors ScriptedSolver.held ⟨none, none⟩ (r.edited cleared) := by
  intro r broken cleared
  have hbroken : gaps ScriptedSolver.held ⟨none, none⟩ r broken = ⟨some 0, none⟩ := by decide +kernel
  have hcleared : gaps ScriptedSolver.held ⟨none, none⟩ r cleared = ⟨none, none⟩ := by decide +kernel
  exact ⟨hbroken ▸ (copy_accounted ScriptedSolver.faithful rfl broken).1,
    hcleared ▸ (copy_accounted ScriptedSolver.faithful rfl cleared).1⟩

/-- A solver that behaves holds a column that the copy of it lacks. -/
theorem not_synced_batch_broken :
    let s := ScriptedSolver.fresh.planFailure .addColumn (some ⟨1, "boom"⟩)
    Faithful ScriptedSolver.held ∧ s.held = .empty ∧
      ¬ Synced ScriptedSolver.held ((ofSolver s).edited [.extend [(1 : Int), (2 : Int)] []]) := by
  refine ⟨ScriptedSolver.faithful, rfl, fun h => ?_⟩
  cases congrArg Contents.columns h

end Relaxation

end BranchBound
