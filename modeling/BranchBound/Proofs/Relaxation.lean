import BranchBound.Proofs.Contents
import BranchBound.Proofs.Ends

namespace BranchBound.Relaxation

variable {σ : Type} [Solver σ] {r : Relaxation σ}

section Rules

variable {α : Type} {Q : α → Relaxation σ → Prop} {E : SolverError → Relaxation σ → Prop}

theorem ends_onSolver {act : SolverM σ α} (hQ : ∀ a s, Q a { r with solver := s })
    (hE : ∀ e s, E e { r with solver := s }) : Ends (onSolver act) r Q E := by
  unfold onSolver
  rw [ends_onPart]
  unfold Ends
  cases act r.solver with
  | ok a s => exact hQ a s
  | error e s => exact hE e s

end Rules

theorem addColumn_contents (c : Solver.Column σ) (r : Relaxation σ) :
    Ends (addColumn c) r (fun _ r' => r'.contents = r.contents.append ⟨[c], []⟩)
      fun _ r' => r'.contents = r.contents := by
  unfold addColumn
  rw [ends_bind]
  refine ends_onSolver (fun _ s => ?_) fun _ _ => rfl
  rw [ends_modify]
  simp [contents, Contents.append]

theorem addRow_contents (row : Solver.Row σ) (r : Relaxation σ) :
    Ends (addRow row) r (fun _ r' => r'.contents = r.contents.append ⟨[], [row]⟩)
      fun _ r' => r'.contents = r.contents := by
  unfold addRow
  rw [ends_bind]
  refine ends_onSolver (fun _ s => ?_) fun _ _ => rfl
  rw [ends_modify]
  simp [contents, Contents.append]

theorem extendColumns_contents (cs : List (Solver.Column σ)) (r : Relaxation σ) :
    Ends (extendColumns cs) r (fun _ r' => r'.contents = r.contents.append ⟨cs, []⟩)
      fun _ r' => r'.contents = r.contents := by
  unfold extendColumns
  split
  · rename_i h
    rw [List.isEmpty_iff.1 h]
    exact (Contents.append_empty _).symm
  · rw [ends_bind]
    refine ends_onSolver (fun _ s => ?_) fun _ _ => rfl
    rw [ends_modify]
    simp [contents, Contents.append]

theorem extendRows_contents (rs : List (Solver.Row σ)) (r : Relaxation σ) :
    Ends (extendRows rs) r (fun _ r' => r'.contents = r.contents.append ⟨[], rs⟩)
      fun _ r' => r'.contents = r.contents := by
  unfold extendRows
  split
  · rename_i h
    rw [List.isEmpty_iff.1 h]
    exact (Contents.append_empty _).symm
  · rw [ends_bind]
    refine ends_onSolver (fun _ s => ?_) fun _ _ => rfl
    rw [ends_modify]
    simp [contents, Contents.append]

theorem extend_contents (c : Contents σ) (r : Relaxation σ) :
    Ends (extend c.columns c.rows) r (fun _ r' => r'.contents = r.contents.append c)
      fun _ r' => r.contents.Begins r'.contents := by
  unfold extend
  refine ((extendColumns_contents c.columns r).mono (fun _ _ h => h) fun _ _ h => h ▸ .refl _).bind fun _ r₁ h₁ => ?_
  refine (extendRows_contents c.rows r₁).mono (fun _ r₂ h₂ => ?_) fun _ r₂ h₂ => ?_
  · rw [h₂, h₁]
    simp [Contents.append]
  · rw [h₂, h₁]
    exact Contents.begins_append _ _

theorem shrinkColumns_contents (n : Nat) (r : Relaxation σ) :
    Ends (shrinkColumns n) r (fun _ r' => r'.contents = ⟨r.columns.take n, r.rows⟩)
      fun _ r' => r'.contents = r.contents := by
  unfold shrinkColumns
  rw [ends_bind, ends_get]
  split
  · rw [ends_bind]
    refine ends_onSolver (fun _ s => ?_) fun _ _ => rfl
    rfl
  · rename_i h
    rw [List.take_of_length_le (Nat.not_lt.1 h)]
    rfl

theorem shrinkRows_contents (n : Nat) (r : Relaxation σ) :
    Ends (shrinkRows n) r (fun _ r' => r'.contents = ⟨r.columns, r.rows.take n⟩)
      fun _ r' => r'.contents = r.contents := by
  unfold shrinkRows
  rw [ends_bind, ends_get]
  split
  · rw [ends_bind]
    refine ends_onSolver (fun _ s => ?_) fun _ _ => rfl
    rfl
  · rename_i h
    rw [List.take_of_length_le (Nat.not_lt.1 h)]
    rfl

/-- What is left after cutting off at the size of a beginning is that beginning. It is there still where the
cutting stops. -/
theorem shrink_contents {c : Contents σ} (h : c.Begins r.contents) :
    Ends (shrink c.size) r (fun _ r' => r'.contents = c) fun _ r' => c.Begins r'.contents := by
  obtain ⟨hc, hr⟩ := h
  have hcolumns : r.columns.take c.size.columns = c.columns := (List.prefix_iff_eq_take.1 hc).symm
  unfold shrink
  refine ((shrinkColumns_contents c.size.columns r).mono (fun _ _ h => h) fun _ _ h => h ▸ ⟨hc, hr⟩).bind
    fun _ r₁ h₁ => ?_
  rw [hcolumns] at h₁
  refine (shrinkRows_contents c.size.rows r₁).mono (fun _ r₂ h₂ => ?_) fun _ r₂ h₂ => ?_
  · simp only [contents, Contents.mk.injEq] at h₁
    rw [h₂, h₁.1, h₁.2, show r.rows.take c.size.rows = c.rows from (List.prefix_iff_eq_take.1 hr).symm]
  · rw [h₂, h₁]
    exact ⟨List.prefix_rfl, hr⟩

theorem clear_contents (r : Relaxation σ) :
    Ends clear r (fun _ r' => r'.contents = .empty) fun _ _ => True := by
  unfold clear
  rw [ends_bind]
  exact ends_onSolver (fun _ s => rfl) fun _ _ => trivial

end BranchBound.Relaxation
