import BranchBound.Proofs.Fidelity

namespace BranchBound

variable {σ : Type} [Solver σ]

/-- A column in the solver: how many calls came before the one that added it, and the bounds that the
solver was told for it since. -/
structure Cell where
  born : Nat
  told : Option Interval

def Call.recell (now : Nat) (cs : List Cell) : Call σ → List Cell
  | .addColumns ds => cs ++ .replicate ds.length ⟨now, none⟩
  | .shrinkColumns n => cs.take n
  | .clear => []
  | .setBounds v lower upper => cs.modify v ({ · with told := some ⟨lower, upper⟩ })
  | _ => cs

namespace Trace

def cells : Trace σ → List Cell
  | [] => []
  | (call, true) :: past => call.recell past.length (cells past)
  | (_, false) :: past => cells past

theorem length_cells (tr : Trace σ) : tr.cells.length = tr.contents.columns.length := by
  induction tr with
  | nil => rfl
  | cons e past ih =>
      obtain ⟨call, _ | _⟩ := e
      · exact ih
      · cases call <;> simp [cells, contents, Call.recell, Call.effect, Contents.append, Contents.empty, ih]

theorem born_lt {tr : Trace σ} {j : Nat} {c : Cell} (h : tr.cells[j]? = some c) : c.born < tr.length := by
  induction tr generalizing j c with
  | nil => simp [cells] at h
  | cons e past ih =>
      rw [List.length_cons]
      obtain ⟨call, _ | _⟩ := e
      · exact Nat.lt_succ_of_lt (ih h)
      · cases call with
        | addColumns ds =>
            rw [cells, Call.recell, List.getElem?_append] at h
            split at h
            · exact Nat.lt_succ_of_lt (ih h)
            · obtain ⟨-, rfl⟩ := List.mem_replicate.1 (List.mem_of_getElem? h)
              exact Nat.lt_succ_self _
        | shrinkColumns n =>
            rw [cells, Call.recell, List.getElem?_take] at h
            split at h
            · exact Nat.lt_succ_of_lt (ih h)
            · cases h
        | clear => simp [cells, Call.recell] at h
        | setBounds v lower upper =>
            rw [cells, Call.recell, List.getElem?_modify] at h
            obtain ⟨c', hc', rfl⟩ := Option.map_eq_some_iff.1 h
            have := ih hc'
            split <;> exact Nat.lt_succ_of_lt this
        | _ => exact Nat.lt_succ_of_lt (ih h)

theorem not_told {tr : Trace σ} {d : Domains} {j : Nat} (hj : j < d.size)
    (h : tr.cells[j]?.map (fun c => c.told.isNone) = some true) :
    ¬ ∀ (j : Nat) (c : Cell) (x : Interval), tr.cells[j]? = some c → d.vars[j]? = some x → c.told = some x := by
  obtain ⟨c, hc, hnone⟩ := Option.map_eq_some_iff.1 h
  intro htold
  rw [htold j c _ hc (Array.getElem?_eq_getElem hj)] at hnone
  cases hnone

end Trace

def settled (cs : List Cell) : Record σ := fun _ tr _ => tr.cells = cs

theorem settled_custody (cs : List Cell) : Custody (settled (σ := σ) cs).charge flawed.charge :=
  (accounts_flawed fun call _ _ hcall h => by cases call <;> first | exact h | cases hcall).custody

/-- Since there were `now` calls, columns went, and others came of which the solver was told nothing. -/
def renewed (now : Nat) (cs : List Cell) : Record σ := fun _ tr _ =>
  now ≤ tr.length ∧ ∀ (j : Nat) (c : Cell), tr.cells[j]? = some c → cs[j]? = some c ∨ now ≤ c.born ∧ c.told = none

theorem renewed_rebuilding (now : Nat) (cs : List Cell) :
    Rebuilding (renewed (σ := σ) now cs).charge flawed.charge := by
  refine (accounts_flawed fun call _ _ hcall h => ?_).rebuilding fun call hcall => keeps_flawed fun _ tr h => ?_
  · refine ⟨Nat.le_succ_of_le h.1, ?_⟩
    cases call <;> first | exact h.2 | cases hcall
  · refine ⟨Nat.le_succ_of_le h.1, fun j c hj => ?_⟩
    cases call with
    | addColumns ds =>
        rw [Trace.cells, Call.recell, List.getElem?_append] at hj
        split at hj
        · exact h.2 j c hj
        · obtain ⟨-, rfl⟩ := List.mem_replicate.1 (List.mem_of_getElem? hj)
          exact .inr ⟨h.1, rfl⟩
    | shrinkColumns n =>
        rw [Trace.cells, Call.recell, List.getElem?_take] at hj
        split at hj
        · exact h.2 j c hj
        · cases hj
    | clear => simp [Trace.cells, Call.recell] at hj
    | addRows rs => exact h.2 j c hj
    | shrinkRows n => exact h.2 j c hj
    | _ => cases hcall

/-- A variable that does not wait has told the solver its bounds, unless its column was overlooked. -/
structure Informed (O : Nat → Bool) (d : Domains) (cs : List Cell) : Prop where
  wellFormed : d.WellFormed
  idle : ∀ j, O j = true → ¬ d.Waits j
  told : ∀ j c x, cs[j]? = some c → d.vars[j]? = some x → ¬ d.Waits j → c.told = if O j then none else some x

theorem Informed.step {O fresh : Nat → Bool} {d d' : Domains} {cs cs' : List Cell} (h : Informed O d cs)
    (ht : d.Touches d')
    (hcells : ∀ j c, cs'[j]? = some c →
      cs[j]? = some c ∧ fresh j = false ∨ c.told = none ∧ (d'.Waits j ∨ fresh j = true ∨ d'.size ≤ j)) :
    Informed (fun j => !decide (d'.Waits j) && (O j || fresh j)) d' cs' := by
  have hd := ht h.wellFormed
  refine ⟨hd.wellFormed, fun j hj => ?_, fun j c x hc hx hw => ?_⟩
  · simp only [Bool.and_eq_true, Bool.not_eq_true', decide_eq_false_iff_not] at hj
    exact hj.1
  · simp only [hw, decide_false, Bool.not_false, Bool.true_and, Bool.or_eq_true]
    have hold : ¬ d.Waits j := fun hw' => hw (hd.waits j hw')
    rcases hcells j c hc with ⟨hc', hf⟩ | ⟨hnone, hw' | hf | hout⟩
    · rw [hd.same j hw] at hx
      simpa [hf] using h.told j c x hc' hx hold
    · exact absurd hw' hw
    · simpa [hf] using hnone
    · have := (Array.getElem?_eq_some_iff.1 hx).1
      exact absurd this (Nat.not_lt.2 hout)

end BranchBound
