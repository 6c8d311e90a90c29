import BranchBound.Proofs.Clearance

namespace BranchBound.Tree

variable {σ : Type} [Solver σ] {cmp : NodeOrder} {K K' : Charge σ}
  {t t' : Tree σ cmp} {s : Stage} {id : Handle} {n : Node σ} {x : Option Handle}

theorem nearest?_spec {q : Role σ → Bool} {l : List Handle} (h : Climb t.nodes x l none) :
    ∃ g, t.nearest? q l = .ok g ∧ Nearest t.nodes q x g := by
  generalize hy : (none : Option Handle) = y at h
  induction h with
  | done => exact ⟨none, rfl, hy ▸ .top⟩
  | @step h n l y hn hrest ih =>
      obtain ⟨g, hg, hnear⟩ := ih hy
      unfold nearest?
      rw [node_eq_ok.2 hn]
      cases hq : q n.role with
      | true =>
          refine ⟨some h, ?_, .here hn hq⟩
          change (if q n.role = true then _ else _) = _
          rw [if_pos hq]
          rfl
      | false =>
          refine ⟨g, ?_, .above hn hq hnear⟩
          change (if q n.role = true then _ else _) = _
          rw [if_neg (by rw [hq]; exact Bool.false_ne_true)]
          exact hg

def OffPath (a : Arena (Node σ)) (ids : List Handle) : Prop :=
  ∀ h ∈ ids, ∀ n, a.get? h = some n → n.onPath = false

theorem offPath_nil {a : Arena (Node σ)} : OffPath a [] := fun _ hh => nomatch hh

theorem OffPath.cons {a : Arena (Node σ)} {ids : List Handle} (h : OffPath a ids) (hn : a.get? id = some n)
    (ho : n.onPath = false) : OffPath a (id :: ids) := by
  intro k hk m hm
  obtain rfl | hk := List.mem_cons.1 hk
  · cases hn.symm.trans hm
    exact ho
  · exact h k hk m hm

theorem climb_spec (hf : Forest t.nodes t.root) (hw : Walk t.nodes t.path) (fuel : Nat)
    (hx : Live t.nodes x)
    (hd : ∀ p n, x = some p → t.nodes.get? p = some n → n.depth + 1 = fuel) :
    ∃ up common, t.climb fuel x = .ok (up, common) ∧
      Climb t.nodes x up (before t.path ((common.map (· + 1)).getD 0)) ∧
      (common.map (· + 1)).getD 0 ≤ t.path.length ∧ OffPath t.nodes up := by
  induction fuel generalizing x with
  | zero =>
      cases x with
      | none => exact ⟨[], none, rfl, .done, Nat.zero_le _, offPath_nil⟩
      | some p =>
          obtain ⟨n, hn⟩ := hx p rfl
          cases hd p n rfl hn
  | succ fuel ih =>
      cases x with
      | none => exact ⟨[], none, rfl, .done, Nat.zero_le _, offPath_nil⟩
      | some p =>
          obtain ⟨n, hn⟩ := hx p rfl
          have hdepth := hd p n rfl hn
          unfold climb
          rw [node_eq_ok.2 hn]
          cases ho : n.onPath with
          | true =>
              have hplace := hw.at_depth hn ho
              refine ⟨[], some n.depth, ?_, ?_, ?_, offPath_nil⟩
              · change (if n.onPath = true then _ else _) = _
                rw [if_pos ho]
                rfl
              · change Climb _ _ _ (before t.path (n.depth + 1))
                rw [before_succ hplace]
                exact .done
              · exact (List.getElem?_eq_some_iff.1 hplace).1
          | false =>
              obtain ⟨up, common, hup, hclimb, hle, hoff⟩ := ih (hf.live_parent hn) fun q m hq hm => by
                obtain ⟨m', hm', hdm⟩ := hf.hung p n q hn hq
                cases hm.symm.trans hm'
                omega
              refine ⟨p :: up, common, ?_, .step hn hclimb, hle, hoff.cons hn ho⟩
              change (if n.onPath = true then _ else _) = _
              rw [if_neg (by rw [ho]; exact Bool.false_ne_true), hup]
              rfl

/-- A route leads from the path to a target that hangs from `anchor`. -/
structure Leads (t : Tree σ cmp) (r : Route) (target anchor : Option Handle) : Prop where
  climb : Climb t.nodes target r.fresh (before t.path r.keep)
  keep_le : r.keep ≤ t.path.length
  head : r.fresh.head? = target
  off : OffPath t.nodes r.fresh
  lpFork : Nearest t.nodes Role.isSnapshot anchor r.lpFork
  subroot : Nearest t.nodes Role.isSubroot anchor r.subroot

theorem leads_out (t : Tree σ cmp) : Leads t .out none none where
  climb := .done
  keep_le := Nat.zero_le _
  head := rfl
  off := offPath_nil
  lpFork := .top
  subroot := .top

theorem route_spec (h : Sound K s t) (hn : t.nodes.get? id = some n) (ho : n.onPath = false) :
    ∃ r, t.route id = .ok r ∧ Leads t r (some id) n.parent := by
  obtain ⟨up, common, hup, hclimb, hle, hoff⟩ := climb_spec h.forest h.walk n.depth
    (h.forest.live_parent hn) fun p m hp hm => by
      obtain ⟨m', hm', hd⟩ := h.forest.hung id n p hn hp
      cases hm.symm.trans hm'
      exact hd.symm
  have habove : Climb t.nodes n.parent (up ++
      (t.path.take ((common.map (· + 1)).getD 0)).reverse) none :=
    hclimb.append (h.walk.climb hle)
  obtain ⟨g, hg, hnear⟩ := nearest?_spec (q := Role.isSnapshot) habove
  obtain ⟨g', hg', hnear'⟩ := nearest?_spec (q := Role.isSubroot) habove
  refine ⟨⟨id :: up, common, g, g'⟩, ?_, .step hn hclimb, hle, rfl, hoff.cons hn ho, hnear, hnear'⟩
  have hkeep : ¬ t.path.length < (⟨id :: up, common, none, none⟩ : Route).keep := Nat.not_lt.2 hle
  unfold route
  rw [node_eq_ok.2 hn]
  change (t.climb n.depth n.parent >>= _) = _
  rw [hup]
  change (if t.path.length < (⟨id :: up, common, none, none⟩ : Route).keep then _ else _) = _
  rw [if_neg hkeep]
  change (t.nearest? Role.isSnapshot (up ++ (t.path.take ((common.map (· + 1)).getD 0)).reverse) >>= _) = _
  rw [hg]
  change (t.nearest? Role.isSubroot (up ++ (t.path.take ((common.map (· + 1)).getD 0)).reverse) >>= _) = _
  rw [hg']
  rfl

end BranchBound.Tree
