import BranchBound.Proofs.Calm

namespace BranchBound

namespace RoleName

/-- How far a node has come: Child, Sibling, Leaf, Active, done. -/
def stage : RoleName → Nat
  | .child => 0
  | .sibling => 1
  | .leaf => 2
  | .active => 3
  | .deadend | .junction | .fork | .subroot => 4

variable {r s : RoleName}

theorem isProcessed_iff : r.isProcessed = true ↔ r.stage = 4 := by
  cases r <;> simp [isProcessed, stage]

theorem isProcessed_eq_false : r.isProcessed = false ↔ r.stage ≤ 3 := by
  cases r <;> simp [isProcessed, stage]

theorem isWaiting_iff : r.isWaiting = true ↔ r.stage ≤ 2 := by
  cases r <;> simp [isWaiting, stage]

theorem isProcessed_of (hw : r.isWaiting = false) (ha : r ≠ .active) : r.isProcessed = true := by
  cases r <;> simp_all [isProcessed, isWaiting]

end RoleName

variable {σ : Type} [Solver σ] {cmp : NodeOrder}

/-- What can become of a node: it stays in its place and its role moves forward. Once its turn has ended it stays as
it is, but for its bound, and for the shares and children that are left. -/
structure Evolves (n m : Node σ) : Prop where
  number : m.number = n.number
  parent : m.parent = n.parent
  depth : m.depth = n.depth
  stage : n.role.name.stage ≤ m.role.name.stage
  settled : n.role.name.isProcessed = true → m.role.name = n.role.name ∧ m.role.layer = n.role.layer ∧
    m.constraints = n.constraints ∧ SameWrites m.log.changes n.log.changes

/-- What an operation can make of a node. Only the active node's turn can end. -/
structure Advances (n m : Node σ) : Prop extends Evolves n m where
  turned : m.role.name.isProcessed = true → n.role.name.isProcessed = true ∨ n.role.name = .active

/-- What can become of a node while nobody's turn ends. -/
structure Persists (n m : Node σ) : Prop extends Evolves n m where
  unturned : m.role.name.isProcessed = true → n.role.name.isProcessed = true

structure Idles (n m : Node σ) : Prop extends Evolves n m where
  name : m.role.name = n.role.name

variable {n m o : Node σ}

theorem Evolves.refl (n : Node σ) : Evolves n n := ⟨rfl, rfl, rfl, Nat.le_refl _, fun _ => ⟨rfl, rfl, rfl, rfl⟩⟩

theorem Evolves.trans (h : Evolves n m) (h' : Evolves m o) : Evolves n o where
  number := h'.number.trans h.number
  parent := h'.parent.trans h.parent
  depth := h'.depth.trans h.depth
  stage := Nat.le_trans h.stage h'.stage
  settled hr := by
    obtain ⟨hname, hlayer, hconstraints, hlog⟩ := h.settled hr
    obtain ⟨hname', hlayer', hconstraints', hlog'⟩ := h'.settled (by rwa [hname])
    exact ⟨hname'.trans hname, hlayer'.trans hlayer, hconstraints'.trans hconstraints, hlog'.trans hlog⟩

theorem Evolves.not_waiting (h : Evolves n m) (hn : n.role.name.isWaiting = false) : m.role.name.isWaiting = false := by
  have := h.stage
  rw [← Bool.not_eq_true, RoleName.isWaiting_iff] at *
  omega

namespace Persists

theorem refl (n : Node σ) : Persists n n := ⟨.refl n, id⟩

theorem trans (h : Persists n m) (h' : Persists m o) : Persists n o :=
  ⟨h.toEvolves.trans h'.toEvolves, fun hr => h.unturned (h'.unturned hr)⟩

theorem advances (h : Persists n m) : Advances n m := ⟨h.toEvolves, fun hr => .inl (h.unturned hr)⟩

theorem of_stage (hnumber : m.number = n.number) (hparent : m.parent = n.parent) (hdepth : m.depth = n.depth)
    (hstage : n.role.name.stage ≤ m.role.name.stage) (hm : m.role.name.stage ≤ 3) : Persists n m where
  number := hnumber
  parent := hparent
  depth := hdepth
  stage := hstage
  settled hr := by
    rw [RoleName.isProcessed_iff] at hr
    omega
  unturned hr := by
    rw [RoleName.isProcessed_iff] at hr
    omega

end Persists

namespace Idles

theorem refl (n : Node σ) : Idles n n := ⟨.refl n, rfl⟩

theorem trans (h : Idles n m) (h' : Idles m o) : Idles n o :=
  ⟨h.toEvolves.trans h'.toEvolves, h'.name.trans h.name⟩

theorem persists (h : Idles n m) : Persists n m := ⟨h.toEvolves, fun hr => h.name ▸ hr⟩

theorem lift (n : Node σ) (bound : Binary64) : Idles n { n with lowerBound := bound } :=
  ⟨⟨rfl, rfl, rfl, Nat.le_refl _, fun _ => ⟨rfl, rfl, rfl, rfl⟩⟩, rfl⟩

end Idles

theorem Stands.idles {x : Option Handle} {q : Dealing} {h : Handle} (hs : Stands x q h n m) (hx : x ≠ some h) :
    Idles n m where
  number := hs.number
  parent := hs.parent
  depth := hs.depth
  stage := Nat.le_of_eq (congrArg RoleName.stage (hs.name hx).symm)
  settled hr := ⟨hs.name hx, hs.layer hx, hs.settled hx hr⟩
  name := hs.name hx

namespace Tree

variable {x : Option Handle} {q : Dealing} {t u : Tree σ cmp} {id : Handle}

structure Proceeds (t u : Tree σ cmp) : Prop where
  nodes : Carried Persists t.nodes u.nodes
  tally : u.tally = t.tally

instance : IsPreorder (Tree σ cmp) Proceeds where
  refl t := ⟨.refl Persists.refl t.nodes, rfl⟩
  trans _ _ _ h h' := ⟨h.nodes.trans (S := Persists) (fun _ _ _ => Persists.trans) h'.nodes, h'.tally.trans h.tally⟩

structure Pauses (t u : Tree σ cmp) : Prop where
  nodes : Carried Idles t.nodes u.nodes
  tally : u.tally = t.tally

instance : IsPreorder (Tree σ cmp) Pauses where
  refl t := ⟨.refl Idles.refl t.nodes, rfl⟩
  trans _ _ _ h h' := ⟨h.nodes.trans (S := Idles) (fun _ _ _ => Idles.trans) h'.nodes, h'.tally.trans h.tally⟩

theorem Pauses.proceeds (h : Pauses t u) : Proceeds t u := ⟨h.nodes.mono fun _ _ => Idles.persists, h.tally⟩

theorem Calm.carried {R : Node σ → Node σ → Prop} (h : Calm x q t u) (hR : ∀ n m, Persists n m → R n m)
    (hx : ∀ k n m, x = some k → t.nodes.get? k = some n → u.nodes.get? k = some m → Stands x q k n m → R n m) :
    Carried R t.nodes u.nodes := by
  intro k m hm
  obtain ⟨n, hn, hs⟩ := h.nodes k m hm
  refine ⟨n, hn, ?_⟩
  by_cases hk : x = some k
  · exact hx k n m hk hn hm hs
  · exact hR n m (hs.idles hk).persists

theorem Calm.pauses (h : Calm none q t u) : Pauses t u := by
  refine ⟨fun k m hm => ?_, h.tally⟩
  obtain ⟨n, hn, hs⟩ := h.nodes k m hm
  exact ⟨n, hn, hs.idles (by simp)⟩

theorem Calm.proceeds (h : Calm none q t u) : Proceeds t u := h.pauses.proceeds

end Tree

end BranchBound
