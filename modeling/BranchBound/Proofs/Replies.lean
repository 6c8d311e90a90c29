import BranchBound.Proofs.Runs

namespace BranchBound

inductive Reply
  | done
  | created (id : Handle)
  | changed (outcome : Outcome)
  | solved (status : SolveStatus)
  | activated (activation : Activation)
  | loaded (result : LoadResult)
  | pruned (count : Nat)
  | popped (id : Option Handle)
deriving DecidableEq, Repr

variable {σ : Type} [Solver σ] {cmp : NodeOrder}

namespace Op

def answer : Op σ → TreeM σ cmp Reply
  | .create bound estimate => .created <$> Tree.create bound estimate
  | .changeBound id v side bound => .changed <$> Tree.changeBound id v side bound
  | .constrain id c => (fun _ => .done) <$> Tree.constrain id c
  | .raise id bound => (fun _ => .done) <$> Tree.raise id bound
  | .addColumn c => (fun _ => .done) <$> Tree.addColumn c
  | .addRow r => (fun _ => .done) <$> Tree.addRow r
  | .solve => .solved <$> Tree.solve
  | .activate target => .activated <$> Tree.activate target
  | .load => .loaded <$> Tree.load
  | .prune cutoff => .pruned <$> Tree.prune cutoff
  | .free id => (fun _ => .done) <$> Tree.free id
  | .pop => .popped <$> Tree.pop
  | .clear => (fun _ => .done) <$> Tree.clear
  | .setPolicy p => (fun _ => .done) <$> Tree.setPolicy p

theorem perform_eq (op : Op σ) : (op.perform : TreeM σ cmp Unit) = discard op.answer := by
  have hmap : ∀ {α : Type} (f : α → Reply) (m : TreeM σ cmp α), discard (f <$> m) = discard m := by
    intro α f m
    funext t
    change EStateM.map _ (EStateM.map f m) t = EStateM.map _ m t
    unfold EStateM.map
    cases m t <;> rfl
  have hunit : ∀ m : TreeM σ cmp Unit, discard m = m := by
    intro m
    funext t
    change EStateM.map _ m t = m t
    unfold EStateM.map
    cases m t <;> rfl
  cases op <;> simp only [perform, answer, hmap, hunit]

/-- The tree that an operation leaves does not depend on who listens. -/
theorem left_perform (op : Op σ) (t : Tree σ cmp) : left op.perform t = left op.answer t := by
  rw [perform_eq]
  change left (EStateM.map _ op.answer) t = _
  unfold left EStateM.map
  cases op.answer t <;> rfl

end Op

namespace Tree

def replies (t : Tree σ cmp) : List (Op σ) → List (Except TreeError Reply)
  | [] => []
  | op :: ops => result op.answer t :: (left op.perform t).replies ops

end Tree

end BranchBound
