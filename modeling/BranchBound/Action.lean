namespace BranchBound

variable {ε ε' σ τ α : Type}

/-- Runs an action on one part of the state. What the action leaves of the part is kept, also when
it fails. -/
def onPart (get : σ → τ) (put : σ → τ → σ) (wrap : ε → ε') (act : EStateM ε τ α) :
    EStateM ε' σ α := fun s =>
  match act (get s) with
  | .ok a t => .ok a (put s t)
  | .error e t => .error (wrap e) (put s t)

def liftExcept (wrap : ε → ε') : Except ε α → EStateM ε' σ α
  | .ok a => pure a
  | .error e => throw (wrap e)

end BranchBound
