import BranchBound.Proofs.Along
import BranchBound.Proofs.Invariant
import BranchBound.Proofs.Priority
import BranchBound.Tree.Choice
import BranchBound.Tree.Freeing

namespace BranchBound

variable {σ α : Type} [Solver σ] {cmp : NodeOrder}

/-- The same node in the same role. Of what goes with that, its place in a staging list and the numbers of its
children and of its shares may differ, and its basis may be gone. -/
structure Wanes (n m : Node σ) : Prop where
  body : m = { n with role := m.role }
  name : m.role.name = n.role.name
  layer : m.role.layer = n.role.layer
  basis : m.basis? = n.basis? ∨ m.basis? = none

namespace Wanes

variable {n m k : Node σ}

theorem refl (n : Node σ) : Wanes n n := ⟨rfl, rfl, rfl, .inl rfl⟩

theorem trans (h : Wanes n m) (h' : Wanes m k) : Wanes n k where
  body := by rw [h'.body, h.body]
  name := h'.name.trans h.name
  layer := h'.layer.trans h.layer
  basis := by
    obtain hk | hk := h'.basis
    · rw [hk]
      exact h.basis
    · exact .inr hk

theorem parent (h : Wanes n m) : m.parent = n.parent := by rw [h.body]

theorem onPath (h : Wanes n m) : m.onPath = n.onPath := by rw [h.body]

theorem share (h : Wanes n m) : m.share = n.share := by rw [h.body]

end Wanes

def Relaxation.giveBack (r : Relaxation σ) (bs : List (Solver.Basis σ)) : Relaxation σ :=
  { r with solver := bs.foldl (fun s b => Solver.freeBasis b s) r.solver }

theorem Relaxation.giveBack_append (r : Relaxation σ) (bs bs' : List (Solver.Basis σ)) :
    r.giveBack (bs ++ bs') = (r.giveBack bs).giveBack bs' := by
  unfold giveBack
  rw [List.foldl_append]

namespace WarmStart

variable {β : Type} (w : WarmStart β)

theorem release_basis : Ends release w (fun _ w' => w'.basis = w.basis ∨ w'.basis = none)
    fun _ w' => w'.basis = w.basis ∨ w'.basis = none := by
  unfold Ends release
  by_cases h0 : w.shares = 0
  · simp [h0]
  · by_cases h1 : 1 < w.shares
    · simp [h0, h1]
    · cases w.basis <;> simp [h0, h1]

theorem basis_eq {w : WarmStart β} {b : Option β} (ha : w.isAlive = true ↔ 0 < w.shares)
    (hb : w.basis = b ∨ w.basis = none) : w.basis = if w.shares = 0 then none else b := by
  unfold isAlive at ha
  split
  · rename_i hzero
    cases hw : w.basis with
    | none => rfl
    | some b =>
        have hpos := ha.1 (by rw [hw]; rfl)
        omega
  · have hsome := ha.2 (by omega)
    refine hb.resolve_right fun hnone => ?_
    rw [hnone] at hsome
    cases hsome

theorem capture_basis (n : Nat) : Ends (capture n) w (fun _ w' => w'.basis = w.basis ∨ w'.basis = none)
    fun _ w' => w'.basis = w.basis ∨ w'.basis = none := by
  unfold Ends capture
  by_cases h : w.isAlive = true <;> simp [h]

end WarmStart

namespace Tree

/-- Nodes have gone and bases went back to the solver, and that is all: no node came, and of those left none became
another one. The staging lists are not looked at. -/
structure Sweeps (t u : Tree σ cmp) : Prop where
  nodes : Carried Wanes t.nodes u.nodes
  lp : ∃ bs, u.lp = t.lp.giveBack bs
  stats : u.stats = { t.stats with freed := u.stats.freed, basesFreed := u.stats.basesFreed }
  frontier : u.frontier = t.frontier
  nextNumber : u.nextNumber = t.nextNumber
  policy : u.policy = t.policy
  settings : u.settings = t.settings

instance : IsPreorder (Tree σ cmp) Sweeps where
  refl t := ⟨.refl Wanes.refl t.nodes, ⟨[], rfl⟩, rfl, rfl, rfl, rfl, rfl⟩
  trans t u v h h' := by
    obtain ⟨bs, hbs⟩ := h.lp
    obtain ⟨bs', hbs'⟩ := h'.lp
    refine ⟨.trans (S := Wanes) (fun _ _ _ => Wanes.trans) h.nodes h'.nodes, ⟨bs ++ bs', ?_⟩, ?_,
      h'.frontier.trans h.frontier, h'.nextNumber.trans h.nextNumber, h'.policy.trans h.policy,
      h'.settings.trans h.settings⟩
    · rw [hbs', hbs, Relaxation.giveBack_append]
    · rw [h'.stats, h.stats]

variable {t u : Tree σ cmp} {id : Handle} {n m : Node σ}

theorem Sweeps.set (hn : t.nodes.get? id = some n) (hm : Wanes n m) :
    Sweeps t { t with nodes := t.nodes.set id m } :=
  ⟨.set Wanes.refl hn hm, ⟨[], rfl⟩, rfl, rfl, rfl, rfl, rfl⟩

theorem Sweeps.of_nodes (hn : u.nodes = t.nodes) (hl : u.lp = t.lp) (hs : u.stats = t.stats)
    (hf : u.frontier = t.frontier) (hc : u.nextNumber = t.nextNumber) (hp : u.policy = t.policy)
    (hr : u.settings = t.settings) : Sweeps t u :=
  ⟨hn ▸ .refl Wanes.refl t.nodes, ⟨[], hl⟩, by rw [hs], hf, hc, hp, hr⟩

theorem sweeps_record (e : Event) : Along Sweeps (record e : TreeM σ cmp Unit) :=
  fun _ => .of_nodes rfl rfl rfl rfl rfl rfl rfl

section Shares

/-- Shares come and go with the basis kept, or given up. -/
theorem sweeps_onWarmStart (missing : Fault) {act : EStateM ShareError (WarmStart (Solver.Basis σ)) α}
    (hact : ∀ w, Ends act w (fun _ w' => w'.basis = w.basis ∨ w'.basis = none)
      fun _ w' => w'.basis = w.basis ∨ w'.basis = none) :
    Along Sweeps (onWarmStart id missing act : TreeM σ cmp α) := by
  refine along_node fun t n hn => ?_
  cases hw : n.role.warmStart? with
  | none => exact along_throw _ t
  | some w =>
      have hset : ∀ w', w'.basis = w.basis ∨ w'.basis = none →
          Sweeps t { t with nodes := t.nodes.set id { n with role := n.role.withWarmStart w' } } := by
        intro w' hb
        refine .set hn ⟨rfl, Role.name_withWarmStart w' n.role, Role.layer_withWarmStart w' n.role, ?_⟩
        simpa only [Node.basis?, Role.warmStart?_withWarmStart, hw, Option.map_some, Option.bind_some] using hb
      have hends := hact w
      unfold Ends at hends
      dsimp only
      cases ha : act w with
      | ok a w' => exact hset w' (by simpa only [ha] using hends)
      | error e w' => exact hset w' (by simpa only [ha] using hends)

theorem sweeps_returnBasis (b : Solver.Basis σ) : Along Sweeps (returnBasis b : TreeM σ cmp Unit) := by
  intro t
  rw [ends_returnBasis]
  exact ⟨.refl Wanes.refl t.nodes, ⟨[b], rfl⟩, rfl, rfl, rfl, rfl, rfl⟩

theorem sweeps_releaseShare (fork : Handle) : Along Sweeps (releaseShare fork : TreeM σ cmp Unit) := by
  refine (sweeps_onWarmStart _ WarmStart.release_basis).bind fun b => ?_
  cases b with
  | none => exact along_pure _
  | some b =>
      have hcount : Along Sweeps (count (fun s => { s with basesFreed := s.basesFreed + 1 }) : TreeM σ cmp Unit) :=
        fun t => ⟨.refl Wanes.refl t.nodes, ⟨[], rfl⟩, rfl, rfl, rfl, rfl, rfl⟩
      exact (sweeps_returnBasis b).bind fun _ => hcount.bind fun _ => sweeps_record _

end Shares

section Freeing

theorem sweeps_takeNode (id : Handle) : Along Sweeps (takeNode id : TreeM σ cmp (Node σ)) := by
  refine along_get fun t => ?_
  cases he : t.nodes.erase id with
  | none => exact along_throw _ t
  | some r => exact ⟨.erase Wanes.refl he, ⟨[], rfl⟩, rfl, rfl, rfl, rfl, rfl⟩

theorem sweeps_checkBasisGone (id : Handle) (r : Role σ) :
    Along Sweeps (checkBasisGone id r : TreeM σ cmp Unit) := by
  unfold checkBasisGone
  split
  · exact (sweeps_returnBasis _).bind fun _ => along_throw _
  · exact along_pure _

theorem sweeps_countOff (parent id : Handle) : Along Sweeps (countOff parent id : TreeM σ cmp Bool) := by
  refine along_node fun t p hp => ?_
  split
  · rename_i k _
    have hbasis : ({ p with role := p.role.withOpenChildren k } : Node σ).basis? = p.basis? := by
      rw [Node.basis?, Role.warmStart?_withOpenChildren]
      rfl
    exact Sweeps.set hp ⟨rfl, Role.name_withOpenChildren k p.role, Role.layer_withOpenChildren k p.role, .inl hbasis⟩
  · exact along_pure _ t
  · exact along_throw _ t

theorem sweeps_taken (id : Handle) (n : Node σ) : Along Sweeps (do
    if let some fork := n.share then releaseShare fork
    checkBasisGone id n.role
    record (.freed id)
    match n.parent with
    | some parent => return if ← countOff parent id then some parent else none
    | none => return none : TreeM σ cmp (Option Handle)) := by
  have hend : Along Sweeps (do
      checkBasisGone id n.role
      record (.freed id)
      match n.parent with
      | some parent => return if ← countOff parent id then some parent else none
      | none => return none : TreeM σ cmp (Option Handle)) := by
    refine (sweeps_checkBasisGone id n.role).bind fun _ => (sweeps_record _).bind fun _ => ?_
    split
    · exact (sweeps_countOff _ id).bind fun _ => along_pure _
    · exact along_pure _
  cases n.share with
  | none => exact hend
  | some fork => exact (sweeps_releaseShare fork).bind fun _ => hend

theorem sweeps_freeOne (id : Handle) : Along Sweeps (freeOne id : TreeM σ cmp (Option Handle)) :=
  (sweeps_takeNode id).bind (sweeps_taken id)

theorem sweeps_freeUpwards (depth : Nat) (id : Handle) :
    Along Sweeps (freeUpwards depth id : TreeM σ cmp Unit) := by
  induction depth generalizing id with
  | zero => exact (sweeps_freeOne id).discard
  | succ depth ih =>
      refine (sweeps_freeOne id).bind fun next => ?_
      cases next with
      | none => exact along_pure _
      | some p => exact ih p

theorem sweeps_moveTo (pos : Nat) (id : Handle) : Along Sweeps (moveTo pos id : TreeM σ cmp Unit) := by
  refine along_node fun t n hn => ?_
  cases hr : n.role with
  | child _ => exact Sweeps.set hn ⟨rfl, by rw [hr]; rfl, by rw [hr]; rfl, .inr rfl⟩
  | sibling _ => exact Sweeps.set hn ⟨rfl, by rw [hr]; rfl, by rw [hr]; rfl, .inr rfl⟩
  | _ => exact along_throw _ t

theorem sweeps_unstage (id : Handle) (which : Staging) (pos : Nat) :
    Along Sweeps (unstage id which pos : TreeM σ cmp Unit) := by
  refine along_get fun t => ?_
  have hstaged : ∀ l, Sweeps t (t.withStaged l which) := fun l => by
    cases which <;> exact .of_nodes rfl rfl rfl rfl rfl rfl rfl
  split
  · exact along_throw _ t
  · dsimp only
    split
    · rw [ends_bind, ends_set]
      exact (sweeps_moveTo pos _).after (hstaged _)
    · exact hstaged _

theorem sweeps_dismiss (id : Handle) : Along Sweeps (dismiss id : TreeM σ cmp Unit) := by
  refine (along_read _).bind fun n => ?_
  have hfree : Along Sweeps (freeUpwards n.depth id : TreeM σ cmp Unit) := sweeps_freeUpwards _ _
  cases n.role.staged? with
  | none => exact hfree
  | some place => exact (sweeps_unstage id place.1 place.2).bind fun _ => hfree

end Freeing

section Dismissal

theorem Sweeps.gone (h : Sweeps t u) (hid : t.nodes.get? id = none) : u.nodes.get? id = none := by
  cases hm : u.nodes.get? id with
  | none => rfl
  | some m =>
      obtain ⟨n, hn, -⟩ := h.nodes id m hm
      rw [hid] at hn
      cases hn

theorem freeOne_gone (id : Handle) (t : Tree σ cmp) :
    Ends (freeOne id) t (fun _ u => u.nodes.get? id = none) fun _ _ => True := by
  have htaken : Ends (takeNode id) t (fun _ u => u.nodes.get? id = none) fun _ _ => True := by
    unfold takeNode
    simp only [ends_bind, ends_get]
    cases he : t.nodes.erase id with
    | none => trivial
    | some r =>
        change r.2.get? id = none
        rw [Arena.get?_of_erase he, if_pos rfl]
  refine htaken.bind fun n v hv => ?_
  exact (sweeps_taken id n v).mono (fun _ _ h => h.gone hv) fun _ _ _ => trivial

theorem freeUpwards_gone (depth : Nat) (id : Handle) (t : Tree σ cmp) :
    Ends (freeUpwards depth id) t (fun _ u => u.nodes.get? id = none) fun _ _ => True := by
  cases depth with
  | zero => exact ends_discard.2 (freeOne_gone id t)
  | succ depth =>
      refine (freeOne_gone id t).bind fun next u hu => ?_
      cases next with
      | none => exact hu
      | some p =>
          exact (sweeps_freeUpwards depth p u).mono (fun _ _ h => h.gone hu)
            fun _ _ _ => trivial

theorem dismiss_gone (id : Handle) (t : Tree σ cmp) :
    Ends (dismiss id) t (fun _ u => Sweeps t u ∧ u.nodes.get? id = none) fun _ _ => True := by
  have hgone : Ends (dismiss id) t (fun _ u => u.nodes.get? id = none) fun _ _ => True := by
    unfold dismiss
    rw [ends_bind, ends_read]
    cases t.node id with
    | error e => trivial
    | ok n =>
        dsimp only
        cases n.role.staged? with
        | none => exact freeUpwards_gone n.depth id t
        | some place =>
            exact (ends_trivial (unstage id place.1 place.2) t).bind fun _ u _ => freeUpwards_gone n.depth id u
  exact ((sweeps_dismiss id t).and hgone).mono (fun _ _ h => h) fun _ _ _ => trivial

theorem dismissAll_gone (ids : List Handle) (t : Tree σ cmp) :
    Ends (ids.forM dismiss) t (fun _ u => Sweeps t u ∧ ∀ k ∈ ids, u.nodes.get? k = none) fun _ _ => True := by
  induction ids generalizing t with
  | nil => exact ⟨refl_of Sweeps t, fun k hk => by cases hk⟩
  | cons id ids ih =>
      refine (dismiss_gone id t).bind fun _ u hu => (ih u).mono (fun _ v hv => ?_) fun _ _ _ => trivial
      refine ⟨trans_of Sweeps hu.1 hv.1, fun k hk => ?_⟩
      rcases List.mem_cons.1 hk with rfl | hk
      · exact hv.1.gone hu.2
      · exact hv.2 k hk

end Dismissal

section Queue

variable {R : Tree σ cmp → Tree σ cmp → Prop} [IsPreorder (Tree σ cmp) R]
  (hsweeps : ∀ t u, Sweeps t u → R t u)
  (hqueue : ∀ (t : Tree σ cmp) (r : Frontier.Request), R t { t with frontier := r.perform t.frontier })

include hsweeps hqueue

theorem along_prune (cutoff : Binary64) : Along R (prune cutoff : TreeM σ cmp Nat) := by
  refine .bind (fun t => hqueue t (.drain fun k => cutoff ≤ k.lowerBound)) fun leaves =>
    (along_read _).bind fun staged => ?_
  refine (Along.forM (fun id => (sweeps_dismiss id).mono hsweeps) _).bind fun _ => ?_
  dsimp only
  split
  · exact along_pure _
  · exact ((sweeps_record _).mono hsweeps).bind fun _ => along_pure _

theorem along_free (id : Handle) : Along R (free id : TreeM σ cmp Unit) := by
  have hdismiss : Along R (dismiss id : TreeM σ cmp Unit) := (sweeps_dismiss id).mono hsweeps
  have hunqueue : Along R (modify fun t => { t with frontier := (t.frontier.remove id).2 } :
      TreeM σ cmp PUnit) := fun t => hqueue t (.remove id)
  refine (along_read _).bind fun n => ?_
  cases freeMisuse? id n with
  | some m => exact (along_throw _).bind fun _ => .when hunqueue hdismiss
  | none => exact .when hunqueue hdismiss

omit hsweeps in
theorem along_pop : Along R (pop : TreeM σ cmp (Option Handle)) := by
  intro t
  have hpop := hqueue t .pop
  unfold pop
  rw [ends_modifyGet]
  cases hp : t.frontier.pop? with
  | none => exact refl_of R t
  | some r => simpa [Frontier.Request.perform, hp] using hpop

end Queue

end Tree

end BranchBound
