import BranchBound.Proofs.Ends
import BranchBound.Tree.Sharing
import Mathlib.Algebra.GroupWithZero.Nat
import Mathlib.Data.List.Induction

namespace BranchBound

structure Loan (σ : Type) [Solver σ] where
  warm : WarmStart (Solver.Basis σ)
  solver : σ

namespace Loan

variable {σ α : Type} [Solver σ]

def ofBasis (b : Solver.Basis σ) (s : σ) : Loan σ := ⟨.ofBasis b, s⟩

def onWarm (act : EStateM ShareError (WarmStart (Solver.Basis σ)) α) : EStateM ShareError (Loan σ) α :=
  onPart warm ({ · with warm := · }) id act

def capture (n : Nat) : EStateM ShareError (Loan σ) Unit := onWarm (WarmStart.capture n)

def release : EStateM ShareError (Loan σ) Bool := do
  match ← onWarm WarmStart.release with
  | none => return false
  | some b =>
      modify fun l => { l with solver := Solver.freeBasis b l.solver }
      return true

theorem release_eq (w : WarmStart (Solver.Basis σ)) (s : σ) :
    release ⟨w, s⟩ = match WarmStart.release w with
      | .ok none w' => .ok false ⟨w', s⟩
      | .ok (some b) w' => .ok true ⟨w', Solver.freeBasis b s⟩
      | .error e w' => .error e ⟨w', s⟩ := by
  unfold release
  change EStateM.bind (onWarm WarmStart.release) _ _ = _
  unfold EStateM.bind onWarm onPart
  rcases WarmStart.release w with ⟨- | b, w'⟩ | ⟨e, w'⟩ <;> rfl

inductive Request
  | capture (n : Nat)
  | release
deriving DecidableEq

inductive Reply
  | captured (n : Nat)
  | released (last : Bool)
  | refused (e : ShareError)
deriving DecidableEq

def Request.perform (l : Loan σ) : Request → Reply × Loan σ
  | capture n =>
      match Loan.capture n l with
      | .ok () l' => (.captured n, l')
      | .error e l' => (.refused e, l')
  | release =>
      match Loan.release l with
      | .ok last l' => (.released last, l')
      | .error e l' => (.refused e, l')

namespace Reply

def out : Reply → Nat
  | captured n => n
  | _ => 0

def back : Reply → Nat
  | released _ => 1
  | _ => 0

end Reply

def run (l : Loan σ) (rs : List Request) : Loan σ := rs.foldl (fun l r => (r.perform l).2) l

def replies (l : Loan σ) : List Request → List Reply
  | [] => []
  | r :: rs => (r.perform l).1 :: replies (r.perform l).2 rs

def Outstanding (past : List Reply) (n : Nat) : Prop := n + (past.map Reply.back).sum = (past.map Reply.out).sum

/-- The two states of a loan of `b`: the basis is there, whatever number of shares is out, or it went back once and for
all. -/
inductive Lives (b : Solver.Basis σ) (s : σ) (past : List Reply) : Loan σ → Prop
  | lent (n : Nat) (hfreed : .released true ∉ past) (hshares : Outstanding past n) : Lives b s past ⟨⟨some b, n⟩, s⟩
  | ended (hfreed : past.count (.released true) = 1) (hshares : Outstanding past 0) :
      Lives b s past ⟨⟨none, 0⟩, Solver.freeBasis b s⟩

variable {b : Solver.Basis σ} {s : σ} {past : List Reply} {l : Loan σ} {k m n : Nat}

inductive Serves (b : Solver.Basis σ) : Loan σ → Request → Reply × Loan σ → Prop
  | captured (k n : Nat) (s : σ) : Serves b ⟨⟨some b, n⟩, s⟩ (.capture k) (.captured k, ⟨⟨some b, n + k⟩, s⟩)
  | released (n : Nat) (s : σ) : Serves b ⟨⟨some b, n + 2⟩, s⟩ .release (.released false, ⟨⟨some b, n + 1⟩, s⟩)
  | freed (s : σ) : Serves b ⟨⟨some b, 1⟩, s⟩ .release (.released true, ⟨⟨none, 0⟩, Solver.freeBasis b s⟩)
  | gone (k : Nat) (s : σ) : Serves b ⟨⟨none, 0⟩, s⟩ (.capture k) (.refused .captureFreed, ⟨⟨none, 0⟩, s⟩)
  | unshared (w : Option (Solver.Basis σ)) (s : σ) :
      Serves b ⟨⟨w, 0⟩, s⟩ .release (.refused .releaseUnshared, ⟨⟨w, 0⟩, s⟩)

theorem Lives.serves (h : Lives b s past l) (r : Request) : Serves b l r (r.perform l) := by
  cases h with
  | lent n =>
      match r, n with
      | .capture k, n => exact .captured k n s
      | .release, 0 => exact .unshared _ s
      | .release, 1 => exact .freed s
      | .release, n + 2 => exact .released n s
  | ended =>
      cases r with
      | capture k => exact .gone k _
      | release => exact .unshared _ _

section Answers

variable {r : Request} {p : Reply × Loan σ}

theorem Serves.released_iff (h : Serves b l .release p) : (∃ last, p.1 = .released last) ↔ 0 < l.warm.shares := by
  cases h <;> simp

theorem Serves.captured_iff (h : Serves b l (.capture k) p) : p.1 = .captured k ↔ l.warm.isAlive = true := by
  cases h <;> simp [WarmStart.isAlive]

theorem Serves.last_iff (h : Serves b l r p) : p.1 = .released true ↔ r = .release ∧ l.warm.shares = 1 := by
  cases h <;> simp

theorem Serves.frees (h : Serves b l r p) (hp : p.1 = .released true) :
    l.warm.basis = some b ∧ p.2 = ⟨⟨none, 0⟩, Solver.freeBasis b l.solver⟩ := by
  cases h with
  | freed => exact ⟨rfl, rfl⟩
  | _ => cases hp

theorem Serves.keeps (h : Serves b l r p) (hp : p.1 ≠ .released true) :
    p.2.warm.basis = l.warm.basis ∧ p.2.solver = l.solver := by
  cases h with
  | freed => exact absurd rfl hp
  | _ => exact ⟨rfl, rfl⟩

theorem Serves.refuses (h : Serves b l r p) (hl : l.warm = ⟨none, 0⟩) : ∃ e, p.1 = .refused e := by
  cases h with
  | gone | unshared => exact ⟨_, rfl⟩
  | _ => cases hl

theorem Serves.refused (h : Serves b l r p) {e : ShareError} (hp : p.1 = .refused e) :
    p.2 = l ∧ e.message ≠ "LP state freed twice" := by
  cases h with
  | gone | unshared =>
      cases hp
      exact ⟨rfl, by decide⟩
  | _ => cases hp

end Answers

theorem Outstanding.concat (h : Outstanding past n) {reply : Reply} (hm : m + reply.back = n + reply.out) :
    Outstanding (past ++ [reply]) m := by
  unfold Outstanding at *
  simp only [List.map_append, List.sum_append, List.map_cons, List.map_nil, List.sum_singleton]
  omega

theorem Lives.perform (h : Lives b s past l) (r : Request) : Lives b s (past ++ [(r.perform l).1]) (r.perform l).2 := by
  have hserves := h.serves r
  generalize r.perform l = p at hserves
  cases h with
  | lent n hfreed hshares =>
      cases hserves with
      | captured k => exact .lent _ (by simp [hfreed]) (hshares.concat rfl)
      | released n => exact .lent _ (by simp [hfreed]) (hshares.concat rfl)
      | unshared => exact .lent _ (by simp [hfreed]) (hshares.concat rfl)
      | freed => exact .ended (by simp [List.count_eq_zero.2 hfreed]) (hshares.concat rfl)
  | ended hfreed hshares =>
      cases hserves with
      | gone k => exact .ended (by simp [hfreed]) (hshares.concat rfl)
      | unshared => exact .ended (by simp [hfreed]) (hshares.concat rfl)

theorem Lives.isAlive_iff (h : Lives b s past l) : l.warm.isAlive = true ↔ .released true ∉ past := by
  cases h with
  | lent n hfreed => simp [WarmStart.isAlive, hfreed]
  | ended hfreed =>
      have hmem : .released true ∈ past := List.count_pos_iff.1 (by omega)
      simp [WarmStart.isAlive, hmem]

theorem run_concat (l : Loan σ) (rs : List Request) (r : Request) : l.run (rs ++ [r]) = (r.perform (l.run rs)).2 := by
  rw [run, List.foldl_append]
  rfl

theorem replies_concat (l : Loan σ) (rs : List Request) (r : Request) :
    l.replies (rs ++ [r]) = l.replies rs ++ [(r.perform (l.run rs)).1] := by
  induction rs generalizing l with
  | nil => rfl
  | cons r' rs ih => exact congrArg (_ :: ·) (ih _)

theorem run_lives (b : Solver.Basis σ) (s : σ) (rs : List Request) :
    Lives b s ((ofBasis b s).replies rs) ((ofBasis b s).run rs) := by
  induction rs using List.reverseRecOn with
  | nil => exact .lent 0 (by simp [replies]) rfl
  | append_singleton rs r ih =>
      rw [run_concat, replies_concat]
      exact ih.perform r

/-- A loan of `b` after some replies, and how it answers the next request. -/
structure LifeCycle (b : Solver.Basis σ) (s : σ) (past : List Reply) (l : Loan σ) : Prop where
  shares_eq : Outstanding past l.warm.shares
  alive : 0 < l.warm.shares → l.warm.basis = some b
  freed_once : past.count (.released true) ≤ 1
  solver_eq : l.solver = if .released true ∈ past then Solver.freeBasis b s else s
  captured_iff : ∀ k, ((Request.capture k).perform l).1 = .captured k ↔ .released true ∉ past
  released_iff : (∃ last, (Request.release.perform l).1 = .released last) ↔ 0 < l.warm.shares
  last_iff : ∀ r : Request, (r.perform l).1 = .released true ↔ r = .release ∧ l.warm.shares = 1
  last_frees : ∀ r : Request, (r.perform l).1 = .released true →
    l.warm.basis = some b ∧ (r.perform l).2 = ⟨⟨none, 0⟩, Solver.freeBasis b l.solver⟩
  others_keep : ∀ r : Request, (r.perform l).1 ≠ .released true →
    (r.perform l).2.warm.basis = l.warm.basis ∧ (r.perform l).2.solver = l.solver
  ended : .released true ∈ past → ∀ r : Request, ∃ e, (r.perform l).1 = .refused e
  refused_unchanged : ∀ (r : Request) (e : ShareError), (r.perform l).1 = .refused e →
    (r.perform l).2 = l ∧ e.message ≠ "LP state freed twice"

theorem Lives.lifeCycle (h : Lives b s past l) : LifeCycle b s past l where
  shares_eq := by cases h <;> assumption
  alive := by
    cases h with
    | lent => exact fun _ => rfl
    | ended => exact fun hpos => absurd hpos (Nat.lt_irrefl 0)
  freed_once := by
    cases h with
    | lent n hfreed => simp [List.count_eq_zero.2 hfreed]
    | ended hfreed => exact Nat.le_of_eq hfreed
  solver_eq := by
    cases h with
    | lent n hfreed => exact (if_neg hfreed).symm
    | ended hfreed => exact (if_pos (List.count_pos_iff.1 (by omega))).symm
  captured_iff k := (h.serves (.capture k)).captured_iff.trans h.isAlive_iff
  released_iff := (h.serves .release).released_iff
  last_iff r := (h.serves r).last_iff
  last_frees r := (h.serves r).frees
  others_keep r := (h.serves r).keeps
  ended hfreed r := by
    refine (h.serves r).refuses ?_
    cases h with
    | lent n hnot => exact absurd hfreed hnot
    | ended => rfl
  refused_unchanged r _ := (h.serves r).refused

/-- The basis goes back to the solver once, with the last share, and from then on every request is refused. -/
theorem basis_freed_with_last_share (b : Solver.Basis σ) (s : σ) (rs : List Request) :
    LifeCycle b s ((ofBasis b s).replies rs) ((ofBasis b s).run rs) :=
  (run_lives b s rs).lifeCycle

end Loan

namespace Tree

variable {σ : Type} [Solver σ] {cmp : NodeOrder} {t : Tree σ cmp} {fork : Handle} {n : Node σ}
  {w : WarmStart (Solver.Basis σ)}

/-- A share in a node's warm start goes back as a share in a loan from the tree's solver does. -/
theorem releaseShare_releases (hn : t.nodes.get? fork = some n) (hw : n.role.warmStart? = some w) :
    Ends (releaseShare fork) t
      (fun _ t' => ∃ last l, Loan.release ⟨w, t.lp.solver⟩ = .ok last l ∧ t'.lp = { t.lp with solver := l.solver } ∧
        t'.nodes = t.nodes.set fork { n with role := n.role.withWarmStart l.warm })
      fun e t' => ∃ e' l, Loan.release ⟨w, t.lp.solver⟩ = .error e' l ∧ e = .fault (.share e') ∧ t'.lp = t.lp ∧
        t'.nodes = t.nodes.set fork { n with role := n.role.withWarmStart l.warm } := by
  unfold releaseShare onWarmStart
  simp only [ends_bind, ends_read, node_eq_ok.2 hn, hw]
  rw [Loan.release_eq]
  cases WarmStart.release w with
  | error e w' => exact ⟨e, _, rfl, rfl, rfl, rfl⟩
  | ok b w' =>
      simp only [ends_bind, ends_setNode, ends_pure]
      cases b with
      | none => exact ⟨false, _, rfl, rfl, rfl⟩
      | some b =>
          simp only [ends_bind, ends_returnBasis, ends_count, ends_record]
          exact ⟨true, _, rfl, rfl, rfl⟩

end Tree

end BranchBound
