import BranchBound.Proofs.Updates
import BranchBound.Tree.Sharing

namespace BranchBound

variable {σ : Type} [Solver σ] {cmp : NodeOrder}

namespace WarmStart

variable {β : Type} {w : WarmStart β}

theorem release_spec (hs : 0 < w.shares) (ha : w.isAlive = true) :
    Ends release w (fun b w' => w'.shares = w.shares - 1 ∧ (w'.isAlive = true ↔ 0 < w'.shares) ∧
      w.basis.toList = b.toList ++ w'.basis.toList) fun _ _ => False := by
  obtain ⟨b, hb⟩ := Option.isSome_iff_exists.1 ha
  unfold Ends release
  by_cases h1 : 1 < w.shares
  · have h0 : w.shares ≠ 0 := by omega
    simp only [if_neg h0, if_pos h1, isAlive, hb]
    refine ⟨trivial, ?_, rfl⟩
    simp only [Option.isSome_some, true_iff]
    omega
  · have h0 : w.shares ≠ 0 := by omega
    have h2 : w.shares = 1 := by omega
    simp [h2, hb, isAlive]

end WarmStart

section Accounts

variable {a : Arena (Node σ)} {id f : Handle} {n : Node σ} {w w' : WarmStart (Solver.Basis σ)}
  {due : Option Handle}

/-- The one share that nobody holds comes back to the warm start it lies in. -/
theorem Sharing.release (h : Sharing a (some f)) (hn : a.get? f = some n)
    (hw : n.role.warmStart? = some w) (hs : w'.shares = w.shares - 1)
    (ha : w'.isAlive = true ↔ 0 < w'.shares) :
    Sharing (a.set f { n with role := n.role.withWarmStart w' }) none := by
  have hsteady := Steady.withWarmStart n w'
  have hwarm : ({ n with role := n.role.withWarmStart w' } : Node σ).role.warmStart? = some w' := by
    rw [Role.warmStart?_withWarmStart, hw]
    rfl
  have hshare : ({ n with role := n.role.withWarmStart w' } : Node σ).share = n.share := rfl
  generalize ({ n with role := n.role.withWarmStart w' } : Node σ) = n' at hsteady hwarm hshare ⊢
  have hfull := h.counted f n w hn hw
  have hcount : ∀ g, (a.set f n').count (·.share = some g) = a.count (·.share = some g) :=
    fun g => Arena.count_set_congr hn (by rw [hshare])
  rw [Arena.set_eq_adjust] at hcount ⊢
  have hrole : ∀ k m v, a.get? k = some m →
      (if k = f then n' else m).role.warmStart? = some v →
      (k = f ∧ v = w') ∨ (k ≠ f ∧ m.role.warmStart? = some v) := by
    intro k m v hm hv
    by_cases hk : k = f
    · rw [if_pos hk, hwarm] at hv
      exact .inl ⟨hk, (Option.some.inj hv).symm⟩
    · rw [if_neg hk] at hv
      exact .inr ⟨hk, hv⟩
  constructor
  case counted =>
    intro k m v hm hv
    obtain ⟨o, ho, rfl⟩ := Arena.get?_adjust_some hm
    rw [hcount]
    rcases hrole k o v ho hv with ⟨rfl, rfl⟩ | ⟨hk, hv⟩
    · rw [hs, hfull]
      simp
    · rw [h.counted k o v ho hv]
      simp [Ne.symm hk]
  case alive =>
    intro k m v hm hv
    obtain ⟨o, ho, rfl⟩ := Arena.get?_adjust_some hm
    rcases hrole k o v ho hv with ⟨rfl, rfl⟩ | ⟨hk, hv⟩
    · exact ha
    · exact h.alive k o v ho hv
  case holder =>
    intro k m g hm hg
    obtain ⟨o, ho, rfl⟩ := Arena.get?_adjust_some hm
    have hF := Arena.forall_set hn hsteady Steady.refl
    have hshares := Arena.forall_set (P := fun m m' => m'.share = m.share) hn hshare fun _ => rfl
    rw [hshares k o ho] at hg
    rw [(hF k o ho).name, (hF k o ho).parent]
    obtain ⟨hr, hnear⟩ := h.holder k o g ho hg
    exact ⟨hr, hnear.adjust fun k m hm => ⟨(hF k m hm).parent, (hF k m hm).kin.isSnapshot⟩⟩
  case due_keeps =>
    intro k hk
    cases hk

theorem bases_split (hn : a.get? f = some n) (n' : Node σ) :
    ∃ rest, (bases a).Perm (n.basis?.toList ++ rest) ∧
      (bases (a.set f n')).Perm (n'.basis?.toList ++ rest) := by
  have hcons : ∀ (e : Handle × Node σ) es, List.filterMap (fun e : Handle × Node σ => e.2.basis?) (e :: es) =
      e.2.basis?.toList ++ List.filterMap (fun e : Handle × Node σ => e.2.basis?) es := by
    intro e es
    rw [List.filterMap_cons]
    cases e.2.basis? <;> rfl
  refine ⟨(a.toList.filter fun e => e.1 ≠ f).filterMap fun e => e.2.basis?, ?_, ?_⟩
  · exact ((Arena.toList_perm_cons hn).filterMap _).trans (.of_eq (hcons _ _))
  · exact ((Arena.toList_set_perm hn n').filterMap _).trans (.of_eq (hcons _ _))

theorem bases_set (hn : a.get? f = some n) {l : List (Solver.Basis σ)} {n' : Node σ}
    (hb : n.basis?.toList = l ++ n'.basis?.toList) :
    (bases a).Perm (l ++ bases (a.set f n')) := by
  obtain ⟨rest, hx, hy⟩ := bases_split hn n'
  rw [hb, List.append_assoc] at hx
  exact hx.trans (hy.symm.append_left l)

theorem bases_set_cons (hn : a.get? f = some n) {b : Solver.Basis σ} {n' : Node σ}
    (hb : n.basis? = none) (hb' : n'.basis? = some b) :
    (bases (a.set f n')).Perm (b :: bases a) := by
  obtain ⟨rest, hx, hy⟩ := bases_split hn n'
  rw [hb] at hx
  rw [hb'] at hy
  exact hy.trans (hx.symm.cons b)

theorem Books.freeBases {stats : Stats} {n' : Node σ}
    {l : List (Solver.Basis σ)} (h : Books a stats) (hn : a.get? f = some n)
    (hb : n.basis?.toList = l ++ n'.basis?.toList) :
    Books (a.set f n') { stats with basesFreed := stats.basesFreed + l.length } where
  nodes := by
    rw [Arena.set_eq_adjust]
    exact h.nodes
  bases := by
    change stats.captured = stats.basesFreed + l.length + (BranchBound.bases (a.set f n')).length
    rw [h.bases, (bases_set hn hb).length_eq, List.length_append]
    omega

theorem Sharing.withdraw (h : Sharing a none) (hn : a.get? id = some n) :
    Sharing (a.set id { n with share := none }) n.share := by
  have hF := Arena.forall_set (P := fun m m' : Node σ => Steady m m' ∧ m'.role = m.role ∧
      (m'.share = m.share ∨ m'.share = none)) (y := { n with share := none }) hn
    ⟨.withShare n none, rfl, .inr rfl⟩ fun m => ⟨.refl m, rfl, .inl rfl⟩
  have hcount : ∀ g, a.count (·.share = some g) =
      (a.set id { n with share := none }).count (·.share = some g) +
        (decide (n.share = some g)).toNat := by
    intro g
    have hc := Arena.count_set hn { n with share := none } (·.share = some g)
    simp only [reduceCtorEq, decide_false, Bool.toNat_false, Nat.add_zero] at hc
    exact hc.symm
  rw [Arena.set_eq_adjust] at hcount ⊢
  constructor
  case counted =>
    intro k m w hm hw
    obtain ⟨o, ho, rfl⟩ := Arena.get?_adjust_some hm
    rw [(hF k o ho).2.1] at hw
    rw [h.counted k o w ho hw, hcount]
    rfl
  case alive =>
    intro k m w hm hw
    obtain ⟨o, ho, rfl⟩ := Arena.get?_adjust_some hm
    rw [(hF k o ho).2.1] at hw
    exact h.alive k o w ho hw
  case holder =>
    intro k m g hm hg
    obtain ⟨o, ho, rfl⟩ := Arena.get?_adjust_some hm
    obtain ⟨hsteady, hrole, hshare⟩ := hF k o ho
    rw [hrole, hsteady.parent]
    rcases hshare with hshare | hshare
    · rw [hshare] at hg
      obtain ⟨hr, hnear⟩ := h.holder k o g ho hg
      refine ⟨hr, hnear.adjust fun k m hm => ⟨(hF k m hm).1.parent, ?_⟩⟩
      rw [(hF k m hm).2.1]
    · rw [hshare] at hg
      cases hg
  case due_keeps =>
    intro g hg
    obtain ⟨-, hnear⟩ := h.holder id n g hn hg
    obtain ⟨m, hm, hs⟩ := hnear.holds
    obtain ⟨w, hw⟩ := Role.isSnapshot_iff.1 hs
    refine ⟨_, w, Arena.get?_adjust_of hm, ?_⟩
    rw [(hF g m hm).2.1, hw]

theorem count_granted {F : Handle → Node σ → Node σ} {l : List Handle} (hl : l.Nodup)
    (hlive : ∀ k ∈ l, ∃ m, a.get? k = some m ∧ m.share = none)
    (hshare : ∀ k m, a.get? k = some m → (F k m).share = if k ∈ l then some f else m.share) (g : Handle) :
    (a.adjust F).count (·.share = some g) = a.count (·.share = some g) + if g = f then l.length else 0 := by
  rw [Arena.count_adjust]
  by_cases hg : g = f
  · subst hg
    rw [if_pos rfl, ← Arena.countP_mem hl fun k hk => (hlive k hk).imp fun _ h => h.1]
    apply Arena.countP_split
    intro e he
    have hm := Arena.mem_toList.1 he
    rw [hshare e.1 e.2 hm]
    by_cases hk : e.1 ∈ l
    · obtain ⟨m, hm', hnone⟩ := hlive e.1 hk
      cases hm.symm.trans hm'
      simp [hk, hnone]
    · simp [hk]
  · rw [if_neg hg, Nat.add_zero, Arena.count]
    refine List.countP_congr fun e he => ?_
    have hm := Arena.mem_toList.1 he
    rw [hshare e.1 e.2 hm]
    by_cases hk : e.1 ∈ l
    · obtain ⟨m, hm', hnone⟩ := hlive e.1 hk
      cases hm.symm.trans hm'
      simp [hk, hnone, Ne.symm hg]
    · rw [if_neg hk]

theorem Sharing.grant {F : Handle → Node σ → Node σ} {l : List Handle} (h : Sharing a none)
    (hl : l.Nodup) (hne : l ≠ []) (hlive : ∀ k ∈ l, ∃ m, a.get? k = some m ∧ m.share = none)
    (hshare : ∀ k m, a.get? k = some m → (F k m).share = if k ∈ l then some f else m.share)
    (hholder : ∀ k m g, a.get? k = some m → (F k m).share = some g →
      ((F k m).role.name.isWaiting = true ∨ (F k m).role.name = .active) ∧
        Nearest (a.adjust F) Role.isSnapshot (F k m).parent (some g))
    (hother : ∀ k m, a.get? k = some m → k ≠ f → (F k m).role.warmStart? = m.role.warmStart?)
    (hw : ∀ m w, a.get? f = some m → (F f m).role.warmStart? = some w →
      w.shares = a.count (·.share = some f) + l.length ∧ w.isAlive = true) :
    Sharing (a.adjust F) none := by
  have hpos : 0 < l.length := List.length_pos_iff.2 hne
  have hcount := count_granted hl hlive hshare
  constructor
  case counted =>
    intro k m w hm hw'
    obtain ⟨o, ho, rfl⟩ := Arena.get?_adjust_some hm
    rw [hcount]
    by_cases hk : k = f
    · subst hk
      rw [(hw o w ho hw').1]
      simp
    · rw [hother k o ho hk] at hw'
      rw [h.counted k o w ho hw', if_neg hk]
      simp
  case alive =>
    intro k m w hm hw'
    obtain ⟨o, ho, rfl⟩ := Arena.get?_adjust_some hm
    by_cases hk : k = f
    · subst hk
      obtain ⟨hs, ha⟩ := hw o w ho hw'
      rw [hs, ha]
      simp only [true_iff]
      omega
    · rw [hother k o ho hk] at hw'
      exact h.alive k o w ho hw'
  case holder =>
    intro k m g hm hg
    obtain ⟨o, ho, rfl⟩ := Arena.get?_adjust_some hm
    exact hholder k o g ho hg
  case due_keeps =>
    intro k hk
    cases hk

end Accounts

namespace Tree

variable {K : Charge σ} {s : Stage} {t : Tree σ cmp}
  {f id : Handle} {n : Node σ}

def settle (t : Tree σ cmp) (nodes : Arena (Node σ)) (root : Option Handle) (solver : σ)
    (stats : Stats) (journal : Array Event) : Tree σ cmp :=
  { t with
    nodes := nodes
    root := root
    lp := { t.lp with solver := solver }
    stats := stats
    journal := journal }

/-- A change of shares and of a warm start concerns the accounts of shares and bases only. -/
theorem Sound.settle {nodes : Arena (Node σ)} {F : Handle → Node σ → Node σ} {solver : σ}
    {stats : Stats} {journal : Array Event} {due : Option Handle} (h : Sound K s t)
    (hnodes : nodes = t.nodes.adjust F)
    (hF : ∀ k m, t.nodes.get? k = some m →
      Steady m (F k m) ∧ (m.share = none → (F k m).share = none))
    (hs : Sharing nodes due) (hb : Books nodes stats)
    (hc : K { t.lp with solver := solver } (bases nodes)) :
    Sound K { s with due := due } (t.settle nodes t.root solver stats journal) := by
  subst hnodes
  have hsteady := fun k m hm => (hF k m hm).1
  exact {
    wellFormed := h.wellFormed.adjust F
    forest := h.forest.adjust fun k m hm => ⟨(hsteady k m hm).parent, (hsteady k m hm).depth⟩
    walk := h.walk.adjust fun k m hm =>
      ⟨(hsteady k m hm).parent, (hsteady k m hm).depth, (hsteady k m hm).onPath⟩
    family := h.family.adjust fun k m hm =>
      ⟨(hsteady k m hm).parent, (hsteady k m hm).onPath, (hF k m hm).2, (hsteady k m hm).name,
        (hsteady k m hm).openChildren⟩
    places := h.places.adjust fun k m hm => ⟨(hsteady k m hm).parent, (hsteady k m hm).staged⟩
    queue := by
      refine h.queue.adjust fun k m hm hr => ⟨(hsteady k m hm).key, ?_⟩
      rw [(hsteady k m hm).name, hr]
    sharing := hs
    logs := by
      refine h.logs.adjust fun k m hm => ⟨(hsteady k m hm).kin.changes, ?_⟩
      rw [(hsteady k m hm).name, (hsteady k m hm).log]
      exact h.logs.unsealed k m hm
    books := hb
    acting := h.acting.adjust fun k m hm => by rw [(hsteady k m hm).name]
    custody := hc }

theorem releaseShare_spec (hK : Redemption K) (h : Sound K s t) (hd : s.due = some f) :
    Ends (releaseShare f) t
      (fun _ t' => Sound K { s with due := none } t' ∧ ∃ n w solver stats journal,
        t.nodes.get? f = some n ∧ n.role.isSnapshot = true ∧
        t' = t.settle (t.nodes.set f { n with role := n.role.withWarmStart w }) t.root solver stats
          journal)
      fun _ _ => False := by
  have hshare := h.sharing
  rw [hd] at hshare
  obtain ⟨n, w, hn, hw⟩ := hshare.due_keeps f rfl
  have hsnap := Role.isSnapshot_iff.2 ⟨w, hw⟩
  have hfull := hshare.counted f n w hn hw
  have hpos : 0 < w.shares := by
    rw [hfull]
    simp
  have hrel := WarmStart.release_spec hpos ((hshare.alive f n w hn hw).2 hpos)
  unfold releaseShare onWarmStart
  simp only [ends_bind, ends_read, node_eq_ok.2 hn, hw]
  unfold Ends at hrel
  cases hr : WarmStart.release w with
  | error e w' => rw [hr] at hrel; exact hrel.elim
  | ok b w' =>
      rw [hr] at hrel
      obtain ⟨hs, ha, hb⟩ := hrel
      have hF := Arena.forall_set (P := fun m m' => Steady m m' ∧ (m.share = none → m'.share = none))
        hn ⟨.withWarmStart n w', fun h => h⟩ fun m => ⟨.refl m, fun h => h⟩
      have hbasis : n.basis?.toList =
          b.toList ++ ({ n with role := n.role.withWarmStart w' } : Node σ).basis?.toList := by
        simp only [Node.basis?, Role.warmStart?_withWarmStart, hw, Option.map_some, Option.bind_some]
        exact hb
      have hsharing := hshare.release hn hw hs ha
      have hbooks := Books.freeBases h.books hn hbasis
      have hcustody := hK.perm _ _ _ (bases_set hn hbasis) h.custody
      simp only [ends_bind, ends_setNode, ends_pure]
      cases b with
      | none =>
          refine ⟨?_, n, w', t.lp.solver, t.stats, t.journal, hn, hsnap, rfl⟩
          exact h.settle (Arena.set_eq_adjust _ f _) hF hsharing hbooks hcustody
      | some b =>
          simp only [ends_bind, ends_returnBasis, ends_count, ends_record]
          refine ⟨?_, n, w', _, _, _, hn, hsnap, rfl⟩
          exact h.settle (Arena.set_eq_adjust _ f _) hF hsharing hbooks (hK.freeBasis _ _ b hcustody)

theorem surrenderShare_spec (hK : Redemption K) (h : Sound K s t) (hd : s.due = none)
    (hn : t.nodes.get? id = some n) :
    Ends (surrenderShare id) t
      (fun _ t' => Sound K s t' ∧ ∃ nodes solver stats journal m,
        t' = t.settle nodes t.root solver stats journal ∧ Matched Steady t.nodes nodes ∧
        nodes.get? id = some m ∧ m.share = none)
      fun _ _ => False := by
  have hstage : { s with due := none } = s := by rw [← hd]
  have hshare := h.sharing
  rw [hd] at hshare
  have hwithdraw := hshare.withdraw hn
  have hsteady := Steady.withShare n none
  have hnone : ({ n with share := none } : Node σ).share = none := rfl
  have hbasis : ({ n with share := none } : Node σ).basis? = n.basis? := rfl
  unfold surrenderShare
  simp only [ends_bind, ends_read, node_eq_ok.2 hn, ends_setNode]
  generalize ({ n with share := none } : Node σ) = n' at hwithdraw hsteady hnone hbasis ⊢
  have hF := Arena.forall_set (P := fun m m' : Node σ => Steady m m' ∧
      (m.share = none → m'.share = none)) hn ⟨hsteady, fun _ => hnone⟩ fun m => ⟨.refl m, fun h => h⟩
  have hset := Arena.set_eq_adjust t.nodes id n'
  have hbases := Arena.forall_set (P := fun m m' : Node σ => m'.basis? = m.basis?) hn hbasis
    fun _ => rfl
  have hbooks : Books (t.nodes.set id n') t.stats := by
    rw [hset]
    exact h.books.adjust hbases
  have hperm : (bases (t.nodes.set id n')).Perm (bases t.nodes) := by
    rw [hset]
    exact bases_adjust hbases
  have hbare : Sound K { s with due := n.share } { t with nodes := t.nodes.set id n' } :=
    h.settle hset hF hwithdraw hbooks (hK.perm _ _ _ hperm.symm h.custody)
  have hmatch : Matched Steady t.nodes (t.nodes.set id n') := .set Steady.refl hn hsteady
  have hself := Arena.get?_set_self hn n'
  cases hf : n.share with
  | none =>
      rw [hf, hstage] at hbare
      exact ⟨hbare, _, _, _, _, n', rfl, hmatch, hself, hnone⟩
  | some f =>
      rw [hf] at hbare
      refine (releaseShare_spec hK hbare rfl).mono ?_ fun _ _ h => h
      rintro - t' ⟨hsound, m, w, solver, stats, journal, hm, -, rfl⟩
      have hstep := Matched.set Steady.refl hm (.withWarmStart m w)
      rw [hstage] at hsound
      refine ⟨hsound, (t.nodes.set id n').set f { m with role := m.role.withWarmStart w }, solver,
        stats, journal, ?_⟩
      by_cases hid : id = f
      · subst hid
        cases hself.symm.trans hm
        refine ⟨{ n' with role := n'.role.withWarmStart w }, rfl, hmatch.steady_trans hstep, ?_, hnone⟩
        exact Arena.get?_set_self hm _
      · refine ⟨n', rfl, hmatch.steady_trans hstep, ?_, hnone⟩
        rw [Arena.get?_set_ne _ hid]
        exact hself

theorem surrenderShare_idle (hn : t.nodes.get? id = some n) :
    Ends (surrenderShare id) t (fun _ t' => n.share = none → t' = t) fun _ _ => True := by
  unfold surrenderShare
  simp only [ends_bind, ends_read, node_eq_ok.2 hn, ends_setNode]
  cases hs : n.share with
  | some f =>
      exact (ends_trivial _ _).mono (fun _ _ _ h => absurd h (Option.some_ne_none f)) fun _ _ _ => trivial
  | none =>
      have hsame : { n with share := none } = n := by rw [← hs]
      rw [hsame, Arena.set_self hn]
      exact fun _ => rfl

end Tree

end BranchBound
