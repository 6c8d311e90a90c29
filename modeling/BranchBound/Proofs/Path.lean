import Mathlib.Data.List.Induction
import BranchBound.Proofs.Route
import BranchBound.Proofs.Touching
import BranchBound.Proofs.Verdict

namespace BranchBound

variable {σ : Type} [Solver σ] {cmp : NodeOrder} {start vars : Array Interval} {a b : Arena (Node σ)}
  {path p l : List Handle} {sizes : List Extent} {last id : Handle} {n : Node σ}

theorem logOf_eq (hn : a.get? id = some n) : logOf a id = n.log.changes := by
  unfold logOf
  rw [hn]
  rfl

theorem changesAlong_append (a : Arena (Node σ)) (p l : List Handle) :
    changesAlong a (p ++ l) = changesAlong a p ++ changesAlong a l := List.flatMap_append

theorem changesAlong_concat (p : List Handle) (hn : a.get? id = some n) :
    changesAlong a (p ++ [id]) = changesAlong a p ++ n.log.changes := by
  rw [changesAlong_append, ← logOf_eq hn]
  exact congrArg _ (List.flatMap_singleton (logOf a) id)

theorem changesAlong_set (hp : id ∉ p) (m : Node σ) : changesAlong (a.set id m) p = changesAlong a p := by
  refine List.flatMap_congr fun k hk => ?_
  unfold logOf
  rw [Arena.get?_set_ne _ (ne_of_mem_of_not_mem hk hp)]

theorem InForce.size_eq (h : InForce start a path vars) : vars.size = start.size := by
  rw [h.vars_eq, size_written]

def sizeAbove (sizes : List Extent) : Nat → Extent
  | 0 => .zero
  | i + 1 => sizes[i]?.getD .zero

structure Marked (n m : Node σ) : Prop extends Kin n m where
  role : m.role = n.role

theorem Marked.refl (n : Node σ) : Marked n n := ⟨.refl n, rfl⟩

theorem Marked.trans {m k : Node σ} (h : Marked n m) (h' : Marked m k) : Marked n k :=
  ⟨h.toKin.trans h'.toKin, h'.role.trans h.role⟩

theorem Marked.mark (n : Node σ) (o : Bool) : Marked n { n with onPath := o } := ⟨⟨⟨rfl, rfl, rfl⟩, rfl⟩, rfl⟩

/-- The sizes from place `k` on are what the roles of the nodes make of the sizes above them. -/
def SizedFrom (a : Arena (Node σ)) (path : List Handle) (sizes : List Extent) (k : Nat) : Prop :=
  ∀ (i : Nat) h, k ≤ i → path[i]? = some h →
    ∃ n, a.get? h = some n ∧ sizes[i]? = some (n.role.lpSize (sizeAbove sizes i))

/-- Only the marks of the path and the old bounds noted in the log differ. -/
structure Rerouted (n m : Node σ) : Prop where
  body : m = { n with log := m.log, onPath := m.onPath }
  writes : SameWrites m.log.changes n.log.changes
  isSealed : m.log.isSealed = n.log.isSealed

namespace Rerouted

variable {m k : Node σ}

theorem refl (n : Node σ) : Rerouted n n := ⟨rfl, rfl, rfl⟩

theorem trans (h : Rerouted n m) (h' : Rerouted m k) : Rerouted n k where
  body := by rw [h'.body, h.body]
  writes := h'.writes.trans h.writes
  isSealed := h'.isSealed.trans h.isSealed

theorem parent (h : Rerouted n m) : m.parent = n.parent := by rw [h.body]

theorem depth (h : Rerouted n m) : m.depth = n.depth := by rw [h.body]

theorem share (h : Rerouted n m) : m.share = n.share := by rw [h.body]

theorem role (h : Rerouted n m) : m.role = n.role := by rw [h.body]

theorem key (h : Rerouted n m) : m.key = n.key := by rw [h.body]; rfl

theorem lineage (h : Rerouted n m) : Lineage n m := ⟨h.parent, h.depth, by rw [h.role]⟩

theorem basis (h : Rerouted n m) : m.basis? = n.basis? := by
  unfold Node.basis?
  rw [h.role]

theorem sameSharing (h : Rerouted n m) : SameSharing n m :=
  ⟨h.parent, h.share, by rw [h.role], fun _ => by rw [h.role]; exact id⟩

theorem mark (n : Node σ) (o : Bool) : Rerouted n { n with onPath := o } := ⟨rfl, rfl, rfl⟩

theorem changesAlong (h : Matched Rerouted a b) (path : List Handle) :
    SameWrites (changesAlong b path) (changesAlong a path) := by
  induction path with
  | nil => rfl
  | cons id path ih =>
      suffices hlog : SameWrites (logOf b id) (logOf a id) from hlog.append ih
      unfold logOf
      cases hn : a.get? id with
      | some n =>
          obtain ⟨m, hm, hnm⟩ := h.forth _ n hn
          rw [hm]
          exact hnm.writes
      | none =>
          cases hm : b.get? id with
          | none => rfl
          | some m =>
              obtain ⟨n, hn', -⟩ := h.back _ m hm
              cases hn.symm.trans hn'

end Rerouted

theorem getElem?_concat_cases {α : Type} {x y : α} {xs : List α} {i : Nat} (h : (xs ++ [x])[i]? = some y) :
    i < xs.length ∧ xs[i]? = some y ∨ i = xs.length ∧ y = x := by
  rcases Nat.lt_or_ge i xs.length with hi | hi
  · rw [List.getElem?_append_left hi] at h
    exact .inl ⟨hi, h⟩
  · rw [List.getElem?_append_right hi, List.getElem?_singleton] at h
    split at h
    · cases h
      exact .inr ⟨by omega, rfl⟩
    · cases h

theorem sizeAbove_append {i : Nat} (hi : i ≤ sizes.length) (more : List Extent) :
    sizeAbove (sizes ++ more) i = sizeAbove sizes i := by
  cases i with
  | zero => rfl
  | succ i => rw [sizeAbove, sizeAbove, List.getElem?_append_left hi]

theorem getLast?_getD_eq_sizeAbove (sizes : List Extent) :
    sizes.getLast?.getD .zero = sizeAbove sizes sizes.length := by
  rw [List.getLast?_eq_getElem?]
  cases sizes with
  | nil => rfl
  | cons size sizes => rfl

theorem SizedFrom.carry {k : Nat} (h : SizedFrom a path sizes k) (hm : Matched Lineage a b) :
    SizedFrom b path sizes k := by
  intro i g hi hg
  obtain ⟨n, hn, hs⟩ := h i g hi hg
  obtain ⟨m, hm', hline⟩ := hm.forth g n hn
  exact ⟨m, hm', by rw [hs, Role.lpSize_congr hline.layer]⟩

theorem SizedFrom.concat {k : Nat} (h : SizedFrom a path sizes k) (hlen : sizes.length = path.length)
    (hn : a.get? id = some n) :
    SizedFrom a (path ++ [id]) (sizes ++ [n.role.lpSize (sizeAbove sizes sizes.length)]) k := by
  intro i g hi hg
  obtain ⟨hlt, hg⟩ | ⟨rfl, rfl⟩ := getElem?_concat_cases hg
  · rw [List.getElem?_append_left (hlen ▸ hlt), sizeAbove_append (hlen ▸ Nat.le_of_lt hlt)]
    exact h i g hi hg
  · rw [← hlen, List.getElem?_concat_length, sizeAbove_append (Nat.le_refl _)]
    exact ⟨n, hn, rfl⟩

theorem Family.reroute {F : Handle → Node σ → Node σ} {loose loose' : List Handle} {lost : Option Handle}
    (h : Family a loose lost) (hF : ∀ k n, a.get? k = some n → Rerouted n (F k n))
    (hspent : ∀ k n, a.get? k = some n → n.role.isExhausted = true → (F k n).onPath = true ∨ k ∈ loose')
    (hentered : ∀ k n, a.get? k = some n → (F k n).onPath = true → n.role.name.isWaiting = true →
      k ∈ loose') : Family (a.adjust F) loose' lost where
  counted k m c hm hc := by
    obtain ⟨n, hn, rfl⟩ := Arena.get?_adjust_some hm
    rw [(hF k n hn).role] at hc
    rw [h.counted k n c hn hc, Arena.count_adjust_congr fun k n hn => by rw [(hF k n hn).parent]]
  parent k m p m' hm hp hm' := by
    obtain ⟨n, hn, rfl⟩ := Arena.get?_adjust_some hm
    obtain ⟨n', hn', rfl⟩ := Arena.get?_adjust_some hm'
    rw [(hF k n hn).parent] at hp
    rw [(hF p n' hn').role]
    exact h.parent k n p n' hn hp hn'
  fresh k m p m' hm hp hm' ha := by
    obtain ⟨n, hn, rfl⟩ := Arena.get?_adjust_some hm
    obtain ⟨n', hn', rfl⟩ := Arena.get?_adjust_some hm'
    rw [(hF k n hn).parent] at hp
    rw [(hF p n' hn').role] at ha
    rw [(hF k n hn).role, (hF k n hn).share]
    exact h.fresh k n p n' hn hp hn' ha
  spent k m hm he := by
    obtain ⟨n, hn, rfl⟩ := Arena.get?_adjust_some hm
    rw [(hF k n hn).role] at he
    exact hspent k n hn he
  entered k m hm ho hw := by
    obtain ⟨n, hn, rfl⟩ := Arena.get?_adjust_some hm
    rw [(hF k n hn).role] at hw
    exact hentered k n hn ho hw

theorem Places.retip {tip tip' anchor : Option Handle} {loose loose' : List Handle}
    {staged : Staging → List Handle} (h : Places a loose tip anchor staged) (hc : staged .children = [])
    (hl : ∀ k ∈ loose, k ∈ loose')
    (hn : ∀ k ∈ loose', k ∉ loose → ∀ n, a.get? k = some n → n.role.staged? = none) :
    Places a loose' tip' anchor staged where
  listed w i k hk := by
    cases w with
    | children =>
        rw [hc] at hk
        cases hk
    | siblings =>
        obtain ⟨hloose, n, hn', hs, hp⟩ := h.listed .siblings i k hk
        refine ⟨fun hk' => ?_, n, hn', hs, hp⟩
        rw [hn k hk' hloose n hn'] at hs
        cases hs
  placed k n w i hn hs hk := h.placed k n w i hn hs fun hk' => hk (hl k hk')

theorem Walk.leave (h : Walk a (p ++ [last])) (hn : a.get? last = some n) :
    Walk (a.set last { n with onPath := false }) p where
  step i k hk := by
    have hi : i < p.length := (List.getElem?_eq_some_iff.1 hk).1
    have hk' : (p ++ [last])[i]? = some k := by rw [List.getElem?_append_left hi, hk]
    obtain ⟨m, hm, hd, ho, hp⟩ := h.step i k hk'
    refine ⟨m, ?_, hd, ho, ?_⟩
    · rw [Arena.get?_set_ne, hm]
      rintro rfl
      have := h.place_unique hk' List.getElem?_concat_length
      omega
    · rw [hp, before_append (Nat.le_of_lt hi)]
  flagged k m hm ho := by
    rw [Arena.get?_set] at hm
    split at hm
    · obtain ⟨-, -, rfl⟩ := Option.map_eq_some_iff.1 hm
      cases ho
    · rename_i hk
      have hmem := h.flagged k m hm ho
      rw [List.mem_append, List.mem_singleton] at hmem
      exact hmem.resolve_right hk

theorem Walk.enter (h : Walk a p) (hn : a.get? id = some n) (hp : n.parent = before p p.length)
    (hd : n.depth = p.length) : Walk (a.set id { n with onPath := true }) (p ++ [id]) where
  step i k hk := by
    obtain ⟨hi, hk⟩ | ⟨rfl, rfl⟩ := getElem?_concat_cases hk
    · obtain ⟨m, hm, hdm, ho, hpm⟩ := h.step i k hk
      refine ⟨m, ?_, hdm, ho, ?_⟩
      · rw [Arena.get?_set_ne, hm]
        rintro rfl
        cases hn.symm.trans hm
        omega
      · rw [hpm, before_append (Nat.le_of_lt hi)]
    · refine ⟨{ n with onPath := true }, ?_, hd, rfl, ?_⟩
      · exact Arena.get?_set_self hn _
      · rw [before_append (Nat.le_refl _)]
        exact hp
  flagged k m hm ho := by
    rw [Arena.get?_set] at hm
    rw [List.mem_append, List.mem_singleton]
    split at hm
    · rename_i hk
      exact .inr hk
    · exact .inl (h.flagged k m hm ho)

namespace Tree

variable {K K' : Charge σ} {s : Stage} {t : Tree σ cmp}
  {anchor : Option Handle} {loose : List Handle}

section Undo

theorem undoLog_spec (h : InForce start t.nodes (p ++ [last]) t.domains.vars)
    (hn : t.nodes.get? last = some n) :
    Ends (undoLog last) t
      (fun _ t' => ∃ domains, t' = { t with domains := domains } ∧ InForce start t.nodes p domains.vars ∧
        t.domains.Touches domains)
      fun _ _ => False := by
  have hnoted := h.noted
  have hvars := h.vars_eq
  rw [changesAlong_concat p hn, noted_append] at hnoted
  rw [changesAlong_concat p hn, written_append] at hvars
  obtain ⟨hundone, hok⟩ := ChangeLog.undo_vars hnoted.2 hvars
  unfold undoLog
  simp only [ends_bind, ends_read, node_eq_ok.2 hn, ends_get, ends_set, ends_liftExcept, hok]
  exact ⟨_, rfl, ⟨hnoted.1, hundone⟩, .revert _ _⟩

theorem undoStep_spec (h : InForce start t.nodes (p ++ [last]) t.domains.vars)
    (hn : t.nodes.get? last = some n) :
    Ends (undoStep last) t
      (fun _ t' => ∃ domains journal, t' = { t with domains := domains, journal := journal } ∧
        InForce start t.nodes p domains.vars ∧ t.domains.Touches domains)
      fun _ _ => False := by
  unfold undoStep
  simp only [ends_bind, ends_read, node_eq_ok.2 hn, ends_record]
  refine (undoLog_spec (t := { t with journal := t.journal.push _ }) h hn).mono ?_ fun _ _ h => h
  rintro _ t' ⟨domains, rfl, h'⟩
  exact ⟨domains, _, rfl, h'⟩

/-- Taking back the logs of the path's last nodes, the deepest first, leaves those above in force. -/
theorem undoAll_spec {f : Handle → TreeM σ cmp Unit}
    (hf : ∀ (t : Tree σ cmp) p last n, InForce start t.nodes (p ++ [last]) t.domains.vars →
      t.nodes.get? last = some n → Ends (f last) t
        (fun _ t' => ∃ domains journal, t' = { t with domains := domains, journal := journal } ∧
          InForce start t.nodes p domains.vars ∧ t.domains.Touches domains) fun _ _ => False)
    (h : InForce start t.nodes (p ++ l) t.domains.vars)
    (hl : ∀ k ∈ l, ∃ n, t.nodes.get? k = some n) :
    Ends (l.reverse.forM f) t
      (fun _ t' => ∃ domains journal, t' = { t with domains := domains, journal := journal } ∧
        InForce start t.nodes p domains.vars ∧ t.domains.Touches domains)
      fun _ _ => False := by
  induction l using List.reverseRecOn generalizing t with
  | nil =>
      rw [List.append_nil] at h
      exact ⟨t.domains, t.journal, rfl, h, .refl _⟩
  | append_singleton l last ih =>
      rw [List.reverse_append, ← List.append_assoc] at *
      obtain ⟨n, hn⟩ := hl last (List.mem_append_right l List.mem_cons_self)
      simp only [List.reverse_singleton, List.singleton_append, List.forM, ends_bind]
      refine (hf t (p ++ l) last n h hn).mono ?_ fun _ _ h => h
      rintro _ t₁ ⟨domains, journal, rfl, h₁, htouch⟩
      refine (ih (t := { t with domains := domains, journal := journal }) h₁ fun k hk =>
        hl k (List.mem_append_left _ hk)).mono ?_ fun _ _ h => h
      rintro _ t₂ ⟨domains', journal', rfl, h₂, htouch'⟩
      exact ⟨domains', journal', rfl, h₂, htouch.trans htouch'⟩

end Undo

/-- Marks of the path and noted bounds concern the path and the lists only. -/
theorem Sound.reroute {F : Handle → Node σ → Node σ} {loose : List Handle} {path : List Handle}
    (hK : Custody K K') (h : Sound K s t) (domains : Domains)
    (hF : ∀ k m, t.nodes.get? k = some m → Rerouted m (F k m)) (hsize : domains.size = t.domains.size)
    (hw : Walk (t.nodes.adjust F) path) (hf : Family (t.nodes.adjust F) loose s.lost)
    (hp : Places (t.nodes.adjust F) loose (before path path.length) s.anchor t.staged) :
    Sound K { s with loose := loose }
      { t with nodes := t.nodes.adjust F, path := path, domains := domains } where
  wellFormed := h.wellFormed.adjust F
  forest := h.forest.adjust fun k m hm => ⟨(hF k m hm).parent, (hF k m hm).depth⟩
  walk := hw
  family := hf
  places := hp
  queue := h.queue.adjust fun k m hm hr => ⟨(hF k m hm).key, by rw [(hF k m hm).role, hr]⟩
  sharing := h.sharing.adjust fun k m hm => (hF k m hm).sameSharing
  logs := by
    constructor
    · intro k m c hm hc
      obtain ⟨n, hn, rfl⟩ := Arena.get?_adjust_some hm
      have hlt := SameWrites.forall_var (Eq.symm (hF k n hn).writes) (· < t.domains.size) fun e he =>
        h.logs.inRange k n e hn he
      exact hsize ▸ hlt c hc
    · intro k m hm hr
      obtain ⟨n, hn, rfl⟩ := Arena.get?_adjust_some hm
      rw [(hF k n hn).role] at hr
      rw [(hF k n hn).isSealed]
      exact h.logs.unsealed k n hn hr
  books := h.books.adjust fun k m hm => (hF k m hm).basis
  acting := h.acting.adjust fun k m hm => by rw [(hF k m hm).role]
  custody := hK.perm _ _ _ (bases_adjust fun k m hm => (hF k m hm).basis).symm h.custody

section Leave

theorem Sound.leave (hK : Custody K K') (h : Sound K ⟨none, anchor, loose, none, none⟩ t)
    (hpath : t.path = p ++ [last]) (hc : t.children = []) (hn : t.nodes.get? last = some n)
    (hw : n.role.name.isWaiting = false) :
    Sound K ⟨none, anchor, if n.role.isExhausted then last :: loose else loose, none, none⟩
      { t with path := p, nodes := t.nodes.set last { n with onPath := false } } := by
  have hwalk := Walk.leave (hpath ▸ h.walk) hn
  have hF := Arena.forall_set (P := fun m m' : Node σ => Rerouted m m' ∧ (m'.onPath = true → m.onPath = true))
    hn ⟨.mark n false, fun ho => nomatch ho⟩ fun m => ⟨.refl m, id⟩
  have hother : ∀ k m, k ≠ last → (if k = last then { n with onPath := false } else m) = m :=
    fun k m hk => if_neg hk
  have hsub : ∀ k ∈ loose, k ∈ if n.role.isExhausted then last :: loose else loose := by
    intro k hk
    split
    · exact List.mem_cons_of_mem _ hk
    · exact hk
  have hunstaged : n.role.staged? = none := by
    cases hr : n.role.staged? with
    | none => rfl
    | some place =>
        rw [BranchBound.waiting_of_staged (w := place.1) (i := place.2) hr] at hw
        cases hw
  rw [Arena.set_eq_adjust] at hwalk ⊢
  refine h.reroute hK t.domains (fun k m hm => (hF k m hm).1) rfl hwalk ?_ ?_
  · refine h.family.reroute (fun k m hm => (hF k m hm).1) ?_ ?_
    · intro k m hm hx
      by_cases hk : k = last
      · subst hk
        cases hn.symm.trans hm
        rw [if_pos hx]
        exact .inr List.mem_cons_self
      · rw [hother k m hk]
        exact (h.family.spent k m hm hx).imp_right (hsub k)
    · intro k m hm ho hr
      exact hsub k (h.family.entered k m hm ((hF k m hm).2 ho) hr)
  · refine Places.adjust (fun k m hm => ⟨(hF k m hm).1.parent, by rw [(hF k m hm).1.role]⟩)
      (h.places.retip hc hsub fun k hk hnot m hm => ?_)
    split at hk
    · obtain rfl := (List.mem_cons.1 hk).resolve_right hnot
      cases hn.symm.trans hm
      exact hunstaged
    · exact absurd hk hnot

theorem leave_spec (hK : Custody K K') (h : Sound K ⟨none, anchor, loose, none, none⟩ t)
    (hpath : t.path = p ++ [last]) (hc : t.children = []) (hl : last ∉ loose) :
    Ends (leave last) t
      (fun _ t' => Sound K ⟨none, anchor, loose, none, none⟩ t' ∧ ∃ nodes root solver stats journal,
        t' = { t.settle nodes root solver stats journal with path := p } ∧ Spared [] t.nodes nodes)
      fun _ _ => False := by
  obtain ⟨n, hn, -, ho, -⟩ := h.walk.step p.length last (by rw [hpath]; exact List.getElem?_concat_length)
  have hw : n.role.name.isWaiting = false := by
    cases hr : n.role.name.isWaiting with
    | false => rfl
    | true => exact absurd (h.family.entered last n hn ho hr) hl
  have hleft := h.leave hK hpath hc hn hw
  have hspared : Spared [] t.nodes (t.nodes.set last { n with onPath := false }) :=
    .set hn ⟨⟨rfl, rfl, rfl⟩, rfl⟩ hw
  have hdrop : t.path.dropLast = p := by rw [hpath, List.dropLast_concat]
  have hread : ({ t with path := p } : Tree σ cmp).node last = .ok n := node_eq_ok.2 hn
  unfold BranchBound.Tree.leave
  simp only [ends_bind, ends_modify, hdrop, ends_read, hread, ends_setNode]
  cases hx : n.role.isExhausted with
  | false =>
      rw [hx, if_neg Bool.false_ne_true] at hleft
      rw [if_neg Bool.false_ne_true]
      exact ⟨hleft, _, t.root, t.lp.solver, t.stats, t.journal, rfl, hspared⟩
  | true =>
      rw [hx, if_pos rfl] at hleft
      rw [if_pos rfl]
      have hself := Arena.get?_set_self hn { n with onPath := false }
      have hr : Removable { t with path := p, nodes := t.nodes.set last { n with onPath := false } }
          last { n with onPath := false } := by
        refine ⟨hself, rfl, .inr hx, hleft.unqueued hself fun hleaf => ?_⟩
        change n.role.name = .leaf at hleaf
        rw [hleaf] at hw
        cases hw
      refine (freeUpwards_spec hK.toRedemption hleft hr rfl).mono ?_ fun _ _ h => h
      rintro _ t' ⟨nodes, root, solver, stats, journal, hspared', rfl, h'⟩
      refine ⟨h', nodes, root, solver, stats, journal, rfl, hspared.carried.kin_trans hspared'.carried, ?_⟩
      intro k o ho' hr' hk
      have ho'' := hspared.waiting k o ho' hr' hk
      refine hspared'.waiting k o ho'' hr' fun hks => ?_
      obtain rfl := List.mem_singleton.1 hks
      cases hn.symm.trans ho'
      rw [hw] at hr'
      cases hr'

theorem leaveAll_spec (hK : Custody K K') (h : Sound K ⟨none, anchor, loose, none, none⟩ t)
    (hpath : t.path = p ++ l) (hc : t.children = []) (hl : ∀ k ∈ l, k ∉ loose) :
    Ends (l.reverse.forM leave) t
      (fun _ t' => Sound K ⟨none, anchor, loose, none, none⟩ t' ∧ ∃ nodes root solver stats journal,
        t' = { t.settle nodes root solver stats journal with path := p } ∧ Spared [] t.nodes nodes)
      fun _ _ => False := by
  induction l using List.reverseRecOn generalizing t with
  | nil =>
      rw [List.append_nil] at hpath
      refine ⟨h, t.nodes, t.root, t.lp.solver, t.stats, t.journal, ?_, .refl Kin.refl _, fun _ _ hn _ _ => hn⟩
      rw [← hpath]
      rfl
  | append_singleton l last ih =>
      rw [← List.append_assoc] at hpath
      rw [List.reverse_append]
      simp only [List.reverse_singleton, List.singleton_append, List.forM, ends_bind]
      refine (leave_spec hK h hpath hc (hl last (List.mem_append_right l List.mem_cons_self))).mono ?_
        fun _ _ h => h
      rintro _ t₁ ⟨h₁, nodes, root, solver, stats, journal, rfl, hspared⟩
      refine (ih h₁ rfl hc fun k hk => hl k (List.mem_append_left _ hk)).mono ?_ fun _ _ h => h
      rintro _ t₂ ⟨h₂, nodes', root', solver', stats', journal', rfl, hspared'⟩
      exact ⟨h₂, nodes', root', solver', stats', journal', rfl, hspared.trans hspared'⟩

end Leave

section Enter

theorem Sound.depth_eq (h : Sound K s t) (hn : t.nodes.get? id = some n) (hp : n.parent = t.tip) :
    n.depth = t.path.length := by
  unfold tip at hp
  cases hlen : t.path.length with
  | zero =>
      rw [hlen] at hp
      exact (h.forest.rooted id n hn hp).2
  | succ k =>
      obtain ⟨last, hlast⟩ : ∃ last, t.path[k]? = some last := ⟨_, List.getElem?_eq_getElem (by omega)⟩
      rw [hlen, before_succ hlast] at hp
      obtain ⟨m, hm, hd⟩ := h.forest.hung id n last hn hp
      obtain ⟨m', hm', hd', -⟩ := h.walk.step k last hlast
      cases hm.symm.trans hm'
      omega

theorem enter_spec (hK : Custody K K') (h : Sound K ⟨none, anchor, loose, none, none⟩ t)
    (hc : t.children = []) (hn : t.nodes.get? id = some n) (hp : n.parent = t.tip)
    (hw : n.role.name.isWaiting = true → id ∈ loose) :
    Ends (enter id) t
      (fun _ t' => t' = { t with
          nodes := t.nodes.set id { n with onPath := true }
          path := t.path ++ [id]
          sizes := t.sizes ++ [n.role.lpSize (sizeAbove t.sizes t.sizes.length)] } ∧
        Sound K ⟨none, anchor, loose, none, none⟩ t')
      fun _ _ => False := by
  have hdepth := h.depth_eq hn hp
  unfold enter
  simp only [ends_bind, ends_read, node_eq_ok.2 hn, ends_setNode, ends_modify, getLast?_getD_eq_sizeAbove]
  refine ⟨trivial, ?_⟩
  have hwalk := h.walk.enter hn hp hdepth
  have hF := Arena.forall_set (P := fun m m' : Node σ => Rerouted m m' ∧ (m.onPath = true → m'.onPath = true))
    hn ⟨.mark n true, fun _ => rfl⟩ fun m => ⟨.refl m, fun ho => ho⟩
  rw [Arena.set_eq_adjust] at hwalk ⊢
  refine { h.reroute hK t.domains (fun k m hm => (hF k m hm).1) rfl hwalk ?_ ?_ with }
  · refine h.family.reroute (fun k m hm => (hF k m hm).1) ?_ ?_
    · intro k m hm hx
      exact (h.family.spent k m hm hx).imp_left (hF k m hm).2
    · intro k m hm ho hr
      by_cases hk : k = id
      · subst hk
        cases hn.symm.trans hm
        exact hw hr
      · rw [if_neg hk] at ho
        exact h.family.entered k m hm ho hr
  · refine Places.adjust (fun k m hm => ⟨(hF k m hm).1.parent, by rw [(hF k m hm).1.role]⟩)
      (h.places.retip hc (fun _ hk => hk) fun k hk hnot m hm => absurd hk hnot)

theorem enterAll_spec (hK : Custody K K') {x : Option Handle} {l : List Handle}
    (h : Sound K ⟨none, anchor, loose, none, none⟩ t) (hc : t.children = [])
    (hlen : t.sizes.length = t.path.length) (hl : Climb t.nodes x l t.tip)
    (hw : ∀ k n, l.head? = some k → t.nodes.get? k = some n → n.role.name.isWaiting = true → k ∈ loose) :
    Ends (l.reverse.forM enter) t
      (fun _ t' => Sound K ⟨none, anchor, loose, none, none⟩ t' ∧ ∃ nodes more,
        t' = { t with nodes := nodes, path := t.path ++ l.reverse, sizes := t.sizes ++ more } ∧
        Matched Marked t.nodes nodes ∧ more.length = l.length ∧
        before (t.path ++ l.reverse) (t.path ++ l.reverse).length = x ∧
        SizedFrom nodes (t.path ++ l.reverse) (t.sizes ++ more) t.path.length)
      fun _ _ => False := by
  generalize hy : t.tip = y at hl
  induction hl with
  | done =>
      refine ⟨h, t.nodes, [], ?_, .refl Marked.refl _, rfl, ?_, ?_⟩
      · rw [List.reverse_nil, List.append_nil, List.append_nil]
      · rw [List.reverse_nil, List.append_nil, ← hy]
        rfl
      · intro i k hi hk
        rw [List.reverse_nil, List.append_nil] at hk
        have := (List.getElem?_eq_some_iff.1 hk).1
        omega
  | @step id n l y hn hrest ih =>
      rw [List.reverse_cons, ends_forM_append]
      -- The node that the first of the others hangs from counts children, so it does not wait.
      refine (ih (fun k m hk hm hr => ?_) hy).mono ?_ fun _ _ h => h
      · rcases h.family.parent id n k m hn (hrest.eq_head hk) hm with hact | hopen
        · exact absurd hact (Role.not_active_of_waiting hr)
        · rw [Role.not_waiting_of_open hopen] at hr
          cases hr
      · rintro _ t₁ ⟨h₁, nodes, more, rfl, hmatch, hmore, htip, hsized⟩
        obtain ⟨m, hm, hmarked⟩ := hmatch.forth id n hn
        have hset := Matched.set Marked.refl hm (.mark m true)
        have hlen₁ : (t.sizes ++ more).length = (t.path ++ l.reverse).length := by
          rw [List.length_append, List.length_append, List.length_reverse, hlen, hmore]
        simp only [List.forM, ends_bind]
        refine (enter_spec hK h₁ hc hm (hmarked.parent.trans htip.symm) fun hr => ?_).mono ?_ fun _ _ h => h
        · rw [hmarked.role] at hr
          exact hw id n rfl hn hr
        · rintro _ t₂ ⟨rfl, h₂⟩
          refine ⟨h₂, _, more ++ [_], by rw [← List.append_assoc, ← List.append_assoc], ?_, ?_, ?_, ?_⟩
          · exact Matched.trans (S := Marked) (fun _ _ _ => Marked.trans) hmatch hset
          · rw [List.length_append, hmore]
            rfl
          · rw [← List.append_assoc]
            exact before_length_append _ _
          · rw [← List.append_assoc, ← List.append_assoc]
            refine (hsized.carry (hset.mono fun _ _ h => h.toLineage)).concat hlen₁
              (n := { m with onPath := true }) ?_
            exact Arena.get?_set_self hm _

end Enter

section Apply

theorem applyLog_spec (hK : Custody K K') (h : Sound K s t) (hf : InForce start t.nodes p t.domains.vars)
    (hn : t.nodes.get? id = some n) (hp : id ∉ p) :
    Ends (applyLog id) t
      (fun o t' => Sound K s t' ∧ ∃ nodes domains journal,
        t' = { t with nodes := nodes, domains := domains, journal := journal } ∧
        Matched Rerouted t.nodes nodes ∧ InForce start nodes (p ++ [id]) domains.vars ∧ t.domains.Touches domains ∧
        o = verdict t.settings.tol (written start (changesAlong nodes p)) (logOf nodes id))
      fun _ _ => False := by
  have hrange : ∀ c ∈ n.log.changes, c.var < t.domains.size := fun c hc => h.logs.inRange id n c hn hc
  obtain ⟨-, hvars, hnoted, hsame, hsealed⟩ := n.log.apply_noted t.settings.tol hrange
  have ho : (n.log.apply t.settings.tol t.domains).2.2 = .ok (verdict t.settings.tol t.domains.vars n.log.changes) :=
    applyChanges_outcome hrange
  unfold applyLog
  simp only [ends_bind, ends_read, node_eq_ok.2 hn, ends_record, ends_get, ends_set, ends_liftExcept, ho]
  have htouch : t.domains.Touches (n.log.apply t.settings.tol t.domains).2.1 := .apply _ _ _
  generalize (n.log.apply t.settings.tol t.domains).1 = log at hnoted hsame hsealed ⊢
  generalize (n.log.apply t.settings.tol t.domains).2.1 = domains at hvars htouch ⊢
  have hsize : domains.size = t.domains.size := by
    unfold Domains.size
    rw [hvars, size_written]
  have hre : Rerouted n { n with log := log } := ⟨rfl, hsame, hsealed⟩
  have hF := Arena.forall_set (P := fun m m' : Node σ => Rerouted m m' ∧ m'.onPath = m.onPath)
    hn ⟨hre, rfl⟩ fun m => ⟨.refl m, rfl⟩
  have hself := Arena.get?_set_self hn { n with log := log }
  have hchanges := changesAlong_set (a := t.nodes) hp { n with log := log }
  refine ⟨?_, _, domains, _, rfl, .set Rerouted.refl hn hre, ?_, htouch, ?_⟩
  · rw [Arena.set_eq_adjust]
    refine { h.reroute hK domains (fun k m hm => (hF k m hm).1) hsize ?_ ?_ ?_ with }
    · exact h.walk.adjust fun k m hm => ⟨(hF k m hm).1.parent, (hF k m hm).1.depth, (hF k m hm).2⟩
    · refine h.family.reroute (fun k m hm => (hF k m hm).1) ?_ ?_
      · intro k m hm hx
        rw [(hF k m hm).2]
        exact h.family.spent k m hm hx
      · intro k m hm hon hr
        rw [(hF k m hm).2] at hon
        exact h.family.entered k m hm hon hr
    · exact h.places.adjust fun k m hm => ⟨(hF k m hm).1.parent, by rw [(hF k m hm).1.role]⟩
  · constructor
    · rw [changesAlong_concat p hself, hchanges, noted_append]
      exact ⟨hf.noted, hf.vars_eq ▸ hnoted⟩
    · rw [changesAlong_concat p hself, hchanges, written_append, ← hf.vars_eq, hsame.written, hvars]
  · rw [hchanges, ← hf.vars_eq, logOf_eq hself, hsame.verdict]

theorem applyLogs_spec (hK : Custody K K') (h : Sound K s t) (hf : InForce start t.nodes p t.domains.vars)
    (hl : ∀ k ∈ l, ∃ n, t.nodes.get? k = some n) (hp : (p ++ l).Nodup) :
    Ends (applyLogs l) t
      (fun o t' => Sound K s t' ∧ ∃ nodes domains journal,
        t' = { t with nodes := nodes, domains := domains, journal := journal } ∧
        Matched Rerouted t.nodes nodes ∧ InForce start nodes (p ++ l) domains.vars ∧ t.domains.Touches domains ∧
        o = verdict t.settings.tol (written start (changesAlong nodes p)) (changesAlong nodes l))
      fun _ _ => False := by
  induction l generalizing p t with
  | nil =>
      refine ⟨h, t.nodes, t.domains, t.journal, rfl, .refl Rerouted.refl _, ?_, .refl _, rfl⟩
      rwa [List.append_nil]
  | cons id l ih =>
      obtain ⟨n, hn⟩ := hl id List.mem_cons_self
      rw [← List.singleton_append, ← List.append_assoc] at hp
      have hfresh : id ∉ p := by
        intro hid
        rw [List.append_assoc, List.nodup_append'] at hp
        exact hp.2.2 hid List.mem_cons_self
      simp only [applyLogs, ends_bind]
      refine (applyLog_spec hK h hf hn hfresh).mono ?_ fun _ _ h => h
      rintro o t₁ ⟨h₁, nodes, domains, journal, rfl, hmatch, hf₁, htouch, ho⟩
      refine (ih h₁ hf₁ (fun k hk => ?_) hp).mono ?_ fun _ _ h => h
      · obtain ⟨m, hm⟩ := hl k (List.mem_cons_of_mem id hk)
        obtain ⟨m', hm', -⟩ := hmatch.forth _ m hm
        exact ⟨m', hm'⟩
      · rintro o' t₂ ⟨h₂, nodes', domains', journal', rfl, hmatch', hf₂, htouch', ho'⟩
        rw [List.append_assoc, List.singleton_append] at hf₂
        refine ⟨h₂, nodes', domains', journal', rfl,
          Matched.trans (S := Rerouted) (fun _ _ _ => Rerouted.trans) hmatch hmatch', hf₂, htouch.trans htouch', ?_⟩
        rw [changesAlong_append, written_append] at ho'
        have hhere : SameWrites (changesAlong nodes' [id]) (changesAlong nodes [id]) :=
          Rerouted.changesAlong hmatch' _
        have habove : SameWrites (changesAlong nodes' p) (changesAlong nodes p) :=
          Rerouted.changesAlong hmatch' _
        rw [← List.singleton_append, changesAlong_append, verdict_append, ← ho', habove.written, hhere.verdict, ho]
        rw [show changesAlong nodes [id] = logOf nodes id from List.flatMap_singleton ..]

end Apply

end Tree

end BranchBound
