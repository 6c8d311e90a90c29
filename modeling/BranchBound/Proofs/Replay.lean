import BranchBound.Proofs.Loading
import BranchBound.Proofs.Memory

namespace BranchBound.Tree

variable {σ : Type} [Solver σ] {cmp : NodeOrder} {K : Charge σ} {start : Array Interval}
  {t t' t₁ : Tree σ cmp} {held : Handle → Contents σ} {base : Contents σ} {k : Nat} {id : Handle} {n : Node σ}

structure Alike (t t₁ : Tree σ cmp) : Prop where
  nodes : t₁.nodes = t.nodes
  path : t₁.path = t.path
  sizes : t₁.sizes = t.sizes
  lpFork : t₁.lpFork = t.lpFork
  subroot : t₁.subroot = t.subroot
  active : t₁.active = t.active

theorem Alike.refl (t : Tree σ cmp) : Alike t t := ⟨rfl, rfl, rfl, rfl, rfl, rfl⟩

theorem Alike.node_ok (h : Alike t t₁) (hn : t.nodes.get? id = some n) : t₁.node id = .ok n :=
  node_eq_ok.2 (h.nodes ▸ hn)

structure Builds (base : Contents σ) (t t₁ : Tree σ cmp) : Prop extends Alike t t₁ where
  correctDepth : t₁.correctDepth = t.correctDepth
  begins : base.Begins t₁.lp.contents

/-- The relaxation is what was left above place `k` of the path. -/
structure Holds (held : Handle → Contents σ) (base : Contents σ) (t t₁ : Tree σ cmp) (k : Nat) : Prop
    extends Builds base t t₁ where
  le : k ≤ t.path.length
  contents : ∃ g, Nearest t.nodes Role.isSnapshot (before t.path k) g ∧ t₁.lp.contents = heldAt held g

def Interrupted (base : Contents σ) (t : Tree σ cmp) (e : TreeError) (t' : Tree σ cmp) : Prop :=
  (∃ e', e = .solver e') ∧ Builds base t t'

theorem replaySnapshot_appends (h : Builds base t t₁) (s : Snapshot σ) :
    Ends (replaySnapshot s) t₁ (fun _ t' => Builds base t t' ∧ t'.lp.contents = t₁.lp.contents.append s.contents)
      (Interrupted base t) := by
  unfold replaySnapshot
  rw [ends_bind, ends_onLp]
  refine (Relaxation.extend_contents s.contents t₁.lp).mono (fun _ lp hlp => ?_) fun e lp hlp => ?_
  · refine ⟨{ h with begins := ?_ }, hlp⟩
    change base.Begins lp.contents
    rw [hlp]
    exact h.begins.trans (Contents.begins_append _ _)
  · exact ⟨⟨e, rfl⟩, { h with begins := h.begins.trans hlp }⟩

theorem Holds.replay (hr : Resting K start t) (hl : Layered held t.nodes) (h : Holds held base t t₁ k)
    {x : Handle} {s : Snapshot σ} (hx : t.path[k]? = some x) (hn : t.nodes.get? x = some n)
    (hs : n.role = .fork s) :
    Ends (replaySnapshot s) t₁ (fun _ t' => Holds held base t t' (k + 1)) (Interrupted base t) := by
  refine (replaySnapshot_appends h.toBuilds s).mono (fun _ t' h' => ?_) fun _ _ h' => h'
  obtain ⟨g, hg, hc⟩ := h.contents
  obtain ⟨n', hn', -, -, hp⟩ := hr.walk.step k x hx
  cases hn.symm.trans hn'
  refine ⟨h'.1, (List.getElem?_eq_some_iff.1 hx).1, some x, ?_, ?_⟩
  · rw [before_succ hx]
    exact .here hn (by rw [hs]; rfl)
  · obtain ⟨heq, -⟩ := hl.heldAt_eq hn (g := some x) (.here hn (by rw [hs]; rfl)) (hp ▸ hg)
    rw [h'.2, hc, heq, hs]
    rfl

theorem Holds.skip (hr : Resting K start t) (h : Holds held base t t₁ k) {x : Handle}
    (hx : t.path[k]? = some x) (hn : t.nodes.get? x = some n) (hq : n.role.isSnapshot = false) :
    Holds held base t t₁ (k + 1) := by
  obtain ⟨g, hg, hc⟩ := h.contents
  obtain ⟨n', hn', -, -, hp⟩ := hr.walk.step k x hx
  cases hn.symm.trans hn'
  refine ⟨h.toBuilds, (List.getElem?_eq_some_iff.1 hx).1, g, ?_, hc⟩
  rw [before_succ hx]
  exact .above hn hq (hp ▸ hg)

theorem Resting.subroot_keeps (hr : Resting K start t) (hl : Layered held t.nodes) (hf : t.subroot = some id) :
    ∃ n s, t.nodes.get? id = some n ∧ n.role = .subroot s ∧ before t.path (n.depth + 1) = some id ∧
      n.depth < t.path.length ∧ held id = s.contents := by
  have hnear := hr.subroot
  rw [hf] at hnear
  obtain ⟨n, hn, hq, hx, -⟩ := hr.walk.nearest_onPath hnear
  obtain ⟨s, hs⟩ : ∃ s, n.role = .subroot s := by
    cases hrole : n.role <;> rw [hrole] at hq <;> first | exact ⟨_, rfl⟩ | cases hq
  obtain ⟨g, -, heq, -⟩ := hl id n hn (Role.isSnapshot_of_isSubroot hq)
  refine ⟨n, s, hn, hs, before_succ hx, (List.getElem?_eq_some_iff.1 hx).1, ?_⟩
  rw [heq, hs]
  rfl

theorem rebuild_holds (hr : Resting K start t) (hl : Layered held t.nodes) (h : Builds .empty t t₁) :
    Ends rebuild t₁ (fun k t' => Holds held .empty t t' k ∧
      ∀ f n, t.subroot = some f → t.nodes.get? f = some n → k = n.depth + 1) (Interrupted .empty t) := by
  unfold rebuild
  refine Ends.bind (R := fun _ t₂ => Builds .empty t t₂ ∧ t₂.lp.contents = .empty) ?_ ?_
  · rw [ends_onLp]
    exact (Relaxation.clear_contents t₁.lp).mono
      (fun _ _ hempty => ⟨{ h with begins := Contents.empty_begins _ }, hempty⟩)
      fun e _ _ => ⟨⟨e, rfl⟩, { h with begins := Contents.empty_begins _ }⟩
  · rintro _ t₂ ⟨h₂, hempty₂⟩
    refine Ends.bind (R := fun _ t₃ => Builds .empty t t₃ ∧ t₃.lp.contents = .empty) ⟨{ h₂ with }, hempty₂⟩ ?_
    rintro _ t₃ ⟨h₃, hempty₃⟩
    rw [ends_bind, ends_get, h₃.subroot]
    cases hsub : t.subroot with
    | none =>
        exact ⟨⟨{ h₃ with }, Nat.zero_le _, none, .top, hempty₃⟩, fun f n hf => nomatch hf⟩
    | some f =>
        obtain ⟨n, s, hn, hs, hbefore, hlt, hheld⟩ := hr.subroot_keeps hl hsub
        simp only
        rw [ends_bind, ends_read, h₃.node_ok hn]
        simp only [hs]
        refine Ends.bind (R := fun _ t₄ => Builds .empty t t₄ ∧ t₄.lp.contents = .empty) ⟨{ h₃ with }, hempty₃⟩ ?_
        rintro _ t₄ ⟨h₄, hempty₄⟩
        refine (replaySnapshot_appends h₄ s).bind ?_
        rintro _ t' ⟨h', hc⟩
        refine ⟨⟨h', hlt, some f, ?_, ?_⟩, ?_⟩
        · rw [hbefore]
          exact .here hn (by rw [hs]; rfl)
        · rw [hc, hempty₄]
          exact hheld.symm
        · rintro _ n' ⟨⟩ hn'
          cases hn.symm.trans hn'
          rfl

/-- Above the active node, on whose path nothing is kept further down, the nearest node that keeps
something is the nearest above every place between. -/
theorem Resting.nearest_tip (hr : Resting K start t) (ha : t.active = some id) {q : Role σ → Bool}
    {g : Option Handle} (hg : Nearest t.nodes q t.above g) (hq : q .active = false) :
    Nearest t.nodes q (before t.path t.path.length) g := by
  obtain ⟨n, hn, hact, -, -, hp, -⟩ := hr.actor ha
  rw [show before t.path t.path.length = some id from hr.active_eq.symm.trans ha]
  exact .above hn (hact ▸ hq) (hp ▸ hg)

theorem Resting.nearest_deepest (hr : Resting K start t) (ha : t.active = some id) {q : Role σ → Bool}
    {g : Option Handle} (hg : Nearest t.nodes q t.above g) (hact : q .active = false) {x : Handle}
    (hx : t.path[k]? = some x) (hn : t.nodes.get? x = some n) (hq : q n.role = true) :
    ∃ f m, g = some f ∧ t.nodes.get? f = some m ∧ k ≤ m.depth := by
  by_contra hnone
  have hshallow : ∀ f m, g = some f → t.nodes.get? f = some m → m.depth < k := by
    intro f m hf hm
    exact Nat.lt_of_not_le fun hle => hnone ⟨f, m, hf, hm, hle⟩
  have hlt := (List.getElem?_eq_some_iff.1 hx).1
  have hnear := hr.walk.nearest_between (hr.nearest_tip ha hg hact) (Nat.le_refl _) hlt
    fun f m hf hm => Nat.lt_succ_of_lt (hshallow f m hf hm)
  rw [before_succ hx] at hnear
  obtain ⟨m, hm, hd, -⟩ := hr.walk.step k x hx
  have := hshallow x m (hnear.unique (.here hn hq)) hm
  omega

/-- From place `k` of the path on nothing starts anew, unless nothing of the relaxation is to be kept. -/
def Continues (base : Contents σ) (t : Tree σ cmp) (k : Nat) : Prop :=
  base = .empty ∨ ∀ f n, t.subroot = some f → t.nodes.get? f = some n → n.depth < k

theorem Continues.mono {k' : Nat} (h : Continues base t k) (hk : k ≤ k') : Continues base t k' :=
  h.imp_right fun h f n hf hn => Nat.lt_of_lt_of_le (h f n hf hn) hk

theorem replay_holds (hr : Resting K start t) (hl : Layered held t.nodes) (ha : t.active = some id) {d : Nat}
    (hd : d ≤ t.path.length) (ids : List Handle) (p skip : Nat)
    (hids : ids = (t.path.take d).drop p) (h : Holds held base t t₁ (p + skip))
    (hon : Continues base t (p + skip)) :
    Ends (replay skip ids) t₁ (fun _ t' => ∃ k, d ≤ k ∧ Holds held base t t' k) (Interrupted base t) := by
  induction ids generalizing p skip t₁ with
  | nil =>
      have hlen := List.drop_eq_nil_iff.1 hids.symm
      rw [List.length_take] at hlen
      exact ⟨p + skip, by omega, h⟩
  | cons x ids ih =>
      have hrest : ids = (t.path.take d).drop (p + 1) := by
        rw [← List.tail_drop, ← hids, List.tail_cons]
      cases skip with
      | succ skip =>
          rw [← Nat.add_assoc, Nat.add_right_comm] at h hon
          unfold replay
          exact ih (p + 1) skip hrest h hon
      | zero =>
          have hx : t.path[p]? = some x := by
            have hhead : (t.path.take d)[p]? = some x := by
              rw [← List.head?_drop, ← hids]
              rfl
            rw [List.getElem?_take] at hhead
            split at hhead
            · exact hhead
            · cases hhead
          obtain ⟨n, hn, hdepth, -⟩ := hr.walk.step p x hx
          have hnext := hon.mono (Nat.le_succ p)
          unfold replay
          rw [ends_bind, ends_read, h.node_ok hn]
          simp only
          cases hrole : n.role with
          | fork s =>
              simp only
              refine Ends.bind (R := fun _ t₂ => Holds held base t t₂ p) { h with } fun _ t₂ h₂ => ?_
              exact (h₂.replay hr hl hx hn hrole).bind fun _ _ h' => ih (p + 1) 0 hrest h' hnext
          | subroot s =>
              simp only
              obtain ⟨f, m, hf, hm, hle⟩ := hr.nearest_deepest ha hr.subroot rfl hx hn (by rw [hrole]; rfl)
              obtain rfl : base = .empty := hon.resolve_right fun hno => Nat.not_lt.2 hle (hno f m hf hm)
              refine (rebuild_holds hr hl h.toBuilds).bind ?_
              rintro next t₂ ⟨h₂, hnext⟩
              have := hnext f m hf hm
              rw [if_neg (by omega)]
              refine ih (p + 1) _ hrest ?_ (.inl rfl)
              rwa [show p + 1 + (next - (n.depth + 1)) = next by omega]
          | child _ | sibling _ | leaf | active | deadend | junction _ =>
              exact ih (p + 1) 0 hrest (h.skip hr hx hn (by rw [hrole]; rfl)) hnext

theorem Builds.remembers (hb : Builds base t t') (h : Remembers held t)
    (hbase : ∀ c, t.correctDepth = some c → ∃ x g, t.path[c]? = some x ∧
      Nearest t.nodes Role.isSnapshot (some x) g ∧ base = heldAt held g) : Remembers held t' where
  layered := hb.nodes ▸ h.layered
  measured := by
    rw [hb.nodes, hb.path, hb.sizes]
    exact h.measured
  marked c hc := by
    obtain ⟨x, g, hx, hg, hheld⟩ := hbase c (hb.correctDepth ▸ hc)
    rw [hb.nodes, hb.path]
    exact ⟨x, g, hx, hg, hheld ▸ hb.begins⟩
  anchored c f hc hf := by
    rw [hb.path]
    exact h.anchored c f (hb.correctDepth ▸ hc) (hb.subroot ▸ hf)

theorem rewind_holds (hr : Resting K start t) (h : Remembers held t) :
    ∃ base, (∀ t', Builds base t t' → Remembers held t') ∧
      Ends rewind t (fun k t' => Holds held base t t' k ∧ Continues base t k) (Interrupted base t) := by
  unfold rewind
  cases hc : t.correctDepth with
  | none =>
      refine ⟨.empty, fun t' hb => hb.remembers h fun c hc' => (nomatch hc.symm.trans hc'), ?_⟩
      rw [ends_bind, ends_get, hc]
      exact (rebuild_holds hr h.layered ⟨.refl t, rfl, Contents.empty_begins _⟩).mono
        (fun _ _ h' => ⟨h'.1, .inl rfl⟩) fun _ _ h' => h'
  | some c =>
      obtain ⟨x, g, hx, hg, hbegins⟩ := h.marked c hc
      refine ⟨heldAt held g, fun t' hb => hb.remembers h fun c' hc' => ?_, ?_⟩
      · cases hc.symm.trans hc'
        exact ⟨x, g, hx, hg, rfl⟩
      · rw [ends_bind, ends_get, hc]
        simp only
        rw [ends_bind, ends_read, pathSize_ok (h.measured c x g hx hg)]
        simp only
        rw [ends_bind, ends_record, ends_bind, ends_onLp]
        have halike : Alike t { t with journal := t.journal.push (.shrunk c (heldAt held g).size) } :=
          { Alike.refl t with }
        refine (Relaxation.shrink_contents hbegins).mono (fun _ lp hlp => ⟨?_, .inr fun f n hf hn => ?_⟩)
          fun e lp hlp => ⟨⟨e, rfl⟩, { halike with correctDepth := rfl, begins := hlp }⟩
        · refine ⟨{ halike with correctDepth := rfl, begins := ?_ }, (List.getElem?_eq_some_iff.1 hx).1, g, ?_, hlp⟩
          · change Contents.Begins _ lp.contents
            rw [hlp]
            exact .refl _
          · rwa [before_succ hx]
        · obtain ⟨i, hplace, hi⟩ := h.anchored c f hc hf
          obtain ⟨m, hm, hdepth, -⟩ := hr.walk.step i f hplace
          cases hn.symm.trans hm
          omega

/-- The relaxation is rebuilt to what was left at the nearest Fork or Subroot, unless the solver fails. -/
theorem rebuildPath_restores (hr : Resting K start t) (h : Remembers held t) (ha : t.active = some id)
    {target : Option Nat} (htarget : t.lpForkDepth = .ok target) :
    Ends (rebuildPath target) t
      (fun _ t' => t'.lp.contents = heldAt held t.lpFork ∧ t'.correctDepth = target)
      fun e t' => (∃ e', e = .solver e') ∧ Remembers held t' := by
  have hnear := hr.nearest_tip ha hr.lpFork rfl
  obtain ⟨base, hbase, hrewind⟩ := rewind_holds hr h
  have hstop : ∀ e t', Interrupted base t e t' → (∃ e', e = .solver e') ∧ Remembers held t' :=
    fun e t' h' => ⟨h'.1, hbase t' h'.2⟩
  unfold lpForkDepth at htarget
  unfold rebuildPath
  refine (hrewind.mono (fun _ _ h' => h') hstop).bind ?_
  rintro k t₁ ⟨h₁, hon⟩
  cases hf : t.lpFork with
  | none =>
      rw [hf] at htarget hnear
      cases htarget
      obtain ⟨g, hg, hc⟩ := h₁.contents
      rw [hg.unique (hr.walk.nearest_between hnear (Nat.le_refl _) h₁.le fun f n hn => nomatch hn)] at hc
      exact ⟨hc, rfl⟩
  | some f =>
      rw [hf] at htarget hnear
      obtain ⟨n, hn, -, hplace, -⟩ := hr.walk.nearest_onPath hnear
      have hlt := (List.getElem?_eq_some_iff.1 hplace).1
      simp only [node_eq_ok.2 hn] at htarget
      cases htarget
      simp only
      rw [ends_bind, ends_get, h₁.path]
      refine ((replay_holds hr h.layered ha hlt _ 0 k rfl ((Nat.zero_add k).symm ▸ h₁)
        ((Nat.zero_add k).symm ▸ hon)).mono (fun _ _ h' => h') hstop).bind ?_
      rintro _ t₂ ⟨k', hk', h₂⟩
      obtain ⟨g, hg, hc⟩ := h₂.contents
      rw [hg.unique (hr.walk.nearest_between hnear (Nat.le_refl _) h₂.le fun f m hm ho => ?_)] at hc
      · exact ⟨hc, rfl⟩
      · cases hm
        cases hn.symm.trans ho
        omega

end BranchBound.Tree
