import BranchBound.Proofs.Calm
import BranchBound.Proofs.Staging

namespace BranchBound.Tree

variable {σ : Type} [Solver σ] {cmp : NodeOrder} {x : Option Handle} {q : Dealing} {t u : Tree σ cmp} {h : Handle}

/-- A live leaf that is not in the frontier. -/
def Strays (t : Tree σ cmp) (h : Handle) : Prop :=
  (∃ n, t.nodes.get? h = some n ∧ n.role.name = .leaf) ∧ h ∉ t.frontier.ids

/-- No node came, and of those still live the same ones stray, `x` aside. -/
structure Tends (x : Option Handle) (t u : Tree σ cmp) : Prop where
  live : ∀ h m, u.nodes.get? h = some m → ∃ n, t.nodes.get? h = some n
  strays : ∀ h m, u.nodes.get? h = some m → x ≠ some h → (Strays u h ↔ Strays t h)

instance : IsPreorder (Tree σ cmp) (Tends x) where
  refl _ := ⟨fun _ m hm => ⟨m, hm⟩, fun _ _ _ _ => .rfl⟩
  trans t u v h h' := by
    refine ⟨fun k m hm => ?_, fun k m hm hk => ?_⟩
    · obtain ⟨n, hn⟩ := h'.live k m hm
      exact h.live k n hn
    · obtain ⟨n, hn⟩ := h'.live k m hm
      exact (h'.strays k m hm hk).trans (h.strays k n hn hk)

theorem Tends.weaken (h : Tends none t u) : Tends x t u :=
  ⟨h.live, fun k m hm _ => h.strays k m hm (by simp)⟩

theorem Tends.of_names (hn : ∀ h m, u.nodes.get? h = some m → ∃ n, t.nodes.get? h = some n ∧
      (x ≠ some h → (m.role.name = .leaf ↔ n.role.name = .leaf)))
    (hf : ∀ h m, u.nodes.get? h = some m → x ≠ some h → (h ∈ u.frontier.ids ↔ h ∈ t.frontier.ids)) :
    Tends x t u := by
  refine ⟨fun k m hm => (hn k m hm).imp fun _ h => h.1, fun k m hm hk => ?_⟩
  obtain ⟨n, hn', hleaf⟩ := hn k m hm
  unfold Strays
  rw [hf k m hm hk, hm, hn']
  simp [hleaf hk]

theorem Calm.tends (h : Calm x q t u) : Tends x t u := by
  refine .of_names (fun k m hm => ?_) fun _ _ _ _ => by rw [h.frontier]
  obtain ⟨n, hn, hs⟩ := h.nodes k m hm
  exact ⟨n, hn, fun hk => by rw [hs.name hk]⟩

theorem Tends.of_frontier {f : Frontier cmp} (hf : ∀ h m, t.nodes.get? h = some m → x ≠ some h →
    (h ∈ f.ids ↔ h ∈ t.frontier.ids)) : Tends x t { t with frontier := f } :=
  .of_names (fun _ m hm => ⟨m, hm, fun _ => .rfl⟩) hf

theorem Tends.of_flush {which : Staging} {nodes : Arena (Node σ)} {frontier : Frontier cmp}
    {loose : List Handle} {tip anchor : Option Handle} (hp : Places t.nodes loose tip anchor t.staged)
    (hn : Matched Shelved t.nodes nodes) (hsame : ∀ k, k ∉ t.staged which → nodes.get? k = t.nodes.get? k)
    (hids : ∀ k, k ∈ frontier.ids ↔ k ∈ t.frontier.ids ∨ k ∈ t.staged which) :
    Tends x t { t.withStaged [] which with nodes := nodes, frontier := frontier } := by
  refine ⟨fun k m hm => ?_, fun k m hm _ => ?_⟩
  · obtain ⟨n, hn, -⟩ := hn.back k m hm
    exact ⟨n, hn⟩
  · by_cases hk : k ∈ t.staged which
    · obtain ⟨i, hi⟩ := List.mem_iff_getElem?.1 hk
      obtain ⟨-, n, hn, hs, -⟩ := hp.listed which i k hi
      constructor
      · intro hstrays
        exact absurd ((hids k).2 (.inr hk)) hstrays.2
      · rintro ⟨⟨o, ho, hleaf⟩, -⟩
        cases hn.symm.trans ho
        exact absurd hleaf (not_leaf_of_staged hs)
    · unfold Strays
      change (∃ n, nodes.get? k = some n ∧ n.role.name = .leaf) ∧ k ∉ frontier.ids ↔ _
      rw [hsame k hk, hids k]
      simp [hk]

structure Settles (t u : Tree σ cmp) : Prop where
  nodes : Carried (fun n m => m.parent = n.parent ∧ m.role.name = n.role.name) t.nodes u.nodes
  tends : Tends none t u

instance : IsPreorder (Tree σ cmp) Settles where
  refl t := ⟨.refl (fun _ => ⟨rfl, rfl⟩) t.nodes, refl_of (Tends none) t⟩
  trans _ _ _ h h' := ⟨.trans (fun _ _ _ g g' => ⟨g'.1.trans g.1, g'.2.trans g.2⟩) h.nodes h'.nodes,
    trans_of (Tends none) h.tends h'.tends⟩

theorem Settles.of_ids (hn : Carried (fun n m => m.parent = n.parent ∧ m.role.name = n.role.name) t.nodes u.nodes)
    (hf : ∀ k m, u.nodes.get? k = some m → (k ∈ u.frontier.ids ↔ k ∈ t.frontier.ids)) : Settles t u := by
  refine ⟨hn, .of_names (fun k m hm => ?_) fun k m hm _ => hf k m hm⟩
  obtain ⟨n, hn, -, hname⟩ := hn k m hm
  exact ⟨n, hn, fun _ => by rw [hname]⟩

theorem Calm.named (h : Calm none q t u) :
    Carried (fun n m => m.parent = n.parent ∧ m.role.name = n.role.name) t.nodes u.nodes := by
  intro k m hm
  obtain ⟨n, hn, hs⟩ := h.nodes k m hm
  exact ⟨n, hn, hs.parent, hs.name (by simp)⟩

theorem Calm.settles (h : Calm none q t u) : Settles t u := ⟨h.named, h.tends⟩

theorem Sweeps.settles (h : Sweeps t u) : Settles t u := Calm.settles (q := .keeps) h.calm

end BranchBound.Tree
