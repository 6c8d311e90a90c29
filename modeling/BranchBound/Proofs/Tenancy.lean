import BranchBound.Proofs.Arena
import Mathlib.Data.List.Induction

namespace BranchBound

def word (n : Nat) : Nat := n % UInt32.size

def Handle.inWords (h : Handle) : Handle := ⟨word h.index, word h.generation⟩

namespace Arena

variable {α : Type} {a b : Arena α} {h k : Handle} {x y : α} {i : Nat}

inductive Request (α : Type)
  | insert (x : α)
  | set (h : Handle) (x : α)
  | erase (h : Handle)
  | clear

inductive Event (α : Type)
  | entered (h : Handle) (x : α)
  | rewritten (h : Handle) (x : α)
  | left (h : Handle)
  | cleared

namespace Request

def perform (a : Arena α) : Request α → Arena α
  | insert x => (a.insert x).2
  | set h x => a.set h x
  | erase h => (a.erase h).elim a Prod.snd
  | clear => a.clear

def event (a : Arena α) : Request α → Event α
  | insert x => .entered (a.insert x).1 x
  | set h x => .rewritten h x
  | erase h => .left h
  | clear => .cleared

end Request

section Past

def issued (past : List (Event α)) : List Handle :=
  past.filterMap fun
    | .entered h _ => some h
    | _ => none

def tenant (h : Handle) : List (Event α) → Option α
  | [] => none
  | .entered k x :: past => if k = h then some x else tenant h past
  | .rewritten k x :: past => if k = h then (tenant h past).map fun _ => x else tenant h past
  | .left k :: past => if k = h then none else tenant h past
  | .cleared :: _ => none

def writes (h : Handle) (past : List (Event α)) : List α :=
  past.filterMap fun
    | .rewritten k x => if k = h then some x else none
    | _ => none

/-- The handle was given out and neither removed nor cleared since. Its value is the one it was given
out for, or the last one written since. -/
def Lodges (past : List (Event α)) (h : Handle) (x : α) : Prop :=
  ∃ y later earlier, past = later ++ .entered h y :: earlier ∧
    (∀ e ∈ later, e ≠ .left h ∧ e ≠ .cleared) ∧ x = (writes h later).headD y

def occupied (i : Nat) (past : List (Event α)) : Bool :=
  (issued past).any fun h => h.index = i && (tenant h past).isSome

def freed (i : Nat) : List (Event α) → Nat
  | [] => 0
  | e :: past => freed i past + (occupied i past && !occupied i (e :: past)).toNat

variable {e : Event α} {past later earlier : List (Event α)}

theorem lodges_cons : Lodges (e :: past) h x ↔
    e = .entered h x ∨ (e ≠ .left h ∧ e ≠ .cleared) ∧ ∃ y, Lodges past h y ∧ x = (writes h [e]).headD y := by
  have hwrites (later : List (Event α)) (y : α) :
      (writes h (e :: later)).headD y = (writes h [e]).headD ((writes h later).headD y) := by
    rw [← List.singleton_append, writes, List.filterMap_append]
    change (writes h [e] ++ writes h later).headD y = _
    cases writes h [e] <;> rfl
  constructor
  · rintro ⟨y, later, earlier, hpast, hstays, hx⟩
    cases later with
    | nil =>
        obtain ⟨rfl, rfl⟩ := List.cons.inj hpast
        exact .inl (by rw [hx]; rfl)
    | cons e' later =>
        obtain ⟨rfl, rfl⟩ := List.cons.inj hpast
        refine .inr ⟨hstays _ List.mem_cons_self, _, ⟨y, later, earlier, rfl, ?_, rfl⟩, hx.trans (hwrites ..)⟩
        exact fun e' he' => hstays e' (List.mem_cons_of_mem _ he')
  · rintro (rfl | ⟨hstay, z, ⟨y, later, earlier, rfl, hstays, rfl⟩, hx⟩)
    · exact ⟨x, [], past, rfl, by simp, rfl⟩
    · refine ⟨y, e :: later, earlier, rfl, ?_, hx.trans (hwrites ..).symm⟩
      exact List.forall_mem_cons.2 ⟨hstay, hstays⟩

theorem Lodges.issued (hl : Lodges past h x) : h ∈ issued past := by
  obtain ⟨y, later, earlier, rfl, -, -⟩ := hl
  simp [Arena.issued]

theorem tenant_cons : tenant h (e :: past) = some x ↔ e = .entered h x ∨
    (∀ z, e ≠ .entered h z) ∧ (e ≠ .left h ∧ e ≠ .cleared) ∧
      ∃ y, tenant h past = some y ∧ x = (writes h [e]).headD y := by
  cases e with
  | entered k z => by_cases hk : k = h <;> simp [tenant, writes, hk]
  | rewritten k z =>
      by_cases hk : k = h
      · cases ht : tenant h past <;> simp [tenant, writes, hk, ht, eq_comm]
      · simp [tenant, writes, hk]
  | left k => by_cases hk : k = h <;> simp [tenant, writes, hk]
  | cleared => simp [tenant]

/-- Of handles that are given out once, the recursion over the past finds the tenants. -/
theorem tenant_eq_some_iff (hn : (issued past).Nodup) : tenant h past = some x ↔ Lodges past h x := by
  induction past generalizing x with
  | nil => simp [tenant, Lodges]
  | cons e past ih =>
      have hn' : (issued past).Nodup := hn.sublist ((List.sublist_cons_self e past).filterMap _)
      rw [tenant_cons, lodges_cons]
      simp only [ih hn']
      refine or_congr_right ⟨fun ht => ht.2, fun hl => ⟨?_, hl⟩⟩
      -- A handle that lodges already cannot be given out by the last event as well.
      rintro z rfl
      obtain ⟨-, y, hl, -⟩ := hl
      exact (List.nodup_cons.1 (show (h :: issued past).Nodup from hn)).1 hl.issued

theorem issued_of_tenant (ht : tenant h past = some x) : h ∈ issued past := by
  induction past generalizing x with
  | nil => cases ht
  | cons e past ih =>
      obtain rfl | ⟨-, -, y, hy, -⟩ := tenant_cons.1 ht
      · exact List.mem_cons_self
      · exact ((List.sublist_cons_self e past).filterMap _).subset (ih hy)

theorem tenant_append_none (hn : (issued (later ++ earlier)).Nodup) (hi : h ∈ issued earlier)
    (hnone : tenant h earlier = none) : tenant h (later ++ earlier) = none := by
  induction later with
  | nil => exact hnone
  | cons e later ih =>
      have hn' : (issued (later ++ earlier)).Nodup := hn.sublist ((List.sublist_cons_self e _).filterMap _)
      rw [Option.eq_none_iff_forall_ne_some]
      intro x hx
      obtain rfl | ⟨-, -, y, hy, -⟩ := tenant_cons.1 hx
      · refine (List.nodup_cons.1 (show (h :: issued (later ++ earlier)).Nodup from hn)).1 ?_
        exact ((List.sublist_append_right later earlier).filterMap _).subset hi
      · cases (ih hn').symm.trans hy

theorem freed_le_length (i : Nat) (past : List (Event α)) : freed i past ≤ past.length := by
  induction past with
  | nil => exact Nat.le_refl 0
  | cons e past ih => exact Nat.add_le_add ih (Bool.toNat_le _)

end Past

section Slots

def generation (a : Arena α) (i : Nat) : Nat := (a.slots[i]?.map Slot.generation).getD 0

def tenanted (a : Arena α) (i : Nat) : Bool := (a.slots[i]?.bind Slot.tenant).isSome

theorem tenanted_iff : a.tenanted i = true ↔ ∃ h, h.index = i ∧ (a.get? h).isSome := by
  unfold tenanted
  constructor
  · intro ht
    obtain ⟨x, hx⟩ := Option.isSome_iff_exists.1 ht
    obtain ⟨⟨g, t⟩, hs, rfl⟩ := Option.bind_eq_some_iff.1 hx
    exact ⟨⟨i, g⟩, rfl, by simp [get?, hs]⟩
  · rintro ⟨h, rfl, hh⟩
    obtain ⟨x, hx⟩ := Option.isSome_iff_exists.1 hh
    rw [get?_eq_some_iff.1 hx]
    rfl

theorem generation_of_get? (hx : a.get? h = some x) : a.generation h.index = h.generation := by
  rw [generation, get?_eq_some_iff.1 hx]
  rfl

theorem tenanted_of_get? (hx : a.get? h = some x) : a.tenanted h.index = true :=
  tenanted_iff.2 ⟨h, rfl, by rw [hx]; rfl⟩

theorem WellFormed.not_tenanted (ha : a.WellFormed) (hi : i ∈ a.vacant) : a.tenanted i = false := by
  obtain ⟨g, hg⟩ := (ha.mem_vacant i).1 hi
  simp [tenanted, hg]

theorem WellFormed.vacant_lt (ha : a.WellFormed) (hi : i ∈ a.vacant) : i < a.slots.size := by
  obtain ⟨g, hg⟩ := (ha.mem_vacant i).1 hi
  exact (Array.getElem?_eq_some_iff.1 hg).1

theorem slots_insert (ha : a.WellFormed) (hi : a.insert x = (h, b)) :
    h.generation = a.generation h.index ∧ a.tenanted h.index = false ∧ h.index < b.slots.size ∧
      b.slots.size = a.slots.size + a.vacant.isEmpty.toNat ∧
      ∀ j, b.slots[j]? = if j = h.index then some ⟨h.generation, some x⟩ else a.slots[j]? := by
  unfold insert at hi
  cases hv : a.vacant with
  | nil =>
      rw [hv] at hi
      cases hi
      refine ⟨by simp [generation], by simp [tenanted], by simp, by simp, fun j => ?_⟩
      rw [Array.getElem?_push]
  | cons i rest =>
      have hmem : i ∈ a.vacant := hv ▸ List.mem_cons_self
      rw [hv] at hi
      cases hi
      refine ⟨rfl, ha.not_tenanted hmem, by simpa using ha.vacant_lt hmem, by simp, fun j => ?_⟩
      rw [Array.getElem?_setIfInBounds]
      by_cases hj : i = j
      · simp [← hj, ha.vacant_lt hmem]
      · simp [hj, Ne.symm hj]

/-- All that a request can do to a slot: nothing, a tenant moves in, or the tenant leaves. -/
theorem perform_slot (ha : a.WellFormed) (r : Request α) (i : Nat) :
    ((r.perform a).generation i = a.generation i ∧ (r.perform a).tenanted i = a.tenanted i ∧
      ∀ x, r = .insert x → (a.insert x).1.index ≠ i) ∨
    ((∃ x, r = .insert x ∧ (a.insert x).1 = ⟨i, a.generation i⟩) ∧ a.tenanted i = false ∧
      (r.perform a).generation i = a.generation i ∧ (r.perform a).tenanted i = true) ∨
    (a.tenanted i = true ∧ (r.perform a).tenanted i = false ∧
      (r.perform a).generation i = a.generation i + 1 ∧ ∀ x, r ≠ .insert x) := by
  cases r with
  | insert x =>
      cases hi : a.insert x with
      | mk h b =>
          obtain ⟨hg, hfree, -, -, hslots⟩ := slots_insert ha hi
          have hb : (Request.insert x).perform a = b := congrArg Prod.snd hi
          rw [hb, generation, generation, tenanted, tenanted, hslots i]
          by_cases hidx : i = h.index
          · subst hidx
            refine .inr (.inl ⟨⟨x, rfl, ?_⟩, hfree, ?_, ?_⟩)
            · rw [hi]
              exact congrArg (Handle.mk h.index) hg
            · rw [if_pos rfl]
              exact hg
            · simp
          · refine .inl ⟨by simp [hidx], by simp [hidx], ?_⟩
            rintro y ⟨⟩ he
            rw [hi] at he
            exact hidx he.symm
  | set h x =>
      refine .inl ⟨?_, ?_, by simp⟩
      · simp [Request.perform, generation, slots_set, Function.comp_def]
      · cases hs : a.slots[i]? <;> simp [Request.perform, tenanted, slots_set, hs]
  | erase h =>
      cases he : a.erase h with
      | none => exact .inl ⟨by simp [Request.perform, he], by simp [Request.perform, he], by simp⟩
      | some p =>
          obtain ⟨x, b⟩ := p
          obtain ⟨hx, rfl⟩ := erase_eq_some he
          obtain ⟨hn, -⟩ := Array.getElem?_eq_some_iff.1 (get?_eq_some_iff.1 hx)
          by_cases hidx : h.index = i
          · subst hidx
            refine .inr (.inr ⟨tenanted_of_get? hx, ?_, ?_, by simp⟩)
            · simp [Request.perform, he, tenanted, hn]
            · rw [generation_of_get? hx]
              simp [Request.perform, he, generation, hn]
          · refine .inl ⟨?_, ?_, by simp⟩
            · simp [Request.perform, he, generation, hidx]
            · simp [Request.perform, he, tenanted, hidx]
  | clear =>
      cases hs : a.slots[i]? with
      | none => exact .inl ⟨by simp [Request.perform, clear, generation, hs],
          by simp [Request.perform, clear, tenanted, hs], by simp⟩
      | some s =>
          obtain ⟨g, _ | x⟩ := s
          · exact .inl ⟨by simp [Request.perform, clear, generation, hs],
              by simp [Request.perform, clear, tenanted, hs], by simp⟩
          · exact .inr (.inr ⟨by simp [tenanted, hs], by simp [Request.perform, clear, tenanted, hs],
              by simp [Request.perform, clear, generation, hs], by simp⟩)

end Slots

/-- The arena is as the past tells. A handle that was given out names an earlier tenant of its slot or
the one that is there. -/
structure Chronicled (a : Arena α) (past : List (Event α)) : Prop where
  wellFormed : a.WellFormed
  get?_eq : ∀ h, a.get? h = tenant h past
  issued_nodup : (issued past).Nodup
  issued_before : ∀ h ∈ issued past, h.generation < a.generation h.index + (a.tenanted h.index).toNat
  generation_eq : ∀ i, a.generation i = freed i past

theorem chronicled_empty : (empty : Arena α).Chronicled [] where
  wellFormed := wellFormed_empty
  get?_eq _ := by simp [get?, empty, tenant]
  issued_nodup := List.nodup_nil
  issued_before := by simp [issued]
  generation_eq _ := by simp [generation, empty, freed]

theorem occupied_eq {past : List (Event α)} (hget : ∀ h, a.get? h = tenant h past) (i : Nat) :
    occupied i past = a.tenanted i := by
  rw [Bool.eq_iff_iff, tenanted_iff, occupied, List.any_eq_true]
  constructor
  · rintro ⟨h, -, hh⟩
    rw [Bool.and_eq_true, decide_eq_true_eq] at hh
    exact ⟨h, hh.1, by rw [hget]; exact hh.2⟩
  · rintro ⟨h, hi, hh⟩
    rw [hget] at hh
    obtain ⟨x, hx⟩ := Option.isSome_iff_exists.1 hh
    exact ⟨h, issued_of_tenant hx, by simp [hi, hh]⟩

namespace Chronicled

variable {past : List (Event α)}

theorem insert_fresh (ha : a.Chronicled past) (hi : a.insert x = (h, b)) : h ∉ issued past := by
  intro hmem
  -- What was given out for a vacant slot is of an earlier generation than the one it has.
  obtain ⟨hg, hfree, -⟩ := slots_insert ha.wellFormed hi
  have hbefore := ha.issued_before h hmem
  simp [hfree, hg] at hbefore

theorem perform_wellFormed (ha : a.Chronicled past) (r : Request α) : (r.perform a).WellFormed := by
  cases r with
  | insert x => exact ha.wellFormed.insert rfl
  | set h x => exact ha.wellFormed.set h x
  | erase h =>
      cases he : a.erase h with
      | none => simpa [Request.perform, he] using ha.wellFormed
      | some p => simpa [Request.perform, he] using ha.wellFormed.erase he
  | clear => exact ha.wellFormed.clear

theorem perform_get? (ha : a.Chronicled past) (r : Request α) (h : Handle) :
    (r.perform a).get? h = tenant h (r.event a :: past) := by
  cases r with
  | insert x =>
      refine ((get?_insert (h := (a.insert x).1) (b := (a.insert x).2) ha.wellFormed rfl).2 h).trans ?_
      simp only [Request.event, tenant, ha.get?_eq, eq_comm (a := h)]
  | set k x =>
      simp only [Request.perform, Request.event, tenant, get?_set, ha.get?_eq, eq_comm (a := h)]
  | erase k =>
      cases he : a.erase k with
      | none =>
          have hk : a.get? k = none := by simpa [erase] using he
          by_cases hkh : k = h
          · simpa [Request.perform, Request.event, tenant, he, ← hkh] using hk
          · simp [Request.perform, Request.event, tenant, he, hkh, ha.get?_eq]
      | some p =>
          simp only [Request.perform, he, Option.elim_some, get?_of_erase he, Request.event, tenant, ha.get?_eq,
            eq_comm (a := h)]
  | clear => exact a.get?_clear h

theorem issued_event (ha : a.Chronicled past) (r : Request α) : (issued (r.event a :: past)).Nodup := by
  cases r with
  | insert x => exact List.nodup_cons.2 ⟨ha.insert_fresh rfl, ha.issued_nodup⟩
  | set | erase | clear => exact ha.issued_nodup

theorem perform (ha : a.Chronicled past) (r : Request α) : (r.perform a).Chronicled (r.event a :: past) where
  wellFormed := ha.perform_wellFormed r
  get?_eq := ha.perform_get? r
  issued_nodup := ha.issued_event r
  issued_before h hmem := by
    have hcase : h ∈ issued past ∨ ∃ x, r = .insert x ∧ (a.insert x).1 = h := by
      cases r with
      | insert x =>
          obtain rfl | hmem := List.mem_cons.1 hmem
          · exact .inr ⟨x, rfl, rfl⟩
          · exact .inl hmem
      | set | erase | clear => exact .inl hmem
    -- The sum of generation and tenant grows when a tenant moves in, and is the same after it has left.
    obtain ⟨hg, ht, hother⟩ | ⟨⟨x, rfl, hnew⟩, hfree, hg, ht⟩ | ⟨hfull, ht, hg, hother⟩ :=
      perform_slot ha.wellFormed r h.index
    · rw [hg, ht]
      obtain hmem | ⟨x, rfl, rfl⟩ := hcase
      · exact ha.issued_before h hmem
      · exact absurd rfl (hother x rfl)
    · rw [hg, ht]
      obtain hmem | ⟨y, hy, rfl⟩ := hcase
      · have hbefore := ha.issued_before h hmem
        rw [hfree] at hbefore
        exact Nat.lt_of_lt_of_le hbefore (Nat.le_add_right _ _)
      · obtain rfl : x = y := by injection hy
        have hgen := congrArg Handle.generation hnew
        change _ = a.generation _ at hgen
        rw [hgen]
        exact Nat.lt_succ_self _
    · rw [hg, ht]
      obtain hmem | ⟨x, rfl, -⟩ := hcase
      · simpa [hfull] using ha.issued_before h hmem
      · exact absurd rfl (hother x)
  generation_eq i := by
    rw [freed, occupied_eq ha.get?_eq, occupied_eq (ha.perform_get? r), ← ha.generation_eq]
    obtain ⟨hg, ht, -⟩ | ⟨-, hfree, hg, -⟩ | ⟨hfull, ht, hg, -⟩ := perform_slot ha.wellFormed r i
    · simp [hg, ht]
    · simp [hg, hfree]
    · simp [hg, hfull, ht]

end Chronicled

/-- An arena and what happened in it, the latest first. -/
structure Annals (α : Type) where
  arena : Arena α
  past : List (Event α)

namespace Annals

def record (s : Annals α) (r : Request α) : Annals α := ⟨r.perform s.arena, r.event s.arena :: s.past⟩

def of (rs : List (Request α)) : Annals α := rs.foldl record ⟨empty, []⟩

theorem of_concat (rs : List (Request α)) (r : Request α) : of (rs ++ [r]) = (of rs).record r := by
  simp [of]

theorem of_chronicled (rs : List (Request α)) : (of rs).arena.Chronicled (of rs).past := by
  induction rs using List.reverseRecOn with
  | nil => exact chronicled_empty
  | append_singleton rs r ih =>
      rw [of_concat]
      exact ih.perform r

end Annals

section Words

def inWords (a : Arena α) : Arena α :=
  ⟨a.slots.map fun s => ⟨word s.generation, s.tenant⟩, a.vacant.map word, a.size⟩

def Event.inWords : Event α → Event α
  | .entered h x => .entered h.inWords x
  | e => e

/-- As `record`, with numbers that wrap around. -/
def Annals.recordInWords (s : Annals α) (r : Request α) : Annals α :=
  ⟨(r.perform s.arena).inWords, (r.event s.arena).inWords :: s.past⟩

def Annals.inWordsOf (rs : List (Request α)) : Annals α := rs.foldl Annals.recordInWords ⟨empty, []⟩

/-- Fewer than 2^32 slots, and none of them lost its tenant 2^32 times. -/
structure Annals.Fits (s : Annals α) : Prop where
  slots : s.arena.slots.size < UInt32.size
  freed : ∀ i, freed i s.past < UInt32.size

variable {past : List (Event α)} {n : Nat}

theorem word_of_lt (hn : n < UInt32.size) : word n = n := Nat.mod_eq_of_lt hn

theorem Chronicled.inWords_eq (ha : a.Chronicled past) (hs : a.slots.size < UInt32.size)
    (hf : ∀ i, freed i past < UInt32.size) : a.inWords = a := by
  have hslots : a.inWords.slots = a.slots := by
    apply Array.ext_getElem?
    intro i
    simp only [inWords, Array.getElem?_map]
    cases hi : a.slots[i]? with
    | none => rfl
    | some s =>
        have hgen : s.generation = freed i past := by rw [← ha.generation_eq, generation, hi]; rfl
        simp [word_of_lt (hgen ▸ hf i)]
  have hvacant : a.inWords.vacant = a.vacant := by
    refine (List.map_congr_left (g := id) fun i hi => ?_).trans (List.map_id _)
    exact word_of_lt (Nat.lt_trans (ha.wellFormed.vacant_lt hi) hs)
  calc a.inWords = ⟨a.inWords.slots, a.inWords.vacant, a.size⟩ := rfl
    _ = a := by rw [hslots, hvacant]

theorem Chronicled.insert_inWords (ha : a.Chronicled past) (hs : a.slots.size < UInt32.size)
    (hf : ∀ i, freed i past < UInt32.size) (x : α) : (a.insert x).1.inWords = (a.insert x).1 := by
  cases hi : a.insert x with
  | mk h b =>
      obtain ⟨hg, -, hlt, hsize, -⟩ := slots_insert ha.wellFormed hi
      have hempty := Bool.toNat_le a.vacant.isEmpty
      have hgen : h.generation < UInt32.size := by
        rw [hg, ha.generation_eq]
        exact hf _
      simp [Handle.inWords, word_of_lt hgen, word_of_lt (n := h.index) (by omega)]

theorem size_perform (a : Arena α) (r : Request α) : a.slots.size ≤ (r.perform a).slots.size := by
  cases r with
  | insert x => cases hv : a.vacant <;> simp [Request.perform, insert, hv]
  | set h x => by_cases hc : a.contains h <;> simp [Request.perform, set, hc]
  | erase h =>
      cases he : a.erase h with
      | none => simp [Request.perform, he]
      | some p =>
          obtain ⟨x, b⟩ := p
          obtain ⟨-, rfl⟩ := erase_eq_some he
          simp [Request.perform, he]
  | clear => simp [Request.perform, clear]

namespace Annals

theorem Fits.before {s : Annals α} {r : Request α} (hfits : (s.recordInWords r).Fits) : s.Fits where
  slots := by
    refine Nat.lt_of_le_of_lt (size_perform s.arena r) ?_
    simpa [recordInWords, inWords] using hfits.slots
  freed i := Nat.lt_of_le_of_lt (Nat.le_add_right _ _) (hfits.freed i)

theorem recordInWords_eq {s : Annals α} {r : Request α} (hs : s.arena.Chronicled s.past)
    (hfits : (s.recordInWords r).Fits) : s.recordInWords r = s.record r := by
  have hbefore := hfits.before
  have hevent : (r.event s.arena).inWords = r.event s.arena := by
    cases r with
    | insert x => exact congrArg (Event.entered · x) (hs.insert_inWords hbefore.slots hbefore.freed x)
    | set | erase | clear => rfl
  have hslots : (r.perform s.arena).slots.size < UInt32.size := by
    simpa [recordInWords, inWords] using hfits.slots
  have hfreed : ∀ i, Arena.freed i (r.event s.arena :: s.past) < UInt32.size := fun i => hevent ▸ hfits.freed i
  rw [recordInWords, hevent, (hs.perform r).inWords_eq hslots hfreed, record]

theorem inWordsOf_eq {rs : List (Request α)} (hfits : (inWordsOf rs).Fits) : inWordsOf rs = of rs := by
  induction rs using List.reverseRecOn with
  | nil => rfl
  | append_singleton rs r ih =>
      have hconcat : inWordsOf (rs ++ [r]) = (inWordsOf rs).recordInWords r := by simp [inWordsOf]
      rw [hconcat] at hfits ⊢
      have hrs := ih hfits.before
      rw [hrs] at hfits ⊢
      rw [recordInWords_eq (of_chronicled rs) hfits, of_concat]

end Annals

end Words

theorem WellFormed.slots_perm (ha : a.WellFormed) :
    (a.toList.map (·.1.index) ++ a.vacant).Perm (List.range a.slots.size) := by
  have hnodup : (a.toList.map (·.1.index) ++ a.vacant).Nodup := by
    refine List.nodup_append'.2 ⟨a.nodup_index, ha.vacant_nodup, ?_⟩
    intro i hi hv
    obtain ⟨e, he, rfl⟩ := List.mem_map.1 hi
    have hfree := ha.not_tenanted hv
    rw [tenanted_of_get? (mem_toList.1 he)] at hfree
    cases hfree
  rw [List.perm_ext_iff_of_nodup hnodup List.nodup_range]
  intro i
  rw [List.mem_append, List.mem_map, List.mem_range, ha.mem_vacant]
  constructor
  · rintro (⟨e, he, rfl⟩ | ⟨g, hg⟩)
    · exact (Array.getElem?_eq_some_iff.1 (get?_eq_some_iff.1 (mem_toList.1 he))).1
    · exact (Array.getElem?_eq_some_iff.1 hg).1
  · intro hi
    rcases hs : a.slots[i] with ⟨g, _ | x⟩
    · exact .inr ⟨g, by rw [Array.getElem?_eq_getElem hi, hs]⟩
    · refine .inl ⟨(⟨i, g⟩, x), mem_toList.2 (get?_eq_some_iff.2 ?_), rfl⟩
      rw [Array.getElem?_eq_getElem hi, hs]

/-- How an arena answers in which happened what `past` tells: as a map whose handles are given out
once. -/
structure Houses (a : Arena α) (past : List (Event α)) : Prop where
  issued_nodup : (issued past).Nodup
  insert_fresh : ∀ x, (a.insert x).1.inWords ∉ issued past
  get?_iff : ∀ h x, a.get? h = some x ↔ Lodges past h x
  contains_iff : ∀ h, a.contains h = true ↔ ∃ x, Lodges past h x
  set_get? : ∀ h x k, (a.set h x).get? k = if k = h then (a.get? k).map fun _ => x else a.get? k
  erase_value : ∀ h x, (a.erase h).map Prod.fst = some x ↔ Lodges past h x
  erase_rest : ∀ h x b, a.erase h = some (x, b) → ∀ k, b.get? k = if k = h then none else a.get? k
  erase_stale : ∀ later earlier, past = later ++ earlier → ∀ h ∈ issued earlier,
    (∀ x, ¬ Lodges earlier h x) → a.erase h = none
  size_eq : a.size = a.toList.length
  toList_nodup : (a.toList.map Prod.fst).Nodup
  mem_toList : ∀ h x, (h, x) ∈ a.toList ↔ Lodges past h x
  vacant_nodup : a.vacant.Nodup
  mem_vacant : ∀ i, i ∈ a.vacant ↔ i < a.slots.size ∧ ∀ h x, Lodges past h x → h.index ≠ i
  generation_eq : ∀ i s, a.slots[i]? = some s → s.generation = freed i past
  slots_grow : ∀ x, (a.insert x).2.slots.size = a.slots.size + a.vacant.isEmpty.toNat
  vacant_length : a.size + a.vacant.length = a.slots.size

theorem Chronicled.houses {past : List (Event α)} (ha : a.Chronicled past) (hs : a.slots.size < UInt32.size)
    (hf : ∀ i, freed i past < UInt32.size) : a.Houses past := by
  have hget (h : Handle) (x : α) : a.get? h = some x ↔ Lodges past h x := by
    rw [ha.get?_eq]
    exact tenant_eq_some_iff ha.issued_nodup
  have herase (h : Handle) : (a.erase h).map Prod.fst = a.get? h := by
    rw [erase, Option.map_map]
    exact Option.map_id'
  constructor
  case issued_nodup => exact ha.issued_nodup
  case insert_fresh =>
    intro x
    rw [ha.insert_inWords hs hf]
    exact ha.insert_fresh rfl
  case get?_iff => exact hget
  case contains_iff =>
    intro h
    simp only [contains, Option.isSome_iff_exists, hget]
  case set_get? => exact fun h x k => a.get?_set h k x
  case erase_value =>
    intro h x
    rw [herase, hget]
  case erase_rest => exact fun h x b he => get?_of_erase he
  case erase_stale =>
    rintro later earlier rfl h hi hstale
    have hnodup : (issued earlier).Nodup :=
      ha.issued_nodup.sublist ((List.sublist_append_right later earlier).filterMap _)
    have hnone : tenant h earlier = none :=
      Option.eq_none_iff_forall_ne_some.2 fun x hx => hstale x ((tenant_eq_some_iff hnodup).1 hx)
    rw [erase, ha.get?_eq, tenant_append_none ha.issued_nodup hi hnone]
    rfl
  case size_eq => exact ha.wellFormed.size_eq
  case toList_nodup => exact a.nodup_handles
  case mem_toList =>
    intro h x
    rw [Arena.mem_toList, hget]
  case vacant_nodup => exact ha.wellFormed.vacant_nodup
  case mem_vacant =>
    intro i
    constructor
    · refine fun hi => ⟨ha.wellFormed.vacant_lt hi, fun h x hl hidx => ?_⟩
      have hfree := ha.wellFormed.not_tenanted hi
      rw [← hidx, tenanted_of_get? ((hget h x).2 hl)] at hfree
      cases hfree
    · rintro ⟨hi, hnone⟩
      obtain hmem | hmem := List.mem_append.1 (ha.wellFormed.slots_perm.mem_iff.2 (List.mem_range.2 hi))
      · obtain ⟨e, he, hidx⟩ := List.mem_map.1 hmem
        exact absurd hidx (hnone e.1 e.2 ((hget e.1 e.2).1 (Arena.mem_toList.1 he)))
      · exact hmem
  case generation_eq =>
    intro i s hi
    rw [← ha.generation_eq, generation, hi]
    rfl
  case slots_grow =>
    intro x
    exact (slots_insert (h := (a.insert x).1) (b := (a.insert x).2) ha.wellFormed rfl).2.2.2.1
  case vacant_length =>
    have hlen := ha.wellFormed.slots_perm.length_eq
    rw [List.length_append, List.length_map, List.length_range] at hlen
    rw [ha.wellFormed.size_eq, hlen]

/-- Numbers of 32 bits do not wrap around in an arena of fewer than 2^32 slots that each lost fewer than
2^32 tenants, so it is a map that never gives a handle out again. -/
theorem handles_never_reused (rs : List (Request α)) (hfits : (Annals.inWordsOf rs).Fits) :
    Annals.inWordsOf rs = Annals.of rs ∧
      (Annals.inWordsOf rs).arena.Houses (Annals.inWordsOf rs).past := by
  have heq := Annals.inWordsOf_eq hfits
  refine ⟨heq, ?_⟩
  rw [heq] at hfits ⊢
  exact (Annals.of_chronicled rs).houses hfits.slots hfits.freed

/-- The first slot gets a second tenant under a new handle, and after a bulk free the second slot too. -/
theorem handles_never_reused_after_clear :
    let rs : List (Request Nat) :=
      [.insert 10, .insert 20, .erase ⟨0, 0⟩, .insert 30, .set ⟨0, 1⟩ 40, .clear, .insert 50]
    let s := Annals.inWordsOf rs
    s.Fits ∧ s = Annals.of rs ∧ s.arena.Houses s.past ∧
      issued s.past = [⟨1, 1⟩, ⟨0, 1⟩, ⟨1, 0⟩, ⟨0, 0⟩] ∧ s.arena.toList = [(⟨1, 1⟩, 50)] ∧ s.arena.vacant = [0] := by
  intro rs s
  have hfits : s.Fits := ⟨by decide +kernel, fun i => Nat.lt_of_le_of_lt (freed_le_length i s.past) (by decide +kernel)⟩
  obtain ⟨heq, hhouses⟩ := handles_never_reused rs hfits
  exact ⟨hfits, heq, hhouses, by decide +kernel, by decide +kernel, by decide +kernel⟩

end Arena

end BranchBound
