import BranchBound.Binary64.Order

namespace BranchBound.Binary64

open Float.Model (UnpackedFloat)

variable {x y z : Binary64}

def sign (x : Binary64) : UnpackedFloat.Sign := if x.isNegative then .negative else .positive

/-- The bits without the sign, with that sign. -/
def key (x : Binary64) : Int := if x.isNegative then -x.magnitude else x.magnitude

theorem toNat_unpackExponent (x : Binary64) :
    (@UnpackedFloat.unpackExponent .binary64 x.bits.toBitVec).toNat = x.biasedExponent := by
  simp [UnpackedFloat.unpackExponent, biasedExponent, magnitude, BitVec.extractLsb_toNat, Nat.shiftRight_eq_div_pow]
  omega

theorem toNat_unpackMantissa (x : Binary64) :
    (@UnpackedFloat.unpackMantissa .binary64 x.bits.toBitVec).toNat = x.trailing := by
  simp [UnpackedFloat.unpackMantissa, trailing, magnitude, BitVec.extractLsb_toNat]

theorem unpackMantissa_eq_zero_iff (x : Binary64) :
    @UnpackedFloat.unpackMantissa .binary64 x.bits.toBitVec = 0#52 ↔ x.trailing = 0 := by
  rw [← BitVec.toNat_inj, toNat_unpackMantissa]
  rfl

theorem ofBitVec_unpackSign (x : Binary64) :
    UnpackedFloat.Sign.ofBitVec (@UnpackedFloat.unpackSign .binary64 x.bits.toBitVec) = x.sign := by
  have hlt := x.bits.toNat_lt
  have hnat : (@UnpackedFloat.unpackSign .binary64 x.bits.toBitVec).toNat = x.bits.toNat / 2 ^ 63 := by
    change (x.bits.toBitVec.extractLsb 63 63).toNat = _
    rw [BitVec.extractLsb_toNat, Nat.shiftRight_eq_div_pow, UInt64.toNat_toBitVec]
    omega
  have hneg : x.isNegative = true ↔ 2 ^ 63 ≤ x.bits.toNat := by
    simp [isNegative, UInt64.le_iff_toNat_le, signBit]
  have hzero : @UnpackedFloat.unpackSign .binary64 x.bits.toBitVec = 0#1 ↔ ¬ x.isNegative = true := by
    rw [← BitVec.toNat_inj, hnat, hneg]
    change x.bits.toNat / 2 ^ 63 = 0 ↔ _
    omega
  unfold UnpackedFloat.Sign.ofBitVec sign
  simp only [hzero, ite_not]

theorem value_of_large (h : x.biasedExponent = 0x7ff) :
    x.value = if x.trailing = 0 then .infinity x.sign else .notANumber := by
  have hexp : @UnpackedFloat.unpackExponent .binary64 x.bits.toBitVec = -1#11 :=
    BitVec.eq_of_toNat_eq ((toNat_unpackExponent x).trans h)
  unfold value UnpackedFloat.unpack
  dsimp only
  rw [if_pos hexp, ofBitVec_unpackSign]
  by_cases ht : x.trailing = 0
  · rw [if_pos ((unpackMantissa_eq_zero_iff x).2 ht), if_pos ht]
  · rw [if_neg (mt (unpackMantissa_eq_zero_iff x).1 ht), if_neg ht]

theorem finite_congr {s s' : UnpackedFloat.Sign} {m m' : Nat} {e e' : Int} (hm : 0 < m) (hs : s = s') (h : m = m')
    (h' : e = e') : UnpackedFloat.finite s m e hm = .finite s' m' e' (h ▸ hm) := by
  subst hs h h'
  rfl

theorem value_of_finite (h : x.biasedExponent < 0x7ff) :
    x.value = if h : 0 < x.significand then .finite x.sign x.significand x.exponent h else .zero x.sign := by
  have hexp : ¬ @UnpackedFloat.unpackExponent .binary64 x.bits.toBitVec = -1#11 := by
    rw [← BitVec.toNat_inj, toNat_unpackExponent]
    exact Nat.ne_of_lt h
  have hsub : @UnpackedFloat.unpackExponent .binary64 x.bits.toBitVec = 0#11 ↔ x.biasedExponent = 0 := by
    rw [← BitVec.toNat_inj, toNat_unpackExponent]
    rfl
  have hnormal : (1#1 ++ @UnpackedFloat.unpackMantissa .binary64 x.bits.toBitVec).toNat =
      0x10000000000000 + x.trailing := by
    rw [BitVec.toNat_append, toNat_unpackMantissa]
    exact (Nat.two_pow_add_eq_or_of_lt (i := 52) (Nat.mod_lt _ (by decide)) 1).symm
  have hbias : ((Float.Model.Format.exponentBias .binary64 : Nat) : Int) = 1023 := rfl
  have hexponent := toNat_unpackExponent x
  unfold value UnpackedFloat.unpack
  dsimp only
  rw [if_neg hexp]
  by_cases hb : x.biasedExponent = 0
  · have hs : x.significand = x.trailing := if_pos hb
    rw [if_pos (hsub.2 hb)]
    by_cases ht : x.trailing = 0
    · rw [dif_pos ((unpackMantissa_eq_zero_iff x).2 ht), dif_neg (by omega), ofBitVec_unpackSign]
    · rw [dif_neg (mt (unpackMantissa_eq_zero_iff x).1 ht), dif_pos (by omega)]
      refine finite_congr _ (ofBitVec_unpackSign x) ((toNat_unpackMantissa x).trans hs.symm) ?_
      unfold exponent
      omega
  · have hs : x.significand = 0x10000000000000 + x.trailing := if_neg hb
    rw [if_neg (mt hsub.1 hb), dif_pos (by omega)]
    refine finite_congr _ (ofBitVec_unpackSign x) (hnormal.trans hs.symm) ?_
    unfold exponent
    omega

theorem value_cases (hx : x.isNaN = false) :
    x.value = .infinity x.sign ∧ x.magnitude = 0x7ff0000000000000 ∨ x.value = .zero x.sign ∧ x.magnitude = 0 ∨
      ∃ h, x.value = .finite x.sign x.significand x.exponent h ∧ 0 < x.magnitude ∧
        x.magnitude < 0x7ff0000000000000 := by
  have hmag : x.magnitude < 0x8000000000000000 := Nat.mod_lt _ (by decide)
  by_cases hb : x.biasedExponent = 0x7ff
  · have hvalue := value_of_large hb
    split at hvalue
    · rename_i ht
      refine .inl ⟨hvalue, ?_⟩
      unfold biasedExponent at hb
      unfold trailing at ht
      omega
    · unfold isNaN at hx
      rw [hvalue] at hx
      cases hx
  · have hlt : x.biasedExponent < 0x7ff := by
      unfold biasedExponent at hb ⊢
      omega
    have hvalue := value_of_finite hlt
    have hpos : 0 < x.significand ↔ 0 < x.magnitude := by
      unfold significand biasedExponent trailing
      split <;> omega
    by_cases hs : 0 < x.significand
    · refine .inr (.inr ⟨hs, hvalue.trans (dif_pos hs), hpos.1 hs, ?_⟩)
      unfold biasedExponent at hlt
      omega
    · exact .inr (.inl ⟨hvalue.trans (dif_neg hs), by omega⟩)

theorem sign_cases (x : Binary64) :
    x.sign = .negative ∧ x.key = -x.magnitude ∨ x.sign = .positive ∧ x.key = x.magnitude := by
  unfold sign key
  cases x.isNegative with
  | true => exact .inl ⟨rfl, rfl⟩
  | false => exact .inr ⟨rfl, rfl⟩

/-- Finite numbers of one sign lie in the order of their bits. -/
theorem compare_scaled (x y : Binary64) :
    (compare x.exponent y.exponent).then (compare x.significand y.significand) =
      compare (x.magnitude : Int) y.magnitude := by
  have hlt : ∀ {x y : Binary64}, x.magnitude < y.magnitude →
      x.exponent < y.exponent ∨ x.exponent = y.exponent ∧ x.significand < y.significand := by
    intro x y h
    unfold exponent significand biasedExponent trailing
    split <;> split <;> omega
  obtain h | h | h := Nat.lt_trichotomy x.magnitude y.magnitude
  · rw [Int.compare_eq_lt.2 (Int.ofNat_lt.2 h)]
    obtain he | ⟨he, hs⟩ := hlt h
    · rw [Int.compare_eq_lt.2 he]
      rfl
    · rw [Int.compare_eq_eq.2 he, Nat.compare_eq_lt.2 hs]
      rfl
  · have he : x.exponent = y.exponent := by
      unfold exponent biasedExponent
      rw [h]
    have hs : x.significand = y.significand := by
      unfold significand biasedExponent trailing
      rw [h]
    rw [h, Int.compare_eq_eq.2 rfl, Int.compare_eq_eq.2 he, Nat.compare_eq_eq.2 hs]
    rfl
  · rw [Int.compare_eq_gt.2 (Int.ofNat_lt.2 h)]
    obtain he | ⟨he, hs⟩ := hlt h
    · rw [Int.compare_eq_gt.2 he]
      rfl
    · rw [Int.compare_eq_eq.2 he.symm, Nat.compare_eq_gt.2 hs]
      rfl

theorem compare_neg_neg (a b : Int) : compare (-a) (-b) = (compare a b).swap := by
  rw [Int.compare_swap]
  obtain h | rfl | h := Int.lt_trichotomy a b
  · rw [Int.compare_eq_gt.2 h, Int.compare_eq_gt.2 (Int.neg_lt_neg h)]
  · rw [Int.compare_eq_eq.2 rfl, Int.compare_eq_eq.2 rfl]
  · rw [Int.compare_eq_lt.2 h, Int.compare_eq_lt.2 (Int.neg_lt_neg h)]

theorem compare_value (hx : x.isNaN = false) (hy : y.isNaN = false) :
    x.value.compare y.value = some (compare x.key y.key) := by
  obtain ⟨hx, hm⟩ | ⟨hx, hm⟩ | ⟨_, hx, hm, hm'⟩ := value_cases hx <;>
    obtain ⟨hy, hn⟩ | ⟨hy, hn⟩ | ⟨_, hy, hn, hn'⟩ := value_cases hy <;>
    obtain ⟨hs, hk⟩ | ⟨hs, hk⟩ := sign_cases x <;> obtain ⟨ht, hl⟩ | ⟨ht, hl⟩ := sign_cases y <;>
    rw [hx, hy, hs, ht, hk, hl] <;> first
    | exact congrArg some (Int.compare_eq_lt.2 (by omega)).symm
    | exact congrArg some (Int.compare_eq_gt.2 (by omega)).symm
    | exact congrArg some (Int.compare_eq_eq.2 (by omega)).symm
    | skip
  -- Only two finite numbers of one sign are left.
  · exact congrArg some ((congrArg Ordering.swap (compare_scaled x y)).trans (compare_neg_neg _ _).symm)
  · exact congrArg some (compare_scaled x y)

theorem value_of_isNaN (hx : x.isNaN = true) : x.value = .notANumber := by
  unfold isNaN at hx
  cases hvalue : x.value with
  | notANumber => rfl
  | infinity | zero | finite => rw [hvalue] at hx; cases hx

theorem compare_eq_some_iff {o : Ordering} :
    x.value.compare y.value = some o ↔ x.isNaN = false ∧ y.isNaN = false ∧ compare x.key y.key = o := by
  constructor
  · intro h
    cases hx : x.isNaN with
    | true =>
        rw [value_of_isNaN hx] at h
        cases h
    | false =>
        cases hy : y.isNaN with
        | true =>
            rw [value_of_isNaN hy] at h
            cases hvalue : x.value <;> rw [hvalue] at h <;> cases h
        | false =>
            rw [compare_value hx hy] at h
            exact ⟨rfl, rfl, Option.some.inj h⟩
  · rintro ⟨hx, hy, rfl⟩
    exact compare_value hx hy

theorem le_iff : x ≤ y ↔ x.isNaN = false ∧ y.isNaN = false ∧ x.key ≤ y.key := by
  change (x.value.compare y.value).any (·.isLE) = true ↔ _
  constructor
  · intro h
    obtain ⟨o, ho, hle⟩ := (Option.any_eq_true _ _).1 h
    obtain ⟨hx, hy, rfl⟩ := compare_eq_some_iff.1 ho
    exact ⟨hx, hy, Int.isLE_compare.1 hle⟩
  · rintro ⟨hx, hy, h⟩
    rw [compare_value hx hy]
    exact Int.isLE_compare.2 h

theorem lt_iff : x < y ↔ x.isNaN = false ∧ y.isNaN = false ∧ x.key < y.key := by
  change (x.value.compare y.value == some .lt) = true ↔ _
  rw [beq_iff_eq, compare_eq_some_iff, Int.compare_eq_lt]

theorem le_self (hx : x.isNaN = false) : x ≤ x := le_iff.2 ⟨hx, hx, Int.le_refl _⟩

theorem le_trans (h : x ≤ y) (h' : y ≤ z) : x ≤ z :=
  le_iff.2 ⟨(le_iff.1 h).1, (le_iff.1 h').2.1, Int.le_trans (le_iff.1 h).2.2 (le_iff.1 h').2.2⟩

theorem le_of_not_le (hx : x.isNaN = false) (hy : y.isNaN = false) (h : ¬ x ≤ y) : y ≤ x :=
  le_iff.2 ⟨hy, hx, (Int.le_total _ _).resolve_left fun hle => h (le_iff.2 ⟨hx, hy, hle⟩)⟩

theorem le_of_lt (h : x < y) : x ≤ y :=
  le_iff.2 ⟨(lt_iff.1 h).1, (lt_iff.1 h).2.1, Int.le_of_lt (lt_iff.1 h).2.2⟩

theorem le_of_not_lt (hx : x.isNaN = false) (hy : y.isNaN = false) (h : ¬ x < y) : y ≤ x :=
  le_iff.2 ⟨hy, hx, Int.not_lt.1 fun hlt => h (lt_iff.2 ⟨hx, hy, hlt⟩)⟩

/-- The total order is the usual one, refined at the zeros and extended to the NaNs. -/
theorem totalCompare_of_lt (h : x < y) : totalCompare x y = .lt := by
  have hkey := (lt_iff.1 h).2.2
  refine Int.compare_eq_lt.2 ?_
  unfold rank
  unfold key at hkey
  split at hkey <;> split at hkey <;> simp only [*, if_true, if_false, Bool.false_eq_true] <;> omega

theorem le_larger_left (hx : x.isNaN = false) (y : Binary64) : x ≤ larger x y := by
  unfold larger
  rw [hx, if_neg Bool.false_ne_true]
  split
  · rename_i h
    exact le_of_lt h
  · exact le_self hx

theorem le_larger_right (x : Binary64) (hy : y.isNaN = false) : y ≤ larger x y := by
  unfold larger
  split
  · exact le_self hy
  · rename_i hx
    split
    · exact le_self hy
    · rename_i h
      exact le_of_not_lt (eq_false_of_ne_true hx) hy h

theorem isNaN_larger (hx : x.isNaN = false) (y : Binary64) : (larger x y).isNaN = false :=
  (le_iff.1 (le_larger_left hx y)).2.1

theorem le_infinity (hx : x.isNaN = false) : x ≤ infinity := by
  refine le_iff.2 ⟨hx, by decide +kernel, ?_⟩
  have hkey : infinity.key = 0x7ff0000000000000 := by decide +kernel
  rw [hkey]
  unfold key
  obtain ⟨-, hm⟩ | ⟨-, hm⟩ | ⟨-, -, -, hm⟩ := value_cases hx <;> split <;> omega

theorem isNaN_smaller (hx : x.isNaN = false) (y : Binary64) : (smaller x y).isNaN = false := by
  unfold smaller
  rw [hx, if_neg Bool.false_ne_true]
  split
  · rename_i h
    exact (le_iff.1 (le_of_lt h)).1
  · exact hx

theorem le_smaller_iff (hx : x.isNaN = false) : z ≤ smaller x y ↔ z ≤ x ∧ (y.isNaN = false → z ≤ y) := by
  unfold smaller
  rw [hx, if_neg Bool.false_ne_true]
  split
  · rename_i h
    have hyx := le_of_lt h
    constructor
    · intro hz
      exact ⟨le_trans hz hyx, fun _ => hz⟩
    · intro hz
      exact hz.2 (le_iff.1 hyx).1
  · rename_i h
    constructor
    · intro hz
      exact ⟨hz, fun hy => le_trans hz (le_of_not_lt hy hx h)⟩
    · intro hz
      exact hz.1

theorem smaller_eq_or (x y : Binary64) : smaller x y = x ∨ smaller x y = y := by
  unfold smaller
  split
  · exact .inr rfl
  · split
    · exact .inr rfl
    · exact .inl rfl

section Least

variable {xs : List Binary64}

theorem isNaN_foldl_smaller (hx : x.isNaN = false) (xs : List Binary64) : (xs.foldl smaller x).isNaN = false := by
  induction xs generalizing x with
  | nil => exact hx
  | cons y xs ih => exact ih (isNaN_smaller hx y)

theorem le_foldl_smaller_iff (hx : x.isNaN = false) :
    z ≤ xs.foldl smaller x ↔ z ≤ x ∧ ∀ y ∈ xs, y.isNaN = false → z ≤ y := by
  induction xs generalizing x with
  | nil => simp
  | cons y xs ih =>
      rw [List.foldl_cons, ih (isNaN_smaller hx y), le_smaller_iff hx, List.forall_mem_cons, and_assoc]

theorem foldl_smaller_mem (x : Binary64) (xs : List Binary64) : xs.foldl smaller x ∈ x :: xs := by
  induction xs generalizing x with
  | nil => exact List.mem_singleton.2 rfl
  | cons y xs ih =>
      rw [List.foldl_cons]
      obtain heq | hmem := List.mem_cons.1 (ih (smaller x y))
      · rw [heq]
        obtain h | h := smaller_eq_or x y <;> simp [h]
      · exact List.mem_cons_of_mem _ (List.mem_cons_of_mem _ hmem)

theorem isNaN_infinity : infinity.isNaN = false := by decide +kernel

theorem isNaN_least (xs : List Binary64) : (least xs).isNaN = false := isNaN_foldl_smaller isNaN_infinity xs

theorem le_least_iff : z ≤ least xs ↔ z.isNaN = false ∧ ∀ y ∈ xs, y.isNaN = false → z ≤ y := by
  rw [least, le_foldl_smaller_iff isNaN_infinity]
  constructor
  · intro h
    exact ⟨(le_iff.1 h.1).1, h.2⟩
  · intro h
    exact ⟨le_infinity h.1, h.2⟩

theorem least_le (h : x ∈ xs) (hx : x.isNaN = false) : least xs ≤ x :=
  (le_least_iff.1 (le_self (isNaN_least xs))).2 x h hx

theorem least_reached (xs : List Binary64) :
    (∃ x ∈ xs, x.isNaN = false ∧ x ≤ least xs) ∨ (∀ x ∈ xs, x.isNaN = true) ∧ least xs = infinity := by
  obtain heq | hmem := List.mem_cons.1 (foldl_smaller_mem infinity xs)
  · by_cases hall : ∀ x ∈ xs, x.isNaN = true
    · exact .inr ⟨hall, heq⟩
    · left
      simp only [Classical.not_forall, Bool.not_eq_true] at hall
      obtain ⟨x, hx, hnum⟩ := hall
      refine ⟨x, hx, hnum, ?_⟩
      rw [least, heq]
      exact le_infinity hnum
  · exact .inl ⟨least xs, hmem, isNaN_least xs, le_self (isNaN_least xs)⟩

end Least

end BranchBound.Binary64
