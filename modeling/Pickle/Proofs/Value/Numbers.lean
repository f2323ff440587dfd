import Pickle.Proofs.Value.Order

/-!
# Where numbers compare as numbers

The comparison of keys is a total order that sees nothing but what the scalars stand for, as long as
it compares these exactly.  Integers of any kind do; so do floats below `2 ^ 53` together with
integers in 64 bits and long integers that need more (`compare_isTotal`).  There an integer that is
rounded to a float keeps its place among the floats.

Beyond that, it is no order.  A float in front of a long integer is cut to 64 bits, so from `2 ^ 63`
on the long integer is the greater one, whatever the float is; with the long integer in front, the
two are compared as floats (`compare_float_long`).
-/

namespace Pickle

namespace Scalar

open Double

/-- Scalars among which no rounding matters: the floats are below `2 ^ 53`, and the long integers do
not fit 64 bits. -/
def IsModerate : Scalar → Prop
  | .float value => value.isFinite = true ∧ value.absolute < 2 ^ 53
  | .long value => ¬ FitsShort value
  | _ => True

theorem isNaN_of_isFinite {x : Double} (h : x.isFinite = true) : x.isNaN = false := by
  have hlt : x.magnitude < infinityBits := of_decide_eq_true h
  exact decide_eq_false (by omega)

theorem compareFloats_eq {x y : Double} (hx : x.isNaN = false) (hy : y.isNaN = false) :
    compareFloats x y = Ord.compare x.rank y.rank := by
  rw [compareFloats, compare?, hx, hy]
  rfl

section Rounded

variable {x y : Double} {i : ℤ}

theorem compareFloats_of_isNear (hx : x.IsNear i) (hy : IsModerate (.float y)) :
    compareFloats x y = Ord.compare (i : ℚ) y.value := by
  rw [compareFloats_eq hx.isNaN (isNaN_of_isFinite hy.1), compare_rank_of_isNear hx hy.2]

theorem compareFloats_of_isNear_right (hx : IsModerate (.float x)) (hy : y.IsNear i) :
    compareFloats x y = Ord.compare x.value (i : ℚ) := by
  have hswap : Ord.compare x.rank y.rank = (Ord.compare y.rank x.rank).swap :=
    Std.OrientedCmp.eq_swap
  rw [compareFloats_eq (isNaN_of_isFinite hx.1) hy.isNaN, hswap, compare_rank_of_isNear hy hx.2]
  exact Std.OrientedCmp.eq_swap.symm

theorem toInt64Saturating_bounds (x : Double) :
    -2 ^ 63 ≤ x.toInt64Saturating ∧ x.toInt64Saturating < 2 ^ 63 := by
  unfold toInt64Saturating
  have hsign : (signBit : ℤ) = 2 ^ 63 := rfl
  split
  · omega
  · split
    · omega
    · split <;> omega

/-- Cut to 64 bits, a float is on the same side of a long integer that needs more. -/
theorem compare_toInt64Saturating (hx : IsModerate (.float x)) (hi : ¬ FitsShort i) :
    Ord.compare x.toInt64Saturating i = Ord.compare x.value (i : ℚ) := by
  obtain ⟨hlow, hhigh⟩ := toInt64Saturating_bounds x
  obtain ⟨hlow', hhigh'⟩ := value_bounds hx.2
  rcases (show 2 ^ 63 ≤ i ∨ i < -2 ^ 63 by unfold FitsShort at hi; omega) with hle | hlt
  · have hcast : (2 : ℚ) ^ 53 < i := by
      have h : 2 ^ 53 < i := by omega
      exact_mod_cast h
    rw [compare_lt_iff_lt.2 (hhigh.trans_le hle), compare_lt_iff_lt.2 (hhigh'.trans hcast)]
  · have hcast : (i : ℚ) < -2 ^ 53 := by
      have h : i < -2 ^ 53 := by omega
      exact_mod_cast h
    rw [compare_gt_iff_gt.2 (hlt.trans_le hlow), compare_gt_iff_gt.2 (hcast.trans hlow')]

end Rounded

/-- Numbers among which no rounding matters are compared exactly. -/
theorem isExactOn_isModerate : IsExactOn IsModerate where
  isFinite := fun hgood => hgood.1
  compare_numbers := by
    intro x y p q hx hy hp hq
    -- A moderate float counts as the number that it is, without rounding.
    have hfloat : ∀ {value : Double} {r}, IsModerate (.float value) →
        (Scalar.float value).number? = some r → r = value.value := by
      intro value r hvalue hr
      rw [number?, if_pos hvalue.1] at hr
      exact (Option.some.inj hr).symm
    cases x with
    | none | bytes | str => cases hp
    | bool i | short i =>
      cases hp
      cases y with
      | none | bytes | str => cases hq
      | bool j | short j | long j => cases hq; exact compare_intCast _ _
      | float y => rw [hfloat hy hq]; exact compareFloats_of_isNear (isNear_ofInt _) hy
    | long i =>
      cases hp
      cases y with
      | none | bytes | str => cases hq
      | bool j | short j | long j => cases hq; exact compare_intCast _ _
      | float y => rw [hfloat hy hq]; exact compareFloats_of_isNear (isNear_ofLong _) hy
    | float x =>
      rw [hfloat hx hp]
      cases y with
      | none | bytes | str => cases hq
      | bool j | short j => cases hq; exact compareFloats_of_isNear_right hx (isNear_ofInt _)
      | long j => cases hq; exact compare_toInt64Saturating hx hy
      | float y =>
        rw [hfloat hy hq]
        exact (compareFloats_eq (isNaN_of_isFinite hx.1) (isNaN_of_isFinite hy.1)).trans
          (compare_rank x y)

/-- A float that is beyond a long integer is less than the long integer, too, where that is from
`2 ^ 63` on. -/
theorem compare_float_long {x : Double} {i : ℤ} (hi : 2 ^ 63 ≤ i) (hx : x.isNaN = false)
    (hlt : (ofLong i).rank < x.rank) :
    (Scalar.long i).compare (.float x) = .lt ∧ (Scalar.float x).compare (.long i) = .lt := by
  constructor
  · exact (compareFloats_eq (isNear_ofLong i).isNaN hx).trans (compare_lt_iff_lt.2 hlt)
  · exact compare_lt_iff_lt.2 ((toInt64Saturating_bounds x).2.trans_le hi)

end Scalar

namespace Key

/-- Where scalars are compared exactly, keys are compared totally.

For three keys without floats, or with numbers among which no rounding matters, comparing in the
other direction gives the other order, not being greater is transitive, equality is an equivalence,
and numbers of all kinds compare as the rational numbers that they stand for. -/
theorem compare_isTotal (a b c : Key)
    (h : (∀ key ∈ [a, b, c], key.IsFloatFree) ∨ ∀ key ∈ [a, b, c], key.All Scalar.IsModerate) :
    b.compare a = (a.compare b).swap ∧
      (a.compare b ≠ .gt → b.compare c ≠ .gt → a.compare c ≠ .gt) ∧
      (a.compare a = .eq ∧ (a.compare b = .eq → b.compare a = .eq) ∧
        (a.compare b = .eq → b.compare c = .eq → a.compare c = .eq)) ∧
      ∀ x y p q, a = .scalar x → b = .scalar y → x.number? = some p → y.number? = some q →
        a.compare b = Ord.compare p q := by
  obtain ⟨good, hgood, hall⟩ : ∃ good, Scalar.IsExactOn good ∧ ∀ key ∈ [a, b, c], key.All good := by
    rcases h with h | h
    · exact ⟨_, Scalar.isExactOn_notFloat, h⟩
    · exact ⟨_, Scalar.isExactOn_isModerate, h⟩
  have hsame : ∀ x ∈ [a, b, c], ∀ y ∈ [a, b, c], x.compare y = x.exactly y :=
    fun x hx y hy => compare_eq_exactly hgood (hall x hx) (hall y hy)
  have ha : a ∈ [a, b, c] := by simp
  have hb : b ∈ [a, b, c] := by simp
  have hc : c ∈ [a, b, c] := by simp
  rw [hsame b hb a ha, hsame a ha b hb, hsame b hb c hc, hsame a ha c hc, hsame a ha a ha]
  refine ⟨Std.OrientedCmp.eq_swap, ?_, ⟨Std.ReflCmp.compare_self, Std.OrientedCmp.eq_symm,
    Std.TransCmp.eq_trans⟩, ?_⟩
  · intro hfirst hsecond
    rw [ne_eq, ← Ordering.isLE_iff_ne_gt] at *
    exact Std.TransCmp.isLE_trans hfirst hsecond
  · rintro x y p q rfl rfl hp hq
    exact Scalar.exactly_of_numbers hp hq

/-- A boolean, a float and an integer that are equal, beside a long integer and below a float. -/
theorem compare_isTotal_moderate :
    let bool : Key := .tuple [.scalar (.bool true), .scalar (.long (2 ^ 70))]
    let float : Key := .tuple [.scalar (.float ⟨0x3ff0000000000000⟩), .scalar (.long (2 ^ 70))]
    let short : Key := .tuple [.scalar (.short 1), .scalar (.float ⟨0x4008000000000000⟩)]
    (∀ key ∈ [short, float, bool], key.All Scalar.IsModerate) ∧
      float.compare short = (short.compare float).swap ∧
      (short.compare float ≠ .gt → float.compare bool ≠ .gt → short.compare bool ≠ .gt) := by
  intro bool float short
  have hone : Scalar.IsModerate (.float ⟨0x3ff0000000000000⟩) :=
    ⟨by decide, Double.absolute_lt_iff.2 (by decide)⟩
  have hthree : Scalar.IsModerate (.float ⟨0x4008000000000000⟩) :=
    ⟨by decide, Double.absolute_lt_iff.2 (by decide)⟩
  have hlong : Scalar.IsModerate (.long (2 ^ 70)) := by
    show ¬ Scalar.FitsShort (2 ^ 70)
    decide
  have hall : ∀ key ∈ [short, float, bool], key.All Scalar.IsModerate := by
    intro key hkey
    simp only [List.mem_cons, List.not_mem_nil, or_false] at hkey
    rcases hkey with rfl | rfl | rfl
    · exact ⟨trivial, hthree, trivial⟩
    · exact ⟨hone, hlong, trivial⟩
    · exact ⟨trivial, hlong, trivial⟩
  obtain ⟨hswap, htrans, -⟩ := compare_isTotal short float bool (.inr hall)
  exact ⟨hall, hswap, htrans⟩

/-- Two pairs of numbers that are out of order: a float beyond a long integer is less than it in
both directions; and two neighbours are equal to one float, but not to each other. -/
theorem compare_not_total :
    let big : Key := .scalar (.long (2 ^ 70))
    let huge : Key := .scalar (.float ⟨0x7e37e43c8800759c⟩)
    let even : Key := .scalar (.short 9007199254740992)
    let odd : Key := .scalar (.short 9007199254740993)
    let rounded : Key := .scalar (.float ⟨0x4340000000000000⟩)
    (huge.compare big = .lt ∧ big.compare huge = .lt) ∧
      odd.compare rounded = .eq ∧ rounded.compare even = .eq ∧ odd.compare even = .gt := by
  intro big huge even odd rounded
  have hrank : (Double.ofLong (2 ^ 70)).rank < Double.rank ⟨0x7e37e43c8800759c⟩ := by decide +kernel
  obtain ⟨hbig, hhuge⟩ := Scalar.compare_float_long (by norm_num) (by decide) hrank
  exact ⟨⟨hhuge, hbig⟩, by decide +kernel⟩

end Key

end Pickle
