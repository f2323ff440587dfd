import Mathlib.Algebra.Order.Ring.Rat
import Mathlib.Data.String.Basic
import Pickle.Proofs.Double.Value
import Pickle.Value.Key

/-!
# The order that keys are meant to have

Scalars are meant to be ordered by what they stand for: `None` first, then the numbers as rational
numbers, then byte strings, then texts.  `Scalar.exactly` is this order, and `Key.compareBy` carries
an order of scalars over to keys, item by item.  Whatever the order of scalars is, if it is total
then so is that of keys; the induction is on the first of three keys, and its claim is the
composition of orders, which passes through sequences (`Chains.thenBy`).

The comparison at hand is not total on all scalars, because it rounds.  It is so on every class of
scalars that it compares exactly (`Scalar.IsExactOn`), in particular on those without floats.
-/

namespace Pickle

open Std (OrientedCmp TransCmp)

/-! ## Orders in a chain -/

/-- Whether the order of a first and a third thing fits to those of the first and the second and of
the second and the third. -/
def Chains : Ordering → Ordering → Ordering → Prop
  | .eq, second, whole => whole = second
  | first, .eq, whole => whole = first
  | .lt, .lt, whole => whole = .lt
  | .gt, .gt, whole => whole = .gt
  | _, _, _ => True

namespace Chains

theorem of_transCmp {α : Type} {cmp : α → α → Ordering} [TransCmp cmp] (a b c : α) :
    Chains (cmp a b) (cmp b c) (cmp a c) := by
  cases hfirst : cmp a b with
  | eq => exact TransCmp.congr_left hfirst
  | lt =>
    cases hsecond : cmp b c with
    | eq => exact TransCmp.lt_of_lt_of_eq hfirst hsecond
    | lt => exact TransCmp.lt_trans hfirst hsecond
    | gt => trivial
  | gt =>
    cases hsecond : cmp b c with
    | eq => exact TransCmp.gt_of_gt_of_eq hfirst hsecond
    | lt => trivial
    | gt => exact TransCmp.gt_trans hfirst hsecond

/-- Where a third thing is on one side of two others, the order of the two does not matter. -/
theorem fromBelow (second : Ordering) : Chains .lt second .lt := by cases second <;> trivial

theorem fromAbove (second : Ordering) : Chains .gt second .gt := by cases second <;> trivial

theorem below (first : Ordering) : Chains first .lt .lt := by cases first <;> trivial

theorem above (first : Ordering) : Chains first .gt .gt := by cases first <;> trivial

/-- Orders that are refined in the same way still fit together. -/
theorem thenBy {first second whole first' second' whole' : Ordering}
    (h : Chains first second whole) (h' : Chains first' second' whole') :
    Chains (first.then first') (second.then second') (whole.then whole') := by
  cases first <;> cases second
  case eq.eq =>
    obtain rfl : whole = .eq := h
    exact h'
  case eq.lt | eq.gt =>
    cases h
    cases first' <;> trivial
  case lt.eq | gt.eq =>
    cases h
    cases second' <;> trivial
  case lt.lt | gt.gt =>
    cases h
    trivial
  case lt.gt | gt.lt => trivial

/-- A chain of two that does not go down does not go down as a whole. -/
theorem isLE {first second whole : Ordering} (h : Chains first second whole)
    (hfirst : first.isLE) (hsecond : second.isLE) : whole.isLE := by
  cases first <;> cases second
  case eq.eq | eq.lt | lt.eq | lt.lt =>
    cases h
    rfl
  case gt.lt | gt.eq | gt.gt => cases hfirst
  case lt.gt | eq.gt => cases hsecond

end Chains

/-! ## Scalars -/

namespace Scalar

/-- Where the kind of a scalar stands; all numbers are of one kind. -/
def kindRank : Scalar → ℕ
  | .none => 0
  | .bool _ | .short _ | .long _ | .float _ => 1
  | .bytes _ => 2
  | .str _ => 3

/-- The number that a scalar stands for, if it is a finite one. -/
def number? : Scalar → Option ℚ
  | .bool value => some (boolInt value)
  | .short value => some value.toInt
  | .long value => some value
  | .float value => if value.isFinite then some value.value else Option.none
  | _ => Option.none

/-- The bytes of a byte string. -/
def byteString : Scalar → Bytes
  | .bytes value => value
  | _ => []

/-- The characters of a text. -/
def characters : Scalar → String
  | .str value => value
  | _ => ""

/-- The order of scalars by what they stand for. -/
def exactly : Scalar → Scalar → Ordering :=
  compareLex (compareOn kindRank) (compareLex (compareOn fun x => x.number?.getD 0)
    (compareLex (compareOn byteString) (compareOn characters)))

instance : TransCmp exactly := inferInstanceAs (TransCmp (compareLex _ _))

/-- Whether a comparison of the scalars of a class is a comparison of what they stand for. -/
structure IsExactOn (good : Scalar → Prop) : Prop where
  isFinite : ∀ {x}, good (.float x) → x.isFinite = true
  compare_numbers : ∀ {x y p q}, good x → good y → x.number? = some p → y.number? = some q →
    x.compare y = Ord.compare p q

theorem lexicographic_eq (xs ys : Bytes) :
    Ordered.lexicographic Ord.compare xs ys = Ord.compare xs ys := by
  induction xs generalizing ys with
  | nil => cases ys <;> rfl
  | cons x xs ih =>
    cases ys with
    | nil => rfl
    | cons y ys =>
      rw [Ordered.lexicographic, ih, List.compare_cons_cons]

/-- Numbers of any kind are meant to be ordered as numbers. -/
theorem exactly_of_numbers {x y : Scalar} {p q : ℚ} (hx : x.number? = some p)
    (hy : y.number? = some q) : x.exactly y = Ord.compare p q := by
  have hkind : ∀ {z : Scalar} {r}, z.number? = some r →
      z.kindRank = 1 ∧ z.byteString = [] ∧ z.characters = "" := by
    intro z r hz
    cases z <;> first | exact ⟨rfl, rfl, rfl⟩ | cases hz
  obtain ⟨hxKind, hxBytes, hxText⟩ := hkind hx
  obtain ⟨hyKind, hyBytes, hyText⟩ := hkind hy
  simp [exactly, compareLex, compareOn, hx, hy, hxKind, hxBytes, hxText, hyKind, hyBytes, hyText]

/-- What is compared exactly has the order that it is meant to have. -/
theorem IsExactOn.compare_eq {good : Scalar → Prop} (h : IsExactOn good) {x y : Scalar}
    (hx : good x) (hy : good y) : x.compare y = x.exactly y := by
  have hnumber : ∀ {z : Scalar}, good z → z.kindRank = 1 → ∃ p, z.number? = some p := by
    intro z hz hkind
    cases z with
    | bool value => exact ⟨_, rfl⟩
    | short value => exact ⟨_, rfl⟩
    | long value => exact ⟨_, rfl⟩
    | float value => exact ⟨_, if_pos (h.isFinite hz)⟩
    | none | bytes | str => cases hkind
  by_cases hkinds : x.kindRank = 1 ∧ y.kindRank = 1
  · obtain ⟨p, hp⟩ := hnumber hx hkinds.1
    obtain ⟨q, hq⟩ := hnumber hy hkinds.2
    rw [h.compare_numbers hx hy hp hq, exactly_of_numbers hp hq]
  · cases x <;> cases y
    case none.none | bytes.bytes | str.str =>
      simp [exactly, compareLex, compareOn, compare, kindRank, number?, byteString, characters,
        lexicographic_eq]
    all_goals first | exact absurd ⟨rfl, rfl⟩ hkinds | rfl

/-- Integers are ordered like the rational numbers that they are. -/
theorem compare_intCast (i j : ℤ) : Ord.compare i j = Ord.compare (i : ℚ) (j : ℚ) := by
  rcases lt_trichotomy i j with h | h | h
  · rw [compare_lt_iff_lt.2 h, compare_lt_iff_lt.2 (Int.cast_lt.2 h)]
  · rw [compare_eq_iff_eq.2 h, compare_eq_iff_eq.2 (congrArg _ h)]
  · rw [compare_gt_iff_gt.2 h, compare_gt_iff_gt.2 (Int.cast_lt.2 h)]

/-- Integers are compared exactly, whatever they are held in. -/
theorem isExactOn_notFloat : IsExactOn fun x => ∀ value, x ≠ .float value where
  isFinite := fun hgood => absurd rfl (hgood _)
  compare_numbers := by
    intro x y p q hx hy hp hq
    cases x <;> first | exact absurd rfl (hx _) | cases hp
    all_goals cases y <;> first | exact absurd rfl (hy _) | cases hq
    all_goals exact compare_intCast _ _

/-- A scalar with a boolean or an integer as an integer of one kind. -/
def unified : Scalar → Scalar
  | .bool value => .long (boolInt value)
  | .short value => .long value.toInt
  | x => x

/-- Apart from floats, scalars that stand for the same are the same but for the kind of integer. -/
theorem exactly_eq_eq_iff {x y : Scalar} (hx : ∀ value, x ≠ .float value)
    (hy : ∀ value, y ≠ .float value) : x.exactly y = .eq ↔ x.unified = y.unified := by
  simp only [exactly, compareLex, compareOn, Ordering.then_eq_eq, compare_eq_iff_eq]
  cases x <;> first
    | exact absurd rfl (hx _)
    | cases y <;> first
      | exact absurd rfl (hy _)
      | simp [kindRank, number?, byteString, characters, unified]

end Scalar

/-! ## Keys -/

namespace Key

mutual

/-- The order of keys that an order of scalars gives. -/
def compareBy (order : Scalar → Scalar → Ordering) : Key → Key → Ordering
  | .scalar x, .scalar y => order x y
  | .scalar _, _ => .lt
  | .frozenSet _, .scalar _ => .gt
  | .frozenSet xs, .frozenSet ys => compareItemsBy order xs ys
  | .frozenSet _, .tuple _ => .lt
  | .tuple xs, .tuple ys => compareItemsBy order xs ys
  | .tuple _, _ => .gt

/-- The order of items that an order of scalars gives. -/
def compareItemsBy (order : Scalar → Scalar → Ordering) : List Key → List Key → Ordering
  | [], [] => .eq
  | [], _ :: _ => .lt
  | _ :: _, [] => .gt
  | x :: xs, y :: ys => (compareBy order x y).then (compareItemsBy order xs ys)

end

mutual

/-- Whether all scalars in a key are of a class. -/
def All (good : Scalar → Prop) : Key → Prop
  | .scalar value => good value
  | .tuple items => AllItems good items
  | .frozenSet items => AllItems good items

/-- Whether all scalars in some keys are of a class. -/
def AllItems (good : Scalar → Prop) : List Key → Prop
  | [] => True
  | item :: rest => All good item ∧ AllItems good rest

end

mutual

/-- Orders that agree on the scalars of two keys agree on the keys. -/
theorem compare_eq_compareBy {good : Scalar → Prop} {order : Scalar → Scalar → Ordering}
    (h : ∀ {x y}, good x → good y → x.compare y = order x y) :
    ∀ a b : Key, a.All good → b.All good → a.compare b = a.compareBy order b
  | .scalar _, .scalar _, ha, hb => h ha hb
  | .scalar _, .tuple _, _, _ => rfl
  | .scalar _, .frozenSet _, _, _ => rfl
  | .tuple _, .scalar _, _, _ => rfl
  | .tuple xs, .tuple ys, ha, hb => compareItems_eq_compareItemsBy h xs ys ha hb
  | .tuple _, .frozenSet _, _, _ => rfl
  | .frozenSet _, .scalar _, _, _ => rfl
  | .frozenSet _, .tuple _, _, _ => rfl
  | .frozenSet xs, .frozenSet ys, ha, hb => compareItems_eq_compareItemsBy h xs ys ha hb

theorem compareItems_eq_compareItemsBy {good : Scalar → Prop} {order : Scalar → Scalar → Ordering}
    (h : ∀ {x y}, good x → good y → x.compare y = order x y) :
    ∀ xs ys : List Key, AllItems good xs → AllItems good ys →
      compareItems xs ys = compareItemsBy order xs ys
  | [], [], _, _ => rfl
  | [], _ :: _, _, _ => rfl
  | _ :: _, [], _, _ => rfl
  | x :: xs, y :: ys, ⟨hx, hxs⟩, ⟨hy, hys⟩ => by
    rw [compareItems, compareItemsBy, compare_eq_compareBy h x y hx hy,
      compareItems_eq_compareItemsBy h xs ys hxs hys]

end

section Order

variable {order : Scalar → Scalar → Ordering}

mutual

/-- Comparing in the other direction gives the other order. -/
theorem compareBy_swap [OrientedCmp order] :
    ∀ a b : Key, b.compareBy order a = (a.compareBy order b).swap
  | .scalar x, .scalar y => show order y x = (order x y).swap from OrientedCmp.eq_swap
  | .scalar _, .tuple _ => rfl
  | .scalar _, .frozenSet _ => rfl
  | .tuple _, .scalar _ => rfl
  | .tuple xs, .tuple ys => compareItemsBy_swap xs ys
  | .tuple _, .frozenSet _ => rfl
  | .frozenSet _, .scalar _ => rfl
  | .frozenSet _, .tuple _ => rfl
  | .frozenSet xs, .frozenSet ys => compareItemsBy_swap xs ys

theorem compareItemsBy_swap [OrientedCmp order] :
    ∀ xs ys : List Key, compareItemsBy order ys xs = (compareItemsBy order xs ys).swap
  | [], [] => rfl
  | [], _ :: _ => rfl
  | _ :: _, [] => rfl
  | x :: xs, y :: ys => by
    rw [compareItemsBy, compareItemsBy, Ordering.swap_then, compareBy_swap x y,
      compareItemsBy_swap xs ys]

end

mutual

/-- The orders among three keys fit together.  Keys of different kinds are settled by their kinds,
so only three keys of one kind are compared inside. -/
theorem compareBy_chains [TransCmp order] (a b c : Key) :
    Chains (a.compareBy order b) (b.compareBy order c) (a.compareBy order c) := by
  cases a <;> cases b <;> cases c
  case scalar.scalar.scalar x y z => exact .of_transCmp x y z
  case tuple.tuple.tuple xs ys zs => exact compareItemsBy_chains xs ys zs
  case frozenSet.frozenSet.frozenSet xs ys zs => exact compareItemsBy_chains xs ys zs
  all_goals first
    | exact .below _ | exact .above _ | exact .fromBelow _ | exact .fromAbove _ | trivial

theorem compareItemsBy_chains [TransCmp order] (xs ys zs : List Key) :
    Chains (compareItemsBy order xs ys) (compareItemsBy order ys zs)
      (compareItemsBy order xs zs) := by
  cases xs <;> cases ys <;> cases zs
  case cons.cons.cons x xs y ys z zs =>
    exact (compareBy_chains x y z).thenBy (compareItemsBy_chains xs ys zs)
  all_goals first
    | exact .below _ | exact .above _ | exact .fromBelow _ | exact .fromAbove _ | trivial

end

instance [TransCmp order] : TransCmp (compareBy order) where
  eq_swap := compareBy_swap _ _
  isLE_trans := (compareBy_chains _ _ _).isLE

end Order

section Equality

variable {good : Scalar → Prop} {order : Scalar → Scalar → Ordering} {f : Scalar → Scalar}

mutual

/-- A key with all scalars in it replaced. -/
def mapScalars (f : Scalar → Scalar) : Key → Key
  | .scalar value => .scalar (f value)
  | .tuple items => .tuple (mapScalarsItems f items)
  | .frozenSet items => .frozenSet (mapScalarsItems f items)

/-- Keys with all scalars in them replaced. -/
def mapScalarsItems (f : Scalar → Scalar) : List Key → List Key
  | [] => []
  | item :: rest => mapScalars f item :: mapScalarsItems f rest

end

mutual

/-- Keys are equal in an order if the scalars in them are so. -/
theorem compareBy_eq_eq_iff
    (h : ∀ {x y}, good x → good y → (order x y = .eq ↔ f x = f y)) (a b : Key) (ha : a.All good)
    (hb : b.All good) : a.compareBy order b = .eq ↔ a.mapScalars f = b.mapScalars f := by
  cases a <;> cases b <;> simp only [compareBy, mapScalars, reduceCtorEq, scalar.injEq,
    tuple.injEq, frozenSet.injEq]
  case scalar.scalar => exact h ha hb
  case tuple.tuple xs ys => exact compareItemsBy_eq_eq_iff h xs ys ha hb
  case frozenSet.frozenSet xs ys => exact compareItemsBy_eq_eq_iff h xs ys ha hb

theorem compareItemsBy_eq_eq_iff
    (h : ∀ {x y}, good x → good y → (order x y = .eq ↔ f x = f y)) (xs ys : List Key)
    (hxs : AllItems good xs) (hys : AllItems good ys) :
    compareItemsBy order xs ys = .eq ↔ mapScalarsItems f xs = mapScalarsItems f ys := by
  cases xs <;> cases ys <;> simp only [compareItemsBy, mapScalarsItems, reduceCtorEq]
  case cons.cons x xs y ys =>
    rw [Ordering.then_eq_eq, compareBy_eq_eq_iff h x y hxs.1 hys.1,
      compareItemsBy_eq_eq_iff h xs ys hxs.2 hys.2, List.cons.injEq]

end

end Equality

/-! ## The order of keys by what they stand for -/

/-- The order that keys are meant to have. -/
def exactly : Key → Key → Ordering := compareBy Scalar.exactly

instance : TransCmp exactly := inferInstanceAs (TransCmp (compareBy Scalar.exactly))

/-- Keys of a class that is compared exactly have the order that they are meant to have. -/
theorem compare_eq_exactly {good : Scalar → Prop} (h : Scalar.IsExactOn good) {a b : Key}
    (ha : a.All good) (hb : b.All good) : a.compare b = a.exactly b :=
  compare_eq_compareBy h.compare_eq a b ha hb

/-- Whether there is no float in a key. -/
def IsFloatFree (key : Key) : Prop := key.All fun x => ∀ value, x ≠ .float value

/-- A key with all booleans and all integers in it as integers of one kind. -/
def unified (key : Key) : Key := key.mapScalars Scalar.unified

/-- Without floats, keys are equal in the order if booleans and integers of the same value are all
that tells them apart. -/
theorem exactly_eq_eq_iff {a b : Key} (ha : a.IsFloatFree) (hb : b.IsFloatFree) :
    a.exactly b = .eq ↔ a.unified = b.unified :=
  compareBy_eq_eq_iff Scalar.exactly_eq_eq_iff a b ha hb

end Key

end Pickle
