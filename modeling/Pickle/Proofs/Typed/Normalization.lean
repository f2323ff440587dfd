import Mathlib.Data.List.Forall2
import Pickle.Proofs.Value.Parts
import Pickle.Proofs.Value.Sorted
import Pickle.Typed.Datum

/-!
# Normal values

A value that is made of what a value shows of itself is the *normal form* of that value.  Sequences
and sets of any kind are lists in it, maps and instances are dicts, keys are scalars or tuples, and
whatever else has no form of its own is bytes or a text.  `Value.HasCounterpart` says for each kind
of value what becomes of it, given what becomes of its parts, and `Value.IsNormal` which values are
their own normal form.

Only integers beyond 64 bits are in the way, wherever they are shown (`Value.Shows`): the arguments
and the state of an instance are not.  So there is one condition under which a value has a normal
form, and one error otherwise, which `Settles` says of an outcome.  Outcomes that settle do so when
they are put together, one after another or in a list.
-/

namespace Pickle

/-- What is related to something is good if relating makes it so. -/
theorem forall_of_forall₂ {α β : Type} {related : α → β → Prop} {good : β → Prop} {items : List α}
    {results : List β} (h : List.Forall₂ related items results)
    (hgood : ∀ item result, related item result → good result) :
    ∀ result ∈ results, good result := by
  induction h with
  | nil => simp
  | cons hhead _ ih => exact List.forall_mem_cons.2 ⟨hgood _ _ hhead, ih⟩

/-! ## Outcomes -/

/-- Whether an outcome is as expected under a condition, and an integer is too large otherwise. -/
structure Settles {α : Type} (condition : Prop) (outcome : Except Mismatch α)
    (expected : α → Prop) : Prop where
  ok : condition → ∃ value, outcome = .ok value ∧ expected value
  error : ¬ condition → outcome = .error .tooLarge

namespace Settles

variable {α β : Type} {condition more : Prop} {outcome : Except Mismatch α} {expected : α → Prop}

theorem of_ok {value : α} (hcondition : condition) (h : expected value) :
    Settles condition (.ok value) expected :=
  ⟨fun _ => ⟨value, rfl, h⟩, fun hnot => absurd hcondition hnot⟩

theorem iff (h : Settles condition outcome expected) (hsame : more ↔ condition) :
    Settles more outcome expected :=
  ⟨fun hmore => h.ok (hsame.1 hmore), fun hmore => h.error (hmore ∘ hsame.2)⟩

theorem imp {weaker : α → Prop} (h : Settles condition outcome expected)
    (himp : condition → ∀ value, expected value → weaker value) :
    Settles condition outcome weaker where
  ok hcondition := (h.ok hcondition).imp fun _ hvalue => ⟨hvalue.1, himp hcondition _ hvalue.2⟩
  error := h.error

theorem bind {next : α → Except Mismatch β} {result : β → Prop}
    (h : Settles condition outcome expected)
    (hnext : ∀ value, expected value → Settles more (next value) result) :
    Settles (condition ∧ more) (outcome >>= next) result where
  ok hboth := by
    obtain ⟨value, rfl, hvalue⟩ := h.ok hboth.1
    exact (hnext value hvalue).ok hboth.2
  error hboth := by
    by_cases hcondition : condition
    · obtain ⟨value, rfl, hvalue⟩ := h.ok hcondition
      exact (hnext value hvalue).error fun hmore => hboth ⟨hcondition, hmore⟩
    · rw [h.error hcondition]
      rfl

theorem map {result : β → Prop} (h : Settles condition outcome expected) (f : α → β)
    (himp : ∀ value, expected value → result (f value)) :
    Settles condition (outcome >>= fun value => pure (f value)) result :=
  (h.bind fun value hvalue => of_ok trivial (himp value hvalue)).iff (and_iff_left trivial).symm

/-- A list settles if its items do. -/
theorem mapM {γ : Type} {items : List γ} {action : γ → Except Mismatch α} {condition : γ → Prop}
    {expected : γ → α → Prop}
    (h : ∀ item ∈ items, Settles (condition item) (action item) (expected item)) :
    Settles (∀ item ∈ items, condition item) (items.mapM action)
      (List.Forall₂ expected items) := by
  induction items with
  | nil => exact of_ok (by simp) List.Forall₂.nil
  | cons item rest ih =>
    obtain ⟨hitem, hrest⟩ := List.forall_mem_cons.1 h
    rw [List.mapM_cons]
    refine (hitem.bind fun value hvalue => (ih hrest).map (value :: ·) fun values hvalues =>
      List.Forall₂.cons hvalue hvalues).iff List.forall_mem_cons

end Settles

/-! ## What becomes of values -/

/-- The form of a scalar in which integers are short if they can be. -/
def Scalar.normal : Scalar → Scalar
  | .long value => .ofInt value
  | value => value

/-- Whether a scalar is no long integer, or one that 64 bits hold, if only without a sign. -/
def Scalar.IsPlain (value : Scalar) : Prop := ∀ i, value = .long i → 2 ^ 63 ≤ i ∧ i < 2 ^ 64

namespace Key

mutual

/-- The form of a key in which every sequence is a tuple. -/
def normal : Key → Key
  | .scalar value => .scalar value.normal
  | .tuple items => .tuple (normals items)
  | .frozenSet items => .tuple (normals items)

/-- The form of keys in which every sequence is a tuple. -/
def normals : List Key → List Key
  | [] => []
  | item :: rest => item.normal :: normals rest

end

/-- Whether a key is made of plain scalars and tuples. -/
inductive IsNormal : Key → Prop
  | scalar {value : Scalar} (h : value.IsPlain) : IsNormal (.scalar value)
  | tuple {items : List Key} (h : ∀ item ∈ items, IsNormal item) : IsNormal (.tuple items)

end Key

namespace Value

/-- What a value is turned into, given what its parts are turned into. -/
inductive HasCounterpart : Value → Value → Prop
  | scalar (value : Scalar) : HasCounterpart (.scalar value) (.scalar value.normal)
  | byteArray (array : ByteArray) : HasCounterpart (.atom (.byteArray array)) (.bytes array.bytes)
  | class_ (name : ClassName) : HasCounterpart (.atom (.class_ name)) (.str name.dotted)
  | callable (callable : Callable) : HasCounterpart (.atom (.callable callable))
      (.str (callable.name.namespace_ ++ "." ++ callable.name.name))
  | list {items items' : List Value} (h : List.Forall₂ HasCounterpart items items') :
      HasCounterpart (.list items) (.list items')
  | tuple {items items' : List Value} (h : List.Forall₂ HasCounterpart items items') :
      HasCounterpart (.tuple items) (.list items')
  | set {items : List Key} {items' : List Value}
      (h : List.Forall₂ HasCounterpart (Key.toValues items) items') :
      HasCounterpart (.set items) (.list items')
  | frozenSet {items : List Key} {items' : List Value}
      (h : List.Forall₂ HasCounterpart (Key.toValues items) items') :
      HasCounterpart (.frozenSet items) (.list items')
  | dict {pairs pairs' map : List (Key × Value)}
      (hkeys : pairs'.map Prod.fst = pairs.map fun pair => pair.1.normal)
      (hvalues : List.Forall₂ HasCounterpart (pairs.map Prod.snd) (pairs'.map Prod.snd))
      (hmap : Ordered.IsMapOf Key.Less Key.Equals pairs' map) :
      HasCounterpart (.dict pairs) (.dict map)
  | object {value : Instance Key Value} {pairs' map : List (Key × Value)}
      (hkeys : pairs'.map Prod.fst = value.attributes.map fun pair => pair.1.normal)
      (hvalues : List.Forall₂ HasCounterpart (value.attributes.map Prod.snd)
        (pairs'.map Prod.snd))
      (hmap : Ordered.IsMapOf Key.Less Key.Equals pairs' map) :
      HasCounterpart (.object value) (.dict map)

/-- Whether a value is made of plain scalars, lists, and dicts with keys that are normal and in
order. -/
inductive IsNormal : Value → Prop
  | scalar {value : Scalar} (h : value.IsPlain) : IsNormal (.scalar value)
  | list {items : List Value} (h : ∀ item ∈ items, IsNormal item) : IsNormal (.list items)
  | dict {map : List (Key × Value)} (hkeys : ∀ entry ∈ map, entry.1.IsNormal)
      (hvalues : ∀ entry ∈ map, IsNormal entry.2) (hascend : Key.Ascend (map.map Prod.fst)) :
      IsNormal (.dict map)

/-- The parts that a value shows of itself: all of them, but of an instance the attributes alone. -/
def shownParts : Value → List Value
  | .object value => pairParts value.attributes
  | value => value.parts

/-- Whether a value is shown by another one, as itself or inside of something that is shown. -/
inductive Shows : Value → Value → Prop
  | here (value : Value) : Shows value value
  | inside {value part inner : Value} (held : part ∈ value.shownParts) (found : Shows part inner) :
      Shows value inner

/-- The keys of a dict or of the attributes of an instance. -/
def mapKeys : Value → List Key
  | .dict pairs => pairs.map Prod.fst
  | .object value => value.attributes.map Prod.fst
  | _ => []

/-- Whether there are no floats in the keys of all dicts and attributes that a value shows. -/
def HasFloatFreeMaps (value : Value) : Prop :=
  ∀ inner, value.Shows inner → ∀ key ∈ inner.mapKeys, key.IsFloatFree

/-- Whether 64 bits hold all integers that a value shows. -/
def Fits (value : Value) : Prop :=
  ∀ inner, value.Shows inner → ∀ i, inner = .scalar (.long i) → Datum.FitsInteger i

variable {value : Value}

/-- What is shown by a value is the value itself, or is shown by a part. -/
theorem forall_shows_iff {motive : Value → Prop} :
    (∀ inner, value.Shows inner → motive inner) ↔
      motive value ∧ ∀ part ∈ value.shownParts, ∀ inner, part.Shows inner → motive inner := by
  constructor
  · intro h
    exact ⟨h value (.here value), fun _ hpart inner hinner => h inner (.inside hpart hinner)⟩
  · rintro ⟨hvalue, hparts⟩ inner hinner
    cases hinner with
    | here => exact hvalue
    | inside held found => exact hparts _ held inner found

theorem hasFloatFreeMaps_iff : value.HasFloatFreeMaps ↔
    (∀ key ∈ value.mapKeys, key.IsFloatFree) ∧
      ∀ part ∈ value.shownParts, part.HasFloatFreeMaps :=
  forall_shows_iff

theorem fits_iff : value.Fits ↔ (∀ i, value = .scalar (.long i) → Datum.FitsInteger i) ∧
    ∀ part ∈ value.shownParts, part.Fits :=
  forall_shows_iff

theorem fits_iff_parts (hnot : ∀ i, value ≠ .scalar (.long i)) :
    value.Fits ↔ ∀ part ∈ value.shownParts, part.Fits :=
  fits_iff.trans (and_iff_right fun i heq => absurd heq (hnot i))

theorem fits_scalar_iff {scalar : Scalar} :
    Fits (.scalar scalar) ↔ ∀ i, scalar = .long i → Datum.FitsInteger i := by
  rw [fits_iff]
  constructor
  · rintro ⟨h, -⟩ i rfl
    exact h i rfl
  · intro h
    exact ⟨fun i heq => h i (Atom.scalar.inj (Value.atom.inj heq)), by simp [shownParts, parts]⟩

theorem forall_mem_pairParts {motive : Value → Prop} {pairs : List (Key × Value)} :
    (∀ part ∈ pairParts pairs, motive part) ↔
      ∀ pair ∈ pairs, motive pair.1.toValue ∧ motive pair.2 := by
  simp only [pairParts, List.forall_mem_flatMap, List.forall_mem_cons, List.not_mem_nil,
    false_implies, implies_true, and_true]

theorem mem_parts_of_mem_shownParts {part : Value} (h : part ∈ value.shownParts) :
    part ∈ value.parts := by
  cases value with
  | object value =>
    have hattributes : part ∈ pairParts value.attributes := h
    simp [parts, hattributes]
  | _ => exact h

end Value

theorem Scalar.ofInt_toInt (value : Int64) : ofInt value.toInt = .short value := by
  have hfits : FitsShort value.toInt := by
    have hle := value.le_toInt
    have hlt := value.toInt_lt
    exact ⟨by omega, by omega⟩
  rw [ofInt, if_pos hfits, Int64.ofInt_toInt]

theorem Scalar.isPlain_of_ne {value : Scalar} (h : ∀ i, value ≠ .long i) : value.IsPlain :=
  fun i hlong => absurd hlong (h i)

/-- Of integers that 64 bits hold, those that are long are too large for a sign. -/
theorem Scalar.isPlain_normal {value : Scalar} (h : ∀ i, value = .long i → Datum.FitsInteger i) :
    value.normal.IsPlain := by
  cases value with
  | long i =>
    intro j hlong
    obtain ⟨hle, hlt⟩ := h i rfl
    change ofInt i = .long j at hlong
    rw [ofInt] at hlong
    split at hlong
    · cases hlong
    · next hshort =>
      cases hlong
      unfold FitsShort at hshort
      omega
  | _ => exact isPlain_of_ne (by simp [normal])

theorem Scalar.normal_of_isPlain {value : Scalar} (h : value.IsPlain) : value.normal = value := by
  cases value with
  | long i =>
    have hshort : ¬ FitsShort i := by
      have hle := (h i rfl).1
      unfold FitsShort
      omega
    rw [normal, ofInt, if_neg hshort]
  | _ => rfl

theorem Scalar.fits_of_isPlain {value : Scalar} (h : value.IsPlain) (i : ℤ)
    (hlong : value = .long i) : Datum.FitsInteger i := by
  have hrange := h i hlong
  exact ⟨by omega, by omega⟩

/-- What becomes of a scalar is the same for values and keys. -/
theorem settles_ofScalar (value : Scalar) :
    Settles (∀ i, value = .long i → Datum.FitsInteger i) (Key.ofDatum (.ofScalar value))
        (· = .scalar value.normal) ∧
      Settles (∀ i, value = .long i → Datum.FitsInteger i) (Value.ofDatum (.ofScalar value))
        (· = .scalar value.normal) := by
  cases value with
  | long i =>
    have hiff : (∀ j, Scalar.long i = .long j → Datum.FitsInteger j) ↔ Datum.FitsInteger i := by
      simp
    rw [hiff]
    by_cases hfits : Datum.FitsInteger i
    · have hdatum : Datum.ofScalar (.long i) = .integer i := if_pos hfits
      rw [hdatum]
      exact ⟨.of_ok hfits rfl, .of_ok hfits rfl⟩
    · have hdatum : Datum.ofScalar (.long i) = .oversized := if_neg hfits
      rw [hdatum]
      exact ⟨⟨fun h => absurd h hfits, fun _ => rfl⟩, ⟨fun h => absurd h hfits, fun _ => rfl⟩⟩
  | short value =>
    have hkey : Key.ofDatum (.ofScalar (.short value)) = .ok (.scalar (.short value)) := by
      rw [Datum.ofScalar, Key.ofDatum, Scalar.ofInt_toInt]
    have hvalue : Value.ofDatum (.ofScalar (.short value)) = .ok (.scalar (.short value)) := by
      rw [Datum.ofScalar, Value.ofDatum, Scalar.ofInt_toInt]
    rw [hkey, hvalue]
    exact ⟨.of_ok (by simp) rfl, .of_ok (by simp) rfl⟩
  | _ => exact ⟨.of_ok (by simp) rfl, .of_ok (by simp) rfl⟩

/-! ## Keys -/

namespace Key

mutual

theorem datum_toValue : (key : Key) → key.toValue.datum = key.datum
  | .scalar _ => rfl
  | .tuple items => by rw [toValue, datum, Value.datum, data_toValues items]
  | .frozenSet _ => rfl

theorem data_toValues : (keys : List Key) → Value.data (toValues keys) = data keys
  | [] => rfl
  | key :: rest => by rw [toValues, data, Value.data, datum_toValue key, data_toValues rest]

end

/-- Whether keys are the normal form of some keys. -/
def AreNormal (items results : List Key) : Prop :=
  results = normals items ∧ ∀ result ∈ results, result.IsNormal

theorem settles_sequence {items : List Key} {condition : Prop}
    (h : Settles condition (ofData (data items)) (AreNormal items)) :
    Settles condition (ofDatum (.sequence (data items)))
      fun result => result = .tuple (normals items) ∧ result.IsNormal := by
  rw [ofDatum]
  refine h.map tuple ?_
  rintro results ⟨rfl, hresults⟩
  exact ⟨rfl, .tuple hresults⟩

mutual

/-- What becomes of a key as a key. -/
theorem settles : (key : Key) → Settles key.toValue.Fits (ofDatum key.datum)
    fun result => result = key.normal ∧ result.IsNormal
  | .scalar value => by
    refine ((settles_ofScalar value).1.iff Value.fits_scalar_iff).imp ?_
    rintro hfits _ rfl
    exact ⟨rfl, .scalar (Scalar.isPlain_normal (Value.fits_scalar_iff.1 hfits))⟩
  | .tuple items => by
    rw [toValue]
    exact (settles_sequence (settles_all items)).iff (Value.fits_iff_parts (by simp))
  | .frozenSet items => by
    rw [toValue]
    exact (settles_sequence (settles_all items)).iff (Value.fits_iff_parts (by simp))

theorem settles_all : (keys : List Key) →
    Settles (∀ part ∈ toValues keys, part.Fits) (ofData (data keys)) (AreNormal keys)
  | [] => .of_ok (by simp [toValues]) ⟨rfl, by simp⟩
  | key :: rest => by
    refine ((settles key).bind fun first hfirst => (settles_all rest).map (first :: ·) ?_).iff
      List.forall_mem_cons
    rintro others ⟨rfl, hothers⟩
    exact ⟨by rw [hfirst.1, normals], List.forall_mem_cons.2 ⟨hfirst.2, hothers⟩⟩

end

mutual

theorem all_normal {good : Scalar → Prop} (h : ∀ value, good value → good value.normal) :
    (key : Key) → key.All good → key.normal.All good
  | .scalar value, hkey => h value hkey
  | .tuple items, hkey => allItems_normals h items hkey
  | .frozenSet items, hkey => allItems_normals h items hkey

theorem allItems_normals {good : Scalar → Prop} (h : ∀ value, good value → good value.normal) :
    (keys : List Key) → AllItems good keys → AllItems good (normals keys)
  | [], _ => trivial
  | key :: rest, hkeys => ⟨all_normal h key hkeys.1, allItems_normals h rest hkeys.2⟩

end

theorem isFloatFree_normal {key : Key} (h : key.IsFloatFree) : key.normal.IsFloatFree := by
  refine all_normal (fun value hvalue => ?_) key h
  cases value with
  | long i =>
    change ∀ x, Scalar.ofInt i ≠ .float x
    rw [Scalar.ofInt]
    split
    · simp
    · simp
  | _ => exact hvalue

theorem ofData_of_forall {items : List Key} (h : ∀ item ∈ items, ofDatum item.datum = .ok item) :
    ofData (data items) = .ok items := by
  induction items with
  | nil => rfl
  | cons item rest ih =>
    obtain ⟨hitem, hrest⟩ := List.forall_mem_cons.1 h
    rw [data, ofData, hitem, ih hrest]
    rfl

/-- A normal key is its own normal form. -/
theorem ofDatum_of_isNormal {key : Key} (h : key.IsNormal) : ofDatum key.datum = .ok key := by
  induction h with
  | @scalar value h =>
    obtain ⟨_, hkey, rfl⟩ := (settles_ofScalar value).1.ok (Scalar.fits_of_isPlain h)
    rw [Scalar.normal_of_isPlain h] at hkey
    exact hkey
  | tuple _ ih =>
    rw [datum, ofDatum, ofData_of_forall ih]
    rfl

end Key

/-! ## Values -/

namespace Value

theorem ofData_data (items : List Value) : ofData (data items) = items.mapM normalize := by
  induction items with
  | nil => rfl
  | cons item rest ih =>
    rw [data, ofData, ih, List.mapM_cons]
    rfl

/-- A pair as a key and a value that are made of what the pair shows of itself. -/
def normalizePair (pair : Key × Value) : Except Mismatch (Key × Value) := do
  let key ← Key.ofDatum pair.1.datum
  let value ← pair.2.normalize
  return (key, value)

theorem ofPairs_pairData (pairs : List (Key × Value)) :
    ofPairs (pairData pairs) = pairs.mapM normalizePair := by
  induction pairs with
  | nil => rfl
  | cons pair rest ih =>
    obtain ⟨key, value⟩ := pair
    rw [pairData, ofPairs, ih, List.mapM_cons, normalizePair]
    simp only [bind_assoc, pure_bind]
    rfl

/-- What a value is expected to become. -/
def IsNormalOf (value result : Value) : Prop := HasCounterpart value result ∧ result.IsNormal

theorem settles_atom (atom : Atom) :
    Settles (Fits (.atom atom)) (normalize (.atom atom)) (IsNormalOf (.atom atom)) := by
  have hother : (∀ scalar, atom ≠ .scalar scalar) → Fits (.atom atom) := fun hnot =>
    (fits_iff_parts fun i heq => hnot _ (Value.atom.inj heq)).2 (by simp [shownParts, parts])
  cases atom with
  | scalar scalar =>
    refine ((settles_ofScalar scalar).2.iff fits_scalar_iff).imp ?_
    rintro hfits _ rfl
    exact ⟨.scalar scalar, .scalar (Scalar.isPlain_normal (fits_scalar_iff.1 hfits))⟩
  | byteArray array =>
    exact .of_ok (hother (by simp)) ⟨.byteArray array, .scalar (Scalar.isPlain_of_ne (by simp))⟩
  | class_ name =>
    exact .of_ok (hother (by simp)) ⟨.class_ name, .scalar (Scalar.isPlain_of_ne (by simp))⟩
  | callable callable =>
    exact .of_ok (hother (by simp)) ⟨.callable callable, .scalar (Scalar.isPlain_of_ne (by simp))⟩

/-- A value settles if it shows itself as a sequence of items and these settle. -/
theorem settles_items {value : Value} {items : List Value}
    (h : ∀ item ∈ items, Settles item.Fits item.normalize item.IsNormalOf)
    (hlist : ∀ {results}, List.Forall₂ HasCounterpart items results →
      value.HasCounterpart (.list results)) :
    Settles (∀ item ∈ items, item.Fits) (ofDatum (.sequence (data items))) value.IsNormalOf := by
  rw [ofDatum, ofData_data]
  refine (Settles.mapM h).map list fun results hresults => ⟨hlist ?_, .list ?_⟩
  · exact hresults.imp fun _ _ => And.left
  · exact forall_of_forall₂ hresults fun _ _ => And.right

/-- A map that results from normal keys and values is normal. -/
theorem IsNormal.of_isMapOf {pairs map : List (Key × Value)}
    (hmap : Ordered.IsMapOf Key.Less Key.Equals pairs map)
    (hkeys : ∀ pair ∈ pairs, pair.1.IsNormal ∧ pair.1.IsFloatFree)
    (hvalues : ∀ pair ∈ pairs, pair.2.IsNormal) : IsNormal (.dict map) := by
  have hkey : ∀ entry ∈ map, entry.1.IsNormal ∧ entry.1.IsFloatFree := by
    intro entry hentry
    obtain ⟨before, value, after, rfl, -⟩ := hmap.firstKey entry hentry
    exact hkeys (entry.1, value) (by simp)
  have hvalue : ∀ entry ∈ map, entry.2.IsNormal := by
    intro entry hentry
    obtain ⟨before, key, after, rfl, -⟩ := hmap.lastValue entry hentry
    exact hvalues (key, entry.2) (by simp)
  refine .dict (fun entry hentry => (hkey entry hentry).1) hvalue ⟨?_, ?_⟩
  · rintro key hmem
    obtain ⟨entry, hentry, rfl⟩ := List.mem_map.1 hmem
    exact (hkey entry hentry).2
  · exact List.pairwise_map.2 hmap.ascending

/-- A value settles if it shows itself as pairs and these settle. -/
theorem settles_pairs {value : Value} {pairs : List (Key × Value)}
    (h : ∀ part ∈ pairParts pairs, Settles part.Fits part.normalize part.IsNormalOf)
    (hfree : ∀ key ∈ pairs.map Prod.fst, key.IsFloatFree)
    (hdict : ∀ {pairs' map : List (Key × Value)},
      pairs'.map Prod.fst = pairs.map (fun pair => pair.1.normal) →
      List.Forall₂ HasCounterpart (pairs.map Prod.snd) (pairs'.map Prod.snd) →
      Ordered.IsMapOf Key.Less Key.Equals pairs' map → value.HasCounterpart (.dict map)) :
    Settles (∀ part ∈ pairParts pairs, part.Fits) (ofDatum (.mapping (pairData pairs)))
      value.IsNormalOf := by
  have hpair : ∀ pair ∈ pairs, Settles (pair.1.toValue.Fits ∧ pair.2.Fits) (normalizePair pair)
      fun result => (result.1 = pair.1.normal ∧ result.1.IsNormal) ∧ pair.2.IsNormalOf result.2 :=
    fun pair hmem => (Key.settles pair.1).bind fun key hkey =>
      (forall_mem_pairParts.1 h pair hmem).2.map (key, ·) fun value hvalue => ⟨hkey, hvalue⟩
  rw [ofDatum, ofPairs_pairData]
  refine ((Settles.mapM hpair).map (fun pairs' => dict (Key.mapOf pairs')) ?_).iff
    forall_mem_pairParts
  intro pairs' hpairs
  have hkeys : pairs'.map Prod.fst = pairs.map fun pair => pair.1.normal := by
    have hsame : List.Forall₂ Eq (pairs.map fun pair => pair.1.normal) (pairs'.map Prod.fst) := by
      rw [List.forall₂_map_left_iff, List.forall₂_map_right_iff]
      exact hpairs.imp fun _ _ hrelated => hrelated.1.1.symm
    rw [List.forall₂_eq_eq_eq] at hsame
    exact hsame.symm
  have hvalues : List.Forall₂ HasCounterpart (pairs.map Prod.snd) (pairs'.map Prod.snd) := by
    rw [List.forall₂_map_left_iff, List.forall₂_map_right_iff]
    exact hpairs.imp fun _ _ hrelated => hrelated.2.1
  -- No float comes into a key when it is made normal, so its order stays a total one.
  have hfree' : ∀ pair ∈ pairs', pair.1.IsFloatFree := by
    intro pair hmem
    have hkey : pair.1 ∈ pairs.map fun pair => pair.1.normal := hkeys ▸ List.mem_map_of_mem hmem
    obtain ⟨old, hold, heq⟩ := List.mem_map.1 hkey
    rw [← heq]
    exact Key.isFloatFree_normal (hfree old.1 (List.mem_map_of_mem hold))
  have hmap := Key.isMapOf_mapOf hfree'
  refine ⟨hdict hkeys hvalues hmap, .of_isMapOf hmap ?_ ?_⟩
  · exact fun pair hmem =>
      ⟨forall_of_forall₂ hpairs (fun _ _ hrelated => hrelated.1.2) pair hmem, hfree' pair hmem⟩
  · exact forall_of_forall₂ hpairs fun _ _ hrelated => hrelated.2.2

/-- Values settle: they have a normal form just if 64 bits hold all integers in sight. -/
theorem settles (value : Value) (hfree : value.HasFloatFreeMaps) :
    Settles value.Fits value.normalize value.IsNormalOf := by
  induction value using induction_parts with
  | step value ih =>
  obtain ⟨hkeys, hinside⟩ := hasFloatFreeMaps_iff.1 hfree
  have hparts : ∀ part ∈ value.shownParts, Settles part.Fits part.normalize part.IsNormalOf :=
    fun part hpart => ih part (mem_parts_of_mem_shownParts hpart) (hinside part hpart)
  clear ih hfree
  cases value with
  | atom atom => exact settles_atom atom
  | list items => exact (settles_items hparts .list).iff (fits_iff_parts (by simp))
  | tuple items => exact (settles_items hparts .tuple).iff (fits_iff_parts (by simp))
  | set items =>
    rw [normalize, datum, ← Key.data_toValues]
    exact (settles_items hparts .set).iff (fits_iff_parts (by simp))
  | frozenSet items =>
    rw [normalize, datum, ← Key.data_toValues]
    exact (settles_items hparts .frozenSet).iff (fits_iff_parts (by simp))
  | dict pairs => exact (settles_pairs hparts hkeys .dict).iff (fits_iff_parts (by simp))
  | object value => exact (settles_pairs hparts hkeys .object).iff (fits_iff_parts (by simp))

theorem mapM_eq_of_forall {α : Type} {items : List α} {action : α → Except Mismatch α}
    (h : ∀ item ∈ items, action item = .ok item) : items.mapM action = .ok items := by
  induction items with
  | nil => rfl
  | cons item rest ih =>
    obtain ⟨hitem, hrest⟩ := List.forall_mem_cons.1 h
    rw [List.mapM_cons, hitem, ih hrest]
    rfl

/-- A normal value is its own normal form. -/
theorem normalize_of_isNormal {value : Value} (h : value.IsNormal) :
    value.normalize = .ok value := by
  induction h with
  | @scalar scalar h =>
    obtain ⟨_, hvalue, rfl⟩ := (settles_ofScalar scalar).2.ok (Scalar.fits_of_isPlain h)
    rw [Scalar.normal_of_isPlain h] at hvalue
    exact hvalue
  | list _ ih =>
    rw [normalize, datum, ofDatum, ofData_data, mapM_eq_of_forall ih]
    rfl
  | @dict map hkeys _ hascend ih =>
    have hpair : ∀ pair ∈ map, normalizePair pair = .ok pair := by
      intro pair hmem
      rw [normalizePair, Key.ofDatum_of_isNormal (hkeys pair hmem), ih pair hmem]
      rfl
    rw [normalize, datum, ofDatum, ofPairs_pairData, mapM_eq_of_forall hpair]
    show Except.ok (dict (Key.mapOf map)) = .ok (dict map)
    rw [Key.mapOf_eq_self hascend]

/-- Making a value of what a value shows of itself is a normalization.

It fails just if the value shows an integer beyond 64 bits, and in one way.  Otherwise every part
becomes its counterpart, the result is normal, and it is made of what itself shows. -/
theorem normalize_spec (value : Value) (hfree : value.HasFloatFreeMaps) :
    (∀ fault, value.normalize = .error fault ↔
      fault = .tooLarge ∧ ∃ i, value.Shows (.scalar (.long i)) ∧ (i < -2 ^ 63 ∨ 2 ^ 64 ≤ i)) ∧
    ∀ result, value.normalize = .ok result →
      value.HasCounterpart result ∧ result.IsNormal ∧ result.normalize = .ok result := by
  have hfits : ¬ value.Fits ↔
      ∃ i, value.Shows (.scalar (.long i)) ∧ (i < -2 ^ 63 ∨ 2 ^ 64 ≤ i) := by
    simp only [Fits, Datum.FitsInteger, not_forall, exists_prop, not_and_or, not_le, not_lt]
    constructor
    · rintro ⟨_, hshows, i, rfl, hrange⟩
      exact ⟨i, hshows, hrange⟩
    · rintro ⟨i, hshows, hrange⟩
      exact ⟨_, hshows, i, rfl, hrange⟩
  have hsettles := settles value hfree
  rw [← hfits]
  by_cases hcondition : value.Fits
  · obtain ⟨normal, hnormal, hexpected⟩ := hsettles.ok hcondition
    rw [hnormal]
    refine ⟨fun fault => iff_of_false (by simp) fun h => h.2 hcondition, ?_⟩
    rintro result ⟨⟩
    exact ⟨hexpected.1, hexpected.2, normalize_of_isNormal hexpected.2⟩
  · rw [hsettles.error hcondition]
    refine ⟨fun fault => ?_, (by simp)⟩
    rw [Except.error.injEq, and_iff_left hcondition]
    exact eq_comm

/-- An instance with an integer beyond 64 bits among its arguments and a dict as an attribute, two
keys of which become equal; and the same dict with such an integer in a key. -/
theorem normalize_spec_instance :
    let one : Key := .frozenSet [.scalar (.short 1)]
    let dict (key : Key) : Value :=
      .dict [(one, .scalar (.short 7)), (key, .set [.scalar (.long 5)])]
    let object (key : Key) : Value := .object
      ⟨⟨"m", "C"⟩, [.scalar (.long (2 ^ 64))], [], [(.scalar (.str "a"), dict key)], .none⟩
    let result : Value := .dict
      [(.scalar (.str "a"), .dict [(.tuple [.scalar (.short 1)], .list [.scalar (.short 5)])])]
    (object (.tuple [.scalar (.bool true)])).normalize = .ok result ∧
      (object (.tuple [.scalar (.bool true)])).HasCounterpart result ∧ result.IsNormal ∧
      result.normalize = .ok result ∧
      (object (.tuple [.scalar (.long (2 ^ 64))])).normalize = .error .tooLarge := by
  intro one dict object result
  have hatom : ∀ scalar, HasFloatFreeMaps (.scalar scalar) := fun scalar =>
    hasFloatFreeMaps_iff.2 ⟨by simp [mapKeys], by simp [shownParts, parts]⟩
  have hkey : ∀ scalar, HasFloatFreeMaps (Key.tuple [.scalar scalar]).toValue := fun scalar =>
    hasFloatFreeMaps_iff.2 ⟨by simp [mapKeys, Key.toValue], by
      simp [shownParts, parts, Key.toValue, Key.toValues, hatom]⟩
  have hone : one.toValue.HasFloatFreeMaps := hasFloatFreeMaps_iff.2
    ⟨by simp [one, mapKeys, Key.toValue], by
      simp [one, shownParts, parts, Key.toValue, Key.toValues, hatom]⟩
  have hset : HasFloatFreeMaps (.set [.scalar (.long 5)]) := hasFloatFreeMaps_iff.2
    ⟨by simp [mapKeys], by simp [shownParts, parts, Key.toValue, Key.toValues, hatom]⟩
  have hfree : ∀ scalar, (∀ value, scalar ≠ .float value) →
      (object (.tuple [.scalar scalar])).HasFloatFreeMaps := by
    intro scalar hscalar
    have hdict : (dict (.tuple [.scalar scalar])).HasFloatFreeMaps := by
      refine hasFloatFreeMaps_iff.2 ⟨?_, ?_⟩
      · simp [dict, one, mapKeys, Key.IsFloatFree, Key.All, Key.AllItems, hscalar]
      · simp [dict, shownParts, parts, pairParts, hone, hatom, hkey, hset]
    refine hasFloatFreeMaps_iff.2 ⟨?_, ?_⟩
    · simp [object, mapKeys, Key.IsFloatFree, Key.All]
    · simp [object, shownParts, pairParts, Key.toValue, hatom, hdict]
  have hok : (object (.tuple [.scalar (.bool true)])).normalize = .ok result := by rfl
  have hshows : (object (.tuple [.scalar (.long (2 ^ 64))])).Shows (.scalar (.long (2 ^ 64))) := by
    have hinKey : (Key.tuple [.scalar (.long (2 ^ 64))]).toValue.Shows (.scalar (.long (2 ^ 64))) :=
      .inside (by simp [shownParts, parts, Key.toValue, Key.toValues]) (.here _)
    have hinDict : (dict (.tuple [.scalar (.long (2 ^ 64))])).Shows (.scalar (.long (2 ^ 64))) :=
      .inside (by simp [dict, shownParts, parts, pairParts]) hinKey
    exact .inside (by simp [object, shownParts, pairParts]) hinDict
  obtain ⟨hcounterpart, hnormal, hfixed⟩ :=
    (normalize_spec _ (hfree (.bool true) (by simp))).2 result hok
  refine ⟨hok, hcounterpart, hnormal, hfixed, ?_⟩
  exact ((normalize_spec _ (hfree (.long (2 ^ 64)) (by simp))).1 .tooLarge).2
    ⟨rfl, 2 ^ 64, hshows, .inr le_rfl⟩

end Value

end Pickle
