import Mathlib
import Pickle.Proofs.Line.Strings
import Pickle.Proofs.Machine.References
import Pickle.Typed.Record

/-!
# Targets of a fixed shape

A tuple of targets, be it on its own or the data of a variant, takes as many items as there are
targets, and a variant without data takes none.  `Value.Supplies` says which items a value has to
offer, and `Value.Spells` which name and which data, if any.

Targets read what they need.  With too few items there is an error that tells how many there are,
but what is left over is never looked at: not the items behind the last target, and not the data of
a variant that takes none.  So success needs as many items as there are targets *or more*, and this
is all that it needs besides the success of each of them (`Target.fixed_shapes`).
-/

namespace Pickle

/-! ## What values supply -/

namespace Value

/-- Whether a value has these items to offer: those of a list or tuple, or the keys of a set. -/
inductive Supplies : Value → List Value → Prop
  | list (items : List Value) : Supplies (.list items) items
  | tuple (items : List Value) : Supplies (.tuple items) items
  | set (items : List Key) : Supplies (.set items) (items.map Key.toValue)
  | frozenSet (items : List Key) : Supplies (.frozenSet items) (items.map Key.toValue)

/-- Whether a value spells a variant by a name and perhaps data. -/
inductive Spells : Value → Value → Option Value → Prop
  | bare (text : String) : Spells (.str text) (.str text) .none
  | alone (name : Value) : Spells (.tuple [name]) name .none
  | pair (name data : Value) : Spells (.tuple [name, data]) name (some data)
  | entry (name : Key) (data : Value) : Spells (.dict [(name, data)]) name.toValue (some data)

/-- Whether a value shows itself as a text, or as the bytes of that text. -/
def IsName (value : Value) (text : String) : Prop :=
  value.shown = .ok (.str text) ∨ value.shown = .ok (.bytes (Utf8.encode text))

variable {value name : Value} {items : List Value}

theorem Supplies.shown (h : value.Supplies items) : value.shown = .ok (.items items) := by
  cases h <;> rfl

/-- No atom shows itself as items. -/
theorem shown_atom_ne (atom : Atom) : atom.shown ≠ .ok (.items items) := by
  cases atom with
  | scalar scalar =>
    cases scalar with
    | long i =>
      rw [Atom.shown]
      split
      · rintro ⟨⟩
      · rintro ⟨⟩
    | _ => rintro ⟨⟩
  | _ => rintro ⟨⟩

theorem supplies_of_shown (h : value.shown = .ok (.items items)) : value.Supplies items := by
  cases value with
  | atom atom => exact absurd h (shown_atom_ne atom)
  | list => cases h; exact .list _
  | tuple => cases h; exact .tuple _
  | set => cases h; exact .set _
  | frozenSet => cases h; exact .frozenSet _
  | dict => cases h
  | object => cases h

theorem spelling_eq_ok_iff {data : Option Value} :
    Target.spelling value = .ok (name, data) ↔ value.Spells name data := by
  constructor
  · intro h
    unfold Target.spelling at h
    split at h
    · cases h; exact .alone _
    · cases h; exact .pair _ _
    · cases h; exact .bare _
    · cases h; exact .entry _ _
    · cases h
  · rintro (_ | _ | _ | _)
    all_goals rfl

end Value

/-- Texts are told apart by their bytes. -/
theorem Utf8.encode_beq_encode (first second : String) :
    (encode first == encode second) = (first == second) := by
  have hinj : encode first = encode second ↔ first = second := by
    constructor
    · intro h
      have hdecoded := congrArg decode h
      rwa [decode_encode, decode_encode, Option.some.injEq] at hdecoded
    · exact congrArg encode
  rw [Bool.eq_iff_iff, beq_iff_eq, beq_iff_eq, hinj]

/-- A name is found where it stands first. -/
theorem lookUpName_eq_found_iff {names : List String} {expected : String} {value : Value}
    {index : ℕ} : lookUpName names expected value = .ok (.found index) ↔
      ∃ text, value.IsName text ∧ names.findIdx? (· == text) = some index := by
  have hfound : ∀ (unknown : String) (found : Option ℕ),
      found.elim (.unknown unknown) .found = NameLookup.found index ↔ found = some index := by
    intro unknown found
    cases found with
    | none => simp
    | some other => simp
  unfold lookUpName Value.IsName
  cases value.shown with
  | error fault => simp [bind, Except.bind]
  | ok shown =>
    cases shown with
    | str name =>
      show Except.ok _ = Except.ok _ ↔ _
      rw [Except.ok.injEq, hfound]
      simp
    -- The name is compared as bytes, which UTF-8 tells apart as it does text.
    | bytes bytes =>
      show Except.ok _ = Except.ok _ ↔ _
      rw [Except.ok.injEq, hfound]
      constructor
      · intro h
        obtain ⟨hlt, hname, -⟩ := List.findIdx?_eq_some_iff_getElem.1 h
        obtain rfl : Utf8.encode names[index] = bytes := by simpa using hname
        simp only [Utf8.encode_beq_encode] at h
        exact ⟨names[index], .inr rfl, h⟩
      · rintro ⟨text, htext, h⟩
        obtain rfl : bytes = Utf8.encode text := by simpa using htext
        simp only [Utf8.encode_beq_encode]
        exact h
    | integer number =>
      show (if _ then _ else _) = _ ↔ _
      split
      · simp [pure, Except.pure]
      · simp
    | _ => simp [bind, Except.bind]

/-! ## What targets read -/

/-- Whether a payload makes this of the data that a variant has, if any. -/
inductive Payload.Reads {α : Type} : Payload α → Option Value → α → Prop
  | nothing (value : α) (data : Option Value) : Reads (.nothing value) data value
  | data {target : Target α} {value : Value} {result : α} (h : target value = .ok result) :
      Reads (.data target) (some value) result

namespace Target

variable {α : Type}

/-- Reads the items that there are targets for. -/
def readZip (targets : List (Target α)) (items : List Value) : Except Mismatch (List α) :=
  (targets.zip items).mapM fun (target, item) => target item

/-- Parts are read one by one before it is seen that there are too few. -/
theorem parts_eq (expected : String) (index : ℕ) (targets : List (Target α))
    (items : List Value) : parts expected index targets items = (do
      let read ← readZip targets items
      if targets.length ≤ items.length then return read
      else .error (.wrongLength (index + items.length) expected)) := by
  induction targets generalizing index items with
  | nil => rfl
  | cons target targets ih =>
    cases items with
    | nil => rfl
    | cons item items =>
      have hzip : readZip (target :: targets) (item :: items) = (do
          let part ← target item
          return part :: (← readZip targets items)) := List.mapM_cons
      rw [parts, hzip]
      simp only [ih, bind_assoc, pure_bind, List.length_cons, Nat.add_le_add_iff_right,
        Nat.add_right_comm index 1, Nat.add_assoc]
      by_cases hle : targets.length ≤ items.length
      · simp only [if_pos hle, pure_bind]
      · simp only [if_neg hle]
        rfl

variable {expected expectedLength : String} {targets : List (Target α)} {value : Value}
  {items : List Value}

theorem tuple_of_supplies (h : value.Supplies items) :
    tuple expected expectedLength targets value = parts expectedLength 0 targets items := by
  rw [tuple, reading, h.shown]
  rfl

theorem exists_supplies_of_tuple {read : List α}
    (h : tuple expected expectedLength targets value = .ok read) :
    ∃ items, value.Supplies items := by
  obtain ⟨shown, hshown, hread⟩ := exists_of_bind_eq_ok h
  cases shown with
  | items items => exact ⟨items, Value.supplies_of_shown hshown⟩
  | _ => cases hread

/-- A tuple is read if there are enough items and each target reads its own. -/
theorem tuple_eq_ok_iff {read : List α} :
    tuple expected expectedLength targets value = .ok read ↔
      ∃ items, value.Supplies items ∧ targets.length ≤ items.length ∧
        List.Forall₂ (fun pair part => pair.1 pair.2 = .ok part) (targets.zip items) read := by
  constructor
  · intro h
    obtain ⟨items, hitems⟩ := exists_supplies_of_tuple h
    rw [tuple_of_supplies hitems, parts_eq] at h
    obtain ⟨found, hfound, hlength⟩ := exists_of_bind_eq_ok h
    split at hlength
    · next hle =>
      cases hlength
      exact ⟨items, hitems, hle, mapM_eq_ok_iff.1 hfound⟩
    · cases hlength
  · rintro ⟨items, hitems, hle, hread⟩
    have hzip : readZip targets items = .ok read := mapM_eq_ok_iff.2 hread
    rw [tuple_of_supplies hitems, parts_eq, hzip]
    exact if_pos hle

/-- With too few items, if nothing is wrong with these, the error tells how many there are. -/
theorem tuple_of_few {read : List α} (h : value.Supplies items)
    (hfew : items.length < targets.length)
    (hread : List.Forall₂ (fun pair part => pair.1 pair.2 = .ok part) (targets.zip items) read) :
    tuple expected expectedLength targets value =
      .error (.wrongLength items.length expectedLength) := by
  have hzip : readZip targets items = .ok read := mapM_eq_ok_iff.2 hread
  rw [tuple_of_supplies h, parts_eq, hzip, Nat.zero_add]
  exact if_neg hfew.not_ge

/-- What is left over makes no difference, neither to what is read nor to an error. -/
theorem tuple_append {other : Value} {surplus : List Value} (h : value.Supplies (items ++ surplus))
    (hother : other.Supplies items) (hlength : targets.length ≤ items.length) :
    tuple expected expectedLength targets value =
      tuple expected expectedLength targets other := by
  have hmore : targets.length ≤ (items ++ surplus).length :=
    hlength.trans (List.length_append ▸ Nat.le_add_right _ _)
  have htake : targets.zip items = _ := List.zip_eq_zip_take_min
  have hzip : targets.zip (items ++ surplus) = _ := List.zip_eq_zip_take_min
  rw [Nat.min_eq_left hlength] at htake
  rw [Nat.min_eq_left hmore, List.take_append_of_le_length hlength, ← htake] at hzip
  rw [tuple_of_supplies h, tuple_of_supplies hother, parts_eq, parts_eq, readZip, hzip, readZip]
  simp only [if_pos hmore, if_pos hlength]

theorem record_of_supplies {fields : List (Field α)} (h : value.Supplies items) :
    record expected fields value =
      tuple expected (withElements expected fields.length) (fields.map Field.target) value := by
  rw [tuple_of_supplies h, record, reading, h.shown]
  rfl

/-- Once the variant is found, its payload reads the data. -/
theorem variant_of_found {variants : List (Variant α)} {name : Value} {data : Option Value}
    {index : ℕ} {found : Variant α} {result : α} (hspells : value.Spells name data)
    (hlookup : lookUpName (variants.map Variant.name) "variant identifier" name =
      .ok (.found index)) (hfound : variants[index]? = some found) :
    variant variants value = .ok result ↔ found.payload.Reads data result := by
  obtain ⟨label, payload⟩ := found
  unfold variant
  simp only [Value.spelling_eq_ok_iff.2 hspells, hlookup, hfound, bind, Except.bind]
  constructor
  · intro h
    cases payload with
    | nothing value =>
      cases h
      exact .nothing _ _
    | data target =>
      cases data with
      | none => cases h
      | some data => exact .data h
  · intro h
    cases h with
    | nothing => rfl
    | data h => exact h

/-- The variant of a name is the one whose name is found. -/
theorem find?_eq_getElem? {variants : List (Variant α)} {text : String} {index : ℕ}
    (h : (variants.map Variant.name).findIdx? (· == text) = some index) :
    variants.find? (·.name == text) = variants[index]? := by
  rw [List.findIdx?_map] at h
  have hindex : variants.findIdx? (·.name == text) = some index := h
  rw [List.find?_eq_bind_findIdx?_getElem?, hindex, Option.bind_some]

/-- A variant is read if the value spells it by its name and the payload reads the data. -/
theorem variant_eq_ok_iff {variants : List (Variant α)} {result : α} :
    variant variants value = .ok result ↔
      ∃ name data text found, value.Spells name data ∧ name.IsName text ∧
        variants.find? (·.name == text) = some found ∧ found.payload.Reads data result := by
  constructor
  · intro h
    obtain ⟨⟨name, data⟩, hspelling, hrest⟩ := exists_of_bind_eq_ok h
    obtain ⟨lookup, hlookup, hrest⟩ := exists_of_bind_eq_ok hrest
    cases lookup with
    | found index =>
      obtain ⟨text, htext, hindex⟩ := lookUpName_eq_found_iff.1 hlookup
      have hspells := Value.spelling_eq_ok_iff.1 hspelling
      cases hfound : variants[index]? with
      | none =>
        simp only [hfound] at hrest
        cases hrest
      | some found =>
        exact ⟨name, data, text, found, hspells, htext, (find?_eq_getElem? hindex).trans hfound,
          (variant_of_found hspells hlookup hfound).1 h⟩
    | _ => cases hrest
  · rintro ⟨name, data, text, found, hspells, htext, hfound, hreads⟩
    obtain ⟨index, hindex⟩ : ∃ index,
        (variants.map Variant.name).findIdx? (· == text) = some index := by
      rw [List.find?_eq_bind_findIdx?_getElem?] at hfound
      obtain ⟨index, hindex, -⟩ := Option.bind_eq_some_iff.1 hfound
      exact ⟨index, List.findIdx?_map.trans hindex⟩
    exact (variant_of_found hspells (lookUpName_eq_found_iff.2 ⟨text, htext, hindex⟩)
      ((find?_eq_getElem? hindex).symm.trans hfound)).2 hreads

/-- Targets of a fixed shape need all of their items, and leave others alone.

A tuple is read just if the value supplies as many items as there are targets, or more, and each
target reads its own.  If there are fewer, and these are read, the error tells their number.  Items
beyond the last target make no difference to what comes out, be it a result or an error.  A record
reads items in the same way.

A variant is read just if the value spells it by its name and its payload reads the data: a target
needs data to read, but a variant that carries nothing is read whatever the data. -/
theorem fixed_shapes {β : Type} (expected expectedLength : String) (targets : List (Target α))
    (fields : List (Field α)) (variants : List (Variant β)) (value : Value) :
    (∀ read, tuple expected expectedLength targets value = .ok read ↔
      ∃ items, value.Supplies items ∧ targets.length ≤ items.length ∧
        List.Forall₂ (fun pair part => pair.1 pair.2 = .ok part) (targets.zip items) read) ∧
    (∀ items read, value.Supplies items → items.length < targets.length →
      List.Forall₂ (fun pair part => pair.1 pair.2 = .ok part) (targets.zip items) read →
        tuple expected expectedLength targets value =
          .error (.wrongLength items.length expectedLength)) ∧
    (∀ items surplus other, value.Supplies (items ++ surplus) → other.Supplies items →
      targets.length ≤ items.length →
        tuple expected expectedLength targets value =
          tuple expected expectedLength targets other) ∧
    (∀ items, value.Supplies items → record expected fields value =
      tuple expected (withElements expected fields.length) (fields.map Field.target) value) ∧
    ∀ result, variant variants value = .ok result ↔
      ∃ name data text found, value.Spells name data ∧ name.IsName text ∧
        variants.find? (·.name == text) = some found ∧ found.payload.Reads data result :=
  ⟨fun _ => tuple_eq_ok_iff, fun _ _ => tuple_of_few, fun _ _ _ => tuple_append,
    fun _ => record_of_supplies, fun _ => variant_eq_ok_iff⟩

/-- Pairs of an integer and a text out of too short a tuple, and out of a set with another text; and
a variant without data whose name is spelt in bytes, with data. -/
theorem fixed_shapes_pair :
    let i64 : Target Scalar := .map .ofInt (.integer "i64" (-2 ^ 63) (2 ^ 63 - 1))
    let pair : Target (List Scalar) :=
      tuple "a tuple of size 2" "a tuple of size 2" [i64, .map .str .str]
    let animal : Target (List Scalar) := .variant [⟨"Dog", .nothing []⟩, ⟨"Pair", .data pair⟩]
    pair (.tuple [.scalar (.short 7)]) = .error (.wrongLength 1 "a tuple of size 2") ∧
      pair (.set [.scalar (.short 7), .scalar (.str "a"), .scalar (.str "b")]) =
        pair (.list [.scalar (.short 7), .str "a"]) ∧
      pair (.list [.scalar (.short 7), .str "a"]) = .ok [.short 7, .str "a"] ∧
      animal (.tuple [.bytes (Utf8.encode "Dog"), .scalar (.short 7)]) = .ok [] := by
  intro i64 pair animal
  have hspec := fixed_shapes "a tuple of size 2" "a tuple of size 2" [i64, .map .str .str] []
    [⟨"Dog", .nothing []⟩, ⟨"Pair", .data pair⟩]
  have hseven : i64 (.scalar (.short 7)) = .ok (.short 7) := by rfl
  have htext : Target.map Scalar.str .str (.str "a") = .ok (.str "a") := by rfl
  refine ⟨?_, ?_, ?_, ?_⟩
  · exact (hspec _).2.1 _ [.short 7] (.tuple _) (by decide) (.cons hseven .nil)
  · exact (hspec _).2.2.1 _ [.str "b"] _ (.set _) (.list _) (by decide)
  · exact ((hspec _).1 _).2 ⟨_, .list _, by decide, .cons hseven (.cons htext .nil)⟩
  · exact ((hspec _).2.2.2.2 _).2
      ⟨.bytes (Utf8.encode "Dog"), _, "Dog", _, .pair _ _, .inr rfl, rfl, .nothing _ _⟩

/-- A pair is read out of three items, whatever holds them and also as the data of a variant, and a
variant without data is read in spite of data. -/
theorem exists_surplus_left_out :
    let i64 : Target Scalar := .map .ofInt (.integer "i64" (-2 ^ 63) (2 ^ 63 - 1))
    let pair : Target (List Scalar) :=
      tuple "a tuple of size 2" "a tuple of size 2" [i64, .map .str .str]
    let animal : Target (List Scalar) := .variant [⟨"Dog", .nothing []⟩, ⟨"Pair", .data pair⟩]
    let three : List Value := [.scalar (.short 7), .str "a", .str "b"]
    pair (.list three) = .ok [.short 7, .str "a"] ∧
      pair (.tuple three) = .ok [.short 7, .str "a"] ∧
      pair (.set [.scalar (.short 7), .scalar (.str "a"), .scalar (.str "b")]) =
        .ok [.short 7, .str "a"] ∧
      animal (.tuple [.str "Pair", .list three]) = .ok [.short 7, .str "a"] ∧
      animal (.tuple [.str "Dog", .scalar (.short 5)]) = .ok [] ∧
      animal (.dict [(.scalar (.str "Dog"), .scalar (.short 5))]) = .ok [] := by
  refine ⟨?_, ?_, ?_, ?_, ?_, ?_⟩
  all_goals rfl

end Target

end Pickle
