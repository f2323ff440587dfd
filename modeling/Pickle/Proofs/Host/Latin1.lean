import Mathlib.Data.List.Forall2
import Pickle.Host.Constants
import Pickle.Proofs.Line.Escapes

/-!
# Texts that stand for bytes

Every byte is the number of a character, so bytes can be written as a text of as many characters,
`latinText`, and the encoding that takes such a text back is Latin-1.  The encoder gives back just
the bytes that the text stands for, and it stops at the first character that is no byte
(`Builtin.latin1_eq`).

Latin-1 goes by four names, in which letters may be small or capital.  `IsLatinName` says so letter
by letter, and no other name is taken for it (`Encoding.ofName?_eq_latin1_iff`).

The routines of the host that take a text and the name of an encoding are those of
`Builtin.MakesBytes`; all of them leave the text to this encoder.
-/

namespace Pickle

/-- The text whose characters have bytes as their numbers. -/
def latinText (bytes : Bytes) : String :=
  String.ofList (bytes.map fun byte => Char.ofNat byte.toNat)

/-- Whether a text is another one in which any letters have been made capital. -/
def IsCaseOf (small text : String) : Prop :=
  List.Forall₂ (fun plain c => c = plain ∨ c = plain.toUpper) small.toList text.toList

/-- The names of Latin-1, in small letters. -/
def latinNames : List String := ["latin-1", "latin1", "iso-8859-1", "iso8859-1"]

/-- Whether a text is a name of Latin-1, in any case of its letters. -/
def IsLatinName (text : String) : Prop := ∃ small ∈ latinNames, IsCaseOf small text

/-! ## Case -/

/-- A character is its own small letter, or the capital of it. -/
theorem eq_or_eq_toUpper_toLower (c : Char) : c = c.toLower ∨ c = c.toLower.toUpper := by
  by_cases hcapital : c.val ≥ 'A'.val ∧ c.val ≤ 'Z'.val
  · right
    have hlower : c.toLower.val = c.val + ('a'.val - 'A'.val) := by
      rw [Char.toLower, dif_pos hcapital]
    have hsmall : 'a'.val ≤ c.toLower.val ∧ c.toLower.val ≤ 'z'.val := by
      obtain ⟨hleast, hgreatest⟩ := hcapital
      rw [hlower]
      change (65 : UInt32) ≤ c.val at hleast
      change c.val ≤ (90 : UInt32) at hgreatest
      change (97 : UInt32) ≤ c.val + 32 ∧ c.val + 32 ≤ 122
      rw [UInt32.le_iff_toNat_le] at hleast hgreatest
      rw [UInt32.le_iff_toNat_le, UInt32.le_iff_toNat_le, UInt32.toNat_add]
      simp only [UInt32.reduceToNat] at *
      omega
    refine Char.ext ?_
    rw [Char.toUpper, dif_pos hsmall]
    change c.val = c.toLower.val + ('A'.val - 'a'.val)
    rw [hlower, UInt32.add_assoc]
    simp
  · left
    rw [Char.toLower, dif_neg hcapital]

/-- Whether all letters of a text are small, also after they were made capital and small again. -/
def IsSmall (text : String) : Prop :=
  ∀ c ∈ text.toList, c.toLower = c ∧ c.toUpper.toLower = c

theorem isSmall_of_mem_latinNames {name : String} (h : name ∈ latinNames) : IsSmall name := by
  unfold IsSmall
  simp only [latinNames, List.mem_cons, List.not_mem_nil, or_false] at h
  obtain rfl | rfl | rfl | rfl := h
  all_goals simp

/-- What a text is in small letters is seen letter by letter. -/
theorem isCaseOf_iff {small text : String} (h : IsSmall small) :
    IsCaseOf small text ↔ text.map Char.toLower = small := by
  rw [← String.toList_inj, String.toList_map, IsCaseOf]
  constructor
  · intro hcase
    have hletters : List.Forall₂ (fun plain c => c.toLower = plain) small.toList text.toList := by
      refine ((List.forall₂_and_left _ _).2 ⟨h, hcase⟩).imp ?_
      rintro plain c ⟨⟨hplain, hcapital⟩, rfl | rfl⟩
      · exact hplain
      · exact hcapital
    have hsame : List.Forall₂ Eq (text.toList.map Char.toLower) small.toList :=
      List.forall₂_map_left_iff.2 hletters.flip
    rwa [List.forall₂_eq_eq_eq] at hsame
  · intro heq
    rw [← heq, List.forall₂_map_left_iff, List.forall₂_same]
    exact fun c _ => eq_or_eq_toUpper_toLower c

theorem isLatinName_iff {name : String} :
    IsLatinName name ↔ name.map Char.toLower ∈ latinNames := by
  constructor
  · rintro ⟨small, hsmall, hcase⟩
    rwa [(isCaseOf_iff (isSmall_of_mem_latinNames hsmall)).1 hcase]
  · intro h
    exact ⟨_, h, (isCaseOf_iff (isSmall_of_mem_latinNames h)).2 rfl⟩

/-- Just the names of Latin-1 mean Latin-1. -/
theorem Encoding.ofName?_eq_latin1_iff {name : String} :
    Encoding.ofName? name = some .latin1 ↔ IsLatinName name := by
  rw [isLatinName_iff]
  constructor
  · intro h
    unfold ofName? at h
    dsimp only at h
    split at h
    · next hname => exact List.contains_iff_mem.1 hname
    · split at h
      · cases h
      · cases h
  · intro h
    have hname : ["latin-1", "latin1", "iso-8859-1", "iso8859-1"].contains
        (name.map Char.toLower) = true := List.contains_iff_mem.2 h
    exact if_pos hname

/-! ## Characters and bytes -/

namespace Builtin

/-- The encoder makes a byte of every character, up to the first one that is none. -/
theorem latin1_eq (text : String) : latin1 text =
    match text.toList.find? fun c => decide (256 ≤ c.toNat) with
    | some c => invalidArguments (.notLatin1 c)
    | none => .ok (text.toList.map fun c => UInt8.ofNat c.toNat) := by
  unfold latin1
  induction text.toList with
  | nil => rfl
  | cons c rest ih =>
    rw [List.mapM_cons, ih]
    by_cases hlow : c.toNat < 256
    · rw [if_pos hlow, List.find?_cons_of_neg (by simpa using hlow)]
      cases rest.find? fun c => decide (256 ≤ c.toNat) <;> rfl
    · rw [if_neg hlow, List.find?_cons_of_pos (by simpa using hlow)]
      rfl

theorem latin1_of_find? {text : String} {c : Char}
    (h : (text.toList.find? fun c => decide (256 ≤ c.toNat)) = some c) :
    latin1 text = invalidArguments (.notLatin1 c) := by
  rw [latin1_eq, h]

/-- The bytes that a text stands for are read back. -/
theorem latin1_latinText (bytes : Bytes) : latin1 (latinText bytes) = .ok bytes := by
  have hnone : ((latinText bytes).toList.find? fun c => decide (256 ≤ c.toNat)) = none := by
    rw [latinText, String.toList_ofList, List.find?_eq_none]
    intro c hc
    obtain ⟨byte, -, rfl⟩ := List.mem_map.1 hc
    rw [Line.toNat_charOfByte, decide_eq_true_eq]
    exact byte.toNat_lt.not_ge
  rw [latin1_eq, hnone, latinText, String.toList_ofList, List.map_map]
  refine congrArg Except.ok (List.map_id'' (fun byte => ?_) bytes)
  rw [Function.comp_apply, Line.toNat_charOfByte, UInt8.ofNat_toNat]

/-- Under a name of Latin-1, a text is encoded in Latin-1. -/
theorem encodeText_of_isLatinName {encoding : String} (h : IsLatinName encoding) (text : String) :
    encodeText text encoding = (latin1 text).map fun bytes => (bytes, .latin1) := by
  have hutf : ["utf-8", "utf8"].contains (encoding.map Char.toLower) = false := by
    have hname := isLatinName_iff.1 h
    simp only [latinNames, List.mem_cons, List.not_mem_nil, or_false] at hname
    obtain heq | heq | heq | heq := hname
    all_goals rw [heq]; decide
  rw [encodeText, hutf, Encoding.ofName?_eq_latin1_iff.2 h]
  cases latin1 text <;> rfl

/-- The constants that make bytes of a text and the name of an encoding, and what they make of the
bytes if the encoding is Latin-1. -/
inductive MakesBytes : QualifiedName → (Bytes → Atom) → Prop
  | encode : MakesBytes ⟨"_codecs", "encode"⟩ fun bytes => .scalar (.bytes bytes)
  | bytes {module : String} (h : module ∈ Constants.builtinModules) :
      MakesBytes ⟨module, "bytes"⟩ fun bytes => .scalar (.bytes bytes)
  | byteArray {module : String} (h : module ∈ Constants.builtinModules) :
      MakesBytes ⟨module, "bytearray"⟩ fun bytes => .byteArray { bytes, encoding := .latin1 }

/-- Under a name of Latin-1, these routines all come to what the encoder comes to. -/
theorem MakesBytes.exists_callable {name : QualifiedName} {make : Bytes → Atom}
    (h : MakesBytes name make) : ∃ callable,
      Constants.default.resolve name = .atom (.callable callable) ∧
        ∀ host text encoding, IsLatinName encoding →
          callable.run host [.str text, .str encoding] [] =
            (latin1 text).map fun bytes => .atom (make bytes) := by
  have hencode : ∀ (text encoding : String) (result : Bytes × Encoding → Value),
      IsLatinName encoding → (encodeText text encoding >>= fun made => pure (result made)) =
        (latin1 text).map fun bytes => result (bytes, .latin1) := by
    intro text encoding result hencoding
    rw [encodeText_of_isLatinName hencoding]
    cases latin1 text <;> rfl
  have hbytes := fun text encoding => hencode text encoding fun made => Value.bytes made.1
  cases h with
  | encode => exact ⟨_, rfl, fun _ => hbytes⟩
  | bytes hmodule =>
    simp only [Constants.builtinModules, List.mem_cons, List.not_mem_nil, or_false] at hmodule
    obtain rfl | rfl := hmodule
    all_goals exact ⟨_, rfl, fun _ => hbytes⟩
  | byteArray hmodule =>
    have hbyteArray := fun text encoding => hencode text encoding fun made =>
      Value.atom (.byteArray { bytes := made.1, encoding := made.2 })
    simp only [Constants.builtinModules, List.mem_cons, List.not_mem_nil, or_false] at hmodule
    obtain rfl | rfl := hmodule
    all_goals exact ⟨_, rfl, fun _ => hbyteArray⟩

end Builtin

end Pickle
