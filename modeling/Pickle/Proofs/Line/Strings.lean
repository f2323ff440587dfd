import Mathlib.Data.List.Forall2
import Pickle.Line.Escape
import Pickle.Proofs.Line.Integers

/-!
# Canonical spellings of strings and texts are read back

The spelling of a byte or of a character is one item, whatever comes after it: a printable byte that
stands for itself, or a backslash with a letter and as many hexadecimal digits as the letter demands.
From this alone a sequence of items is read back, `takeItems_flatMap`, and nothing in a sequence
depends on how far the reader has come.
-/

namespace Pickle.Utf8

theorem decode_encode (text : String) : decode (encode text) = some text := by
  have hvalid : text.toUTF8.IsValidUTF8 := text.isValidUTF8
  show (if h : text.toUTF8.IsValidUTF8 then some (String.fromUTF8 text.toUTF8 h) else none) =
    some text
  rw [dif_pos hvalid]
  rfl

theorem encode_of_decode {bytes : Bytes} {text : String} (h : decode bytes = some text) :
    encode text = bytes := by
  unfold decode String.fromUTF8? at h
  split at h
  · cases h
    rfl
  · cases h

theorem length_encode (text : String) : (encode text).length = text.utf8ByteSize := rfl

end Pickle.Utf8

namespace Pickle.Line

/-! ## Hexadecimal digits -/

theorem toNat_digitChar_mod (n : ℕ) :
    (UInt8.ofNat (Nat.digitChar (n % 16)).toNat).toNat = (Nat.digitChar (n % 16)).toNat ∧
      hexDigit? (UInt8.ofNat (Nat.digitChar (n % 16)).toNat) = some (n % 16) ∧
        0x20 ≤ (Nat.digitChar (n % 16)).toNat := by
  have hlt : n % 16 < 16 := Nat.mod_lt n (by decide)
  generalize n % 16 = digit at hlt
  revert digit
  decide

@[simp] theorem length_hexDigits (count n : ℕ) : (hexDigits count n).length = count := by
  induction count generalizing n with
  | zero => rfl
  | succ count ih => rw [hexDigits, List.length_append, ih, List.length_singleton]

theorem isPrintable_hexDigits (count n : ℕ) : IsPrintable (hexDigits count n) := by
  induction count generalizing n with
  | zero => exact IsPrintable.nil
  | succ count ih =>
    obtain ⟨htoNat, -, hle⟩ := toNat_digitChar_mod n
    rw [hexDigits, IsPrintable.append, IsPrintable.cons, htoNat]
    exact ⟨ih _, hle, IsPrintable.nil⟩

theorem hexValue?_hexDigits {count n : ℕ} (h : n < 16 ^ count) :
    hexValue? (hexDigits count n) = some n := by
  induction count generalizing n with
  | zero =>
    obtain rfl : n = 0 := by omega
    rfl
  | succ count ih =>
    obtain ⟨-, hdigit, -⟩ := toNat_digitChar_mod n
    have hfront : hexValue? (hexDigits count (n / 16)) = some (n / 16) :=
      ih (by rw [Nat.pow_succ] at h; omega)
    unfold hexValue? at hfront ⊢
    rw [hexDigits, List.foldlM_append, hfront]
    have hvalue : n / 16 * 16 + n % 16 = n := by omega
    simp [hdigit, hvalue]

theorem hexField?_hexDigits {count n : ℕ} (h : n < 16 ^ count) (rest : Bytes) :
    hexField? count (hexDigits count n ++ rest) = some n := by
  have htake : (hexDigits count n ++ rest).take count = hexDigits count n := by
    rw [List.take_append_of_le_length (by simp), List.take_of_length_le (by simp)]
  rw [hexField?, htake, length_hexDigits, if_pos rfl, hexValue?_hexDigits h]

/-! ## Items -/

/-- Items are taken one after another, whatever comes behind them, if each is taken whatever comes
behind it. -/
theorem takeItems_flatten_append {α : Type} {item? : UInt8 → Bytes → Except Miss (Item α)}
    {spells : Bytes → α → Prop}
    (h : ∀ ⦃piece value⦄, spells piece value → ∀ rest, ∃ byte tail, piece = byte :: tail ∧
      item? byte (tail ++ rest) = .ok ⟨value, tail.length⟩)
    {pieces : List Bytes} {values : List α} (hpieces : List.Forall₂ spells pieces values)
    (offset : ℕ) (rest : Bytes) :
    takeItems item? offset (pieces.flatten ++ rest) =
      (takeItems item? (offset + pieces.flatten.length) rest).map (values ++ ·) := by
  induction hpieces generalizing offset with
  | nil => exact (congrFun Except.map_id (takeItems item? offset rest)).symm
  | @cons _ value others _ hpiece _ ih =>
    obtain ⟨byte, tail, rfl, hitem⟩ := h hpiece (others.flatten ++ rest)
    have hoffset : offset + 1 + tail.length + others.flatten.length =
        offset + (byte :: tail ++ others.flatten).length := by
      simp only [List.length_append, List.length_cons]
      omega
    rw [List.flatten_cons, List.append_assoc, List.cons_append, takeItems, hitem]
    simp only [List.drop_left]
    rw [ih, hoffset]
    generalize takeItems item? (offset + (byte :: tail ++ others.flatten).length) rest = taken
    cases taken with
    | ok _ => rfl
    | error _ => rfl

/-- Items are read back if the spelling of each is an item whatever follows it. -/
theorem takeItems_flatMap {α : Type} {item? : UInt8 → Bytes → Except Miss (Item α)}
    {spell : α → Bytes}
    (h : ∀ value rest, ∃ byte tail, spell value = byte :: tail ∧
      item? byte (tail ++ rest) = .ok ⟨value, tail.length⟩)
    (values : List α) (offset : ℕ) :
    takeItems item? offset (values.flatMap spell) = .ok values := by
  have hpieces : List.Forall₂ (fun piece value => piece = spell value) (values.map spell) values :=
    List.forall₂_map_left_iff.2 (List.forall₂_same.2 fun _ _ => rfl)
  have htaken := takeItems_flatten_append (by rintro _ value rfl; exact h value) hpieces offset []
  rw [List.append_nil, ← List.flatMap_def, takeItems] at htaken
  rw [htaken]
  exact congrArg Except.ok (List.append_nil values)

theorem isPlain_iff {code : ℕ} :
    isPlain code = true ↔ 0x20 ≤ code ∧ code < 0x7f ∧ code ≠ 0x5c := by
  simp [isPlain, and_assoc]

theorem byteItem?_ofByte (byte : UInt8) (rest : Bytes) :
    ∃ first tail, ofByte byte = first :: tail ∧
      byteItem? first (tail ++ rest) = .ok ⟨byte, tail.length⟩ := by
  unfold ofByte
  split
  · next h =>
    rw [Bool.and_eq_true, isPlain_iff] at h
    have hne : byte ≠ 0x5c := by
      rintro rfl
      exact h.1.2.2 rfl
    refine ⟨byte, [], rfl, ?_⟩
    rw [byteItem?.eq_def, if_pos hne]
    rfl
  · refine ⟨0x5c, 0x78 :: hexDigits 2 byte.toNat, rfl, ?_⟩
    have hlt : byte.toNat < 16 ^ 2 := byte.toNat_lt
    have hfield := hexField?_hexDigits hlt rest
    rw [List.cons_append, byteItem?, if_neg (by simp)]
    simp only [hfield, UInt8.ofNat_toNat, List.length_cons, length_hexDigits]

theorem isPrintable_ofByte (byte : UInt8) : IsPrintable (ofByte byte) := by
  unfold ofByte
  split
  · next h =>
    rw [Bool.and_eq_true, isPlain_iff] at h
    exact IsPrintable.cons.2 ⟨h.1.1, IsPrintable.nil⟩
  · rw [IsPrintable.cons, IsPrintable.cons]
    exact ⟨by decide, by decide, isPrintable_hexDigits 2 _⟩

/-- The argument of `STRING` is read back. -/
theorem readQuoted_ofBytes (bytes : Bytes) : readQuoted (ofBytes bytes) = .ok bytes := by
  have hquoted : ((0x27 : UInt8) = 0x27 ∨ (0x27 : UInt8) = 0x22) ∧
      (bytes.flatMap ofByte ++ [0x27]).getLast? = some 0x27 :=
    ⟨.inl rfl, List.getLast?_concat⟩
  rw [ofBytes, List.cons_append, readQuoted, if_pos hquoted, List.dropLast_concat, unescapeBytes]
  exact takeItems_flatMap byteItem?_ofByte bytes 1

theorem isPrintable_ofBytes (bytes : Bytes) : IsPrintable (ofBytes bytes) := by
  rw [ofBytes, IsPrintable.append, IsPrintable.cons, IsPrintable.cons]
  exact ⟨⟨by decide, .flatMap isPrintable_ofByte bytes⟩, by decide, IsPrintable.nil⟩

theorem scalar?_toNat (c : Char) : scalar? c.toNat = some c := by
  have hvalid : c.toNat.isValidChar := c.valid
  rw [scalar?, dif_pos hvalid]
  rfl

/-- An escape of as many digits as its letter demands is the character of its code point. -/
theorem charItem?_escape {letter : UInt8} {width : ℕ} (hwidth : escapeWidth? letter = some width)
    {c : Char} (h : c.toNat < 16 ^ width) (rest : Bytes) :
    charItem? 0x5c (letter :: hexDigits width c.toNat ++ rest) = .ok ⟨c, width + 1⟩ := by
  have hletter : letter ≠ 0x5c := by
    rintro rfl
    cases hwidth
  rw [List.cons_append, charItem?, if_neg (by simp)]
  simp only [if_neg hletter, hwidth, hexField?_hexDigits h, Option.bind_some, scalar?_toNat]

theorem charItem?_ofChar (c : Char) (rest : Bytes) :
    ∃ first tail, ofChar c = first :: tail ∧
      charItem? first (tail ++ rest) = .ok ⟨c, tail.length⟩ := by
  -- The three escapes differ in their letter and their width only.
  have hescape : ∀ letter width, escapeWidth? letter = some width → c.toNat < 16 ^ width →
      ∃ first tail, (0x5c :: letter :: hexDigits width c.toNat : Bytes) = first :: tail ∧
        charItem? first (tail ++ rest) = .ok ⟨c, tail.length⟩ := by
    intro letter width hwidth h
    refine ⟨0x5c, letter :: hexDigits width c.toNat, rfl, ?_⟩
    rw [charItem?_escape hwidth h, List.length_cons, length_hexDigits]
  unfold ofChar
  dsimp only
  split
  · next h =>
    rw [isPlain_iff] at h
    have hbyte : (UInt8.ofNat c.toNat).toNat = c.toNat := by
      rw [UInt8.toNat_ofNat']
      omega
    have hne : UInt8.ofNat c.toNat ≠ 0x5c := by
      intro heq
      rw [heq] at hbyte
      exact h.2.2 hbyte.symm
    refine ⟨_, [], rfl, ?_⟩
    rw [charItem?.eq_def, if_pos hne, hbyte, Char.ofNat_toNat]
    rfl
  · split
    · next h => exact hescape 0x78 2 rfl h
    · split
      · next h => exact hescape 0x75 4 rfl h
      · have hlt : c.toNat < 0x110000 := by
          have hvalid := c.valid
          rcases hvalid with h | ⟨-, h⟩
          · exact Nat.lt_trans h (by decide)
          · exact h
        exact hescape 0x55 8 rfl (Nat.lt_trans hlt (by decide))

theorem isPrintable_ofChar (c : Char) : IsPrintable (ofChar c) := by
  have hescape : ∀ (letter : UInt8) width, 0x20 ≤ letter.toNat →
      IsPrintable (0x5c :: letter :: hexDigits width c.toNat) := by
    intro letter width h
    rw [IsPrintable.cons, IsPrintable.cons]
    exact ⟨by decide, h, isPrintable_hexDigits width _⟩
  unfold ofChar
  dsimp only
  split
  · next h =>
    rw [isPlain_iff] at h
    have hbyte : (UInt8.ofNat c.toNat).toNat = c.toNat := by
      rw [UInt8.toNat_ofNat']
      omega
    rw [IsPrintable.cons, hbyte]
    exact ⟨h.1, IsPrintable.nil⟩
  · split
    · exact hescape 0x78 2 (by decide)
    · split
      · exact hescape 0x75 4 (by decide)
      · exact hescape 0x55 8 (by decide)

/-- The argument of `UNICODE` is read back. -/
theorem readEscaped_ofText (text : String) : readEscaped (ofText text) = .ok text := by
  rw [readEscaped, ofText, takeItems_flatMap charItem?_ofChar]
  show Except.ok (String.ofList text.toList) = .ok text
  rw [String.ofList_toList]

theorem isPrintable_ofText (text : String) : IsPrintable (ofText text) :=
  .flatMap isPrintable_ofChar text.toList

theorem readText_encode (text : String) : readText (Utf8.encode text) = .ok text := by
  rw [readText, Utf8.decode_encode]

end Pickle.Line
