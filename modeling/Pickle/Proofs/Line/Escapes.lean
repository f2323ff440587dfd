import Pickle.Line.Escape
import Pickle.Proofs.Line.Faults
import Pickle.Proofs.Line.Numerals
import Pickle.Proofs.Line.Strings

/-!
# Which lines are strings and texts

The lines of `STRING` and of `UNICODE` have a grammar each, which says of single items what they
denote: `SpellsByte` and `SpellsChar`.  A body is any sequence of items (`SpellsAll`), and where
there is no next item a backslash stands (`IsStuck`), since every other byte is an item.

A reader of items is held to its grammar in three points, `ItemLaw`: what it takes is an item, every
item is taken whatever follows it, and where it takes none it names the bytes that the escape would
have had.  From these alone all that is taken and all that is refused is known, `takeItems_eq_ok`
and `takeItems_eq_error_iff`, and each of the two readers of a line is a case of them.
-/

namespace Pickle.Line

/-! ## The grammars -/

/-- The letters and marks that have a meaning behind a backslash in `STRING`, each with the byte
that it denotes. -/
def escapeLetters : List (UInt8 × UInt8) :=
  [(0x5c, 0x5c), (0x27, 0x27), (0x22, 0x22), (0x61, 0x07), (0x62, 0x08), (0x74, 0x09),
    (0x6e, 0x0a), (0x76, 0x0b), (0x66, 0x0c), (0x72, 0x0d)]

/-- The letters that hexadecimal digits follow in `STRING`, each with the number of digits. -/
def byteEscapes : List (UInt8 × ℕ) := [(0x78, 2)]

/-- The letters that hexadecimal digits follow in `UNICODE`, each with the number of digits. -/
def charEscapes : List (UInt8 × ℕ) := [(0x78, 2), (0x75, 4), (0x55, 8)]

/-- Whether an item of `STRING` denotes a byte. -/
inductive SpellsByte : Bytes → UInt8 → Prop
  /-- A byte that is no backslash denotes itself. -/
  | plain {byte : UInt8} (hplain : byte ≠ 0x5c) : SpellsByte [byte] byte
  /-- A backslash and a letter or mark. -/
  | letter {letter value : UInt8} (hletter : (letter, value) ∈ escapeLetters) :
      SpellsByte [0x5c, letter] value
  /-- A backslash, a letter, and the digits of the byte. -/
  | digits {letter value : UInt8} {width : ℕ} {digits : Bytes}
      (hletter : (letter, width) ∈ byteEscapes) (hlength : digits.length = width)
      (hvalue : SpellsHex digits value.toNat) : SpellsByte (0x5c :: letter :: digits) value

/-- Whether an item of `UNICODE` denotes a character. -/
inductive SpellsChar : Bytes → Char → Prop
  /-- A byte that is no backslash denotes the code point of its value. -/
  | plain {byte : UInt8} {c : Char} (hplain : byte ≠ 0x5c) (hvalue : c.toNat = byte.toNat) :
      SpellsChar [byte] c
  /-- Two backslashes denote one. -/
  | backslash : SpellsChar [0x5c, 0x5c] '\\'
  /-- A backslash, a letter, and the digits of the code point. -/
  | digits {letter : UInt8} {c : Char} {width : ℕ} {digits : Bytes}
      (hletter : (letter, width) ∈ charEscapes) (hlength : digits.length = width)
      (hvalue : SpellsHex digits c.toNat) : SpellsChar (0x5c :: letter :: digits) c

/-- Whether a body is a sequence of items that denote some values one by one. -/
def SpellsAll {α : Type} (spells : Bytes → α → Prop) (body : Bytes) (values : List α) : Prop :=
  ∃ pieces, List.Forall₂ spells pieces values ∧ pieces.flatten = body

/-- Whether a body is a sequence of items up to a backslash that begins none. -/
structure IsStuck {α : Type} (spells : Bytes → α → Prop) (body before after : Bytes) : Prop where
  /-- The backslash, with what comes before it and after it. -/
  split : body = before ++ 0x5c :: after
  /-- What comes before it is items. -/
  items : ∃ values, SpellsAll spells before values
  /-- No item begins at it. -/
  no_item : ∀ piece value, spells piece value → ¬ piece <+: 0x5c :: after

/-- What a backslash is followed by as far as an escape would go: a letter, and as many bytes as
the letter demands digits. -/
def escapeAt (widths : List (UInt8 × ℕ)) (after : Bytes) : Bytes :=
  after.take (1 + ((after.head?.bind fun letter => widths.lookup letter).getD 0))

/-- Whether a body stands on a line between two equal quotes. -/
def IsQuoted (line body : Bytes) : Prop :=
  ∃ quote, (quote = 0x27 ∨ quote = 0x22) ∧ line = quote :: body ++ [quote]

/-! ## Sequences of items -/

/-- A reader of single items keeps to a grammar of items, the letters of whose escapes demand some
numbers of digits. -/
structure ItemLaw {α : Type} (item? : UInt8 → Bytes → Except Miss (Item α))
    (spells : Bytes → α → Prop) (widths : List (UInt8 × ℕ)) : Prop where
  /-- What is taken is an item. -/
  sound : ∀ ⦃byte rest item⦄, item? byte rest = .ok item →
    item.tail ≤ rest.length ∧ spells (byte :: rest.take item.tail) item.value
  /-- An item is taken, whatever follows it. -/
  complete : ∀ ⦃piece value⦄, spells piece value → ∀ rest, ∃ byte tail, piece = byte :: tail ∧
    item? byte (tail ++ rest) = .ok ⟨value, tail.length⟩
  /-- What begins no item is a backslash, and the escape is named. -/
  miss : ∀ ⦃byte rest count⦄, item? byte rest = .error count →
    byte = 0x5c ∧ rest.take count = escapeAt widths rest

section Sequences

variable {α : Type} {item? : UInt8 → Bytes → Except Miss (Item α)} {spells : Bytes → α → Prop}
  {widths : List (UInt8 × ℕ)} {offset : ℕ} {body : Bytes}

theorem SpellsAll.nil : SpellsAll spells [] [] := ⟨[], .nil, rfl⟩

theorem SpellsAll.cons {piece : Bytes} {value : α} {values : List α} (hpiece : spells piece value)
    (hbody : SpellsAll spells body values) :
    SpellsAll spells (piece ++ body) (value :: values) := by
  obtain ⟨pieces, hpieces, rfl⟩ := hbody
  exact ⟨piece :: pieces, .cons hpiece hpieces, rfl⟩

/-- What is taken is a sequence of items. -/
theorem ItemLaw.spellsAll_of_takeItems (law : ItemLaw item? spells widths) {values : List α}
    (h : takeItems item? offset body = .ok values) : SpellsAll spells body values := by
  fun_induction takeItems item? offset body generalizing values with
  | case1 =>
    cases h
    exact .nil
  | case2 offset byte rest count hmiss => cases h
  | case3 offset byte rest item hitem ih =>
    obtain ⟨-, hspells⟩ := law.sound hitem
    cases hothers : takeItems item? (offset + 1 + item.tail) (rest.drop item.tail) with
    | error fault =>
      rw [hothers] at h
      cases h
    | ok others =>
      rw [hothers] at h
      cases h
      have hbody := SpellsAll.cons hspells (ih hothers)
      rwa [List.cons_append, List.take_append_drop] at hbody

/-- A sequence of items is taken, and no other body. -/
theorem ItemLaw.takeItems_eq_ok (law : ItemLaw item? spells widths) {values : List α} :
    takeItems item? offset body = .ok values ↔ SpellsAll spells body values := by
  refine ⟨law.spellsAll_of_takeItems, ?_⟩
  rintro ⟨pieces, hpieces, rfl⟩
  have htaken := takeItems_flatten_append law.complete hpieces offset []
  rw [List.append_nil, takeItems] at htaken
  rw [htaken]
  exact congrArg Except.ok (List.append_nil values)

/-- A reader takes no item where the grammar has none, and only there. -/
theorem ItemLaw.exists_miss (law : ItemLaw item? spells widths) {after : Bytes} :
    (∃ count, item? 0x5c after = .error count) ↔
      ∀ piece value, spells piece value → ¬ piece <+: 0x5c :: after := by
  constructor
  · rintro ⟨count, hmiss⟩ piece value hspells ⟨rest, hrest⟩
    obtain ⟨byte, tail, rfl, hitem⟩ := law.complete hspells rest
    obtain ⟨rfl, rfl⟩ := List.cons.inj hrest
    change item? _ (tail ++ rest) = _ at hmiss
    rw [hmiss] at hitem
    cases hitem
  · intro hnone
    cases hitem : item? 0x5c after with
    | error count => exact ⟨count, rfl⟩
    | ok item =>
      obtain ⟨-, hspells⟩ := law.sound hitem
      exact absurd ((List.prefix_cons_inj _).2 (List.take_prefix item.tail after))
        (hnone _ _ hspells)

theorem IsStuck.cons {piece before after : Bytes} {value : α} (hpiece : spells piece value)
    (h : IsStuck spells body before after) :
    IsStuck spells (piece ++ body) (piece ++ before) after := by
  obtain ⟨values, hvalues⟩ := h.items
  exact ⟨by rw [h.split, List.append_assoc], ⟨value :: values, .cons hpiece hvalues⟩, h.no_item⟩

theorem ItemLaw.isStuck_of_takeItems (law : ItemLaw item? spells widths) {fault : LineFault}
    (h : takeItems item? offset body = .error fault) :
    ∃ before after, IsStuck spells body before after ∧
      fault = ⟨.invalidEscape (escapeAt widths after), offset + before.length⟩ := by
  fun_induction takeItems item? offset body with
  | case1 => cases h
  | case2 offset byte rest count hmiss =>
    cases h
    obtain ⟨rfl, hname⟩ := law.miss hmiss
    rw [hname]
    exact ⟨[], rest, ⟨rfl, ⟨[], .nil⟩, law.exists_miss.1 ⟨count, hmiss⟩⟩, rfl⟩
  | case3 offset byte rest item hitem ih =>
    obtain ⟨hle, hspells⟩ := law.sound hitem
    cases hothers : takeItems item? (offset + 1 + item.tail) (rest.drop item.tail) with
    | ok others =>
      rw [hothers] at h
      cases h
    | error other =>
      rw [hothers] at h
      cases h
      obtain ⟨before, after, hstuck, rfl⟩ := ih hothers
      have hbody : byte :: rest = (byte :: rest.take item.tail) ++ rest.drop item.tail := by
        rw [List.cons_append, List.take_append_drop]
      have hoffset : offset + 1 + item.tail + before.length =
          offset + ((byte :: rest.take item.tail) ++ before).length := by
        simp only [List.length_append, List.length_cons, List.length_take]
        omega
      rw [hbody, hoffset]
      exact ⟨_, after, hstuck.cons hspells, rfl⟩

/-- The first backslash that begins no item is where nothing more is taken. -/
theorem ItemLaw.takeItems_eq_error_iff (law : ItemLaw item? spells widths) {fault : LineFault} :
    takeItems item? offset body = .error fault ↔
      ∃ before after, IsStuck spells body before after ∧
        fault = ⟨.invalidEscape (escapeAt widths after), offset + before.length⟩ := by
  refine ⟨law.isStuck_of_takeItems, ?_⟩
  rintro ⟨_, after, ⟨rfl, ⟨values, pieces, hpieces, rfl⟩, hnone⟩, rfl⟩
  obtain ⟨count, hmiss⟩ := law.exists_miss.2 hnone
  rw [takeItems_flatten_append law.complete hpieces, takeItems, hmiss]
  simp only [(law.miss hmiss).2]
  rfl

end Sequences

/-! ## Single items -/

theorem hexField?_eq_some_iff {count value : ℕ} {bytes : Bytes} :
    hexField? count bytes = some value ↔
      (bytes.take count).length = count ∧ SpellsHex (bytes.take count) value := by
  unfold hexField?
  split
  · next h => rw [hexValue?_eq_some_iff, and_iff_right h]
  · next h => exact iff_of_false (by simp) fun hvalue => h hvalue.1

/-- Digits are read whatever follows them. -/
theorem hexField?_append {digits : Bytes} {value : ℕ} (h : SpellsHex digits value) (rest : Bytes) :
    hexField? digits.length (digits ++ rest) = some value := by
  have htake : (digits ++ rest).take digits.length = digits := List.take_left
  rw [hexField?_eq_some_iff, htake]
  exact ⟨rfl, h⟩

theorem SpellsHex.lt_pow {digits : Bytes} {value : ℕ} (h : SpellsHex digits value) :
    value < 16 ^ digits.length :=
  SpellsIn.lt_pow (fun _ _ => isHexDigit_lt) h

theorem letterEscape?_eq_some_iff {letter value : UInt8} :
    letterEscape? letter = some value ↔ (letter, value) ∈ escapeLetters := by
  constructor
  · intro h
    unfold letterEscape? at h
    split at h
    all_goals cases h
    all_goals decide
  · intro h
    simp only [escapeLetters, List.mem_cons, Prod.mk.injEq, List.not_mem_nil, or_false] at h
    rcases h with ⟨rfl, rfl⟩ | ⟨rfl, rfl⟩ | ⟨rfl, rfl⟩ | ⟨rfl, rfl⟩ | ⟨rfl, rfl⟩ | ⟨rfl, rfl⟩ |
      ⟨rfl, rfl⟩ | ⟨rfl, rfl⟩ | ⟨rfl, rfl⟩ | ⟨rfl, rfl⟩
    all_goals rfl

theorem escapeAt_cons (widths : List (UInt8 × ℕ)) (letter : UInt8) (rest : Bytes) :
    escapeAt widths (letter :: rest) =
      (letter :: rest).take (1 + (widths.lookup letter).getD 0) := rfl

/-- The reader of `STRING` keeps to the grammar of its items. -/
theorem byteItem?_law : ItemLaw byteItem? SpellsByte byteEscapes where
  sound byte rest item h := by
    unfold byteItem? at h
    split at h
    · next hplain =>
      cases h
      exact ⟨Nat.zero_le _, .plain hplain⟩
    · next hbackslash =>
      obtain rfl := not_not.1 hbackslash
      split at h
      · cases h
      · next digits =>
        split at h
        · next value hfield =>
          cases h
          obtain ⟨hlength, hvalue⟩ := hexField?_eq_some_iff.1 hfield
          have hlt : value < 256 := by
            have hpow := hvalue.lt_pow
            rwa [hlength] at hpow
          refine ⟨?_, .digits (by decide) hlength ?_⟩
          · show 3 ≤ digits.length + 1
            rw [List.length_take] at hlength
            omega
          · rwa [UInt8.toNat_ofNat_of_lt' hlt]
        · cases h
      · split at h
        · next value hletter =>
          cases h
          exact ⟨Nat.le_add_left _ _, .letter (letterEscape?_eq_some_iff.1 hletter)⟩
        · cases h
  complete piece value h rest := by
    cases h with
    | plain hplain =>
      refine ⟨value, [], rfl, ?_⟩
      rw [byteItem?.eq_def, if_pos hplain]
      rfl
    | @letter letter _ hletter =>
      have hvalue := letterEscape?_eq_some_iff.2 hletter
      -- The fields with digits are tried first, and their letter stands for no byte.
      have hne : letter ≠ 0x78 := by
        rintro rfl
        cases hvalue
      refine ⟨0x5c, [letter], rfl, ?_⟩
      rw [List.singleton_append, byteItem?, if_neg (by simp)]
      · simp only [hvalue]
        rfl
      · exact hne
    | @digits letter _ width digits hletter hlength hvalue =>
      obtain ⟨rfl, rfl⟩ : letter = 0x78 ∧ width = 2 := by simpa [byteEscapes] using hletter
      refine ⟨0x5c, 0x78 :: digits, rfl, ?_⟩
      have hfield := hexField?_append hvalue rest
      rw [hlength] at hfield
      rw [List.cons_append, byteItem?, if_neg (by simp)]
      simp only [hfield, UInt8.ofNat_toNat, List.length_cons, hlength]
  miss byte rest count h := by
    refine ⟨eq_backslash_of_byteItem? h, ?_⟩
    unfold byteItem? at h
    split at h
    · cases h
    · split at h
      · cases h
        rfl
      · split at h
        · cases h
        · cases h
          rfl
      · next letter others hne =>
        split at h
        · cases h
        · cases h
          have hlookup : byteEscapes.lookup letter = none := by
            simpa [byteEscapes, List.lookup_eq_none_iff] using hne
          rw [escapeAt_cons, hlookup]
          rfl

theorem escapeWidth?_eq_some_iff {letter : UInt8} {width : ℕ} :
    escapeWidth? letter = some width ↔ (letter, width) ∈ charEscapes := by
  constructor
  · intro h
    unfold escapeWidth? at h
    split at h
    all_goals cases h
    all_goals decide
  · intro h
    simp only [charEscapes, List.mem_cons, Prod.mk.injEq, List.not_mem_nil, or_false] at h
    rcases h with ⟨rfl, rfl⟩ | ⟨rfl, rfl⟩ | ⟨rfl, rfl⟩
    all_goals rfl

theorem lookup_charEscapes (letter : UInt8) : charEscapes.lookup letter = escapeWidth? letter := by
  unfold escapeWidth?
  split
  · rfl
  · rfl
  · rfl
  · next hx hu hU =>
    rw [List.lookup_eq_none_iff]
    simpa [charEscapes] using ⟨hx, hu, hU⟩

theorem scalar?_eq_some_iff {code : ℕ} {c : Char} : scalar? code = some c ↔ c.toNat = code := by
  constructor
  · intro h
    unfold scalar? at h
    split at h
    · next hvalid =>
      cases h
      rfl
    · cases h
  · rintro rfl
    exact scalar?_toNat c

/-- Every byte is the code point of a character. -/
theorem toNat_charOfByte (byte : UInt8) : (Char.ofNat byte.toNat).toNat = byte.toNat := by
  have hvalid : byte.toNat.isValidChar := .inl (Nat.lt_trans byte.toNat_lt (by decide))
  rw [Char.toNat_ofNat, if_pos hvalid]

/-- The reader of `UNICODE` keeps to the grammar of its items. -/
theorem charItem?_law : ItemLaw charItem? SpellsChar charEscapes where
  sound byte rest item h := by
    unfold charItem? at h
    split at h
    · next hplain =>
      cases h
      exact ⟨Nat.zero_le _, .plain hplain (toNat_charOfByte byte)⟩
    · next hbackslash =>
      obtain rfl := not_not.1 hbackslash
      split at h
      · cases h
      · next letter digits =>
        split at h
        · next hletter =>
          cases h
          obtain rfl := hletter
          exact ⟨Nat.le_add_left _ _, .backslash⟩
        · split at h
          · cases h
          · next width hwidth =>
            split at h
            · next c hfield =>
              cases h
              obtain ⟨code, hcode, hscalar⟩ := Option.bind_eq_some_iff.1 hfield
              obtain ⟨hlength, hvalue⟩ := hexField?_eq_some_iff.1 hcode
              obtain rfl := scalar?_eq_some_iff.1 hscalar
              refine ⟨?_, .digits (escapeWidth?_eq_some_iff.1 hwidth) hlength hvalue⟩
              show width + 1 ≤ digits.length + 1
              rw [List.length_take] at hlength
              omega
            · cases h
  complete piece c h rest := by
    cases h with
    | @plain byte _ hplain hvalue =>
      refine ⟨byte, [], rfl, ?_⟩
      rw [charItem?.eq_def, if_pos hplain, ← hvalue, Char.ofNat_toNat]
      rfl
    | backslash => exact ⟨0x5c, [0x5c], rfl, rfl⟩
    | @digits letter _ width digits hletter hlength hvalue =>
      have hwidth := escapeWidth?_eq_some_iff.2 hletter
      -- The doubled backslash is tried before the fields with digits.
      have hne : letter ≠ 0x5c := by
        rintro rfl
        cases hwidth
      have hfield := hexField?_append hvalue rest
      rw [hlength] at hfield
      refine ⟨0x5c, letter :: digits, rfl, ?_⟩
      rw [List.cons_append, charItem?, if_neg (by simp)]
      simp only [if_neg hne, hwidth, hfield, Option.bind_some, scalar?_toNat, List.length_cons,
        hlength]
  miss byte rest count h := by
    refine ⟨eq_backslash_of_charItem? h, ?_⟩
    unfold charItem? at h
    split at h
    · cases h
    · split at h
      · cases h
        rfl
      · next letter digits =>
        rw [escapeAt_cons, lookup_charEscapes]
        split at h
        · cases h
        · split at h
          · next hwidth =>
            cases h
            rw [hwidth]
            rfl
          · next width hwidth =>
            split at h
            · cases h
            · cases h
              rw [hwidth, Option.getD_some, Nat.add_comm]

/-! ## Lines of strings -/

variable {line body : Bytes}

/-- Between quotes, items are taken from the second byte of the line on. -/
theorem readQuoted_of_isQuoted (h : IsQuoted line body) :
    readQuoted line = takeItems byteItem? 1 body := by
  obtain ⟨quote, hquote, rfl⟩ := h
  have hquoted : (quote = 0x27 ∨ quote = 0x22) ∧ (body ++ [quote]).getLast? = some quote :=
    ⟨hquote, List.getLast?_concat⟩
  rw [List.cons_append, readQuoted, if_pos hquoted, List.dropLast_concat, unescapeBytes]

theorem readQuoted_of_not_isQuoted (h : ∀ body, ¬ IsQuoted line body) :
    readQuoted line = .error ⟨.missingQuote line, 0⟩ := by
  cases line with
  | nil => rfl
  | cons quote rest =>
    have hquoted : ¬ ((quote = 0x27 ∨ quote = 0x22) ∧ rest.getLast? = some quote) := by
      rintro ⟨hquote, hlast⟩
      refine h rest.dropLast ⟨quote, hquote, ?_⟩
      rw [List.cons_append, List.dropLast_append_getLast? _ hlast]
    rw [readQuoted, if_neg hquoted]

/-- A line is a string if it stands between two equal quotes and is items between them, and then
the string is what the items denote, whichever way each of its bytes is spelled.  A line without
quotes is wrong as a whole.  Between quotes, the first backslash that begins no item is wrong. -/
theorem readQuoted_grammar (line : Bytes) :
    (∀ bytes, readQuoted line = .ok bytes ↔
      ∃ body, IsQuoted line body ∧ SpellsAll SpellsByte body bytes) ∧
    (∀ fault, readQuoted line = .error fault ↔
      ((∀ body, ¬ IsQuoted line body) ∧ fault = ⟨.missingQuote line, 0⟩) ∨
        ∃ body before after, IsQuoted line body ∧ IsStuck SpellsByte body before after ∧
          fault = ⟨.invalidEscape (escapeAt byteEscapes after), 1 + before.length⟩) ∧
    (∀ quote pieces bytes, quote = 0x27 ∨ quote = 0x22 → List.Forall₂ SpellsByte pieces bytes →
      readQuoted (quote :: pieces.flatten ++ [quote]) = .ok bytes) := by
  refine ⟨?_, ?_, ?_⟩
  · intro bytes
    constructor
    · intro h
      by_cases hquoted : ∃ body, IsQuoted line body
      · obtain ⟨body, hbody⟩ := hquoted
        rw [readQuoted_of_isQuoted hbody] at h
        exact ⟨body, hbody, byteItem?_law.takeItems_eq_ok.1 h⟩
      · rw [readQuoted_of_not_isQuoted (not_exists.1 hquoted)] at h
        cases h
    · rintro ⟨body, hbody, hbytes⟩
      rw [readQuoted_of_isQuoted hbody]
      exact byteItem?_law.takeItems_eq_ok.2 hbytes
  · intro fault
    constructor
    · intro h
      by_cases hquoted : ∃ body, IsQuoted line body
      · obtain ⟨body, hbody⟩ := hquoted
        rw [readQuoted_of_isQuoted hbody] at h
        obtain ⟨before, after, hstuck, hfault⟩ := byteItem?_law.takeItems_eq_error_iff.1 h
        exact .inr ⟨body, before, after, hbody, hstuck, hfault⟩
      · rw [readQuoted_of_not_isQuoted (not_exists.1 hquoted)] at h
        cases h
        exact .inl ⟨not_exists.1 hquoted, rfl⟩
    · rintro (⟨hquoted, rfl⟩ | ⟨body, before, after, hbody, hstuck, hfault⟩)
      · exact readQuoted_of_not_isQuoted hquoted
      · rw [readQuoted_of_isQuoted hbody]
        exact byteItem?_law.takeItems_eq_error_iff.2 ⟨before, after, hstuck, hfault⟩
  · intro quote pieces bytes hquote hpieces
    rw [readQuoted_of_isQuoted ⟨quote, hquote, rfl⟩]
    exact byteItem?_law.takeItems_eq_ok.2 ⟨pieces, hpieces, rfl⟩

theorem readQuoted_grammar_mixed :
    readQuoted (Utf8.encode "\"'\\\\\\x4a\"") = .ok [0x27, 0x5c, 0x4a] ∧
      readQuoted (Utf8.encode "'a\\x4'") = .error ⟨.invalidEscape [0x78, 0x34], 2⟩ := by
  constructor
  · have hdigits : SpellsHex [0x34, 0x61] 0x4a := hexValue?_eq_some_iff.1 rfl
    exact (readQuoted_grammar []).2.2 0x22 [[0x27], [0x5c, 0x5c], [0x5c, 0x78, 0x34, 0x61]]
      [0x27, 0x5c, 0x4a] (.inr rfl) (.cons (.plain (by decide)) (.cons (.letter (by decide))
        (.cons (.digits (by decide) rfl hdigits) .nil)))
  · have hstuck : IsStuck SpellsByte [0x61, 0x5c, 0x78, 0x34] [0x61] [0x78, 0x34] :=
      ⟨rfl, ⟨[0x61], [[0x61]], .cons (.plain (by decide)) .nil, rfl⟩,
        byteItem?_law.exists_miss.1 ⟨3, rfl⟩⟩
    exact ((readQuoted_grammar (Utf8.encode "'a\\x4'")).2.1 _).2
      (.inr ⟨[0x61, 0x5c, 0x78, 0x34], _, _, ⟨0x27, .inl rfl, rfl⟩, hstuck, rfl⟩)

/-! ## Lines of texts -/

theorem readEscaped_eq_ok {text : String} :
    readEscaped line = .ok text ↔ takeItems charItem? 0 line = .ok text.toList := by
  unfold readEscaped
  cases takeItems charItem? 0 line with
  | error fault =>
    show Except.error fault = .ok text ↔ _
    exact iff_of_false (by simp) (by simp)
  | ok values =>
    show Except.ok (String.ofList values) = .ok text ↔ _
    rw [Except.ok.injEq, Except.ok.injEq]
    exact ⟨fun h => h ▸ String.toList_ofList.symm, fun h => h ▸ String.ofList_toList⟩

theorem readEscaped_eq_error {fault : LineFault} :
    readEscaped line = .error fault ↔ takeItems charItem? 0 line = .error fault := by
  unfold readEscaped
  cases takeItems charItem? 0 line with
  | error other =>
    show Except.error other = .error fault ↔ _
    rw [Except.error.injEq, Except.error.injEq]
  | ok values =>
    show Except.ok (String.ofList values) = .error fault ↔ _
    exact iff_of_false (by simp) (by simp)

/-- A line is a text if it is items alone, and then the text is what the items denote, whichever way
each of its characters is spelled.  Otherwise the first backslash that begins no item is wrong.  The
digits of an escape, and those that it begins with, have a value of 32 bits. -/
theorem readEscaped_grammar (line : Bytes) :
    (∀ text, readEscaped line = .ok text ↔ SpellsAll SpellsChar line text.toList) ∧
    (∀ fault, readEscaped line = .error fault ↔
      ∃ before after, IsStuck SpellsChar line before after ∧
        fault = ⟨.invalidEscape (escapeAt charEscapes after), before.length⟩) ∧
    (∀ pieces text, List.Forall₂ SpellsChar pieces text.toList →
      readEscaped pieces.flatten = .ok text) ∧
    (∀ letter width digits front value, (letter, width) ∈ charEscapes → digits.length = width →
      front <+: digits → hexValue? front = some value → value < 2 ^ 32) := by
  refine ⟨?_, ?_, ?_, ?_⟩
  · intro text
    rw [readEscaped_eq_ok, charItem?_law.takeItems_eq_ok]
  · intro fault
    rw [readEscaped_eq_error, charItem?_law.takeItems_eq_error_iff]
    simp only [Nat.zero_add]
  · intro pieces text hpieces
    exact readEscaped_eq_ok.2 (charItem?_law.takeItems_eq_ok.2 ⟨pieces, hpieces, rfl⟩)
  · intro letter width digits front value hletter hlength hfront hvalue
    have hwidth : width ≤ 8 := by
      have hwidths : ∀ pair ∈ charEscapes, pair.2 ≤ 8 := by decide
      exact hwidths _ hletter
    have hle : front.length ≤ 8 := (hfront.length_le.trans_eq hlength).trans hwidth
    calc value < 16 ^ front.length := (hexValue?_eq_some_iff.1 hvalue).lt_pow
      _ ≤ 16 ^ 8 := Nat.pow_le_pow_right (by decide) hle
      _ = 2 ^ 32 := by decide

theorem readEscaped_grammar_mixed :
    readEscaped (0xe9 :: Utf8.encode "\\\\\\u20AC") = .ok "é\\€" ∧
      readEscaped (Utf8.encode "a\\ud800") = .error ⟨.invalidEscape (Utf8.encode "ud800"), 1⟩ := by
  constructor
  · have hdigits : SpellsHex [0x32, 0x30, 0x41, 0x43] '€'.toNat := hexValue?_eq_some_iff.1 rfl
    exact (readEscaped_grammar []).2.2.1
      [[0xe9], [0x5c, 0x5c], [0x5c, 0x75, 0x32, 0x30, 0x41, 0x43]] "é\\€"
      (.cons (.plain (by decide) rfl) (.cons .backslash
        (.cons (.digits (by decide) rfl hdigits) .nil)))
  · have hstuck : IsStuck SpellsChar (Utf8.encode "a\\ud800") [0x61] (Utf8.encode "ud800") :=
      ⟨rfl, ⟨['a'], [[0x61]], .cons (.plain (by decide) rfl) .nil, rfl⟩,
        charItem?_law.exists_miss.1 ⟨5, rfl⟩⟩
    exact ((readEscaped_grammar (Utf8.encode "a\\ud800")).2.1 _).2 ⟨_, _, hstuck, rfl⟩

end Pickle.Line
