import Pickle.Machine.Unfold
import Pickle.Proofs.Value.Order
import Pickle.Proofs.Value.Size

/-!
# What sets and maps hold

A map that is made by giving keys their values one after another has one entry for each class of
equal keys, in ascending order; the entry has the first key of the class and the last value
(`Ordered.IsMapOf`).  A set has one member for each class of equal items, the last one
(`Ordered.IsSetOf`).  This holds of every total order, by induction on what is inserted; a step only
has to find the one entry whose key is equal to the new one.

Without floats the comparison of keys is total, so this is what conversion makes of the dicts and
sets of a pickle (`Unfolding.isMapOf_of_isFloatFree`).  Keys are equal there like numbers are: `True`
and one are so, at any depth, and frozen sets are so that have equal members.
-/

namespace Pickle

open Std (OrientedCmp TransCmp)

namespace Ordered

variable {κ α : Type}

/-- Whether a map results from giving keys their values one after another. -/
structure IsMapOf (less same : κ → κ → Prop) (pairs map : List (κ × α)) : Prop where
  ascending : map.Pairwise fun first second => less first.1 second.1
  /-- Equal keys share an entry. -/
  one : ∀ pair ∈ pairs, ∃! entry, entry ∈ map ∧ same entry.1 pair.1
  /-- Of equal keys, an entry has the first. -/
  firstKey : ∀ entry ∈ map, ∃ before value after, pairs = before ++ (entry.1, value) :: after ∧
    ∀ other ∈ before, ¬ same other.1 entry.1
  /-- Of the values of equal keys, an entry has the last. -/
  lastValue : ∀ entry ∈ map, ∃ before key after, pairs = before ++ (key, entry.2) :: after ∧
    same key entry.1 ∧ ∀ other ∈ after, ¬ same other.1 entry.1

/-- Whether a set has the last of all equal items of a sequence. -/
structure IsSetOf (less same : κ → κ → Prop) (items set : List κ) : Prop where
  ascending : set.Pairwise less
  one : ∀ item ∈ items, ∃! member, member ∈ set ∧ same member item
  last : ∀ member ∈ set, ∃ before after, items = before ++ member :: after ∧
    ∀ other ∈ after, ¬ same other member

/-- What each item of a sequence preserves, for the items before it, holds of the whole sequence. -/
theorem holds_foldl {β γ : Type} {holds : List β → γ → Prop} {step : γ → β → γ}
    (hstep : ∀ done all item, holds done all → holds (done ++ [item]) (step all item))
    (items : List β) {start : γ} (h : holds [] start) : holds items (items.foldl step start) := by
  have hfold : ∀ (rest done : List β) (all : γ), holds done all →
      holds (done ++ rest) (rest.foldl step all) := by
    intro rest
    induction rest with
    | nil =>
      intro done all hdone
      rwa [List.append_nil]
    | cons item rest ih =>
      intro done all hdone
      have hrest := ih _ _ (hstep done all item hdone)
      rwa [List.append_assoc] at hrest
  exact hfold items [] start h

section Total

variable {cmp : κ → κ → Ordering} [TransCmp cmp]

/-- In an ascending sequence, one thing at most is equal to a given one. -/
theorem eq_of_ascending {f : α → κ} {items : List α}
    (h : items.Pairwise fun first second => cmp (f first) (f second) = .lt) {first second : α}
    {key : κ} (hfirst : first ∈ items) (hsecond : second ∈ items) (hequal : cmp (f first) key = .eq)
    (hequal' : cmp (f second) key = .eq) : first = second := by
  have hsame : cmp (f first) (f second) = .eq :=
    TransCmp.eq_trans hequal (OrientedCmp.eq_symm hequal')
  induction h with
  | nil => cases hfirst
  | cons hhead _ ih =>
    rcases List.mem_cons.1 hfirst with rfl | hfirstTail
    · rcases List.mem_cons.1 hsecond with rfl | hsecondTail
      · rfl
      · rw [hhead second hsecondTail] at hsame
        cases hsame
    · rcases List.mem_cons.1 hsecond with rfl | hsecondTail
      · have hlt := hhead first hfirstTail
        rw [OrientedCmp.eq_symm hsame] at hlt
        cases hlt
      · exact ih hfirstTail hsecondTail

/-! ## Maps -/

section Maps

variable {key : κ} {value : α} {pairs map : List (κ × α)}

/-- How a key is given a value in an ascending map: the value is kept under one key that is equal,
the one that was there if there was one, and nothing else changes. -/
structure IsPlaced (cmp : κ → κ → Ordering) (key : κ) (value : α) (map placed : List (κ × α))
    (held : κ) (others : List (κ × α)) : Prop where
  equal : cmp key held = .eq
  ascending : placed.Pairwise fun first second => cmp first.1 second.1 = .lt
  mem_iff : ∀ entry, entry ∈ placed ↔ entry = (held, value) ∨ entry ∈ others
  subset : others ⊆ map
  cover : ∀ entry ∈ map, entry ∈ others ∨ entry.1 = held
  differ : ∀ entry ∈ others, cmp key entry.1 ≠ .eq
  origin : (∃ old, (held, old) ∈ map) ∨ held = key ∧ map = others

theorem exists_isPlaced (key : κ) (value : α)
    (h : map.Pairwise fun first second => cmp first.1 second.1 = .lt) :
    ∃ held others, IsPlaced cmp key value map (insert cmp key value map) held others := by
  have hrefl : cmp key key = .eq := Std.ReflCmp.compare_self
  fun_induction insert cmp key value map with
  | case1 => exact ⟨key, [], hrefl, by simp, by simp, by simp, by simp, by simp, .inr ⟨rfl, rfl⟩⟩
  -- The new key goes in front, and the ascending map leaves no equal one behind it.
  | case2 other old rest hcmp =>
    have hbelow : ∀ entry ∈ (other, old) :: rest, cmp key entry.1 = .lt := by
      intro entry hentry
      rcases List.mem_cons.1 hentry with rfl | hentry
      · exact hcmp
      · exact TransCmp.lt_trans hcmp (List.rel_of_pairwise_cons h hentry)
    exact ⟨key, (other, old) :: rest, hrefl, List.pairwise_cons.2 ⟨hbelow, h⟩,
      fun _ => List.mem_cons, List.Subset.refl _, fun _ => .inl,
      fun entry hentry => by simp [hbelow entry hentry], .inr ⟨rfl, rfl⟩⟩
  -- An equal key is kept, and only its value changes.
  | case3 other old rest hcmp =>
    have hbelow : ∀ entry ∈ rest, cmp key entry.1 = .lt := fun entry hentry =>
      TransCmp.lt_of_eq_of_lt hcmp (List.rel_of_pairwise_cons h hentry)
    refine ⟨other, rest, hcmp, List.pairwise_cons.2 (List.pairwise_cons.1 h),
      fun _ => List.mem_cons, List.subset_cons_self .., ?_,
      fun entry hentry => by simp [hbelow entry hentry], .inl ⟨old, List.mem_cons_self⟩⟩
    intro entry hentry
    rcases List.mem_cons.1 hentry with rfl | hentry
    · exact .inr rfl
    · exact .inl hentry
  | case4 other old rest hcmp ih =>
    obtain ⟨held, others, hplaced⟩ := ih h.of_cons
    refine ⟨held, (other, old) :: others, hplaced.equal, ?_, ?_,
      List.cons_subset_cons _ hplaced.subset, ?_, ?_, ?_⟩
    · refine List.pairwise_cons.2 ⟨fun entry hentry => ?_, hplaced.ascending⟩
      rcases (hplaced.mem_iff entry).1 hentry with rfl | hentry
      · exact TransCmp.lt_of_lt_of_eq (OrientedCmp.lt_of_gt hcmp) hplaced.equal
      · exact List.rel_of_pairwise_cons h (hplaced.subset hentry)
    · intro entry
      simp only [List.mem_cons, hplaced.mem_iff]
      tauto
    · intro entry hentry
      rcases List.mem_cons.1 hentry with rfl | hentry
      · exact .inl List.mem_cons_self
      · exact (hplaced.cover entry hentry).imp_left (List.mem_cons_of_mem _)
    · refine List.forall_mem_cons.2 ⟨?_, hplaced.differ⟩
      simp [hcmp]
    · rcases hplaced.origin with ⟨old', hold⟩ | ⟨hkey, hrest⟩
      · exact .inl ⟨old', List.mem_cons_of_mem _ hold⟩
      · exact .inr ⟨hkey, by rw [hrest]⟩

section Step

variable {placed others : List (κ × α)} {held : κ}

theorem IsPlaced.exists_entry (hplaced : IsPlaced cmp key value map placed held others)
    (h : IsMapOf (cmp · · = .lt) (cmp · · = .eq) pairs map) {pair : κ × α}
    (hpair : pair ∈ pairs ++ [(key, value)]) : ∃ entry ∈ placed, cmp entry.1 pair.1 = .eq := by
  rcases List.mem_append.1 hpair with hpair | hpair
  · obtain ⟨entry, ⟨hentry, hsame⟩, -⟩ := h.one pair hpair
    rcases hplaced.cover entry hentry with hkept | rfl
    · exact ⟨entry, (hplaced.mem_iff entry).2 (.inr hkept), hsame⟩
    · exact ⟨(entry.1, value), (hplaced.mem_iff _).2 (.inl rfl), hsame⟩
  · obtain rfl := List.mem_singleton.1 hpair
    exact ⟨(held, value), (hplaced.mem_iff _).2 (.inl rfl), OrientedCmp.eq_symm hplaced.equal⟩

theorem IsPlaced.firstKey (hplaced : IsPlaced cmp key value map placed held others)
    (h : IsMapOf (cmp · · = .lt) (cmp · · = .eq) pairs map) {entry : κ × α}
    (hentry : entry ∈ placed) :
    ∃ before value' after, pairs ++ [(key, value)] = before ++ (entry.1, value') :: after ∧
      ∀ other ∈ before, ¬ cmp other.1 entry.1 = .eq := by
  have hold : ∀ entry ∈ map, ∃ before value' after,
      pairs ++ [(key, value)] = before ++ (entry.1, value') :: after ∧
        ∀ other ∈ before, ¬ cmp other.1 entry.1 = .eq := by
    intro entry hentry
    obtain ⟨before, value', after, rfl, hbefore⟩ := h.firstKey entry hentry
    exact ⟨before, value', after ++ [(key, value)], by simp, hbefore⟩
  rcases (hplaced.mem_iff entry).1 hentry with rfl | hentry
  · rcases hplaced.origin with ⟨old, hheld⟩ | ⟨rfl, rfl⟩
    · exact hold (held, old) hheld
    · -- The key is new, so no pair before has an equal one.
      refine ⟨pairs, value, [], rfl, fun other hother hsame => ?_⟩
      obtain ⟨entry, ⟨hentry, hentrySame⟩, -⟩ := h.one other hother
      exact hplaced.differ entry hentry
        (OrientedCmp.eq_symm (TransCmp.eq_trans hentrySame hsame))
  · exact hold entry (hplaced.subset hentry)

omit [TransCmp cmp] in
theorem IsPlaced.lastValue (hplaced : IsPlaced cmp key value map placed held others)
    (h : IsMapOf (cmp · · = .lt) (cmp · · = .eq) pairs map) {entry : κ × α}
    (hentry : entry ∈ placed) :
    ∃ before key' after, pairs ++ [(key, value)] = before ++ (key', entry.2) :: after ∧
      cmp key' entry.1 = .eq ∧ ∀ other ∈ after, ¬ cmp other.1 entry.1 = .eq := by
  rcases (hplaced.mem_iff entry).1 hentry with rfl | hentry
  · exact ⟨pairs, key, [], rfl, hplaced.equal, by simp⟩
  · obtain ⟨before, key', after, rfl, hsame, hafter⟩ :=
      h.lastValue entry (hplaced.subset hentry)
    refine ⟨before, key', after ++ [(key, value)], by simp, hsame, ?_⟩
    intro other hother
    rcases List.mem_append.1 hother with hother | hother
    · exact hafter other hother
    · obtain rfl := List.mem_singleton.1 hother
      exact hplaced.differ entry hentry

end Step

/-- One more pair makes one more entry, or gives an entry another value. -/
theorem IsMapOf.insert (h : IsMapOf (cmp · · = .lt) (cmp · · = .eq) pairs map) (key : κ)
    (value : α) : IsMapOf (cmp · · = .lt) (cmp · · = .eq) (pairs ++ [(key, value)])
      (Ordered.insert cmp key value map) := by
  obtain ⟨held, others, hplaced⟩ := exists_isPlaced key value h.ascending
  refine ⟨hplaced.ascending, fun pair hpair => ?_, fun _ => hplaced.firstKey h,
    fun _ => hplaced.lastValue h⟩
  obtain ⟨entry, hentry, hsame⟩ := hplaced.exists_entry h hpair
  exact ⟨entry, ⟨hentry, hsame⟩, fun other hother =>
    eq_of_ascending hplaced.ascending hother.1 hentry hother.2 hsame⟩

/-- Giving keys their values one after another makes a map of them. -/
theorem isMapOf_ofPairs (pairs : List (κ × α)) :
    IsMapOf (cmp · · = .lt) (cmp · · = .eq) pairs (ofPairs cmp pairs) :=
  holds_foldl (fun _ _ pair h => h.insert pair.1 pair.2) pairs
    ⟨.nil, by simp, by simp, by simp⟩

end Maps

/-! ## Sets -/

section Sets

variable {item : κ} {items set : List κ}

theorem mem_adjoin (h : set.Pairwise (cmp · · = .lt)) {member : κ} :
    member ∈ adjoin cmp item set ↔ member = item ∨ member ∈ set ∧ cmp item member ≠ .eq := by
  fun_induction adjoin cmp item set with
  | case1 => simp
  | case2 other rest hcmp =>
    have hbelow : ∀ member ∈ other :: rest, cmp item member ≠ .eq := by
      intro member hmember
      rcases List.mem_cons.1 hmember with rfl | hmember
      · simp [hcmp]
      · simp [TransCmp.lt_trans hcmp (List.rel_of_pairwise_cons h hmember)]
    rw [List.mem_cons, and_iff_left_of_imp (hbelow member)]
  | case3 other rest hcmp =>
    have hbelow : ∀ member ∈ rest, cmp item member ≠ .eq := fun member hmember => by
      simp [TransCmp.lt_of_eq_of_lt hcmp (List.rel_of_pairwise_cons h hmember)]
    rw [List.mem_cons, List.mem_cons]
    constructor
    · exact fun hmember => hmember.imp_right fun hrest => ⟨.inr hrest, hbelow member hrest⟩
    · rintro (rfl | ⟨rfl | hrest, hne⟩)
      · exact .inl rfl
      · exact absurd hcmp hne
      · exact .inr hrest
  | case4 other rest hcmp ih =>
    rw [List.mem_cons, List.mem_cons, ih h.of_cons]
    constructor
    · rintro (rfl | rfl | ⟨hrest, hne⟩)
      · exact .inr ⟨.inl rfl, by simp [hcmp]⟩
      · exact .inl rfl
      · exact .inr ⟨.inr hrest, hne⟩
    · rintro (rfl | ⟨rfl | hrest, hne⟩)
      · exact .inr (.inl rfl)
      · exact .inl rfl
      · exact .inr (.inr ⟨hrest, hne⟩)

theorem ascending_adjoin (item : κ) (h : set.Pairwise (cmp · · = .lt)) :
    (adjoin cmp item set).Pairwise (cmp · · = .lt) := by
  fun_induction adjoin cmp item set with
  | case1 => simp
  | case2 other rest hcmp =>
    refine List.pairwise_cons.2 ⟨fun member hmember => ?_, h⟩
    rcases List.mem_cons.1 hmember with rfl | hmember
    · exact hcmp
    · exact TransCmp.lt_trans hcmp (List.rel_of_pairwise_cons h hmember)
  | case3 other rest hcmp =>
    refine List.pairwise_cons.2 ⟨fun member hmember => ?_, h.of_cons⟩
    exact TransCmp.lt_of_eq_of_lt hcmp (List.rel_of_pairwise_cons h hmember)
  | case4 other rest hcmp ih =>
    refine List.pairwise_cons.2 ⟨fun member hmember => ?_, ih h.of_cons⟩
    rcases (mem_adjoin h.of_cons).1 hmember with rfl | ⟨hmember, -⟩
    · exact OrientedCmp.lt_of_gt hcmp
    · exact List.rel_of_pairwise_cons h hmember

/-- One more item takes the place of an equal one, if there is one. -/
theorem IsSetOf.adjoin (h : IsSetOf (cmp · · = .lt) (cmp · · = .eq) items set) (item : κ) :
    IsSetOf (cmp · · = .lt) (cmp · · = .eq) (items ++ [item]) (Ordered.adjoin cmp item set) := by
  have hascending := ascending_adjoin item h.ascending
  have hmem : ∀ member, member ∈ Ordered.adjoin cmp item set ↔
      member = item ∨ member ∈ set ∧ cmp item member ≠ .eq := fun _ => mem_adjoin h.ascending
  refine ⟨hascending, ?_, ?_⟩
  · intro other hother
    obtain ⟨member, hmember, hsame⟩ : ∃ member ∈ Ordered.adjoin cmp item set,
        cmp member other = .eq := by
      rcases List.mem_append.1 hother with hother | hother
      · obtain ⟨member, ⟨hmember, hsame⟩, -⟩ := h.one other hother
        by_cases hequal : cmp item member = .eq
        · exact ⟨item, (hmem item).2 (.inl rfl), TransCmp.eq_trans hequal hsame⟩
        · exact ⟨member, (hmem member).2 (.inr ⟨hmember, hequal⟩), hsame⟩
      · obtain rfl := List.mem_singleton.1 hother
        exact ⟨other, (hmem other).2 (.inl rfl), Std.ReflCmp.compare_self⟩
    exact ⟨member, ⟨hmember, hsame⟩, fun other' hother' =>
      eq_of_ascending (f := id) hascending hother'.1 hmember hother'.2 hsame⟩
  · intro member hmember
    rcases (hmem member).1 hmember with rfl | ⟨hmember, hne⟩
    · exact ⟨items, [], rfl, by simp⟩
    · obtain ⟨before, after, rfl, hafter⟩ := h.last member hmember
      refine ⟨before, after ++ [item], by simp, ?_⟩
      intro other hother
      rcases List.mem_append.1 hother with hother | hother
      · exact hafter other hother
      · obtain rfl := List.mem_singleton.1 hother
        exact hne

/-- The items of a sequence one after another make a set of them. -/
theorem isSetOf_ofList (items : List κ) :
    IsSetOf (cmp · · = .lt) (cmp · · = .eq) items (ofList cmp items) :=
  holds_foldl (fun _ _ item h => h.adjoin item) items ⟨.nil, by simp, by simp⟩

/-- Ascending sequences that have equal things in each other are equal item by item. -/
theorem map_eq_of_ascending {β : Type} {f : κ → β} {first second : List κ}
    (hfirst : first.Pairwise (cmp · · = .lt)) (hsecond : second.Pairwise (cmp · · = .lt))
    (hcover : ∀ x ∈ first, ∃ y ∈ second, cmp x y = .eq)
    (hcover' : ∀ y ∈ second, ∃ x ∈ first, cmp x y = .eq)
    (hf : ∀ x ∈ first, ∀ y ∈ second, cmp x y = .eq → f x = f y) :
    first.map f = second.map f := by
  induction first generalizing second with
  | nil =>
    cases second with
    | nil => rfl
    | cons y ys =>
      obtain ⟨x, hx, -⟩ := hcover' y List.mem_cons_self
      cases hx
  | cons x xs ih =>
    cases second with
    | nil =>
      obtain ⟨y, hy, -⟩ := hcover x List.mem_cons_self
      cases hy
    | cons y ys =>
      obtain ⟨hx, hxs⟩ := List.pairwise_cons.1 hfirst
      obtain ⟨hy, hys⟩ := List.pairwise_cons.1 hsecond
      -- Each head is the least of its list, and the other list has an equal of it.
      have hheads : cmp x y = .eq := by
        obtain ⟨y', hy', hequal⟩ := hcover x List.mem_cons_self
        obtain ⟨x', hx', hequal'⟩ := hcover' y List.mem_cons_self
        rcases List.mem_cons.1 hy' with rfl | hy'
        · exact hequal
        · rcases List.mem_cons.1 hx' with rfl | hx'
          · exact hequal'
          · -- Otherwise each of the two heads would be less than the other one.
            have hlt := TransCmp.lt_of_lt_of_eq (hx x' hx') hequal'
            have hgt := TransCmp.lt_of_lt_of_eq (hy y' hy') (OrientedCmp.eq_symm hequal)
            rw [OrientedCmp.gt_of_lt hgt] at hlt
            cases hlt
      refine congrArg₂ List.cons (hf x List.mem_cons_self y List.mem_cons_self hheads)
        (ih hxs hys ?_ ?_ fun z hz w hw => hf z (.tail _ hz) w (.tail _ hw))
      · intro z hz
        obtain ⟨w, hw, hequal⟩ := hcover z (List.mem_cons_of_mem _ hz)
        rcases List.mem_cons.1 hw with rfl | hw
        · have hlt := TransCmp.lt_of_lt_of_eq (hx z hz) hequal
          rw [hheads] at hlt
          cases hlt
        · exact ⟨w, hw, hequal⟩
      · intro w hw
        obtain ⟨z, hz, hequal⟩ := hcover' w (List.mem_cons_of_mem _ hw)
        rcases List.mem_cons.1 hz with rfl | hz
        · have hlt := hy w hw
          rw [TransCmp.eq_trans (OrientedCmp.eq_symm hheads) hequal] at hlt
          cases hlt
        · exact ⟨z, hz, hequal⟩

end Sets

end Total

section Congr

variable {less less' same same' : κ → κ → Prop} {good : κ → Prop}

/-- Other words for the order and the equality of the keys at hand. -/
theorem IsMapOf.congr {pairs map : List (κ × α)} (h : IsMapOf less same pairs map)
    (hgood : ∀ pair ∈ pairs, good pair.1)
    (hless : ∀ {a b}, good a → good b → less a b → less' a b)
    (hsame : ∀ {a b}, good a → good b → (same a b ↔ same' a b)) :
    IsMapOf less' same' pairs map := by
  have hentries : ∀ entry ∈ map, good entry.1 := by
    intro entry hentry
    obtain ⟨before, value, after, hpairs, -⟩ := h.firstKey entry hentry
    exact hgood (entry.1, value) (by simp [hpairs])
  refine ⟨h.ascending.imp_of_mem fun hfirst hsecond =>
    hless (hentries _ hfirst) (hentries _ hsecond), ?_, ?_, ?_⟩
  · intro pair hpair
    obtain ⟨entry, ⟨hentry, hequal⟩, hunique⟩ := h.one pair hpair
    have hpairGood := hgood pair hpair
    exact ⟨entry, ⟨hentry, (hsame (hentries _ hentry) hpairGood).1 hequal⟩, fun other hother =>
      hunique other ⟨hother.1, (hsame (hentries _ hother.1) hpairGood).2 hother.2⟩⟩
  · intro entry hentry
    obtain ⟨before, value, after, rfl, hbefore⟩ := h.firstKey entry hentry
    refine ⟨before, value, after, rfl, fun other hother hequal => hbefore other hother ?_⟩
    exact (hsame (hgood other (by simp [hother])) (hentries _ hentry)).2 hequal
  · intro entry hentry
    obtain ⟨before, key, after, rfl, hkey, hafter⟩ := h.lastValue entry hentry
    refine ⟨before, key, after, rfl, ?_, fun other hother hequal => hafter other hother ?_⟩
    · exact (hsame (hgood (key, entry.2) (by simp)) (hentries _ hentry)).1 hkey
    · exact (hsame (hgood other (by simp [hother])) (hentries _ hentry)).2 hequal

theorem IsSetOf.congr {items set : List κ} (h : IsSetOf less same items set)
    (hgood : ∀ item ∈ items, good item)
    (hless : ∀ {a b}, good a → good b → less a b → less' a b)
    (hsame : ∀ {a b}, good a → good b → (same a b ↔ same' a b)) :
    IsSetOf less' same' items set := by
  have hmembers : ∀ member ∈ set, good member := by
    intro member hmember
    obtain ⟨before, after, hitems, -⟩ := h.last member hmember
    exact hgood member (by simp [hitems])
  refine ⟨h.ascending.imp_of_mem fun hfirst hsecond =>
    hless (hmembers _ hfirst) (hmembers _ hsecond), ?_, ?_⟩
  · intro item hitem
    obtain ⟨member, ⟨hmember, hequal⟩, hunique⟩ := h.one item hitem
    have hitemGood := hgood item hitem
    exact ⟨member, ⟨hmember, (hsame (hmembers _ hmember) hitemGood).1 hequal⟩, fun other hother =>
      hunique other ⟨hother.1, (hsame (hmembers _ hother.1) hitemGood).2 hother.2⟩⟩
  · intro member hmember
    obtain ⟨before, after, rfl, hafter⟩ := h.last member hmember
    refine ⟨before, after, rfl, fun other hother hequal => hafter other hother ?_⟩
    exact (hsame (hgood other (by simp [hother])) (hmembers _ hmember)).2 hequal

variable {cmp cmp' : κ → κ → Ordering}

theorem insert_congr {key : κ} {value : α} {map : List (κ × α)}
    (h : ∀ entry ∈ map, cmp key entry.1 = cmp' key entry.1) :
    insert cmp key value map = insert cmp' key value map := by
  fun_induction insert cmp key value map with
  | case1 => rfl
  | case2 other old rest hcmp => rw [insert, ← h _ List.mem_cons_self, hcmp]
  | case3 other old rest hcmp => rw [insert, ← h _ List.mem_cons_self, hcmp]
  | case4 other old rest hcmp ih =>
    rw [insert, ← h _ List.mem_cons_self, hcmp, ih fun entry hentry => h entry (.tail _ hentry)]

theorem adjoin_congr {item : κ} {set : List κ}
    (h : ∀ member ∈ set, cmp item member = cmp' item member) :
    adjoin cmp item set = adjoin cmp' item set := by
  fun_induction adjoin cmp item set with
  | case1 => rfl
  | case2 other rest hcmp => rw [adjoin, ← h _ List.mem_cons_self, hcmp]
  | case3 other rest hcmp => rw [adjoin, ← h _ List.mem_cons_self, hcmp]
  | case4 other rest hcmp ih =>
    rw [adjoin, ← h _ List.mem_cons_self, hcmp, ih fun member hmember => h member (.tail _ hmember)]

/-- Comparisons that agree on the keys at hand make the same map of them. -/
theorem ofPairs_congr (h : ∀ {a b}, good a → good b → cmp a b = cmp' a b) {pairs : List (κ × α)}
    (hgood : ∀ pair ∈ pairs, good pair.1) : ofPairs cmp pairs = ofPairs cmp' pairs := by
  have hfold : ∀ map : List (κ × α), (∀ entry ∈ map, good entry.1) →
      pairs.foldl (fun map pair => insert cmp pair.1 pair.2 map) map =
        pairs.foldl (fun map pair => insert cmp' pair.1 pair.2 map) map := by
    induction pairs with
    | nil => exact fun _ _ => rfl
    | cons pair rest ih =>
      intro map hmap
      have hpair := hgood pair List.mem_cons_self
      have hstep : insert cmp pair.1 pair.2 map = insert cmp' pair.1 pair.2 map :=
        insert_congr fun entry hentry => h hpair (hmap entry hentry)
      rw [List.foldl_cons, List.foldl_cons, ← hstep]
      refine ih (fun other hother => hgood other (.tail _ hother)) _ fun entry hentry => ?_
      have hkey := (subperm_keys_insert cmp pair.1 pair.2 map).subset
        (List.mem_map_of_mem (f := Prod.fst) hentry)
      rcases List.mem_cons.1 hkey with hkey | hkey
      · rw [hkey]
        exact hpair
      · obtain ⟨old, hold, hsame⟩ := List.mem_map.1 hkey
        rw [← hsame]
        exact hmap old hold
  exact hfold [] (by simp)

theorem ofList_congr (h : ∀ {a b}, good a → good b → cmp a b = cmp' a b) {items : List κ}
    (hgood : ∀ item ∈ items, good item) : ofList cmp items = ofList cmp' items := by
  have hfold : ∀ set : List κ, (∀ member ∈ set, good member) →
      items.foldl (fun set item => adjoin cmp item set) set =
        items.foldl (fun set item => adjoin cmp' item set) set := by
    induction items with
    | nil => exact fun _ _ => rfl
    | cons item rest ih =>
      intro set hset
      have hitem := hgood item List.mem_cons_self
      have hstep : adjoin cmp item set = adjoin cmp' item set :=
        adjoin_congr fun member hmember => h hitem (hset member hmember)
      rw [List.foldl_cons, List.foldl_cons, ← hstep]
      refine ih (fun other hother => hgood other (.tail _ hother)) _ fun member hmember => ?_
      rcases List.mem_cons.1 ((subperm_adjoin cmp item set).subset hmember) with rfl | hmember
      · exact hitem
      · exact hset member hmember
  exact hfold [] (by simp)

end Congr

end Ordered

/-! ## Dicts and sets without floats -/

namespace Key

/-- Whether a key is less than another one. -/
def Less (a b : Key) : Prop := a.compare b = .lt

/-- Whether two keys without floats are equal, like numbers are: booleans and integers of any kind
by their values, and everything else by its parts. -/
def Equals (a b : Key) : Prop := a.unified = b.unified

theorem mapScalarsItems_eq_map (f : Scalar → Scalar) (items : List Key) :
    mapScalarsItems f items = items.map (mapScalars f) := by
  induction items with
  | nil => rfl
  | cons item rest ih => rw [mapScalarsItems, ih, List.map_cons]

theorem equals_frozenSet {xs ys : List Key} :
    (frozenSet xs).Equals (frozenSet ys) ↔ xs.map unified = ys.map unified := by
  unfold Equals unified
  rw [mapScalars, mapScalars, frozenSet.injEq, mapScalarsItems_eq_map, mapScalarsItems_eq_map]

section FloatFree

variable {a b : Key}

theorem compare_eq_exactly_of_isFloatFree (ha : a.IsFloatFree) (hb : b.IsFloatFree) :
    a.compare b = a.exactly b :=
  compare_eq_exactly Scalar.isExactOn_notFloat ha hb

theorem less_of_exactly (ha : a.IsFloatFree) (hb : b.IsFloatFree) (h : a.exactly b = .lt) :
    a.Less b :=
  (compare_eq_exactly_of_isFloatFree ha hb).trans h

theorem isMapOf_mapOf {α : Type} {pairs : List (Key × α)}
    (hfree : ∀ pair ∈ pairs, pair.1.IsFloatFree) :
    Ordered.IsMapOf Less Equals pairs (mapOf pairs) := by
  rw [mapOf, Ordered.ofPairs_congr compare_eq_exactly_of_isFloatFree hfree]
  exact (Ordered.isMapOf_ofPairs pairs).congr hfree less_of_exactly exactly_eq_eq_iff

theorem isSetOf_exactly {items : List Key} (hfree : ∀ item ∈ items, item.IsFloatFree) :
    Ordered.IsSetOf (exactly · · = .lt) (exactly · · = .eq) items (setOf items) := by
  rw [setOf, Ordered.ofList_congr compare_eq_exactly_of_isFloatFree hfree]
  exact Ordered.isSetOf_ofList items

theorem isSetOf_setOf {items : List Key} (hfree : ∀ item ∈ items, item.IsFloatFree) :
    Ordered.IsSetOf Less Equals items (setOf items) :=
  (isSetOf_exactly hfree).congr hfree less_of_exactly exactly_eq_eq_iff

/-- Frozen sets are equal if each has an equal member for every member of the other one. -/
theorem equals_frozenSet_iff {xs ys : List Key} (hxs : ∀ x ∈ xs, x.IsFloatFree)
    (hys : ∀ y ∈ ys, y.IsFloatFree) :
    (frozenSet (setOf xs)).Equals (frozenSet (setOf ys)) ↔
      (∀ x ∈ xs, ∃ y ∈ ys, x.Equals y) ∧ ∀ y ∈ ys, ∃ x ∈ xs, x.Equals y := by
  have hsubset : ∀ items : List Key, setOf items ⊆ items := fun items =>
    (Ordered.subperm_ofList compare items).subset
  -- One half of either direction, for two sets in any order.
  have hcover : ∀ {xs ys : List Key}, (∀ x ∈ xs, x.IsFloatFree) →
      (setOf xs).map unified = (setOf ys).map unified → ∀ x ∈ xs, ∃ y ∈ ys, x.Equals y := by
    intro xs ys hxs hsame x hx
    obtain ⟨member, ⟨hmember, hequal⟩, -⟩ := (isSetOf_setOf hxs).one x hx
    have hmap := List.mem_map_of_mem (f := unified) hmember
    rw [hsame] at hmap
    obtain ⟨other, hother, hunified⟩ := List.mem_map.1 hmap
    exact ⟨other, hsubset ys hother, hequal.symm.trans hunified.symm⟩
  -- A member of the one set has an equal among what the other one is made of, so also in it.
  have hmembers : ∀ {xs ys : List Key}, (∀ x ∈ xs, x.IsFloatFree) → (∀ y ∈ ys, y.IsFloatFree) →
      (∀ x ∈ xs, ∃ y ∈ ys, x.Equals y) →
      ∀ x ∈ setOf xs, ∃ y ∈ setOf ys, x.exactly y = .eq := by
    intro xs ys hxs hys hall x hx
    obtain ⟨y, hy, hequal⟩ := hall x (hsubset xs hx)
    obtain ⟨member, ⟨hmember, hequal'⟩, -⟩ := (isSetOf_setOf hys).one y hy
    exact ⟨member, hmember, (exactly_eq_eq_iff (hxs x (hsubset xs hx))
      (hys member (hsubset ys hmember))).2 (hequal.trans hequal'.symm)⟩
  rw [equals_frozenSet]
  constructor
  · intro hsame
    refine ⟨hcover hxs hsame, fun y hy => ?_⟩
    obtain ⟨x, hx, hequal⟩ := hcover hys hsame.symm y hy
    exact ⟨x, hx, hequal.symm⟩
  · rintro ⟨hall, hall'⟩
    refine Ordered.map_eq_of_ascending (isSetOf_exactly hxs).ascending
      (isSetOf_exactly hys).ascending (hmembers hxs hys hall) ?_ ?_
    · intro y hy
      obtain ⟨x, hx, hequal⟩ := hmembers hys hxs
        (fun y hy => (hall' y hy).imp fun x hx => ⟨hx.1, hx.2.symm⟩) y hy
      exact ⟨x, hx, OrientedCmp.eq_symm hequal⟩
    · exact fun x hx y hy hequal => (exactly_eq_eq_iff (hxs x (hsubset xs hx))
        (hys y (hsubset ys hy))).1 hequal

end FloatFree

end Key

namespace Unfolding

open Ordered

/-- A conversion that succeeds is followed by the next one. -/
theorem bind_eq_of_ok {α β : Type} {action : Unfolding α} {next : α → Unfolding β} {value : α}
    {budget left : ℕ} (h : action budget = .ok (value, left)) :
    (action >>= next) budget = next value left := by
  show (action budget >>= fun pair => next pair.1 pair.2) = next value left
  rw [h]
  rfl

/-- Without floats among the keys, dicts and sets have the meaning that they have in their origin.

Pairs whose keys convert, in turn with their values, to keys without floats become a map with just
one entry for each class of equal keys, in ascending order; it has the first key of the class and
the last value.  Items become a set with just one member for each class, be it a frozen one or not.

Frozen sets that are made of items are equal if each item of one is equal to an item of the other
one. -/
theorem isMapOf_of_isFloatFree (convert : Cell → Unfolding Value) (budget left limit : ℕ) :
    (∀ (cells : List (Cell × Cell)) (converted : List (Key × Value)),
      (cells.mapM fun (key, value) => do
        let key ← keyOf convert key
        return (key, ← convert value) : Unfolding _) budget = .ok (converted, left) →
      (∀ pair ∈ converted, pair.1.IsFloatFree) →
        ∃ map, pairs convert cells budget = .ok (map, left) ∧
          IsMapOf Key.Less Key.Equals converted map) ∧
    (∀ (cells : List Cell) (converted : List Key),
      (cells.mapM (keyOf convert) : Unfolding _) budget = .ok (converted, left) →
      (∀ key ∈ converted, key.IsFloatFree) →
        ∃ set, content convert limit (.set cells.toArray) (budget + 1) = .ok (.set set, left) ∧
          content convert limit (.frozenSet cells) (budget + 1) = .ok (.frozenSet set, left) ∧
          IsSetOf Key.Less Key.Equals converted set) ∧
    ∀ xs ys : List Key, (∀ x ∈ xs, x.IsFloatFree) → (∀ y ∈ ys, y.IsFloatFree) →
      ((Key.frozenSet (Key.setOf xs)).Equals (.frozenSet (Key.setOf ys)) ↔
        (∀ x ∈ xs, ∃ y ∈ ys, x.Equals y) ∧ ∀ y ∈ ys, ∃ x ∈ xs, x.Equals y) := by
  refine ⟨?_, ?_, fun xs ys => Key.equals_frozenSet_iff⟩
  · intro cells converted hconverted hfree
    refine ⟨Key.mapOf converted, ?_, Key.isMapOf_mapOf hfree⟩
    unfold pairs
    rw [bind_eq_of_ok hconverted]
    rfl
  · intro cells converted hconverted hfree
    have hcharge : charge limit (budget + 1) = .ok ((), budget) := rfl
    refine ⟨Key.setOf converted, ?_, ?_, Key.isSetOf_setOf hfree⟩
    · rw [content, bind_eq_of_ok hcharge, bind_eq_of_ok hconverted]
      rfl
    · rw [content, bind_eq_of_ok hcharge, bind_eq_of_ok hconverted]
      rfl

/-- `True`, one and a long one are a single key: the first one, with the last value.  As items they
are a single member, and a frozen set of one of them is equal to one of all of them. -/
theorem isMapOf_of_isFloatFree_ones :
    let convert := (Machine.initial none).unfold 9 1 []
    let keys : List Key := [.scalar (.bool true), .scalar (.short 1), .scalar (.long 1)]
    let ones : List Cell := [.atom (.scalar (.bool true)), .atom (.scalar (.short 1)),
      .atom (.scalar (.long 1))]
    pairs convert (ones.zip ones.reverse) 9 =
        .ok ([(.scalar (.bool true), .scalar (.bool true))], 3) ∧
      IsMapOf Key.Less Key.Equals (keys.zip (keys.reverse.map Key.toValue))
        [(.scalar (.bool true), .scalar (.bool true))] ∧
      content convert 9 (.frozenSet ones) 9 = .ok (.frozenSet [.scalar (.long 1)], 5) ∧
      IsSetOf Key.Less Key.Equals keys [.scalar (.long 1)] ∧
      (Key.frozenSet (Key.setOf keys)).Equals (.frozenSet (Key.setOf [.scalar (.short 1)])) := by
  intro convert keys ones
  have hfree : ∀ key ∈ keys, key.IsFloatFree := by
    intro key hkey
    simp only [keys, List.mem_cons, List.not_mem_nil, or_false] at hkey
    rcases hkey with rfl | rfl | rfl <;> exact fun _ => Scalar.noConfusion
  have hpairsFree : ∀ pair ∈ keys.zip (keys.reverse.map Key.toValue), pair.1.IsFloatFree :=
    fun pair hpair => hfree pair.1 (List.of_mem_zip hpair).1
  have hsingle : ∀ key ∈ [Key.scalar (.short 1)], key.IsFloatFree := by
    intro key hkey
    obtain rfl := List.mem_singleton.1 hkey
    exact hfree _ (by simp [keys])
  obtain ⟨map, hmap, hisMap⟩ :=
    (isMapOf_of_isFloatFree convert 9 3 9).1 (ones.zip ones.reverse) _ rfl hpairsFree
  obtain ⟨set, -, hset, hisSet⟩ :=
    (isMapOf_of_isFloatFree convert 8 5 9).2.1 ones keys rfl hfree
  have hpairs : pairs convert (ones.zip ones.reverse) 9 =
      .ok ([(.scalar (.bool true), .scalar (.bool true))], 3) := rfl
  have hitems : content convert 9 (.frozenSet ones) 9 =
      .ok (.frozenSet [.scalar (.long 1)], 5) := rfl
  obtain rfl : map = [(.scalar (.bool true), .scalar (.bool true))] := by
    rw [hpairs] at hmap
    cases hmap
    rfl
  obtain rfl : set = [.scalar (.long 1)] := by
    rw [hitems] at hset
    cases hset
    rfl
  refine ⟨hpairs, hisMap, hitems, hisSet, ?_⟩
  refine ((isMapOf_of_isFloatFree convert 0 0 0).2.2 keys _ hfree hsingle).2 ⟨?_, ?_⟩
  · intro x hx
    refine ⟨.scalar (.short 1), by simp, ?_⟩
    simp only [keys, List.mem_cons, List.not_mem_nil, or_false] at hx
    rcases hx with rfl | rfl | rfl <;> rfl
  · intro y hy
    obtain rfl := List.mem_singleton.1 hy
    exact ⟨.scalar (.long 1), by simp [keys], rfl⟩

end Unfolding

end Pickle
