import Pickle.Proofs.Machine.References

/-!
# Converting a cell gives its tree

`Machine.value` walks through slots with a budget of nodes, a limit on how many references may
enclose one another, and a record of the slots that it is inside of.  None of these shows in
what it returns: a conversion that succeeds returns the tree of the cell, `Machine.Unfolds`,
which knows slots and references only.  So they can do no more than turn a result into a failure.

Cells on a cycle have no tree (`Unfolds.not_isCyclic`), since the height from which the tree of a
slot can be built falls along every reference.  Hence their conversion fails.  In the other
direction, a slot that is found inside itself is a cycle, as every slot that the conversion is
inside of leads to the cell at hand (`failsOnly_unfold`); a slot that is merely referred to twice is
never taken for one.

`value_spec` puts this together.
-/

namespace Pickle

/-! ## Conversions against trees -/

namespace Unfolding

variable {α β γ : Type}

/-- Whether every success of a conversion has a given result, whatever the budget is. -/
def Gives (action : Unfolding α) (result : Option α) : Prop :=
  ∀ budget value left, action budget = .ok (value, left) → result = some value

/-- Whether every failure of a conversion is of some kind. -/
def FailsOnly (action : Unfolding α) (allowed : Failure → Prop) : Prop :=
  ∀ budget failure, action budget = .error failure → allowed failure

namespace Gives

theorem pure (value : α) : Gives (Pure.pure value) (Pure.pure value) := by
  intro budget result left h
  cases h
  rfl

theorem fail (failure : Failure) (result : Option α) : Gives (Unfolding.fail failure) result := by
  intro budget value left h
  cases h

theorem bind {action : Unfolding α} {next : α → Unfolding β} {first : Option α}
    {second : α → Option β} (hfirst : Gives action first)
    (hsecond : ∀ value, Gives (next value) (second value)) :
    Gives (action >>= next) (first >>= second) := by
  intro budget value left h
  obtain ⟨⟨middle, rest⟩, haction, hnext⟩ := exists_of_bind_eq_ok h
  rw [hfirst _ _ _ haction]
  exact hsecond _ _ _ _ hnext

theorem map {action : Unfolding α} {result : Option α} (h : Gives action result) (f : α → β) :
    Gives (f <$> action) (f <$> result) := by
  intro budget value left hrun
  obtain ⟨⟨first, rest⟩, haction, hdone⟩ := exists_of_bind_eq_ok hrun
  cases hdone
  rw [h _ _ _ haction]
  rfl

theorem mapM {action : γ → Unfolding α} {result : γ → Option α}
    (h : ∀ item, Gives (action item) (result item)) (items : List γ) :
    Gives (items.mapM action) (items.mapM result) := by
  induction items with
  | nil => exact pure []
  | cons item rest ih =>
    rw [List.mapM_cons, List.mapM_cons]
    exact (h item).bind fun value => ih.bind fun values => pure _

theorem optionMapM {action : γ → Unfolding α} {result : γ → Option α}
    (h : ∀ item, Gives (action item) (result item)) (item : Option γ) :
    Gives (item.mapM action) (item.mapM result) := by
  cases item with
  | none => exact pure none
  | some item => exact (h item).map some

/-- Charging shows in no result. -/
theorem charge {limit : ℕ} {next : Unit → Unfolding α} {result : Option α}
    (h : Gives (next ()) result) : Gives (Unfolding.charge limit >>= next) result := by
  intro budget value left hrun
  obtain ⟨⟨_, rest⟩, _, hnext⟩ := exists_of_bind_eq_ok hrun
  exact h _ _ _ hnext

theorem key (value : Value) : Gives (Unfolding.key value) value.toKey? := by
  unfold Unfolding.key
  split
  · next key hkey => rw [hkey]; exact pure key
  · exact fail _ _

end Gives

namespace FailsOnly

variable {allowed : Failure → Prop}

theorem pure (value : α) : FailsOnly (Pure.pure value) allowed := by
  intro budget failure h
  cases h

theorem bind {action : Unfolding α} {next : α → Unfolding β} (hfirst : FailsOnly action allowed)
    (hsecond : ∀ value, FailsOnly (next value) allowed) :
    FailsOnly (action >>= next) allowed := by
  intro budget failure h
  have hrun : (action budget >>= fun pair => next pair.1 pair.2) = .error failure := h
  cases haction : action budget with
  | error first =>
    rw [haction] at hrun
    cases hrun
    exact hfirst _ _ haction
  | ok pair =>
    rw [haction] at hrun
    exact hsecond _ _ _ hrun

theorem mapM {action : γ → Unfolding α} {items : List γ}
    (h : ∀ item ∈ items, FailsOnly (action item) allowed) :
    FailsOnly (items.mapM action) allowed := by
  induction items with
  | nil => exact pure []
  | cons item rest ih =>
    rw [List.mapM_cons]
    refine (h item List.mem_cons_self).bind fun value => ?_
    exact (ih fun other hother => h other (List.mem_cons_of_mem _ hother)).bind fun values => pure _

theorem charge {limit : ℕ} (h : allowed (.tooManyValues limit)) :
    FailsOnly (Unfolding.charge limit) allowed := by
  intro budget failure hrun
  cases budget with
  | zero => cases hrun; exact h
  | succ left => cases hrun

theorem keyOf {convert : Cell → Unfolding Value} {cell : Cell}
    (h : FailsOnly (convert cell) allowed) (hkey : allowed .unhashable) :
    FailsOnly (Unfolding.keyOf convert cell) allowed := by
  refine h.bind fun value => ?_
  unfold Unfolding.key
  split
  · exact pure _
  · intro budget failure hrun
    cases hrun
    exact hkey

end FailsOnly

end Unfolding

open Unfolding

variable {convert : Cell → Unfolding Value} {tree? : Cell → Option Value}

theorem gives_pairs (h : ∀ cell, Gives (convert cell) (tree? cell)) (cells : List (Cell × Cell)) :
    Gives (Unfolding.pairs convert cells) (Machine.pairTrees? tree? cells) := by
  refine (Gives.mapM (fun pair => ?_) cells).bind fun converted => .pure _
  have hkey : Gives (Unfolding.keyOf convert pair.1) (tree? pair.1 >>= Value.toKey?) :=
    (h pair.1).bind Gives.key
  have hpair := hkey.bind fun key => (h pair.2).bind fun value => Gives.pure (key, value)
  simpa only [bind_assoc] using hpair

theorem gives_keys (h : ∀ cell, Gives (convert cell) (tree? cell)) (cells : List Cell) :
    Gives (do return Key.setOf (← cells.mapM (Unfolding.keyOf convert)))
      (Machine.keyTrees? tree? cells) :=
  (Gives.mapM (fun cell => (h cell).bind Gives.key) cells).bind fun _ => .pure _

/-- Converting a content gives the tree of the content. -/
theorem gives_content (h : ∀ cell, Gives (convert cell) (tree? cell)) (limit : ℕ)
    (content : Content) :
    Gives (Unfolding.content convert limit content) (Machine.contentTree? tree? content) := by
  refine .charge ?_
  cases content with
  | atom value => exact .pure _
  | list items => exact (Gives.mapM h items.toList).bind fun values => .pure _
  | tuple items => exact (Gives.mapM h items).bind fun values => .pure _
  | set items =>
    have hkeys := (gives_keys h items.toList).bind fun keys => Gives.pure (Value.set keys)
    simp only [bind_assoc, pure_bind] at hkeys
    exact hkeys
  | frozenSet items =>
    have hkeys := (gives_keys h items).bind fun keys => Gives.pure (Value.frozenSet keys)
    simp only [bind_assoc, pure_bind] at hkeys
    exact hkeys
  | dict cells => exact (gives_pairs h cells.toList).bind fun pairs => .pure _
  | object value =>
    -- The keyword arguments come first here and second in the tree, so the parts are taken one by
    -- one instead of bind by bind.
    intro budget result left hrun
    obtain ⟨⟨kwargs, _⟩, hkwargs, hrun⟩ := exists_of_bind_eq_ok hrun
    obtain ⟨⟨converted, _⟩, hconverted, hmap⟩ := exists_of_bind_eq_ok hkwargs
    obtain ⟨⟨args, _⟩, hargs, hrun⟩ := exists_of_bind_eq_ok hrun
    obtain ⟨⟨attributes, _⟩, hattributes, hrun⟩ := exists_of_bind_eq_ok hrun
    obtain ⟨⟨state, _⟩, hstate, hdone⟩ := exists_of_bind_eq_ok hrun
    cases hmap
    cases hdone
    have hkeyword : ∀ pair : String × Cell,
        Gives (do return (pair.1, ← convert pair.2)) (do return (pair.1, ← tree? pair.2)) :=
      fun pair => (h pair.2).bind fun value => .pure _
    have hargs' := Gives.mapM h value.args _ _ _ hargs
    have hkwargs' := Gives.mapM hkeyword value.kwargs _ _ _ hconverted
    have hattributes' := gives_pairs h value.attributes _ _ _ hattributes
    have hstate' := Gives.optionMapM h value.state _ _ _ hstate
    simp only [Option.bind_eq_bind] at hkwargs'
    simp only [Machine.contentTree?, hargs', hkwargs', hattributes', hstate', Option.bind_eq_bind,
      Option.bind_some]
    rfl

theorem mem_pairCells {pairs : List (Cell × Cell)} {pair : Cell × Cell} (h : pair ∈ pairs) :
    pair.1 ∈ pairCells pairs ∧ pair.2 ∈ pairCells pairs :=
  ⟨List.mem_flatMap.2 ⟨pair, h, by simp⟩, List.mem_flatMap.2 ⟨pair, h, by simp⟩⟩

theorem failsOnly_pairs {allowed : Failure → Prop} {cells : List (Cell × Cell)}
    (h : ∀ cell ∈ pairCells cells, FailsOnly (convert cell) allowed)
    (hkey : allowed .unhashable) : FailsOnly (Unfolding.pairs convert cells) allowed := by
  refine (FailsOnly.mapM fun pair hpair => ?_).bind fun converted => .pure _
  obtain ⟨hfirst, hsecond⟩ := mem_pairCells hpair
  exact (FailsOnly.keyOf (h _ hfirst) hkey).bind fun key => (h _ hsecond).bind fun value => .pure _

/-- Converting a content fails as one of its cells does, or because of the budget or a key. -/
theorem failsOnly_content {allowed : Failure → Prop} {content : Content} {limit : ℕ}
    (h : ∀ cell ∈ content.cells, FailsOnly (convert cell) allowed)
    (hcharge : allowed (.tooManyValues limit)) (hkey : allowed .unhashable) :
    FailsOnly (Unfolding.content convert limit content) allowed := by
  refine (FailsOnly.charge hcharge).bind fun _ => ?_
  cases content with
  | atom value => exact .pure _
  | list items | tuple items => exact (FailsOnly.mapM h).bind fun values => .pure _
  | set items | frozenSet items =>
    exact (FailsOnly.mapM fun cell hcell => .keyOf (h cell hcell) hkey).bind fun keys => .pure _
  | dict cells => exact (failsOnly_pairs h hkey).bind fun pairs => .pure _
  | object value =>
    simp only [Content.cells, List.mem_append, or_imp, forall_and] at h
    obtain ⟨⟨⟨hargs, hkwargs⟩, hattributes⟩, hstate⟩ := h
    refine .bind (.bind (.mapM fun pair hpair => ?_) fun converted => .pure _) fun kwargs => ?_
    · exact (hkwargs _ (List.mem_map_of_mem hpair)).bind fun value => .pure _
    · refine (FailsOnly.mapM hargs).bind fun args => ?_
      refine (failsOnly_pairs hattributes hkey).bind fun attributes => .bind ?_ fun state => .pure _
      cases hvalue : value.state with
      | none => exact .pure _
      | some cell => exact (hstate cell (by simp [hvalue])).bind fun value => .pure _

namespace Machine

variable {machine : Machine}

/-- Converting a cell gives the tree of the cell, whatever limits and enclosing slots are. -/
theorem gives_unfold (limit levels : ℕ) (enclosing : List ℕ) (cell : Cell) :
    Gives (machine.unfold limit levels enclosing cell) (machine.tree? levels cell) := by
  induction levels generalizing enclosing cell with
  | zero =>
    cases cell with
    | atom value => exact .charge (.pure _)
    | ref slot => exact .charge (.fail _ _)
  | succ levels ih =>
    cases cell with
    | atom value => exact .charge (.pure _)
    | ref slot =>
      refine .charge ?_
      split
      · exact .fail _ _
      · exact gives_content (ih (slot :: enclosing)) limit (machine.slot slot)

/-- A conversion calls a structure recursive only when the cell is cyclic or leads back to one of
the slots that enclose it. -/
theorem failsOnly_unfold (limit levels : ℕ) (enclosing : List ℕ) (cell : Cell) :
    FailsOnly (machine.unfold limit levels enclosing cell) fun failure =>
      failure = .recursive →
        machine.IsCyclic cell ∨ ∃ slot ∈ enclosing, machine.Reaches cell slot := by
  induction levels generalizing enclosing cell with
  | zero =>
    cases cell with
    | atom value => exact (FailsOnly.charge (by simp)).bind fun _ => .pure _
    | ref slot =>
      refine (FailsOnly.charge (by simp)).bind fun _ => ?_
      rintro budget failure ⟨⟩ ⟨⟩
  | succ levels ih =>
    cases cell with
    | atom value => exact (FailsOnly.charge (by simp)).bind fun _ => .pure _
    | ref slot =>
      refine (FailsOnly.charge (by simp)).bind fun _ => ?_
      split
      · next hslot =>
        rintro budget failure ⟨⟩ _
        exact .inr ⟨slot, by simpa using hslot, .slot slot⟩
      · refine failsOnly_content (fun inner hinner => ?_) (by simp) (by simp)
        intro budget failure hrun hfailure
        rcases ih (slot :: enclosing) inner budget failure hrun hfailure with
          ⟨index, hreach, hcycle⟩ | ⟨index, hindex, hreach⟩
        · exact .inl ⟨index, .inside hinner hreach, hcycle⟩
        · rcases List.mem_cons.1 hindex with rfl | hindex
          · exact .inl ⟨index, .slot index, inner, hinner, hreach⟩
          · exact .inr ⟨index, hindex, .inside hinner hreach⟩

end Machine

/-! ## Trees and the trees of their parts -/

section Parts

variable {α γ : Type}

theorem exists_of_mem_of_mapM {f : γ → Option α} {items : List γ} {values : List α}
    (h : items.mapM f = some values) : ∀ item ∈ items, ∃ value, f item = some value := by
  induction items generalizing values with
  | nil => simp
  | cons item rest ih =>
    rw [List.mapM_cons] at h
    obtain ⟨value, hvalue, hrest⟩ := Option.bind_eq_some_iff.1 h
    obtain ⟨others, hothers, -⟩ := Option.bind_eq_some_iff.1 hrest
    intro other hother
    rcases List.mem_cons.1 hother with rfl | hother
    · exact ⟨value, hvalue⟩
    · exact ih hothers other hother

theorem mapM_congr_of_mem {f g : γ → Option α} {items : List γ}
    (h : ∀ item ∈ items, f item = g item) : items.mapM f = items.mapM g := by
  induction items with
  | nil => rfl
  | cons item rest ih =>
    have hrest := ih fun other hother => h other (List.mem_cons_of_mem _ hother)
    rw [List.mapM_cons, List.mapM_cons, h item List.mem_cons_self, hrest]

end Parts

namespace Machine

variable {other : Cell → Option Value}

theorem exists_tree_of_mem_pairCells {pairs : List (Cell × Cell)} {map : List (Key × Value)}
    (h : pairTrees? tree? pairs = some map) :
    ∀ inner ∈ pairCells pairs, ∃ value, tree? inner = some value := by
  obtain ⟨trees, htrees, -⟩ := Option.bind_eq_some_iff.1 h
  intro inner hinner
  obtain ⟨pair, hpair, hmem⟩ := List.mem_flatMap.1 hinner
  obtain ⟨tree, htree⟩ := exists_of_mem_of_mapM htrees pair hpair
  obtain ⟨first, hfirst, hrest⟩ := Option.bind_eq_some_iff.1 htree
  obtain ⟨key, -, hrest⟩ := Option.bind_eq_some_iff.1 hrest
  obtain ⟨second, hsecond, -⟩ := Option.bind_eq_some_iff.1 hrest
  rcases List.mem_cons.1 hmem with rfl | hmem
  · exact ⟨first, hfirst⟩
  · obtain rfl := List.mem_singleton.1 hmem
    exact ⟨second, hsecond⟩

theorem exists_tree_of_mem_keys {cells : List Cell} {keys : List Key}
    (h : keyTrees? tree? cells = some keys) :
    ∀ inner ∈ cells, ∃ value, tree? inner = some value := by
  obtain ⟨trees, htrees, -⟩ := Option.bind_eq_some_iff.1 h
  intro inner hinner
  obtain ⟨key, hkey⟩ := exists_of_mem_of_mapM htrees inner hinner
  obtain ⟨value, hvalue, -⟩ := Option.bind_eq_some_iff.1 hkey
  exact ⟨value, hvalue⟩

/-- A content has a tree only if all its cells have. -/
theorem exists_tree_of_mem_cells {content : Content} {value : Value}
    (h : contentTree? tree? content = some value) :
    ∀ inner ∈ content.cells, ∃ value, tree? inner = some value := by
  cases content with
  | atom value => simp [Content.cells]
  | list items | tuple items =>
    obtain ⟨values, hvalues, -⟩ := Option.bind_eq_some_iff.1 h
    exact exists_of_mem_of_mapM hvalues
  | set items | frozenSet items =>
    obtain ⟨keys, hkeys, -⟩ := Option.bind_eq_some_iff.1 h
    exact exists_tree_of_mem_keys hkeys
  | dict pairs =>
    obtain ⟨map, hmap, -⟩ := Option.bind_eq_some_iff.1 h
    exact exists_tree_of_mem_pairCells hmap
  | object value =>
    obtain ⟨args, hargs, hrest⟩ := Option.bind_eq_some_iff.1 h
    obtain ⟨kwargs, hkwargs, hrest⟩ := Option.bind_eq_some_iff.1 hrest
    obtain ⟨attributes, hattributes, hrest⟩ := Option.bind_eq_some_iff.1 hrest
    obtain ⟨state, hstate, -⟩ := Option.bind_eq_some_iff.1 hrest
    simp only [Content.cells, List.mem_append]
    -- The cells of an object are listed part by part, as the tree takes them.
    rintro inner (((hinner | hinner) | hinner) | hinner)
    · exact exists_of_mem_of_mapM hargs inner hinner
    · obtain ⟨pair, hpair, rfl⟩ := List.mem_map.1 hinner
      obtain ⟨keyword, hkeyword⟩ := exists_of_mem_of_mapM hkwargs pair hpair
      obtain ⟨tree, htree, -⟩ := Option.bind_eq_some_iff.1 hkeyword
      exact ⟨tree, htree⟩
    · exact exists_tree_of_mem_pairCells hattributes inner hinner
    · obtain ⟨cell, hcell⟩ : ∃ cell, value.state = some cell := by
        cases hvalue : value.state with
        | none => simp [hvalue] at hinner
        | some cell => exact ⟨cell, rfl⟩
      obtain rfl : inner = cell := by simpa [hcell] using hinner
      rw [hcell] at hstate
      cases htree : tree? inner with
      | none => simp [htree] at hstate
      | some tree => exact ⟨tree, rfl⟩

theorem pairTrees?_congr {pairs : List (Cell × Cell)}
    (h : ∀ inner ∈ pairCells pairs, tree? inner = other inner) :
    pairTrees? tree? pairs = pairTrees? other pairs := by
  have hpairs : ∀ pair ∈ pairs,
      (do let key ← (← tree? pair.1).toKey?; return (key, ← tree? pair.2) : Option (Key × Value)) =
        (do let key ← (← other pair.1).toKey?; return (key, ← other pair.2)) := by
    intro pair hpair
    obtain ⟨hfirst, hsecond⟩ := mem_pairCells hpair
    rw [h _ hfirst, h _ hsecond]
  unfold pairTrees?
  rw [mapM_congr_of_mem hpairs]

theorem keyTrees?_congr {cells : List Cell} (h : ∀ inner ∈ cells, tree? inner = other inner) :
    keyTrees? tree? cells = keyTrees? other cells := by
  unfold keyTrees?
  rw [mapM_congr_of_mem fun inner hinner => by rw [h inner hinner]]

/-- The tree of a content depends on the trees of its cells alone. -/
theorem contentTree?_congr {content : Content}
    (h : ∀ inner ∈ content.cells, tree? inner = other inner) :
    contentTree? tree? content = contentTree? other content := by
  cases content with
  | atom value => rfl
  | list items =>
    have hitems : items.toList.mapM tree? = items.toList.mapM other := mapM_congr_of_mem h
    simp only [contentTree?, hitems]
  | tuple items =>
    have hitems : items.mapM tree? = items.mapM other := mapM_congr_of_mem h
    simp only [contentTree?, hitems]
  | set items =>
    have hkeys : keyTrees? tree? items.toList = keyTrees? other items.toList := keyTrees?_congr h
    simp only [contentTree?, hkeys]
  | frozenSet items =>
    have hkeys : keyTrees? tree? items = keyTrees? other items := keyTrees?_congr h
    simp only [contentTree?, hkeys]
  | dict pairs =>
    have hpairs : pairTrees? tree? pairs.toList = pairTrees? other pairs.toList :=
      pairTrees?_congr h
    simp only [contentTree?, hpairs]
  | object value =>
    simp only [Content.cells, List.mem_append, or_imp, forall_and] at h
    obtain ⟨⟨⟨hargs, hkwargs⟩, hattributes⟩, hstate⟩ := h
    have hkeywords : ∀ pair ∈ value.kwargs,
        (do return (pair.1, ← tree? pair.2) : Option (String × Value)) =
          (do return (pair.1, ← other pair.2)) := by
      intro pair hpair
      rw [hkwargs _ (List.mem_map_of_mem hpair)]
    have hstate' : value.state.mapM tree? = value.state.mapM other := by
      cases hvalue : value.state with
      | none => rfl
      | some cell =>
        show some <$> tree? cell = some <$> other cell
        rw [hstate cell (by simp [hvalue])]
    simp only [contentTree?, mapM_congr_of_mem hargs, mapM_congr_of_mem hkeywords,
      pairTrees?_congr hattributes, hstate']

variable {machine : Machine}

/-- A tree is found from every greater height as well. -/
theorem tree?_succ {height : ℕ} {cell : Cell} {value : Value}
    (h : machine.tree? height cell = some value) :
    machine.tree? (height + 1) cell = some value := by
  induction height generalizing cell value with
  | zero =>
    cases cell with
    | atom atom => exact h
    | ref slot => cases h
  | succ height ih =>
    cases cell with
    | atom atom => exact h
    | ref slot =>
      have hcells : ∀ inner ∈ (machine.slot slot).cells,
          machine.tree? (height + 1) inner = machine.tree? height inner := by
        intro inner hinner
        obtain ⟨tree, htree⟩ := exists_tree_of_mem_cells h inner hinner
        rw [htree, ih htree]
      exact (contentTree?_congr hcells).trans h

theorem tree?_mono {height more : ℕ} (hle : height ≤ more) {cell : Cell} {value : Value}
    (h : machine.tree? height cell = some value) : machine.tree? more cell = some value := by
  induction hle with
  | refl => exact h
  | step _ ih => exact tree?_succ ih

/-- A cell has one tree. -/
theorem Unfolds.unique {cell : Cell} {first second : Value} (hfirst : machine.Unfolds cell first)
    (hsecond : machine.Unfolds cell second) : first = second := by
  obtain ⟨height, hfirst⟩ := hfirst
  obtain ⟨more, hsecond⟩ := hsecond
  have h := tree?_mono (Nat.le_max_left height more) hfirst
  rw [tree?_mono (Nat.le_max_right height more) hsecond] at h
  exact (Option.some.inj h).symm

/-! ## Cycles -/

/-- What a cell with a tree reaches has a tree from no greater height. -/
theorem exists_tree_of_reaches {cell : Cell} {index : ℕ} (hreach : machine.Reaches cell index) :
    ∀ {height : ℕ} {value : Value}, machine.tree? height cell = some value →
      ∃ lower ≤ height, ∃ tree, machine.tree? lower (.ref index) = some tree := by
  induction hreach with
  | slot index => exact fun h => ⟨_, le_rfl, _, h⟩
  | inside held _ ih =>
    intro height value h
    cases height with
    | zero => cases h
    | succ height =>
      obtain ⟨tree, htree⟩ := exists_tree_of_mem_cells h _ held
      obtain ⟨lower, hle, found⟩ := ih htree
      exact ⟨lower, hle.trans (Nat.le_succ height), found⟩

/-- A slot with a tree is not found again from its own content: there it would have a tree from a
smaller height, and from a smaller one in turn. -/
theorem not_reaches_of_tree {index : ℕ} {inner : Cell}
    (hinner : inner ∈ (machine.slot index).cells) (height : ℕ) {value : Value}
    (h : machine.tree? height (.ref index) = some value) : ¬ machine.Reaches inner index := by
  intro hreach
  induction height using Nat.strong_induction_on generalizing value with
  | _ height ih =>
    cases height with
    | zero => cases h
    | succ height =>
      obtain ⟨tree, htree⟩ := exists_tree_of_mem_cells h inner hinner
      obtain ⟨lower, hle, found, hfound⟩ := exists_tree_of_reaches hreach htree
      exact ih lower (Nat.lt_succ_of_le hle) hfound

/-- A cell with a tree is not cyclic. -/
theorem Unfolds.not_isCyclic {cell : Cell} {value : Value} (h : machine.Unfolds cell value) :
    ¬ machine.IsCyclic cell := by
  rintro ⟨index, hreach, inner, hinner, hback⟩
  obtain ⟨height, htree⟩ := h
  obtain ⟨lower, -, tree, hlower⟩ := exists_tree_of_reaches hreach htree
  exact not_reaches_of_tree hinner lower hlower hback

/-- A conversion in any state of its bookkeeping gives the tree of the cell, if anything. -/
theorem unfolds_of_unfold {limit levels budget left : ℕ} {enclosing : List ℕ} {cell : Cell}
    {value : Value} (h : machine.unfold limit levels enclosing cell budget = .ok (value, left)) :
    machine.Unfolds cell value := ⟨levels, gives_unfold limit levels enclosing cell _ _ _ h⟩

theorem value_eq_map (machine : Machine) (cell : Cell) :
    machine.value cell =
      Prod.fst <$> machine.unfold machine.nodeLimit maxDepth [] cell machine.nodeLimit := rfl

theorem unfold_of_value {cell : Cell} {value : Value} (h : machine.value cell = .ok value) :
    ∃ left, machine.unfold machine.nodeLimit maxDepth [] cell machine.nodeLimit =
      .ok (value, left) := by
  rw [value_eq_map] at h
  cases hrun : machine.unfold machine.nodeLimit maxDepth [] cell machine.nodeLimit with
  | error failure =>
    rw [hrun] at h
    cases h
  | ok pair =>
    rw [hrun] at h
    cases h
    exact ⟨pair.2, rfl⟩

theorem unfolds_of_value {cell : Cell} {value : Value} (h : machine.value cell = .ok value) :
    machine.Unfolds cell value :=
  have ⟨_, hrun⟩ := unfold_of_value h
  unfolds_of_unfold hrun

theorem unfold_of_value_error {cell : Cell} {failure : Failure}
    (h : machine.value cell = .error failure) :
    machine.unfold machine.nodeLimit maxDepth [] cell machine.nodeLimit = .error failure := by
  rw [value_eq_map] at h
  cases hrun : machine.unfold machine.nodeLimit maxDepth [] cell machine.nodeLimit with
  | error other =>
    rw [hrun] at h
    cases h
    rfl
  | ok pair =>
    rw [hrun] at h
    cases h

/-- What conversion has to do with trees and cycles, in any machine.  The value of a cell is the one
tree of the cell, and then there is no cycle; this holds for whatever budget, number of levels and
enclosing slots a conversion starts with.  On a cycle every conversion comes to an end, with a
failure; and the failure that names a recursive structure comes up on cycles only. -/
theorem value_spec (machine : Machine) (cell : Cell) :
    (∀ value, machine.value cell = .ok value →
      ¬ machine.IsCyclic cell ∧ ∀ tree, machine.Unfolds cell tree ↔ tree = value) ∧
    (∀ limit levels enclosing budget value left,
      machine.unfold limit levels enclosing cell budget = .ok (value, left) →
        ¬ machine.IsCyclic cell ∧ ∀ tree, machine.Unfolds cell tree ↔ tree = value) ∧
    (machine.IsCyclic cell →
      (∃ failure, machine.value cell = .error failure) ∧
        ∀ limit levels enclosing budget, ∃ failure,
          machine.unfold limit levels enclosing cell budget = .error failure) ∧
    (machine.value cell = .error .recursive → machine.IsCyclic cell) := by
  have hunfolds : ∀ value, machine.Unfolds cell value →
      ¬ machine.IsCyclic cell ∧ ∀ tree, machine.Unfolds cell tree ↔ tree = value := by
    intro value h
    exact ⟨h.not_isCyclic, fun tree => ⟨fun htree => htree.unique h, fun heq => heq ▸ h⟩⟩
  refine ⟨fun value h => hunfolds value (unfolds_of_value h),
    fun _ _ _ _ value _ h => hunfolds value (unfolds_of_unfold h), fun hcyclic => ⟨?_, ?_⟩, ?_⟩
  · cases hvalue : machine.value cell with
    | error failure => exact ⟨failure, rfl⟩
    | ok value => exact absurd hcyclic (unfolds_of_value hvalue).not_isCyclic
  · intro limit levels enclosing budget
    cases hrun : machine.unfold limit levels enclosing cell budget with
    | error failure => exact ⟨failure, rfl⟩
    | ok pair => exact absurd hcyclic (unfolds_of_unfold hrun).not_isCyclic
  · intro h
    rcases failsOnly_unfold _ _ _ _ _ _ (unfold_of_value_error h) rfl with hcyclic | ⟨_, hmem, _⟩
    · exact hcyclic
    · cases hmem

end Machine

end Pickle
