import Pickle.Machine.Embed
import Pickle.Machine.Heap
import Pickle.Proofs.Value.Parts

/-!
# Laws for taking values apart

Taking a value apart is one recursion over seven kinds of things, and all that it does to the machine
is to enter nodes and to allocate contents.  What is to be shown of it is shown of these two, and of
actions in sequence: an `Exec.EmbeddingLaw` is a property of actions and their results that can be
put together in this way, and it holds of every value whose atoms are good
(`Exec.EmbeddingLaw.embed`).
-/

namespace Pickle

/-- Whether a cell is a reference or a good atom. -/
def Cell.All (good : Atom → Prop) : Cell → Prop
  | .ref _ => True
  | .atom value => good value

/-- Whether all atoms that a content has in its cells, or is, are good. -/
structure Content.All (good : Atom → Prop) (content : Content) : Prop where
  cells : ∀ cell ∈ content.cells, cell.All good
  atom : ∀ value, content = .atom value → good value

theorem Content.All.ofAtom {good : Atom → Prop} {value : Atom} (h : good value) :
    (Content.atom value).All good := by
  refine ⟨by simp [Content.cells], ?_⟩
  rintro other ⟨⟩
  exact h

open Value (AllAtoms pairParts)

namespace Exec

/-- Whether something holds of an action and its good results whenever it holds of the steps of the
action: entering a node, allocating a content with good atoms, and returning a good result. -/
structure EmbeddingLaw (good : Atom → Prop) (holds : {α : Type} → Exec α → (α → Prop) → Prop) :
    Prop where
  /-- Returning a good result. -/
  pure {α : Type} {fine : α → Prop} {value : α} (h : fine value) : holds (Pure.pure value) fine
  /-- One action after another, which can rely on the result of the first. -/
  bind {α β : Type} {middle : α → Prop} {fine : β → Prop} {action : Exec α} {next : α → Exec β}
    (hfirst : holds action middle) (hsecond : ∀ value, middle value → holds (next value) fine) :
    holds (action >>= next) fine
  /-- Entering a node. -/
  enter (levels : ℕ) : holds (Exec.enter levels) fun _ => True
  /-- Allocating a content. -/
  alloc {content : Content} (h : content.All good) : holds (Exec.alloc content) (Cell.All good)

namespace EmbeddingLaw

variable {good : Atom → Prop} {holds : {α : Type} → Exec α → (α → Prop) → Prop}

/-- The cells of a container are what has to be good about it. -/
theorem allocCells (law : EmbeddingLaw good holds) {content : Content}
    (h : ∀ cell ∈ content.cells, cell.All good) (hcontent : ∀ value, content ≠ .atom value) :
    holds (Exec.alloc content) (Cell.All good) :=
  law.alloc ⟨h, fun value heq => absurd heq (hcontent value)⟩

mutual

theorem embedKey (law : EmbeddingLaw good holds) (levels : ℕ) : (key : Key) →
    key.toValue.AllAtoms good → holds (Exec.embedKey levels key) (Cell.All good)
  | .scalar value, h => by
    rw [Exec.embedKey]
    exact law.bind (law.enter levels) fun _ _ => law.pure (Value.allAtoms_atom_iff.1 h)
  | .tuple items, h => by
    rw [Exec.embedKey]
    refine law.bind (law.enter levels) fun levels _ => ?_
    refine law.bind (law.embedKeys levels #[] items (fun _ => h.of_mem) (by simp))
      fun cells hcells => ?_
    exact law.allocCells (by simpa [Content.cells] using hcells) (by simp)
  | .frozenSet items, h => by
    rw [Exec.embedKey]
    refine law.bind (law.enter levels) fun levels _ => ?_
    refine law.bind (law.embedKeys levels #[] items (fun _ => h.of_mem) (by simp))
      fun cells hcells => ?_
    exact law.allocCells (by simpa [Content.cells] using hcells) (by simp)

theorem embedKeys (law : EmbeddingLaw good holds) (levels : ℕ) (cells : Array Cell) :
    (items : List Key) → (∀ value ∈ Key.toValues items, value.AllAtoms good) →
      (∀ cell ∈ cells, cell.All good) →
        holds (Exec.embedKeys levels cells items) fun cells => ∀ cell ∈ cells, cell.All good
  | [], _, hcells => by
    rw [Exec.embedKeys]
    exact law.pure hcells
  | item :: rest, h, hcells => by
    rw [Exec.embedKeys]
    obtain ⟨hitem, hrest⟩ := List.forall_mem_cons.1 h
    refine law.bind (law.embedKey levels item hitem) fun cell hcell => ?_
    exact law.embedKeys levels _ rest hrest (by simpa [or_imp, forall_and] using ⟨hcells, hcell⟩)

end

mutual

theorem embedAt (law : EmbeddingLaw good holds) (levels : ℕ) : (value : Value) →
    value.AllAtoms good → holds (Exec.embedAt levels value) (Cell.All good)
  | .atom value, h => by
    rw [Exec.embedAt]
    exact law.bind (law.enter levels) fun _ _ => law.pure (Value.allAtoms_atom_iff.1 h)
  | .list items, h => by
    rw [Exec.embedAt]
    refine law.bind (law.enter levels) fun levels _ => ?_
    refine law.bind (law.embedAll levels #[] items (fun _ => h.of_mem) (by simp))
      fun cells hcells => ?_
    exact law.allocCells (by simpa [Content.cells] using hcells) (by simp)
  | .tuple items, h => by
    rw [Exec.embedAt]
    refine law.bind (law.enter levels) fun levels _ => ?_
    refine law.bind (law.embedAll levels #[] items (fun _ => h.of_mem) (by simp))
      fun cells hcells => ?_
    exact law.allocCells (by simpa [Content.cells] using hcells) (by simp)
  | .set items, h => by
    rw [Exec.embedAt]
    refine law.bind (law.enter levels) fun levels _ => ?_
    refine law.bind (law.embedKeys levels #[] items (fun _ => h.of_mem) (by simp))
      fun cells hcells => ?_
    exact law.allocCells (by simpa [Content.cells] using hcells) (by simp)
  | .frozenSet items, h => by
    rw [Exec.embedAt]
    refine law.bind (law.enter levels) fun levels _ => ?_
    refine law.bind (law.embedKeys levels #[] items (fun _ => h.of_mem) (by simp))
      fun cells hcells => ?_
    exact law.allocCells (by simpa [Content.cells] using hcells) (by simp)
  | .dict pairs, h => by
    rw [Exec.embedAt]
    refine law.bind (law.enter levels) fun levels _ => ?_
    refine law.bind (law.embedPairs levels #[] pairs (fun _ => h.of_mem) (by simp [pairCells]))
      fun cells hcells => ?_
    exact law.allocCells (by simpa [Content.cells] using hcells) (by simp)
  | .object ⟨className, args, kwargs, attributes, state⟩, h => by
    rw [Exec.embedAt]
    have hparts : ∀ part ∈ args ++ kwargs.map Prod.snd ++ pairParts attributes ++ state.toList,
        part.AllAtoms good := fun _ => h.of_mem
    simp only [List.forall_mem_append] at hparts
    obtain ⟨⟨⟨hargs, hkwargs⟩, hattributes⟩, hstate⟩ := hparts
    refine law.bind (law.enter levels) fun levels _ => ?_
    refine law.bind (law.embedAll levels #[] args hargs (by simp)) fun args hargs => ?_
    refine law.bind (law.embedKeywords levels #[] kwargs hkwargs (by simp)) fun kwargs hkwargs => ?_
    refine law.bind (law.embedPairs levels #[] attributes hattributes (by simp [pairCells]))
      fun attributes hattributes => ?_
    refine law.bind (law.embedState levels state hstate) fun state hstate => ?_
    refine law.allocCells ?_ (by simp)
    simp only [Content.cells, List.forall_mem_append]
    exact ⟨⟨⟨by simpa using hargs, hkwargs⟩, hattributes⟩, hstate⟩

theorem embedAll (law : EmbeddingLaw good holds) (levels : ℕ) (cells : Array Cell) :
    (items : List Value) → (∀ value ∈ items, value.AllAtoms good) →
      (∀ cell ∈ cells, cell.All good) →
        holds (Exec.embedAll levels cells items) fun cells => ∀ cell ∈ cells, cell.All good
  | [], _, hcells => by
    rw [Exec.embedAll]
    exact law.pure hcells
  | item :: rest, h, hcells => by
    rw [Exec.embedAll]
    obtain ⟨hitem, hrest⟩ := List.forall_mem_cons.1 h
    refine law.bind (law.embedAt levels item hitem) fun cell hcell => ?_
    exact law.embedAll levels _ rest hrest (by simpa [or_imp, forall_and] using ⟨hcells, hcell⟩)

theorem embedPairs (law : EmbeddingLaw good holds) (levels : ℕ) (cells : Array (Cell × Cell)) :
    (pairs : List (Key × Value)) → (∀ value ∈ pairParts pairs, value.AllAtoms good) →
      (∀ cell ∈ pairCells cells.toList, cell.All good) →
        holds (Exec.embedPairs levels cells pairs) fun cells =>
          ∀ cell ∈ pairCells cells.toList, cell.All good
  | [], _, hcells => by
    rw [Exec.embedPairs]
    exact law.pure hcells
  | (key, value) :: rest, h, hcells => by
    rw [Exec.embedPairs]
    obtain ⟨hkey, hvalue, hrest⟩ := (List.forall_mem_cons.1 h).imp_right List.forall_mem_cons.1
    refine law.bind (law.embedKey levels key hkey) fun key hkey => ?_
    refine law.bind (law.embedAt levels value hvalue) fun value hvalue => ?_
    refine law.embedPairs levels _ rest hrest ?_
    rw [Array.toList_push, pairCells, List.flatMap_append, List.forall_mem_append]
    exact ⟨hcells, by simpa using ⟨hkey, hvalue⟩⟩

theorem embedKeywords (law : EmbeddingLaw good holds) (levels : ℕ)
    (cells : Array (String × Cell)) :
    (kwargs : List (String × Value)) → (∀ value ∈ kwargs.map Prod.snd, value.AllAtoms good) →
      (∀ cell ∈ cells.toList.map Prod.snd, cell.All good) →
        holds (Exec.embedKeywords levels cells kwargs) fun cells =>
          ∀ cell ∈ cells.toList.map Prod.snd, cell.All good
  | [], _, hcells => by
    rw [Exec.embedKeywords]
    exact law.pure hcells
  | (name, value) :: rest, h, hcells => by
    rw [Exec.embedKeywords]
    obtain ⟨hvalue, hrest⟩ := List.forall_mem_cons.1 h
    refine law.bind (law.embedAt levels value hvalue) fun value hvalue => ?_
    refine law.embedKeywords levels _ rest hrest ?_
    rw [Array.toList_push, List.map_append, List.forall_mem_append]
    exact ⟨hcells, by simpa using hvalue⟩

theorem embedState (law : EmbeddingLaw good holds) (levels : ℕ) : (state : Option Value) →
    (∀ value ∈ state.toList, value.AllAtoms good) →
      holds (Exec.embedState levels state) fun state => ∀ cell ∈ state.toList, cell.All good
  | none, _ => by
    rw [Exec.embedState]
    exact law.pure (by simp)
  | some value, h => by
    rw [Exec.embedState]
    exact law.bind (law.embedAt levels value (h value (by simp))) fun cell hcell =>
      law.pure (by simpa using hcell)

end

/-- A law holds of taking apart a value with good atoms, whatever its shape. -/
theorem embed (law : EmbeddingLaw good holds) {value : Value} (h : value.AllAtoms good) :
    holds (Exec.embed value) (Cell.All good) := law.embedAt maxDepth value h

end EmbeddingLaw

end Exec

end Pickle
