import Mathlib.Algebra.GroupWithZero.Nat
import Mathlib.Data.List.TakeWhile
import Pickle.Proofs.Machine.Aliasing
import Pickle.Proofs.Machine.Keeping
import Pickle.Value.Measure

/-!
# What was created

The machine counts what it creates, since this is what bounds the values that leave it.  The count
can be told from outside: it is the number of instructions that were carried out, with success or
not, and of the nodes of host values that were visited when these were taken apart.

A value of the host is visited node by node, up to the first one that `maxDepth` containers enclose,
if there is one (`Value.visited`).  `Exec.imports` reads off an operation which values of the host
it takes apart, and `imports_step` shows that the count grows by just their visits, and that slots are
paid for by it; `accounts_after` follows this through a program.
-/

namespace Pickle

/-! ## Visits of values -/

namespace Key

mutual

/-- How many containers enclose each node of a key, for a key that `outer` containers enclose, in the
order in which it is taken apart. -/
def enclosures (outer : ℕ) : Key → List ℕ
  | .scalar _ => [outer]
  | .tuple items => outer :: enclosuresAll (outer + 1) items
  | .frozenSet items => outer :: enclosuresAll (outer + 1) items

/-- How many containers enclose each node of some keys. -/
def enclosuresAll (outer : ℕ) : List Key → List ℕ
  | [] => []
  | item :: rest => enclosures outer item ++ enclosuresAll outer rest

end

end Key

namespace Value

mutual

/-- How many containers and instances enclose each node of a value, for a value that `outer` of them
enclose, in the order in which it is taken apart. -/
def enclosures (outer : ℕ) : Value → List ℕ
  | .atom _ => [outer]
  | .list items => outer :: enclosuresAll (outer + 1) items
  | .tuple items => outer :: enclosuresAll (outer + 1) items
  | .set items => outer :: Key.enclosuresAll (outer + 1) items
  | .frozenSet items => outer :: Key.enclosuresAll (outer + 1) items
  | .dict pairs => outer :: enclosuresPairs (outer + 1) pairs
  | .object ⟨_, args, kwargs, attributes, state⟩ =>
    outer :: (enclosuresAll (outer + 1) args ++ (enclosuresKeywords (outer + 1) kwargs ++
      (enclosuresPairs (outer + 1) attributes ++ enclosuresState (outer + 1) state)))

/-- How many containers enclose each node of some values. -/
def enclosuresAll (outer : ℕ) : List Value → List ℕ
  | [] => []
  | item :: rest => enclosures outer item ++ enclosuresAll outer rest

/-- How many containers enclose each node of some pairs. -/
def enclosuresPairs (outer : ℕ) : List (Key × Value) → List ℕ
  | [] => []
  | (key, value) :: rest =>
    key.enclosures outer ++ (enclosures outer value ++ enclosuresPairs outer rest)

/-- How many containers enclose each node of keyword arguments. -/
def enclosuresKeywords (outer : ℕ) : List (String × Value) → List ℕ
  | [] => []
  | (_, value) :: rest => enclosures outer value ++ enclosuresKeywords outer rest

/-- How many containers enclose each node of a state, if there is one. -/
def enclosuresState (outer : ℕ) : Option Value → List ℕ
  | Option.none => []
  | some value => enclosures outer value

end

/-- The number of nodes that are visited when a value is taken apart: all of them, or those before
the first one that is too deep. -/
def visited (value : Value) : ℕ := ((value.enclosures 0).takeWhile (· < maxDepth)).length

end Value

/-- Whether marks are as many as some nodes, none of which more than `depth` further containers
enclose, and whether the innermost of so many containers is marked itself. -/
structure Value.Marks (outer nodes depth : ℕ) (marks : List ℕ) : Prop where
  length : marks.length = nodes
  le : ∀ mark ∈ marks, mark ≤ outer + depth
  depth_le : ∀ bound, (∀ mark ∈ marks, mark < bound) → outer ≤ bound → outer + depth ≤ bound

namespace Value.Marks

variable {outer nodes more depth deeper : ℕ} {marks others : List ℕ}

theorem nil (outer : ℕ) : Marks outer 0 0 [] := ⟨rfl, by simp, fun _ _ h => h⟩

theorem single (outer : ℕ) : Marks outer 1 0 [outer] := ⟨rfl, by simp, fun _ _ h => h⟩

/-- A container is a node, and encloses all that it holds. -/
theorem enclose (h : Marks (outer + 1) nodes depth marks) :
    Marks outer (nodes + 1) (depth + 1) (outer :: marks) := by
  refine ⟨by rw [List.length_cons, h.length], fun mark hmark => ?_, fun bound hmarks _ => ?_⟩
  · rcases List.mem_cons.1 hmark with rfl | hmark
    · exact Nat.le_add_right _ _
    · have := h.le mark hmark
      omega
  · obtain ⟨houter, hmarks⟩ := List.forall_mem_cons.1 hmarks
    have := h.depth_le bound hmarks houter
    omega

theorem append (h : Marks outer nodes depth marks) (hothers : Marks outer more deeper others) :
    Marks outer (nodes + more) (max depth deeper) (marks ++ others) := by
  refine ⟨by rw [List.length_append, h.length, hothers.length], fun mark hmark => ?_,
    fun bound hmarks houter => ?_⟩
  · rcases List.mem_append.1 hmark with hmark | hmark
    · exact (h.le mark hmark).trans (Nat.add_le_add_left (le_max_left _ _) outer)
    · exact (hothers.le mark hmark).trans (Nat.add_le_add_left (le_max_right _ _) outer)
  · obtain ⟨hmarks, hmarks'⟩ := List.forall_mem_append.1 hmarks
    have := h.depth_le bound hmarks houter
    have := hothers.depth_le bound hmarks' houter
    omega

end Value.Marks

open Value (Marks)

mutual

theorem Key.marks (outer : ℕ) : (key : Key) → Marks outer key.nodes key.depth (key.enclosures outer)
  | .scalar _ => .single outer
  | .tuple items => (Key.marksAll (outer + 1) items).enclose
  | .frozenSet items => (Key.marksAll (outer + 1) items).enclose

theorem Key.marksAll (outer : ℕ) :
    (items : List Key) →
      Marks outer (Key.nodesAll items) (Key.depthAll items) (Key.enclosuresAll outer items)
  | [] => .nil outer
  | item :: rest => (Key.marks outer item).append (Key.marksAll outer rest)

end

namespace Value

mutual

theorem marks (outer : ℕ) :
    (value : Value) → Marks outer value.nodes value.depth (value.enclosures outer)
  | .atom _ => .single outer
  | .list items => (marksAll (outer + 1) items).enclose
  | .tuple items => (marksAll (outer + 1) items).enclose
  | .set items => (Key.marksAll (outer + 1) items).enclose
  | .frozenSet items => (Key.marksAll (outer + 1) items).enclose
  | .dict pairs => (marksPairs (outer + 1) pairs).enclose
  | .object ⟨_, args, kwargs, attributes, state⟩ => by
    have hparts := ((marksAll (outer + 1) args).append ((marksKeywords (outer + 1) kwargs).append
      ((marksPairs (outer + 1) attributes).append (marksState (outer + 1) state)))).enclose
    rw [← max_assoc, ← Nat.add_assoc, ← Nat.add_assoc] at hparts
    exact hparts

theorem marksAll (outer : ℕ) :
    (items : List Value) → Marks outer (nodesAll items) (depthAll items) (enclosuresAll outer items)
  | [] => .nil outer
  | item :: rest => (marks outer item).append (marksAll outer rest)

theorem marksPairs (outer : ℕ) :
    (pairs : List (Key × Value)) →
      Marks outer (nodesPairs pairs) (depthPairs pairs) (enclosuresPairs outer pairs)
  | [] => .nil outer
  | (key, value) :: rest => by
    rw [nodesPairs, depthPairs, enclosuresPairs, max_assoc, Nat.add_assoc]
    exact (key.marks outer).append ((marks outer value).append (marksPairs outer rest))

theorem marksKeywords (outer : ℕ) :
    (kwargs : List (String × Value)) →
      Marks outer (nodesKeywords kwargs) (depthKeywords kwargs) (enclosuresKeywords outer kwargs)
  | [] => .nil outer
  | (_, value) :: rest => (marks outer value).append (marksKeywords outer rest)

theorem marksState (outer : ℕ) :
    (state : Option Value) →
      Marks outer (nodesState state) (depthState state) (enclosuresState outer state)
  | Option.none => .nil outer
  | some value => marks outer value

end

/-- A value that is not too deep is visited as a whole. -/
theorem visited_of_depth_lt {value : Value} (h : value.depth < maxDepth) :
    value.visited = value.nodes := by
  have hvalue := marks 0 value
  rw [visited, List.takeWhile_eq_self_iff.2, hvalue.length]
  intro mark hmark
  have := hvalue.le mark hmark
  simpa using (by omega : mark < maxDepth)

end Value

namespace Exec

variable {α β : Type}

/-- Whether an action visits nodes one by one, given how many containers enclose each of them, and
counts them: all of them if it succeeds, and those before the first one that is too deep if it
fails. -/
def Visits (marks : List ℕ) (action : Exec α) : Prop :=
  ∀ machine, Ends (action machine)
    (fun _ after => (∀ mark ∈ marks, mark < maxDepth) ∧
      after.created = machine.created + marks.length)
    fun after => (¬ ∀ mark ∈ marks, mark < maxDepth) ∧
      after.created = machine.created + (marks.takeWhile (· < maxDepth)).length

/-- Nodes before one that is too deep are so whatever comes after. -/
theorem takeWhile_append_of_not {first : List ℕ} (h : ¬ ∀ mark ∈ first, mark < maxDepth)
    (second : List ℕ) :
    (first ++ second).takeWhile (· < maxDepth) = first.takeWhile (· < maxDepth) := by
  induction first with
  | nil => simp at h
  | cons mark rest ih =>
    rw [List.cons_append]
    by_cases hmark : mark < maxDepth
    · rw [List.takeWhile_cons_of_pos (by simpa using hmark),
        List.takeWhile_cons_of_pos (by simpa using hmark), ih (by simpa [hmark] using h)]
    · rw [List.takeWhile_cons_of_neg (by simpa using hmark),
        List.takeWhile_cons_of_neg (by simpa using hmark)]

namespace Visits

theorem pure (value : α) : Visits [] (Pure.pure value) := fun _ => ⟨by simp, rfl⟩

theorem alloc (content : Content) : Visits [] (Exec.alloc content) := fun _ => ⟨by simp, rfl⟩

theorem bind {first second : List ℕ} {action : Exec α} {next : α → Exec β}
    (hfirst : Visits first action) (hsecond : ∀ value, Visits second (next value)) :
    Visits (first ++ second) (action >>= next) := by
  intro machine
  refine ((hfirst machine).imp ?_ ?_).bind
  · rintro value middle ⟨hall, hcreated⟩
    refine (hsecond value middle).imp ?_ ?_
    · rintro result after ⟨hall', hcreated'⟩
      refine ⟨?_, by rw [hcreated', hcreated, List.length_append, Nat.add_assoc]⟩
      simpa only [List.mem_append, or_imp, forall_and] using ⟨hall, hall'⟩
    · rintro after ⟨hsome, hcreated'⟩
      refine ⟨fun h => hsome fun mark hmark => h mark (List.mem_append_right _ hmark), ?_⟩
      rw [hcreated', hcreated, List.takeWhile_append_of_pos (by simpa using hall),
        List.length_append, Nat.add_assoc]
  · rintro middle ⟨hsome, hcreated⟩
    refine ⟨fun h => hsome fun mark hmark => h mark (List.mem_append_left _ hmark), ?_⟩
    rw [hcreated, takeWhile_append_of_not hsome]

/-- What visits nothing more may stand behind anything else. -/
theorem then_nothing {marks : List ℕ} {action : Exec α} {next : α → Exec β}
    (hfirst : Visits marks action) (hsecond : ∀ value, Visits [] (next value)) :
    Visits marks (action >>= next) := by
  simpa using hfirst.bind hsecond

/-- A node is entered unless too many containers enclose it. -/
theorem enter_bind {outer levels : ℕ} (hlevels : outer + levels = maxDepth) {marks : List ℕ}
    {next : ℕ → Exec α}
    (h : ∀ levels, outer + 1 + levels = maxDepth → Visits marks (next levels)) :
    Visits (outer :: marks) (Exec.enter levels >>= next) := by
  intro machine
  cases levels with
  | zero =>
    have houter : ¬ outer < maxDepth := by omega
    refine ⟨fun hall => houter (hall outer List.mem_cons_self), ?_⟩
    rw [List.takeWhile_cons_of_neg (by simpa using houter)]
    rfl
  | succ levels =>
    have houter : outer < maxDepth := by omega
    refine (h levels (by omega) { machine with created := machine.created + 1 }).imp ?_ ?_
    · rintro value after ⟨hall, hcreated⟩
      refine ⟨by simpa [houter] using hall, ?_⟩
      rw [hcreated, List.length_cons]
      simp only
      omega
    · rintro after ⟨hsome, hcreated⟩
      refine ⟨fun hall => hsome fun mark hmark => hall mark (List.mem_cons_of_mem _ hmark), ?_⟩
      rw [hcreated, List.takeWhile_cons_of_pos (by simpa using houter), List.length_cons]
      simp only
      omega

end Visits

mutual

theorem visits_embedKey {outer levels : ℕ} (hlevels : outer + levels = maxDepth) :
    (key : Key) → Visits (key.enclosures outer) (embedKey levels key)
  | .scalar value => by
    rw [embedKey, Key.enclosures]
    exact .enter_bind hlevels fun _ _ => .pure _
  | .tuple items => by
    rw [embedKey, Key.enclosures]
    refine .enter_bind hlevels fun levels hlevels => ?_
    exact (visits_embedKeys hlevels #[] items).then_nothing fun cells => .alloc _
  | .frozenSet items => by
    rw [embedKey, Key.enclosures]
    refine .enter_bind hlevels fun levels hlevels => ?_
    exact (visits_embedKeys hlevels #[] items).then_nothing fun cells => .alloc _

theorem visits_embedKeys {outer levels : ℕ} (hlevels : outer + levels = maxDepth)
    (cells : Array Cell) :
    (items : List Key) → Visits (Key.enclosuresAll outer items) (embedKeys levels cells items)
  | [] => by
    rw [embedKeys, Key.enclosuresAll]
    exact .pure _
  | item :: rest => by
    rw [embedKeys, Key.enclosuresAll]
    exact (visits_embedKey hlevels item).bind fun cell => visits_embedKeys hlevels _ rest

end

mutual

theorem visits_embedAt {outer levels : ℕ} (hlevels : outer + levels = maxDepth) :
    (value : Value) → Visits (value.enclosures outer) (embedAt levels value)
  | .atom value => by
    rw [embedAt, Value.enclosures]
    exact .enter_bind hlevels fun _ _ => .pure _
  | .list items => by
    rw [embedAt, Value.enclosures]
    refine .enter_bind hlevels fun levels hlevels => ?_
    exact (visits_embedAll hlevels #[] items).then_nothing fun cells => .alloc _
  | .tuple items => by
    rw [embedAt, Value.enclosures]
    refine .enter_bind hlevels fun levels hlevels => ?_
    exact (visits_embedAll hlevels #[] items).then_nothing fun cells => .alloc _
  | .set items => by
    rw [embedAt, Value.enclosures]
    refine .enter_bind hlevels fun levels hlevels => ?_
    exact (visits_embedKeys hlevels #[] items).then_nothing fun cells => .alloc _
  | .frozenSet items => by
    rw [embedAt, Value.enclosures]
    refine .enter_bind hlevels fun levels hlevels => ?_
    exact (visits_embedKeys hlevels #[] items).then_nothing fun cells => .alloc _
  | .dict pairs => by
    rw [embedAt, Value.enclosures]
    refine .enter_bind hlevels fun levels hlevels => ?_
    exact (visits_embedPairs hlevels #[] pairs).then_nothing fun cells => .alloc _
  | .object ⟨className, args, kwargs, attributes, state⟩ => by
    rw [embedAt, Value.enclosures]
    refine .enter_bind hlevels fun levels hlevels => ?_
    refine (visits_embedAll hlevels #[] args).bind fun args => ?_
    refine (visits_embedKeywords hlevels #[] kwargs).bind fun kwargs => ?_
    refine (visits_embedPairs hlevels #[] attributes).bind fun attributes => ?_
    exact (visits_embedState hlevels state).then_nothing fun state => .alloc _

theorem visits_embedAll {outer levels : ℕ} (hlevels : outer + levels = maxDepth)
    (cells : Array Cell) :
    (items : List Value) → Visits (Value.enclosuresAll outer items) (embedAll levels cells items)
  | [] => by
    rw [embedAll, Value.enclosuresAll]
    exact .pure _
  | item :: rest => by
    rw [embedAll, Value.enclosuresAll]
    exact (visits_embedAt hlevels item).bind fun cell => visits_embedAll hlevels _ rest

theorem visits_embedPairs {outer levels : ℕ} (hlevels : outer + levels = maxDepth)
    (cells : Array (Cell × Cell)) :
    (pairs : List (Key × Value)) →
      Visits (Value.enclosuresPairs outer pairs) (embedPairs levels cells pairs)
  | [] => by
    rw [embedPairs, Value.enclosuresPairs]
    exact .pure _
  | (key, value) :: rest => by
    rw [embedPairs, Value.enclosuresPairs]
    exact (visits_embedKey hlevels key).bind fun _ => (visits_embedAt hlevels value).bind
      fun _ => visits_embedPairs hlevels _ rest

theorem visits_embedKeywords {outer levels : ℕ} (hlevels : outer + levels = maxDepth)
    (cells : Array (String × Cell)) :
    (kwargs : List (String × Value)) →
      Visits (Value.enclosuresKeywords outer kwargs) (embedKeywords levels cells kwargs)
  | [] => by
    rw [embedKeywords, Value.enclosuresKeywords]
    exact .pure _
  | (name, value) :: rest => by
    rw [embedKeywords, Value.enclosuresKeywords]
    exact (visits_embedAt hlevels value).bind fun _ => visits_embedKeywords hlevels _ rest

theorem visits_embedState {outer levels : ℕ} (hlevels : outer + levels = maxDepth) :
    (state : Option Value) → Visits (Value.enclosuresState outer state) (embedState levels state)
  | none => by
    rw [embedState, Value.enclosuresState]
    exact .pure _
  | some value => by
    rw [embedState, Value.enclosuresState]
    exact (visits_embedAt hlevels value).then_nothing fun _ => .pure _

end

theorem visits_embed (value : Value) : Visits (value.enclosures 0) (embed value) :=
  visits_embedAt (Nat.zero_add maxDepth) value

/-- A value of the host is counted by its visits, whether or not it can be taken apart. -/
theorem created_embed (value : Value) (machine : Machine) :
    Ends (embed value machine)
      (fun _ after => after.created = machine.created + value.visited)
      fun after => after.created = machine.created + value.visited := by
  refine (visits_embed value machine).imp ?_ fun after h => h.2
  rintro cell after ⟨hall, hcreated⟩
  rw [hcreated, Value.visited, List.takeWhile_eq_self_iff.2 (by simpa using hall)]

end Exec

/-! ## What operations take apart -/

/-- Whether a machine has counted just `cost` things and has no more new slots than these, and `debt`
more. -/
structure Machine.Accounts (cost debt : ℕ) (before after : Machine) : Prop where
  created : after.created = before.created + cost
  slots : after.slots.size ≤ before.slots.size + cost + debt

/-- What is counted in two stretches adds up, and so does what they owe. -/
theorem Machine.Accounts.trans {cost more debt owed : ℕ} {before middle after : Machine}
    (first : before.Accounts cost debt middle) (second : middle.Accounts more owed after) :
    before.Accounts (cost + more) (debt + owed) after := by
  obtain ⟨hcreated, hslots⟩ := first
  obtain ⟨hcreated', hslots'⟩ := second
  exact ⟨by omega, by omega⟩

instance : Machine.IsApart (Machine.Accounts 0) where
  of_eq _ hcreated hslots := ⟨hcreated, hslots⟩
  trans first second := first.trans second

/-- The visits of some values together. -/
def Value.visitedAll (values : List Value) : ℕ := (values.map Value.visited).sum

namespace Exec

open Machine (Accounts)

variable {α β : Type}

/-- The values that come up after an action, if it succeeds. -/
def follow (action : Exec α) (next : α → Machine → List Value) (machine : Machine) : List Value :=
  match action machine with
  | .ok value after => next value after
  | .error _ _ => []

variable (env : Environment)

/-- The values of the host that a call takes apart: the result of a callable, if it has one. -/
def callImports (callee : Cell) (args : List Cell) (kwargs : List (String × Cell)) :
    Machine → List Value :=
  follow (content callee) fun
    | .atom (.callable callable) =>
      follow (args.mapM value) fun args =>
        follow (kwargs.mapM fun (name, cell) => return (name, ← value cell)) fun kwargs =>
          follow (ofExcept (callable.run env.host args (keywordsOf kwargs))) fun result _ => [result]
    | _ => fun _ => []

/-- The object of a persistent id, if it has one. -/
def persistentImports (id : Value) : Machine → List Value :=
  match env.loader with
  | some load => follow (ofExcept (load id)) fun result _ => [result]
  | none => fun _ => []

/-- The values of the host that an operation takes apart, in their order. -/
def imports : Operation → Machine → List Value
  | .constant name => fun _ => [env.constants.resolve name]
  | .stackConstant =>
    follow popText fun name => follow popText fun namespace_ _ =>
      [env.constants.resolve ⟨namespace_, name⟩]
  | .apply =>
    follow popArguments fun args => follow pop fun callee => callImports env callee args []
  | .applyKeywords =>
    follow popKeywords fun kwargs => follow popArguments fun args => follow pop fun callee =>
      callImports env callee args kwargs
  | .applyConstant name =>
    follow popMark fun args machine => env.constants.resolve name ::
      follow (constant env name) (fun callee => callImports env callee args []) machine
  | .applyBracket =>
    follow popMark fun
      | callee :: args => callImports env callee args []
      | [] => fun _ => []
  | .persistent id => persistentImports env (.str id)
  | .stackPersistent => follow pop fun cell => follow (value cell) fun id => persistentImports env id
  | .extension code => fun _ => (env.extensions.lookup code).toList
  | _ => fun _ => []

/-- Whether an action counts just the visits of some values, and takes no slots but for these and
`debt` more, however it ends. -/
def Imports (values : Machine → List Value) (debt : ℕ) (action : Exec α) : Prop :=
  ∀ machine, Ends (action machine)
    (fun _ after => machine.Accounts (Value.visitedAll (values machine)) debt after)
    (machine.Accounts (Value.visitedAll (values machine)) debt)

namespace Imports

variable {values : Machine → List Value} {debt : ℕ}

theorem of_keeps {action : Exec α} (h : Keeps (Accounts 0) debt action) :
    Imports (fun _ => []) debt action := h

theorem mono {more : ℕ} {action : Exec α} (h : Imports values debt action) (hle : debt ≤ more) :
    Imports values more action := by
  have hmono : ∀ {cost : ℕ} {before after : Machine}, before.Accounts cost debt after →
      before.Accounts cost more after :=
    fun h => ⟨h.created, h.slots.trans (Nat.add_le_add_left hle _)⟩
  exact fun machine => (h machine).imp (fun _ _ => hmono) fun _ => hmono

/-- What an action takes apart comes before what is taken apart after it. -/
theorem bind {later : α → Machine → List Value} {action : Exec α} {next : α → Exec β}
    (hfirst : Imports values 0 action) (hsecond : ∀ value, Imports (later value) debt (next value)) :
    Imports (fun machine => values machine ++ follow action later machine) debt
      (action >>= next) := by
  intro machine
  have hthis := hfirst machine
  have hall : Value.visitedAll (values machine ++ follow action later machine) =
      Value.visitedAll (values machine) + Value.visitedAll (follow action later machine) := by
    simp [Value.visitedAll]
  refine Ends.bind ?_
  rw [hall]
  unfold follow
  cases hresult : action machine with
  | ok value middle =>
    rw [hresult] at hthis
    have hboth : ∀ {after : Machine},
        middle.Accounts (Value.visitedAll (later value middle)) debt after →
          machine.Accounts (Value.visitedAll (values machine) +
            Value.visitedAll (later value middle)) debt after :=
      fun h => Nat.zero_add debt ▸ hthis.trans h
    exact (hsecond value middle).imp (fun _ _ => hboth) fun _ => hboth
  | error error middle =>
    rw [hresult] at hthis
    exact ⟨hthis.created, hthis.slots.trans (Nat.le_add_right _ debt)⟩

/-- What takes nothing apart and takes no slot may stand in front of anything else. -/
theorem bind_free {later : α → Machine → List Value} {action : Exec α} {next : α → Exec β}
    (hfirst : Keeps (Accounts 0) 0 action)
    (hsecond : ∀ value, Imports (later value) debt (next value)) :
    Imports (follow action later) debt (action >>= next) := (of_keeps hfirst).bind hsecond

theorem embed (value : Value) : Imports (fun _ => [value]) 0 (Exec.embed value) := by
  intro machine
  have hgrows := allocates_embed 0 value machine (Nat.zero_le _)
  have hcreated := created_embed value machine
  have haccounts : ∀ {after : Machine}, machine.GrowsTo 0 after →
      after.created = machine.created + value.visited →
        machine.Accounts (Value.visitedAll [value]) 0 after := by
    rintro after ⟨new, created, rfl, -, -, hpaid⟩ hafter
    obtain rfl : created = machine.created + value.visited := hafter
    refine ⟨by simp [Value.visitedAll], ?_⟩
    simp only [Array.size_append, Value.visitedAll, List.map_cons, List.map_nil, List.sum_cons,
      List.sum_nil]
    omega
  cases hresult : Exec.embed value machine with
  | ok cell after =>
    rw [hresult] at hgrows hcreated
    exact haccounts hgrows.1 hcreated
  | error error after =>
    rw [hresult] at hgrows hcreated
    exact haccounts hgrows hcreated

/-- What takes nothing apart and takes no slot may stand behind anything else. -/
theorem then_free {action : Exec α} {next : α → Exec β} (hfirst : Imports values debt action)
    (hsecond : ∀ value, Keeps (Accounts 0) 0 (next value)) :
    Imports values debt (action >>= next) := by
  refine fun machine => ((hfirst machine).imp ?_ fun _ h => h).bind
  exact fun value middle h => (hsecond value middle).imp (fun _ _ => h.trans) fun _ => h.trans

theorem push_running {action : Exec Cell} (h : Imports values debt action) :
    Imports values debt
      (action >>= fun cell => push cell >>= fun _ => Pure.pure Status.running) :=
  h.then_free fun cell => (Keeps.push cell).then_running

end Imports

/-! ## One law for each operation -/

theorem imports_constant (name : QualifiedName) :
    Imports (fun _ => [env.constants.resolve name]) 0 (constant env name) := .embed _

theorem imports_callCell (opcode : Opcode) (callee : Cell) (args : List Cell)
    (kwargs : List (String × Cell)) :
    Imports (callImports env callee args kwargs) 1 (callCell env opcode callee args kwargs) := by
  refine .bind_free (.content callee) fun content => ?_
  cases content with
  | atom value =>
    cases value with
    | class_ name => exact .of_keeps (.alloc _)
    | callable callable =>
      refine .bind_free (.mapM .value args) fun args => ?_
      have hkeyword : ∀ pair : String × Cell,
          Keeps (Accounts 0) 0 (do return (pair.1, ← Exec.value pair.2)) :=
        fun pair => (Keeps.value pair.2).bind_free fun _ => .pure _
      refine .bind_free (.mapM hkeyword kwargs) fun kwargs => ?_
      exact .bind_free (.ofExcept _) fun value => (Imports.embed value).mono (Nat.zero_le 1)
    | _ => exact .of_keeps (.fail _)
  | _ => exact .of_keeps (.fail _)

theorem imports_persistent (id : Value) :
    Imports (persistentImports env id) 0 (persistent env id) := by
  unfold persistentImports persistent
  cases env.loader with
  | some load => exact .bind_free (.ofExcept _) .embed
  | none => exact .of_keeps (.fail _)

/-- Marks have to do with neither the count nor the slots. -/
theorem keepsAccounts_popMark : Keeps (Accounts 0) 0 popMark := by
  intro machine
  unfold popMark
  split
  · exact ⟨rfl, le_rfl⟩
  · exact ⟨rfl, le_rfl⟩

theorem keepsAccounts_popPairs : Keeps (Accounts 0) 0 popPairs := by
  refine keepsAccounts_popMark.bind_free fun cells => ?_
  split
  · exact .pure _
  · exact .fail _

/-- What an operation counts, and that it takes one slot at most that is not counted. -/
theorem imports_step (opcode : Opcode) (operation : Operation) :
    Imports (imports env operation) 1 (step env opcode operation) := by
  cases operation with
  | mark => exact fun _ => ⟨rfl, Nat.le_add_right _ _⟩
  | popMark => exact .of_keeps (keepsAccounts_popMark.bind_free fun _ => .pure _)
  | pop =>
    refine .of_keeps (Keeps.get.bind_free fun machine => ?_)
    split
    · exact keepsAccounts_popMark.bind_free fun _ => .pure _
    · exact Keeps.pop.bind_free fun _ => .pure _
  | collect container =>
    cases container with
    | dict =>
      exact .of_keeps (keepsAccounts_popPairs.bind_free fun _ => (Keeps.pushNew _).then_running)
    | tuple | list | frozenSet =>
      exact .of_keeps (keepsAccounts_popMark.bind_free fun _ => (Keeps.pushNew _).then_running)
  | appends | addItems =>
    refine .of_keeps (keepsAccounts_popMark.bind_free fun cells => Keeps.topKind.bind_free
      fun kind => ?_)
    split
    · exact (Keeps.changeTop _).bind_free fun _ => .pure _
    · exact Keeps.then_running (.fail _)
  | setItems =>
    refine .of_keeps (keepsAccounts_popPairs.bind_free fun cells => Keeps.topKind.bind_free
      fun kind => ?_)
    split
    · exact (Keeps.changeTop _).bind_free fun _ => .pure _
    · exact (Keeps.changeTop _).bind_free fun _ => .pure _
    · exact Keeps.then_running (.fail _)
  -- From here on host values come in: one constant at most before a call, one value at the end.
  | constant name => exact ((imports_constant env name).mono (Nat.zero_le 1)).push_running
  | stackConstant =>
    refine .bind_free .popText fun name => .bind_free .popText fun namespace_ => ?_
    exact ((imports_constant env ⟨namespace_, name⟩).mono (Nat.zero_le 1)).push_running
  | apply =>
    refine .bind_free .popArguments fun args => .bind_free .pop fun callee => ?_
    exact (imports_callCell env opcode callee args []).push_running
  | applyKeywords =>
    refine .bind_free .popKeywords fun kwargs => .bind_free .popArguments fun args => ?_
    refine .bind_free .pop fun callee => ?_
    exact (imports_callCell env opcode callee args kwargs).push_running
  | applyConstant name =>
    refine .bind_free keepsAccounts_popMark fun args => ?_
    refine (imports_constant env name).bind fun callee => ?_
    exact (imports_callCell env opcode callee args []).push_running
  | applyBracket =>
    refine .bind_free keepsAccounts_popMark fun cells => ?_
    cases cells with
    | cons callee args => exact (imports_callCell env opcode callee args []).push_running
    | nil => exact .of_keeps (Keeps.then_running (.fail _))
  | persistent id => exact ((imports_persistent env _).mono (Nat.zero_le 1)).push_running
  | stackPersistent =>
    refine .bind_free .pop fun cell => .bind_free (.value cell) fun id => ?_
    exact ((imports_persistent env id).mono (Nat.zero_le 1)).push_running
  | extension code =>
    simp only [step, imports]
    cases env.extensions.lookup code with
    | some value => exact ((Imports.embed value).mono (Nat.zero_le 1)).push_running
    | none => exact .of_keeps (Keeps.then_running (.fail _))
  | _ => exact .of_keeps (keeps_step env opcode (by trivial))

theorem Ends.after {action : Exec α} {machine : Machine} {good : Machine → Prop}
    (h : Ends (action machine) (fun _ => good) good) : good (action.after machine) := by
  unfold Exec.after
  cases hresult : action machine with
  | ok value after =>
    rw [hresult] at h
    exact h
  | error error after =>
    rw [hresult] at h
    exact h

end Exec

/-! ## Programs -/

namespace Machine

variable (env : Environment)

/-- The nodes of host values that an instruction visits, which counts itself before. -/
def visits (machine : Machine) (instruction : Instruction) : ℕ :=
  Value.visitedAll (Exec.imports env instruction.operation
    { machine with created := machine.created + 1 })

/-- The nodes of host values that a program visits, whatever comes of its instructions. -/
def visitsOf : Machine → List Instruction → ℕ
  | _, [] => 0
  | machine, instruction :: rest =>
    machine.visits env instruction +
      visitsOf ((Exec.execute env instruction).after machine) rest

/-- An instruction counts itself and its visits, and takes no more slots than these. -/
theorem accounts_execute (instruction : Instruction) (machine : Machine) :
    machine.Accounts (1 + machine.visits env instruction) 0
      ((Exec.execute env instruction).after machine) := by
  refine Exec.Ends.after (Exec.Ends.bind (Exec.Ends.during _ ?_))
  have hstep := Exec.imports_step env instruction.opcode instruction.operation
    { machine with created := machine.created + 1 }
  have hcounted : ∀ {after : Machine},
      Accounts (machine.visits env instruction) 1 { machine with created := machine.created + 1 }
        after → machine.Accounts (1 + machine.visits env instruction) 0 after := by
    rintro after ⟨hcreated, hslots⟩
    simp only at hcreated hslots
    exact ⟨by omega, by omega⟩
  exact hstep.imp (fun _ _ => hcounted) fun _ => hcounted

theorem accounts_after (machine : Machine) (program : List Instruction) :
    machine.Accounts (program.length + machine.visitsOf env program) 0
      (machine.after env program) := by
  induction program generalizing machine with
  | nil => exact ⟨rfl, le_rfl⟩
  | cons instruction rest ih =>
    have hboth := (accounts_execute env instruction machine).trans (ih _)
    rw [after_cons, visitsOf, List.length_cons]
    exact ⟨by rw [hboth.created]; omega, hboth.slots.trans (by omega)⟩

end Machine

end Pickle
