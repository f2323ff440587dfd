import Pickle.Host.Routine
import Pickle.Value.Basic

/-!
# Constants

A table of `Constants` gives values to names.  A name that it lacks stands for a class that is not
known, so every name resolves.  The default table has the classes and functions that pickles of
plain data refer to, under the module names of both generations of the language.

A table laid over another one answers for the names that it has, and leaves all other names to the
one below (`Constants.get?_overlay`).
-/

namespace Pickle

/-- A table of named values, each name occurring once. -/
structure Constants where
  /-- The names and their values. -/
  entries : List (QualifiedName × Value)
  deriving Inhabited

namespace Constants

/-- The table without entries. -/
def empty : Constants := ⟨[]⟩

/-- The value of a name, if the table has one. -/
def get? (constants : Constants) (name : QualifiedName) : Option Value :=
  constants.entries.lookup name

/-- The value of a name; a name that the table lacks is a class that is not known. -/
def resolve (constants : Constants) (name : QualifiedName) : Value :=
  (constants.get? name).getD (.atom (.class_ name))

/-- Gives a name a value. -/
def insert (constants : Constants) (name : QualifiedName) (value : Value) : Constants :=
  ⟨(name, value) :: constants.entries.filter fun entry => entry.1 != name⟩

/-- Gives a name a callable of that very name. -/
def insertCallable (constants : Constants) (name : QualifiedName) (kind : CallableKind)
    (routine : Routine) : Constants :=
  constants.insert name (.atom (.callable ⟨name, kind, routine⟩))

/-- Gives the names of another table their values there. -/
def overlay (constants other : Constants) : Constants :=
  other.entries.foldr (fun entry constants => constants.insert entry.1 entry.2) constants

/-- Whether two tables have the same names with equal values. -/
def same (a b : Constants) : Bool :=
  a.entries.length == b.entries.length &&
    a.entries.all fun (name, value) => (b.get? name).any value.same

/-! ## What a look-up finds -/

/-- Entries of another name do not matter to a look-up. -/
theorem lookup_filter_ne {name other : QualifiedName} (h : other ≠ name)
    (entries : List (QualifiedName × Value)) :
    (entries.filter fun entry => entry.1 != name).lookup other = entries.lookup other := by
  induction entries with
  | nil => rfl
  | cons entry rest ih =>
    obtain ⟨key, value⟩ := entry
    by_cases hkey : key = name
    · have hne : (other == name) = false := by simpa using h
      simp [hkey, List.lookup_cons, hne, ih]
    · simp [hkey, List.lookup_cons, ih]

/-- A value that was given to a name is found under it; other names keep theirs. -/
theorem get?_insert (constants : Constants) (name other : QualifiedName) (value : Value) :
    (constants.insert name value).get? other =
      if other = name then some value else constants.get? other := by
  by_cases h : other = name
  · simp [insert, get?, h]
  · have hne : (other == name) = false := by simpa using h
    simp [insert, get?, List.lookup_cons, hne, h, lookup_filter_ne h]

/-- A table over another one answers for the names that it has. -/
theorem get?_overlay (constants other : Constants) (name : QualifiedName) :
    (constants.overlay other).get? name = (other.get? name).or (constants.get? name) := by
  obtain ⟨entries⟩ := other
  induction entries with
  | nil => rfl
  | cons entry rest ih =>
    obtain ⟨key, value⟩ := entry
    have hstep : constants.overlay ⟨(key, value) :: rest⟩ =
        (constants.overlay ⟨rest⟩).insert key value := rfl
    rw [hstep, get?_insert, ih]
    by_cases h : name = key
    · simp [get?, h]
    · have hne : (name == key) = false := by simpa using h
      simp [get?, List.lookup_cons, h, hne]

/-! ## The default table -/

/-- The modules that hold the builtin classes. -/
def builtinModules : List String := ["__builtin__", "builtins"]

/-- The modules that hold the maker of instances. -/
def reconstructorModules : List String := ["copy_reg", "copyreg"]

/-- The builtin classes of a module. -/
def insertBuiltins (constants : Constants) (module : String) : Constants :=
  let classes : List (String × Builtin) :=
    [("set", .set), ("frozenset", .frozenSet), ("bytes", .bytes), ("bytearray", .byteArray)]
  classes.foldl
    (fun constants (name, routine) =>
      constants.insertCallable ⟨module, name⟩ .class_ (.builtin routine))
    (constants.insert ⟨module, "object"⟩ (.atom (.class_ ⟨"builtins", "object"⟩)))

/-- The table that every machine starts from. -/
def default : Constants :=
  let builtins := builtinModules.foldl insertBuiltins empty
  let makers := reconstructorModules.foldl
    (fun constants module =>
      constants.insertCallable ⟨module, "_reconstructor"⟩ .function (.builtin .reconstructor))
    builtins
  makers.insertCallable ⟨"_codecs", "encode"⟩ .function (.builtin .encode)

end Constants

end Pickle
