import Predeclare.OrderedMap
import Predeclare.Scope.Suggestion
import Predeclare.Scope.Symbol
import Predeclare.Source

set_option relaxedAutoImplicit false
set_option autoImplicit false

/-!
# Scope trees

A scope maps names to the symbols that define them. The scopes of a unit form a tree whose root
is the global scope; every other scope is created below an existing one and so has a larger
number than its parent. A name is looked up in a scope and then in the scopes around it, and the
first definition found counts. A scope keeps the first definition of a name and refuses others.

## Main definitions

* `Scope`, `ScopeTree` — one scope, and all of them, with `createChild` and `define`.
* `ScopeTree.chain`, `ScopeTree.lookup` — a scope with those around it, and look-up along them.
* `Enumeration` — the order in which a scope lists its names, which is left open.
* `ScopeTree.resolve` — look-up that explains a failure.
* `ResolutionError` — a name that is not defined, or is defined twice.

## Main results

* `ScopeTree.chain_eq` — the chain of a scope in terms of that of its parent.
-/

namespace Predeclare

/-- Why a name could not be resolved or defined. -/
inductive ResolutionError where
  /-- No visible scope defines the name; similar names are suggested, closest first. -/
  | undefinedName (name : Name) (useSite : FileSpan) (suggestions : List Name)
  /-- The scope defines the name already; the first definition is kept. -/
  | duplicateDefinition (name : Name) (first second : FileSpan)
  deriving DecidableEq, Repr

/-- The wording of a resolution error. -/
def ResolutionError.message : ResolutionError → String
  | undefinedName _ useSite _ => "undefined name at " ++ useSite.text
  | duplicateDefinition _ first second =>
    "duplicate definition at " ++ second.text ++ " (first defined at " ++ first.text ++ ")"

/-- A numbered scope. -/
structure ScopeId where
  index : Nat
  deriving DecidableEq, Repr

/-- What introduces a scope. -/
inductive ScopeKind where
  | global
  | sourceFile
  | block
  | module
  | caseBlock
  | function
  deriving DecidableEq, Repr

/-- What a name means in a scope, and where it was introduced. -/
structure Definition where
  symbol : SymbolId
  span : FileSpan
  deriving DecidableEq, Repr

/-- The names defined in one region of a unit; `ν` denotes nodes. -/
structure Scope (ν : Type) where
  parent : Option ScopeId
  kind : ScopeKind
  node : Option ν
  definitions : OrderedMap Name Definition

/-- The scopes of a unit, every one with a larger number than its parent. -/
structure ScopeTree (ν : Type) where
  scopes : Array (Scope ν)
  size_pos : 0 < scopes.size
  parent_lt : ∀ (i : Nat) (h : i < scopes.size) (p : ScopeId),
    scopes[i].parent = some p → p.index < i

namespace ScopeTree

variable {ν : Type}

/-- The scope around all others. -/
def globalScope : ScopeId := ⟨0⟩

/-- The tree of the global scope alone. -/
def new : ScopeTree ν where
  scopes := #[⟨none, .global, none, .empty⟩]
  size_pos := by simp
  parent_lt i h p := by
    have : i = 0 := by simpa using h
    subst this
    simp

/-- The number of scopes. -/
def size (T : ScopeTree ν) : Nat := T.scopes.size

/-- The data of a scope. -/
def scope? (T : ScopeTree ν) (s : ScopeId) : Option (Scope ν) := T.scopes[s.index]?

/-- Creates a scope below an existing one. -/
def createChild (T : ScopeTree ν) (parent : ScopeId) (kind : ScopeKind) (node : ν) :
    Except Fault (ScopeId × ScopeTree ν) :=
  if known : parent.index < T.scopes.size then
    .ok (⟨T.scopes.size⟩,
      { scopes := T.scopes.push ⟨some parent, kind, some node, .empty⟩
        size_pos := by simp
        parent_lt := by
          intro i h p
          rw [Array.getElem_push]
          split
          · exact T.parent_lt i _ p
          · have last : i = T.scopes.size := by simp at h; omega
            rintro ⟨⟩
            exact last ▸ known })
  else .error .unknownScope

/-- Defines a name in a scope. A scope that defines the name already is left as it is. -/
def define (T : ScopeTree ν) (s : ScopeId) (name : Name) (symbol : SymbolId) (span : FileSpan) :
    Except Fault (Except ResolutionError (ScopeTree ν)) :=
  if known : s.index < T.scopes.size then
    let scope := T.scopes[s.index]
    match scope.definitions.get? name with
    | some first => .ok (.error (.duplicateDefinition name first.span span))
    | none =>
      let definitions := scope.definitions.insert name ⟨symbol, span⟩
      .ok (.ok
        { scopes := T.scopes.set s.index { scope with definitions }
          size_pos := by simpa using T.size_pos
          parent_lt := by
            intro i h p
            rw [Array.getElem_set]
            split
            · rename_i same
              subst same
              exact T.parent_lt _ known p
            · exact T.parent_lt i _ p })
  else .error .unknownScope

/-- A scope, its parent, and so on up to the global scope. -/
def chain (T : ScopeTree ν) (s : ScopeId) : List ScopeId :=
  if known : s.index < T.scopes.size then
    s :: match _h : T.scopes[s.index].parent with
      | none => []
      | some p => T.chain p
  else []
termination_by s.index
decreasing_by exact T.parent_lt _ known _ _h

/-- The chain of a scope in terms of that of its parent. -/
theorem chain_eq {T : ScopeTree ν} {s : ScopeId} {scope : Scope ν} (h : T.scope? s = some scope) :
    T.chain s = s :: (scope.parent.map T.chain).getD [] := by
  obtain ⟨known, rfl⟩ := Array.getElem?_eq_some_iff.1 h
  rw [chain, dif_pos known]
  split <;> rename_i hp <;> simp [hp]

/-- The names that a scope defines. -/
def definitions (T : ScopeTree ν) (s : ScopeId) : OrderedMap Name Definition :=
  ((T.scope? s).map Scope.definitions).getD .empty

/-- The innermost definition of a name that is visible from a scope. -/
def lookup (T : ScopeTree ν) (s : ScopeId) (name : Name) : Option Definition :=
  (T.chain s).findSome? fun outer => (T.definitions outer).get? name

/-- The names of a scope in the order of their spellings. -/
def sortedNames (I : Interner) (scope : OrderedMap Name Definition) :
    Except Fault (List Name) := do
  let spelled ← scope.keys.mapM fun name => return (← I.spelling name, name)
  return (spelled.mergeSort fun a b => ¬ b.1 < a.1).map Prod.snd

/-- Names that can be spelled can be listed along with their spellings. -/
theorem exists_mapM_spelling {I : Interner} {names : List Name}
    (h : ∀ k ∈ names, ∃ s, I.spelling k = .ok s) :
    ∃ spelled, (names.mapM fun name => do return (← I.spelling name, name)) =
        (.ok spelled : Except Fault (List (String × Name))) ∧ spelled.map Prod.snd = names := by
  induction names with
  | nil => exact ⟨[], rfl, rfl⟩
  | cons k rest ih =>
    obtain ⟨s, hs⟩ := h k List.mem_cons_self
    obtain ⟨spelled, hspelled, hrest⟩ := ih fun k' hk' => h k' (List.mem_cons_of_mem k hk')
    refine ⟨(s, k) :: spelled, ?_, by rw [List.map_cons, hrest]⟩
    rw [List.mapM_cons, hs, hspelled]
    rfl

/-- The names of a scope can be put in the order of their spellings if they have any. -/
theorem exists_sortedNames_perm {I : Interner} {scope : OrderedMap Name Definition}
    (h : ∀ k ∈ scope.keys, ∃ s, I.spelling k = .ok s) :
    ∃ names, sortedNames I scope = .ok names ∧ names.Perm scope.keys := by
  obtain ⟨spelled, hspelled, hkeys⟩ := exists_mapM_spelling h
  refine ⟨(spelled.mergeSort fun a b => ¬ b.1 < a.1).map Prod.snd, ?_, ?_⟩
  · rw [sortedNames, hspelled]
    rfl
  · rw [← hkeys]
    exact (List.mergeSort_perm spelled _).map Prod.snd

end ScopeTree

/-- A way of listing the names of a scope. A scope promises no order: it may depend on the names, on
their spellings, and on how they came into the scope. If all names can be spelled, each of them is
listed once. -/
structure Enumeration where
  names : Interner → OrderedMap Name Definition → Except Fault (List Name)
  exists_perm : ∀ I scope, (∀ k ∈ scope.keys, ∃ s, I.spelling k = .ok s) →
    ∃ l, names I scope = .ok l ∧ l.Perm scope.keys

/-- The names are listed in the order of their spellings. -/
def Enumeration.bySpelling : Enumeration where
  names := ScopeTree.sortedNames
  exists_perm _ _ h := ScopeTree.exists_sortedNames_perm h

namespace ScopeTree

variable {ν : Type}

/-- The names visible from a scope: those of the innermost scope first, and within one scope as they
are listed. -/
def visibleNames (T : ScopeTree ν) (I : Interner) (s : ScopeId) (E : Enumeration := .bySpelling) :
    Except Fault (List Name) := do
  let names ← (T.chain s).mapM fun outer => E.names I (T.definitions outer)
  return names.flatten

/-- The definition of a name that is used at `useSite` in a scope. -/
def resolve (T : ScopeTree ν) (I : Interner) (s : ScopeId) (name : Name) (useSite : FileSpan)
    (E : Enumeration := .bySpelling) : Except Fault (Except ResolutionError Definition) :=
  match T.lookup s name with
  | some definition => .ok (.ok definition)
  | none => do
    let visible ← T.visibleNames I s E
    return .error (.undefinedName name useSite (← suggestions I name visible))

end ScopeTree

end Predeclare
