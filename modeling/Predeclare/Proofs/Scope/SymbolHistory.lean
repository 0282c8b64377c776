import Mathlib.Data.Finset.Card
import Mathlib.Data.Finset.Dedup
import Predeclare.Scope.Symbol

set_option relaxedAutoImplicit false
set_option autoImplicit false

/-!
# What the history of a symbol table says

A symbol table is built by three calls in any order: one declares a global, one declares a symbol
with a declaration, and one binds a reference. All answers of the table can be read off the list of
the calls. A symbol is numbered by its place among the symbols that the calls have made, where a
global is made only by the first call for its name. The global of a name is the first of these
symbols that has the name and no declaration, so no declaration can take its place, and a reference
is bound to what the last call for it says.

## Main definitions

* `SymbolCall`, `SymbolTable.perform` — the calls and what they do.
* `SymbolCall.symbolsMade`, `SymbolCall.boundTo` — the symbols and the bindings, read off the calls.
* `SymbolTable.HasHistory` — the table looks like what the calls say.
* `SymbolTable.Answers` — what the table answers, now and after more calls.

## Main results

* `SymbolTable.HasHistory.perform` — one more call.
* `SymbolTable.answers_of_calls` — the answers after any list of calls.
-/

namespace Predeclare

variable {ν : Type}

/-- A call that changes a symbol table. -/
inductive SymbolCall (ν : Type) where
  /-- Declare a global, unless there is one of this name. -/
  | declareGlobal (name : Name)
  /-- Declare a symbol with a declaration. -/
  | declare (name : Name) (kind : SymbolKind) (declaration : ν)
  /-- Bind a reference to a symbol. -/
  | recordReference (reference : ν) (symbol : SymbolId)

/-- Whether a symbol has a name and no declaration. -/
def Symbol.isGlobalNamed (name : Name) (data : Symbol ν) : Bool :=
  data.name = name && data.declaration.isNone

namespace SymbolCall

/-- The kind of symbol that a call declares, if it declares one with a declaration. -/
def kind? : SymbolCall ν → Option SymbolKind
  | declareGlobal _ => none
  | declare _ kind _ => some kind
  | recordReference _ _ => none

/-- The reference that a call binds. -/
def bound? : SymbolCall ν → Option ν
  | declareGlobal _ => none
  | declare _ _ _ => none
  | recordReference reference _ => some reference

/-- What a call binds a reference to. -/
def binding? [DecidableEq ν] (reference : ν) : SymbolCall ν → Option SymbolId
  | declareGlobal _ => none
  | declare _ _ _ => none
  | recordReference reference' s => if reference' = reference then some s else none

/-- The symbols that a call adds to those that are there. -/
def added (symbols : List (Symbol ν)) : SymbolCall ν → List (Symbol ν)
  | declareGlobal name =>
    if symbols.any (Symbol.isGlobalNamed name) then [] else [⟨name, .global, none⟩]
  | declare name kind declaration => [⟨name, kind, some declaration⟩]
  | recordReference _ _ => []

/-- The symbols that calls make, by number. The first one is there before any call and stands for
the undefined value. -/
def symbolsMade (undefinedName : Name) (calls : List (SymbolCall ν)) : List (Symbol ν) :=
  calls.foldl (fun symbols call => symbols ++ call.added symbols)
    [⟨undefinedName, .undefined, none⟩]

/-- What the last call that binds a reference binds it to. -/
def boundTo [DecidableEq ν] (calls : List (SymbolCall ν)) (reference : ν) : Option SymbolId :=
  calls.reverse.findSome? (binding? reference)

variable {u : Name} {calls more : List (SymbolCall ν)} {call : SymbolCall ν}

/-- One more call adds its symbols behind the others. -/
lemma symbolsMade_concat :
    symbolsMade u (calls ++ [call]) = symbolsMade u calls ++ call.added (symbolsMade u calls) := by
  rw [symbolsMade, List.foldl_append]
  rfl

/-- Later calls add symbols behind the others. -/
lemma symbolsMade_prefix (u : Name) (calls more : List (SymbolCall ν)) :
    symbolsMade u calls <+: symbolsMade u (calls ++ more) := by
  induction more using List.reverseRecOn with
  | nil => rw [List.append_nil]
  | append_singleton more call ih =>
    rw [← List.append_assoc, symbolsMade_concat]
    exact ih.trans (List.prefix_append _ _)

/-- Behind the symbol of the undefined value there are globals and symbols with a declaration.

**Proof sketch.** Induction on the calls, by what the last call adds. -/
lemma exists_symbolsMade_eq_cons (u : Name) (calls : List (SymbolCall ν)) :
    ∃ rest, symbolsMade u calls = ⟨u, .undefined, none⟩ :: rest ∧
      ∀ data ∈ rest, (data.kind = .global ∧ data.declaration = none) ∨
        data.declaration ≠ none ∧ ∃ call ∈ calls, call.kind? = some data.kind := by
  induction calls using List.reverseRecOn with
  | nil => exact ⟨[], rfl, by simp⟩
  | append_singleton calls call ih =>
    obtain ⟨rest, hrest, hall⟩ := ih
    refine ⟨rest ++ call.added (symbolsMade u calls), ?_, fun data hdata => ?_⟩
    · rw [symbolsMade_concat, hrest, List.cons_append]
    · rcases List.mem_append.1 hdata with hdata | hdata
      · refine (hall data hdata).imp_right (And.imp_right ?_)
        rintro ⟨call', hcall', hkind⟩
        exact ⟨call', List.mem_append_left _ hcall', hkind⟩
      · cases call with
        | declareGlobal name =>
          simp only [added] at hdata
          split at hdata
          · cases hdata
          · obtain rfl := List.mem_singleton.1 hdata
            exact Or.inl ⟨rfl, rfl⟩
        | declare name kind declaration =>
          obtain rfl := List.mem_singleton.1 hdata
          exact Or.inr ⟨nofun, _, List.mem_append_right _ List.mem_cons_self, rfl⟩
        | recordReference reference s => cases hdata

/-- One more call counts before the others. -/
lemma boundTo_concat [DecidableEq ν] (reference : ν) :
    boundTo (calls ++ [call]) reference =
      (call.binding? reference).or (boundTo calls reference) := by
  rw [boundTo, List.reverse_append, List.reverse_singleton, List.singleton_append,
    List.findSome?_cons, ← boundTo]
  cases call.binding? reference <;> rfl

/-- A call that binds no reference adds none to those that have been bound. -/
lemma filterMap_bound?_concat (h : call.bound? = none) :
    (calls ++ [call]).filterMap bound? = calls.filterMap bound? := by
  rw [List.filterMap_append, List.filterMap_cons_none h, List.filterMap_nil, List.append_nil]

end SymbolCall

namespace SymbolTable

open SymbolCall

variable [DecidableEq ν]

/-! ## The calls -/

/-- Performs a call. -/
def perform (T : SymbolTable ν) : SymbolCall ν → SymbolTable ν
  | .declareGlobal name => (T.declareGlobal name).2
  | .declare name kind declaration => (T.declare name kind declaration).2
  | .recordReference reference s => T.recordReference reference s

/-- Performs calls one after the other. -/
def performAll (T : SymbolTable ν) (calls : List (SymbolCall ν)) : SymbolTable ν :=
  calls.foldl perform T

/-- The symbols, the globals and the bound references in the table are those that the calls say. -/
structure HasHistory (T : SymbolTable ν) (u : Name) (calls : List (SymbolCall ν)) : Prop where
  symbols : T.symbols.toList = symbolsMade u calls
  globals : ∀ name, T.global? name =
    ((symbolsMade u calls).findIdx? (Symbol.isGlobalNamed name)).map SymbolId.mk
  references : ∀ reference, T.reference? reference = boundTo calls reference
  bound : ∀ reference, reference ∈ T.references.keys ↔ reference ∈ calls.filterMap bound?

variable {T T' : SymbolTable ν} {u name : Name} {calls more : List (SymbolCall ν)}
  {call : SymbolCall ν} {s : SymbolId} {data : Symbol ν}

namespace HasHistory

/-- The new table has seen no call. -/
lemma new : (SymbolTable.new u : SymbolTable ν).HasHistory u [] where
  symbols := rfl
  globals name := by
    simp only [global?, SymbolTable.new, OrderedMap.get?_insert, OrderedMap.get?_empty]
    by_cases h : name = u
    · simp [h, symbolsMade, Symbol.isGlobalNamed, undefinedSymbol]
    · simp [h, symbolsMade, Symbol.isGlobalNamed, Ne.symm h]
  references _ := rfl
  bound := by simp [SymbolTable.new]

/-- The calls say how many symbols there are. -/
lemma size_eq (h : T.HasHistory u calls) : T.symbols.size = (symbolsMade u calls).length := by
  rw [← h.symbols, Array.length_toList]

/-- The calls say what a symbol looks like. -/
lemma symbol?_eq (h : T.HasHistory u calls) (s : SymbolId) :
    T.symbol? s = (symbolsMade u calls)[s.index]? := by
  rw [← h.symbols, Array.getElem?_toList]
  rfl

/-- A name has a global if there is a symbol that has the name and no declaration. -/
lemma global?_eq_none_iff (h : T.HasHistory u calls) :
    T.global? name = none ↔ (symbolsMade u calls).any (Symbol.isGlobalNamed name) = false := by
  rw [h.globals, Option.map_eq_none_iff, List.findIdx?_eq_none_iff, List.any_eq_false]
  simp only [Bool.not_eq_true]

/-- A global that is there already is declared once more, which leaves the table as it is.

**Proof sketch.** The calls have made a global of this name already, so one more call makes none. -/
lemma declareGlobal_known (h : T.HasHistory u calls) (hs : T.global? name = some s) :
    T.declareGlobal name = (s, T) ∧ T.HasHistory u (calls ++ [.declareGlobal name]) := by
  have hmade : symbolsMade u (calls ++ [.declareGlobal name]) = symbolsMade u calls := by
    have hany : (symbolsMade u calls).any (Symbol.isGlobalNamed name) = true := by
      rw [← Bool.not_eq_false, ← h.global?_eq_none_iff, hs]
      nofun
    rw [symbolsMade_concat, added, if_pos hany, List.append_nil]
  refine ⟨by rw [declareGlobal, hs], ?_⟩
  exact {
    symbols := by rw [hmade, h.symbols]
    globals := by rw [hmade]; exact h.globals
    references := fun reference => by
      rw [boundTo_concat, h.references]
      rfl
    bound := by rw [filterMap_bound?_concat rfl]; exact h.bound }

/-- A new global is numbered behind all other symbols.

**Proof sketch.** The calls have made no global of this name. The new one comes last, so it is the
first of its name and leaves the first of any other name where it is. -/
lemma declareGlobal_new (h : T.HasHistory u calls) (hnone : T.global? name = none) :
    (T.declareGlobal name).1 = ⟨T.symbols.size⟩ ∧
      (T.declareGlobal name).2.symbols.size = T.symbols.size + 1 ∧
      (T.declareGlobal name).2.global? name = some ⟨T.symbols.size⟩ ∧
      (T.declareGlobal name).2.HasHistory u (calls ++ [.declareGlobal name]) := by
  have hmade : symbolsMade u (calls ++ [.declareGlobal name]) =
      symbolsMade u calls ++ [⟨name, .global, none⟩] := by
    have hany := h.global?_eq_none_iff.1 hnone
    rw [symbolsMade_concat, added, hany]
    rfl
  rw [declareGlobal, hnone]
  refine ⟨rfl, Array.size_push _, ?_, ?_⟩
  · simp only [global?, OrderedMap.get?_insert, if_true]
  · exact {
      symbols := by rw [hmade, ← h.symbols, Array.toList_push]
      globals := fun name' => by
        have hold := h.globals name'
        simp only [global?] at hold hnone ⊢
        rw [hmade, OrderedMap.get?_insert, List.findIdx?_append, Option.map_or, ← hold, h.size_eq]
        by_cases hname : name' = name
        · subst hname
          simp [hnone, Symbol.isGlobalNamed]
        · simp [hname, Ne.symm hname, Symbol.isGlobalNamed]
      references := fun reference => by
        rw [boundTo_concat, ← h.references]
        rfl
      bound := by rw [filterMap_bound?_concat rfl]; exact h.bound }

/-- A symbol with a declaration is numbered behind all other symbols, and is no global.

**Proof sketch.** The symbols made grow by one at the end, which is what pushing it does. Since the
new symbol has a declaration it is no global of any name, and a call that binds nothing leaves the
references alone. -/
lemma declare (h : T.HasHistory u calls) (name : Name) (kind : SymbolKind) (declaration : ν) :
    (T.declare name kind declaration).2.HasHistory u
      (calls ++ [.declare name kind declaration]) := by
  have hmade : symbolsMade u (calls ++ [.declare name kind declaration]) =
      symbolsMade u calls ++ [⟨name, kind, some declaration⟩] := symbolsMade_concat
  exact {
    symbols := by rw [hmade, ← h.symbols, ← Array.toList_push]; rfl
    globals := fun name' => by
      rw [hmade, List.findIdx?_append, Option.map_or, ← h.globals]
      simp [Symbol.isGlobalNamed, global?, SymbolTable.declare]
    references := fun reference => by
      rw [boundTo_concat, ← h.references]
      rfl
    bound := by rw [filterMap_bound?_concat rfl]; exact h.bound }

/-- A reference is bound, for the first time or once more.

**Proof sketch.** No symbol is made. The last binding of the reference is the new one, and other
references keep theirs. -/
lemma recordReference (h : T.HasHistory u calls) (reference : ν) (s : SymbolId) :
    (T.recordReference reference s).HasHistory u (calls ++ [.recordReference reference s]) := by
  have hmade : symbolsMade u (calls ++ [.recordReference reference s]) = symbolsMade u calls := by
    rw [symbolsMade_concat]
    exact List.append_nil _
  exact {
    symbols := by rw [hmade, ← h.symbols]; rfl
    globals := by rw [hmade]; exact h.globals
    references := fun reference' => by
      rw [boundTo_concat, ← h.references]
      simp only [reference?, SymbolTable.recordReference, OrderedMap.get?_insert, binding?]
      by_cases hr : reference' = reference
      · simp [hr]
      · simp [hr, Ne.symm hr]
    bound := fun reference' => by
      have hold := h.bound reference'
      rw [List.filterMap_append, List.mem_append, ← hold]
      simp only [SymbolTable.recordReference, OrderedMap.keys_insert]
      split
      · rename_i hmem
        simp only [List.filterMap_cons, List.filterMap_nil, bound?, List.mem_singleton]
        exact ⟨Or.inl, fun hr => hr.elim id fun heq => heq ▸ hmem⟩
      · simp [bound?] }

/-- **One more call**, and the table looks like what all calls say.

**Proof sketch.** One case for each kind of call. -/
theorem perform (h : T.HasHistory u calls) (call : SymbolCall ν) :
    (T.perform call).HasHistory u (calls ++ [call]) := by
  cases call with
  | declareGlobal name =>
    cases hglobal : T.global? name with
    | some s =>
      obtain ⟨heq, hnext⟩ := h.declareGlobal_known hglobal
      rw [SymbolTable.perform, heq]
      exact hnext
    | none =>
      obtain ⟨-, -, -, hnext⟩ := h.declareGlobal_new hglobal
      exact hnext
  | declare name kind declaration => exact h.declare name kind declaration
  | recordReference reference s => exact h.recordReference reference s

/-- More calls, and the table looks like what all calls say. -/
lemma performAll (h : T.HasHistory u calls) (more : List (SymbolCall ν)) :
    (T.performAll more).HasHistory u (calls ++ more) := by
  induction more generalizing T calls with
  | nil => rwa [List.append_nil]
  | cons call more ih =>
    rw [List.append_cons]
    exact ih (h.perform call)

end HasHistory

/-! ## Answers -/

/-- What a table answers after the calls, and what more calls leave as it is. -/
structure Answers (T : SymbolTable ν) (u : Name) (calls : List (SymbolCall ν)) : Prop where
  size : T.symbols.size = (symbolsMade u calls).length
  symbol : ∀ s, T.symbol? s = (symbolsMade u calls)[s.index]?
  global : ∀ name, T.global? name =
    ((symbolsMade u calls).findIdx? (Symbol.isGlobalNamed name)).map SymbolId.mk
  /-- Among the globals, only the undefined value is of another kind. -/
  global_data : ∀ name s, T.global? name = some s → ∃ kind,
    T.symbol? s = some ⟨name, kind, none⟩ ∧
      if s = undefinedSymbol then name = u ∧ kind = .undefined else kind = .global
  global_injective : ∀ name name' s,
    T.global? name = some s → T.global? name' = some s → name = name'
  declareGlobal : ∀ name,
    (T.declareGlobal name).2.global? name = some (T.declareGlobal name).1 ∧
      match T.global? name with
      | some s => T.declareGlobal name = (s, T)
      | none => (T.declareGlobal name).1 = ⟨T.symbols.size⟩ ∧
        (T.declareGlobal name).2.symbols.size = T.symbols.size + 1
  declareGlobal_undefined : T.declareGlobal u = (undefinedSymbol, T)
  /-- A declared symbol has a new number, under which it is never a global. -/
  declare : ∀ name kind declaration,
    (T.declare name kind declaration).1 = ⟨T.symbols.size⟩ ∧
      (T.declare name kind declaration).2.symbol? ⟨T.symbols.size⟩ =
        some ⟨name, kind, some declaration⟩ ∧
      ∀ more name', ((T.declare name kind declaration).2.performAll more).global? name' ≠
        some ⟨T.symbols.size⟩
  later : ∀ more,
    (∀ s data, T.symbol? s = some data → (T.performAll more).symbol? s = some data) ∧
      (∀ name s, T.global? name = some s → (T.performAll more).global? name = some s) ∧
      ∀ reference, (∀ call ∈ more, call.binding? reference = none) →
        (T.performAll more).reference? reference = T.reference? reference
  isUndefined : ∀ s, s.index < T.symbols.size → (T.isUndefined s = true ↔ s = undefinedSymbol)
  reference : ∀ reference, T.reference? reference = boundTo calls reference
  /-- As many references are bound as different ones have been named. -/
  reference_count : T.references.size = (calls.filterMap bound?).toFinset.card

namespace HasHistory

/-- The symbol of the undefined value comes first. -/
lemma symbol?_undefinedSymbol (h : T.HasHistory u calls) :
    T.symbol? undefinedSymbol = some ⟨u, .undefined, none⟩ := by
  obtain ⟨rest, hrest, -⟩ := exists_symbolsMade_eq_cons u calls
  rw [h.symbol?_eq, hrest]
  rfl

/-- A symbol that is not the first one is a global or has a declaration. -/
lemma symbol?_cases (h : T.HasHistory u calls) (hs : T.symbol? s = some data)
    (hne : s ≠ undefinedSymbol) :
    (data.kind = .global ∧ data.declaration = none) ∨
      data.declaration ≠ none ∧ ∃ call ∈ calls, call.kind? = some data.kind := by
  obtain ⟨rest, hrest, hall⟩ := exists_symbolsMade_eq_cons u calls
  obtain ⟨k, hk⟩ : ∃ k, s.index = k + 1 :=
    Nat.exists_eq_succ_of_ne_zero fun h0 => hne (congrArg SymbolId.mk h0)
  rw [h.symbol?_eq, hrest, hk, List.getElem?_cons_succ] at hs
  exact hall data (List.mem_of_getElem? hs)

/-- The global of a name has the name and no declaration. -/
lemma exists_symbol?_of_global? (h : T.HasHistory u calls) (hs : T.global? name = some s) :
    ∃ data, T.symbol? s = some data ∧ data.name = name ∧ data.declaration = none := by
  rw [h.globals] at hs
  obtain ⟨k, hk, rfl⟩ := Option.map_eq_some_iff.1 hs
  obtain ⟨hlt, hnamed, -⟩ := List.findIdx?_eq_some_iff_getElem.1 hk
  refine ⟨_, by rw [h.symbol?_eq, List.getElem?_eq_getElem hlt], ?_⟩
  simpa [Symbol.isGlobalNamed] using hnamed

/-- The name of the undefined value is that of a global from the beginning. -/
lemma global?_undefinedName (h : T.HasHistory u calls) : T.global? u = some undefinedSymbol := by
  obtain ⟨rest, hrest, -⟩ := exists_symbolsMade_eq_cons u calls
  rw [h.globals, hrest, List.findIdx?_cons]
  simp [Symbol.isGlobalNamed, undefinedSymbol]

/-- Later calls leave the data of a symbol as it is. -/
lemma symbol?_of_append (h : T.HasHistory u calls) (h' : T'.HasHistory u (calls ++ more))
    (hs : T.symbol? s = some data) : T'.symbol? s = some data := by
  rw [h.symbol?_eq] at hs
  obtain ⟨rest, hrest⟩ := symbolsMade_prefix u calls more
  rw [h'.symbol?_eq, ← hrest, List.getElem?_append_left (List.getElem?_eq_some_iff.1 hs).1, hs]

/-- Later calls leave the global of a name as it is. -/
lemma global?_of_append (h : T.HasHistory u calls) (h' : T'.HasHistory u (calls ++ more))
    (hs : T.global? name = some s) : T'.global? name = some s := by
  rw [h.globals] at hs
  obtain ⟨k, hk, rfl⟩ := Option.map_eq_some_iff.1 hs
  obtain ⟨rest, hrest⟩ := symbolsMade_prefix u calls more
  rw [h'.globals, ← hrest, List.findIdx?_append, hk]
  rfl

/-- Later calls for other references leave the binding of a reference as it is. -/
lemma reference?_of_append (h : T.HasHistory u calls) (h' : T'.HasHistory u (calls ++ more))
    {reference : ν} (hmore : ∀ call ∈ more, call.binding? reference = none) :
    T'.reference? reference = T.reference? reference := by
  have hnone : more.reverse.findSome? (binding? reference) = none :=
    List.findSome?_eq_none_iff.2 fun call hcall => hmore call (List.mem_reverse.1 hcall)
  rw [h'.references, h.references, boundTo, List.reverse_append, List.findSome?_append, hnone]
  rfl

/-- Two names do not share a global. -/
lemma eq_of_global? (h : T.HasHistory u calls) {name' : Name} (hs : T.global? name = some s)
    (hs' : T.global? name' = some s) : name = name' := by
  obtain ⟨data, hdata, hname, -⟩ := h.exists_symbol?_of_global? hs
  obtain ⟨data', hdata', hname', -⟩ := h.exists_symbol?_of_global? hs'
  rw [hdata] at hdata'
  rw [← hname, ← hname', Option.some.inj hdata']

/-- A declared symbol is never a global: it has a declaration, now and later.

**Proof sketch.** A global is a symbol without a declaration (`exists_symbol?_of_global?`). The
declared symbol has one when it is made, and later calls leave its data as they are
(`symbol?_of_append`). -/
lemma global?_ne_of_declare (h : T.HasHistory u calls) (name : Name) (kind : SymbolKind)
    (declaration : ν) (more : List (SymbolCall ν)) (name' : Name) :
    ((T.declare name kind declaration).2.performAll more).global? name' ≠
      some ⟨T.symbols.size⟩ := by
  have hdeclared := h.declare name kind declaration
  have hlater := hdeclared.performAll more
  have hnow : (T.declare name kind declaration).2.symbol? ⟨T.symbols.size⟩ =
      some ⟨name, kind, some declaration⟩ := Array.getElem?_push_size
  intro hglobal
  obtain ⟨data, hdata, -, hnone⟩ := hlater.exists_symbol?_of_global? hglobal
  rw [hdeclared.symbol?_of_append hlater hnow] at hdata
  obtain rfl := Option.some.inj hdata
  cases hnone

/-- As many references are bound as different ones have been named. -/
lemma size_references (h : T.HasHistory u calls) :
    T.references.size = (calls.filterMap bound?).toFinset.card := by
  have hsame : T.references.keys.toFinset = (calls.filterMap bound?).toFinset := by
    ext reference
    rw [List.mem_toFinset, List.mem_toFinset, h.bound]
  rw [← hsame, List.toFinset_card_of_nodup T.references.nodup, OrderedMap.keys, List.length_map]
  rfl

/-- What the table answers if no call declares a symbol as the undefined value.

**Proof sketch.** The table has the history. A symbol behind the first one is a global or has a
declaration, by `exists_symbolsMade_eq_cons`, so that it is of the kind of the undefined value only
if some call has asked for that. -/
lemma answers (h : T.HasHistory u calls) (hkinds : ∀ call ∈ calls, call.kind? ≠ some .undefined) :
    T.Answers u calls where
  size := h.size_eq
  symbol := h.symbol?_eq
  global := h.globals
  global_data := by
    intro name s hs
    obtain ⟨⟨_, kind, _⟩, hdata, rfl, rfl⟩ := h.exists_symbol?_of_global? hs
    refine ⟨kind, hdata, ?_⟩
    split
    · rename_i hfirst
      rw [hfirst, h.symbol?_undefinedSymbol] at hdata
      cases hdata
      exact ⟨rfl, rfl⟩
    · rename_i hne
      rcases h.symbol?_cases hdata hne with ⟨hkind, -⟩ | ⟨hdeclaration, -⟩
      · exact hkind
      · exact absurd rfl hdeclaration
  global_injective := fun _ _ _ => h.eq_of_global?
  declareGlobal := by
    intro name
    cases hglobal : T.global? name with
    | some s =>
      obtain ⟨heq, -⟩ := h.declareGlobal_known hglobal
      rw [heq]
      exact ⟨hglobal, rfl⟩
    | none =>
      obtain ⟨hnumber, hsize, hnew, -⟩ := h.declareGlobal_new hglobal
      exact ⟨hnumber ▸ hnew, hnumber, hsize⟩
  declareGlobal_undefined := (h.declareGlobal_known h.global?_undefinedName).1
  declare := fun name kind declaration =>
    ⟨rfl, Array.getElem?_push_size, h.global?_ne_of_declare name kind declaration⟩
  later := fun more =>
    ⟨fun _ _ => h.symbol?_of_append (h.performAll more),
      fun _ _ => h.global?_of_append (h.performAll more),
      fun _ => h.reference?_of_append (h.performAll more)⟩
  isUndefined := by
    intro s hs
    have hdata : T.symbol? s = some T.symbols[s.index] := Array.getElem?_eq_getElem hs
    rw [SymbolTable.isUndefined, hdata, Bool.or_eq_true, decide_eq_true_eq]
    refine ⟨fun hor => ?_, Or.inl⟩
    by_contra hne
    have hkind : T.symbols[s.index].kind = .undefined := by simpa using hor.resolve_left hne
    -- No other symbol is of this kind: globals are not, and no call has asked for it.
    rcases h.symbol?_cases hdata hne with ⟨hglobal, -⟩ | ⟨-, call, hcall, hcallKind⟩
    · cases hkind.symm.trans hglobal
    · exact hkinds call hcall (hkind ▸ hcallKind)
  reference := h.references
  reference_count := h.size_references

end HasHistory

/-- **What a symbol table answers after any list of calls** that declare no symbol as the undefined
value: the answers are those that the calls say, and more calls leave symbols, globals and other
references as they are.

**Proof sketch.** The calls are performed on the empty table, so it has them as its history
(`HasHistory.performAll`), and the answers are read off a history by `HasHistory.answers`. -/
theorem answers_of_calls (hkinds : ∀ call ∈ calls, call.kind? ≠ some .undefined) :
    ((new u : SymbolTable ν).performAll calls).Answers u calls := by
  have h := (HasHistory.new (ν := ν) (u := u)).performAll calls
  rw [List.nil_append] at h
  exact h.answers hkinds

/-- A variable with the name of the undefined value, a global that is declared twice, and a
reference that is bound to one after the other. -/
def shadowedUndefined : List (SymbolCall Nat) :=
  [.declare ⟨0⟩ .variable 7, .declareGlobal ⟨0⟩, .declareGlobal ⟨1⟩, .recordReference 4 ⟨1⟩,
    .declareGlobal ⟨1⟩, .recordReference 5 ⟨0⟩, .recordReference 4 ⟨2⟩]

/-- The variable is neither the undefined value nor a global, the global has one symbol, and the
reference is bound to it. -/
theorem answers_of_calls_shadowed_undefined :
    (∀ call ∈ shadowedUndefined, call.kind? ≠ some .undefined) ∧
      ((new ⟨0⟩ : SymbolTable Nat).performAll shadowedUndefined).Answers ⟨0⟩ shadowedUndefined ∧
      symbolsMade ⟨0⟩ shadowedUndefined =
        [⟨⟨0⟩, .undefined, none⟩, ⟨⟨0⟩, .variable, some 7⟩, ⟨⟨1⟩, .global, none⟩] ∧
      boundTo shadowedUndefined 4 = some ⟨2⟩ ∧
      (shadowedUndefined.filterMap bound?).toFinset.card = 2 := by
  have hkinds : ∀ call ∈ shadowedUndefined, call.kind? ≠ some .undefined := by decide
  exact ⟨hkinds, answers_of_calls hkinds, by decide, by decide, by decide⟩

end SymbolTable

end Predeclare
