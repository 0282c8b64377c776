import Mathlib.Logic.Embedding.Basic
import Predeclare.Proofs.Outcome
import Predeclare.Proofs.Renaming.Binding
import Predeclare.Proofs.Scope.Enumeration

set_option relaxedAutoImplicit false
set_option autoImplicit false

/-!
# Scopes with their names replaced

If the names in all scopes are replaced, different names by different names, and a second interner
spells each new name as the first one spells the old, then every operation on scopes and symbols
does with the new names what it does with the old ones. That includes suggestions, which are the
only operation that looks at spellings: their distances are read off the spellings, and so is the
order in which scopes list their names, by assumption.

## Main definitions

* `OrderedMap.mapKeys` — a map with its keys replaced.
* `ScopeTree.rename`, `SymbolTable.rename`, `ResolutionError.rename` — scopes, symbols and reports
  with their names replaced.

## Main results

* `suggestions_rename` — the suggestions for a replaced name.
* `Enumeration.DependsOnSpellings.names_mapKeys` — the names of a scope, listed and replaced.
* `ScopeTree.define_rename`, `ScopeTree.resolve_rename` — defining and resolving a replaced name.
-/

namespace Predeclare

/-! ## Lists of computations -/

section Computations

variable {ε α β γ δ : Type}

/-- Computations whose results are replaced one by one have the replaced results. -/
lemma mapM_eq_map {f : α → Except ε β} {f' : α → Except ε γ} {r : β → γ} {l : List α}
    (h : ∀ a ∈ l, f' a = (f a).map r) : l.mapM f' = (l.mapM f).map (List.map r) := by
  induction l with
  | nil => rfl
  | cons a rest ih =>
    rw [List.mapM_cons, List.mapM_cons, h a List.mem_cons_self,
      ih fun b hb => h b (List.mem_cons_of_mem a hb)]
    cases f a with
    | error fault => rfl
    | ok b => cases rest.mapM f <;> rfl

/-- A loop each of whose rounds does with replaced values what another loop does, as long as the
values of the other loop keep an invariant.

**Proof sketch.** By induction on the list: a round of one loop is a round of the other with the
value replaced, and the invariant is kept for the rounds that follow. -/
lemma foldlM_eq_map_of_invariant {f : β → α → Except ε β} {p : γ → δ → Except ε γ} {r : β → γ}
    {k : α → δ} {l : List α} {P : β → Prop}
    (h : ∀ b, P b → ∀ a ∈ l, p (r b) (k a) = (f b a).map r)
    (invariant : ∀ b, P b → ∀ a ∈ l, EndsIn (fun _ => True) P (f b a)) {b : β} (hb : P b) :
    (l.map k).foldlM p (r b) = (l.foldlM f b).map r := by
  induction l generalizing b with
  | nil => rfl
  | cons a rest ih =>
    have hround := invariant b hb a List.mem_cons_self
    rw [List.map_cons, List.foldlM_cons, List.foldlM_cons, h b hb a List.mem_cons_self]
    cases hb' : f b a with
    | error fault => rfl
    | ok b' =>
      exact ih (fun b hb a ha => h b hb a (List.mem_cons_of_mem _ ha))
        (fun b hb a ha => invariant b hb a (List.mem_cons_of_mem _ ha)) (hround.of_ok hb')

/-- A loop each of whose rounds does with replaced values what another loop does. -/
lemma foldlM_eq_map {f : β → α → Except ε β} {p : γ → δ → Except ε γ} {r : β → γ} {k : α → δ}
    {l : List α} (h : ∀ b, ∀ a ∈ l, p (r b) (k a) = (f b a).map r) (b : β) :
    (l.map k).foldlM p (r b) = (l.foldlM f b).map r := by
  refine foldlM_eq_map_of_invariant (P := fun _ => True) (fun b _ => h b) (fun b _ a _ => ?_)
    trivial
  cases f b a <;> trivial

end Computations

/-! ## Maps -/

namespace OrderedMap

variable {κ μ α : Type} (g : κ ↪ μ)

/-- A map with its keys replaced by different keys. -/
def mapKeys (m : OrderedMap κ α) : OrderedMap μ α where
  entries := m.entries.map (Prod.map g id)
  nodup_keys := by
    have hkeys : (m.entries.map (Prod.map g id)).map Prod.fst = m.keys.map g := by
      rw [keys, List.map_map, List.map_map]
      rfl
    rw [hkeys]
    exact m.nodup.map g.injective

/-- The keys are replaced one by one. -/
lemma keys_mapKeys (m : OrderedMap κ α) : (m.mapKeys g).keys = m.keys.map g := by
  simp only [keys, mapKeys, List.map_map]
  rfl

variable [DecidableEq κ] [DecidableEq μ]

/-- A replaced key has the value of the old one. -/
lemma get?_mapKeys (m : OrderedMap κ α) (k : κ) : (m.mapKeys g).get? (g k) = m.get? k := by
  have hkey : ((fun e : μ × α => decide (e.1 = g k)) ∘ Prod.map g id) =
      fun e => decide (e.1 = k) := by
    funext e
    simp [g.injective.eq_iff]
  simp only [get?, mapKeys]
  rw [List.find?_map, hkey, Option.map_map]
  rfl

/-- Inserting under a replaced key.

**Proof sketch.** The key occurs exactly if the replaced one does, since keys are replaced
one-to-one. So both maps replace an entry in the same place, or both get one at the end. -/
lemma mapKeys_insert (m : OrderedMap κ α) (k : κ) (a : α) :
    (m.insert k a).mapKeys g = (m.mapKeys g).insert (g k) a := by
  refine OrderedMap.ext ?_
  by_cases h : k ∈ m.keys
  · have h' : g k ∈ (m.mapKeys g).keys := by
      rw [keys_mapKeys]
      exact List.mem_map_of_mem h
    rw [entries_insert_of_mem h' a]
    simp only [mapKeys]
    rw [entries_insert_of_mem h a, List.map_map, List.map_map]
    refine List.map_congr_left fun e _ => ?_
    by_cases hk : e.1 = k <;> simp [hk, g.injective.eq_iff]
  · have h' : g k ∉ (m.mapKeys g).keys := by
      rw [keys_mapKeys, List.mem_map_of_injective g.injective]
      exact h
    rw [entries_insert_of_notMem h' a]
    simp only [mapKeys]
    rw [entries_insert_of_notMem h a, List.map_append]
    rfl

end OrderedMap

/-! ## Suggestions -/

/-- The second interner spells each new name as the first one spells the old. -/
def Interner.SpellsAs (J J' : Interner) (g : Name ↪ Name) : Prop :=
  ∀ name, J'.spelling (g name) = J.spelling name

variable {J J' : Interner} {g : Name ↪ Name}

namespace Suggestion

/-- Dropping repetitions is not disturbed by replacing names.

**Proof sketch.** Induction on the length of the list: the first name stays, and its repetitions,
which are those of the replaced name, are dropped from the rest. -/
lemma eraseDups_map (g : Name ↪ Name) (l : List Name) :
    (l.map g).eraseDups = l.eraseDups.map g := by
  obtain ⟨k, hk⟩ : ∃ k, l.length = k := ⟨_, rfl⟩
  induction k using Nat.strong_induction_on generalizing l with
  | _ k ih =>
    cases l with
    | nil => rfl
    | cons a rest =>
      have hother : ((fun b => !b == g a) ∘ g) = fun b => !b == a := by
        funext b
        simp [g.injective.eq_iff]
      have hlt : (rest.filter fun b => !b == a).length < k := by
        rw [← hk]
        exact Nat.lt_succ_of_le (List.length_filter_le _ rest)
      rw [List.map_cons, List.eraseDups_cons, List.eraseDups_cons, List.filter_map, hother,
        ih _ hlt _ rfl, List.map_cons]

/-- The candidates are replaced one by one. -/
lemma candidates_rename (g : Name ↪ Name) (name : Name) (available : List Name) :
    candidates (g name) (available.map g) = (candidates name available).map g := by
  have hother : ((fun a => decide (a ≠ g name)) ∘ g) = fun a => decide (a ≠ name) := by
    funext a
    simp [g.injective.eq_iff]
  simp only [candidates]
  rw [List.filter_map, hother, eraseDups_map]

/-- Replaced candidates have the same distances. -/
lemma measure_rename (hg : J.SpellsAs J' g) (target : String) (candidate : Name) :
    measure J' target (g candidate) = (measure J target candidate).map (Prod.map g id) := by
  simp only [measure, hg candidate]
  cases J.spelling candidate <;> rfl

/-- The closest of the replaced candidates. -/
lemma closest_rename (g : Name ↪ Name) (measured : List (Name × Nat)) :
    closest (measured.map (Prod.map g id)) = (closest measured).map g := by
  simp only [closest, List.filter_map]
  rw [← List.map_mergeSort (r := fun a b => decide (a.2 ≤ b.2)) fun _ _ _ _ => rfl,
    ← List.map_take, List.map_map, List.map_map]
  rfl

end Suggestion

open Suggestion in
/-- **The suggestions for a replaced name** are the replaced suggestions.

**Proof sketch.** Target and candidates have the same spellings as before, so they have the same
distances, and the choice among the candidates only reads distances. -/
theorem suggestions_rename (hg : J.SpellsAs J' g) (name : Name) (available : List Name) :
    suggestions J' (g name) (available.map g) =
      (suggestions J name available).map (List.map g) := by
  simp only [suggestions, hg name, candidates_rename]
  cases J.spelling name with
  | error fault => rfl
  | ok target =>
    have hmeasured : (candidates name available).mapM (Suggestion.measure J' target ∘ g) =
        ((candidates name available).mapM (Suggestion.measure J target)).map
          (List.map (Prod.map g id)) :=
      mapM_eq_map fun a _ => measure_rename hg target a
    rw [ok_bind, ok_bind, List.mapM_map, hmeasured]
    cases (candidates name available).mapM (Suggestion.measure J target) with
    | error fault => rfl
    | ok measured => exact congrArg Except.ok (closest_rename g measured)

/-! ## Scopes -/

/-- A report with its names replaced. -/
def ResolutionError.rename (g : Name ↪ Name) : ResolutionError → ResolutionError
  | undefinedName name useSite ks => undefinedName (g name) useSite (ks.map g)
  | duplicateDefinition name first second => duplicateDefinition (g name) first second

variable {ν : Type} {E : Enumeration}

/-- A known name and the one that replaces it have the same spelling. -/
lemma Interner.SpellsAs.sameSpelling (hg : J.SpellsAs J' g) {name : Name} (h : J.Knows name) :
    SameSpelling J J' name (g name) := by
  obtain ⟨s, hs⟩ := h
  exact ⟨s, hs, (hg name).trans hs⟩

/-- A name that is spelled as a known name is the one that replaces it. -/
lemma Interner.SpellsAs.eq_of_sameSpelling (hg : J.SpellsAs J' g) {a b : Name}
    (h : SameSpelling J J' a b) : g a = b := by
  obtain ⟨s, ha, hb⟩ := h
  exact Interner.eq_of_spelling_eq ((hg a).trans ha) hb

/-- **The names of a scope, listed and replaced**, are the replaced names, listed.

**Proof sketch.** The old and the replaced names have the same spellings in the same order, hence so
have their listings. A replaced name is determined by its spelling. -/
theorem Enumeration.DependsOnSpellings.names_mapKeys (hE : E.DependsOnSpellings)
    (hg : J.SpellsAs J' g) {scope : OrderedMap Name Definition}
    (hscope : ∀ k ∈ scope.keys, J.Knows k) :
    E.names J' (scope.mapKeys g) = (E.names J scope).map (List.map g) := by
  have hkeys : List.Forall₂ (SameSpelling J J') scope.keys (scope.mapKeys g).keys := by
    rw [OrderedMap.keys_mapKeys, List.forall₂_map_right_iff, List.forall₂_same]
    exact fun k hk => hg.sameSpelling (hscope k hk)
  have hscope' : ∀ k ∈ (scope.mapKeys g).keys, J'.Knows k := by
    rw [OrderedMap.keys_mapKeys, List.forall_mem_map]
    exact fun k hk => (hg.sameSpelling (hscope k hk)).imp fun _ => And.right
  obtain ⟨names, hnames, _⟩ := E.exists_perm J scope hscope
  obtain ⟨names', hnames', _⟩ := E.exists_perm J' (scope.mapKeys g) hscope'
  have hsame := (hE J J' _ _ _ _ hkeys hnames hnames').imp fun _ _ => hg.eq_of_sameSpelling
  rw [hnames, hnames']
  refine congrArg Except.ok (Eq.symm ?_)
  rwa [← List.forall₂_map_left_iff, List.forall₂_eq_eq_eq] at hsame

/-- A scope with its names replaced. -/
def Scope.rename (g : Name ↪ Name) (scope : Scope ν) : Scope ν :=
  { scope with definitions := scope.definitions.mapKeys g }

namespace ScopeTree

variable {T : ScopeTree ν}

/-- Scope trees with the same scopes are equal. -/
lemma eq_of_scopes_eq {T T' : ScopeTree ν} (h : T.scopes = T'.scopes) : T = T' := by
  cases T
  cases T'
  cases h
  rfl

/-- The scopes with their names replaced. -/
def rename (g : Name ↪ Name) (T : ScopeTree ν) : ScopeTree ν where
  scopes := T.scopes.map (Scope.rename g)
  size_pos := by simpa using T.size_pos
  parent_lt i h p := by
    rw [Array.getElem_map]
    exact T.parent_lt i (by simpa using h) p

/-- The global scope alone has no names. -/
lemma new_rename (g : Name ↪ Name) : (new : ScopeTree ν).rename g = new := by
  refine eq_of_scopes_eq ?_
  simp [rename, new, Scope.rename]
  rfl

/-- No scope is added or lost. -/
lemma size_rename (g : Name ↪ Name) (T : ScopeTree ν) :
    (T.rename g).scopes.size = T.scopes.size := by
  simp [rename]

/-- The names in a scope are replaced. -/
lemma scope?_rename (g : Name ↪ Name) (T : ScopeTree ν) (s : ScopeId) :
    (T.rename g).scope? s = (T.scope? s).map (Scope.rename g) := by
  simp [scope?, rename]

/-- A scope that does not exist has no chain. -/
lemma chain_eq_nil {s : ScopeId} (h : T.scope? s = none) : T.chain s = [] := by
  have hunknown : ¬ s.index < T.scopes.size :=
    Nat.not_lt.2 (Array.getElem?_eq_none_iff.1 h)
  rw [chain, dif_neg hunknown]

/-- The same scopes are around a scope.

**Proof sketch.** Induction on the number of the scope, since a parent has a smaller one. -/
lemma chain_rename (g : Name ↪ Name) (T : ScopeTree ν) (s : ScopeId) :
    (T.rename g).chain s = T.chain s := by
  obtain ⟨k, hk⟩ : ∃ k, s.index = k := ⟨_, rfl⟩
  induction k using Nat.strong_induction_on generalizing s with
  | _ k ih =>
    cases hs : T.scope? s with
    | none => rw [chain_eq_nil hs, chain_eq_nil (by rw [scope?_rename, hs]; rfl)]
    | some scope =>
      have hs' : (T.rename g).scope? s = some (scope.rename g) := by rw [scope?_rename, hs]; rfl
      rw [chain_eq hs, chain_eq hs']
      cases hp : scope.parent with
      | none => simp [Scope.rename, hp]
      | some p =>
        obtain ⟨known, rfl⟩ := Array.getElem?_eq_some_iff.1 hs
        have hlt := T.parent_lt _ known p hp
        simp [Scope.rename, hp, ih p.index (hk ▸ hlt) p rfl]

/-- The names that a scope defines are replaced. -/
lemma definitions_rename (g : Name ↪ Name) (T : ScopeTree ν) (s : ScopeId) :
    (T.rename g).definitions s = (T.definitions s).mapKeys g := by
  simp only [definitions, scope?_rename]
  cases T.scope? s <;> rfl

/-- Looking up a replaced name. -/
lemma lookup_rename (g : Name ↪ Name) (T : ScopeTree ν) (s : ScopeId) (name : Name) :
    (T.rename g).lookup s (g name) = T.lookup s name := by
  simp only [lookup, chain_rename, definitions_rename, OrderedMap.get?_mapKeys]

/-- Creating a scope. -/
lemma createChild_rename (g : Name ↪ Name) (T : ScopeTree ν) (parent : ScopeId) (kind : ScopeKind)
    (node : ν) :
    (T.rename g).createChild parent kind node =
      (T.createChild parent kind node).map (Prod.map id (rename g)) := by
  simp only [createChild]
  by_cases known : parent.index < T.scopes.size
  · rw [dif_pos known, dif_pos (by rwa [size_rename])]
    refine congrArg Except.ok (Prod.ext ?_ (eq_of_scopes_eq ?_))
    · exact congrArg ScopeId.mk (size_rename g T)
    · simp [rename, Scope.rename]
      rfl
  · rw [dif_neg known, dif_neg (by rwa [size_rename])]
    rfl

/-- **Defining a replaced name** is accepted or refused as defining the old one.

**Proof sketch.** The scope holds the replaced name exactly if it held the old one. -/
theorem define_rename (g : Name ↪ Name) (T : ScopeTree ν) (s : ScopeId) (name : Name)
    (symbol : SymbolId) (span : FileSpan) :
    (T.rename g).define s (g name) symbol span =
      (T.define s name symbol span).map fun r =>
        (r.map (rename g)).mapError (ResolutionError.rename g) := by
  simp only [define]
  by_cases known : s.index < T.scopes.size
  · have known' : s.index < (T.rename g).scopes.size := by rwa [size_rename]
    rw [dif_pos known, dif_pos known']
    have hscope : (T.rename g).scopes[s.index] = T.scopes[s.index].rename g := by simp [rename]
    have hget : (T.rename g).scopes[s.index].definitions.get? (g name) =
        T.scopes[s.index].definitions.get? name := by
      rw [hscope]
      exact OrderedMap.get?_mapKeys g _ name
    rw [hget]
    cases T.scopes[s.index].definitions.get? name with
    | some first => rfl
    | none =>
      refine congrArg (Except.ok ∘ Except.ok) (eq_of_scopes_eq ?_)
      simp [rename, Scope.rename, OrderedMap.mapKeys_insert]
  · rw [dif_neg known, dif_neg (by rwa [size_rename])]
    rfl

/-- The replaced visible names are listed in the order of the old ones. -/
lemma visibleNames_rename (hE : E.DependsOnSpellings) (hg : J.SpellsAs J' g) (hT : T.KnownTo J)
    (s : ScopeId) :
    (T.rename g).visibleNames J' s E = (T.visibleNames J s E).map (List.map g) := by
  simp only [visibleNames, chain_rename]
  rw [mapM_eq_map (f := fun outer => E.names J (T.definitions outer)) (r := List.map g)
    fun outer _ => by rw [definitions_rename, hE.names_mapKeys hg (hT outer)]]
  cases (T.chain s).mapM fun outer => E.names J (T.definitions outer) with
  | error fault => rfl
  | ok lists => exact congrArg Except.ok List.map_flatten.symm

/-- **Resolving a replaced name** finds the same definition, or gives the replaced report.

**Proof sketch.** Look-up commutes with replacing names (`lookup_rename`), and if it fails so do the
visible names and the suggestions among them, which depend on spellings only. -/
theorem resolve_rename (hE : E.DependsOnSpellings) (hg : J.SpellsAs J' g) (hT : T.KnownTo J)
    (s : ScopeId) (name : Name) (useSite : FileSpan) :
    (T.rename g).resolve J' s (g name) useSite E =
      (T.resolve J s name useSite E).map (Except.mapError (ResolutionError.rename g)) := by
  simp only [resolve, lookup_rename, visibleNames_rename hE hg hT]
  cases T.lookup s name with
  | some definition => rfl
  | none =>
    cases T.visibleNames J s E with
    | error fault => rfl
    | ok visible =>
      have hsuggestions := suggestions_rename hg name visible
      simp only [ok_bind, Except.map]
      rw [hsuggestions]
      cases suggestions J name visible <;> rfl

end ScopeTree

/-! ## Symbols -/

namespace SymbolTable

/-- A symbol table with its names replaced. -/
def rename (g : Name ↪ Name) (T : SymbolTable ν) : SymbolTable ν where
  symbols := T.symbols.map (Symbol.rename g)
  references := T.references
  globals := T.globals.mapKeys g

/-- A table that holds only the undefined value. -/
lemma new_rename (g : Name ↪ Name) (name : Name) :
    (new (g name) : SymbolTable ν) = (new name).rename g := by
  simp [new, rename, OrderedMap.mapKeys_insert, Symbol.rename]
  rfl

/-- A replaced name has the global symbol of the old one. -/
lemma global?_rename (g : Name ↪ Name) (T : SymbolTable ν) (name : Name) :
    (T.rename g).global? (g name) = T.global? name :=
  OrderedMap.get?_mapKeys g _ name

/-- Declaring a replaced global. -/
lemma declareGlobal_rename (g : Name ↪ Name) (T : SymbolTable ν) (name : Name) :
    (T.rename g).declareGlobal (g name) = (T.declareGlobal name).map id (rename g) := by
  simp only [declareGlobal, global?_rename]
  cases T.global? name with
  | some s => rfl
  | none => simp [rename, OrderedMap.mapKeys_insert, Symbol.rename]

/-- A declaration of a replaced name. -/
lemma declare_rename (g : Name ↪ Name) (T : SymbolTable ν) (name : Name) (kind : SymbolKind)
    (declaration : ν) :
    (T.rename g).declare (g name) kind declaration =
      (T.declare name kind declaration).map id (rename g) := by
  simp [declare, rename, Symbol.rename]

/-- **What lowering asks about symbols has the same answers.** -/
theorem model_rename [DecidableEq ν] (g : Name ↪ Name) (T : SymbolTable ν) :
    (T.rename g).model = T.model := by
  refine model_eq_of_rename (g := g) rfl fun s => ?_
  simp [symbol?, rename]

end SymbolTable

end Predeclare
