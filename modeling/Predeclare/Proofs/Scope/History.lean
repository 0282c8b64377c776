import Mathlib.Data.List.Chain
import Predeclare.Proofs.Binding.OpenScope
import Predeclare.Proofs.Scope.Enumeration
import Predeclare.Proofs.Suggestion.Ranking

set_option relaxedAutoImplicit false
set_option autoImplicit false

/-!
# What the history of a scope tree says

A scope tree is built by two calls in any order: one creates a scope below an existing one, the
other defines a name in an existing scope. All answers of the tree can be read off the list of the
calls. The parents of the scopes are those they were created with, and a scope knows a name by the
first call that defined it there; later ones are refused. So the definition that look-up finds
depends on the calls for the scopes on the chain alone, and the chain never changes.

## Main definitions

* `ScopeCall`, `ScopeTree.perform` — the calls and what they do.
* `ScopeCall.scopeParents`, `ScopeCall.definedIn` — the parents and the definitions, read off the
  calls.
* `ScopeTree.HasHistory` — the tree looks like what the calls say.
* `ScopeTree.IsOutwardPath` — a list of scopes that leads to the global scope.
* `ScopeTree.Answers` — what the tree answers about one scope and one name.

## Main results

* `ScopeTree.HasHistory.perform` — one more call.
* `ScopeTree.answers_of_history` — the answers after any list of calls.
-/

namespace Predeclare

variable {ν : Type}

/-- A call that changes a scope tree. -/
inductive ScopeCall (ν : Type) where
  /-- Create a scope below an existing one. -/
  | createChild (parent : ScopeId) (kind : ScopeKind) (node : ν)
  /-- Define a name in an existing scope. -/
  | define (scope : ScopeId) (name : Name) (symbol : SymbolId) (span : FileSpan)

namespace ScopeCall

/-- The existing scope that a call is about. -/
def scope : ScopeCall ν → ScopeId
  | createChild parent _ _ => parent
  | define scope _ _ _ => scope

/-- The parent of the scope that a call creates. -/
def parent? : ScopeCall ν → Option ScopeId
  | createChild parent _ _ => some parent
  | define _ _ _ _ => none

/-- The name that a call defines. -/
def name? : ScopeCall ν → Option Name
  | createChild _ _ _ => none
  | define _ name _ _ => some name

/-- What a call defines a name as in a scope. -/
def definition? (s : ScopeId) (name : Name) : ScopeCall ν → Option Definition
  | createChild _ _ _ => none
  | define s' name' symbol span => if s' = s ∧ name' = name then some ⟨symbol, span⟩ else none

/-- The parents of all scopes, by number; the global scope has none. -/
def scopeParents (calls : List (ScopeCall ν)) : List (Option ScopeId) :=
  none :: (calls.filterMap parent?).map some

/-- What the first call that defines a name in a scope defines it as. -/
def definedIn (calls : List (ScopeCall ν)) (s : ScopeId) (name : Name) : Option Definition :=
  calls.findSome? (definition? s name)

/-- Every call is about a scope that exists when it is made. -/
def OnKnownScopes (calls : List (ScopeCall ν)) : Prop :=
  ∀ k, (h : k < calls.length) → calls[k].scope.index < (scopeParents (calls.take k)).length

instance (calls : List (ScopeCall ν)) : Decidable (OnKnownScopes calls) :=
  inferInstanceAs (Decidable (∀ k, (h : k < calls.length) →
    calls[k].scope.index < (scopeParents (calls.take k)).length))

variable {calls more done rest : List (ScopeCall ν)} {call : ScopeCall ν}

/-- A call in a list of calls is about a scope that the calls before it have made. -/
lemma OnKnownScopes.scope_lt (h : OnKnownScopes (done ++ call :: rest)) :
    call.scope.index < (scopeParents done).length := by
  have hcall := h done.length (by simp)
  simpa using hcall

/-- Later calls add parents behind the others. -/
lemma scopeParents_append : scopeParents (calls ++ more) =
    scopeParents calls ++ (more.filterMap parent?).map some := by
  simp [scopeParents]

/-- Only the global scope has no parent. -/
lemma eq_zero_of_scopeParents {k : Nat} (h : (scopeParents calls)[k]? = some none) : k = 0 := by
  cases k with
  | zero => rfl
  | succ k => simp [scopeParents] at h

/-- Later calls count when no earlier one defined the name. -/
lemma definedIn_append (s : ScopeId) (name : Name) :
    definedIn (calls ++ more) s name = (definedIn calls s name).or (definedIn more s name) :=
  List.findSome?_append

/-- A name that has a definition is the name of some call. -/
lemma mem_names_of_definedIn {s : ScopeId} {name : Name} (h : definedIn calls s name ≠ none) :
    name ∈ calls.filterMap name? := by
  obtain ⟨d, hd⟩ := Option.ne_none_iff_exists'.1 h
  obtain ⟨call, hcall, hdefinition⟩ := List.exists_of_findSome?_eq_some hd
  refine List.mem_filterMap.2 ⟨call, hcall, ?_⟩
  cases call with
  | createChild parent kind node => cases hdefinition
  | define s' name' symbol span =>
    simp only [definition?] at hdefinition
    split at hdefinition
    · rename_i hsame
      exact congrArg some hsame.2
    · cases hdefinition

end ScopeCall

namespace ScopeTree

open ScopeCall

/-! ## The calls -/

/-- Performs a call. A refused definition changes nothing. -/
def perform (T : ScopeTree ν) : ScopeCall ν → Except Fault (ScopeTree ν)
  | .createChild parent kind node => (T.createChild parent kind node).map Prod.snd
  | .define s name symbol span =>
    (T.define s name symbol span).map fun
      | .ok T' => T'
      | .error _ => T

/-- Performs calls one after the other. -/
def performAll (T : ScopeTree ν) (calls : List (ScopeCall ν)) : Except Fault (ScopeTree ν) :=
  calls.foldlM perform T

/-- The parents and the definitions in the tree are those that the calls say. -/
structure HasHistory (T : ScopeTree ν) (calls : List (ScopeCall ν)) : Prop where
  parents : T.scopes.toList.map Scope.parent = scopeParents calls
  definitions : ∀ s name, (T.definitions s).get? name = definedIn calls s name

variable {T T' : ScopeTree ν} {calls more : List (ScopeCall ν)} {call : ScopeCall ν} {s : ScopeId}
  {name : Name}

/-- A new scope has no definitions, and the others keep theirs. -/
lemma definitions_of_append {scope : Scope ν}
    (h : T'.scopes.toList = T.scopes.toList ++ [scope]) (hempty : scope.definitions = .empty)
    (s : ScopeId) : T'.definitions s = T.definitions s := by
  simp only [definitions, scope?, ← Array.getElem?_toList]
  rw [h, List.getElem?_append]
  split
  · rfl
  · rename_i hge
    rw [List.getElem?_eq_none (Nat.le_of_not_lt hge), List.getElem?_singleton]
    split
    · exact hempty
    · rfl

/-- A scope that holds a name refuses another definition of it. -/
lemma define_of_get?_eq_some {first : Definition} (symbol : SymbolId) (span : FileSpan)
    (h : (T.definitions s).get? name = some first) :
    T.define s name symbol span = .ok (.error (.duplicateDefinition name first.span span)) := by
  cases hs : T.scope? s with
  | none =>
    simp only [definitions, hs] at h
    cases h
  | some scope =>
    obtain ⟨known, rfl⟩ := Array.getElem?_eq_some_iff.1 hs
    simp only [definitions, hs, Option.map_some, Option.getD_some] at h
    simp only [define]
    rw [dif_pos known, h]

/-- A scope that does not hold a name takes a definition of it; nothing else changes.

**Proof sketch.** The scope is replaced by one with the new definition and the old parent. -/
lemma define_of_get?_eq_none (symbol : SymbolId) (span : FileSpan) (hs : s.index < T.scopes.size)
    (h : (T.definitions s).get? name = none) :
    ∃ T', T.define s name symbol span = .ok (.ok T') ∧
      T'.scopes.toList.map Scope.parent = T.scopes.toList.map Scope.parent ∧
      ∀ s', T'.definitions s' =
        if s' = s then (T.definitions s).insert name ⟨symbol, span⟩ else T.definitions s' := by
  have hscope : T.scope? s = some T.scopes[s.index] := Array.getElem?_eq_getElem hs
  simp only [definitions, hscope, Option.map_some, Option.getD_some] at h
  simp only [define]
  rw [dif_pos hs, h]
  refine ⟨_, rfl, ?_, fun s' => ?_⟩
  · dsimp only
    rw [Array.toList_set, List.map_set]
    have hs' : s.index < (T.scopes.toList.map Scope.parent).length := by simpa using hs
    have hsame : T.scopes[s.index].parent = (T.scopes.toList.map Scope.parent)[s.index] := by simp
    rw [hsame, List.set_getElem_self]
  · by_cases hsame : s' = s
    · subst hsame
      rw [if_pos rfl]
      simp [definitions, scope?, hs]
    · have hne : s.index ≠ s'.index := fun heq => hsame (by cases s; cases s'; simp_all)
      rw [if_neg hsame]
      simp only [definitions, scope?]
      rw [Array.getElem?_set_ne hs hne]

namespace HasHistory

/-- The tree of the global scope alone has seen no call. -/
lemma new : (ScopeTree.new (ν := ν)).HasHistory [] where
  parents := rfl
  definitions := by
    intro s name
    rcases s with ⟨_ | k⟩ <;> rfl

/-- The calls say how many scopes there are. -/
lemma size_eq (h : T.HasHistory calls) : T.scopes.size = (scopeParents calls).length := by
  rw [← h.parents, List.length_map, Array.length_toList]

/-- The calls say what the parent of a scope is. -/
lemma exists_scope? (h : T.HasHistory calls) (hs : s.index < T.scopes.size) :
    ∃ scope, T.scope? s = some scope ∧ (scopeParents calls)[s.index]? = some scope.parent := by
  refine ⟨T.scopes[s.index], Array.getElem?_eq_getElem hs, ?_⟩
  rw [← h.parents]
  simp [hs]

/-- A scope is created below an existing one. -/
lemma perform_createChild (h : T.HasHistory calls) {parent : ScopeId}
    (hparent : parent.index < T.scopes.size) (kind : ScopeKind) (node : ν) :
    ∃ T', T.perform (.createChild parent kind node) = .ok T' ∧
      T'.HasHistory (calls ++ [.createChild parent kind node]) := by
  obtain ⟨T', hok, hscopes⟩ := createChild_spec hparent kind node
  refine ⟨T', ?_, ?_, fun s name => ?_⟩
  · simp only [ScopeTree.perform]
    rw [hok]
    rfl
  · rw [hscopes, scopeParents_append, List.map_append, h.parents]
    rfl
  · rw [definitions_of_append hscopes rfl, h.definitions, definedIn_append]
    exact Option.or_none.symm

/-- A name that a scope holds is defined once more, which leaves the tree as it is.

**Proof sketch.** The call is refused by `define_of_get?_eq_some`. The history grows by a definition
that makes no scope, and that comes behind an earlier one of the same name in the same scope, so no
answer of the history changes. -/
lemma perform_refused (h : T.HasHistory calls) {first : Definition}
    (hget : (T.definitions s).get? name = some first) (symbol : SymbolId) (span : FileSpan) :
    T.perform (.define s name symbol span) = .ok T ∧
      T.HasHistory (calls ++ [.define s name symbol span]) := by
  refine ⟨?_, ?_, fun s' name' => ?_⟩
  · simp only [ScopeTree.perform]
    rw [define_of_get?_eq_some symbol span hget]
    rfl
  · rw [h.parents, scopeParents_append]
    exact (List.append_nil _).symm
  · rw [h.definitions, definedIn_append]
    by_cases hsame : s = s' ∧ name = name'
    · obtain ⟨rfl, rfl⟩ := hsame
      rw [← h.definitions, hget, Option.some_or]
    · simp [definedIn, definition?, hsame]

/-- A name that a scope does not hold is defined.

**Proof sketch.** The new call is the first to define the name in the scope, and it defines no other
name and no other scope. -/
lemma perform_accepted (h : T.HasHistory calls) (hs : s.index < T.scopes.size)
    (hget : (T.definitions s).get? name = none) (symbol : SymbolId) (span : FileSpan) :
    ∃ T', T.perform (.define s name symbol span) = .ok T' ∧
      T'.HasHistory (calls ++ [.define s name symbol span]) := by
  obtain ⟨T', hok, hparents, hdefinitions⟩ := define_of_get?_eq_none symbol span hs hget
  refine ⟨T', ?_, ?_, fun s' name' => ?_⟩
  · simp only [ScopeTree.perform]
    rw [hok]
    rfl
  · rw [hparents, h.parents, scopeParents_append]
    exact (List.append_nil _).symm
  · rw [hdefinitions, definedIn_append, ← h.definitions]
    by_cases hsame : s' = s
    · subst hsame
      rw [if_pos rfl, OrderedMap.get?_insert]
      by_cases hname : name' = name
      · subst hname
        simp [hget, definedIn, definition?]
      · simp [hname, definedIn, definition?, Ne.symm hname]
    · simp [hsame, definedIn, definition?, Ne.symm hsame]

/-- **One more call** about an existing scope succeeds, and the tree looks like what all calls
say. -/
theorem perform (h : T.HasHistory calls) (hcall : call.scope.index < (scopeParents calls).length) :
    ∃ T', T.perform call = .ok T' ∧ T'.HasHistory (calls ++ [call]) := by
  rw [← h.size_eq] at hcall
  cases call with
  | createChild parent kind node => exact h.perform_createChild hcall kind node
  | define s name symbol span =>
    cases hget : (T.definitions s).get? name with
    | some first => exact ⟨T, h.perform_refused hget symbol span⟩
    | none => exact h.perform_accepted hcall hget symbol span

/-- More calls about existing scopes succeed, and the tree looks like what all calls say.

**Proof sketch.** The loop keeps "the tree has the calls so far as its history", one call by
`perform`: a call of the list is about a scope that the calls before it have made. -/
lemma performAll (h : T.HasHistory calls) (hmore : OnKnownScopes (calls ++ more)) :
    ∃ T', T.performAll more = .ok T' ∧ T'.HasHistory (calls ++ more) := by
  have hloop : EndsIn (fun _ => False) (fun T' => T'.HasHistory (calls ++ more))
      (more.foldlM ScopeTree.perform T) := by
    refine EndsIn.foldlM (I := fun done (T' : ScopeTree ν) => T'.HasHistory (calls ++ done))
      (fun done call rest T' hsplit hT' => ?_) (by rwa [List.append_nil])
    rw [hsplit, ← List.append_assoc] at hmore
    obtain ⟨T'', hok, hT''⟩ := hT'.perform hmore.scope_lt
    rw [hok, ← List.append_assoc]
    exact hT''
  exact hloop.exists_eq_ok

end HasHistory

/-! ## Chains -/

/-- The list starts with the scope, goes from each scope to the parent it was created with, and ends
with the global scope. -/
structure IsOutwardPath (calls : List (ScopeCall ν)) (s : ScopeId) (path : List ScopeId) :
    Prop where
  head : path.head? = some s
  last : path.getLast? = some globalScope
  decreasing : path.Pairwise fun a b => b.index < a.index
  parents : path.IsChain fun a b => (scopeParents calls)[a.index]? = some (some b)

/-- The global scope is a path of its own. -/
lemma IsOutwardPath.global : IsOutwardPath calls globalScope [globalScope] :=
  ⟨rfl, rfl, List.pairwise_singleton _ _, List.isChain_singleton _⟩

/-- A path goes on from the parent of a scope. -/
lemma IsOutwardPath.cons {p : ScopeId} {path : List ScopeId} (h : IsOutwardPath calls p path)
    (hparent : (scopeParents calls)[s.index]? = some (some p)) (hlt : p.index < s.index) :
    IsOutwardPath calls s (s :: path) := by
  obtain ⟨outer, rfl⟩ := List.head?_eq_some_iff.1 h.head
  refine ⟨rfl, ?_, List.pairwise_cons.2 ⟨fun b hb => ?_, h.decreasing⟩, ?_⟩
  · rw [List.getLast?_cons_cons]
    exact h.last
  · rcases List.mem_cons.1 hb with rfl | hb
    · exact hlt
    · exact Nat.lt_trans ((List.pairwise_cons.1 h.decreasing).1 b hb) hlt
  · exact List.isChain_cons_cons.2 ⟨hparent, h.parents⟩

namespace HasHistory

/-- Induction over the existing scopes, from the global scope inwards.

**Proof sketch.** Induction on the number of the scope. One without a parent is the global scope,
and a parent has a smaller number. -/
lemma outward_induction (h : T.HasHistory calls) {P : ScopeId → Prop}
    (global : ∀ scope, T.scope? globalScope = some scope → scope.parent = none → P globalScope)
    (inner : ∀ s scope p, T.scope? s = some scope → scope.parent = some p →
      (scopeParents calls)[s.index]? = some (some p) → p.index < s.index → P p → P s)
    (hs : s.index < T.scopes.size) : P s := by
  obtain ⟨k, hk⟩ : ∃ k, s.index = k := ⟨_, rfl⟩
  induction k using Nat.strong_induction_on generalizing s with
  | _ k ih =>
    obtain ⟨scope, hscope, hparent⟩ := h.exists_scope? hs
    cases hp : scope.parent with
    | none =>
      rw [hp] at hparent
      obtain rfl : s = globalScope := congrArg ScopeId.mk (eq_zero_of_scopeParents hparent)
      exact global scope hscope hp
    | some p =>
      rw [hp] at hparent
      obtain ⟨known, rfl⟩ := Array.getElem?_eq_some_iff.1 hscope
      have hlt := T.parent_lt _ known p hp
      exact inner s _ p hscope hp hparent hlt (ih p.index (hk ▸ hlt) (Nat.lt_trans hlt hs) rfl)

/-- **The chain of a scope** leads to the global scope along the parents that the calls say. -/
theorem isOutwardPath_chain (h : T.HasHistory calls) (hs : s.index < T.scopes.size) :
    IsOutwardPath calls s (T.chain s) := by
  refine h.outward_induction (P := fun s => IsOutwardPath calls s (T.chain s)) ?_ ?_ hs
  · intro scope hscope hp
    rw [ScopeTree.chain_eq hscope, hp]
    exact .global
  · intro s scope p hscope hp hparent hlt ih
    rw [ScopeTree.chain_eq hscope, hp]
    exact ih.cons hparent hlt

/-- Later calls leave the chain of a scope as it is.

**Proof sketch.** Induction from the global scope inwards: a scope has the same parent after later
calls. -/
lemma chain_eq_of_append (h : T.HasHistory calls) (h' : T'.HasHistory (calls ++ more))
    (hs : s.index < T.scopes.size) : T'.chain s = T.chain s := by
  refine h.outward_induction (P := fun s => T'.chain s = T.chain s) ?_ ?_ hs
  · intro scope hscope hp
    have hlt : globalScope.index < T'.scopes.size := T'.size_pos
    obtain ⟨scope', hscope', hparent'⟩ := h'.exists_scope? hlt
    have hp' : scope'.parent = none := (Option.some.inj hparent').symm
    rw [ScopeTree.chain_eq hscope, ScopeTree.chain_eq hscope', hp, hp']
    rfl
  · intro s scope p hscope hp hparent hlt ih
    have hknown : s.index < (scopeParents calls).length := (List.getElem?_eq_some_iff.1 hparent).1
    have hs' : s.index < T'.scopes.size := by
      rw [h'.size_eq, scopeParents_append, List.length_append]
      omega
    obtain ⟨scope', hscope', hparent'⟩ := h'.exists_scope? hs'
    rw [scopeParents_append, List.getElem?_append_left hknown, hparent] at hparent'
    have hp' : scope'.parent = some p := (Option.some.inj hparent').symm
    rw [ScopeTree.chain_eq hscope, ScopeTree.chain_eq hscope', hp, hp', Option.map_some,
      Option.map_some, ih]

/-! ## Look-up -/

/-- Look-up finds the first definition in the first scope of the chain where there is one. -/
lemma lookup_eq (h : T.HasHistory calls) (s : ScopeId) (name : Name) :
    T.lookup s name = (T.chain s).findSome? fun outer => definedIn calls outer name := by
  simp only [lookup, h.definitions]

/-- Later calls that define the name elsewhere leave what look-up finds as it is. -/
lemma lookup_eq_of_append (h : T.HasHistory calls) (h' : T'.HasHistory (calls ++ more))
    (hs : s.index < T.scopes.size)
    (hmore : ∀ outer ∈ T.chain s, definedIn more outer name = none) :
    T'.lookup s name = T.lookup s name := by
  rw [h'.lookup_eq, h.lookup_eq, h.chain_eq_of_append h' hs]
  generalize T.chain s = chain at hmore
  induction chain with
  | nil => rfl
  | cons outer rest ih =>
    rw [List.findSome?_cons, List.findSome?_cons, definedIn_append,
      hmore outer List.mem_cons_self, Option.or_none,
      ih fun a ha => hmore a (List.mem_cons_of_mem outer ha)]

/-- The visible names are defined by some call. -/
lemma mem_names_of_mem_keys (h : T.HasHistory calls) {k : Name} (hk : k ∈ (T.definitions s).keys) :
    k ∈ calls.filterMap name? := by
  refine mem_names_of_definedIn (s := s) fun hnone => ?_
  rw [← h.definitions, OrderedMap.get?_eq_none_iff] at hnone
  exact hnone hk

end HasHistory

/-! ## Visible names -/

variable {I : Interner} {spell : Name → String}

/-- The visible names are those that look-up finds. -/
lemma exists_visibleNames_lookup (E : Enumeration) (h : T.KnownTo I) (s : ScopeId) :
    ∃ names, T.visibleNames I s E = .ok names ∧ ∀ k, k ∈ names ↔ T.lookup s k ≠ none := by
  obtain ⟨names, hnames, hmem⟩ := exists_visibleNames_mem_iff E h s
  refine ⟨names, hnames, fun k => ?_⟩
  simp only [hmem, lookup, ne_eq, List.findSome?_eq_none_iff, OrderedMap.get?_eq_none_iff,
    not_forall, not_not, exists_prop]

/-- The names are suggestions for `name`: each is another name that is visible and at most three
edits away, and no such name that is closer than one of them is left out. -/
structure AreSuggestions (visible : Name → Prop) (distance : Name → Nat) (name : Name)
    (ks : List Name) : Prop where
  eligible : ∀ k ∈ ks, visible k ∧ k ≠ name ∧ distance k ≤ 3
  closest : ∀ k, visible k ∧ k ≠ name ∧ distance k ≤ 3 → k ∉ ks →
    ∀ j ∈ ks, distance j ≤ distance k

/-- Suggestions are found among the visible names, in whatever order these are listed. -/
lemma areSuggestions_of_mem_iff {available : List Name} {visible : Name → Prop}
    (hspell : ∀ a ∈ name :: available, I.spelling a = .ok (spell a))
    (hvisible : ∀ k, k ∈ available ↔ visible k) :
    ∃ ks, suggestions I name available = .ok ks ∧
      AreSuggestions visible (nameDistance spell name) name ks := by
  have hranking : Suggestion.IsRanking (nameDistance spell name) name available _ :=
    Suggestion.isRanking_ranking name available
  refine ⟨_, suggestions_eq_take hspell, fun k hk => ?_, fun k hk hnot j hj => ?_⟩
  · obtain ⟨hmem, heligible⟩ := (hranking.mem_iff k).1 (List.mem_of_mem_take hk)
    exact ⟨(hvisible k).1 hmem, heligible⟩
  · exact hranking.distance_le_of_notMem_take ⟨(hvisible k).2 hk.1, hk.2⟩ hnot hj

/-- Resolving a name gives what look-up finds and, if it finds nothing, a report with suggestions.
However the visible names are listed, what is suggested has the same properties. -/
def Resolves (T : ScopeTree ν) (I : Interner) (E : Enumeration) (spell : Name → String)
    (s : ScopeId) (name : Name) (site : FileSpan) : Prop :=
  match T.lookup s name with
  | some d => T.resolve I s name site E = .ok (.ok d)
  | none =>
    (∃ ks, T.resolve I s name site E = .ok (.error (.undefinedName name site ks)) ∧
      AreSuggestions (fun k => T.lookup s k ≠ none) (nameDistance spell name) name ks) ∧
    ∀ available, (∀ k, k ∈ available ↔ T.lookup s k ≠ none) →
      ∃ ks, suggestions I name available = .ok ks ∧
        AreSuggestions (fun k => T.lookup s k ≠ none) (nameDistance spell name) name ks

/-! ## All answers -/

/-- What a tree answers about a scope and a name after the calls. -/
structure Answers (T : ScopeTree ν) (calls : List (ScopeCall ν)) (s : ScopeId) (name : Name) :
    Prop where
  definitions : (T.definitions s).get? name = definedIn calls s name
  lookup : T.lookup s name = (T.chain s).findSome? fun outer => definedIn calls outer name
  lookup_eq_none : T.lookup s name = none ↔ ∀ outer ∈ T.chain s, definedIn calls outer name = none
  /-- The chain stays, and only calls for scopes on it can change what is found. -/
  later : ∀ more, OnKnownScopes (calls ++ more) →
    ∃ T', T.performAll more = .ok T' ∧ T'.chain s = T.chain s ∧
      ((∀ outer ∈ T.chain s, definedIn more outer name = none) →
        T'.lookup s name = T.lookup s name)
  define : ∀ symbol span,
    match definedIn calls s name with
    | some first =>
      T.define s name symbol span = .ok (.error (.duplicateDefinition name first.span span)) ∧
        T.perform (.define s name symbol span) = .ok T
    | none => ∃ T', T.define s name symbol span = .ok (.ok T')
  /-- All names that are defined or looked for have spellings. Scopes list their names in any
  order. -/
  resolve : ∀ I E (spell : Name → String) site,
    (∀ a ∈ name :: calls.filterMap name?, I.spelling a = .ok (spell a)) →
    T.Resolves I E spell s name site

namespace HasHistory

/-- A name that look-up does not find is reported with suggestions.

**Proof sketch.** The names visible from the scope are those that look-up finds, each as often as
the scopes list it. The suggestions only depend on which names these are, by
`areSuggestions_of_mem_iff`. -/
lemma resolve_spec (h : T.HasHistory calls) (E : Enumeration) (s : ScopeId) (site : FileSpan)
    (hspell : ∀ a ∈ name :: calls.filterMap name?, I.spelling a = .ok (spell a)) :
    T.Resolves I E spell s name site := by
  have hkeys : ∀ outer, ∀ k ∈ (T.definitions outer).keys, I.spelling k = .ok (spell k) :=
    fun outer k hk => hspell k (List.mem_cons_of_mem name (h.mem_names_of_mem_keys hk))
  have hvisible : ∀ k, T.lookup s k ≠ none → I.spelling k = .ok (spell k) := by
    intro k hk
    obtain ⟨d, hd⟩ := Option.ne_none_iff_exists'.1 hk
    obtain ⟨outer, _, hget⟩ := List.exists_of_findSome?_eq_some hd
    exact hkeys outer k (List.mem_map_of_mem (OrderedMap.get?_eq_some_iff.1 hget))
  have hany : ∀ available, (∀ k, k ∈ available ↔ T.lookup s k ≠ none) →
      ∃ ks, suggestions I name available = .ok ks ∧
        AreSuggestions (fun k => T.lookup s k ≠ none) (nameDistance spell name) name ks := by
    intro available hiff
    refine areSuggestions_of_mem_iff (fun a ha => ?_) hiff
    rcases List.mem_cons.1 ha with rfl | ha
    · exact hspell a List.mem_cons_self
    · exact hvisible a ((hiff a).1 ha)
  simp only [Resolves]
  cases hlookup : T.lookup s name with
  | some d =>
    dsimp only
    simp only [ScopeTree.resolve]
    rw [hlookup]
  | none =>
    obtain ⟨names, hnames, hiff⟩ :=
      exists_visibleNames_lookup E (fun outer k hk => ⟨spell k, hkeys outer k hk⟩) s
    obtain ⟨ks, hks, hbest⟩ := hany names hiff
    refine ⟨⟨ks, ?_, hbest⟩, hany⟩
    simp only [ScopeTree.resolve]
    rw [hlookup, hnames]
    simp only [ok_bind, hks, pure_eq_ok]

/-- What the tree answers about an existing scope.

**Proof sketch.** The tree has the history, so each answer is read off the calls. For later calls
the history is continued. -/
lemma answers (h : T.HasHistory calls) (hs : s.index < T.scopes.size) (name : Name) :
    T.Answers calls s name where
  definitions := h.definitions s name
  lookup := h.lookup_eq s name
  lookup_eq_none := by rw [h.lookup_eq, List.findSome?_eq_none_iff]
  later := by
    intro more hmore
    obtain ⟨T', hok, h'⟩ := h.performAll hmore
    exact ⟨T', hok, h.chain_eq_of_append h' hs, h.lookup_eq_of_append h' hs⟩
  define := by
    intro symbol span
    cases hget : definedIn calls s name with
    | some first =>
      rw [← h.definitions] at hget
      exact ⟨define_of_get?_eq_some symbol span hget, (h.perform_refused hget symbol span).1⟩
    | none =>
      rw [← h.definitions] at hget
      obtain ⟨T', hok, _⟩ := define_of_get?_eq_none symbol span hs hget
      exact ⟨T', hok⟩
  resolve := fun I E spell site hspell => h.resolve_spec E s site hspell

end HasHistory

/-- **What a scope tree answers after any list of calls.** Each call for an existing scope succeeds,
and the answers about every scope and every name are those that the calls say.

**Proof sketch.** `HasHistory.performAll` from the empty tree: the calls succeed and the tree has
them as its history. The answers are read off the history by `isOutwardPath_chain` and `answers`. -/
theorem answers_of_history (hcalls : OnKnownScopes calls) :
    ∃ T, (new : ScopeTree ν).performAll calls = .ok T ∧ T.size = (scopeParents calls).length ∧
      ∀ s, s.index < T.size →
        IsOutwardPath calls s (T.chain s) ∧ ∀ name, T.Answers calls s name := by
  obtain ⟨T, hok, h⟩ := HasHistory.new.performAll hcalls
  rw [List.nil_append] at h
  exact ⟨T, hok, h.size_eq, fun s hs => ⟨h.isOutwardPath_chain hs, h.answers hs⟩⟩

/-- A name that two scopes define and one defines twice, and names that are defined late in an outer
scope or in a scope beside. -/
def shadowingCalls : List (ScopeCall Nat) :=
  [.createChild ⟨0⟩ .function 0, .define ⟨1⟩ ⟨2⟩ ⟨0⟩ ⟨⟨0⟩, ⟨0, 1⟩⟩, .createChild ⟨1⟩ .block 1,
    .createChild ⟨0⟩ .block 2, .define ⟨1⟩ ⟨2⟩ ⟨1⟩ ⟨⟨0⟩, ⟨2, 3⟩⟩,
    .define ⟨3⟩ ⟨1⟩ ⟨2⟩ ⟨⟨0⟩, ⟨4, 5⟩⟩, .define ⟨0⟩ ⟨2⟩ ⟨3⟩ ⟨⟨0⟩, ⟨6, 7⟩⟩,
    .define ⟨0⟩ ⟨5⟩ ⟨4⟩ ⟨⟨0⟩, ⟨8, 9⟩⟩]

/-- In the block inside the function, `print` is what the function defined first. For `prnt`, the
late `pint` of the global scope is suggested, but not the `paint` of the other block. -/
theorem answers_of_history_shadowing :
    OnKnownScopes shadowingCalls ∧
    (∀ a ∈ ⟨0⟩ :: shadowingCalls.filterMap name?,
      Interner.ofPrnt.spelling a = .ok (Interner.ofPrnt.spellings.getD a.index "")) ∧
    ∃ T, (new : ScopeTree Nat).performAll shadowingCalls = .ok T ∧
      IsOutwardPath shadowingCalls ⟨2⟩ [⟨2⟩, ⟨1⟩, ⟨0⟩] ∧
      T.lookup ⟨2⟩ ⟨2⟩ = some ⟨⟨0⟩, ⟨0⟩, ⟨0, 1⟩⟩ ∧
      T.resolve .ofPrnt ⟨2⟩ ⟨0⟩ ⟨⟨0⟩, ⟨10, 11⟩⟩ =
        .ok (.error (.undefinedName ⟨0⟩ ⟨⟨0⟩, ⟨10, 11⟩⟩ [⟨2⟩, ⟨5⟩])) ∧
      AreSuggestions (fun k => T.lookup ⟨2⟩ k ≠ none)
        (nameDistance (fun a => Interner.ofPrnt.spellings.getD a.index "") ⟨0⟩) ⟨0⟩
        [⟨2⟩, ⟨5⟩] := by
  have hcalls : OnKnownScopes shadowingCalls := by decide
  have hspell : ∀ a ∈ ⟨0⟩ :: shadowingCalls.filterMap name?,
      Interner.ofPrnt.spelling a = .ok (Interner.ofPrnt.spellings.getD a.index "") := by decide
  have hrun : EndsIn (fun _ => False)
      (fun T => T.chain ⟨2⟩ = [⟨2⟩, ⟨1⟩, ⟨0⟩] ∧ T.lookup ⟨2⟩ ⟨2⟩ = some ⟨⟨0⟩, ⟨0⟩, ⟨0, 1⟩⟩ ∧
        T.lookup ⟨2⟩ ⟨0⟩ = none ∧
        (T.definitions ⟨2⟩).keys = [] ∧ (T.definitions ⟨1⟩).keys = [⟨2⟩] ∧
        (T.definitions ⟨0⟩).keys = [⟨2⟩, ⟨5⟩])
      ((new : ScopeTree Nat).performAll shadowingCalls) := by decide +kernel
  obtain ⟨T, hok, hchain, hlookup, hnone, hinner, hfunction, hglobal⟩ := hrun.exists_eq_ok
  have hvisible : T.visibleNames .ofPrnt ⟨2⟩ = .ok [⟨2⟩, ⟨5⟩, ⟨2⟩] := by
    have hprint : Interner.ofPrnt.spelling ⟨2⟩ = .ok "print" := rfl
    have hpint : Interner.ofPrnt.spelling ⟨5⟩ = .ok "pint" := rfl
    have hsorted : [("print", (⟨2⟩ : Name)), ("pint", ⟨5⟩)].mergeSort (fun a b => ¬ b.1 < a.1) =
        [("pint", ⟨5⟩), ("print", ⟨2⟩)] := by
      rw [Suggestion.mergeSort_pair]
      exact if_neg (by decide)
    simp only [visibleNames, Enumeration.bySpelling, sortedNames, hchain, hinner, hfunction,
      hglobal, List.mapM_cons, List.mapM_nil, hprint, hpint, ok_bind, pure_eq_ok, hsorted,
      List.mergeSort_nil, List.mergeSort_singleton]
    rfl
  have hresolve : T.resolve .ofPrnt ⟨2⟩ ⟨0⟩ ⟨⟨0⟩, ⟨10, 11⟩⟩ =
      .ok (.error (.undefinedName ⟨0⟩ ⟨⟨0⟩, ⟨10, 11⟩⟩ [⟨2⟩, ⟨5⟩])) := by
    have hmeasured : (Suggestion.candidates ⟨0⟩ [⟨2⟩, ⟨5⟩, ⟨2⟩]).mapM
        (Suggestion.measure .ofPrnt "prnt") = .ok [(⟨2⟩, 1), (⟨5⟩, 1)] := by decide +kernel
    have hsuggested : suggestions .ofPrnt ⟨0⟩ [⟨2⟩, ⟨5⟩, ⟨2⟩] = .ok [⟨2⟩, ⟨5⟩] := by
      rw [suggestions_eq_closest (hspell ⟨0⟩ List.mem_cons_self) hmeasured]
      simp [Suggestion.closest, Suggestion.maxDistance, Suggestion.maxCount, List.mergeSort]
    simp only [resolve, hnone, hvisible, ok_bind, hsuggested, pure_eq_ok]
  obtain ⟨T', hok', hsize, hanswers⟩ := answers_of_history hcalls
  obtain rfl := Except.ok.inj (hok.symm.trans hok')
  obtain ⟨hpath, hname⟩ := hanswers ⟨2⟩ (by rw [hsize]; decide)
  have hreport := (hname ⟨0⟩).resolve .ofPrnt .bySpelling _ ⟨⟨0⟩, ⟨10, 11⟩⟩ hspell
  simp only [Resolves, hnone] at hreport
  obtain ⟨⟨ks, hks, hbest⟩, _⟩ := hreport
  obtain rfl : [⟨2⟩, ⟨5⟩] = ks := by
    simpa using hresolve.symm.trans hks
  exact ⟨hcalls, hspell, T, hok, hchain ▸ hpath, hlookup, hresolve, hbest⟩

end ScopeTree

end Predeclare
