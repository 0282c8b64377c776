import Mathlib.Data.List.Forall2
import Predeclare.Proofs.Outcome
import Predeclare.Proofs.Spelling
import Predeclare.Scope.Tree

set_option relaxedAutoImplicit false
set_option autoImplicit false

/-!
# How scopes list their names

A scope lists each of its names once, in an order that is left open. Which names are visible from a
scope, and whether names can be suggested, does not depend on the order; what is suggested does, but
only among names at the same distance. Two compilations can be compared if the order does not depend
on the names themselves, which differ from one interner to another, but on their spellings.

## Main definitions

* `ScopeTree.KnownTo` — an interner knows all names in the scopes.
* `SameSpelling` — two names, each of its own interner, are spelled in the same way.
* `Enumeration.DependsOnSpellings` — names that are spelled in the same way are listed in the same
  way.
* `Enumeration.byDefinition` — names are listed as they came into the scope.

## Main results

* `ScopeTree.exists_visibleNames_mem_iff` — the visible names are those of the scopes on the chain.
* `ScopeTree.exists_resolve_eq_error` — a name that look-up does not find is reported.
* `Enumeration.bySpelling_dependsOnSpellings` — sorting by spelling depends on spellings only.
-/

namespace Predeclare

/-! ## Visible names -/

namespace ScopeTree

variable {ν : Type} {T : ScopeTree ν} {I : Interner}

/-- The interner knows all names in the scopes. -/
def KnownTo (I : Interner) (T : ScopeTree ν) : Prop := ∀ s, ∀ k ∈ (T.definitions s).keys, I.Knows k

/-- **The visible names** are those that some scope on the chain defines, however scopes list
them. -/
theorem exists_visibleNames_mem_iff (E : Enumeration) (h : T.KnownTo I) (s : ScopeId) :
    ∃ names, T.visibleNames I s E = .ok names ∧
      ∀ k, k ∈ names ↔ ∃ outer ∈ T.chain s, k ∈ (T.definitions outer).keys := by
  choose list hlist hperm using fun outer => E.exists_perm I (T.definitions outer) (h outer)
  refine ⟨((T.chain s).map list).flatten, ?_, fun k => ?_⟩
  · simp only [visibleNames]
    rw [mapM_eq_ok_map fun outer _ => hlist outer]
    rfl
  · simp only [List.mem_flatten, List.mem_map, exists_exists_and_eq_and, (hperm _).mem_iff]

/-- Suggestions for a known name among known names can be computed.

**Proof sketch.** Each candidate is one of the available names, so that its distance can be
measured. -/
lemma exists_suggestions_eq_ok {name : Name} {available : List Name} (hname : I.Knows name)
    (h : ∀ k ∈ available, I.Knows k) : ∃ ks, suggestions I name available = .ok ks := by
  obtain ⟨s, hs⟩ := hname
  simp only [suggestions]
  have hmeasure : ∀ k ∈ Suggestion.candidates name available,
      ∃ m, Suggestion.measure I s k = .ok m := by
    intro k hk
    have hmem : k ∈ available := by
      simp only [Suggestion.candidates] at hk
      exact (List.mem_filter.1 (List.mem_eraseDups.1 hk)).1
    obtain ⟨s', hs'⟩ := h k hmem
    simp only [Suggestion.measure]
    rw [hs']
    exact ⟨_, rfl⟩
  obtain ⟨ms, hms⟩ := exists_mapM_eq_ok hmeasure
  rw [hs, ok_bind, hms, ok_bind]
  exact ⟨_, rfl⟩

/-- A name that look-up does not find is reported as undefined, if all names are known.

**Proof sketch.** The visible names are listed and are names of scopes
(`exists_visibleNames_mem_iff`), so they have spellings and so do the suggestions among them
(`exists_suggestions_eq_ok`). -/
lemma exists_resolve_eq_error (E : Enumeration) {s : ScopeId} {name : Name} (site : FileSpan)
    (hlookup : T.lookup s name = none) (hname : I.Knows name) (hscopes : T.KnownTo I) :
    ∃ ks, T.resolve I s name site E = .ok (.error (.undefinedName name site ks)) := by
  obtain ⟨names, hnames, hmem⟩ := exists_visibleNames_mem_iff E hscopes s
  have hknown : ∀ k ∈ names, I.Knows k := by
    intro k hk
    obtain ⟨outer, _, hk⟩ := (hmem k).1 hk
    exact hscopes outer k hk
  obtain ⟨ks, hks⟩ := exists_suggestions_eq_ok hname hknown
  refine ⟨ks, ?_⟩
  simp only [resolve]
  rw [hlookup, hnames]
  simp only [ok_bind, pure_eq_ok, hks]

end ScopeTree

/-! ## Names that are spelled in the same way -/

/-- Two names that are known to the one and to the other interner have the same spelling. -/
def SameSpelling (J J' : Interner) (a b : Name) : Prop :=
  ∃ s, J.spelling a = .ok s ∧ J'.spelling b = .ok s

/-- Lists of names that are spelled in the same way come from one list of spellings with two names
each. -/
lemma exists_eq_map_of_forall₂_sameSpelling {J J' : Interner} {as bs : List Name}
    (h : List.Forall₂ (SameSpelling J J') as bs) :
    ∃ entries : List (String × Name × Name),
      as = entries.map (·.2.1) ∧ bs = entries.map (·.2.2) ∧
        ∀ e ∈ entries, J.spelling e.2.1 = .ok e.1 ∧ J'.spelling e.2.2 = .ok e.1 := by
  induction h with
  | nil => exact ⟨[], rfl, rfl, by simp⟩
  | @cons a b _ _ hab _ ih =>
    obtain ⟨s, hs⟩ := hab
    obtain ⟨entries, rfl, rfl, hentries⟩ := ih
    exact ⟨(s, a, b) :: entries, rfl, rfl, List.forall_mem_cons.2 ⟨hs, hentries⟩⟩

namespace Enumeration

/-- The order does not depend on the names but on their spellings: scopes that have got their names
in the same order list them in the same order, if the names are spelled in the same way. -/
def DependsOnSpellings (E : Enumeration) : Prop :=
  ∀ (J J' : Interner) (scope scope' : OrderedMap Name Definition) (names names' : List Name),
    List.Forall₂ (SameSpelling J J') scope.keys scope'.keys →
      E.names J scope = .ok names → E.names J' scope' = .ok names' →
        List.Forall₂ (SameSpelling J J') names names'

/-- The names of a scope, sorted, if they come from a list of spellings with names.

**Proof sketch.** Each key finds its spelling, so the list sorted is `entries` up to `f`, and
sorting commutes with replacing what stands beside the spellings. -/
lemma sortedNames_eq_ok {I : Interner} {scope : OrderedMap Name Definition} {α : Type}
    {entries : List (String × α)} {f : α → Name} (hkeys : scope.keys = entries.map (f ·.2))
    (h : ∀ e ∈ entries, I.spelling (f e.2) = .ok e.1) :
    ScopeTree.sortedNames I scope =
      .ok ((entries.mergeSort fun a b => ¬ b.1 < a.1).map (f ·.2)) := by
  have hspelled : (scope.keys.mapM fun k => do return (← I.spelling k, k)) =
      (Except.ok (entries.map (Prod.map id f)) : Except Fault (List (String × Name))) := by
    rw [hkeys, List.mapM_map]
    refine mapM_eq_ok_map fun e he => ?_
    rw [Function.comp_apply, h e he]
    rfl
  simp only [ScopeTree.sortedNames]
  rw [hspelled, ok_bind,
    ← List.map_mergeSort (r := fun a b => decide ¬ b.1 < a.1) fun _ _ _ _ => rfl, List.map_map]
  rfl

/-- **Sorting by spelling depends on spellings only.** -/
theorem bySpelling_dependsOnSpellings : bySpelling.DependsOnSpellings := by
  intro J J' scope scope' names names' hkeys hnames hnames'
  obtain ⟨entries, has, hbs, hentries⟩ := exists_eq_map_of_forall₂_sameSpelling hkeys
  have hsorted := sortedNames_eq_ok (f := Prod.fst) has fun e he => (hentries e he).1
  have hsorted' := sortedNames_eq_ok (f := Prod.snd) hbs fun e he => (hentries e he).2
  obtain rfl := Except.ok.inj (hsorted.symm.trans hnames)
  obtain rfl := Except.ok.inj (hsorted'.symm.trans hnames')
  rw [List.forall₂_map_left_iff, List.forall₂_map_right_iff, List.forall₂_same]
  exact fun e he => ⟨e.1, hentries e (List.mem_mergeSort.1 he)⟩

/-- The names are listed in the order in which they came into the scope. -/
def byDefinition : Enumeration where
  names _ scope := .ok scope.keys
  exists_perm _ scope _ := ⟨scope.keys, rfl, .refl _⟩

/-- The order in which names come into scopes can be compared as well. -/
lemma byDefinition_dependsOnSpellings : byDefinition.DependsOnSpellings := by
  rintro J J' scope scope' _ _ hkeys ⟨⟩ ⟨⟩
  exact hkeys

end Enumeration

end Predeclare
