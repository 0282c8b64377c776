import Predeclare.Proofs.Binding.Walk
import Predeclare.Proofs.Renaming.Tree
import Predeclare.Scope.Symbol

set_option relaxedAutoImplicit false
set_option autoImplicit false

/-!
# Binding trees that differ in their names

The names of two interners are matched through their spellings. If a tree has its names replaced in
this way, binding makes the same symbols of it, binds the same references to them, and reports
something if and only if it did before.

## Main definitions

* `Interner.translate` — the name of a replaced spelling.

## Main results

* `Interner.translate_injective` — different names are replaced by different names.
* `covers_bind_ordered` — the globals of a unit have the order in which they are given.
* `SyntaxTree.Renames.model_eq` — what lowering asks about the bindings has the same answers.
-/

namespace Predeclare

/-! ## Names with replaced spellings -/

namespace Interner

variable {J J' : Interner} {f : String → String}

/-- The name that `J'` has for the replaced spelling of a name of `J`. Names without one are kept
apart from all names of `J'`. -/
def translate (J J' : Interner) (f : String → String) (name : Name) : Name :=
  match (J.spelling name).toOption.bind fun s => J'.find? (f s) with
  | some name' => name'
  | none => ⟨name.index + J'.size⟩

/-- A name is replaced by the name with the replaced spelling, if there is one. -/
lemma translate_eq {name name' : Name} {s : String} (hs : J.spelling name = .ok s)
    (hs' : J'.spelling name' = .ok (f s)) : translate J J' f name = name' := by
  have hfind : (J.spelling name).toOption.bind (fun s => J'.find? (f s)) = some name' := by
    rw [hs]
    exact find?_eq_some_iff.2 hs'
  unfold translate
  rw [hfind]

/-- A name is replaced by one with the replaced spelling, or by one that is not known.

**Proof sketch.** The spelling of the name is replaced and looked up in the other interner. If one
of the two steps finds nothing, the name is moved behind all known names. -/
lemma translate_cases (J J' : Interner) (f : String → String) (name : Name) :
    (∃ s, J.spelling name = .ok s ∧ J'.spelling (translate J J' f name) = .ok (f s)) ∨
      translate J J' f name = ⟨name.index + J'.size⟩ := by
  unfold translate
  cases hfind : (J.spelling name).toOption.bind fun s => J'.find? (f s) with
  | none => exact Or.inr rfl
  | some name' =>
    obtain ⟨s, hs, hname'⟩ := Option.bind_eq_some_iff.1 hfind
    refine Or.inl ⟨s, ?_, find?_eq_some_iff.1 hname'⟩
    cases hspelling : J.spelling name with
    | ok s' =>
      rw [hspelling] at hs
      rw [Option.some.inj hs]
    | error fault =>
      rw [hspelling] at hs
      cases hs

/-- A name behind all known ones is not known. -/
lemma not_knows_of_size_le {name : Name} {s : String} (h : J'.size ≤ name.index) :
    J'.spelling name ≠ .ok s := fun hs =>
  Nat.not_lt.2 h (List.getElem?_eq_some_iff.1 (spelling_eq_ok_iff.1 hs)).1

/-- **Different names are replaced by different names**, if different spellings are.

**Proof sketch.** By `translate_cases` for both names. Names with the same replaced spelling have
the same spelling; a known name is not an unknown one; and the unknown names are moved by the same
distance. -/
theorem translate_injective (hf : f.Injective) : (translate J J' f).Injective := by
  intro a b heq
  rcases translate_cases J J' f a with ⟨s, hs, hs'⟩ | ha <;>
    rcases translate_cases J J' f b with ⟨r, hr, hr'⟩ | hb
  · rw [heq, hr'] at hs'
    exact eq_of_spelling_eq hs (hf (Except.ok.inj hs') ▸ hr)
  · rw [heq, hb] at hs'
    exact absurd hs' (not_knows_of_size_le (Nat.le_add_left _ _))
  · rw [← heq, ha] at hr'
    exact absurd hr' (not_knows_of_size_le (Nat.le_add_left _ _))
  · rw [ha, hb] at heq
    obtain ⟨i⟩ := a
    obtain ⟨j⟩ := b
    exact congrArg Name.mk (Nat.add_right_cancel (congrArg Name.index heq))

/-- The name that replaces a name has the replaced spelling, if it is known at all. -/
lemma spelling_translate {name : Name} {s : String} (hs : J.spelling name = .ok s)
    (hknown : J'.Knows (translate J J' f name)) :
    J'.spelling (translate J J' f name) = .ok (f s) := by
  rcases translate_cases J J' f name with ⟨s', hs', hspelling⟩ | heq
  · obtain rfl : s = s' := Except.ok.inj (hs.symm.trans hs')
    exact hspelling
  · obtain ⟨r, hr⟩ := hknown
    rw [heq] at hr
    exact absurd hr (not_knows_of_size_le (Nat.le_add_left _ _))

/-- Names whose spellings stay are replaced by the names with these spellings.

**Proof sketch.** By induction on the spellings: the two names with a spelling translate into each
other (`translate_eq`), because the spelling stays. -/
lemma map_translate_eq {ss : List String} (hfix : ∀ s ∈ ss, f s = s) {names names' : List Name}
    (h : names.map J.spelling = ss.map .ok) (h' : names'.map J'.spelling = ss.map .ok) :
    names' = names.map (translate J J' f) := by
  induction ss generalizing names names' with
  | nil =>
    rw [List.map_eq_nil_iff.1 h, List.map_eq_nil_iff.1 h']
    rfl
  | cons s rest ih =>
    obtain ⟨name, names, rfl, hs, hnames⟩ := List.map_eq_cons_iff.1 h
    obtain ⟨name', names', rfl, hs', hnames'⟩ := List.map_eq_cons_iff.1 h'
    have hspelling : J'.spelling name' = .ok (f s) := by rw [hs', hfix s List.mem_cons_self]
    rw [List.map_cons, translate_eq hs hspelling,
      ih (fun r hr => hfix r (List.mem_cons_of_mem s hr)) hnames hnames']

end Interner

/-! ## The order of the globals -/

section Globals

variable {n : Nat} {t : SyntaxTree n} {I J : Interner} {E : Enumeration} {spellings : List String}
  {globals : List Name}

/-- **The globals of a bound unit** have the order in which they are given. -/
theorem covers_bind_ordered {B : Binding n} (hspelled : t.Spelled I)
    (hnodup : ("undefined" :: spellings).Nodup) (hbind : bind t I spellings E = .ok (B, J)) :
    ∃ globals, J.Extends I ∧ globals.map J.spelling = ("undefined" :: spellings).map .ok ∧
      B.Covers t globals (t.surface t.root) := by
  obtain ⟨J', globals, hJ, hglobals, hends⟩ := covers_bind hspelled spellings
  obtain ⟨rfl, hcovers⟩ := hends.of_ok hbind
  exact ⟨globals, hJ, hglobals.map_spelling_eq hnodup, hcovers⟩

end Globals

/-! ## Two bindings -/

/-- A symbol with its name replaced. -/
def Symbol.rename {ν : Type} (g : Name → Name) (data : Symbol ν) : Symbol ν :=
  { data with name := g data.name }

/-- The symbols of replaced globals are the symbols of the globals, replaced. -/
lemma globalSymbols_map {ν : Type} (g : Name → Name) (globals : List Name) :
    globalSymbols (ν := ν) (globals.map g) = (globalSymbols globals).map (.rename g) := by
  cases globals with
  | nil => rfl
  | cons name rest =>
    simp only [List.map_cons, globalSymbols, List.map_map]
    rfl

/-- What lowering asks about bindings does not depend on the names of the symbols. -/
lemma SymbolTable.model_eq_of_rename {ν : Type} [DecidableEq ν] {T T' : SymbolTable ν}
    {g : Name → Name} (hreferences : T'.references = T.references)
    (hsymbols : ∀ s, T'.symbol? s = (T.symbol? s).map (.rename g)) : T'.model = T.model := by
  have hreference : T'.reference? = T.reference? := by
    funext r
    simp only [reference?, hreferences]
  have hundefined : ∀ s, T'.isUndefined s = T.isUndefined s := fun s => by
    simp only [isUndefined, hsymbols, Option.any_map]
    rfl
  have hdeclaration : ∀ s, T'.valueDeclaration s = T.valueDeclaration s := fun s => by
    simp only [valueDeclaration, hsymbols, Option.bind_map]
    rfl
  simp only [model, hreference, funext hundefined, funext hdeclaration]

namespace SyntaxTree.Renames

variable {n : Nat} {g : Name → Name} {t t' : SyntaxTree n} {globals : List Name} {B B' : Binding n}

/-- The two units have the same symbols, up to their names. -/
lemma symbol?_eq (h : Renames g t t') (hB : B.Covers t globals (t.surface t.root))
    (hB' : B'.Covers t' (globals.map g) (t'.surface t'.root)) (s : SymbolId) :
    B'.symbols.symbol? s = (B.symbols.symbol? s).map (.rename g) := by
  have hlist : B'.symbols.symbols.toList = B.symbols.symbols.toList.map (.rename g) := by
    rw [hB'.symbols, hB.symbols, h.surface, h.root, h.flatMap_scopeDeclarations, globalSymbols_map,
      List.map_append, List.map_map, List.map_map]
    rfl
  simp only [SymbolTable.symbol?]
  rw [← Array.getElem?_toList, ← Array.getElem?_toList, hlist, List.getElem?_map]

/-- **What lowering asks about the bindings has the same answers**: references are bound to the same
symbols, and symbols are declared at the same nodes. -/
theorem model_eq (h : Renames g t t') (hg : g.Injective)
    (hB : B.Covers t globals (t.surface t.root))
    (hB' : B'.Covers t' (globals.map g) (t'.surface t'.root)) :
    B'.symbols.model = B.symbols.model := by
  refine SymbolTable.model_eq_of_rename ?_ (h.symbol?_eq hB hB')
  refine OrderedMap.ext ?_
  rw [hB'.references, hB.references, h.surface, h.root, h.boundReference? hg]

/-- Binding reports something about the one unit if it does about the other. -/
lemma errors_eq_nil_iff (h : Renames g t t') (hg : g.Injective)
    (hB : B.Covers t globals (t.surface t.root))
    (hB' : B'.Covers t' (globals.map g) (t'.surface t'.root)) : B'.errors = [] ↔ B.errors = [] := by
  have hreports : (t'.surface t'.root).flatMap (t'.reports (globals.map g)) = [] ↔
      (t.surface t.root).flatMap (t.reports globals) = [] := by
    rw [List.flatMap_eq_nil_iff, List.flatMap_eq_nil_iff, h.surface, h.root]
    exact forall₂_congr fun i _ => h.reports_eq_nil_iff hg
  rwa [← hB'.errors, ← hB.errors, List.map_eq_nil_iff, List.map_eq_nil_iff] at hreports

/-- Nodes can declare what they are asked to if they could. -/
lemma not_misdeclares (h : Renames g t t') (hB : B.Covers t globals (t.surface t.root))
    (fault : Fault) : ¬ t'.Misdeclares fault := by
  rintro ⟨a, ha, d, hd, hkind, _⟩
  rw [h.surface, h.root] at ha
  rw [h.scopeDeclarations] at hd
  obtain ⟨d₀, hd₀, rfl⟩ := List.mem_map.1 hd
  rw [h.kind] at hkind
  exact Bool.false_ne_true (hkind.symm.trans (hB.declarations a ha d₀ hd₀))

/-- A replaced global has the same symbol. -/
lemma global?_eq (hg : g.Injective) (hB : B.Covers t globals (t.surface t.root))
    (hB' : B'.Covers t' (globals.map g) (t'.surface t'.root)) (name : Name) :
    B'.symbols.global? (g name) = B.symbols.global? name := by
  simp only [SymbolTable.global?]
  rw [hB'.globalTable, hB.globalTable, OrderedMap.get?_ofFirst_zipIdx SymbolId.mk,
    OrderedMap.get?_ofFirst_zipIdx SymbolId.mk, find?_zipIdx_map hg, Option.map_map]
  rfl

end SyntaxTree.Renames

end Predeclare
