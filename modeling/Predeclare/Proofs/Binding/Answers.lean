import Predeclare.Proofs.Binding.Walk

set_option relaxedAutoImplicit false
set_option autoImplicit false

/-!
# What the binding of a unit answers

The binding of a unit is made of what the surface of its tree contributes. From this its answers can
be read off: which symbol a reference is bound to, and what a symbol stands for. A symbol is that of
a global or that of a declaration, and only the first of all symbols is the undefined value.

## Main results

* `Binding.Covers.reference?_eq_some_iff` — the symbols of references.
* `Binding.Covers.exists_symbol_of_lexicalBinding` — the symbol of a name declared around a node.
* `Binding.Covers.reference?_cases` — what a reference is bound to.
* `Binding.Covers.valueDeclaration_of_reference` — the declaration of the symbol of a reference.
* `Binding.Covers.symbol?_cases` — what a symbol stands for.
* `Binding.Covers.isUndefined_iff` — which symbol is the undefined value.
-/

namespace Predeclare

/-- The symbols of globals carry their names and have no declaration; the first is special. -/
lemma getElem?_globalSymbols {ν : Type} (globals : List Name) (k : Nat) :
    (globalSymbols (ν := ν) globals)[k]? =
      globals[k]?.map fun g => ⟨g, if k = 0 then .undefined else .global, none⟩ := by
  cases globals with
  | nil => rfl
  | cons g rest =>
    cases k with
    | zero => rfl
    | succ k => simp [globalSymbols]

/-- There is one symbol for each global. -/
lemma length_globalSymbols {ν : Type} (globals : List Name) :
    (globalSymbols (ν := ν) globals).length = globals.length := by
  cases globals with
  | nil => rfl
  | cons g rest => simp [globalSymbols]

/-- The declaration of a known symbol. -/
lemma SymbolTable.valueDeclaration_of_symbol? {ν : Type} {T : SymbolTable ν} {s : SymbolId}
    {data : Symbol ν} (h : T.symbol? s = some data) : T.valueDeclaration s = data.declaration := by
  simp only [valueDeclaration]
  rw [h]
  rfl

namespace Binding.Covers

variable {n : Nat} {t : SyntaxTree n} {globals : List Name} {B : Binding n}

/-- **The symbols of references.** A reference is recorded when it is an identifier on the surface
whose name means something.

**Proof sketch.** The references of the table are what the nodes of the surface contribute, one by
one, and a node contributes one if it is an identifier with a definition visible at it. -/
theorem reference?_eq_some_iff (h : B.Covers t globals (t.surface t.root)) {r : Fin n}
    {s : SymbolId} :
    B.symbols.reference? r = some s ↔
      r ∈ t.surface t.root ∧ t.kind r = .identifier ∧
        ∃ name d, t.text r = some name ∧ t.visibleDefinition? globals r name = some d ∧
          d.symbol = s := by
  simp only [SymbolTable.reference?]
  rw [OrderedMap.get?_eq_some_iff, h.references, List.mem_filterMap]
  constructor
  · rintro ⟨j, hj, hbound⟩
    simp only [SyntaxTree.boundReference?] at hbound
    split at hbound
    · rename_i hkind
      obtain ⟨name, hname, hmap⟩ := Option.bind_eq_some_iff.1 hbound
      obtain ⟨d, hd, heq⟩ := Option.map_eq_some_iff.1 hmap
      injection heq with hjr hs
      subst hjr
      exact ⟨hj, hkind, name, d, hname, hd, hs⟩
    · cases hbound
  · rintro ⟨hr, hkind, name, d, hname, hd, rfl⟩
    refine ⟨r, hr, ?_⟩
    simp only [SyntaxTree.boundReference?]
    rw [if_pos hkind, hname, Option.bind_some, hd]
    rfl

/-- What has a symbol is not below an identifier. -/
lemma reference?_eq_none_of_belowIdentifier (h : B.Covers t globals (t.surface t.root)) {r : Fin n}
    (hr : t.BelowIdentifier r) : B.symbols.reference? r = none := by
  rw [Option.eq_none_iff_forall_ne_some]
  intro s hs
  exact (SyntaxTree.mem_surface_root_iff.1 (h.reference?_eq_some_iff.1 hs).1).2 hr

/-- A name that means nothing at an identifier gives it no symbol. -/
lemma reference?_eq_none_of_no_definition (h : B.Covers t globals (t.surface t.root)) {r : Fin n}
    {name : Name} (hname : t.text r = some name)
    (hnone : t.visibleDefinition? globals r name = none) : B.symbols.reference? r = none := by
  rw [Option.eq_none_iff_forall_ne_some]
  intro s hs
  obtain ⟨_, _, name', d, hname', hd, _⟩ := h.reference?_eq_some_iff.1 hs
  obtain rfl : name = name' := Option.some.inj (hname.symm.trans hname')
  rw [hnone] at hd
  cases hd

/-- A name that means nothing at an identifier is reported.

**Proof sketch.** The report without its suggestions is one that the identifier contributes, and
only reports of undefined names look like this. -/
lemma exists_undefinedName_mem_errors (h : B.Covers t globals (t.surface t.root)) {r : Fin n}
    (hr : r ∈ t.surface t.root) (hkind : t.kind r = .identifier) {name : Name}
    (hname : t.text r = some name) (hnone : t.visibleDefinition? globals r name = none) :
    ∃ suggestions, .undefinedName name (t.span r) suggestions ∈ B.errors := by
  have hreport : .undefinedName name (t.span r) [] ∈ B.errors.map ResolutionError.bare := by
    rw [h.errors]
    refine List.mem_flatMap.2 ⟨r, hr, List.mem_append_right _ ?_⟩
    simp [SyntaxTree.undefinedReport?, hkind, hname, hnone]
  obtain ⟨e, he, hbare⟩ := List.mem_map.1 hreport
  cases e with
  | undefinedName name' site suggestions =>
    injection hbare with hname hsite _
    subst hname hsite
    exact ⟨suggestions, he⟩
  | duplicateDefinition name' first second => cases hbare

/-- The symbols that the scope of a node declares are numbered from its first symbol.

**Proof sketch.** The table lists the globals, then the declarations of the surface in preorder. In
front of those of the node stand the globals and the declarations of the nodes before it, and the
first symbol of the node counts exactly these. -/
lemma symbol?_of_mem_zipIdx (h : B.Covers t globals (t.surface t.root)) {a : Fin n}
    (ha : a ∈ t.surface t.root) (hscope : t.introducesScope a = true) {d : Declaration n} {m : Nat}
    (hd : (d, m) ∈ (t.scopeDeclarations a).zipIdx (t.firstSymbol globals a)) :
    B.symbols.symbol? ⟨m⟩ = some d.symbol := by
  obtain ⟨done, rest, hsplit⟩ := List.append_of_mem ha
  obtain ⟨hle, hget⟩ := List.mk_mem_zipIdx_iff_le_and_getElem?_sub.1 hd
  obtain ⟨k, rfl⟩ := Nat.exists_eq_add_of_le hle
  rw [Nat.add_sub_cancel_left] at hget
  have hfirst : t.firstSymbol globals a =
      (globalSymbols (ν := Fin n) globals ++
        (done.flatMap t.scopeDeclarations).map Declaration.symbol).length := by
    simp only [SyntaxTree.firstSymbol]
    rw [(SyntaxTree.take_scopeOrder hsplit hscope).2,
      SyntaxTree.flatMap_scopeDeclarations_filter, List.length_append, length_globalSymbols,
      List.length_map]
  have hsymbols : B.symbols.symbols.toList =
      (globalSymbols globals ++ (done.flatMap t.scopeDeclarations).map Declaration.symbol) ++
        ((t.scopeDeclarations a).map Declaration.symbol ++
          (rest.flatMap t.scopeDeclarations).map Declaration.symbol) := by
    rw [h.symbols, hsplit, List.flatMap_append, List.flatMap_cons, List.map_append, List.map_append,
      List.append_assoc]
  have hk : k < (t.scopeDeclarations a).length := (List.getElem?_eq_some_iff.1 hget).1
  simp only [SymbolTable.symbol?]
  rw [← Array.getElem?_toList, hsymbols, hfirst, List.getElem?_append_right (Nat.le_add_right _ _),
    Nat.add_sub_cancel_left, List.getElem?_append_left (by simpa using hk), List.getElem?_map, hget]
  rfl

/-- **The symbol of a name declared around a node** is the one that its scope got for the first
declaration of the name. -/
theorem exists_symbol_of_lexicalBinding (h : B.Covers t globals (t.surface t.root)) {r : Fin n}
    (hr : r ∈ t.surface t.root) {name : Name} {a : Fin n} {d : Declaration n}
    (hlex : t.lexicalBinding? r name = some (a, d)) :
    ∃ s, t.visibleDefinition? globals r name = some ⟨s, t.span d.node⟩ ∧
      (t.scopeDefinitions globals a).get? name = some ⟨s, t.span d.node⟩ ∧
      B.symbols.symbol? s = some d.symbol := by
  obtain ⟨haround, hfirst, -, -⟩ := SyntaxTree.mem_scopeDeclarations_of_lexicalBinding hlex
  obtain ⟨habove, hscope⟩ := SyntaxTree.mem_scopesAround_iff.1 haround
  obtain ⟨k, hmem, hget⟩ := SyntaxTree.get?_scopeDefinitions_of_firstDeclaration globals hfirst
  refine ⟨_, ?_, hget, ?_⟩
  · rw [SyntaxTree.visibleDefinition?_of_lexicalBinding hlex, hget]
  · exact h.symbol?_of_mem_zipIdx (SyntaxTree.above_mem_surface hr habove).1 hscope hmem

/-- The symbol of a global has the place of the global, and no declaration. -/
lemma symbol?_of_getElem?_globals (h : B.Covers t globals (t.surface t.root)) {g : Name} {k : Nat}
    (hk : globals[k]? = some g) :
    B.symbols.symbol? ⟨k⟩ = some ⟨g, if k = 0 then .undefined else .global, none⟩ := by
  have hlt : k < (globalSymbols (ν := Fin n) globals).length := by
    rw [length_globalSymbols]
    exact (List.getElem?_eq_some_iff.1 hk).1
  simp only [SymbolTable.symbol?]
  rw [← Array.getElem?_toList, h.symbols, List.getElem?_append_left hlt, getElem?_globalSymbols,
    hk]
  rfl

/-- The global symbol of a name has the place of the name among the globals. -/
lemma getElem?_of_global? (h : B.Covers t globals (t.surface t.root)) {g : Name} {s : SymbolId}
    (hs : B.symbols.global? g = some s) : globals[s.index]? = some g := by
  simp only [SymbolTable.global?] at hs
  rw [h.globalTable, OrderedMap.get?_ofFirst_zipIdx SymbolId.mk] at hs
  obtain ⟨⟨g', k⟩, hfind, rfl⟩ := Option.map_eq_some_iff.1 hs
  obtain rfl : g' = g := by simpa using List.find?_some hfind
  exact List.mk_mem_zipIdx_iff_getElem?.1 (List.mem_of_find?_eq_some hfind)

/-- Every global has a global symbol. -/
lemma exists_global? (h : B.Covers t globals (t.surface t.root)) {g : Name} (hg : g ∈ globals) :
    ∃ s, B.symbols.global? g = some s := by
  rw [← Option.ne_none_iff_exists', SymbolTable.global?, h.globalTable, Ne,
    OrderedMap.get?_eq_none_iff, OrderedMap.mem_keys_ofFirst_zipIdx SymbolId.mk]
  exact not_not.2 hg

/-- A global that no scope around a node declares means its global symbol there.

**Proof sketch.** The scopes and the table of globals are both filled from the numbered list of
globals, where the first entry with the name decides. -/
lemma exists_symbol_of_global (h : B.Covers t globals (t.surface t.root)) {r : Fin n} {name : Name}
    (hlex : t.lexicalBinding? r name = none) (hname : name ∈ globals) :
    ∃ s kind, t.visibleDefinition? globals r name = some ⟨s, t.file, .origin⟩ ∧
      B.symbols.global? name = some s ∧ B.symbols.symbol? s = some ⟨name, kind, none⟩ := by
  obtain ⟨⟨g, k⟩, hfind⟩ : ∃ e, globals.zipIdx.find? (·.1 = name) = some e := by
    rw [← Option.isSome_iff_exists, List.find?_isSome]
    obtain ⟨k, hk, rfl⟩ := List.getElem_of_mem hname
    exact ⟨(globals[k], k), List.mk_mem_zipIdx_iff_getElem?.2 (List.getElem?_eq_getElem hk),
      by simp⟩
  obtain rfl : g = name := by simpa using List.find?_some hfind
  have hk := List.mk_mem_zipIdx_iff_getElem?.1 (List.mem_of_find?_eq_some hfind)
  refine ⟨⟨k⟩, if k = 0 then .undefined else .global, ?_, ?_, ?_⟩
  · rw [SyntaxTree.visibleDefinition?_of_no_lexicalBinding hlex]
    simp only [SyntaxTree.globalDefinitions]
    rw [OrderedMap.get?_ofFirst_zipIdx fun k => (⟨⟨k⟩, t.file, .origin⟩ : Definition), hfind]
    rfl
  · simp only [SymbolTable.global?]
    rw [h.globalTable, OrderedMap.get?_ofFirst_zipIdx SymbolId.mk, hfind]
    rfl
  · exact h.symbol?_of_getElem?_globals hk

/-- A name that is neither declared around a node nor a global means nothing there. -/
lemma visibleDefinition?_eq_none {r : Fin n} {name : Name}
    (hlex : t.lexicalBinding? r name = none) (hname : name ∉ globals) :
    t.visibleDefinition? globals r name = none := by
  rw [SyntaxTree.visibleDefinition?_of_no_lexicalBinding hlex, OrderedMap.get?_eq_none_iff]
  exact fun hmem => hname (SyntaxTree.mem_keys_globalDefinitions.1 hmem)

/-- **What a reference is bound to**: what its name means by the lexical rule or, if it means
nothing by the rule, the global of that name.

**Proof sketch.** The definition visible at the reference is that of the innermost scope around it
that declares the name, and if there is none that of the global. -/
theorem reference?_cases (h : B.Covers t globals (t.surface t.root)) {r : Fin n} {s : SymbolId}
    (hs : B.symbols.reference? r = some s) :
    r ∈ t.surface t.root ∧ ∃ name, t.text r = some name ∧
      ((t.lexicalBinding? r name = none ∧ ∃ kind, B.symbols.symbol? s = some ⟨name, kind, none⟩) ∨
        ∃ a d, t.lexicalBinding? r name = some (a, d) ∧ B.symbols.symbol? s = some d.symbol ∧
          (t.scopeDefinitions globals a).get? name = some ⟨s, t.span d.node⟩) := by
  obtain ⟨hr, _, name, definition, hname, hvisible, rfl⟩ := h.reference?_eq_some_iff.1 hs
  refine ⟨hr, name, hname, ?_⟩
  cases hlex : t.lexicalBinding? r name with
  | some binding =>
    obtain ⟨a, d⟩ := binding
    obtain ⟨s, hvisible', hget, hsymbol⟩ := h.exists_symbol_of_lexicalBinding hr hlex
    obtain rfl := Option.some.inj (hvisible.symm.trans hvisible')
    exact Or.inr ⟨a, d, rfl, hsymbol, hget⟩
  | none =>
    by_cases hglobal : name ∈ globals
    · obtain ⟨s, kind, hvisible', _, hsymbol⟩ := h.exists_symbol_of_global hlex hglobal
      obtain rfl := Option.some.inj (hvisible.symm.trans hvisible')
      exact Or.inl ⟨rfl, kind, hsymbol⟩
    · rw [visibleDefinition?_eq_none hlex hglobal] at hvisible
      cases hvisible

/-- The symbol that a reference is bound to has the name of the reference. -/
lemma exists_symbol_of_reference (h : B.Covers t globals (t.surface t.root)) {r : Fin n}
    {s : SymbolId} {name : Name} (hs : B.symbols.reference? r = some s)
    (hname : t.text r = some name) :
    ∃ data, B.symbols.symbol? s = some data ∧ data.name = name := by
  obtain ⟨_, name', hname', hcases⟩ := h.reference?_cases hs
  obtain rfl := Option.some.inj (hname.symm.trans hname')
  rcases hcases with ⟨_, kind, hsymbol⟩ | ⟨a, d, hlex, hsymbol, _⟩
  · exact ⟨_, hsymbol, rfl⟩
  · exact ⟨_, hsymbol, (SyntaxTree.mem_scopeDeclarations_of_lexicalBinding hlex).2.2.2⟩

/-- The symbol of a reference has the declaration that the name of the reference means. -/
lemma valueDeclaration_of_reference (h : B.Covers t globals (t.surface t.root)) {r : Fin n}
    {s : SymbolId} {name : Name} (hs : B.symbols.reference? r = some s)
    (hname : t.text r = some name) :
    B.symbols.valueDeclaration s = (t.lexicalBinding? r name).map fun b => b.2.node := by
  obtain ⟨_, name', hname', hcases⟩ := h.reference?_cases hs
  obtain rfl := Option.some.inj (hname.symm.trans hname')
  rcases hcases with ⟨hlex, _, hsymbol⟩ | ⟨a, d, hlex, hsymbol, _⟩
  · rw [hlex]
    exact SymbolTable.valueDeclaration_of_symbol? hsymbol
  · rw [hlex]
    exact SymbolTable.valueDeclaration_of_symbol? hsymbol

/-- **What a symbol stands for**: a global, or a declaration of a scope of the unit.

**Proof sketch.** `Covers.symbols` lists the symbols: those of the globals first, then those of the
declarations in the order of the surface. The number falls into one of the two parts. -/
theorem symbol?_cases (h : B.Covers t globals (t.surface t.root)) {s : SymbolId}
    {data : Symbol (Fin n)} (hs : B.symbols.symbol? s = some data) :
    (∃ g ∈ globals, data = ⟨g, if s.index = 0 then .undefined else .global, none⟩) ∨
      ∃ a ∈ t.surface t.root, ∃ d ∈ t.scopeDeclarations a, data = d.symbol := by
  simp only [SymbolTable.symbol?] at hs
  rw [← Array.getElem?_toList, h.symbols, List.getElem?_append] at hs
  split at hs
  · rw [getElem?_globalSymbols] at hs
    obtain ⟨g, hg, rfl⟩ := Option.map_eq_some_iff.1 hs
    exact Or.inl ⟨g, List.mem_of_getElem? hg, rfl⟩
  · rw [List.getElem?_map] at hs
    obtain ⟨d, hd, rfl⟩ := Option.map_eq_some_iff.1 hs
    obtain ⟨a, ha, hmem⟩ := List.mem_flatMap.1 (List.mem_of_getElem? hd)
    exact Or.inr ⟨a, ha, d, hmem, rfl⟩

/-- **The undefined value** is the first symbol and no other.

**Proof sketch.** A symbol of the kind of the undefined value is no declaration, since these have
other kinds. So it is a global, and among these only the first one has the kind. -/
theorem isUndefined_iff (h : B.Covers t globals (t.surface t.root)) {s : SymbolId} :
    B.symbols.isUndefined s = true ↔ s = SymbolTable.undefinedSymbol := by
  simp only [SymbolTable.isUndefined]
  rw [Bool.or_eq_true, decide_eq_true_iff]
  refine ⟨?_, Or.inl⟩
  rintro (hs | hany)
  · exact hs
  · obtain ⟨data, hdata, hkind⟩ : ∃ data, B.symbols.symbol? s = some data ∧
        data.kind = .undefined := by
      simpa using (Option.any_eq_true _ _).1 hany
    rcases h.symbol?_cases hdata with ⟨g, _, rfl⟩ | ⟨a, _, d, hd, rfl⟩
    · have hzero : s.index = 0 := by
        by_contra hne
        simp [hne] at hkind
      cases s
      exact congrArg SymbolId.mk hzero
    · exact absurd hkind (SyntaxTree.proper_of_mem_scopeDeclarations hd).kind

end Binding.Covers

end Predeclare
