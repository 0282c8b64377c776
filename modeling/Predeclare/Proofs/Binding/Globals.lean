import Predeclare.Proofs.Binding.Covers

set_option relaxedAutoImplicit false
set_option autoImplicit false

/-!
# The globals of a unit

Before a tree is walked, the undefined value and the names of the globals are made known. A name
that is there already is passed over, so each global ends up with one symbol and one definition in
the global scope, in the order in which the names first came up. What the binding looks like then is
what it looks like before any node has been looked at.

## Main definitions

* `GlobalNames` — the names of the globals, by their spellings.
* `Binding.DeclaresGlobals` — what a binding looks like after some globals have been made known.

## Main results

* `GlobalNames.map_spelling_eq` — globals that are given once each have the order they are given in.
* `Binding.DeclaresGlobals.step` — one more global.
* `Binding.declaresGlobals_foldlM` — the globals are all made known, without a fault.
-/

namespace Predeclare

/-- The names of the undefined value and of the globals with the given spellings, each once and in
their order, that of the undefined value first. -/
structure GlobalNames (J : Interner) (spellings : List String) (globals : List Name) : Prop where
  nodup : globals.Nodup
  head : ∃ undefinedName rest, globals = undefinedName :: rest ∧
    J.spelling undefinedName = .ok "undefined"
  ordered : (globals.map J.spelling).Sublist (("undefined" :: spellings).map .ok)
  named : ∀ s ∈ "undefined" :: spellings, ∃ g ∈ globals, J.spelling g = .ok s

namespace GlobalNames

variable {J : Interner} {spellings : List String} {globals : List Name}

/-- Names with the given spellings from which repetitions have been taken out. -/
lemma of_names {names : List Name} (h : names.map J.spelling = ("undefined" :: spellings).map .ok)
    (hnodup : globals.Nodup) (hhead : globals.head? = names.head?)
    (hordered : globals.Sublist names) (hmem : ∀ g ∈ names, g ∈ globals) :
    GlobalNames J spellings globals where
  nodup := hnodup
  head := by
    obtain ⟨undefinedName, rest, rfl, hspelling, _⟩ := List.map_eq_cons_iff.1 h
    obtain ⟨others, hothers⟩ := List.head?_eq_some_iff.1 hhead
    exact ⟨undefinedName, others, hothers, hspelling⟩
  ordered := h ▸ hordered.map J.spelling
  named s hs := by
    have hspelling : Except.ok s ∈ names.map J.spelling := h ▸ List.mem_map_of_mem hs
    obtain ⟨g, hg, hspelling⟩ := List.mem_map.1 hspelling
    exact ⟨g, hmem g hg, hspelling⟩

/-- Names with different spellings, of which the first is that of the undefined value. -/
lemma of_map_spelling (hnodup : ("undefined" :: spellings).Nodup)
    (h : globals.map J.spelling = ("undefined" :: spellings).map .ok) :
    GlobalNames J spellings globals := by
  refine .of_names h (List.Nodup.of_map J.spelling ?_) rfl (List.Sublist.refl _) fun _ hg => hg
  rw [h]
  exact hnodup.map fun _ _ => Except.ok.inj

/-- A global has one of the given spellings. -/
lemma spelled (h : GlobalNames J spellings globals) :
    ∀ g ∈ globals, ∃ s ∈ "undefined" :: spellings, J.spelling g = .ok s := by
  intro g hg
  obtain ⟨s, hs, heq⟩ := List.mem_map.1 (h.ordered.subset (List.mem_map_of_mem hg))
  exact ⟨s, hs, heq.symm⟩

/-- **Globals that are given once each** have the order in which they are given. -/
theorem map_spelling_eq (h : GlobalNames J spellings globals)
    (hnodup : ("undefined" :: spellings).Nodup) :
    globals.map J.spelling = ("undefined" :: spellings).map .ok := by
  refine h.ordered.eq_of_length_le (List.subperm_of_subset
    (hnodup.map fun _ _ => Except.ok.inj) fun spelling hspelling => ?_).length_le
  obtain ⟨s, hs, rfl⟩ := List.mem_map.1 hspelling
  obtain ⟨g, hg, heq⟩ := h.named s hs
  exact List.mem_map.2 ⟨g, hg, heq⟩

/-- Globals are known names. -/
lemma knows (h : GlobalNames J spellings globals) : ∀ g ∈ globals, J.Knows g := by
  intro g hg
  obtain ⟨s, _, hs⟩ := h.spelled g hg
  exact ⟨s, hs⟩

/-- Whether a name is a global is a question about its spelling. -/
lemma mem_iff (h : GlobalNames J spellings globals) {name : Name} {s : String}
    (hs : J.spelling name = .ok s) : name ∈ globals ↔ s ∈ "undefined" :: spellings := by
  constructor
  · intro hmem
    obtain ⟨s', hs', hspelling⟩ := h.spelled name hmem
    rw [hs] at hspelling
    obtain rfl : s = s' := Except.ok.inj hspelling
    exact hs'
  · intro hmem
    obtain ⟨g, hg, hspelling⟩ := h.named s hmem
    exact Interner.eq_of_spelling_eq hs hspelling ▸ hg

/-- A known name is a global if it has the spelling of one. -/
lemma mem_iff_exists (h : GlobalNames J spellings globals) {name : Name} (hname : J.Knows name) :
    name ∈ globals ↔ ∃ s ∈ "undefined" :: spellings, J.spelling name = .ok s := by
  obtain ⟨s, hs⟩ := hname
  rw [h.mem_iff hs]
  constructor
  · exact fun hmem => ⟨s, hmem, hs⟩
  · rintro ⟨s', hmem, hs'⟩
    rw [hs] at hs'
    exact Except.ok.inj hs' ▸ hmem

end GlobalNames

namespace Binding

variable {n : Nat} {t : SyntaxTree n} {J : Interner} {globals : List Name} {B : Binding n}

/-- A global with a new name is added behind all others.

**Proof sketch.** The name is in no table, so that a symbol is made for it and the global scope
takes it. Each part of the binding gets one entry at its end, as each part of what is promised
does. -/
lemma Covers.declareGlobal_of_notMem (h : Covers t globals [] B) (hne : globals ≠ []) {g : Name}
    (hg : g ∉ globals) :
    ∃ B', B.declareGlobal t.file g = .ok B' ∧ Covers t (globals ++ [g]) [] B' := by
  have hkey : (t.globalDefinitions globals).get? g = none := by
    rw [OrderedMap.get?_eq_none_iff]
    exact fun hk => hg (SyntaxTree.mem_keys_globalDefinitions.1 hk)
  have hglobal : B.symbols.global? g = none := by
    rw [SymbolTable.global?, h.globalTable, OrderedMap.get?_eq_none_iff]
    exact fun hk => hg ((OrderedMap.mem_keys_ofFirst_zipIdx SymbolId.mk).1 hk)
  have hlookup := h.lookup_globalScope g
  rw [hkey] at hlookup
  have hsize : B.symbols.symbols.size = globals.length := by simpa using h.size_symbols
  obtain ⟨B', hdefine, hsymbols, hscopes, herrors⟩ :=
    define_spec (B := { B with symbols := (B.symbols.declareGlobal g).2 }) h.scope?_globalScope
      g (B.symbols.declareGlobal g).1 ⟨t.file, .origin⟩
  have hnext : (B.symbols.declareGlobal g).1 = ⟨globals.length⟩ := by
    simp [SymbolTable.declareGlobal, hglobal, hsize]
  refine ⟨B', ?_, ?_⟩
  · -- the loop looks the name up before it declares it, and finds nothing
    simp only [declareGlobal]
    rw [hlookup]
    exact hdefine
  · exact {
      symbols := by
        obtain ⟨u, rest, rfl⟩ := List.exists_cons_of_ne_nil hne
        rw [hsymbols]
        simp [SymbolTable.declareGlobal, hglobal, h.symbols, globalSymbols]
      references := by
        rw [hsymbols]
        simp [SymbolTable.declareGlobal, hglobal, h.references]
      globalTable := by
        have hnew : B.symbols.globals.get? g = none := hglobal
        rw [hsymbols, List.zipIdx_append, List.map_append, List.zipIdx_singleton,
          List.map_singleton, OrderedMap.ofFirst_concat, ← h.globalTable,
          OrderedMap.insertNew_of_get?_eq_none hnew]
        simp [SymbolTable.declareGlobal, hglobal, hsize]
      scopes := by
        rw [hscopes, h.scopes, hnext]
        simp [SyntaxTree.globalScopeData, ScopeTree.globalScope, SyntaxTree.globalDefinitions,
          List.zipIdx_append, OrderedMap.ofFirst_concat]
      errors := by
        have hnone : (t.globalScopeData globals).definitions.get? g = none := hkey
        rw [herrors, hnone]
        simpa using h.errors
      declarations := by simp }

/-- A global with a known name is there already. -/
lemma Covers.declareGlobal_of_mem (h : Covers t globals [] B) {g : Name} (hg : g ∈ globals) :
    B.declareGlobal t.file g = .ok B := by
  have hlookup := h.lookup_globalScope g
  simp only [declareGlobal]
  cases hget : (t.globalDefinitions globals).get? g with
  | some d =>
    rw [hget] at hlookup
    rw [hlookup]
  | none =>
    rw [OrderedMap.get?_eq_none_iff] at hget
    exact absurd (SyntaxTree.mem_keys_globalDefinitions.2 hg) hget

/-- The undefined value is made known first.

**Proof sketch.** The fresh table has the symbol of the undefined value, and the fresh global scope
is empty, so that it takes the name. -/
lemma covers_new (undefinedName : Name) :
    ∃ B, (Binding.new undefinedName).declareGlobal t.file undefinedName = .ok B ∧
      Covers t [undefinedName] [] B := by
  have hscope : (Binding.new (n := n) undefinedName).scopes.scope? ScopeTree.globalScope =
      some ⟨none, .global, none, .empty⟩ := rfl
  have hlookup : (Binding.new (n := n) undefinedName).scopes.lookup ScopeTree.globalScope
      undefinedName = none := by
    simp only [ScopeTree.lookup, ScopeTree.definitions]
    rw [ScopeTree.chain_eq hscope]
    simp [hscope]
  have hglobal : (SymbolTable.new (ν := Fin n) undefinedName).global? undefinedName =
      some SymbolTable.undefinedSymbol := by
    rw [SymbolTable.global?, SymbolTable.new, OrderedMap.get?_insert, if_pos rfl]
  obtain ⟨B', hdefine, hsymbols, hscopes, herrors⟩ :=
    define_spec (B := Binding.new undefinedName) hscope undefinedName
      SymbolTable.undefinedSymbol ⟨t.file, .origin⟩
  refine ⟨B', ?_, ?_⟩
  · simp only [declareGlobal]
    rw [hlookup]
    simp only [SymbolTable.declareGlobal, Binding.new, hglobal]
    exact hdefine
  · exact {
      symbols := by
        rw [hsymbols]
        rfl
      references := by
        rw [hsymbols]
        rfl
      globalTable := by
        rw [hsymbols]
        rfl
      scopes := by
        rw [hscopes]
        rfl
      errors := by
        rw [herrors]
        rfl
      declarations := by simp }

/-- The names `names` have been made known after the undefined value; `globals` are the names of the
globals that there are now. -/
structure DeclaresGlobals (t : SyntaxTree n) (undefinedName : Name) (names globals : List Name)
    (B : Binding n) : Prop where
  covers : Covers t globals [] B
  nodup : globals.Nodup
  head : globals.head? = some undefinedName
  ordered : globals.Sublist (undefinedName :: names)
  mem : ∀ g, g ∈ undefinedName :: names → g ∈ globals

/-- One more global is made known, or is known already.

**Proof sketch.** A name that is among the globals changes nothing, and a new one comes behind all
others. -/
lemma DeclaresGlobals.step {undefinedName : Name} {names : List Name}
    (h : DeclaresGlobals t undefinedName names globals B) (g : Name) :
    ∃ globals' B', B.declareGlobal t.file g = .ok B' ∧
      DeclaresGlobals t undefinedName (names ++ [g]) globals' B' := by
  by_cases hg : g ∈ globals
  · refine ⟨globals, B, h.covers.declareGlobal_of_mem hg, h.covers, h.nodup, h.head,
      h.ordered.trans (List.sublist_append_left _ [g]), fun k hk => ?_⟩
    rw [← List.cons_append, List.mem_append, List.mem_singleton] at hk
    rcases hk with hk | rfl
    · exact h.mem k hk
    · exact hg
  · have hne : globals ≠ [] := by
      rintro rfl
      cases h.head
    obtain ⟨B', hok, hB'⟩ := h.covers.declareGlobal_of_notMem hne hg
    refine ⟨globals ++ [g], B', hok, hB', ?_, ?_, h.ordered.append (List.Sublist.refl [g]),
      fun k hk => ?_⟩
    · rw [List.nodup_append]
      refine ⟨h.nodup, by simp, fun a ha b hb => ?_⟩
      rw [List.mem_singleton.1 hb]
      exact fun e => hg (e ▸ ha)
    · rw [List.head?_append, h.head]
      rfl
    · rw [← List.cons_append, List.mem_append] at hk
      exact List.mem_append.2 (hk.imp_left (h.mem k))

/-- The globals that are known after names with the given spellings have been made known. -/
lemma DeclaresGlobals.globalNames {undefinedName : Name} {names : List Name}
    (h : DeclaresGlobals t undefinedName names globals B) {spellings : List String}
    (hnames : (undefinedName :: names).map J.spelling = ("undefined" :: spellings).map .ok) :
    GlobalNames J spellings globals :=
  .of_names hnames h.nodup h.head h.ordered h.mem

/-- **The globals** are made known one after the other, each once, without a fault.

**Proof sketch.** `covers_new`, then one `DeclaresGlobals.step` for each name. -/
theorem declaresGlobals_foldlM (undefinedName : Name) (names : List Name) :
    ∃ globals B,
      (undefinedName :: names).foldlM (declareGlobal t.file) (.new undefinedName) = .ok B ∧
      DeclaresGlobals t undefinedName names globals B := by
  obtain ⟨B₀, hB₀, hcovers₀⟩ := covers_new (t := t) undefinedName
  have hloop : EndsIn (fun _ => False)
      (fun B => ∃ globals, DeclaresGlobals t undefinedName names globals B)
      (names.foldlM (declareGlobal t.file) B₀) := by
    refine EndsIn.foldlM
      (I := fun done B => ∃ globals, DeclaresGlobals t undefinedName done globals B) ?_
      ⟨[undefinedName], hcovers₀, by simp, rfl, List.Sublist.refl _, fun _ hg => hg⟩
    rintro done g rest B - ⟨globals, hB⟩
    obtain ⟨globals', B', hok, hB'⟩ := hB.step g
    rw [hok]
    exact ⟨globals', hB'⟩
  obtain ⟨B, hfold, globals, hB⟩ := hloop.exists_eq_ok
  rw [List.foldlM_cons, hB₀, ok_bind, hfold]
  exact ⟨globals, B, rfl, hB⟩

end Binding

end Predeclare
