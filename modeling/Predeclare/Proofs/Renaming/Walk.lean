import Predeclare.Proofs.Renaming.Scopes

set_option relaxedAutoImplicit false
set_option autoImplicit false

/-!
# Binding one tree with two interners

An interner may know more names than the tree it is used for holds. Then the globals, which are
interned when binding starts, get other names. Matching the names of two interners by their
spellings replaces the names of the globals and keeps those in the tree. Each step of binding does
with the replaced names what it does with the old ones, so a unit is bound in the same way, up to
the names of globals, or meets the same fault.

## Main definitions

* `Interner.matching` — the name of the same spelling in another interner.
* `Interner.withGlobals`, `Interner.matchGlobals` — the interner that a unit is bound with, and the
  names that match in two of them.
* `Binding.rename` — a binding with its names replaced.
* `ResolutionError.KnownTo`, `Binding.KnownTo` — an interner knows all names in a report, and in the
  scopes and reports of a binding.

## Main results

* `bindNode_rename` — the walk below a node, with replaced names.
* `bind_rename` — binding a unit with an interner that knows more.
* `knownTo_of_bind` — what is reported about a unit can be spelled.
-/

namespace Predeclare

/-! ## Matching names by their spellings -/

namespace Interner

variable {I I' J J' : Interner} {name : Name} {s : String}

/-- The name of the same spelling in another interner. -/
def matching (J J' : Interner) : Name ↪ Name :=
  ⟨translate J J' id, translate_injective Function.injective_id⟩

/-- A spelling is known if it is that of a name. -/
lemma mem_spellings_iff : s ∈ J.spellings ↔ ∃ name, J.spelling name = .ok s := by
  simp only [spelling_eq_ok_iff]
  rw [List.mem_iff_getElem?]
  constructor
  · rintro ⟨k, hk⟩
    exact ⟨⟨k⟩, hk⟩
  · rintro ⟨name, hname⟩
    exact ⟨name.index, hname⟩

/-- A name that is not known has no spelling. -/
lemma spelling_eq_error (h : ¬ J.Knows name) : J.spelling name = .error .unknownName := by
  cases hs : J.spelling name with
  | ok s => exact absurd ⟨s, hs⟩ h
  | error fault =>
    simp only [spelling] at hs
    split at hs
    · cases hs
    · exact hs.symm

/-- The other interner spells the matching name in the same way, if it knows all spellings.

**Proof sketch.** A known name is matched through its spelling, and an unknown one with an unknown
one. -/
lemma spellsAs_matching (h : J.spellings ⊆ J'.spellings) : J.SpellsAs J' (J.matching J') := by
  intro name
  by_cases hname : J.Knows name
  · obtain ⟨s, hs⟩ := hname
    obtain ⟨name', hname'⟩ := mem_spellings_iff.1 (h (mem_spellings_iff.2 ⟨name, hs⟩))
    have hmatch : J.matching J' name = name' := translate_eq (f := id) hs hname'
    rw [hmatch, hs, hname']
  · rw [spelling_eq_error hname]
    refine spelling_eq_error ?_
    rintro ⟨s, hs⟩
    rcases translate_cases J J' id name with ⟨r, hr, _⟩ | heq
    · exact hname ⟨r, hr⟩
    · rw [show J.matching J' name = _ from heq] at hs
      exact not_knows_of_size_le (Nat.le_add_left _ _) hs

/-- Interning a spelling adds no other one. -/
lemma mem_spellings_intern {r : String} :
    s ∈ (I.intern r).2.spellings ↔ s ∈ I.spellings ∨ s = r := by
  simp only [intern]
  split
  · rename_i hr
    refine ⟨Or.inl, fun h => h.elim id fun heq => ?_⟩
    rw [heq]
    exact hr
  · simp

/-- Interning a list of spellings adds no others. -/
lemma mem_spellings_internAll {ss : List String} :
    s ∈ (I.internAll ss).2.spellings ↔ s ∈ I.spellings ∨ s ∈ ss := by
  induction ss generalizing I with
  | nil => simp [internAll]
  | cons r rest ih =>
    simp only [internAll]
    rw [ih, mem_spellings_intern, List.mem_cons, or_assoc]

/-- The interner that a unit is bound with: it also knows the globals. -/
def withGlobals (I : Interner) (spellings : List String) : Interner :=
  (I.internAll ("undefined" :: spellings)).2

/-- Making the globals known keeps the other names. -/
lemma extends_withGlobals (I : Interner) (spellings : List String) :
    (I.withGlobals spellings).Extends I :=
  (I.internAll_spec ("undefined" :: spellings)).1

/-- The interner of a unit knows the globals. -/
lemma exists_spelling_withGlobals (I : Interner) {spellings : List String} (h : s ∈ spellings) :
    ∃ name, (I.withGlobals spellings).spelling name = .ok s := by
  obtain ⟨name, _, hname⟩ :=
    (I.internAll_spec ("undefined" :: spellings)).2.2 s (List.mem_cons_of_mem _ h)
  exact ⟨name, hname⟩

/-- Matches the names of the two interners that a unit is bound with. -/
def matchGlobals (I I' : Interner) (spellings : List String) : Name ↪ Name :=
  (I.withGlobals spellings).matching (I'.withGlobals spellings)

/-- With matching names, the globals have the same spellings, and so have all other names. -/
lemma spellsAs_matchGlobals (h : I'.Extends I) (spellings : List String) :
    (I.withGlobals spellings).SpellsAs (I'.withGlobals spellings)
      (I.matchGlobals I' spellings) := by
  refine spellsAs_matching fun s hs => ?_
  rw [withGlobals, mem_spellings_internAll] at hs ⊢
  exact hs.imp_left fun hs => h.subset hs

/-- The globals match. -/
lemma map_matchGlobals (I I' : Interner) (spellings : List String) :
    (I'.internAll ("undefined" :: spellings)).1 =
      (I.internAll ("undefined" :: spellings)).1.map (I.matchGlobals I' spellings) :=
  map_translate_eq (f := id) (fun _ _ => rfl) (I.map_spelling_internAll _)
    (I'.map_spelling_internAll _)

end Interner

/-- The names in the tree are not replaced. -/
def SyntaxTree.FixedBy {n : Nat} (t : SyntaxTree n) (g : Name ↪ Name) : Prop :=
  ∀ i name, t.text i = some name → g name = name

variable {n : Nat} {t : SyntaxTree n} {I I' J J' : Interner} {E : Enumeration} {g : Name ↪ Name}
  {spellings : List String}

/-- The names of globals are the only ones that are replaced. -/
lemma SyntaxTree.Spelled.fixedBy_matchGlobals (hspelled : t.Spelled I) (hI' : I'.Extends I)
    (spellings : List String) : t.FixedBy (I.matchGlobals I' spellings) := by
  intro i name hname
  obtain ⟨s, hs⟩ := hspelled i name hname
  exact Interner.translate_eq (f := id) ((I.extends_withGlobals spellings).spelling hs)
    (((I'.extends_withGlobals spellings).trans hI').spelling hs)

/-! ## Names that are known -/

/-- The interner knows all names in a report. -/
def ResolutionError.KnownTo (J : Interner) : ResolutionError → Prop
  | undefinedName name _ ks => J.Knows name ∧ ∀ k ∈ ks, J.Knows k
  | duplicateDefinition name _ _ => J.Knows name

/-- Suggestions have been compared with the name, so all of them are known.

**Proof sketch.** A suggestion is one of the measured candidates, and measuring asks for the
spelling. -/
lemma knows_of_suggestions {name : Name} {available ks : List Name}
    (h : suggestions J name available = .ok ks) : J.Knows name ∧ ∀ k ∈ ks, J.Knows k := by
  simp only [suggestions, bind_eq_ok_iff, pure_eq_ok, Except.ok.injEq] at h
  obtain ⟨target, htarget, measured, hmeasured, rfl⟩ := h
  refine ⟨⟨target, htarget⟩, fun k hk => ?_⟩
  obtain ⟨m, hm, rfl⟩ := List.mem_map.1 hk
  have hnear := List.mem_mergeSort.1 (List.mem_of_mem_take hm)
  obtain ⟨a, _, ha⟩ := forall_mem_of_mapM_eq_ok hmeasured m (List.mem_filter.1 hnear).1
  simp only [Suggestion.measure] at ha
  split at ha
  · rename_i s hs
    obtain rfl := Except.ok.inj ha
    exact ⟨s, hs⟩
  · cases ha

namespace ScopeTree

variable {ν : Type} {T : ScopeTree ν} {s : ScopeId} {name : Name}

/-- A report that a name is undefined can be spelled. -/
lemma knownTo_of_resolve {site : FileSpan} {e : ResolutionError}
    (h : T.resolve J s name site E = .ok (.error e)) : e.KnownTo J := by
  simp only [resolve] at h
  split at h
  · cases h
  · simp only [bind_eq_ok_iff, pure_eq_ok, Except.ok.injEq, Except.error.injEq] at h
    obtain ⟨visible, _, ks, hks, rfl⟩ := h
    exact knows_of_suggestions hks

/-- All names in the scopes are known if those of each scope are. -/
lemma knownTo_iff : T.KnownTo J ↔ ∀ scope ∈ T.scopes, ∀ k ∈ scope.definitions.keys, J.Knows k := by
  constructor
  · intro h scope hscope k hk
    obtain ⟨i, hi, rfl⟩ := Array.mem_iff_getElem.1 hscope
    refine h ⟨i⟩ k ?_
    simpa [definitions, scope?, hi] using hk
  · intro h s k hk
    simp only [definitions] at hk
    cases hs : T.scope? s with
    | none =>
      rw [hs] at hk
      exact absurd hk List.not_mem_nil
    | some scope =>
      rw [hs] at hk
      exact h scope (Array.mem_of_getElem? hs) k hk

/-- A new scope has no names. -/
lemma KnownTo.createChild (h : T.KnownTo J) (parent : ScopeId) (kind : ScopeKind) (node : ν) :
    EndsIn (fun _ => True) (fun r => r.2.KnownTo J) (T.createChild parent kind node) := by
  simp only [ScopeTree.createChild]
  split
  · refine knownTo_iff.2 fun scope hscope k hk => ?_
    rcases Array.mem_push.1 hscope with hscope | rfl
    · exact knownTo_iff.1 h scope hscope k hk
    · exact absurd hk List.not_mem_nil
  · trivial

/-- Defining a known name adds it to a scope or gives a report that can be spelled.

**Proof sketch.** The scope keeps its names and gets the new one, or the name is reported. -/
lemma KnownTo.define (h : T.KnownTo J) (hname : J.Knows name) (symbol : SymbolId)
    (span : FileSpan) :
    EndsIn (fun _ => True) (EndsIn (ResolutionError.KnownTo J) (KnownTo J))
      (T.define s name symbol span) := by
  simp only [ScopeTree.define]
  split
  · rename_i known
    split
    · exact hname
    · refine knownTo_iff.2 fun scope hscope k hk => ?_
      rcases Array.mem_or_eq_of_mem_set (w := known) hscope with hscope | rfl
      · exact knownTo_iff.1 h scope hscope k hk
      · rcases OrderedMap.mem_keys_insert.1 hk with hk | rfl
        · exact knownTo_iff.1 h _ (Array.getElem_mem known) k hk
        · exact hname
  · trivial

end ScopeTree

namespace Binding

/-- The interner knows all names in the scopes and in the reports so far. -/
structure KnownTo (J : Interner) (B : Binding n) : Prop where
  scopes : B.scopes.KnownTo J
  errors : ∀ e ∈ B.errors, e.KnownTo J

namespace KnownTo

variable {B : Binding n} {s : ScopeId} {name : Name}

/-- One more report that can be spelled. -/
lemma concat (h : B.KnownTo J) {e : ResolutionError} (he : e.KnownTo J) :
    KnownTo J { B with errors := B.errors ++ [e] } where
  scopes := h.scopes
  errors e' he' := by
    rcases List.mem_append.1 he' with he' | he'
    · exact h.errors e' he'
    · exact List.mem_singleton.1 he' ▸ he

/-- Defining a known name. -/
lemma define (h : B.KnownTo J) (hname : J.Knows name) (symbol : SymbolId) (span : FileSpan) :
    EndsIn (fun _ => True) (KnownTo J) (B.define s name symbol span) := by
  have hscopes := h.scopes.define (s := s) hname symbol span
  simp only [Binding.define]
  split
  · trivial
  · rename_i e hdefine
    exact h.concat ((hscopes.of_ok hdefine).of_error rfl)
  · rename_i T hdefine
    exact ⟨(hscopes.of_ok hdefine).of_ok rfl, h.errors⟩

/-- Declaring what the tree says. -/
lemma declare (h : B.KnownTo J) {d : Declaration n} (hd : J.Knows d.name) :
    EndsIn (fun _ => True) (KnownTo J) (B.declare t s d) := by
  simp only [Binding.declare]
  split
  · exact define (B := { B with symbols := (B.symbols.declare d.name d.kind d.node).2 })
      ⟨h.scopes, h.errors⟩ hd _ _
  · trivial

/-- Opening a scope.

**Proof sketch.** A loop over the declarations, whose names are texts of the tree. -/
lemma openScope (h : B.KnownTo J) (hspelled : t.Spelled J) (s : ScopeId) (i : Fin n) :
    EndsIn (fun _ => True) (fun r => KnownTo J r.2) (B.openScope t s i) := by
  simp only [Binding.openScope]
  split
  · exact h
  · refine (h.scopes.createChild s _ i).bind fun r hr => ?_
    have hloop : EndsIn (fun _ => True) (KnownTo J)
        ((t.scopeDeclarations i).foldlM (Binding.declare t r.1) { B with scopes := r.2 }) := by
      refine EndsIn.foldlM (I := fun _ => KnownTo J) (fun done d rest B' hsplit hB' => ?_)
        ⟨hr, h.errors⟩
      have hd : d ∈ t.scopeDeclarations i := by
        rw [hsplit]
        simp
      exact hB'.declare
        (hspelled d.node d.name (SyntaxTree.proper_of_mem_scopeDeclarations hd).text)
    exact hloop.bind fun B' hB' => hB'

/-- Binding a reference. -/
lemma bindReference (h : B.KnownTo J) (s : ScopeId) (i : Fin n) :
    EndsIn (fun _ => True) (KnownTo J) (B.bindReference t J E s i) := by
  simp only [Binding.bindReference]
  split
  · exact h
  · split
    · trivial
    · rename_i e hresolve
      exact h.concat (ScopeTree.knownTo_of_resolve hresolve)
    · exact ⟨h.scopes, h.errors⟩

/-- **The walk below a node** comes across known names only.

**Proof sketch.** By induction from the root downwards, with `bindNode_eq`: an identifier is bound
(`bindReference`), any other node opens a scope if it introduces one and its children are walked one
after the other. -/
theorem bindNode (h : B.KnownTo J) (hspelled : t.Spelled J) (s : ScopeId) (i : Fin n) :
    EndsIn (fun _ => True) (KnownTo J) (Predeclare.bindNode t J E s i B) := by
  induction i using SyntaxTree.downwards_induction (t := t) generalizing s B with
  | step i ih =>
    rw [bindNode_eq]
    split
    · exact h.bindReference s i
    · refine (h.openScope hspelled s i).bind fun r hr => ?_
      refine EndsIn.foldlM (I := fun _ => KnownTo J) (fun done c rest B' hsplit hB' => ?_) hr
      have hc : c ∈ t.children i := by
        rw [hsplit]
        simp
      exact ih c hc hB' r.1

end KnownTo

end Binding

/-! ## The steps of binding -/

namespace Binding

variable {B : Binding n} {s : ScopeId} {i : Fin n}

/-- A binding with its names replaced. -/
def rename (g : Name ↪ Name) (B : Binding n) : Binding n :=
  ⟨B.symbols.rename g, B.scopes.rename g, B.errors.map (ResolutionError.rename g)⟩

/-- Defining a replaced name. -/
lemma define_rename (g : Name ↪ Name) (B : Binding n) (s : ScopeId) (name : Name)
    (symbol : SymbolId) (span : FileSpan) :
    (B.rename g).define s (g name) symbol span = (B.define s name symbol span).map (rename g) := by
  have hdefine := B.scopes.define_rename g s name symbol span
  simp only [define]
  rw [show (B.rename g).scopes = B.scopes.rename g from rfl, hdefine]
  rcases B.scopes.define s name symbol span with fault | e | T
  · rfl
  · refine congrArg Except.ok ?_
    simp [rename]
  · rfl

/-- Declaring a replaced global. -/
lemma declareGlobal_rename (g : Name ↪ Name) (file : FileId) (B : Binding n) (name : Name) :
    (B.rename g).declareGlobal file (g name) = (B.declareGlobal file name).map (rename g) := by
  have hlookup := B.scopes.lookup_rename g ScopeTree.globalScope name
  have hsymbols := B.symbols.declareGlobal_rename g name
  simp only [declareGlobal]
  rw [show (B.rename g).scopes = B.scopes.rename g from rfl, hlookup]
  cases B.scopes.lookup ScopeTree.globalScope name with
  | some d => rfl
  | none =>
    rw [show (B.rename g).symbols = B.symbols.rename g from rfl, hsymbols]
    exact define_rename g { B with symbols := (B.symbols.declareGlobal name).2 } _ name _ _

/-- Declaring replaced globals in an empty binding. -/
lemma declareGlobals_rename (g : Name ↪ Name) (file : FileId) (u : Name) (names : List Name) :
    (names.map g).foldlM (declareGlobal file) (.new (g u)) =
      (names.foldlM (declareGlobal file) (.new u : Binding n)).map (rename g) := by
  have hnew : (Binding.new (g u) : Binding n) = (Binding.new u).rename g := by
    simp only [Binding.new, rename, SymbolTable.new_rename, ScopeTree.new_rename, List.map_nil]
  rw [hnew]
  exact foldlM_eq_map (fun B name _ => declareGlobal_rename g file B name) _

/-- Declarations of the tree keep their names. -/
lemma declare_rename {d : Declaration n} (hd : g d.name = d.name) (B : Binding n) (s : ScopeId) :
    (B.rename g).declare t s d = (B.declare t s d).map (rename g) := by
  have hsymbols := B.symbols.declare_rename g d.name d.kind d.node
  rw [hd] at hsymbols
  have hdefine := define_rename g { B with symbols := (B.symbols.declare d.name d.kind d.node).2 } s
    d.name (B.symbols.declare d.name d.kind d.node).1 (t.span d.node)
  rw [hd] at hdefine
  simp only [declare]
  split
  · rw [show (B.rename g).symbols = B.symbols.rename g from rfl, hsymbols]
    exact hdefine
  · rfl

/-- Opening the scope of a node.

**Proof sketch.** Creating the scope does not read names, and then each round of the loop over the
declarations commutes with the replacement by `declare_rename`. -/
lemma openScope_rename (hfix : t.FixedBy g) (B : Binding n) (s : ScopeId) (i : Fin n) :
    (B.rename g).openScope t s i = (B.openScope t s i).map (Prod.map id (rename g)) := by
  simp only [openScope]
  cases t.scopeKind? i with
  | none => rfl
  | some kind =>
    have hcreate := B.scopes.createChild_rename g s kind i
    dsimp only
    rw [show (B.rename g).scopes = B.scopes.rename g from rfl, hcreate]
    rcases B.scopes.createChild s kind i with fault | ⟨inner, T⟩
    · rfl
    · have hloop := foldlM_eq_map (f := declare t inner) (p := declare t inner) (r := rename g)
        (k := id) (l := t.scopeDeclarations i) (fun B' d hd => declare_rename
          (hfix _ _ (SyntaxTree.proper_of_mem_scopeDeclarations hd).text) B' inner)
        { B with scopes := T }
      rw [List.map_id] at hloop
      simp only [Except.map, ok_bind, Prod.map, id_eq]
      rw [show ({ B.rename g with scopes := T.rename g } : Binding n) =
        rename g { B with scopes := T } from rfl, hloop]
      cases (t.scopeDeclarations i).foldlM (declare t inner) { B with scopes := T } <;> rfl

/-- Binding a reference.

**Proof sketch.** The text of a reference is not replaced, so that `ScopeTree.resolve_rename`
applies to it. Its answer does not change, and its report has the suggestions replaced. -/
lemma bindReference_rename (hE : E.DependsOnSpellings) (hfix : t.FixedBy g)
    (hg : J.SpellsAs J' g) (hB : B.KnownTo J) (s : ScopeId) (i : Fin n) :
    (B.rename g).bindReference t J' E s i = (B.bindReference t J E s i).map (rename g) := by
  simp only [bindReference]
  cases htext : t.text i with
  | none => rfl
  | some name =>
    have hresolve := ScopeTree.resolve_rename hE hg hB.scopes s name (t.span i)
    rw [hfix i name htext] at hresolve
    dsimp only
    rw [show (B.rename g).scopes = B.scopes.rename g from rfl, hresolve]
    rcases B.scopes.resolve J s name (t.span i) E with fault | e | d
    · rfl
    · refine congrArg Except.ok ?_
      simp [rename]
    · rfl

end Binding

open Binding in
/-- **The walk below a node** does with replaced names what it does with the old ones.

**Proof sketch.** Induction down the tree. At an identifier a name is resolved, which commutes with
replacing names because all names in the scopes are known. At any other node the scope is opened and
the children are walked over; each round of that loop leaves known names only, so the hypothesis of
the induction applies to the next one. -/
theorem bindNode_rename (hE : E.DependsOnSpellings) (hspelled : t.Spelled J) (hfix : t.FixedBy g)
    (hg : J.SpellsAs J' g) (s : ScopeId) (i : Fin n) {B : Binding n} (hB : B.KnownTo J) :
    bindNode t J' E s i (B.rename g) = (bindNode t J E s i B).map (rename g) := by
  induction i using SyntaxTree.downwards_induction (t := t) generalizing s B with
  | step i ih =>
    rw [bindNode_eq, bindNode_eq]
    by_cases hkind : t.kind i = .identifier
    · rw [if_pos hkind, if_pos hkind]
      exact bindReference_rename hE hfix hg hB s i
    · rw [if_neg hkind, if_neg hkind, openScope_rename hfix B s i]
      have hopen := hB.openScope hspelled s i
      cases hB₁ : B.openScope t s i with
      | error fault => rfl
      | ok opened =>
        obtain ⟨inner, B₁⟩ := opened
        have hloop := foldlM_eq_map_of_invariant (f := fun B c => bindNode t J E inner c B)
          (p := fun B c => bindNode t J' E inner c B) (r := rename g) (k := id)
          (l := t.children i) (fun B' hB' c hc => ih c hc inner hB')
          (fun B' hB' c _ => hB'.bindNode hspelled inner c) (hopen.of_ok hB₁)
        rwa [List.map_id] at hloop

/-! ## Binding a unit -/

/-- A unit is bound with an interner that knows the globals. -/
lemma bindGlobals_eq (t : SyntaxTree n) (I : Interner) (spellings : List String) :
    bindGlobals t I spellings =
      ((I.internAll ("undefined" :: spellings)).1.foldlM (Binding.declareGlobal t.file)
        (.new (I.intern "undefined").1)).map fun B => (B, I.withGlobals spellings) := by
  simp only [bindGlobals]
  exact (map_eq_pure_bind _ _).symm

/-- The globals are made known in the same way, whatever the interners know already. -/
lemma bindGlobals_rename (t : SyntaxTree n) (I I' : Interner) (spellings : List String) :
    bindGlobals t I' spellings = (bindGlobals t I spellings).map fun r =>
      (r.1.rename (I.matchGlobals I' spellings), I'.withGlobals spellings) := by
  have hnames := I.map_matchGlobals I' spellings
  have hfirst : (I'.intern "undefined").1 =
      I.matchGlobals I' spellings (I.intern "undefined").1 := (List.cons_eq_cons.1 hnames).1
  rw [bindGlobals_eq, bindGlobals_eq, hfirst, hnames, Binding.declareGlobals_rename]
  cases (I.internAll ("undefined" :: spellings)).1.foldlM
    (Binding.declareGlobal (n := n) t.file) (.new (I.intern "undefined").1) <;> rfl

/-- The globals leave the interner behind that knows them. -/
lemma eq_withGlobals_of_bindGlobals {B : Binding n}
    (h : bindGlobals t I spellings = .ok (B, J)) : J = I.withGlobals spellings := by
  rw [bindGlobals_eq, map_eq_ok_iff] at h
  obtain ⟨_, _, heq⟩ := h
  exact (Prod.mk.inj heq).2.symm

/-- The names of the globals are known once they have been declared. -/
lemma knownTo_of_bindGlobals {B : Binding n} (hspelled : t.Spelled I)
    (h : bindGlobals t I spellings = .ok (B, J)) : B.KnownTo J := by
  obtain ⟨B', J', globals, hB', hJ', hglobals, hcovers⟩ := covers_bindGlobals t I spellings
  obtain ⟨rfl, rfl⟩ := Prod.mk.inj (Except.ok.inj (hB'.symm.trans h))
  have hempty : B'.errors = [] := List.map_eq_nil_iff.1 hcovers.errors
  exact ⟨hcovers.scopes_knownTo (hspelled.extends hJ') hglobals.knows, by simp [hempty]⟩

/-- **Binding a unit with an interner that knows more** gives the same binding, in which the names
that are not in the tree are replaced by names of the same spelling, or the same fault.

**Proof sketch.** The globals are made known with both interners, by `bindGlobals_rename`. Then the
walk commutes with the replacement, by `bindNode_rename`; all names met on it are known. -/
theorem bind_rename (hE : E.DependsOnSpellings) (hspelled : t.Spelled I) (hI' : I'.Extends I)
    (spellings : List String) :
    bind t I' spellings E = (bind t I spellings E).map fun r =>
      (r.1.rename (I.matchGlobals I' spellings), I'.withGlobals spellings) := by
  rw [bind_eq, bind_eq, bindGlobals_rename t I I']
  cases hB : bindGlobals t I spellings with
  | error fault => rfl
  | ok result =>
    obtain ⟨B, J⟩ := result
    obtain rfl := eq_withGlobals_of_bindGlobals hB
    have hwalk := bindNode_rename hE (hspelled.extends (I.extends_withGlobals spellings))
      (hspelled.fixedBy_matchGlobals hI' spellings) (Interner.spellsAs_matchGlobals hI' spellings)
      ScopeTree.globalScope t.root (knownTo_of_bindGlobals hspelled hB)
    simp only [Except.map, ok_bind]
    rw [hwalk]
    cases bindNode t (I.withGlobals spellings) E ScopeTree.globalScope t.root B <;> rfl

/-- A bound unit leaves the interner behind that knows the globals, and all names in its scopes and
its reports are known. -/
theorem knownTo_of_bind {B : Binding n} (hspelled : t.Spelled I)
    (h : bind t I spellings E = .ok (B, J)) : J = I.withGlobals spellings ∧ B.KnownTo J := by
  rw [bind_eq, bind_eq_ok_iff] at h
  obtain ⟨⟨B₀, J₀⟩, hB₀, h⟩ := h
  obtain ⟨B', hB', heq⟩ := bind_eq_ok_iff.1 h
  obtain ⟨rfl, rfl⟩ := Prod.mk.inj (Except.ok.inj heq)
  have hB₀known := knownTo_of_bindGlobals hspelled hB₀
  obtain rfl := eq_withGlobals_of_bindGlobals hB₀
  have hspelled' := hspelled.extends (I.extends_withGlobals spellings)
  exact ⟨rfl, (hB₀known.bindNode hspelled' ScopeTree.globalScope t.root).of_ok hB'⟩

end Predeclare
