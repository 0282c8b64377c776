import Predeclare.Proofs.Lowering.Unit
import Predeclare.Proofs.Renaming.Walk
import Predeclare.Proofs.Tree.Texts

set_option relaxedAutoImplicit false
set_option autoImplicit false

/-!
# What else an interner knows

Units are compiled one after the other with one interner, which comes to know more and more names.
The outcome of a compilation does not depend on it. A unit that is compiled with an interner that
knows more than its tree needs has the same output and the same rendered plan, or the same errors:
their names may be others, but they are spelled in the same way. For the suggestions among them,
scopes have to list their names in an order that depends on spellings only.

## Main definitions

* `SameReport`, `SameOutcome` — what is compared by spelling.

## Main results

* `lowerUnit_rename` — a bound unit is lowered in the same way.
* `compile_same_outcome` — a unit is compiled in the same way.
-/

namespace Predeclare

variable {n : Nat} {t : SyntaxTree n} {I I' J J' : Interner} {E : Enumeration} {g : Name ↪ Name}

/-! ## The same spellings -/

/-- Two reports have the same locations, and names that are spelled in the same way. -/
inductive SameReport (J J' : Interner) : ResolutionError → ResolutionError → Prop
  | undefinedName {a b : Name} {ks ls : List Name} (site : FileSpan) :
    SameSpelling J J' a b → List.Forall₂ (SameSpelling J J') ks ls →
      SameReport J J' (.undefinedName a site ks) (.undefinedName b site ls)
  | duplicateDefinition {a b : Name} (first second : FileSpan) :
    SameSpelling J J' a b →
      SameReport J J' (.duplicateDefinition a first second) (.duplicateDefinition b first second)

/-- Two compilations of a tree end in the same way: with the same fault, with the same output and
the same rendered plan, with the same reports, or with the same error of lowering. -/
inductive SameOutcome (t : SyntaxTree n) :
    Except Fault (Except CompileError (UnitOutput n) × Interner) →
      Except Fault (Except CompileError (UnitOutput n) × Interner) → Prop
  | fault (fault : Fault) : SameOutcome t (.error fault) (.error fault)
  | output {J J' : Interner} {text : String} (out : UnitOutput n) :
    out.renderHoists t J = .ok text → out.renderHoists t J' = .ok text →
      SameOutcome t (.ok (.ok out, J)) (.ok (.ok out, J'))
  | resolution {J J' : Interner} {es es' : List ResolutionError} :
    List.Forall₂ (SameReport J J') es es' →
      SameOutcome t (.ok (.error (.resolution es), J)) (.ok (.error (.resolution es'), J'))
  | internal {J J' : Interner} (e : LowerError) :
    SameOutcome t (.ok (.error (.internal e), J)) (.ok (.error (.internal e), J'))

/-- A report that can be spelled and the replaced one are the same. -/
lemma ResolutionError.KnownTo.sameReport {e : ResolutionError} (h : e.KnownTo J)
    (hg : J.SpellsAs J' g) : SameReport J J' e (e.rename g) := by
  cases e with
  | undefinedName name site ks =>
    refine .undefinedName site (hg.sameSpelling h.1) ?_
    rw [List.forall₂_map_right_iff, List.forall₂_same]
    exact fun k hk => hg.sameSpelling (h.2 k hk)
  | duplicateDefinition name first second =>
    exact .duplicateDefinition first second (hg.sameSpelling h)

/-! ## Lowering -/

/-- The two interners spell the texts of the tree in the same way. -/
def SyntaxTree.SpelledAlike (t : SyntaxTree n) (J J' : Interner) : Prop :=
  ∀ i name, t.text i = some name → J'.spelling name = J.spelling name

/-- An interner that knows more spells the texts of the tree in the same way. -/
lemma SyntaxTree.Spelled.spelledAlike (hspelled : t.Spelled I) (hJ : J.Extends I)
    (hJ' : J'.Extends I) : t.SpelledAlike J J' := by
  intro i name hname
  obtain ⟨s, hs⟩ := hspelled i name hname
  rw [hJ.spelling hs, hJ'.spelling hs]

section Lowering

variable {symbols : SymbolTable (Fin n)} {table : ExpanderTable n} {model : SemanticModel (Fin n)}
  {options : LowerOptions}

/-- The spelling of an identifier. -/
lemma LowerContext.identifierText_eq (h : t.SpelledAlike J J') (i : Fin n) :
    (⟨t, J', model, options⟩ : LowerContext n).identifierText i =
      (⟨t, J, model, options⟩ : LowerContext n).identifierText i := by
  simp only [identifierText]
  split
  · rename_i name _ htext
    rw [h i name htext]
  · rfl

/-- The builtin names look at the options only. -/
lemma ExpanderTable.OnlyBuiltins.expander_eq (htable : table.OnlyBuiltins symbols) {s : SymbolId}
    {expander : Expander n} (hs : table.get? s = some expander) (state : HoistState n)
    (i : Fin n) :
    expander ⟨t, J', model, options⟩ state i = expander ⟨t, J, model, options⟩ state i := by
  rcases (htable s expander hs).1 with rfl | rfl <;> rfl

/-- Lowering one identifier.

**Proof sketch.** The cases of the lowering. The text is the same with both interners, and the
expanders of builtin names do not use the interner. -/
lemma lowerIdentifier_eq (h : t.SpelledAlike J J') (htable : table.OnlyBuiltins symbols)
    (state : HoistState n) (i : Fin n) :
    lowerIdentifier ⟨t, J', model, options⟩ table state i =
      lowerIdentifier ⟨t, J, model, options⟩ table state i := by
  have htext : LowerContext.identifierText ⟨t, J', model, options⟩ i =
      LowerContext.identifierText ⟨t, J, model, options⟩ i := LowerContext.identifierText_eq h i
  cases hs : model.symbolAt i with
  | none => rw [lowerIdentifier_of_no_symbol hs, lowerIdentifier_of_no_symbol hs, htext]
  | some s =>
    cases hundefined : model.isUndefined s with
    | true =>
      rw [lowerIdentifier_of_undefined hs hundefined, lowerIdentifier_of_undefined hs hundefined]
    | false =>
      cases hexpander : table.get? s with
      | some expander =>
        rw [lowerIdentifier_of_expander hs hundefined hexpander,
          lowerIdentifier_of_expander hs hundefined hexpander,
          htable.expander_eq hexpander]
      | none =>
        rw [lowerIdentifier_of_plain hs hundefined hexpander,
          lowerIdentifier_of_plain hs hundefined hexpander]
        simp only [LowerContext.lowerPlain, htext]
        rfl

/-- Lowering one identifier after the other. -/
lemma lowerAll_eq (h : t.SpelledAlike J J') (htable : table.OnlyBuiltins symbols)
    (l : List (Fin n)) (out : UnitOutput n) (state : HoistState n) :
    lowerAll ⟨t, J', model, options⟩ table l out state =
      lowerAll ⟨t, J, model, options⟩ table l out state := by
  induction l generalizing out state with
  | nil => rfl
  | cons i rest ih =>
    simp only [lowerAll]
    rw [lowerIdentifier_eq h htable]
    rcases lowerIdentifier ⟨t, J, model, options⟩ table state i with fault | ⟨e | e, state'⟩
    · rfl
    · rfl
    · exact ih _ _

end Lowering

/-- A global with a replaced name has the same expander. -/
lemma ExpanderTable.registerGlobal_rename {ν : Type} (hg : J.SpellsAs J' g)
    (symbols : SymbolTable ν) (table : ExpanderTable n) {entry : String × Expander n}
    (hentry : ∃ name, J.spelling name = .ok entry.1) :
    table.registerGlobal (symbols.rename g) J' entry = table.registerGlobal symbols J entry := by
  obtain ⟨name, hname⟩ := hentry
  have hname' : J'.spelling (g name) = .ok entry.1 := (hg name).trans hname
  simp only [registerGlobal]
  rw [Interner.find?_eq_some_iff.2 hname, Interner.find?_eq_some_iff.2 hname', Option.bind_some,
    Option.bind_some, SymbolTable.global?_rename]

/-- The builtin names are found by their spellings. -/
lemma CompilerOptions.expanders_rename (hg : J.SpellsAs J' g)
    (hknown : ∀ s ∈ defaultGlobals, ∃ name, J.spelling name = .ok s) (options : CompilerOptions)
    (symbols : SymbolTable (Fin n)) :
    options.expanders (symbols.rename g) J' = options.expanders symbols J := by
  simp only [expanders, ExpanderTable.ofBuiltins, Builtin.all, List.foldl_cons, List.foldl_nil]
  rw [ExpanderTable.registerGlobal_rename hg _ _ (hknown "PKG_VERSION" (by decide)),
    ExpanderTable.registerGlobal_rename hg _ _ (hknown "Promise" (by decide))]

/-- **A bound unit is lowered in the same way** when its globals have other names. -/
theorem lowerUnit_rename (hg : J.SpellsAs J' g) (h : t.SpelledAlike J J')
    (hknown : ∀ s ∈ defaultGlobals, ∃ name, J.spelling name = .ok s) (B : Binding n)
    (options : CompilerOptions) :
    lowerUnit t J' (B.rename g) options = lowerUnit t J B options := by
  simp only [lowerUnit, Binding.rename, SymbolTable.model_rename,
    options.expanders_rename hg hknown]
  exact lowerAll_eq h (ExpanderTable.onlyBuiltins_expanders options) _ _ _

/-! ## Rendering -/

namespace UnitOutput

/-- The announced references of the plan can be spelled, and are spelled in the same way.

**Proof sketch.** Only texts of the tree are spelled, and the first interner knows them all. -/
lemma exists_spellings (hspelled : t.Spelled J) (h : t.SpelledAlike J J') (rs : List (Fin n)) :
    ∃ names, spellings t J rs = .ok names ∧ spellings t J' rs = .ok names := by
  have hknown : ∀ name ∈ rs.filterMap t.text, ∃ s, J.spelling name = .ok s := by
    intro name hname
    obtain ⟨i, _, htext⟩ := List.mem_filterMap.1 hname
    exact hspelled i name htext
  have hsame : (rs.filterMap t.text).mapM J'.spelling =
      ((rs.filterMap t.text).mapM J.spelling).map (List.map id) := by
    refine mapM_eq_map fun name hname => ?_
    obtain ⟨i, _, htext⟩ := List.mem_filterMap.1 hname
    rw [h i name htext]
    cases J.spelling name <;> rfl
  obtain ⟨names, hnames⟩ := exists_mapM_eq_ok hknown
  refine ⟨names, hnames, ?_⟩
  simp only [spellings]
  rw [hsame, hnames, List.map_id_fun]
  rfl

/-- **The plan is rendered in the same way.**

**Proof sketch.** Each line is rendered from the spellings of its references, which both interners
know and agree about (`exists_spellings`). -/
theorem exists_renderHoists (hspelled : t.Spelled J) (h : t.SpelledAlike J J')
    (out : UnitOutput n) :
    ∃ text, out.renderHoists t J = .ok text ∧ out.renderHoists t J' = .ok text := by
  have hentry : ∀ entry, ∃ line, renderEntry t J entry = .ok line ∧
      renderEntry t J' entry = .ok line := by
    intro entry
    obtain ⟨names, hnames, hnames'⟩ := exists_spellings hspelled h entry.2
    simp only [renderEntry, hnames, hnames']
    exact ⟨_, rfl, rfl⟩
  choose line hline hline' using hentry
  simp only [renderHoists]
  rw [mapM_eq_ok_map fun entry _ => hline entry, mapM_eq_ok_map fun entry _ => hline' entry]
  exact ⟨_, rfl, rfl⟩

end UnitOutput

/-! ## Compiling -/

/-- **A unit is compiled in the same way, whatever else the interner knows.**

**Proof sketch.** Names are matched by their spellings, which replaces the names of globals and
leaves those in the tree. Binding with the one interner is binding with the other one, up to the
names: look-up only compares names, and suggestions look at spellings and at the order in which
scopes list their names. Lowering and rendering look at texts of the tree and find globals by their
spellings. -/
theorem compile_same_outcome (hE : E.DependsOnSpellings) (hspelled : t.Spelled I)
    (hI' : I'.Extends I) (options : CompilerOptions) :
    SameOutcome t (compile t I options E) (compile t I' options E) := by
  have hg := Interner.spellsAs_matchGlobals hI' defaultGlobals
  have hJ := I.extends_withGlobals defaultGlobals
  have halike : t.SpelledAlike (I.withGlobals defaultGlobals) (I'.withGlobals defaultGlobals) :=
    hspelled.spelledAlike hJ ((I'.extends_withGlobals defaultGlobals).trans hI')
  simp only [compile, bind_rename hE hspelled hI']
  cases hB : bind t I defaultGlobals E with
  | error fault => exact .fault fault
  | ok result =>
    obtain ⟨B, J⟩ := result
    obtain ⟨rfl, hknown⟩ := knownTo_of_bind hspelled hB
    have hnil : (B.rename (I.matchGlobals I' defaultGlobals)).errors = [] ↔ B.errors = [] :=
      List.map_eq_nil_iff
    simp only [Except.map, ok_bind, pure_eq_ok]
    by_cases herrors : B.errors = []
    · rw [if_pos herrors, if_pos (hnil.2 herrors),
        lowerUnit_rename hg halike fun _ => I.exists_spelling_withGlobals]
      rcases lowerUnit t (I.withGlobals defaultGlobals) B options with fault | e | out
      · exact .fault fault
      · exact .internal e
      · obtain ⟨text, htext, htext'⟩ :=
          UnitOutput.exists_renderHoists (hspelled.extends hJ) halike out
        exact .output out htext htext'
    · rw [if_neg herrors, if_neg (mt hnil.1 herrors)]
      refine .resolution ?_
      simp only [Binding.rename]
      rw [List.forall₂_map_right_iff, List.forall₂_same]
      exact fun e he => (hknown.errors e he).sameReport hg

/-- The forms of `x; let x; print`. -/
def Form.hoistedBeforePrint : List (Form Nat) :=
  [identifier "x", expressionStatement 0, letStatement "x" none, identifier "print",
    expressionStatement 3]

/-- With one more string in the interner, a global that the tree does not mention has another
number. The output and the rendered plan are the same. If scopes list their names as they were
defined, `print` is suggested for `prnt`, under either number. -/
theorem compile_same_outcome_other :
    Enumeration.bySpelling.DependsOnSpellings ∧ Enumeration.byDefinition.DependsOnSpellings ∧
    (∃ src out J J', Source.build ⟨0⟩ .empty Form.hoistedBeforePrint [1, 2, 4] = .ok src ∧
      src.tree.Spelled src.interner ∧ (src.interner.intern "other").2.Extends src.interner ∧
      compile src.tree src.interner .default = .ok (.ok out, J) ∧
      compile src.tree (src.interner.intern "other").2 .default = .ok (.ok out, J') ∧
      (out.hoists.entries.map fun e => (e.1.val, e.2.map Fin.val)) = [(1, [0])] ∧
      (J.find? "Promise", J'.find? "Promise") = (some ⟨4⟩, some ⟨5⟩) ∧
      ∃ text, out.renderHoists src.tree J = .ok text ∧
        out.renderHoists src.tree J' = .ok text) ∧
    ∃ src J J', Source.build ⟨0⟩ .empty [.identifier "prnt", .expressionStatement 0] [1] = .ok src ∧
      src.tree.Spelled src.interner ∧ (src.interner.intern "other").2.Extends src.interner ∧
      compile src.tree src.interner .default .byDefinition =
        .ok (.error (.resolution [.undefinedName ⟨0⟩ ⟨⟨0⟩, ⟨0, 4⟩⟩ [⟨2⟩]]), J) ∧
      compile src.tree (src.interner.intern "other").2 .default .byDefinition =
        .ok (.error (.resolution [.undefinedName ⟨0⟩ ⟨⟨0⟩, ⟨0, 4⟩⟩ [⟨3⟩]]), J') ∧
      SameSpelling J J' ⟨2⟩ ⟨3⟩ := by
  refine ⟨Enumeration.bySpelling_dependsOnSpellings, Enumeration.byDefinition_dependsOnSpellings,
    ?_, ?_⟩
  · have hrun : EndsIn (fun _ => False)
        (fun src => EndsIn (fun _ => False)
          (fun r => EndsIn (fun _ => False)
            (fun out => (r.2.find? "Promise",
                out.hoists.entries.map fun e => (e.1.val, e.2.map Fin.val)) =
              (some ⟨4⟩, [(1, [0])])) r.1)
          (compile src.tree src.interner .default))
        (Source.build ⟨0⟩ .empty Form.hoistedBeforePrint [1, 2, 4]) := by decide +kernel
    have hother : EndsIn (fun _ => False)
        (fun src => EndsIn (fun _ => False) (fun r => r.2.find? "Promise" = some ⟨5⟩)
          (compile src.tree (src.interner.intern "other").2 .default))
        (Source.build ⟨0⟩ .empty Form.hoistedBeforePrint [1, 2, 4]) := by decide +kernel
    obtain ⟨src, hbuild, hsrc⟩ := hrun.exists_eq_ok
    obtain ⟨⟨outcome, J⟩, hcompile, houtcome⟩ := hsrc.exists_eq_ok
    obtain ⟨out, rfl, hout⟩ := houtcome.exists_eq_ok
    injection hout with hpromise hhoists
    have hspelled := Source.spelled_of_build hbuild
    have hextends := src.interner.extends_intern "other"
    have hsame := compile_same_outcome Enumeration.bySpelling_dependsOnSpellings hspelled hextends
      .default
    rw [hcompile] at hsame
    generalize hcompile' : compile src.tree (src.interner.intern "other").2 .default = result
      at hsame
    cases hsame with
    | output _ htext htext' =>
      have hpromise' := (hother.of_ok hbuild).of_ok hcompile'
      exact ⟨src, out, J, _, hbuild, hspelled, hextends, hcompile, hcompile', hhoists,
        Prod.ext hpromise hpromise', _, htext, htext'⟩
  · have hrun : EndsIn (fun _ => False)
        (fun src =>
          EndsIn (fun _ => False)
            (fun r => EndsIn (· = .resolution [.undefinedName ⟨0⟩ ⟨⟨0⟩, ⟨0, 4⟩⟩ [⟨2⟩]])
              (fun _ => False) r.1)
            (compile src.tree src.interner .default .byDefinition) ∧
          EndsIn (fun _ => False)
            (fun r => EndsIn (· = .resolution [.undefinedName ⟨0⟩ ⟨⟨0⟩, ⟨0, 4⟩⟩ [⟨3⟩]])
              (fun _ => False) r.1)
            (compile src.tree (src.interner.intern "other").2 .default .byDefinition))
        (Source.build ⟨0⟩ .empty [.identifier "prnt", .expressionStatement 0] [1]) := by
      decide +kernel
    obtain ⟨src, hbuild, hsrc, houtcome'⟩ := hrun.exists_eq_ok
    obtain ⟨⟨outcome, J⟩, hcompile, houtcome⟩ := hsrc.exists_eq_ok
    have hspelled := Source.spelled_of_build hbuild
    have hextends := src.interner.extends_intern "other"
    have hsame := compile_same_outcome Enumeration.byDefinition_dependsOnSpellings hspelled
      hextends .default
    rw [hcompile] at hsame
    generalize hcompile' :
      compile src.tree (src.interner.intern "other").2 .default .byDefinition = result at hsame
    rw [hcompile'] at houtcome'
    cases hsame with
    | output _ _ _ => exact houtcome.elim
    | internal _ => cases houtcome
    | resolution hreports =>
      obtain rfl := CompileError.resolution.inj houtcome
      obtain rfl := CompileError.resolution.inj houtcome'
      refine ⟨src, J, _, hbuild, hspelled, hextends, hcompile, hcompile', ?_⟩
      cases (List.forall₂_cons.1 hreports).1 with
      | undefinedName _ _ hsuggestions => exact (List.forall₂_cons.1 hsuggestions).1

end Predeclare
