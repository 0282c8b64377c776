import Mathlib.Logic.Equiv.Basic
import Predeclare.Proofs.Lowering.FaultFree
import Predeclare.Proofs.Lowering.Options
import Predeclare.Proofs.Renaming.Script

set_option relaxedAutoImplicit false
set_option autoImplicit false

/-!
# Compiling a script with its texts replaced

Binding and hoisting never look at a spelling: they ask whether two names are equal, and nothing
else. So if the texts of a script are replaced in such a way that different texts stay different and
those of the globals stay what they are, the unit is compiled in the same way. The hoist plan is the
same, and the references are lowered to the same expressions, in which the spelling of a reference
is replaced where it is kept.

## Main definitions

* `Expression.rename` — an expression with the spelling of a reference replaced.

## Main results

* `SyntaxTree.Renames.visit` — a reference is announced where it was.
* `CompilerOptions.form_rename` — the expression of a reference with its spelling replaced.
* `compile_rename` — compiling a script with its texts replaced.
-/

namespace Predeclare

variable {n : Nat} {E E' : Enumeration}

/-! ## Hoisting -/

namespace SyntaxTree.Renames

variable {g : Name → Name} {t t' : SyntaxTree n}

/-- The identifiers are the same, in the same order. -/
lemma identifiers (h : Renames g t t') : t'.identifiers = t.identifiers := by
  rw [identifiers_eq, identifiers_eq, h.preorder, h.root, h.kind]

/-- Declarations belong to the same statements. -/
lemma declarationStatement (h : Renames g t t') :
    t'.declarationStatement = t.declarationStatement := by
  funext i
  have hends : t'.endsStatementSearch = t.endsStatementSearch := by
    funext a
    simp only [endsStatementSearch, h.kind]
  simp only [SyntaxTree.declarationStatement, h.kind, h.ancestors, hends]

/-- Nodes lie under the same children. -/
lemma childTowards (h : Renames g t t') : t'.childTowards = t.childTowards := by
  funext p i
  simp only [SyntaxTree.childTowards, h.ancestors, h.parent]

/-- A reference asks for the same. -/
lemma placement (h : Renames g t t') (model : SemanticModel (Fin n)) :
    Predeclare.placement t' model = Predeclare.placement t model := by
  have hblock : t'.isBlockLike = t.isBlockLike := by
    funext i
    simp only [isBlockLike, h.kind]
  have hlist : placementInList t' = placementInList t := by
    funext block declaring sibling
    simp only [placementInList, h.statements, h.kind]
  funext r s
  simp only [Predeclare.placement, h.declarationStatement, h.parent, hblock, h.childTowards, h.kind,
    hlist]

/-- **A reference is announced where it was.** -/
theorem visit (h : Renames g t t') (model : SemanticModel (Fin n)) :
    HoistState.visit t' model = HoistState.visit t model := by
  funext state i
  simp only [HoistState.visit, HoistState.checkHoist, h.placement]

/-- An identifier can be lowered if it could.

**Proof sketch.** Where all names have spellings, lowering fails only at an identifier without a
text or below another, and both conditions are about the shape. -/
lemma loweringFailure?_eq_none_iff (h : Renames g t t') {J J' : Interner} (hspelled : t.Spelled J)
    (hspelled' : t'.Spelled J') {i : Fin n} :
    t'.loweringFailure? J' i = none ↔ t.loweringFailure? J i = none := by
  have hiff : ∀ {t : SyntaxTree n} {J : Interner}, t.Spelled J →
      (t.loweringFailure? J i = none ↔ t.text i ≠ none ∧ ¬ t.BelowIdentifier i) := by
    intro t J hspelled
    simp only [loweringFailure?]
    cases htext : t.text i with
    | none => simp
    | some name =>
      obtain ⟨s, hs⟩ := hspelled i name htext
      simp [hs, Except.toOption]
  rw [hiff hspelled', hiff hspelled, h.belowIdentifier_iff, h.text, ne_eq, Option.map_eq_none_iff]

end SyntaxTree.Renames

/-! ## Expressions -/

/-- An expression with its spelling replaced, if it is that of a reference that keeps its
spelling. -/
def Expression.rename (f : String → String) : Expression → Expression
  | identifier x => identifier (f x)
  | e => e

/-- The expression does not start with an empty name if it did not, and if other names are not
replaced by the empty one. -/
lemma Expression.head?_rename_ne {f : String → String} (hempty : ∀ s, s ≠ "" → f s ≠ "")
    {e : Expression} (h : e.head? ≠ some "") : (e.rename f).head? ≠ some "" := by
  cases e with
  | identifier x => simpa [rename, head?] using hempty x (by simpa [head?] using h)
  | nil => exact h
  | string _ => exact h
  | property _ _ => exact h

/-- **The expression of a reference with its spelling replaced** has this spelling replaced, where
it is kept. -/
theorem CompilerOptions.form_rename (options : CompilerOptions) (promise version s : SymbolId)
    (f : String → String) (x : String) :
    options.form promise version s (f x) = (options.form promise version s x).rename f := by
  simp only [form]
  split
  · rfl
  · split
    · rfl
    · split
      · cases options.packageVersion <;> rfl
      · rfl

/-! ## Units -/

section Units

variable {t t' : SyntaxTree n} {I I' J J' : Interner} {f : String → String} {globals : List Name}
  {B B' : Binding n} {options : CompilerOptions} {out out' : UnitOutput n}

/-- A global whose spelling stays has the same symbol. -/
lemma SyntaxTree.Renames.globalNamed?_eq (hf : f.Injective)
    (hB : B.Covers t globals (t.surface t.root))
    (hB' : B'.Covers t' (globals.map (J.translate J' f)) (t'.surface t'.root)) {x : String}
    (hfix : f x = x) {name : Name} (hx : J.spelling name = .ok x)
    (hknown : J'.Knows (J.translate J' f name)) :
    B'.symbols.globalNamed? J' x = B.symbols.globalNamed? J x := by
  have hx' : J'.spelling (J.translate J' f name) = .ok x :=
    (Interner.spelling_translate hx hknown).trans (congrArg Except.ok hfix)
  simp only [SymbolTable.globalNamed?]
  rw [Interner.find?_eq_some_iff.2 hx, Interner.find?_eq_some_iff.2 hx', Option.bind_some,
    Option.bind_some, SyntaxTree.Renames.global?_eq (Interner.translate_injective hf) hB hB']

/-- Two bound units that differ in their names only, which are matched through their spellings. The
globals keep their spellings. -/
structure RenamedUnits (f : String → String) (t t' : SyntaxTree n) (J J' : Interner)
    (globals : List Name) (B B' : Binding n) : Prop where
  injective : f.Injective
  renames : t.Renames (J.translate J' f) t'
  spelled : t.Spelled J
  spelled' : t'.Spelled J'
  fixes : ∀ x ∈ "undefined" :: defaultGlobals, f x = x
  names : globals.map J.spelling = ("undefined" :: defaultGlobals).map .ok
  names' : (globals.map (J.translate J' f)).map J'.spelling =
    ("undefined" :: defaultGlobals).map .ok
  covers : B.Covers t globals (t.surface t.root)
  covers' : B'.Covers t' (globals.map (J.translate J' f)) (t'.surface t'.root)

namespace RenamedUnits

/-- The globals of both units have their names. -/
lemma globalNames (h : RenamedUnits f t t' J J' globals B B') :
    GlobalNames J defaultGlobals globals :=
  .of_map_spelling (by decide) h.names

lemma globalNames' (h : RenamedUnits f t t' J J' globals B B') :
    GlobalNames J' defaultGlobals (globals.map (J.translate J' f)) :=
  .of_map_spelling (by decide) h.names'

/-- Lowering asks the same questions about both units. -/
lemma model_eq (h : RenamedUnits f t t' J J' globals B B') : B'.symbols.model = B.symbols.model :=
  h.renames.model_eq (Interner.translate_injective h.injective) h.covers h.covers'

/-- References are bound to the same symbols. -/
lemma reference?_eq (h : RenamedUnits f t t' J J' globals B B') (r : Fin n) :
    B'.symbols.reference? r = B.symbols.reference? r :=
  congrFun (congrArg SemanticModel.symbolAt h.model_eq) r

/-- The globals have the same symbols. -/
lemma globalNamed?_eq (h : RenamedUnits f t t' J J' globals B B') {x : String}
    (hx : x ∈ "undefined" :: defaultGlobals) :
    B'.symbols.globalNamed? J' x = B.symbols.globalNamed? J x := by
  obtain ⟨name, hname, hspelling⟩ := h.globalNames.named x hx
  exact SyntaxTree.Renames.globalNamed?_eq h.injective h.covers h.covers' (h.fixes x hx) hspelling
    (h.globalNames'.knows _ (List.mem_map_of_mem hname))

/-- A reference has the replaced spelling. -/
lemma spelling_eq (h : RenamedUnits f t t' J J' globals B B') {r : Fin n} {name name' : Name}
    {x x' : String} (hname : t.text r = some name) (hx : J.spelling name = .ok x)
    (hname' : t'.text r = some name') (hx' : J'.spelling name' = .ok x') : x' = f x := by
  rw [h.renames.text, hname, Option.map_some] at hname'
  obtain rfl := Option.some.inj hname'
  exact Except.ok.inj (hx'.symm.trans (Interner.spelling_translate hx ⟨x', hx'⟩))

/-- The expression of a reference of the one unit is that of the reference of the other with its
spelling replaced, and starts with an empty name only if that does. -/
lemma form_eq (h : RenamedUnits f t t' J J' globals B B') (hcompiled : Compiled t J globals B out)
    (hcompile : compile t I options E = .ok (.ok out, J))
    (hbind : bind t I defaultGlobals E = .ok (B, J)) {promise version : SymbolId}
    (hpromise : B.symbols.globalNamed? J "Promise" = some promise)
    (hversion : B.symbols.globalNamed? J "PKG_VERSION" = some version) {r : Fin n}
    (hr : r ∈ t.identifiers) {s : SymbolId} {name' : Name} {x' : String}
    (hs : B.symbols.reference? r = some s) (hname' : t'.text r = some name')
    (hx' : J'.spelling name' = .ok x') :
    ∃ e, out.expression? r = some e ∧ e.head? ≠ some "" ∧
      options.form promise version s x' = e.rename f := by
  obtain ⟨s₀, name, x, e, hs₀, hname, hx, hchecked, hexpression⟩ :=
    hcompiled.exists_checked_form hcompile hbind hpromise hversion hr
  obtain rfl : s = s₀ := Option.some.inj (hs.symm.trans hs₀)
  obtain ⟨hhead, rfl⟩ := Expression.checked_eq_ok_iff.1 hchecked
  refine ⟨_, hexpression, hhead, ?_⟩
  rw [h.spelling_eq hname hx hname' hx', CompilerOptions.form_rename]

/-- The names of the builtin globals stand for the same symbols in both units. -/
lemma exists_builtins (h : RenamedUnits f t t' J J' globals B B') :
    ∃ promise version, B.symbols.globalNamed? J "Promise" = some promise ∧
      B.symbols.globalNamed? J "PKG_VERSION" = some version ∧
      B'.symbols.globalNamed? J' "Promise" = some promise ∧
      B'.symbols.globalNamed? J' "PKG_VERSION" = some version := by
  obtain ⟨promise, hpromise⟩ :=
    h.covers.exists_globalNamed? h.globalNames (x := "Promise") (by decide)
  obtain ⟨version, hversion⟩ :=
    h.covers.exists_globalNamed? h.globalNames (x := "PKG_VERSION") (by decide)
  exact ⟨promise, version, hpromise, hversion,
    (h.globalNamed?_eq (x := "Promise") (by decide)).trans hpromise,
    (h.globalNamed?_eq (x := "PKG_VERSION") (by decide)).trans hversion⟩

/-- If one unit is compiled, so is the other without breaking a promise: none of its expressions
starts with an empty name.

**Proof sketch.** `exists_compile_eq_ok` asks that no expression starts with an empty name.
`form_eq` gives the expression of a reference as the renamed one of the other unit, which has passed
the check, and `Expression.head?_rename_ne` says that renaming makes no name empty. -/
lemma exists_outcome (h : RenamedUnits f t t' J J' globals B B')
    (hcompiled : Compiled t J globals B out) (hcompile : compile t I options E = .ok (.ok out, J))
    (hbind : bind t I defaultGlobals E = .ok (B, J))
    (hbind' : bind t' I' defaultGlobals E' = .ok (B', J')) (hempty : ∀ s, s ≠ "" → f s ≠ "") :
    ∃ outcome, compile t' I' options E' = .ok (outcome, J') := by
  obtain ⟨promise, version, hpromise, hversion, hpromise', hversion'⟩ := h.exists_builtins
  refine exists_compile_eq_ok options hbind' h.spelled' h.globalNames' h.covers' ?_
  intro promise' version' r s name' x' hp hv hs hname' hx'
  obtain rfl := Option.some.inj (hpromise'.symm.trans hp)
  obtain rfl := Option.some.inj (hversion'.symm.trans hv)
  obtain ⟨hsurface, hkind, _⟩ := h.covers'.reference?_eq_some_iff.1 hs
  have hr : r ∈ t.identifiers := h.renames.identifiers ▸ SyntaxTree.mem_identifiers_iff.2
    ⟨(SyntaxTree.mem_surface_root_iff.1 hsurface).1, hkind⟩
  obtain ⟨e, _, hhead, hform⟩ := h.form_eq hcompiled hcompile hbind hpromise hversion hr
    ((h.reference?_eq r).symm.trans hs) hname' hx'
  exact hform ▸ Expression.head?_rename_ne hempty hhead

/-- The expressions of the two units are the same, but for the spellings in them.

**Proof sketch.** Both outputs have expressions for the same identifiers, and each is the form of
the symbol and the spelling of its identifier. The symbols are the same, and `form_eq` compares the
forms. -/
lemma expression?_eq {out' : UnitOutput n} (h : RenamedUnits f t t' J J' globals B B')
    (hcompiled : Compiled t J globals B out) (hcompile : compile t I options E = .ok (.ok out, J))
    (hbind : bind t I defaultGlobals E = .ok (B, J))
    (hcompiled' : Compiled t' J' (globals.map (J.translate J' f)) B' out')
    (hcompile' : compile t' I' options E' = .ok (.ok out', J'))
    (hbind' : bind t' I' defaultGlobals E' = .ok (B', J')) (r : Fin n) :
    out'.expression? r = (out.expression? r).map (Expression.rename f) := by
  obtain ⟨promise, version, hpromise, hversion, hpromise', hversion'⟩ := h.exists_builtins
  by_cases hr : r ∈ t.identifiers
  · have hr' : r ∈ t'.identifiers := h.renames.identifiers.symm ▸ hr
    obtain ⟨s, name', x', hs, hname', hx', hexpression'⟩ :=
      hcompiled'.exists_form hcompile' hbind' hpromise' hversion' hr'
    obtain ⟨e, hexpression, _, hform⟩ := h.form_eq hcompiled hcompile hbind hpromise hversion hr
      ((h.reference?_eq r).symm.trans hs) hname' hx'
    rw [hexpression', hexpression, hform, Option.map_some]
  · have hnone : out.expression? r = none := OrderedMap.get?_eq_none_iff.2 (hcompiled.keys ▸ hr)
    have hnone' : out'.expression? r = none :=
      OrderedMap.get?_eq_none_iff.2 (hcompiled'.keys ▸ h.renames.identifiers ▸ hr)
    rw [hnone, hnone', Option.map_none]

/-- **A unit with replaced names is compiled in the same way.**

**Proof sketch.** Binding reports nothing, since it did not before. No expression starts with an
empty name, since none did and names are not replaced by the empty one; so the compilation ends
well. The identifiers are visited in the same order, and each visit asks the same questions about
the same tree, so the hoist plans are the same. -/
theorem compile_eq (h : RenamedUnits f t t' J J' globals B B')
    (hcompiled : Compiled t J globals B out)
    (hcompile : compile t I options E = .ok (.ok out, J))
    (hbind : bind t I defaultGlobals E = .ok (B, J)) (hspelled' : t'.Spelled I')
    (hbind' : bind t' I' defaultGlobals E' = .ok (B', J')) (hempty : ∀ s, s ≠ "" → f s ≠ "") :
    ∃ out', compile t' I' options E' = .ok (.ok out', J') ∧ out'.hoists = out.hoists ∧
      out'.expressions.entries =
        out.expressions.entries.map (Prod.map id (Expression.rename f)) := by
  have herrors' : B'.errors = [] :=
    (h.renames.errors_eq_nil_iff (Interner.translate_injective h.injective) h.covers h.covers').2
      hcompiled.no_errors
  have hfailure : t'.identifiers.findSome? (t'.loweringFailure? J') = none := by
    rw [h.renames.identifiers, List.findSome?_eq_none_iff]
    exact fun i hi => (h.renames.loweringFailure?_eq_none_iff h.spelled h.spelled').2
      (hcompiled.no_failure i hi)
  obtain ⟨outcome, hcompile'⟩ := h.exists_outcome hcompiled hcompile hbind hbind' hempty
  obtain ⟨_, _, _, hends⟩ := endsIn_compile hspelled' options
  obtain ⟨rfl, B'', hbind'', -, hlowered⟩ := hends.of_ok hcompile'
  obtain ⟨rfl, -⟩ := Prod.mk.inj (Except.ok.inj (hbind'.symm.trans hbind''))
  have hlowered := hlowered herrors'
  rw [hfailure] at hlowered
  obtain ⟨out', rfl, hcompiled'⟩ := hlowered
  -- This is about globals that the compilation has found; the replaced ones serve as well.
  have hcompiled' : Compiled t' J' (globals.map (J.translate J' f)) B' out' :=
    { hcompiled' with
      globalNames := h.globalNames'
      covers := h.covers' }
  refine ⟨out', hcompile', ?_, OrderedMap.entries_eq_map ?_ ?_⟩
  · rw [hcompiled'.hoists, hcompiled.hoists, h.model_eq, h.renames.identifiers,
      h.renames.visit]
  · rw [hcompiled'.keys, hcompiled.keys, h.renames.identifiers]
  · exact h.expression?_eq hcompiled hcompile hbind hcompiled' hcompile' hbind'

end RenamedUnits

end Units

/-! ## Scripts -/

/-- **Compiling a script with its texts replaced.** Suppose that a script is built into a tree which
is compiled into an output, and that its texts are replaced by `f`, which keeps different texts
different, keeps the names of the globals, and gives the empty text to no other one. Unless the
replaced texts are so long that offsets run out, the script is built into a tree over the same
nodes, whatever else the interner knows, and the tree is compiled into an output, whatever the
interner has learned since. The hoist plan is the same, references are bound to the same symbols
with the same declarations, and the references of the output come in the same order. Their
expressions are the same, except that the spelling of a reference is replaced where it is kept. The
order in which scopes list their names has no influence.

**Proof sketch.** The tree with the replaced texts has the same shape, by
`Source.endsIn_build_rename`, and its names are those of the first tree, translated. Both trees are
bound, with globals that match, to bindings that `Binding.Covers` determines from the trees; so the
two bindings match as well. This is what `RenamedUnits` gathers, and `RenamedUnits.compile_eq`
compares the outputs. No step looks into suggestions, the only place in which the listing of names
matters, since a unit with an output has none. -/
theorem compile_rename {file file' : FileId} {I₀ I₀' I J : Interner} {forms : List (Form Nat)}
    {statements : List Nat} {src : Source} {options : CompilerOptions} {out : UnitOutput src.size}
    {f : String → String} (hbuild : Source.build file I₀ forms statements = .ok src)
    (hI : I.Extends src.interner) (hcompile : compile src.tree I options E = .ok (.ok out, J))
    (hinjective : f.Injective) (hfixes : ∀ x ∈ "undefined" :: defaultGlobals, f x = x)
    (hempty : ∀ s, s ≠ "" → f s ≠ "")
    (hoffsets : Source.build file' I₀' (forms.map (Form.rename f)) statements ≠
      .error .offsetOverflow) :
    ∃ (t' : SyntaxTree src.size) (I₁' : Interner),
      Source.build file' I₀' (forms.map (Form.rename f)) statements = .ok ⟨src.size, t', I₁'⟩ ∧
      ∀ I', I'.Extends I₁' → ∃ out' B J' B', compile t' I' options E' = .ok (.ok out', J') ∧
        bind src.tree I defaultGlobals E = .ok (B, J) ∧
        bind t' I' defaultGlobals E' = .ok (B', J') ∧
        (∀ r, B'.symbols.reference? r = B.symbols.reference? r) ∧
        (∀ s, B'.symbols.valueDeclaration s = B.symbols.valueDeclaration s) ∧
        out'.hoists = out.hoists ∧
        out'.expressions.entries =
          out.expressions.entries.map (Prod.map id (Expression.rename f)) := by
  have hends := Source.endsIn_build_rename f I₀' file' hbuild
  obtain ⟨t', I₁', hbuild', hkind, hchildren⟩ : ∃ t' I₁',
      Source.build file' I₀' (forms.map (Form.rename f)) statements = .ok ⟨src.size, t', I₁'⟩ ∧
        t'.kind = src.tree.kind ∧ t'.children = src.tree.children := by
    cases hsrc' : Source.build file' I₀' (forms.map (Form.rename f)) statements with
    | error fault => exact absurd (hends.of_error hsrc' ▸ hsrc') hoffsets
    | ok src' =>
      obtain ⟨t', heq, hkind, hchildren⟩ := hends.of_ok hsrc'
      exact ⟨t', src'.interner, congrArg _ heq, hkind, hchildren⟩
  refine ⟨t', I₁', hbuild', fun I' hI' => ?_⟩
  have hspelled := (Source.spelled_of_build hbuild).extends hI
  have hspelled' : t'.Spelled I' := (Source.spelled_of_build hbuild').extends hI'
  obtain ⟨B, _, hbind, hcompiled⟩ := compiled_of_compile hspelled hcompile
  obtain ⟨globals, hJ, hnames, hcovers⟩ := covers_bind_ordered hspelled (by decide) hbind
  -- Binding makes the globals known, so names are matched in the interners that come after it.
  have hrenames : ∀ {J'}, J'.Extends I₁' → src.tree.Renames (J.translate J' f) t' :=
    Source.renames_of_build hbuild hbuild' hkind hchildren (hJ.trans hI)
  obtain ⟨B', J', _, hbind', _⟩ := exists_bind_eq_ok hspelled' defaultGlobals
    fun fault => (hrenames hI').not_misdeclares hcovers fault
  obtain ⟨globals', hJ', hnames', hcovers'⟩ := covers_bind_ordered hspelled' (by decide) hbind'
  obtain rfl : globals' = globals.map (J.translate J' f) :=
    Interner.map_translate_eq hfixes hnames hnames'
  have hunits : RenamedUnits f src.tree t' J J' globals B B' :=
    { injective := hinjective
      renames := hrenames (hJ'.trans hI')
      spelled := hspelled.extends hJ
      spelled' := hspelled'.extends hJ'
      fixes := hfixes
      names := hnames
      names' := hnames'
      covers := hcovers
      covers' := hcovers' }
  have hcompiled : Compiled src.tree J globals B out :=
    { hcompiled with
      globalNames := hunits.globalNames
      covers := hcovers }
  obtain ⟨out', hcompile', hhoists, hentries⟩ :=
    hunits.compile_eq hcompiled hcompile hbind hspelled' hbind' hempty
  exact ⟨out', B, J', B', hcompile', hbind, hbind', hunits.reference?_eq,
    fun s => congrFun (congrArg SemanticModel.valueDeclaration hunits.model_eq) s, hhoists,
    hentries⟩

/-- The forms of `print; i; total; let i; let total; PKG_VERSION`. -/
def Form.twoHoisted : List (Form Nat) :=
  [identifier "print", expressionStatement 0, identifier "i", expressionStatement 2,
    identifier "total", expressionStatement 4, letStatement "i" none, letStatement "total" none,
    identifier "PKG_VERSION", expressionStatement 8]

/-- With `i` and `total` swapped the offsets are different, and so is the order in which the
interner comes to know the names. The plan is the same. -/
theorem compile_rename_swapped :
    ∃ src out J, Source.build ⟨0⟩ .empty Form.twoHoisted [1, 3, 5, 6, 7, 9] = .ok src ∧
      src.interner.Extends src.interner ∧
      compile src.tree src.interner .default = .ok (.ok out, J) ∧
      Function.Injective (Equiv.swap "i" "total") ∧
      (∀ x ∈ "undefined" :: defaultGlobals, Equiv.swap "i" "total" x = x) ∧
      (∀ s, s ≠ "" → Equiv.swap "i" "total" s ≠ "") ∧
      Source.build ⟨0⟩ .empty (Form.twoHoisted.map (Form.rename (Equiv.swap "i" "total")))
        [1, 3, 5, 6, 7, 9] ≠ .error .offsetOverflow ∧
      ∃ (t' : SyntaxTree src.size) (I' J' : Interner) (out' : UnitOutput src.size),
        Source.build ⟨0⟩ .empty (Form.twoHoisted.map (Form.rename (Equiv.swap "i" "total")))
          [1, 3, 5, 6, 7, 9] = .ok ⟨src.size, t', I'⟩ ∧
        compile t' I' .default = .ok (.ok out', J') ∧
        (out'.hoists.entries.map fun e => (e.1.val, e.2.map Fin.val)) = [(3, [2]), (5, [4])] ∧
        (out'.expressions.entries.map fun e => (e.1.val, e.2)) =
          [(0, .identifier "print"), (2, .identifier "total"), (4, .identifier "i"),
            (12, .nil)] := by
  have hrun : EndsIn (fun _ => False)
      (fun src => EndsIn (fun _ => False)
        (fun r => EndsIn (fun _ => False)
          (fun out => (out.expressions.entries.map (fun e => (e.1.val, e.2)),
              out.hoists.entries.map (fun e => (e.1.val, e.2.map Fin.val))) =
            ([(0, .identifier "print"), (2, .identifier "i"), (4, .identifier "total"), (12, .nil)],
              [(3, [2]), (5, [4])])) r.1)
        (compile src.tree src.interner .default))
      (Source.build ⟨0⟩ .empty Form.twoHoisted [1, 3, 5, 6, 7, 9]) := by decide +kernel
  have hoffsets : EndsIn (fun _ => False) (fun _ => True)
      (Source.build ⟨0⟩ .empty (Form.twoHoisted.map (Form.rename (Equiv.swap "i" "total")))
        [1, 3, 5, 6, 7, 9]) := by decide +kernel
  obtain ⟨src, hbuild, hsrc⟩ := hrun.exists_eq_ok
  obtain ⟨⟨outcome, J⟩, hcompile, houtcome⟩ := hsrc.exists_eq_ok
  obtain ⟨out, rfl, hout⟩ := houtcome.exists_eq_ok
  injection hout with hexpressions hhoists
  have hI := Interner.Extends.refl src.interner
  have hinjective := (Equiv.swap "i" "total").injective
  have hfixes : ∀ x ∈ "undefined" :: defaultGlobals, Equiv.swap "i" "total" x = x := by decide
  have hempty : ∀ s, s ≠ "" → Equiv.swap "i" "total" s ≠ "" := by
    intro s hs hswap
    exact hs (hinjective (hswap.trans (by decide)))
  have hlong : Source.build ⟨0⟩ .empty
      (Form.twoHoisted.map (Form.rename (Equiv.swap "i" "total"))) [1, 3, 5, 6, 7, 9] ≠
      .error .offsetOverflow :=
    fun h => hoffsets.of_error h
  obtain ⟨t', I', hbuild', hcompiles⟩ := compile_rename hbuild hI hcompile hinjective
    hfixes hempty hlong
  obtain ⟨out', _, J', _, hcompile', _, _, _, _, hhoists', hentries'⟩ :=
    hcompiles I' (Interner.Extends.refl I')
  refine ⟨src, out, J, hbuild, hI, hcompile, hinjective, hfixes, hempty, hlong, t', I', J', out',
    hbuild', hcompile', by rw [hhoists', hhoists], ?_⟩
  calc (out'.expressions.entries.map fun e => (e.1.val, e.2))
      = (out.expressions.entries.map fun e => (e.1.val, e.2)).map
          (Prod.map id (Expression.rename (Equiv.swap "i" "total"))) := by
        rw [hentries', List.map_map, List.map_map]
        rfl
    _ = [(0, .identifier "print"), (2, .identifier "total"), (4, .identifier "i"), (12, .nil)] := by
        rw [hexpressions]
        decide

end Predeclare
