import Predeclare.Proofs.Lowering.FirstEarly
import Predeclare.Proofs.Tree.Texts

set_option relaxedAutoImplicit false
set_option autoImplicit false

/-!
# What references are lowered to

The expression of a reference is determined by the symbol that the reference is bound to. The
undefined value and the builtin names are recognised by their symbols, not by their spellings: a
declaration of the same name is a symbol of its own, and references to it are lowered and announced
like those of any other name.

## Main definitions

* `SymbolTable.globalNamed?` — the global symbol with a spelling.
* `CompilerOptions.form` — what a reference to a symbol is lowered to.
* `Expression.checked` — an expression, unless it starts with an empty name.

## Main results

* `Binding.Covers.lowerIdentifier_eq` — the expression of one reference.
* `expressions_exact` — the expressions of a compiled unit.
-/

namespace Predeclare

variable {n : Nat} {E : Enumeration}

/-- The global symbol with a spelling. -/
def SymbolTable.globalNamed? {ν : Type} (T : SymbolTable ν) (J : Interner) (spelling : String) :
    Option SymbolId :=
  (J.find? spelling).bind T.global?

/-- A symbol is that of a spelling if it is that of the name with this spelling. -/
lemma SymbolTable.globalNamed?_eq_some_iff {ν : Type} {T : SymbolTable ν} {J : Interner}
    {x : String} {s : SymbolId} :
    T.globalNamed? J x = some s ↔ ∃ g, J.spelling g = .ok x ∧ T.global? g = some s := by
  simp only [globalNamed?, Option.bind_eq_some_iff, Interner.find?_eq_some_iff]

/-- What a reference with the spelling `x` is lowered to, if it is bound to `s` and the builtin
names have the symbols `promise` and `version`. -/
def CompilerOptions.form (options : CompilerOptions) (promise version s : SymbolId) (x : String) :
    Expression :=
  if s = SymbolTable.undefinedSymbol then .nil
  else if options.builtins ∧ s = promise then
    .property (.identifier options.runtimeLibrary) "Promise"
  else if options.builtins ∧ s = version then options.packageVersion.elim .nil .string
  else .identifier x

/-! ## The ways of lowering -/

namespace Expression

/-- The name that an expression starts with, if it starts with a name. -/
def head? : Expression → Option String
  | nil => none
  | identifier name => some name
  | string _ => none
  | property object _ => object.head?

/-- The expression, unless it starts with an empty name. -/
def checked (e : Expression) : Except Fault Expression :=
  if e.head? = some "" then .error .emptyIdentifier else .ok e

/-- An expression that does not start with an empty name passes the check. -/
lemma checked_eq_ok_iff {e e' : Expression} :
    e.checked = .ok e' ↔ e.head? ≠ some "" ∧ e = e' := by
  unfold checked
  split <;> simp_all

/-- The expression of a name is an identifier that is checked. -/
lemma named_eq_checked (name : String) : named name = (identifier name).checked := by
  simp [named, checked, head?]

end Expression

section Ways

variable {ctx : LowerContext n} {i : Fin n}

/-- A named identifier that is lowered by spelling becomes an identifier with this spelling. -/
lemma LowerContext.lowerPlain_eq (hkind : ctx.tree.kind i = .identifier) {name : Name}
    (hname : ctx.tree.text i = some name) {x : String}
    (hx : ctx.interner.spelling name = .ok x) :
    ctx.lowerPlain i = (Expression.identifier x).checked.map .ok := by
  rw [lowerPlain_eq_named hkind hname hx, Expression.named_eq_checked]

/-- Promises become a property of the runtime library. -/
lemma Builtin.promise_eq (state : HoistState n) :
    promise ctx state i =
      (Expression.property (.identifier ctx.options.runtimeLibrary) "Promise").checked.map
        fun e => (e, state) := by
  simp only [promise, Expression.named, Expression.checked, Expression.head?, Option.some.injEq]
  split <;> rfl

/-- The package version becomes a string, or nil if it is not known. -/
lemma Builtin.packageVersion_eq (state : HoistState n) :
    packageVersion ctx state i =
      (ctx.options.packageVersion.elim .nil .string : Expression).checked.map
        fun e => (e, state) := by
  simp only [packageVersion]
  cases ctx.options.packageVersion <;> rfl

end Ways

/-! ## The expanders of a unit -/

namespace ExpanderTable

variable {symbols : SymbolTable (Fin n)} {J : Interner}

/-- Registering a builtin name gives its global symbol an expander. -/
lemma get?_registerGlobal (table : ExpanderTable n) (entry : String × Expander n) (s : SymbolId) :
    (table.registerGlobal symbols J entry).get? s =
      if symbols.globalNamed? J entry.1 = some s then some entry.2 else table.get? s := by
  simp only [registerGlobal]
  rw [← SymbolTable.globalNamed?]
  cases symbols.globalNamed? J entry.1 with
  | none => rfl
  | some s₀ =>
    simp only [get?, register, OrderedMap.get?_insert, Option.some.injEq]
    by_cases hs : s = s₀
    · simp [hs]
    · simp [hs, Ne.symm hs]

/-- The expanders of a unit are those of the builtin names, if they are asked for. -/
lemma get?_expanders (options : CompilerOptions) {promise version : SymbolId}
    (hpromise : symbols.globalNamed? J "Promise" = some promise)
    (hversion : symbols.globalNamed? J "PKG_VERSION" = some version) (s : SymbolId) :
    (options.expanders symbols J : ExpanderTable n).get? s =
      if options.builtins then
        if s = version then some Builtin.packageVersion
        else if s = promise then some Builtin.promise else none
      else none := by
  simp only [CompilerOptions.expanders]
  split
  · simp only [ofBuiltins, Builtin.all, List.foldl_cons, List.foldl_nil, get?_registerGlobal,
      hpromise, hversion, Option.some.injEq]
    simp only [eq_comm (b := s)]
    rfl
  · rfl

end ExpanderTable

/-! ## The builtin names -/

namespace Binding.Covers

variable {t : SyntaxTree n} {J : Interner} {spellings : List String} {globals : List Name}
  {B : Binding n} {s : SymbolId} {x y : String}

/-- Every global has a symbol. -/
lemma exists_globalNamed? (h : B.Covers t globals (t.surface t.root))
    (hglobals : GlobalNames J spellings globals) (hx : x ∈ "undefined" :: spellings) :
    ∃ s, B.symbols.globalNamed? J x = some s := by
  obtain ⟨g, hg, hspelling⟩ := hglobals.named x hx
  obtain ⟨s, hs⟩ := h.exists_global? hg
  exact ⟨s, SymbolTable.globalNamed?_eq_some_iff.2 ⟨g, hspelling, hs⟩⟩

/-- Globals with different spellings have different symbols. -/
lemma ne_of_globalNamed? (h : B.Covers t globals (t.surface t.root)) {s' : SymbolId}
    (hx : B.symbols.globalNamed? J x = some s) (hy : B.symbols.globalNamed? J y = some s')
    (hne : x ≠ y) : s ≠ s' := by
  rintro rfl
  obtain ⟨g, hx, hg⟩ := SymbolTable.globalNamed?_eq_some_iff.1 hx
  obtain ⟨g', hy, hg'⟩ := SymbolTable.globalNamed?_eq_some_iff.1 hy
  obtain rfl : g = g' :=
    Option.some.inj ((h.getElem?_of_global? hg).symm.trans (h.getElem?_of_global? hg'))
  exact hne (Except.ok.inj (hx.symm.trans hy))

/-- The undefined value is the global of that spelling. -/
lemma globalNamed?_undefined (h : B.Covers t globals (t.surface t.root))
    (hglobals : GlobalNames J spellings globals) :
    B.symbols.globalNamed? J "undefined" = some SymbolTable.undefinedSymbol := by
  obtain ⟨g, rest, rfl, hspelling⟩ := hglobals.head
  obtain ⟨s, hs⟩ := h.exists_global? (List.mem_cons_self (l := rest))
  have hplace := h.getElem?_of_global? hs
  have hlt : s.index < (g :: rest).length := (List.getElem?_eq_some_iff.1 hplace).1
  have hzero : s.index = 0 := (List.getElem?_inj hlt hglobals.nodup).1 hplace
  obtain rfl : s = SymbolTable.undefinedSymbol := congrArg SymbolId.mk hzero
  exact SymbolTable.globalNamed?_eq_some_iff.2 ⟨g, hspelling, hs⟩

/-- Global symbols have no declaration. -/
lemma valueDeclaration_of_globalNamed? (h : B.Covers t globals (t.surface t.root))
    (hs : B.symbols.globalNamed? J x = some s) : B.symbols.valueDeclaration s = none := by
  obtain ⟨g, _, hg⟩ := SymbolTable.globalNamed?_eq_some_iff.1 hs
  exact h.valueDeclaration_of_global hg

/-! ## One reference -/

/-- A symbol has the name that its declaration has. -/
lemma text_of_declaration (h : B.Covers t globals (t.surface t.root)) {data : Symbol (Fin n)}
    (hdata : B.symbols.symbol? s = some data) {i : Fin n} (hi : data.declaration = some i) :
    t.text i = some data.name := by
  rcases h.symbol?_cases hdata with ⟨g, _, rfl⟩ | ⟨a, _, d, hd, rfl⟩
  · cases hi
  · obtain rfl : d.node = i := Option.some.inj hi
    exact (SyntaxTree.proper_of_mem_scopeDeclarations hd).text

/-- References to declared symbols are lowered to identifiers.

**Proof sketch.** A global has no declaration (`valueDeclaration_of_globalNamed?`). The undefined
symbol and the two builtins are globals, so `s` is none of them and the form falls through to the
identifier. -/
lemma form_of_valueDeclaration (h : B.Covers t globals (t.surface t.root))
    (hglobals : GlobalNames J spellings globals) {promise version : SymbolId}
    (hpromise : B.symbols.globalNamed? J "Promise" = some promise)
    (hversion : B.symbols.globalNamed? J "PKG_VERSION" = some version) {i : Fin n}
    (hi : B.symbols.valueDeclaration s = some i) (options : CompilerOptions) :
    options.form promise version s x = .identifier x := by
  have hnot : ∀ y, B.symbols.globalNamed? J y ≠ some s := by
    intro y hy
    rw [h.valueDeclaration_of_globalNamed? hy] at hi
    cases hi
  have hundefined : s ≠ SymbolTable.undefinedSymbol := fun hs =>
    hnot _ (hs ▸ h.globalNamed?_undefined hglobals)
  have hp : s ≠ promise := fun hs => hnot _ (hs ▸ hpromise)
  have hv : s ≠ version := fun hs => hnot _ (hs ▸ hversion)
  simp only [CompilerOptions.form]
  rw [if_neg hundefined, if_neg fun hs => hp hs.2, if_neg fun hs => hv hs.2]

/-- **Lowering a reference** gives the expression that its symbol and its spelling determine, and
visits the reference. It fails only if the expression would start with an empty name.

**Proof sketch.** The cases of `CompilerOptions.form`: the undefined value, the two builtin names,
any other symbol. They are told apart by the symbol just as the lowering tells them apart, since the
table of expanders has entries for the two builtin symbols only. In the first three cases the symbol
has no declaration, so that the visit changes nothing. -/
theorem lowerIdentifier_eq (h : B.Covers t globals (t.surface t.root)) (hglobals : globals ≠ [])
    {options : CompilerOptions} {promise version : SymbolId}
    (hpromise : B.symbols.globalNamed? J "Promise" = some promise)
    (hversion : B.symbols.globalNamed? J "PKG_VERSION" = some version)
    (state : HoistState n) {r : Fin n} (hs : B.symbols.reference? r = some s) {name : Name}
    (hname : t.text r = some name) (hx : J.spelling name = .ok x) :
    Predeclare.lowerIdentifier ⟨t, J, B.symbols.model, options.toLowerOptions⟩
        (options.expanders B.symbols J) state r =
      (options.form promise version s x).checked.map
        fun e => (.ok e, state.visit t B.symbols.model r) := by
  have hsymbolAt : B.symbols.model.symbolAt r = some s := hs
  have hvisit : state.visit t B.symbols.model r =
      (state.checkHoist t B.symbols.model r s).2 := by
    simp only [HoistState.visit, hsymbolAt]
  -- the undefined value and the builtin names have no declaration that could be announced
  have hstill : B.symbols.valueDeclaration s = none → state.visit t B.symbols.model r = state :=
    fun hnone => hvisit.trans (HoistState.checkHoist_of_no_declaration hnone)
  have htable := ExpanderTable.get?_expanders options hpromise hversion s
  have hne : promise ≠ version := h.ne_of_globalNamed? hpromise hversion (by decide)
  simp only [CompilerOptions.form]
  by_cases hundefined : s = SymbolTable.undefinedSymbol
  · have hnil := h.isUndefined_iff.2 hundefined
    rw [if_pos hundefined, hstill (h.valueDeclaration_of_isUndefined hglobals hnil)]
    exact lowerIdentifier_of_undefined hsymbolAt hnil state
  have hdefined : B.symbols.model.isUndefined s = false :=
    Bool.eq_false_iff.2 fun hs => hundefined (h.isUndefined_iff.1 hs)
  rw [if_neg hundefined]
  by_cases hp : options.builtins = true ∧ s = promise
  · have hv : s ≠ version := fun hv => hne (hp.2.symm.trans hv)
    rw [if_pos hp.1, if_neg hv, if_pos hp.2] at htable
    rw [if_pos hp, hstill (h.valueDeclaration_of_globalNamed? (hp.2 ▸ hpromise)),
      lowerIdentifier_of_expander hsymbolAt hdefined htable, Builtin.promise_eq]
    cases (Expression.property (.identifier options.runtimeLibrary) "Promise").checked <;> rfl
  rw [if_neg hp]
  by_cases hv : options.builtins = true ∧ s = version
  · rw [if_pos hv.1, if_pos hv.2] at htable
    rw [if_pos hv, hstill (h.valueDeclaration_of_globalNamed? (hv.2 ▸ hversion)),
      lowerIdentifier_of_expander hsymbolAt hdefined htable, Builtin.packageVersion_eq]
    cases (options.packageVersion.elim .nil .string : Expression).checked <;> rfl
  · have hplain : (options.expanders B.symbols J : ExpanderTable n).get? s = none := by
      rw [htable]
      split
      · rename_i hbuiltins
        rw [if_neg fun hs => hv ⟨hbuiltins, hs⟩, if_neg fun hs => hp ⟨hbuiltins, hs⟩]
      · rfl
    obtain ⟨_, hkind, _⟩ := h.reference?_eq_some_iff.1 hs
    rw [if_neg hv, lowerIdentifier_of_plain hsymbolAt hdefined hplain, hvisit,
      LowerContext.lowerPlain_eq hkind hname hx]
    cases (Expression.identifier x).checked <;> rfl

end Binding.Covers

/-! ## All references -/

/-- An identifier that was lowered has a symbol. -/
lemma exists_symbolAt_of_lowerIdentifier {ctx : LowerContext n} {table : ExpanderTable n}
    {state state' : HoistState n} {i : Fin n} {e : Expression}
    (hlower : lowerIdentifier ctx table state i = .ok (.ok e, state')) :
    ∃ s, ctx.model.symbolAt i = some s := by
  cases hs : ctx.model.symbolAt i with
  | some s => exact ⟨s, rfl⟩
  | none =>
    rw [lowerIdentifier_of_no_symbol hs, map_eq_ok_iff] at hlower
    obtain ⟨_, _, heq⟩ := hlower
    cases (Prod.mk.inj heq).1

/-- In a list of identifiers that were all lowered, each has the expression that it was lowered to;
any other identifier has the expression that it had before.

**Proof sketch.** Induction on the list. No identifier occurs twice, so what is stored for one is
not replaced later. -/
lemma exists_lowerIdentifier_of_lowerAll {ctx : LowerContext n} {table : ExpanderTable n}
    {l : List (Fin n)} {out out' : UnitOutput n} {state : HoistState n}
    (h : lowerAll ctx table l out state = .ok (.ok out')) (hnodup : l.Nodup) :
    (∀ i ∉ l, out'.expression? i = out.expression? i) ∧
      ∀ i ∈ l, ∃ before e after, lowerIdentifier ctx table before i = .ok (.ok e, after) ∧
        out'.expression? i = some e := by
  induction l generalizing out state with
  | nil =>
    obtain rfl : _ = out' := Except.ok.inj (Except.ok.inj h)
    exact ⟨fun i _ => rfl, fun i hi => absurd hi List.not_mem_nil⟩
  | cons j rest ih =>
    obtain ⟨hj, hrest⟩ := List.nodup_cons.1 hnodup
    simp only [lowerAll, bind_eq_ok_iff, Prod.exists] at h
    obtain ⟨result, state', hlower, hgo⟩ := h
    cases result with
    | error e => cases hgo
    | ok e =>
      obtain ⟨hother, hmem⟩ := ih hgo hrest
      have hget : ∀ i, UnitOutput.expression? { out with expressions := out.expressions.insert j e }
          i = if i = j then some e else out.expression? i :=
        fun i => OrderedMap.get?_insert out.expressions j e i
      refine ⟨fun i hi => ?_, fun i hi => ?_⟩
      · obtain ⟨hij, hi⟩ := not_or.1 (fun hor => hi (List.mem_cons.2 hor))
        rw [hother i hi, hget, if_neg hij]
      · rcases List.mem_cons.1 hi with rfl | hi
        · exact ⟨state, e, state', hlower, by rw [hother i hj, hget, if_pos rfl]⟩
        · exact hmem i hi

/-- What a successful compilation has lowered.

**Proof sketch.** Compiling binds first; the output is that of lowering, or there are errors of
binding. -/
lemma lowerUnit_of_compile {t : SyntaxTree n} {I J : Interner} {options : CompilerOptions}
    {out : UnitOutput n} (h : compile t I options E = .ok (.ok out, J)) {B : Binding n}
    (hbind : bind t I defaultGlobals E = .ok (B, J)) : lowerUnit t J B options = .ok (.ok out) := by
  simp only [compile] at h
  rw [hbind, ok_bind] at h
  dsimp only at h
  split at h
  · obtain ⟨result, hresult, heq⟩ := bind_eq_ok_iff.1 h
    obtain ⟨hmap, -⟩ := Prod.mk.inj (Except.ok.inj heq)
    rw [hresult]
    cases result with
    | error e => cases hmap
    | ok out' =>
      obtain rfl : out' = out := Except.ok.inj hmap
      rfl
  · cases h

/-- The expression of each reference of a compiled unit is the one that its symbol and its spelling
determine, and it has passed the check.

**Proof sketch.** All identifiers are lowered one after the other, so the expression of `r` comes
from one call of `lowerIdentifier`, in some state. The call found a symbol, which is the one that
binding recorded, and `lowerIdentifier_eq` says what it made of it. -/
lemma Compiled.exists_checked_form {t : SyntaxTree n} {I J : Interner} {options : CompilerOptions}
    {globals : List Name} {B : Binding n} {out : UnitOutput n}
    (hcompiled : Compiled t J globals B out) (h : compile t I options E = .ok (.ok out, J))
    (hbind : bind t I defaultGlobals E = .ok (B, J)) {promise version : SymbolId}
    (hpromise : B.symbols.globalNamed? J "Promise" = some promise)
    (hversion : B.symbols.globalNamed? J "PKG_VERSION" = some version) {r : Fin n}
    (hr : r ∈ t.identifiers) :
    ∃ s name x e, B.symbols.reference? r = some s ∧ t.text r = some name ∧
      J.spelling name = .ok x ∧ (options.form promise version s x).checked = .ok e ∧
      out.expression? r = some e := by
  obtain ⟨before, e, after, hlower, hexpression⟩ :=
    (exists_lowerIdentifier_of_lowerAll (lowerUnit_of_compile h hbind)
      SyntaxTree.nodup_identifiers).2 r hr
  obtain ⟨s, hs⟩ := exists_symbolAt_of_lowerIdentifier hlower
  obtain ⟨_, _, name, _, hname, _⟩ := hcompiled.covers.reference?_eq_some_iff.1 hs
  obtain ⟨x, hx⟩ := hcompiled.spelled r name hname
  rw [hcompiled.covers.lowerIdentifier_eq hcompiled.globalNames.ne_nil hpromise hversion before hs
    hname hx, map_eq_ok_iff] at hlower
  obtain ⟨e', hchecked, heq⟩ := hlower
  obtain rfl : e' = e := Except.ok.inj (Prod.mk.inj heq).1
  exact ⟨s, name, x, e', hs, hname, hx, hchecked, hexpression⟩

/-- **The expression of each reference of a compiled unit** is the one that its symbol and its
spelling determine. -/
theorem Compiled.exists_form {t : SyntaxTree n} {I J : Interner} {options : CompilerOptions}
    {globals : List Name} {B : Binding n} {out : UnitOutput n}
    (hcompiled : Compiled t J globals B out) (h : compile t I options E = .ok (.ok out, J))
    (hbind : bind t I defaultGlobals E = .ok (B, J)) {promise version : SymbolId}
    (hpromise : B.symbols.globalNamed? J "Promise" = some promise)
    (hversion : B.symbols.globalNamed? J "PKG_VERSION" = some version) {r : Fin n}
    (hr : r ∈ t.identifiers) :
    ∃ s name x, B.symbols.reference? r = some s ∧ t.text r = some name ∧
      J.spelling name = .ok x ∧
      out.expression? r = some (options.form promise version s x) := by
  obtain ⟨s, name, x, e, hs, hname, hx, hchecked, hexpression⟩ :=
    hcompiled.exists_checked_form h hbind hpromise hversion hr
  obtain ⟨-, rfl⟩ := Expression.checked_eq_ok_iff.1 hchecked
  exact ⟨s, name, x, hs, hname, hx, hexpression⟩

/-- **The expressions of a compiled unit.** Every reachable identifier is bound to a symbol, and
this symbol, together with the string that the builder was given for the identifier, determines its
expression; the string is also that of the symbol and of its declaration. An identifier whose name
is declared by a scope around it is lowered to a plain identifier, whatever the name is, and is
announced if it is the first early reference to its symbol.

**Proof sketch.** A compiled unit has no errors of binding, so that each reachable identifier has a
symbol, and `lowerIdentifier_eq` gives its expression. The string is traced twice, once through the
text of the reference and once through the name of the symbol, since the interner spells a name in
one way. For a name that a scope declares, the symbol has a declaration; then it is none of the
three with a form of its own, and `mem_hoistsFor_iff` says whether the reference is announced. -/
theorem expressions_exact {file : FileId} {I₀ I J : Interner} {forms : List (Form Nat)}
    {statements : List Nat} {src : Source} {options : CompilerOptions} {out : UnitOutput src.size}
    (hbuild : Source.build file I₀ forms statements = .ok src) (hI : I.Extends src.interner)
    (h : compile src.tree I options E = .ok (.ok out, J)) :
    ∃ B promise version, bind src.tree I defaultGlobals E = .ok (B, J) ∧
      B.symbols.globalNamed? J "undefined" = some SymbolTable.undefinedSymbol ∧
      B.symbols.globalNamed? J "Promise" = some promise ∧
      B.symbols.globalNamed? J "PKG_VERSION" = some version ∧
      [SymbolTable.undefinedSymbol, promise, version].Nodup ∧
      ∀ r, src.tree.Reachable r → src.tree.kind r = .identifier →
        ∃ s x, B.symbols.reference? r = some s ∧
          (givenTexts forms)[r.val]? = some (some x) ∧
          out.expression? r = some (options.form promise version s x) ∧
          (∃ data, B.symbols.symbol? s = some data ∧ J.spelling data.name = .ok x ∧
            ∀ i, data.declaration = some i → (givenTexts forms)[i.val]? = some (some x)) ∧
          ∀ name a d, src.tree.text r = some name →
            src.tree.lexicalBinding? r name = some (a, d) →
            out.expression? r = some (.identifier x) ∧
            B.symbols.valueDeclaration s = some d.node ∧
            ∀ S, r ∈ out.hoists.hoistsFor S ↔ FirstEarly src.tree B.symbols.model r s S := by
  have hspelled : src.tree.Spelled I := (Source.spelled_of_build hbuild).extends hI
  have hJ : J.Extends src.interner := by
    obtain ⟨J', _, hJ', hends⟩ := endsIn_compile hspelled options
    obtain ⟨rfl, _⟩ := hends.of_ok h
    exact hJ'.trans hI
  obtain ⟨B, globals, hbind, hcompiled⟩ := compiled_of_compile hspelled h
  have hcovers := hcompiled.covers
  obtain ⟨promise, hpromise⟩ :=
    hcovers.exists_globalNamed? hcompiled.globalNames (x := "Promise") (by decide)
  obtain ⟨version, hversion⟩ :=
    hcovers.exists_globalNamed? hcompiled.globalNames (x := "PKG_VERSION") (by decide)
  have hundefined := hcovers.globalNamed?_undefined hcompiled.globalNames
  refine ⟨B, promise, version, hbind, hundefined, hpromise, hversion, ?_, fun r hreach hkind => ?_⟩
  · have hp := hcovers.ne_of_globalNamed? hundefined hpromise (by decide)
    have hv := hcovers.ne_of_globalNamed? hundefined hversion (by decide)
    have hpv := hcovers.ne_of_globalNamed? hpromise hversion (by decide)
    simp [hp, hv, hpv]
  · obtain ⟨s, name, x, hs, hname, hx, hexpression⟩ := hcompiled.exists_form h hbind hpromise
      hversion (SyntaxTree.mem_identifiers_iff.2 ⟨hreach, hkind⟩)
    obtain ⟨data, hdata, rfl⟩ := hcovers.exists_symbol_of_reference hs hname
    refine ⟨s, x, hs, ?_, hexpression, ⟨data, hdata, hx, fun i hi => ?_⟩,
      fun name a d hname' hlex => ?_⟩
    · exact Source.given_of_text hbuild hJ hname hx
    · exact Source.given_of_text hbuild hJ (hcovers.text_of_declaration hdata hi) hx
    · have hvalue := hcovers.valueDeclaration_of_reference hs hname'
      rw [hlex, Option.map_some] at hvalue
      refine ⟨?_, hvalue, fun S => ?_⟩
      · rw [hexpression,
          hcovers.form_of_valueDeclaration hcompiled.globalNames hpromise hversion hvalue]
      · rw [hcompiled.mem_hoistsFor_iff]
        constructor
        · rintro ⟨s', hfirst⟩
          obtain rfl : s' = s := Option.some.inj (hfirst.1.1.symm.trans hs)
          exact hfirst
        · exact fun hfirst => ⟨s, hfirst⟩

/-- The forms of `Promise; PKG_VERSION; undefined; { Promise; let Promise; }`. -/
def Form.shadowedPromise : List (Form Nat) :=
  [identifier "Promise", expressionStatement 0, identifier "PKG_VERSION", expressionStatement 2,
    identifier "undefined", expressionStatement 4, identifier "Promise", expressionStatement 6,
    letStatement "Promise" none, block [7, 8]]

/-- Outside of the block `Promise` is the builtin name, inside it is a local that is announced. -/
theorem expressions_exact_shadowed :
    ∃ src out J, Source.build ⟨0⟩ .empty Form.shadowedPromise [1, 3, 5, 9] = .ok src ∧
      src.interner.Extends src.interner ∧
      compile src.tree src.interner { packageVersion := some "1.0" } = .ok (.ok out, J) ∧
      out.expressions.entries.map (fun e => (e.1.val, e.2)) =
        [(0, .property (.identifier "TS") "Promise"), (2, .string "1.0"), (4, .nil),
          (6, .identifier "Promise")] ∧
      out.hoists.entries.map (fun e => (e.1.val, e.2.map Fin.val)) = [(7, [6])] ∧
      ∃ B promise version, bind src.tree src.interner defaultGlobals = .ok (B, J) ∧
        ∀ r, src.tree.Reachable r → src.tree.kind r = .identifier →
          ∃ s x, B.symbols.reference? r = some s ∧
            (givenTexts Form.shadowedPromise)[r.val]? = some (some x) ∧
            out.expression? r =
              some (CompilerOptions.form { packageVersion := some "1.0" } promise version s x) := by
  have hrun : EndsIn (fun _ => False)
      (fun src => EndsIn (fun _ => False)
        (fun r => EndsIn (fun _ => False)
          (fun out => (out.expressions.entries.map (fun e => (e.1.val, e.2)),
              out.hoists.entries.map (fun e => (e.1.val, e.2.map Fin.val))) =
            ([(0, .property (.identifier "TS") "Promise"), (2, .string "1.0"), (4, .nil),
              (6, .identifier "Promise")], [(7, [6])])) r.1)
        (compile src.tree src.interner { packageVersion := some "1.0" }))
      (Source.build ⟨0⟩ .empty Form.shadowedPromise [1, 3, 5, 9]) := by decide +kernel
  obtain ⟨src, hbuild, hsrc⟩ := hrun.exists_eq_ok
  obtain ⟨⟨outcome, J⟩, hcompile, houtcome⟩ := hsrc.exists_eq_ok
  obtain ⟨out, rfl, hout⟩ := houtcome.exists_eq_ok
  injection hout with hexpressions hhoists
  have hI := Interner.Extends.refl src.interner
  obtain ⟨B, promise, version, hbind, _, _, _, _, hexact⟩ := expressions_exact hbuild hI hcompile
  refine ⟨src, out, J, hbuild, hI, hcompile, hexpressions, hhoists, B, promise, version, hbind,
    fun r hreach hkind => ?_⟩
  obtain ⟨s, x, hs, hx, hexpression, _⟩ := hexact r hreach hkind
  exact ⟨s, x, hs, hx, hexpression⟩

/-- In `function f(Promise) { Promise; } Promise;` the parameter is meant inside of the function,
and the builtin outside. -/
example :
    EndsIn (fun _ => False)
      (fun src => EndsIn (fun _ => False)
        (fun r => r.1.map (fun out => out.expressions.entries.map fun e => e.2.text) =
          .ok ["Promise", "TS.Promise"])
        (compile src.tree src.interner .default))
      (Source.build ⟨0⟩ .empty
        [.parameter "Promise", .identifier "Promise", .expressionStatement 1,
          .functionDeclaration "f" [0] [2], .identifier "Promise", .expressionStatement 4]
        [3, 5]) := by
  decide +kernel

end Predeclare
