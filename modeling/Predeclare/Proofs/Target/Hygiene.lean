import Predeclare.Proofs.Lowering.Exact
import Predeclare.Proofs.Target.Preservation

set_option relaxedAutoImplicit false
set_option autoImplicit false

/-!
# The runtime library and the names of a unit

A reference to the builtin promises becomes a property of the runtime library, so it mentions a name
that the unit need not contain. Lowering keeps all names as they are: it neither renames what the
unit declares nor chooses another name for the library. What the added name denotes is therefore
decided by the scopes around the reference, as for any other reference of this spelling. If none of
them declares the name, it denotes the library; otherwise it is captured. That the reference itself
is to the builtin name says nothing about it, unless the library is called like the builtin name.

## Main definitions

* `SyntaxTree.DeclaredAround` — some scope around a node declares a spelling.

## Main results

* `SyntaxTree.declaredAround_iff` — being declared around a node is having a meaning there.
* `Binding.Covers.not_declaredAround_of_globalNamed?` — a global is not declared around a reference
  to it.
* `promise_base_denotes` — what the base of a lowered promise denotes.
-/

namespace Predeclare

variable {n : Nat} {t : SyntaxTree n} {I J : Interner} {E : Enumeration}
  {options : CompilerOptions} {r : Fin n}

namespace SyntaxTree

/-- Some scope around the node declares a name with this spelling. -/
def DeclaredAround (t : SyntaxTree n) (J : Interner) (r : Fin n) (x : String) : Prop :=
  ∃ a ∈ t.scopesAround r, ∃ d ∈ t.scopeDeclarations a, J.spelling d.name = .ok x

/-- **A spelling is declared around a node** if the name with this spelling has a meaning there. -/
theorem declaredAround_iff {x : String} {name : Name} (hx : J.spelling name = .ok x) :
    t.DeclaredAround J r x ↔ t.lexicalBinding? r name ≠ none := by
  constructor
  · rintro ⟨a, ha, d, hd, hdx⟩ hnone
    exact name_ne_of_no_lexicalBinding hnone ha d hd (Interner.eq_of_spelling_eq hdx hx)
  · intro hlex
    obtain ⟨⟨a, d⟩, hlex⟩ := Option.ne_none_iff_exists'.1 hlex
    obtain ⟨ha, -, hd, rfl⟩ := mem_scopeDeclarations_of_lexicalBinding hlex
    exact ⟨a, ha, d, hd, hx⟩

/-- A spelling that no scope of the unit declares is not declared around any node of it. -/
lemma not_declaredAround_of_undeclared {x : String} (hr : t.Reachable r)
    (h : ∀ a, t.Reachable a → ∀ d ∈ t.scopeDeclarations a, J.spelling d.name ≠ .ok x) :
    ¬ t.DeclaredAround J r x := by
  rintro ⟨a, ha, d, hd, hx⟩
  have habove := (mem_scopesAround_iff.1 ha).1
  exact h a (hr.ancestor (mem_ancestors_of_mem_above habove)) d hd hx

/-- What a name means at a node depends on the scopes around the node only. -/
lemma lexicalBinding?_congr {r' : Fin n} (h : t.scopesAround r' = t.scopesAround r) (name : Name) :
    t.lexicalBinding? r' name = t.lexicalBinding? r name := by
  unfold lexicalBinding?
  rw [h]

end SyntaxTree

namespace Binding.Covers

variable {globals : List Name} {B : Binding n} {s : SymbolId} {x : String}

/-- A reference to a global goes by the name of the global. -/
lemma text_of_global? (h : B.Covers t globals (t.surface t.root)) {g : Name}
    (hg : B.symbols.global? g = some s) (hs : B.symbols.reference? r = some s) :
    t.text r = some g := by
  obtain ⟨_, _, name, _, hname, _⟩ := h.reference?_eq_some_iff.1 hs
  obtain ⟨data, hdata, rfl⟩ := h.exists_symbol_of_reference hs hname
  have hsymbol := h.symbol?_of_getElem?_globals (h.getElem?_of_global? hg)
  obtain rfl := Option.some.inj (hdata.symm.trans hsymbol)
  exact hname

/-- **A global is not declared around a reference to it.** -/
theorem not_declaredAround_of_globalNamed? (h : B.Covers t globals (t.surface t.root))
    (hx : B.symbols.globalNamed? J x = some s) (hs : B.symbols.reference? r = some s) :
    ¬ t.DeclaredAround J r x := by
  obtain ⟨g, hgx, hg⟩ := SymbolTable.globalNamed?_eq_some_iff.1 hx
  have hvalue := h.valueDeclaration_of_reference hs (h.text_of_global? hg hs)
  rw [h.valueDeclaration_of_globalNamed? hx] at hvalue
  rw [SyntaxTree.declaredAround_iff hgx, not_not]
  exact Option.map_eq_none_iff.1 hvalue.symm

end Binding.Covers

/-- The builtin promises are lowered to a property of the runtime library. -/
lemma CompilerOptions.form_promise (hbuiltins : options.builtins = true)
    {promise version : SymbolId} (hdefined : promise ≠ SymbolTable.undefinedSymbol) (x : String) :
    options.form promise version promise x =
      .property (.identifier options.runtimeLibrary) "Promise" := by
  unfold form
  rw [if_neg hdefined, if_pos ⟨hbuiltins, rfl⟩]

/-- **What the base of a lowered promise denotes.** Each reference to the builtin promises is
lowered to a property of the runtime library, under the name that the options give to the library.

No scope around the reference declares the builtin name, and none declares the name of the library
if no scope of the unit does. The base means what any reference of its spelling means that has the
same scopes around it: a declaration exactly if one of these scopes declares the name. If none of
them does, the base denotes no declaration in the target either.

**Proof sketch.** The form of the reference is that of the builtin symbol. By the lexical rule a
reference that is bound to a global has no declaration of its name around it, and what a name means
depends on the scopes around the reference only. For the target see `resolves_iff_of_global`. -/
theorem promise_base_denotes (hspelled : t.Spelled I) (hbuiltins : options.builtins = true)
    {out : UnitOutput n} (h : compile t I options E = .ok (.ok out, J)) :
    ∃ B promise, bind t I defaultGlobals E = .ok (B, J) ∧
      B.symbols.globalNamed? J "Promise" = some promise ∧
      ∀ r, t.Reachable r → B.symbols.reference? r = some promise →
        out.expression? r = some (.property (.identifier options.runtimeLibrary) "Promise") ∧
        ¬ t.DeclaredAround J r "Promise" ∧
        ((∀ a, t.Reachable a → ∀ d ∈ t.scopeDeclarations a,
            J.spelling d.name ≠ .ok options.runtimeLibrary) →
          ¬ t.DeclaredAround J r options.runtimeLibrary) ∧
        ∀ name, J.spelling name = .ok options.runtimeLibrary →
          (t.DeclaredAround J r options.runtimeLibrary ↔ t.lexicalBinding? r name ≠ none) ∧
          (∀ r' s', t.text r' = some name → t.scopesAround r' = t.scopesAround r →
            B.symbols.reference? r' = some s' →
            B.symbols.valueDeclaration s' = (t.lexicalBinding? r name).map fun b => b.2.node) ∧
          (¬ t.DeclaredAround J r options.runtimeLibrary → t.Shaped →
            ∀ o, TargetResolves t B.symbols out.hoists name r o ↔ o = none) := by
  obtain ⟨B, globals, hbind, hcompiled⟩ := compiled_of_compile hspelled h
  have hcovers := hcompiled.covers
  obtain ⟨promise, hpromise⟩ :=
    hcovers.exists_globalNamed? hcompiled.globalNames (x := "Promise") (by decide)
  obtain ⟨version, hversion⟩ :=
    hcovers.exists_globalNamed? hcompiled.globalNames (x := "PKG_VERSION") (by decide)
  refine ⟨B, promise, hbind, hpromise, fun r hreach hs => ⟨?_, ?_, ?_, fun name hname => ?_⟩⟩
  · obtain ⟨_, hkind, _⟩ := hcovers.reference?_eq_some_iff.1 hs
    obtain ⟨s, _, _, hs', _, _, hexpression⟩ := hcompiled.exists_form h hbind hpromise hversion
      (SyntaxTree.mem_identifiers_iff.2 ⟨hreach, hkind⟩)
    obtain rfl : s = promise := Option.some.inj (hs'.symm.trans hs)
    have hundefined := hcovers.globalNamed?_undefined hcompiled.globalNames
    have hne := hcovers.ne_of_globalNamed? hpromise hundefined (by decide)
    rw [hexpression, CompilerOptions.form_promise hbuiltins hne]
  · exact hcovers.not_declaredAround_of_globalNamed? hpromise hs
  · exact SyntaxTree.not_declaredAround_of_undeclared hreach
  · have haround := SyntaxTree.declaredAround_iff (t := t) (r := r) hname
    refine ⟨haround, fun r' s' htext hsame hs' => ?_, fun hfree hshape o => ?_⟩
    · rw [hcovers.valueDeclaration_of_reference hs' htext,
        SyntaxTree.lexicalBinding?_congr hsame]
    · rw [haround, not_not] at hfree
      exact hcompiled.resolves_iff_of_global hshape hreach hfree

/-! ## A unit that declares the name of the library -/

/-- The tree of `Promise; { let TS; Promise; }`. -/
def SyntaxTree.capturedPromise : SyntaxTree 9 where
  file := ⟨0⟩
  nodes := #v[
    ⟨.identifier, some 1, [], some ⟨0⟩, ⟨0, 7⟩⟩,
    ⟨.expressionStatement, some 8, [0], none, ⟨0, 7⟩⟩,
    ⟨.variableDeclaration, some 3, [], some ⟨1⟩, ⟨8, 10⟩⟩,
    ⟨.variableDeclarationList, some 4, [2], none, ⟨8, 10⟩⟩,
    ⟨.variableStatement, some 7, [3], none, ⟨8, 10⟩⟩,
    ⟨.identifier, some 6, [], some ⟨0⟩, ⟨11, 18⟩⟩,
    ⟨.expressionStatement, some 7, [5], none, ⟨11, 18⟩⟩,
    ⟨.block, some 8, [4, 6], none, ⟨8, 18⟩⟩,
    ⟨.sourceFile, none, [1, 7], none, ⟨0, 18⟩⟩]
  root := 8
  mem_children_iff_parent := by decide
  nodup_node_children := by decide
  child_lt_parent := by decide
  le_root := by decide
  kind_node_root := by decide

/-- The texts of `SyntaxTree.capturedPromise`. -/
def Interner.ofCapturedPromise : Interner := ⟨["Promise", "TS"], by decide⟩

/-- The names of the tree have spellings. -/
lemma spelled_capturedPromise : SyntaxTree.capturedPromise.Spelled .ofCapturedPromise :=
  SyntaxTree.spelled_of_index_lt (by decide)

/-- The tree has the shape of real programs. -/
lemma shaped_capturedPromise : SyntaxTree.capturedPromise.Shaped where
  isStatement := by decide +kernel
  clauses := by decide +kernel
  caseBlock := by decide +kernel
  declarators := by decide +kernel
  elements := by decide +kernel

/-- The tree compiles, both references are to the builtin promises, and the name that the block
declares is spelled like the library.

**Proof sketch.** Both computations are run. -/
lemma exists_compile_capturedPromise :
    ∃ out B J promise, compile .capturedPromise .ofCapturedPromise .default = .ok (.ok out, J) ∧
      bind .capturedPromise .ofCapturedPromise defaultGlobals = .ok (B, J) ∧
      B.symbols.globalNamed? J "Promise" = some promise ∧
      B.symbols.reference? 0 = some promise ∧ B.symbols.reference? 5 = some promise ∧
      J.spelling ⟨1⟩ = .ok CompilerOptions.default.runtimeLibrary := by
  have hrun : EndsIn (fun _ => False) (fun r => EndsIn (fun _ => False) (fun _ => True) r.1)
      (compile .capturedPromise .ofCapturedPromise .default) := by decide +kernel
  have hbound : EndsIn (fun _ => False)
      (fun r => (r.1.symbols.globalNamed? r.2 "Promise").isSome = true ∧
        r.1.symbols.reference? 0 = r.1.symbols.globalNamed? r.2 "Promise" ∧
        r.1.symbols.reference? 5 = r.1.symbols.globalNamed? r.2 "Promise" ∧
        r.2.spelling ⟨1⟩ = .ok CompilerOptions.default.runtimeLibrary)
      (bind .capturedPromise .ofCapturedPromise defaultGlobals) := by decide +kernel
  obtain ⟨⟨outcome, J⟩, hcompile, houtcome⟩ := hrun.exists_eq_ok
  obtain ⟨out, rfl, _⟩ := houtcome.exists_eq_ok
  obtain ⟨B, _, hbind, _⟩ := compiled_of_compile spelled_capturedPromise hcompile
  obtain ⟨hsome, houter, hinner, hspelling⟩ := hbound.of_ok hbind
  obtain ⟨promise, hpromise⟩ := Option.isSome_iff_exists.1 hsome
  exact ⟨out, B, J, promise, hcompile, hbind, hpromise, houter.trans hpromise,
    hinner.trans hpromise, hspelling⟩

/-- Both promises are lowered to the same expression. Outside of the block its base denotes no
declaration. -/
theorem promise_base_denotes_outside :
    SyntaxTree.capturedPromise.Spelled .ofCapturedPromise ∧
    CompilerOptions.default.builtins = true ∧ SyntaxTree.capturedPromise.Shaped ∧
    ∃ out B J, compile .capturedPromise .ofCapturedPromise .default = .ok (.ok out, J) ∧
      bind .capturedPromise .ofCapturedPromise defaultGlobals = .ok (B, J) ∧
      out.expression? 0 = some (.property (.identifier "TS") "Promise") ∧
      out.expression? 5 = some (.property (.identifier "TS") "Promise") ∧
      TargetResolves .capturedPromise B.symbols out.hoists ⟨1⟩ 0 none := by
  refine ⟨spelled_capturedPromise, rfl, shaped_capturedPromise, ?_⟩
  obtain ⟨out, B, J, promise, hcompile, hbind, hpromise, houter, hinner, hspelling⟩ :=
    exists_compile_capturedPromise
  obtain ⟨B', promise', hbind', hpromise', hdenotes⟩ :=
    promise_base_denotes spelled_capturedPromise rfl hcompile
  obtain rfl : B = B' := congrArg Prod.fst (Except.ok.inj (hbind.symm.trans hbind'))
  obtain rfl : promise = promise' := Option.some.inj (hpromise.symm.trans hpromise')
  obtain ⟨hexpression, _, _, hbase⟩ := hdenotes 0 (by decide +kernel) houter
  obtain ⟨_, _, hresolves⟩ := hbase ⟨1⟩ hspelling
  obtain ⟨hexpression', _⟩ := hdenotes 5 (by decide +kernel) hinner
  have hfree : ¬ SyntaxTree.capturedPromise.DeclaredAround J 0
      CompilerOptions.default.runtimeLibrary := by
    rintro ⟨a, ha, d, hd, _⟩
    have hnone : ∀ a ∈ SyntaxTree.capturedPromise.scopesAround 0,
        SyntaxTree.capturedPromise.scopeDeclarations a = [] := by decide +kernel
    rw [hnone a ha] at hd
    cases hd
  exact ⟨out, B, J, hcompile, hbind, hexpression, hexpression',
    (hresolves hfree shaped_capturedPromise none).2 rfl⟩

/-- Inside the block the name of the library is declared around the reference, and the base denotes
this declaration. -/
theorem promise_base_captured :
    CompilerOptions.default.builtins = true ∧
    ∃ out B J promise, compile .capturedPromise .ofCapturedPromise .default = .ok (.ok out, J) ∧
      bind .capturedPromise .ofCapturedPromise defaultGlobals = .ok (B, J) ∧
      B.symbols.globalNamed? J "Promise" = some promise ∧
      SyntaxTree.capturedPromise.Reachable 5 ∧ B.symbols.reference? 5 = some promise ∧
      SyntaxTree.capturedPromise.DeclaredAround J 5 CompilerOptions.default.runtimeLibrary ∧
      J.spelling ⟨1⟩ = .ok CompilerOptions.default.runtimeLibrary ∧
      TargetResolves .capturedPromise B.symbols out.hoists ⟨1⟩ 5 (some 2) := by
  obtain ⟨out, B, J, promise, hcompile, hbind, hpromise, _, hinner, hspelling⟩ :=
    exists_compile_capturedPromise
  refine ⟨rfl, out, B, J, promise, hcompile, hbind, hpromise, by decide +kernel, hinner, ?_,
    hspelling, ?_⟩
  · exact ⟨7, by decide +kernel, ⟨⟨1⟩, .variable, 2⟩, by decide +kernel, hspelling⟩
  · -- the statement of the reference is no list, and the block declares the name in front of it
    have hsilent : ∀ v, ¬ StepDeclares .capturedPromise B.symbols out.hoists 6 5 ⟨1⟩ v := by
      rintro v (⟨hfunction, _⟩ | ⟨hmem, _⟩)
      · cases hfunction
      · exact absurd hmem (by decide +kernel)
    have hbefore : SyntaxTree.capturedPromise.Before 7 4 6 := by
      unfold SyntaxTree.Before
      decide +kernel
    have hdeclares : StepDeclares .capturedPromise B.symbols out.hoists 7 6 ⟨1⟩ 2 := by
      refine Or.inr ⟨by decide +kernel, Or.inl ⟨4, by decide +kernel, hbefore, ?_⟩⟩
      exact ⟨⟨⟨1⟩, .variable, 2⟩, by decide +kernel, rfl, rfl⟩
    exact TargetResolves.outward rfl hsilent (TargetResolves.here rfl hdeclares)

end Predeclare
