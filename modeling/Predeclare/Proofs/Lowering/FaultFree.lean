import Predeclare.Proofs.Binding.Reached
import Predeclare.Proofs.Lowering.Exact

set_option relaxedAutoImplicit false
set_option autoImplicit false

/-!
# Units without faults

Only two kinds of fault can come up when a finished tree is compiled: a node that is asked to
declare a name although it cannot, and an expression that starts with an empty name. Both are the
caller's to avoid, and both are easy to avoid; what else may be odd about a tree leads to an output
or to an error.

## Main results

* `exists_bind_eq_ok` — binding ends well if no node is asked for what it cannot declare.
* `exists_compile_eq_ok` — so does compiling, if in addition no expression starts with an empty
  name.
* `compile_never_faults` — compiling a tree without these two defects.
-/

namespace Predeclare

variable {n : Nat} {t : SyntaxTree n} {I J : Interner} {E : Enumeration} {options : CompilerOptions}

/-! ## Faults of lowering -/

/-- A list of references meets a fault only at one of them.

**Proof sketch.** Induction on the list. -/
lemma exists_lowerIdentifier_of_lowerAll_eq_error {ctx : LowerContext n}
    {table : ExpanderTable n} {l : List (Fin n)} {out : UnitOutput n} {state : HoistState n}
    {fault : Fault} (h : lowerAll ctx table l out state = .error fault) :
    ∃ i ∈ l, ∃ before, lowerIdentifier ctx table before i = .error fault := by
  induction l generalizing out state with
  | nil => cases h
  | cons i rest ih =>
    simp only [lowerAll] at h
    cases hlower : lowerIdentifier ctx table state i with
    | error fault' =>
      rw [hlower] at h
      obtain rfl : fault' = fault := Except.error.inj h
      exact ⟨i, List.mem_cons_self, state, hlower⟩
    | ok result =>
      obtain ⟨e | e, state'⟩ := result
      · rw [hlower] at h
        cases h
      · rw [hlower] at h
        obtain ⟨j, hj, before, hfault⟩ := ih h
        exact ⟨j, List.mem_cons_of_mem i hj, before, hfault⟩

/-- An identifier without a symbol is an error and no fault.

**Proof sketch.** Without a symbol only the text is read, and all texts have spellings. -/
lemma exists_symbolAt_of_lowerIdentifier_eq_error {ctx : LowerContext n}
    (hspelled : ctx.tree.Spelled ctx.interner) {table : ExpanderTable n} {state : HoistState n}
    {i : Fin n} {fault : Fault} (h : lowerIdentifier ctx table state i = .error fault) :
    ∃ s, ctx.model.symbolAt i = some s := by
  cases hs : ctx.model.symbolAt i with
  | some s => exact ⟨s, rfl⟩
  | none =>
    by_cases hi : ctx.tree.IsNamedIdentifier i
    · obtain ⟨_, _, _, _, hlower⟩ := lowerIdentifier_of_named hspelled hs hi table state
      cases hlower.symm.trans h
    · cases (lowerIdentifier_of_not_named hs hi table state).symm.trans h

/-! ## Binding and compiling without faults -/

/-- **Binding ends well** if no node is asked for what it cannot declare. -/
theorem exists_bind_eq_ok (hspelled : t.Spelled I) (spellings : List String)
    (hdeclares : ∀ fault, ¬ t.Misdeclares fault) :
    ∃ B J globals, bind t I spellings E = .ok (B, J) ∧ J.Extends I ∧
      GlobalNames J spellings globals ∧ B.Covers t globals (t.surface t.root) := by
  obtain ⟨J, globals, hJ, hglobals, hends⟩ := covers_bind hspelled spellings
  cases hbind : bind t I spellings E with
  | error fault => exact absurd (hends.of_error hbind) (hdeclares fault)
  | ok result =>
    obtain ⟨B, J'⟩ := result
    obtain ⟨rfl, hcovers⟩ := hends.of_ok hbind
    exact ⟨B, J', globals, rfl, hJ, hglobals, hcovers⟩

/-- **Compiling ends well** if binding does and no expression starts with an empty name.

**Proof sketch.** A fault of lowering is that of some reference. It has a symbol, so its expression
is known and does not start with an empty name, which is the only fault left. -/
theorem exists_compile_eq_ok (options : CompilerOptions) {B : Binding n} {globals : List Name}
    (hbind : bind t I defaultGlobals E = .ok (B, J)) (hspelled : t.Spelled J)
    (hglobals : GlobalNames J defaultGlobals globals)
    (hcovers : B.Covers t globals (t.surface t.root))
    (hheads : ∀ promise version r s name x,
      B.symbols.globalNamed? J "Promise" = some promise →
      B.symbols.globalNamed? J "PKG_VERSION" = some version →
      B.symbols.reference? r = some s → t.text r = some name → J.spelling name = .ok x →
      (options.form promise version s x).head? ≠ some "") :
    ∃ outcome, compile t I options E = .ok (outcome, J) := by
  simp only [compile]
  rw [hbind, ok_bind]
  dsimp only
  split
  · cases hlower : lowerUnit t J B options with
    | ok outcome => exact ⟨_, rfl⟩
    | error fault =>
      -- The fault is that of a reference with a symbol, whose expression is known.
      obtain ⟨r, _, before, hfault⟩ := exists_lowerIdentifier_of_lowerAll_eq_error hlower
      obtain ⟨s, hs⟩ := exists_symbolAt_of_lowerIdentifier_eq_error hspelled hfault
      obtain ⟨_, _, name, _, hname, _⟩ := hcovers.reference?_eq_some_iff.1 hs
      obtain ⟨x, hx⟩ := hspelled r name hname
      obtain ⟨promise, hpromise⟩ :=
        hcovers.exists_globalNamed? hglobals (x := "Promise") (by decide)
      obtain ⟨version, hversion⟩ :=
        hcovers.exists_globalNamed? hglobals (x := "PKG_VERSION") (by decide)
      rw [hcovers.lowerIdentifier_eq hglobals.ne_nil hpromise hversion before hs hname hx]
        at hfault
      have hhead := hheads promise version r s name x hpromise hversion hs hname hx
      have hchecked := Expression.checked_eq_ok_iff.2 ⟨hhead, rfl⟩
      rw [hchecked] at hfault
      cases hfault
  · exact ⟨_, rfl⟩

/-- No expression of a reference starts with an empty name, if neither the reference nor the runtime
library has an empty name. -/
lemma CompilerOptions.head?_form_ne {promise version s : SymbolId} {x : String}
    (hlibrary : options.runtimeLibrary ≠ "") (hx : x ≠ "") :
    (options.form promise version s x).head? ≠ some "" := by
  simp only [form]
  split
  · simp [Expression.head?]
  · split
    · simpa [Expression.head?] using hlibrary
    · split
      · cases options.packageVersion <;> simp [Expression.head?]
      · simpa [Expression.head?] using hx

/-- **Compiling a finished tree ends in an output or in an error**, if the declarators and the
elements of patterns in it can declare their names, no reachable identifier has an empty name, and
the runtime library has a name. On the way, the binder comes to no node with a scope that is not
there, and no reference is bound to a symbol that is not there.

**Proof sketch.** Binding ends well because every declaring node can declare, and lowering because
no expression starts with an empty name: its head is the runtime library or the text of an
identifier. For the scopes on the way see `WalkReaches.scope_lt`. -/
theorem compile_never_faults {file : FileId} {I₀ I : Interner} {forms : List (Form Nat)}
    {statements : List Nat} {src : Source} {options : CompilerOptions}
    (hbuild : Source.build file I₀ forms statements = .ok src) (hI : I.Extends src.interner)
    (hdeclarable : src.tree.Declarable)
    (hnames : ∀ i, src.tree.Reachable i → src.tree.kind i = .identifier →
      ∀ name, src.tree.text i = some name → src.interner.spelling name ≠ .ok "")
    (hlibrary : options.runtimeLibrary ≠ "") :
    ∃ outcome B₀ B J, compile src.tree I options E = .ok (outcome, J) ∧
      bindGlobals src.tree I defaultGlobals = .ok (B₀, J) ∧
      bindNode src.tree J E ScopeTree.globalScope src.tree.root B₀ = .ok B ∧
      (∀ scope i B', WalkReaches src.tree J E B₀ scope i B' →
        scope.index < B'.scopes.scopes.size) ∧
      ∀ r s, B.symbols.reference? r = some s → s.index < B.symbols.symbols.size := by
  have hbuilt := Source.spelled_of_build hbuild
  have hspelled : src.tree.Spelled I := hbuilt.extends hI
  obtain ⟨B₀, J, globals, hstart, hJ, hglobals, hB₀⟩ :=
    covers_bindGlobals src.tree I defaultGlobals
  obtain ⟨B, J', globals', hbind, _, hglobals', hcovers⟩ :=
    exists_bind_eq_ok hspelled defaultGlobals hdeclarable.not_misdeclares
  have hwalk := hbind
  rw [bind_eq, hstart, ok_bind, bind_eq_ok_iff] at hwalk
  obtain ⟨B', hwalk, heq⟩ := hwalk
  obtain ⟨rfl, rfl⟩ := Prod.mk.inj (Except.ok.inj heq)
  obtain ⟨outcome, hcompile⟩ := exists_compile_eq_ok options hbind
    (hspelled.extends hJ) hglobals' hcovers fun promise version r s name x _ _ hs hname hx => by
      obtain ⟨hr, hkind, _⟩ := hcovers.reference?_eq_some_iff.1 hs
      obtain ⟨y, hy⟩ := hbuilt r name hname
      obtain rfl : y = x := Except.ok.inj (((hJ.trans hI).spelling hy).symm.trans hx)
      refine CompilerOptions.head?_form_ne hlibrary fun hempty => ?_
      exact hnames r (SyntaxTree.mem_surface_root_iff.1 hr).1 hkind name hname (hempty ▸ hy)
  refine ⟨outcome, B₀, B', J, hcompile, hstart, hwalk, fun scope i B'' hreaches => ?_,
    fun r s hs => hcovers.index_lt_of_reference hs⟩
  exact hreaches.scope_lt (hspelled.extends hJ) hglobals.knows hB₀

/-- The forms of a declarator without a name and without children, of a case clause that is empty
and outside of a switch, of a loop with a text, and of an identifier without one. -/
def Form.misshapen : List (Form Nat) :=
  [node .variableDeclaration none [], node .variableDeclarationList none [0],
    node .variableStatement (some "v") [1], identifier "print", node .caseClause none [],
    node .whileStatement (some "w") [3, 4], node .identifier none [], expressionStatement 6]

/-- The identifier without a text leads to an error, and the other oddities to nothing. -/
theorem compile_never_faults_misshapen :
    ∃ src, Source.build ⟨0⟩ .empty Form.misshapen [2, 5, 7] = .ok src ∧
      src.interner.Extends src.interner ∧ src.tree.Declarable ∧
      (∀ i, src.tree.Reachable i → src.tree.kind i = .identifier →
        ∀ name, src.tree.text i = some name → src.interner.spelling name ≠ .ok "") ∧
      CompilerOptions.default.runtimeLibrary ≠ "" ∧
      ∃ J, compile src.tree src.interner .default =
        .ok (.error (.internal (.notAnIdentifier .identifier ⟨⟨0⟩, ⟨8, 8⟩⟩)), J) := by
  have hrun : EndsIn (fun _ => False)
      (fun src => EndsIn (fun _ => False)
        (fun r => EndsIn
          (fun e => decide (e = .internal (.notAnIdentifier .identifier ⟨⟨0⟩, ⟨8, 8⟩⟩)) = true)
          (fun _ => False) r.1)
        (compile src.tree src.interner .default) ∧
        decide src.tree.Declarable = true ∧
        decide (∀ i, src.tree.kind i = .identifier → src.tree.text i ≠ none →
          src.tree.text i = some ⟨1⟩) = true ∧
        src.interner.spellings[1]? = some "print")
      (Source.build ⟨0⟩ .empty Form.misshapen [2, 5, 7]) := by decide +kernel
  obtain ⟨src, hbuild, houtcome, hdeclarable, htexts, hprint⟩ := hrun.exists_eq_ok
  have hI := Interner.Extends.refl src.interner
  have hnames : ∀ i, src.tree.Reachable i → src.tree.kind i = .identifier →
      ∀ name, src.tree.text i = some name → src.interner.spelling name ≠ .ok "" := by
    intro i _ hkind name hname hempty
    have htext := of_decide_eq_true htexts i hkind (by simp [hname])
    obtain rfl : name = ⟨1⟩ := Option.some.inj (hname.symm.trans htext)
    have heq : "print" = "" :=
      Option.some.inj (hprint.symm.trans (Interner.spelling_eq_ok_iff.1 hempty))
    exact absurd heq (by decide)
  have hlibrary : CompilerOptions.default.runtimeLibrary ≠ "" := by decide
  obtain ⟨outcome, _, _, J, hcompile, _⟩ :=
    compile_never_faults hbuild hI (of_decide_eq_true hdeclarable) hnames hlibrary
  refine ⟨src, hbuild, hI, of_decide_eq_true hdeclarable, hnames, hlibrary, J, ?_⟩
  have hend := houtcome.of_ok hcompile
  cases outcome with
  | ok out => exact hend.elim
  | error e => rw [hcompile, of_decide_eq_true (hend.of_error rfl)]

end Predeclare
