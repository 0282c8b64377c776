import Predeclare.Proofs.Binding.Answers
import Predeclare.Unit

set_option relaxedAutoImplicit false
set_option autoImplicit false

/-!
# Lowering the identifiers of a unit

In a unit that has been bound, lowering an identifier depends on whether the identifier has a
symbol. Without one, it fails and changes nothing. With one, it succeeds, unless it would have to
make an identifier with an empty name, and the hoist plan is changed as one check of the reference
changes it. That is so also for the undefined value and for builtin names, which are lowered without
a check: they have no declaration, so a check would change nothing.

## Main definitions

* `SyntaxTree.loweringFailure?` — why an identifier cannot be lowered.
* `HoistState.visit` — what one more identifier does to the hoist plan.
* `Lowered` — an expression keeps the spelling of the identifier, if it is an identifier itself.
* `SyntaxTree.IsNamedIdentifier` — the node is an identifier with a name.

## Main results

* `lowerIdentifier_of_named`, `lowerIdentifier_of_not_named` — nodes without a symbol are refused.
* `Binding.Covers.lowerIdentifier` — lowering one identifier.
* `Binding.Covers.lowerAll` — lowering a list of identifiers.
-/

namespace Predeclare

/-- Why an identifier cannot be lowered in a unit without binding errors: it has no name, or it lies
below an identifier. -/
def SyntaxTree.loweringFailure? {n : Nat} (t : SyntaxTree n) (J : Interner) (i : Fin n) :
    Option LowerError :=
  match t.text i with
  | none => some (.notAnIdentifier .identifier (t.span i))
  | some name =>
    if t.BelowIdentifier i then
      (J.spelling name).toOption.map fun s => .unresolvedIdentifier s (t.span i)
    else none

/-- What one more identifier does to the hoist plan: it is checked if it has a symbol. -/
def HoistState.visit {n : Nat} (t : SyntaxTree n) (model : SemanticModel (Fin n))
    (state : HoistState n) (i : Fin n) : HoistState n :=
  match model.symbolAt i with
  | some s => (state.checkHoist t model i s).2
  | none => state

/-- If the expression of an identifier is an identifier, it has the same spelling. -/
def Lowered {n : Nat} (t : SyntaxTree n) (J : Interner) (i : Fin n) (e : Expression) : Prop :=
  ∀ x, e = .identifier x → ∃ name, t.text i = some name ∧ J.spelling name = .ok x

/-! ## Builtin names -/

namespace ExpanderTable

variable {n : Nat} {symbols : SymbolTable (Fin n)} {J : Interner} {table : ExpanderTable n}

/-- The table holds nothing but expanders of builtin names, for global symbols. -/
def OnlyBuiltins (symbols : SymbolTable (Fin n)) (table : ExpanderTable n) : Prop :=
  ∀ s expander, table.get? s = some expander →
    (expander = Builtin.promise ∨ expander = Builtin.packageVersion) ∧
      ∃ name, symbols.global? name = some s

/-- Registering a builtin name keeps other expanders out.

**Proof sketch.** The table gets an entry for the global symbol of the name, if there is one, and
keeps the others. -/
lemma OnlyBuiltins.registerGlobal (h : OnlyBuiltins symbols table) {entry : String × Expander n}
    (hentry : entry.2 = Builtin.promise ∨ entry.2 = Builtin.packageVersion) :
    OnlyBuiltins symbols (table.registerGlobal symbols J entry) := by
  simp only [ExpanderTable.registerGlobal]
  cases hfind : (J.find? entry.1).bind symbols.global? with
  | none => exact h
  | some s₀ =>
    obtain ⟨name, _, hglobal⟩ := Option.bind_eq_some_iff.1 hfind
    intro s expander hget
    unfold get? register at hget
    dsimp only at hget
    rw [OrderedMap.get?_insert] at hget
    split at hget
    · rename_i hs
      obtain rfl := Option.some.inj hget
      exact ⟨hentry, name, hs ▸ hglobal⟩
    · exact h s expander hget

/-- The table of a unit holds only builtin names. -/
lemma onlyBuiltins_expanders (options : CompilerOptions) :
    OnlyBuiltins symbols (options.expanders symbols J) := by
  have hempty : OnlyBuiltins symbols (empty : ExpanderTable n) := by
    intro s expander h
    cases h
  simp only [CompilerOptions.expanders]
  split
  · simp only [ofBuiltins, Builtin.all]
    rw [List.foldl_cons, List.foldl_cons, List.foldl_nil]
    exact (hempty.registerGlobal (Or.inl rfl)).registerGlobal (Or.inr rfl)
  · exact hempty

end ExpanderTable

/-! ## The text of an identifier -/

section Text

variable {n : Nat} {ctx : LowerContext n} {i : Fin n}

/-- The node is an identifier with a name. -/
def SyntaxTree.IsNamedIdentifier (t : SyntaxTree n) (i : Fin n) : Prop :=
  t.kind i = .identifier ∧ ∃ name, t.text i = some name

/-- The text of an identifier is the spelling of its name. -/
lemma LowerContext.identifierText_of_text (hkind : ctx.tree.kind i = .identifier) {name : Name}
    (hname : ctx.tree.text i = some name) {x : String}
    (hx : ctx.interner.spelling name = .ok x) : ctx.identifierText i = .ok (.ok x) := by
  simp only [identifierText, hkind, hname, hx]
  rfl

/-- A node that is no identifier with a name has no text. -/
lemma LowerContext.identifierText_of_not_named (hi : ¬ ctx.tree.IsNamedIdentifier i) :
    ctx.identifierText i =
      .ok (.error (.notAnIdentifier (ctx.tree.kind i) (ctx.tree.span i))) := by
  simp only [identifierText]
  split
  · rename_i name hkind hname
    exact absurd ⟨hkind, name, hname⟩ hi
  · rfl

/-- Lowering by spelling makes an expression of the text. -/
lemma LowerContext.lowerPlain_eq_named (hkind : ctx.tree.kind i = .identifier) {name : Name}
    (hname : ctx.tree.text i = some name) {x : String}
    (hx : ctx.interner.spelling name = .ok x) :
    ctx.lowerPlain i = (Expression.named x).map .ok := by
  simp only [lowerPlain, identifierText_of_text hkind hname hx, ok_bind]
  cases Expression.named x <;> rfl

/-- An identifier with a name that has no symbol is refused as unresolved. -/
lemma lowerIdentifier_of_named (hspelled : ctx.tree.Spelled ctx.interner)
    (hs : ctx.model.symbolAt i = none) (hi : ctx.tree.IsNamedIdentifier i)
    (table : ExpanderTable n) (state : HoistState n) :
    ∃ name x, ctx.tree.text i = some name ∧ ctx.interner.spelling name = .ok x ∧
      lowerIdentifier ctx table state i =
        .ok (.error (.unresolvedIdentifier x (ctx.tree.span i)), state) := by
  obtain ⟨hkind, name, hname⟩ := hi
  obtain ⟨x, hx⟩ := hspelled i name hname
  refine ⟨name, x, hname, hx, ?_⟩
  rw [lowerIdentifier_of_no_symbol hs, LowerContext.identifierText_of_text hkind hname hx]
  rfl

/-- Any other node that has no symbol is refused as no identifier. -/
lemma lowerIdentifier_of_not_named (hs : ctx.model.symbolAt i = none)
    (hi : ¬ ctx.tree.IsNamedIdentifier i) (table : ExpanderTable n) (state : HoistState n) :
    lowerIdentifier ctx table state i =
      .ok (.error (.notAnIdentifier (ctx.tree.kind i) (ctx.tree.span i)), state) := by
  rw [lowerIdentifier_of_no_symbol hs, LowerContext.identifierText_of_not_named hi]
  rfl

end Text

/-- An expression of a name has that name; only an empty name is refused. -/
lemma Expression.endsIn_named (name : String) :
    EndsIn (· = .emptyIdentifier) (· = .identifier name) (named name) := by
  simp only [named]
  split
  · rfl
  · rfl

/-- An identifier that is lowered by its spelling keeps the spelling. -/
lemma LowerContext.endsIn_lowerPlain {n : Nat} {ctx : LowerContext n} {i : Fin n}
    (hkind : ctx.tree.kind i = .identifier) {name : Name} (hname : ctx.tree.text i = some name)
    {x : String} (hx : ctx.interner.spelling name = .ok x) :
    EndsIn (· = .emptyIdentifier)
      (fun r => ∃ e, r = .ok e ∧ Lowered ctx.tree ctx.interner i e) (ctx.lowerPlain i) := by
  rw [lowerPlain_eq_named hkind hname hx]
  refine (Expression.endsIn_named x).map ?_
  rintro e rfl
  refine ⟨_, rfl, fun y hy => ⟨name, hname, ?_⟩⟩
  rw [hx, Expression.identifier.inj hy]

/-- Builtin names are lowered to something else than identifiers, without a look at the hoist
plan. -/
lemma Builtin.endsIn_expander {n : Nat} {expander : Expander n}
    (h : expander = promise ∨ expander = packageVersion) (ctx : LowerContext n)
    (state : HoistState n) (i : Fin n) :
    EndsIn (· = .emptyIdentifier) (fun r => (∀ x, r.1 ≠ .identifier x) ∧ r.2 = state)
      (expander ctx state i) := by
  rcases h with rfl | rfl
  · simp only [promise]
    refine (Expression.endsIn_named _).bind fun e _ => ?_
    exact ⟨by simp, rfl⟩
  · simp only [packageVersion]
    split
    · exact ⟨by simp, rfl⟩
    · exact ⟨by simp, rfl⟩

/-- A symbol without a declaration asks for nothing. -/
lemma HoistState.checkHoist_of_no_declaration {n : Nat} {t : SyntaxTree n}
    {model : SemanticModel (Fin n)} {state : HoistState n} {i : Fin n} {s : SymbolId}
    (h : model.valueDeclaration s = none) : (state.checkHoist t model i s).2 = state := by
  simp only [HoistState.checkHoist]
  split
  · rfl
  · simp [placement, h]

namespace Binding.Covers

variable {n : Nat} {t : SyntaxTree n} {J : Interner} {globals : List Name} {B : Binding n}

/-! ## One identifier -/

/-- Global symbols have no declaration. -/
lemma valueDeclaration_of_global (h : B.Covers t globals (t.surface t.root)) {name : Name}
    {s : SymbolId} (hs : B.symbols.global? name = some s) :
    B.symbols.valueDeclaration s = none :=
  SymbolTable.valueDeclaration_of_symbol? (h.symbol?_of_getElem?_globals (h.getElem?_of_global? hs))

/-- The undefined value has no declaration. -/
lemma valueDeclaration_of_isUndefined (h : B.Covers t globals (t.surface t.root))
    (hglobals : globals ≠ []) {s : SymbolId} (hs : B.symbols.isUndefined s = true) :
    B.symbols.valueDeclaration s = none := by
  obtain rfl := h.isUndefined_iff.1 hs
  obtain ⟨g, rest, rfl⟩ := List.exists_cons_of_ne_nil hglobals
  exact SymbolTable.valueDeclaration_of_symbol?
    (h.symbol?_of_getElem?_globals List.getElem?_cons_zero)

/-- **Lowering an identifier** fails if the identifier has no symbol; otherwise it gives an
expression and visits the identifier.

**Proof sketch.** The cases of the lowering. Without a symbol nothing happens besides reading the
text. The undefined value and the symbols with an expander have no declaration, so that a check
would leave the state as it is. Any other identifier is checked, which is the visit, and its name is
spelled. -/
theorem lowerIdentifier (h : B.Covers t globals (t.surface t.root)) (hglobals : globals ≠ [])
    (hspelled : t.Spelled J) (options : LowerOptions) {table : ExpanderTable n}
    (htable : table.OnlyBuiltins B.symbols) (state : HoistState n) {i : Fin n}
    (hkind : t.kind i = .identifier) :
    EndsIn (· = .emptyIdentifier)
      (fun r => r.2 = state.visit t B.symbols.model i ∧
        match B.symbols.reference? i with
        | some _ => ∃ e, r.1 = .ok e ∧ Lowered t J i e
        | none =>
          match t.text i with
          | none => r.1 = .error (.notAnIdentifier .identifier (t.span i))
          | some name => ∃ s, J.spelling name = .ok s ∧
              r.1 = .error (.unresolvedIdentifier s (t.span i)))
      (Predeclare.lowerIdentifier ⟨t, J, B.symbols.model, options⟩ table state i) := by
  have hsymbolAt : B.symbols.model.symbolAt i = B.symbols.reference? i := rfl
  cases hs : B.symbols.reference? i with
  | none =>
    rw [hs] at hsymbolAt
    have hvisit : state.visit t B.symbols.model i = state := by
      simp only [HoistState.visit, hsymbolAt]
    rw [hvisit]
    cases htext : t.text i with
    | none =>
      have hnot : ¬ t.IsNamedIdentifier i := by
        rintro ⟨_, name, hname⟩
        rw [htext] at hname
        cases hname
      rw [lowerIdentifier_of_not_named hsymbolAt hnot, hkind]
      exact ⟨rfl, rfl⟩
    | some name =>
      obtain ⟨name', s, hname', hspelling, hlower⟩ :=
        @lowerIdentifier_of_named n ⟨t, J, B.symbols.model, options⟩ i hspelled hsymbolAt
          ⟨hkind, name, htext⟩ table state
      obtain rfl : name = name' := Option.some.inj (htext.symm.trans hname')
      rw [hlower]
      exact ⟨rfl, s, hspelling, rfl⟩
  | some s =>
    rw [hs] at hsymbolAt
    have hvisit : state.visit t B.symbols.model i =
        (state.checkHoist t B.symbols.model i s).2 := by
      simp only [HoistState.visit, hsymbolAt]
    rw [hvisit]
    cases hundefined : B.symbols.model.isUndefined s with
    | true =>
      have hnone : B.symbols.model.valueDeclaration s = none :=
        h.valueDeclaration_of_isUndefined hglobals hundefined
      rw [lowerIdentifier_of_undefined hsymbolAt hundefined,
        HoistState.checkHoist_of_no_declaration hnone]
      exact ⟨rfl, .nil, rfl, fun x hx => by cases hx⟩
    | false =>
      cases hexpander : table.get? s with
      | some expander =>
        -- an expander makes no check, and none could announce anything for a global
        obtain ⟨hbuiltin, name, hglobal⟩ := htable s expander hexpander
        have hnone : B.symbols.model.valueDeclaration s = none :=
          h.valueDeclaration_of_global hglobal
        rw [lowerIdentifier_of_expander hsymbolAt hundefined hexpander,
          HoistState.checkHoist_of_no_declaration hnone]
        refine (Builtin.endsIn_expander hbuiltin _ state i).map ?_
        rintro ⟨e, state'⟩ ⟨he, rfl⟩
        exact ⟨rfl, e, rfl, fun x hx => absurd hx (he x)⟩
      | none =>
        obtain ⟨_, _, name, _, hname, _⟩ := h.reference?_eq_some_iff.1 hs
        obtain ⟨x, hx⟩ := hspelled i name hname
        rw [lowerIdentifier_of_plain hsymbolAt hundefined hexpander]
        refine (LowerContext.endsIn_lowerPlain hkind hname hx).map ?_
        rintro r ⟨e, rfl, he⟩
        exact ⟨rfl, e, rfl, he⟩

/-! ## All identifiers -/

/-- In a unit without errors an identifier has a symbol unless it cannot be lowered.

**Proof sketch.** An identifier with a name is on the surface or below an identifier, where it has
no symbol. On the surface its name means something, since otherwise there would be a report. -/
lemma exists_reference?_iff (h : B.Covers t globals (t.surface t.root)) (herrors : B.errors = [])
    (hspelled : t.Spelled J) {i : Fin n} (hreach : t.Reachable i) (hkind : t.kind i = .identifier) :
    (∃ s, B.symbols.reference? i = some s) ↔ t.loweringFailure? J i = none := by
  simp only [SyntaxTree.loweringFailure?]
  cases htext : t.text i with
  | none =>
    simp only [reduceCtorEq, iff_false, not_exists]
    intro s hs
    obtain ⟨_, _, name, _, hname, _⟩ := h.reference?_eq_some_iff.1 hs
    rw [htext] at hname
    cases hname
  | some name =>
    obtain ⟨spelling, hspelling⟩ := hspelled i name htext
    dsimp only
    by_cases hbelow : t.BelowIdentifier i
    · rw [if_pos hbelow, hspelling, h.reference?_eq_none_of_belowIdentifier hbelow]
      simp [Except.toOption]
    · rw [if_neg hbelow]
      simp only [iff_true]
      have hsurface := SyntaxTree.mem_surface_root_iff.2 ⟨hreach, hbelow⟩
      obtain ⟨d, hd⟩ : ∃ d, t.visibleDefinition? globals i name = some d := by
        rw [← Option.ne_none_iff_exists']
        intro hnone
        obtain ⟨_, hreport⟩ := h.exists_undefinedName_mem_errors hsurface hkind htext hnone
        rw [herrors] at hreport
        exact absurd hreport List.not_mem_nil
      exact ⟨d.symbol, h.reference?_eq_some_iff.2 ⟨hsurface, hkind, name, d, htext, hd, rfl⟩⟩

/-- In a unit without errors it can be read off the tree whether an identifier is lowered.

**Proof sketch.** `lowerIdentifier`, with the symbol traded for what `exists_reference?_iff` says of
it. -/
lemma lowerIdentifier_of_no_errors (h : B.Covers t globals (t.surface t.root))
    (hglobals : globals ≠ []) (hspelled : t.Spelled J) (herrors : B.errors = [])
    (options : LowerOptions) {table : ExpanderTable n} (htable : table.OnlyBuiltins B.symbols)
    (state : HoistState n) {i : Fin n} (hreach : t.Reachable i) (hkind : t.kind i = .identifier) :
    EndsIn (· = .emptyIdentifier)
      (fun r => r.2 = state.visit t B.symbols.model i ∧
        match t.loweringFailure? J i with
        | some e => r.1 = .error e
        | none => ∃ e, r.1 = .ok e ∧ Lowered t J i e)
      (Predeclare.lowerIdentifier ⟨t, J, B.symbols.model, options⟩ table state i) := by
  have hiff := h.exists_reference?_iff herrors hspelled hreach hkind
  apply (h.lowerIdentifier hglobals hspelled options htable state hkind).mono
  rintro ⟨r, state'⟩ ⟨hstate, hr⟩
  refine ⟨hstate, ?_⟩
  cases hs : B.symbols.reference? i with
  | some s =>
    rw [hs] at hr hiff
    rw [hiff.1 ⟨s, rfl⟩]
    exact hr
  | none =>
    rw [hs] at hr hiff
    simp only [SyntaxTree.loweringFailure?] at hiff ⊢
    cases htext : t.text i with
    | none =>
      rw [htext] at hr
      exact hr
    | some name =>
      rw [htext] at hr hiff
      obtain ⟨spelling, hspelling, hr⟩ := hr
      by_cases hbelow : t.BelowIdentifier i
      · simpa [hbelow, hspelling, Except.toOption] using hr
      · simp [hbelow] at hiff

/-- **Lowering a list of identifiers** stops at the first that cannot be lowered. If there is none,
each gets its expression and is visited, in order.

**Proof sketch.** Induction over the list. The first identifier decides at once if it cannot be
lowered; otherwise the rest of the list is lowered with one more expression and in the state after
the visit. -/
theorem lowerAll (h : B.Covers t globals (t.surface t.root)) (hglobals : globals ≠ [])
    (hspelled : t.Spelled J) (herrors : B.errors = []) (options : LowerOptions)
    {table : ExpanderTable n} (htable : table.OnlyBuiltins B.symbols) (l : List (Fin n))
    (out : UnitOutput n) (state : HoistState n)
    (hl : ∀ i ∈ l, t.Reachable i ∧ t.kind i = .identifier)
    (hnodup : (out.expressions.keys ++ l).Nodup) :
    EndsIn (· = .emptyIdentifier)
      (fun r => match l.findSome? (t.loweringFailure? J) with
        | some e => r = .error e
        | none => ∃ out', r = .ok out' ∧ out'.expressions.keys = out.expressions.keys ++ l ∧
            out'.hoists = (l.foldl (HoistState.visit t B.symbols.model) state).plan ∧
            ∀ i e, out'.expressions.get? i = some e →
              out.expressions.get? i = some e ∨ Lowered t J i e)
      (Predeclare.lowerAll ⟨t, J, B.symbols.model, options⟩ table l out state) := by
  induction l generalizing out state with
  | nil =>
    exact ⟨_, rfl, by simp, rfl, fun i e he => Or.inl he⟩
  | cons i rest ih =>
    obtain ⟨hreach, hkind⟩ := hl i List.mem_cons_self
    have hnew : i ∉ out.expressions.keys := by
      intro hi
      exact (List.nodup_append.1 hnodup).2.2 i hi i List.mem_cons_self rfl
    simp only [Predeclare.lowerAll]
    refine (h.lowerIdentifier_of_no_errors hglobals hspelled herrors options htable state hreach
      hkind).bind ?_
    rintro ⟨r, state'⟩ ⟨hstate, hr⟩
    dsimp only at hstate hr
    rw [List.findSome?_cons]
    cases hfailure : t.loweringFailure? J i with
    | some e =>
      rw [hfailure] at hr
      dsimp only at hr
      rw [hr]
      rfl
    | none =>
      rw [hfailure] at hr
      obtain ⟨e, rfl, he⟩ := hr
      have hkeys : (out.expressions.insert i e).keys = out.expressions.keys ++ [i] := by
        rw [OrderedMap.keys_insert, if_neg hnew]
      subst hstate
      have hrest := ih { out with expressions := out.expressions.insert i e }
        (state.visit t B.symbols.model i) (fun j hj => hl j (List.mem_cons_of_mem i hj))
        (by rw [hkeys]; simpa using hnodup)
      refine hrest.mono fun r' hr' => ?_
      cases hfailure : rest.findSome? (t.loweringFailure? J) with
      | some e' =>
        rw [hfailure] at hr'
        exact hr'
      | none =>
        rw [hfailure] at hr'
        obtain ⟨out', rfl, hkeys', hhoists, hexpressions⟩ := hr'
        refine ⟨out', rfl, ?_, hhoists, fun j e' he' => ?_⟩
        · rw [hkeys', hkeys, List.append_assoc]
          rfl
        · rcases hexpressions j e' he' with hold | hlowered
          · rw [OrderedMap.get?_insert] at hold
            split at hold
            · rename_i hj
              obtain rfl := Option.some.inj hold
              exact Or.inr (hj ▸ he)
            · exact Or.inl hold
          · exact Or.inr hlowered

end Binding.Covers

end Predeclare
