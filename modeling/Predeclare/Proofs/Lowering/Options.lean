import Mathlib.Data.Option.Basic
import Mathlib.Data.Prod.Basic
import Predeclare.Proofs.Lowering.Exact

set_option relaxedAutoImplicit false
set_option autoImplicit false

/-!
# What options do not change

Options are read by the expanders of builtin names and by nothing else. With the expanders switched
off, the references to builtin names are told to the hoist plan like all others, but their symbols
have no declaration, so the plan does not change. Two compilations of one unit with different
options therefore end in the same error, or in outputs that differ in the expressions of builtin
names only.

## Main results

* `CompilerOptions.form_eq_of_ne`, `CompilerOptions.form_promise_eq`,
  `CompilerOptions.form_version_eq` — the options that the expression of a reference depends on.
* `options_change_builtins_only` — two compilations of one unit.
-/

namespace Predeclare

/-! ## Maps with the same answers -/

namespace OrderedMap

variable {κ α : Type} [DecidableEq κ]

/-- The entries of a map are its keys with their answers. -/
lemma map_some_entries (m : OrderedMap κ α) :
    m.entries.map (Prod.map id some) = m.keys.map fun k => (k, m.get? k) := by
  rw [keys, List.map_map]
  refine List.map_congr_left fun e he => ?_
  show (e.1, some e.2) = (e.1, m.get? e.1)
  rw [get?_eq_some_iff.2 he]

/-- Maps with the same keys in the same order whose answers are replaced one by one have their
entries replaced one by one.

**Proof sketch.** The entries of a map are its keys with their answers. -/
lemma entries_eq_map {m m' : OrderedMap κ α} {φ : α → α} (hkeys : m'.keys = m.keys)
    (hget : ∀ k, m'.get? k = (m.get? k).map φ) :
    m'.entries = m.entries.map (Prod.map id φ) := by
  have hinj : Function.Injective (Prod.map id some : κ × α → κ × Option α) :=
    Function.injective_id.prodMap (Option.some_injective α)
  apply hinj.list_map
  calc m'.entries.map (Prod.map id some)
      = m.keys.map fun k => (k, (m.get? k).map φ) := by
        rw [map_some_entries, hkeys]
        exact List.map_congr_left fun k _ => by rw [hget k]
    _ = (m.entries.map (Prod.map id some)).map (Prod.map id (Option.map φ)) := by
        rw [map_some_entries, List.map_map]
        rfl
    _ = (m.entries.map (Prod.map id φ)).map (Prod.map id some) := by
        rw [List.map_map, List.map_map]
        rfl

/-- Maps with the same keys in the same order and the same answers are equal. -/
lemma eq_of_keys_of_get? {m m' : OrderedMap κ α} (hkeys : m'.keys = m.keys)
    (hget : ∀ k, m'.get? k = m.get? k) : m' = m := by
  have hentries : m'.entries = m.entries.map (Prod.map id id) :=
    entries_eq_map hkeys fun k => by rw [hget k, Option.map_id_fun, id]
  exact ext (by rw [hentries, Prod.map_id, List.map_id])

end OrderedMap

/-! ## One expression -/

namespace CompilerOptions

variable {o₁ o₂ : CompilerOptions} {promise version s : SymbolId}

/-- References to other symbols than the builtin ones have the same expression for all options. -/
lemma form_eq_of_ne (hp : s ≠ promise) (hv : s ≠ version) (x : String) :
    o₁.form promise version s x = o₂.form promise version s x := by
  simp [form, hp, hv]

/-- Without expanders all options give the same expressions. -/
lemma form_eq_of_no_builtins (h₁ : o₁.builtins = false) (h₂ : o₂.builtins = false) (x : String) :
    o₁.form promise version s x = o₂.form promise version s x := by
  simp [form, h₁, h₂]

/-- The expression of a promise depends on the runtime library, once the expanders are on or off. -/
lemma form_promise_eq (hne : promise ≠ version) (hbuiltins : o₁.builtins = o₂.builtins)
    (hlibrary : o₁.runtimeLibrary = o₂.runtimeLibrary) (x : String) :
    o₁.form promise version promise x = o₂.form promise version promise x := by
  simp [form, hne, hbuiltins, hlibrary]

/-- The expression of the package version depends on the version, once the expanders are on or
off. -/
lemma form_version_eq (hne : promise ≠ version) (hbuiltins : o₁.builtins = o₂.builtins)
    (hversion : o₁.packageVersion = o₂.packageVersion) (x : String) :
    o₁.form promise version version x = o₂.form promise version version x := by
  simp [form, hne.symm, hbuiltins, hversion]

end CompilerOptions

/-! ## Two compilations of one unit -/

section TwoRuns

variable {n : Nat} {t : SyntaxTree n} {I J : Interner} {E : Enumeration} {o₁ o₂ : CompilerOptions}

/-- A reference has the same expression for two options under which its symbol has the same
form.

**Proof sketch.** Both outputs have expressions for the identifiers of the tree only, and there the
symbol and the spelling are the same in both. -/
lemma Compiled.expression?_eq {globals : List Name} {B : Binding n} {out₁ out₂ : UnitOutput n}
    (hcompiled₁ : Compiled t J globals B out₁) (hcompiled₂ : Compiled t J globals B out₂)
    (h₁ : compile t I o₁ E = .ok (.ok out₁, J)) (h₂ : compile t I o₂ E = .ok (.ok out₂, J))
    (hbind : bind t I defaultGlobals E = .ok (B, J)) {promise version : SymbolId}
    (hpromise : B.symbols.globalNamed? J "Promise" = some promise)
    (hversion : B.symbols.globalNamed? J "PKG_VERSION" = some version) {r : Fin n}
    (hform : ∀ s x, B.symbols.reference? r = some s →
      o₁.form promise version s x = o₂.form promise version s x) :
    out₁.expression? r = out₂.expression? r := by
  by_cases hr : r ∈ t.identifiers
  · obtain ⟨s, name, x, hs, hname, hx, hexpression₁⟩ :=
      hcompiled₁.exists_form h₁ hbind hpromise hversion hr
    obtain ⟨s', name', x', hs', hname', hx', hexpression₂⟩ :=
      hcompiled₂.exists_form h₂ hbind hpromise hversion hr
    obtain rfl : s = s' := Option.some.inj (hs.symm.trans hs')
    obtain rfl : name = name' := Option.some.inj (hname.symm.trans hname')
    obtain rfl : x = x' := Except.ok.inj (hx.symm.trans hx')
    rw [hexpression₁, hexpression₂, hform s x hs]
  · have hnone₁ : out₁.expression? r = none :=
      OrderedMap.get?_eq_none_iff.2 (hcompiled₁.keys ▸ hr)
    have hnone₂ : out₂.expression? r = none :=
      OrderedMap.get?_eq_none_iff.2 (hcompiled₂.keys ▸ hr)
    rw [hnone₁, hnone₂]

/-- How two compilations of one unit can end: in the same error, or both in an output.

**Proof sketch.** Binding does not read the options, and whether an identifier can be lowered is
read off the tree. -/
lemma compile_ends_alike (hspelled : t.Spelled I) {J₁ J₂ : Interner}
    {r₁ r₂ : Except CompileError (UnitOutput n)} (h₁ : compile t I o₁ E = .ok (r₁, J₁))
    (h₂ : compile t I o₂ E = .ok (r₂, J₂)) :
    J₁ = J₂ ∧ ((∃ e, r₁ = .error e ∧ r₂ = .error e) ∨
      ∃ B globals out₁ out₂, r₁ = .ok out₁ ∧ r₂ = .ok out₂ ∧
        bind t I defaultGlobals E = .ok (B, J₁) ∧ Compiled t J₁ globals B out₁ ∧
        Compiled t J₁ globals B out₂) := by
  obtain ⟨J₁', globals₁, _, hends₁⟩ := endsIn_compile hspelled o₁
  obtain ⟨J₂', globals₂, _, hends₂⟩ := endsIn_compile hspelled o₂
  obtain ⟨rfl, B, hbind, hresolution₁, hlowered₁⟩ := hends₁.of_ok h₁
  obtain ⟨rfl, B', hbind', hresolution₂, hlowered₂⟩ := hends₂.of_ok h₂
  dsimp only at hbind hbind' hresolution₁ hresolution₂ hlowered₁ hlowered₂
  obtain ⟨rfl, rfl⟩ := Prod.mk.inj (Except.ok.inj (hbind.symm.trans hbind'))
  refine ⟨rfl, ?_⟩
  by_cases herrors : B.errors = []
  · have hout₁ := hlowered₁ herrors
    have hout₂ := hlowered₂ herrors
    cases hfailure : t.identifiers.findSome? (t.loweringFailure? J₁) with
    | some e =>
      rw [hfailure] at hout₁ hout₂
      exact Or.inl ⟨_, hout₁, hout₂⟩
    | none =>
      rw [hfailure] at hout₁ hout₂
      obtain ⟨out₁, rfl, hcompiled₁⟩ := hout₁
      obtain ⟨out₂, rfl, hcompiled₂⟩ := hout₂
      exact Or.inr ⟨B, globals₁, out₁, out₂, rfl, rfl, hbind, hcompiled₁,
        { hcompiled₂ with
          globalNames := hcompiled₁.globalNames
          covers := hcompiled₁.covers }⟩
  · exact Or.inl ⟨_, hresolution₁ herrors, hresolution₂ herrors⟩

/-- **Options change the expressions of builtin names only.** Two compilations of one unit in which
no promise is broken end in the same error, or both have an output, with the same hoist plan, for
the same references in the same order. The expressions are the same at every reference that is not
bound to the global `Promise` or `PKG_VERSION`. If the expanders are on in both or off in both, a
reference to `Promise` has another expression only if the runtime libraries are different, and one
to `PKG_VERSION` only if the package versions are; if they are off in both, the outputs are
equal.

**Proof sketch.** By `Compiled.expression?_eq` only the form of the symbol counts. It depends on the
options for the two builtin symbols alone, for each on one of the options. The hoist plan is that of
the visits, which do not read the options. -/
theorem options_change_builtins_only (hspelled : t.Spelled I) {J₁ J₂ : Interner}
    {r₁ r₂ : Except CompileError (UnitOutput n)} (h₁ : compile t I o₁ E = .ok (r₁, J₁))
    (h₂ : compile t I o₂ E = .ok (r₂, J₂)) :
    J₁ = J₂ ∧ ((∃ e, r₁ = .error e ∧ r₂ = .error e) ∨
      ∃ out₁ out₂ B promise version, r₁ = .ok out₁ ∧ r₂ = .ok out₂ ∧
        bind t I defaultGlobals E = .ok (B, J₁) ∧
        B.symbols.globalNamed? J₁ "Promise" = some promise ∧
        B.symbols.globalNamed? J₁ "PKG_VERSION" = some version ∧
        out₁.hoists = out₂.hoists ∧
        out₁.expressions.keys = out₂.expressions.keys ∧
        (∀ r, B.symbols.reference? r ≠ some promise → B.symbols.reference? r ≠ some version →
          out₁.expression? r = out₂.expression? r) ∧
        (o₁.builtins = o₂.builtins → ∀ r, out₁.expression? r ≠ out₂.expression? r →
          (B.symbols.reference? r = some promise → o₁.runtimeLibrary ≠ o₂.runtimeLibrary) ∧
          (B.symbols.reference? r = some version → o₁.packageVersion ≠ o₂.packageVersion)) ∧
        (o₁.builtins = false → o₂.builtins = false → out₁ = out₂)) := by
  obtain ⟨rfl, hends⟩ := compile_ends_alike hspelled h₁ h₂
  refine ⟨rfl, hends.imp_right ?_⟩
  rintro ⟨B, globals, out₁, out₂, rfl, rfl, hbind, hcompiled₁, hcompiled₂⟩
  have hcovers := hcompiled₁.covers
  obtain ⟨promise, hpromise⟩ :=
    hcovers.exists_globalNamed? hcompiled₁.globalNames (x := "Promise") (by decide)
  obtain ⟨version, hversion⟩ :=
    hcovers.exists_globalNamed? hcompiled₁.globalNames (x := "PKG_VERSION") (by decide)
  have hne : promise ≠ version := hcovers.ne_of_globalNamed? hpromise hversion (by decide)
  have hagree : ∀ {r}, (∀ s x, B.symbols.reference? r = some s →
      o₁.form promise version s x = o₂.form promise version s x) →
      out₁.expression? r = out₂.expression? r :=
    fun hform => hcompiled₁.expression?_eq hcompiled₂ h₁ h₂ hbind hpromise hversion hform
  have hhoists : out₁.hoists = out₂.hoists := hcompiled₁.hoists.trans hcompiled₂.hoists.symm
  have hkeys : out₁.expressions.keys = out₂.expressions.keys :=
    hcompiled₁.keys.trans hcompiled₂.keys.symm
  refine ⟨out₁, out₂, B, promise, version, rfl, rfl, hbind, hpromise, hversion, hhoists, hkeys,
    fun r hp hv => ?_, fun hbuiltins r hdiffer => ⟨fun hs hlibrary => ?_, fun hs hsame => ?_⟩,
    fun hoff₁ hoff₂ => ?_⟩
  · refine hagree fun s x hs => CompilerOptions.form_eq_of_ne ?_ ?_ x
    · exact fun h => hp (h ▸ hs)
    · exact fun h => hv (h ▸ hs)
  · refine hdiffer (hagree fun s x hs' => ?_)
    obtain rfl : promise = s := Option.some.inj (hs.symm.trans hs')
    exact CompilerOptions.form_promise_eq hne hbuiltins hlibrary x
  · refine hdiffer (hagree fun s x hs' => ?_)
    obtain rfl : version = s := Option.some.inj (hs.symm.trans hs')
    exact CompilerOptions.form_version_eq hne hbuiltins hsame x
  · have hexpressions : out₁.expressions = out₂.expressions :=
      OrderedMap.eq_of_keys_of_get? hkeys fun r =>
        hagree fun s x _ => CompilerOptions.form_eq_of_no_builtins hoff₁ hoff₂ x
    cases out₁
    cases out₂
    simp only at hexpressions hhoists
    rw [hexpressions, hhoists]

end TwoRuns

/-- With the expanders switched off, `Promise` outside of the block is lowered by its spelling and
checked like a local. The plan is the same: it announces the local of the same name. -/
theorem options_change_builtins_only_shadowed :
    ∃ src out₁ out₂ J₁ J₂,
      Source.build ⟨0⟩ .empty Form.shadowedPromise [1, 3, 5, 9] = .ok src ∧
      src.tree.Spelled src.interner ∧
      compile src.tree src.interner .default = .ok (.ok out₁, J₁) ∧
      compile src.tree src.interner { builtins := false } = .ok (.ok out₂, J₂) ∧
      (out₁.expressions.entries.map fun e => (e.1.val, e.2)) =
        [(0, .property (.identifier "TS") "Promise"), (2, .nil), (4, .nil),
          (6, .identifier "Promise")] ∧
      (out₂.expressions.entries.map fun e => (e.1.val, e.2)) =
        [(0, .identifier "Promise"), (2, .identifier "PKG_VERSION"), (4, .nil),
          (6, .identifier "Promise")] ∧
      (out₁.hoists.entries.map fun e => (e.1.val, e.2.map Fin.val)) = [(7, [6])] ∧
      out₁.hoists = out₂.hoists := by
  have hrun : EndsIn (fun _ => False)
      (fun src => EndsIn (fun _ => False)
        (fun r => EndsIn (fun _ => False)
          (fun out => (out.expressions.entries.map (fun e => (e.1.val, e.2)),
              out.hoists.entries.map (fun e => (e.1.val, e.2.map Fin.val))) =
            ([(0, .property (.identifier "TS") "Promise"), (2, .nil), (4, .nil),
              (6, .identifier "Promise")], [(7, [6])])) r.1)
        (compile src.tree src.interner .default) ∧
        EndsIn (fun _ => False)
        (fun r => EndsIn (fun _ => False)
          (fun out => out.expressions.entries.map (fun e => (e.1.val, e.2)) =
            [(0, .identifier "Promise"), (2, .identifier "PKG_VERSION"), (4, .nil),
              (6, .identifier "Promise")]) r.1)
        (compile src.tree src.interner { builtins := false }))
      (Source.build ⟨0⟩ .empty Form.shadowedPromise [1, 3, 5, 9]) := by decide +kernel
  obtain ⟨src, hbuild, hsrc₁, hsrc₂⟩ := hrun.exists_eq_ok
  obtain ⟨⟨outcome₁, J₁⟩, hcompile₁, houtcome₁⟩ := hsrc₁.exists_eq_ok
  obtain ⟨⟨outcome₂, J₂⟩, hcompile₂, houtcome₂⟩ := hsrc₂.exists_eq_ok
  obtain ⟨out₁, rfl, hout₁⟩ := houtcome₁.exists_eq_ok
  obtain ⟨out₂, rfl, hout₂⟩ := houtcome₂.exists_eq_ok
  injection hout₁ with hexpressions₁ hhoists₁
  have hspelled := Source.spelled_of_build hbuild
  refine ⟨src, out₁, out₂, J₁, J₂, hbuild, hspelled, hcompile₁, hcompile₂, hexpressions₁, hout₂,
    hhoists₁, ?_⟩
  obtain ⟨-, ⟨e, he, -⟩ | ⟨out₁', out₂', _, _, _, heq₁, heq₂, _, _, _, hhoists, _⟩⟩ :=
    options_change_builtins_only hspelled hcompile₁ hcompile₂
  · cases he
  · obtain rfl : out₁ = out₁' := Except.ok.inj heq₁
    obtain rfl : out₂ = out₂' := Except.ok.inj heq₂
    exact hhoists

end Predeclare
