import Predeclare.Proofs.Lowering.Identifier

set_option relaxedAutoImplicit false
set_option autoImplicit false

/-!
# Compiling a unit, step by step

A unit is bound, and then its identifiers are lowered in preorder. What is known about the two steps
is put together here: how a compilation can end, and what is known of a unit that was compiled.

## Main definitions

* `Compiled` — what is known of a unit that was compiled.

## Main results

* `endsIn_compile` — how a compilation can end.
* `compiled_of_compile` — what a successful compilation tells about its unit.
-/

namespace Predeclare

variable {n : Nat} {t : SyntaxTree n} {I J : Interner} {E : Enumeration} {options : CompilerOptions}

/-- The identifiers of a unit are the reachable identifiers. -/
lemma SyntaxTree.identifiers_eq (t : SyntaxTree n) :
    t.identifiers = (t.preorder t.root).filter fun i => t.kind i = .identifier := by
  rw [SyntaxTree.identifiers, SyntaxTree.descendants_eq]

lemma SyntaxTree.mem_identifiers_iff {i : Fin n} :
    i ∈ t.identifiers ↔ t.Reachable i ∧ t.kind i = .identifier := by
  rw [SyntaxTree.identifiers_eq, List.mem_filter, SyntaxTree.mem_preorder_root_iff,
    decide_eq_true_iff]

/-- The identifiers of a unit are listed once. -/
lemma SyntaxTree.nodup_identifiers : t.identifiers.Nodup := by
  rw [SyntaxTree.identifiers_eq]
  exact (SyntaxTree.nodup_preorder t.root).filter _

/-- What is known of a unit that was compiled. -/
structure Compiled (t : SyntaxTree n) (J : Interner) (globals : List Name) (B : Binding n)
    (out : UnitOutput n) : Prop where
  spelled : t.Spelled J
  globalNames : GlobalNames J defaultGlobals globals
  covers : B.Covers t globals (t.surface t.root)
  no_errors : B.errors = []
  no_failure : ∀ i ∈ t.identifiers, t.loweringFailure? J i = none
  keys : out.expressions.keys = t.identifiers
  hoists : out.hoists =
    (t.identifiers.foldl (HoistState.visit t B.symbols.model) .empty).plan
  lowered : ∀ i e, out.expression? i = some e → Lowered t J i e

/-- There are globals. -/
lemma GlobalNames.ne_nil {spellings : List String} {globals : List Name}
    (h : GlobalNames J spellings globals) : globals ≠ [] := by
  obtain ⟨g, rest, rfl, _⟩ := h.head
  exact List.cons_ne_nil g rest

/-- What lowering the identifiers of a bound unit gives.

**Proof sketch.** The loop over the identifiers, by `lowerAll`, started with an empty output and an
empty state. -/
lemma Binding.Covers.endsIn_lowerUnit {globals : List Name} {B : Binding n}
    (h : B.Covers t globals (t.surface t.root)) (hglobals : GlobalNames J defaultGlobals globals)
    (hspelled : t.Spelled J) (herrors : B.errors = []) (options : CompilerOptions) :
    EndsIn (· = .emptyIdentifier)
      (fun r => match t.identifiers.findSome? (t.loweringFailure? J) with
        | some e => r = .error e
        | none => ∃ out, r = .ok out ∧ Compiled t J globals B out)
      (lowerUnit t J B options) := by
  simp only [lowerUnit]
  refine (h.lowerAll hglobals.ne_nil hspelled herrors options.toLowerOptions
    (ExpanderTable.onlyBuiltins_expanders options) t.identifiers ⟨.empty, .empty⟩ .empty
    (fun i hi => SyntaxTree.mem_identifiers_iff.1 hi)
    (by simpa using SyntaxTree.nodup_identifiers)).mono fun r hr => ?_
  cases hfailure : t.identifiers.findSome? (t.loweringFailure? J) with
  | some e =>
    rw [hfailure] at hr
    exact hr
  | none =>
    rw [hfailure] at hr
    obtain ⟨out, rfl, hkeys, hhoists, hlowered⟩ := hr
    refine ⟨out, rfl, hspelled, hglobals, h, herrors, List.findSome?_eq_none_iff.1 hfailure, ?_,
      hhoists, fun i e he => ?_⟩
    · rw [hkeys]
      rfl
    · exact (hlowered i e he).resolve_left (by simp)

/-- **How a compilation can end**: with the errors of binding, with the first identifier that cannot
be lowered, or in a compiled unit. The only faults are nodes that cannot declare what they should,
and identifiers with an empty name.

**Proof sketch.** Binding by `covers_bind`, and then lowering by `Binding.Covers.endsIn_lowerUnit`,
if there are no errors. -/
theorem endsIn_compile (hspelled : t.Spelled I) (options : CompilerOptions) :
    ∃ J globals, J.Extends I ∧ EndsIn (fun fault => t.Misdeclares fault ∨ fault = .emptyIdentifier)
      (fun r => r.2 = J ∧ ∃ B, bind t I defaultGlobals E = .ok (B, J) ∧
        (B.errors ≠ [] → r.1 = .error (.resolution B.errors)) ∧
        (B.errors = [] →
          match t.identifiers.findSome? (t.loweringFailure? J) with
          | some e => r.1 = .error (.internal e)
          | none => ∃ out, r.1 = .ok out ∧ Compiled t J globals B out))
      (compile t I options E) := by
  obtain ⟨J, globals, hJ, hglobals, hbind⟩ := covers_bind hspelled defaultGlobals
  refine ⟨J, globals, hJ, ?_⟩
  simp only [compile]
  cases hB : bind t I defaultGlobals E with
  | error fault => exact Or.inl (hbind.of_error hB)
  | ok result =>
    obtain ⟨B, J'⟩ := result
    obtain ⟨rfl, hcovers⟩ := hbind.of_ok hB
    dsimp only at hcovers hglobals hJ ⊢
    rw [ok_bind]
    dsimp only
    by_cases herrors : B.errors = []
    · rw [if_pos herrors]
      have hunit := hcovers.endsIn_lowerUnit hglobals (hspelled.extends hJ) herrors options
      cases hlower : lowerUnit t J' B options with
      | error fault => exact Or.inr (hunit.of_error hlower)
      | ok r =>
        have hr := hunit.of_ok hlower
        refine ⟨rfl, B, rfl, fun hne => absurd herrors hne, fun _ => ?_⟩
        cases hfailure : t.identifiers.findSome? (t.loweringFailure? J') with
        | some e =>
          rw [hfailure] at hr
          rw [hr]
          rfl
        | none =>
          rw [hfailure] at hr
          obtain ⟨out, rfl, hout⟩ := hr
          exact ⟨out, rfl, hout⟩
    · rw [if_neg herrors]
      exact ⟨rfl, B, rfl, fun _ => rfl, fun hnil => absurd hnil herrors⟩

/-- **A successful compilation** tells that its unit was bound without errors and lowered.

**Proof sketch.** Of the ends that `endsIn_compile` lists, only one has an output. -/
theorem compiled_of_compile (hspelled : t.Spelled I) {out : UnitOutput n}
    (h : compile t I options E = .ok (.ok out, J)) :
    ∃ B globals, bind t I defaultGlobals E = .ok (B, J) ∧ Compiled t J globals B out := by
  obtain ⟨J', globals, _, hends⟩ := endsIn_compile hspelled options
  obtain ⟨rfl, B, hbind, hresolution, hlowered⟩ := hends.of_ok h
  have herrors : B.errors = [] := by
    by_contra hne
    cases hresolution hne
  have hout := hlowered herrors
  cases hfailure : t.identifiers.findSome? (t.loweringFailure? J) with
  | some e =>
    rw [hfailure] at hout
    cases hout
  | none =>
    rw [hfailure] at hout
    obtain ⟨out', hout', hcompiled⟩ := hout
    obtain rfl : out = out' := Except.ok.inj hout'
    exact ⟨B, globals, hbind, hcompiled⟩

end Predeclare
