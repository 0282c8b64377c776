import Predeclare.Proofs.Binding.Lexical
import Predeclare.Proofs.Lowering.Unit

set_option relaxedAutoImplicit false
set_option autoImplicit false

/-!
# How compiling a unit ends

Binding and lowering walk the tree in two ways and agree on the identifiers of the surface: each of
them is recorded or reported by binding, so that each can be lowered. Whether a unit has an output
is therefore decided by the errors of binding and, if there are none, by the first identifier in
preorder that cannot be lowered: one without a name, or one below an identifier, where binding does
not look.

## Main results

* `compile_outcome` — which of the outcomes a unit has.
-/

namespace Predeclare

variable {n : Nat} {t : SyntaxTree n} {I : Interner} {E : Enumeration} {options : CompilerOptions}

/-- **How compiling a unit ends**, if no promise is broken on the way. With errors of binding, it
ends in these errors. Otherwise the first identifier in preorder that has no name or lies below an
identifier is an internal error, and if there is none, every reachable identifier has an expression,
in preorder.

**Proof sketch.** `endsIn_compile` without its two faults. The errors of binding are the outcome
only if there are some: an output or an internal error is none. -/
theorem compile_outcome (hspelled : t.Spelled I)
    (hdeclares : ∀ kind, compile t I options E ≠ .error (.cannotDeclare kind))
    (hnames : compile t I options E ≠ .error .emptyIdentifier) :
    ∃ B J outcome, bind t I defaultGlobals E = .ok (B, J) ∧
      compile t I options E = .ok (outcome, J) ∧
      (∀ errors, outcome = .error (.resolution errors) ↔ B.errors ≠ [] ∧ errors = B.errors) ∧
      (B.errors = [] →
        match ((t.preorder t.root).filter fun i => t.kind i = .identifier).findSome?
            (t.loweringFailure? J) with
        | some e => outcome = .error (.internal e)
        | none => ∃ out, outcome = .ok out ∧
            out.expressions.keys = (t.preorder t.root).filter fun i => t.kind i = .identifier) := by
  obtain ⟨J, globals, _, hends⟩ := endsIn_compile hspelled options
  cases hcompile : compile t I options E with
  | error fault =>
    rcases hends.of_error hcompile with ⟨_, _, d, _, _, rfl⟩ | rfl
    · exact absurd hcompile (hdeclares _)
    · exact absurd hcompile hnames
  | ok result =>
    obtain ⟨outcome, J'⟩ := result
    obtain ⟨rfl, B, hbind, hresolution, hlowered⟩ := hends.of_ok hcompile
    dsimp only at hbind hresolution hlowered
    refine ⟨B, J', outcome, hbind, rfl, fun errors => ?_, fun herrors => ?_⟩
    · constructor
      · intro hout
        have hne : B.errors ≠ [] := by
          intro herrors
          have hout' := hlowered herrors
          rw [hout] at hout'
          split at hout'
          · cases hout'
          · obtain ⟨_, hok, _⟩ := hout'
            cases hok
        rw [hresolution hne] at hout
        refine ⟨hne, ?_⟩
        injection hout with hout
        injection hout with hout
        exact hout.symm
      · rintro ⟨hne, rfl⟩
        exact hresolution hne
    · have hout := hlowered herrors
      rw [← SyntaxTree.identifiers_eq]
      cases hfailure : t.identifiers.findSome? (t.loweringFailure? J') with
      | some e =>
        rw [hfailure] at hout
        exact hout
      | none =>
        rw [hfailure] at hout
        obtain ⟨out, rfl, hcompiled⟩ := hout
        exact ⟨out, rfl, hcompiled.keys⟩

/-- In the tree with an identifier below an identifier, the lower one is an internal error. -/
theorem compile_outcome_below_identifier :
    SyntaxTree.identifierBelowIdentifier.Spelled .onlyX ∧
    (∀ kind, compile .identifierBelowIdentifier .onlyX .default ≠ .error (.cannotDeclare kind)) ∧
    compile .identifierBelowIdentifier .onlyX .default ≠ .error .emptyIdentifier ∧
    ∃ B J, bind .identifierBelowIdentifier .onlyX defaultGlobals = .ok (B, J) ∧ B.errors = [] ∧
      compile .identifierBelowIdentifier .onlyX .default =
        .ok (.error (.internal (.unresolvedIdentifier "x" ⟨⟨0⟩, ⟨0, 1⟩⟩)), J) := by
  have hfault : ∀ fault, compile .identifierBelowIdentifier .onlyX .default ≠ .error fault := by
    have hrun : EndsIn (fun _ => False) (fun _ => True)
        (compile .identifierBelowIdentifier .onlyX .default) := by decide +kernel
    intro fault h
    exact hrun.of_error h
  have hbound : EndsIn (fun _ => False)
      (fun r => r.1.errors = [] ∧ r.2.spelling ⟨0⟩ = .ok "x")
      (bind .identifierBelowIdentifier .onlyX defaultGlobals) := by decide +kernel
  refine ⟨spelled_identifierBelowIdentifier, fun kind => hfault _, hfault _, ?_⟩
  obtain ⟨B, J, outcome, hbind, hcompile, _, hlowered⟩ :=
    compile_outcome spelled_identifierBelowIdentifier
      (fun kind => hfault _) (hfault _)
  obtain ⟨herrors, hspelling⟩ := hbound.of_ok hbind
  have hout := hlowered herrors
  have hidentifiers : ((SyntaxTree.identifierBelowIdentifier.preorder
      SyntaxTree.identifierBelowIdentifier.root).filter fun i =>
        SyntaxTree.identifierBelowIdentifier.kind i = .identifier) = [1, 0] := by decide +kernel
  have hupper : SyntaxTree.identifierBelowIdentifier.loweringFailure? J 1 = none := by
    have htext : SyntaxTree.identifierBelowIdentifier.text 1 = some ⟨0⟩ := rfl
    simp only [SyntaxTree.loweringFailure?]
    rw [htext]
    exact if_neg (by decide +kernel)
  have hlower : SyntaxTree.identifierBelowIdentifier.loweringFailure? J 0 =
      some (.unresolvedIdentifier "x" ⟨⟨0⟩, ⟨0, 1⟩⟩) := by
    have htext : SyntaxTree.identifierBelowIdentifier.text 0 = some ⟨0⟩ := rfl
    simp only [SyntaxTree.loweringFailure?]
    rw [htext]
    dsimp only
    rw [if_pos (by decide +kernel), hspelling]
    rfl
  rw [hidentifiers, List.findSome?_cons, hupper, List.findSome?_cons, hlower] at hout
  exact ⟨B, J, hbind, herrors, hout ▸ hcompile⟩

/-- Every reachable identifier of the tree has a name, and binding reports nothing, yet the unit has
no output. -/
theorem compile_fails_below_identifier :
    (∀ i, SyntaxTree.identifierBelowIdentifier.kind i = .identifier →
      SyntaxTree.identifierBelowIdentifier.text i ≠ none) ∧
    (match bind .identifierBelowIdentifier .onlyX defaultGlobals with
      | .ok (B, _) => B.errors = []
      | .error _ => False) ∧
    match compile .identifierBelowIdentifier .onlyX .default with
    | .ok (outcome, _) =>
      outcome = .error (.internal (.unresolvedIdentifier "x" ⟨⟨0⟩, ⟨0, 1⟩⟩))
    | .error _ => False := by
  have hbound : EndsIn (fun _ => False) (fun r => r.1.errors = [])
      (bind .identifierBelowIdentifier .onlyX defaultGlobals) := by decide +kernel
  have hcompiled : EndsIn (fun _ => False)
      (fun r => r.1 = .error (.internal (.unresolvedIdentifier "x" ⟨⟨0⟩, ⟨0, 1⟩⟩)))
      (compile .identifierBelowIdentifier .onlyX .default) := by decide +kernel
  obtain ⟨_, hbind, herrors⟩ := hbound.exists_eq_ok
  obtain ⟨_, hcompile, houtcome⟩ := hcompiled.exists_eq_ok
  rw [hbind, hcompile]
  exact ⟨by decide, herrors, houtcome⟩

end Predeclare
