import Predeclare.Proofs.Binding.Lexical
import Predeclare.Proofs.Lowering.Identifier

set_option relaxedAutoImplicit false
set_option autoImplicit false

/-!
# What lowering refuses

A node can be given to lowering whether or not it is a reference, and whether or not binding reached
it. A node without a symbol is refused, with an error that depends on whether it is an identifier
with a name, and the announcements made so far are left alone. A node with a symbol is never
refused: a plain reference is checked before its spelling is asked for, but a symbol is recorded
only for identifiers with a name, so the spelling is there.

## Main results

* `Binding.Covers.endsIn_lowerIdentifier_of_symbol` — nodes with a symbol are not.
* `refuses_iff_no_symbol` — what lowering refuses after binding, why, and with which effect.
-/

namespace Predeclare

variable {n : Nat}

section Refusal

variable {ctx : LowerContext n} {I : Interner} {E : Enumeration} {spellings : List String}
  {globals : List Name}
  {B : Binding n} {i : Fin n}

/-- The binder records symbols for identifiers with a name only. -/
lemma Binding.Covers.isNamedIdentifier
    (h : B.Covers ctx.tree globals (ctx.tree.surface ctx.tree.root)) {s : SymbolId}
    (hs : B.symbols.reference? i = some s) : ctx.tree.IsNamedIdentifier i := by
  obtain ⟨_, hkind, name, _, hname, _⟩ := h.reference?_eq_some_iff.1 hs
  exact ⟨hkind, name, hname⟩

/-- **A node with a symbol is not refused**: if it is lowered without a fault, it gets an
expression. The fault can be that of the expander of the symbol or an empty spelling.

**Proof sketch.** The cases of the lowering of a node with a symbol. One that is lowered by its
spelling is a named identifier, since only these are bound. -/
theorem Binding.Covers.endsIn_lowerIdentifier_of_symbol
    (h : B.Covers ctx.tree globals (ctx.tree.surface ctx.tree.root))
    (hspelled : ctx.tree.Spelled ctx.interner) (hmodel : ctx.model = B.symbols.model)
    {s : SymbolId} (hs : B.symbols.reference? i = some s) (table : ExpanderTable n)
    (state : HoistState n) :
    EndsIn
      (fun fault => (∃ expander, table.get? s = some expander ∧
          expander ctx state i = .error fault) ∨
        fault = .emptyIdentifier ∧ ∃ name, ctx.tree.text i = some name ∧
          ctx.interner.spelling name = .ok "")
      (fun r => ∃ e, r.1 = .ok e) (Predeclare.lowerIdentifier ctx table state i) := by
  have hsymbol : ctx.model.symbolAt i = some s := by
    rw [hmodel]
    exact hs
  cases hundefined : ctx.model.isUndefined s with
  | true =>
    rw [lowerIdentifier_of_undefined hsymbol hundefined]
    exact ⟨_, rfl⟩
  | false =>
    cases hexpander : table.get? s with
    | some expander =>
      rw [lowerIdentifier_of_expander hsymbol hundefined hexpander]
      cases hresult : expander ctx state i with
      | ok result => exact ⟨_, rfl⟩
      | error fault => exact Or.inl ⟨expander, rfl, hresult⟩
    | none =>
      -- the announcement is made before the spelling is asked for, and the spelling is there
      obtain ⟨hkind, name, hname⟩ := h.isNamedIdentifier hs
      obtain ⟨x, hx⟩ := hspelled i name hname
      rw [lowerIdentifier_of_plain hsymbol hundefined hexpander,
        LowerContext.lowerPlain_eq_named hkind hname hx]
      simp only [Expression.named]
      by_cases hempty : x = ""
      · subst hempty
        exact Or.inr ⟨rfl, name, hname, hx⟩
      · rw [if_neg hempty]
        exact ⟨_, rfl⟩

/-- **What lowering refuses** after a tree has been bound, with or without errors: exactly the nodes
without a symbol, whatever expanders there are and whatever has been announced before. An identifier
with a name is refused as unresolved, with its spelling and its place, and any other node as no
identifier, with its kind and its place. A refusal changes nothing.

**Proof sketch.** A node with a symbol is not refused, by
`Binding.Covers.endsIn_lowerIdentifier_of_symbol`. Without a symbol the lowering only reads the
text, which is there exactly for a named identifier, and fails in one of two ways. -/
theorem refuses_iff_no_symbol (hspelled : ctx.tree.Spelled I)
    (hbind : bind ctx.tree I spellings E = .ok (B, ctx.interner))
    (hmodel : ctx.model = B.symbols.model) (table : ExpanderTable n) (state : HoistState n)
    (i : Fin n) :
    ((∃ e state', lowerIdentifier ctx table state i = .ok (.error e, state')) ↔
        B.symbols.reference? i = none) ∧
      (∀ e state', lowerIdentifier ctx table state i = .ok (.error e, state') →
        state' = state ∧
        ((∃ name x, ctx.tree.text i = some name ∧ ctx.interner.spelling name = .ok x ∧
            e = .unresolvedIdentifier x (ctx.tree.span i)) ↔ ctx.tree.IsNamedIdentifier i) ∧
        (e = .notAnIdentifier (ctx.tree.kind i) (ctx.tree.span i) ↔
          ¬ ctx.tree.IsNamedIdentifier i)) ∧
      ∀ s, B.symbols.reference? i = some s →
        EndsIn
          (fun fault => (∃ expander, table.get? s = some expander ∧
              expander ctx state i = .error fault) ∨
            fault = .emptyIdentifier ∧ ∃ name, ctx.tree.text i = some name ∧
              ctx.interner.spelling name = .ok "")
          (fun r => ∃ e, r.1 = .ok e) (lowerIdentifier ctx table state i) := by
  obtain ⟨J, globals, hJ, _, hends⟩ := covers_bind hspelled spellings
  obtain ⟨rfl, hcovers⟩ := hends.of_ok hbind
  dsimp only at hcovers hJ
  have hspelled := hspelled.extends hJ
  have hsymbol : ctx.model.symbolAt i = B.symbols.reference? i := by
    rw [hmodel]
    rfl
  cases hs : B.symbols.reference? i with
  | some s =>
    have hnot : ∀ e state', lowerIdentifier ctx table state i ≠ .ok (.error e, state') := by
      intro e state' hrun
      obtain ⟨e', he'⟩ :=
        (hcovers.endsIn_lowerIdentifier_of_symbol hspelled hmodel hs table state).of_ok hrun
      cases he'
    refine ⟨iff_of_false ?_ (by simp), fun e state' hrun => absurd hrun (hnot e state'), ?_⟩
    · rintro ⟨e, state', hrun⟩
      exact hnot e state' hrun
    · intro s' hs'
      obtain rfl := Option.some.inj hs'
      exact hcovers.endsIn_lowerIdentifier_of_symbol hspelled hmodel hs table state
  | none =>
    rw [hs] at hsymbol
    by_cases hi : ctx.tree.IsNamedIdentifier i
    · obtain ⟨name, x, hname, hx, hrun⟩ := lowerIdentifier_of_named hspelled hsymbol hi table state
      rw [hrun]
      refine ⟨iff_of_true ⟨_, _, rfl⟩ rfl, ?_, by simp⟩
      rintro e state' ⟨⟩
      exact ⟨rfl, iff_of_true ⟨name, x, hname, hx, rfl⟩ hi, by simp [hi]⟩
    · have hrun := lowerIdentifier_of_not_named hsymbol hi table state
      rw [hrun]
      refine ⟨iff_of_true ⟨_, _, rfl⟩ rfl, ?_, by simp⟩
      rintro e state' ⟨⟩
      exact ⟨rfl, iff_of_false (by simp) hi, iff_of_true rfl hi⟩

/-- In the tree with a reference below a reference, the lower reference is refused as unresolved,
the statement as no identifier, and the upper reference is not refused. -/
theorem refuses_iff_no_symbol_below_identifier :
    SyntaxTree.identifierBelowIdentifier.Spelled .onlyX ∧
    ∃ B J, bind .identifierBelowIdentifier .onlyX [] = .ok (B, J) ∧
      lowerIdentifier ⟨.identifierBelowIdentifier, J, B.symbols.model, {}⟩ .empty .empty 0 =
        .ok (.error (.unresolvedIdentifier "x" ⟨⟨0⟩, ⟨0, 1⟩⟩), .empty) ∧
      lowerIdentifier ⟨.identifierBelowIdentifier, J, B.symbols.model, {}⟩ .empty .empty 2 =
        .ok (.error (.notAnIdentifier .expressionStatement ⟨⟨0⟩, ⟨0, 1⟩⟩), .empty) ∧
      ∃ s, B.symbols.reference? 1 = some s ∧
        ¬ ∃ e state', lowerIdentifier ⟨.identifierBelowIdentifier, J, B.symbols.model, {}⟩ .empty
          .empty 1 = .ok (.error e, state') := by
  have hrun : EndsIn (fun _ => False)
      (fun r => r.1.symbols.reference? 0 = none ∧ r.1.symbols.reference? 1 = some ⟨1⟩ ∧
        r.1.symbols.reference? 2 = none ∧ r.2.spelling ⟨0⟩ = .ok "x")
      (bind .identifierBelowIdentifier .onlyX []) := by decide +kernel
  obtain ⟨⟨B, J⟩, hbind, hlower, hupper, hstatement, hx⟩ := hrun.exists_eq_ok
  have hrefuses := @refuses_iff_no_symbol 7 ⟨.identifierBelowIdentifier, J, B.symbols.model, {}⟩
    .onlyX .bySpelling [] B spelled_identifierBelowIdentifier hbind rfl .empty .empty
  refine ⟨spelled_identifierBelowIdentifier, B, J, hbind, ?_, ?_, _, hupper, ?_⟩
  · obtain ⟨hiff, hwhy, _⟩ := hrefuses 0
    obtain ⟨e, state', hresult⟩ := hiff.2 hlower
    obtain ⟨rfl, hnamed, _⟩ := hwhy e state' hresult
    obtain ⟨_, _, ⟨⟩, hspelling, rfl⟩ := hnamed.2 ⟨rfl, _, rfl⟩
    obtain rfl := Except.ok.inj (hx.symm.trans hspelling)
    exact hresult
  · obtain ⟨hiff, hwhy, _⟩ := hrefuses 2
    obtain ⟨e, state', hresult⟩ := hiff.2 hstatement
    obtain ⟨rfl, _, hother⟩ := hwhy e state' hresult
    obtain rfl := hother.2 fun hnamed => by cases hnamed.1
    exact hresult
  · intro hrefused
    rw [(hrefuses 1).1.1 hrefused] at hupper
    cases hupper

end Refusal

end Predeclare
