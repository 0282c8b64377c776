import Predeclare.Proofs.Binding.Answers

set_option relaxedAutoImplicit false
set_option autoImplicit false

/-!
# Binding follows the lexical rule

A reference is bound to the symbol of the first declaration of its name in the innermost scope
around it that declares the name, wherever the declaration stands. A name that no scope around the
reference declares is that of a global, or is reported. This holds of all references on the surface
of the tree. Below an identifier the binder does not look, so a reference that lies there is left
without a symbol, whatever its name means.

## Main results

* `bind_follows_lexical_rule` — every reference of a unit, on the surface and below it.
-/

namespace Predeclare

/-- What the binding of a unit records for a reference `r` named `name`, in accordance with the
lexical rule. -/
def Binding.FollowsLexicalRule {n : Nat} (t : SyntaxTree n) (J : Interner)
    (spellings : List String) (B : Binding n) (r : Fin n) (name : Name) : Prop :=
  match t.lexicalBinding? r name with
  | some (a, d) =>
    -- the symbol is the one that the scope of `a` knows the name by, and `d` declares it
    ∃ s, B.symbols.reference? r = some s ∧ B.symbols.symbol? s = some d.symbol ∧
      B.symbols.valueDeclaration s = some d.node ∧
      ∃ scope ∈ B.scopes.scopes.toList, scope.node = some a ∧
        scope.definitions.get? name = some ⟨s, t.span d.node⟩
  | none =>
    if ∃ spelling ∈ "undefined" :: spellings, J.spelling name = .ok spelling then
      ∃ s, B.symbols.reference? r = some s ∧ B.symbols.global? name = some s ∧
        B.symbols.valueDeclaration s = none
    else
      B.symbols.reference? r = none ∧
        ∃ suggestions, .undefinedName name (t.span r) suggestions ∈ B.errors

variable {n : Nat} {t : SyntaxTree n} {I J : Interner} {E : Enumeration}
  {spellings : List String} {B : Binding n}

/-- A binding that is made of what the surface contributes follows the lexical rule there.

**Proof sketch.** By the binding of the name at the reference. A scope around the reference that
declares it has been made, with its symbol; a global has its symbol in the table; and a name without
either gives no reference, but a report. -/
lemma Binding.Covers.followsLexicalRule {globals : List Name}
    (h : B.Covers t globals (t.surface t.root)) (hglobals : GlobalNames J spellings globals)
    {r : Fin n} {name : Name} (hr : r ∈ t.surface t.root) (hkind : t.kind r = .identifier)
    (hname : t.text r = some name) (hknown : J.Knows name) :
    B.FollowsLexicalRule t J spellings r name := by
  have hglobal : name ∈ globals ↔
      ∃ spelling ∈ "undefined" :: spellings, J.spelling name = .ok spelling :=
    hglobals.mem_iff_exists hknown
  simp only [Binding.FollowsLexicalRule]
  cases hlex : t.lexicalBinding? r name with
  | some binding =>
    obtain ⟨a, d⟩ := binding
    obtain ⟨s, hvisible, hget, hsymbol⟩ := h.exists_symbol_of_lexicalBinding hr hlex
    refine ⟨s, ?_, hsymbol, ?_, t.scopeData globals a, ?_, rfl, hget⟩
    · exact h.reference?_eq_some_iff.2 ⟨hr, hkind, name, _, hname, hvisible, rfl⟩
    · exact SymbolTable.valueDeclaration_of_symbol? hsymbol
    · have haround := (SyntaxTree.mem_scopesAround_iff.1
        (SyntaxTree.mem_scopeDeclarations_of_lexicalBinding hlex).1)
      rw [h.scopes]
      refine List.mem_cons_of_mem _ (List.mem_map_of_mem (List.mem_filter.2 ⟨?_, haround.2⟩))
      exact (SyntaxTree.above_mem_surface hr haround.1).1
  | none =>
    dsimp only
    split
    · rename_i hspelling
      obtain ⟨s, kind, hvisible, hs, hsymbol⟩ :=
        h.exists_symbol_of_global hlex (hglobal.2 hspelling)
      refine ⟨s, ?_, hs, ?_⟩
      · exact h.reference?_eq_some_iff.2 ⟨hr, hkind, name, _, hname, hvisible, rfl⟩
      · exact SymbolTable.valueDeclaration_of_symbol? hsymbol
    · rename_i hspelling
      have hnone := visibleDefinition?_eq_none (t := t) hlex fun hmem => hspelling (hglobal.1 hmem)
      exact ⟨h.reference?_eq_none_of_no_definition hname hnone,
        h.exists_undefinedName_mem_errors hr hkind hname hnone⟩

/-- **Binding follows the lexical rule** at every reference that is not below an identifier, and
leaves the others without a symbol. A unit in which every node that is asked to declare a name can
declare it is bound without a fault.

**Proof sketch.** By `covers_bind` the binding is made of what the surface contributes, or a
declaring node cannot declare. On the surface the lexical rule holds by
`Binding.Covers.followsLexicalRule`, and below an identifier nothing is recorded. -/
theorem bind_follows_lexical_rule (hspelled : t.Spelled I)
    (hdeclares : ∀ kind, bind t I spellings E ≠ .error (.cannotDeclare kind)) :
    ∃ B J, bind t I spellings E = .ok (B, J) ∧
      ∀ r name, t.Reachable r → t.kind r = .identifier → t.text r = some name →
        (¬ t.BelowIdentifier r → B.FollowsLexicalRule t J spellings r name) ∧
        (t.BelowIdentifier r → B.symbols.reference? r = none) := by
  obtain ⟨J, globals, hJ, hglobals, hends⟩ := covers_bind hspelled spellings
  cases hbind : bind t I spellings E with
  | error fault =>
    obtain ⟨a, _, d, _, _, rfl⟩ := hends.of_error hbind
    exact absurd hbind (hdeclares _)
  | ok result =>
    obtain ⟨B, J'⟩ := result
    obtain ⟨rfl, hcovers⟩ := hends.of_ok hbind
    refine ⟨B, _, rfl, fun r name hreach hkind hname => ⟨fun hsurface => ?_, fun hbelow => ?_⟩⟩
    · refine hcovers.followsLexicalRule hglobals ?_ hkind hname (hspelled.extends hJ r name hname)
      exact SyntaxTree.mem_surface_root_iff.2 ⟨hreach, hsurface⟩
    · exact hcovers.reference?_eq_none_of_belowIdentifier hbelow

/-! ## An identifier below an identifier

The tree of `x; let x;`, except that the node of the reference has another identifier `x` as its
child. -/

/-- A reference with a reference below it, in front of the declaration of their name. -/
def SyntaxTree.identifierBelowIdentifier : SyntaxTree 7 where
  file := ⟨0⟩
  nodes := #v[
    ⟨.identifier, some 1, [], some ⟨0⟩, ⟨0, 1⟩⟩,
    ⟨.identifier, some 2, [0], some ⟨0⟩, ⟨0, 1⟩⟩,
    ⟨.expressionStatement, some 6, [1], none, ⟨0, 1⟩⟩,
    ⟨.variableDeclaration, some 4, [], some ⟨0⟩, ⟨2, 3⟩⟩,
    ⟨.variableDeclarationList, some 5, [3], none, ⟨2, 3⟩⟩,
    ⟨.variableStatement, some 6, [4], none, ⟨2, 3⟩⟩,
    ⟨.sourceFile, none, [2, 5], none, ⟨0, 3⟩⟩]
  root := 6
  mem_children_iff_parent := by decide
  nodup_node_children := by decide
  child_lt_parent := by decide
  le_root := by decide
  kind_node_root := by decide

/-- The names of the tree have spellings. -/
lemma spelled_identifierBelowIdentifier :
    SyntaxTree.identifierBelowIdentifier.Spelled .onlyX :=
  SyntaxTree.spelled_of_index_lt (by decide)

/-- Binding the tree succeeds, and leaves the lower reference without a symbol. -/
lemma bind_identifierBelowIdentifier :
    ∃ B J, bind .identifierBelowIdentifier .onlyX [] = .ok (B, J) ∧
      B.symbols.reference? 0 = none := by
  have hrun : EndsIn (fun _ => False) (fun r => r.1.symbols.reference? 0 = none)
      (bind .identifierBelowIdentifier .onlyX []) := by decide +kernel
  obtain ⟨⟨B, J⟩, hbind, hnone⟩ := hrun.exists_eq_ok
  exact ⟨B, J, hbind, hnone⟩

/-- The upper reference is bound to the declaration behind it, the lower one to nothing. -/
theorem bind_follows_lexical_rule_below_identifier :
    SyntaxTree.identifierBelowIdentifier.Spelled .onlyX ∧
    (∀ kind, bind .identifierBelowIdentifier .onlyX [] ≠ .error (.cannotDeclare kind)) ∧
    ∃ B J, bind .identifierBelowIdentifier .onlyX [] = .ok (B, J) ∧
      (∃ s, B.symbols.reference? 1 = some s ∧ B.symbols.valueDeclaration s = some 3) ∧
      B.symbols.reference? 0 = none := by
  have hdeclares : ∀ kind,
      bind .identifierBelowIdentifier .onlyX [] ≠ .error (.cannotDeclare kind) := by
    obtain ⟨B, J, hbind, _⟩ := bind_identifierBelowIdentifier
    intro kind h
    rw [hbind] at h
    cases h
  refine ⟨spelled_identifierBelowIdentifier, hdeclares, ?_⟩
  obtain ⟨B, J, hbind, hrule⟩ :=
    bind_follows_lexical_rule spelled_identifierBelowIdentifier hdeclares
  refine ⟨B, J, hbind, ?_, ?_⟩
  · have hupper := (hrule 1 ⟨0⟩ (by decide +kernel) rfl rfl).1 (by decide +kernel)
    have hlex : SyntaxTree.identifierBelowIdentifier.lexicalBinding? 1 ⟨0⟩ =
        some (6, ⟨⟨0⟩, .variable, 3⟩) := by decide +kernel
    simp only [Binding.FollowsLexicalRule] at hupper
    rw [hlex] at hupper
    obtain ⟨s, hs, _, hdeclaration, _⟩ := hupper
    exact ⟨s, hs, hdeclaration⟩
  · exact (hrule 0 ⟨0⟩ (by decide +kernel) rfl rfl).2 (by decide +kernel)

/-- The lower reference is reachable and its name is declared by the source file, yet it has no
symbol. -/
theorem lexical_rule_fails_below_identifier :
    SyntaxTree.identifierBelowIdentifier.Reachable 0 ∧
    SyntaxTree.identifierBelowIdentifier.kind 0 = .identifier ∧
    SyntaxTree.identifierBelowIdentifier.text 0 = some ⟨0⟩ ∧
    SyntaxTree.identifierBelowIdentifier.lexicalBinding? 0 ⟨0⟩ =
      some (6, ⟨⟨0⟩, .variable, 3⟩) ∧
    ∃ B J, bind .identifierBelowIdentifier .onlyX [] = .ok (B, J) ∧
      B.symbols.reference? 0 = none :=
  ⟨by decide +kernel, rfl, rfl, by decide +kernel, bind_identifierBelowIdentifier⟩

end Predeclare
