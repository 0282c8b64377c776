import Mathlib.Data.List.Dedup
import Predeclare.Proofs.Binding.Answers
import Predeclare.Proofs.Tree.Texts

set_option relaxedAutoImplicit false
set_option autoImplicit false

/-!
# The reports about a unit

Binding reports the repeated declarations of each scope when it opens the scope, and each undefined
name when it comes to its reference. Neither loses, repeats or reorders a report, however scopes are
nested: the reports are those of the nodes one by one, in preorder. They are compared without the
suggestions that come with undefined names. A repeated declaration is reported, and still gets a
symbol of its own.

Below an identifier the binder does not look, so what lies there is neither reported nor declared.

## Main definitions

* `SyntaxTree.ruleReports` — what there is to report about one node.
* `SyntaxTree.boundNodes` — the nodes that are bound, in preorder.
* `distinctGlobals` — the number of the globals, each counted once.

## Main results

* `bind_reports_exact` — the reports and the symbols of a unit.
-/

namespace Predeclare

variable {n : Nat}

namespace SyntaxTree

variable (t : SyntaxTree n)

/-- What there is to report about a node: each declaration of its scope whose name an earlier
declaration of the scope has, and its own name, if the node is an identifier whose name neither a
scope around it nor the globals declare. -/
def ruleReports (J : Interner) (spellings : List String) (i : Fin n) : List ResolutionError :=
  t.redeclarations [] (t.scopeDeclarations i) ++
    match t.kind i, t.text i with
    | .identifier, some name =>
      if t.lexicalBinding? i name = none ∧
          ¬ ∃ spelling ∈ "undefined" :: spellings, J.spelling name = .ok spelling then
        [.undefinedName name (t.span i) []]
      else []
    | _, _ => []

/-- The reachable nodes that are not below an identifier, in preorder. -/
def boundNodes : List (Fin n) := (t.preorder t.root).filter fun i => ¬ t.BelowIdentifier i

end SyntaxTree

/-- The number of the globals, each counted once: the undefined value, and the spellings that are
not its own. -/
def distinctGlobals (spellings : List String) : Nat :=
  1 + (spellings.filter (· ≠ "undefined")).dedup.length

variable {t : SyntaxTree n} {I J : Interner} {E : Enumeration} {spellings : List String}
  {globals : List Name}

/-! ## Globals -/

/-- There are as many global names as distinct spellings.

**Proof sketch.** The spellings of the globals and the distinct spellings that were given are the
same set, and neither list repeats an entry, so one is a permutation of the other. -/
lemma GlobalNames.length_eq (h : GlobalNames J spellings globals) :
    globals.length = distinctGlobals spellings := by
  have hnodup : (globals.map J.spelling).Nodup := by
    refine List.Nodup.map_on (fun a ha b _ heq => ?_) h.nodup
    obtain ⟨s, _, hs⟩ := h.spelled a ha
    exact Interner.eq_of_spelling_eq hs (heq ▸ hs)
  have hdistinct : ("undefined" :: (spellings.filter (· ≠ "undefined")).dedup).Nodup := by
    refine List.nodup_cons.2 ⟨?_, List.nodup_dedup _⟩
    simp
  have hmem : ∀ s, s ∈ "undefined" :: (spellings.filter (· ≠ "undefined")).dedup ↔
      s ∈ "undefined" :: spellings := by
    intro s
    by_cases hs : s = "undefined" <;> simp [hs]
  have hperm : (globals.map J.spelling).Perm
      (("undefined" :: (spellings.filter (· ≠ "undefined")).dedup).map .ok) := by
    refine (List.perm_ext_iff_of_nodup hnodup ?_).2 fun result => ?_
    · exact hdistinct.map fun _ _ => Except.ok.inj
    · rw [List.mem_map, List.mem_map]
      constructor
      · rintro ⟨g, hg, rfl⟩
        obtain ⟨s, hs, hspelling⟩ := h.spelled g hg
        exact ⟨s, (hmem s).2 hs, hspelling.symm⟩
      · rintro ⟨s, hs, rfl⟩
        exact h.named s ((hmem s).1 hs)
  have hlength := hperm.length_eq
  simp only [List.length_map, List.length_cons] at hlength
  rw [hlength, distinctGlobals, Nat.add_comm]

/-! ## One node -/

/-- A name means nothing at a node if neither a scope around it nor the globals declare it.

**Proof sketch.** If the lexical rule gives a declaration, its scope defines the name
(`get?_scopeDefinitions_eq_none_iff`). If it gives none, only the globals are left, whose keys are
their names. -/
lemma SyntaxTree.visibleDefinition?_eq_none_iff {i : Fin n} {name : Name} :
    t.visibleDefinition? globals i name = none ↔
      t.lexicalBinding? i name = none ∧ name ∉ globals := by
  cases hlex : t.lexicalBinding? i name with
  | some binding =>
    obtain ⟨a, d⟩ := binding
    have hfirst := (mem_scopeDeclarations_of_lexicalBinding hlex).2.1
    rw [visibleDefinition?_of_lexicalBinding hlex, get?_scopeDefinitions_eq_none_iff, hfirst]
    simp
  | none =>
    rw [visibleDefinition?_of_no_lexicalBinding hlex, OrderedMap.get?_eq_none_iff,
      mem_keys_globalDefinitions]
    simp

/-- What the binder reports at a node is what there is to report.

**Proof sketch.** Only the report of an undefined name speaks of globals, and a name is a global
exactly if its spelling is one of those given. -/
lemma SyntaxTree.reports_eq (hglobals : GlobalNames J spellings globals) (hspelled : t.Spelled J)
    (i : Fin n) : t.reports globals i = t.ruleReports J spellings i := by
  simp only [reports, ruleReports, undefinedReport?]
  congr 1
  by_cases hkind : t.kind i = .identifier
  · cases hname : t.text i with
    | none => simp [hkind]
    | some name =>
      have hglobal := hglobals.mem_iff_exists (hspelled i name hname)
      simp only [hkind, if_true, Option.bind_some, visibleDefinition?_eq_none_iff, hglobal]
      split <;> rfl
  · rw [if_neg hkind]
    split
    · rename_i name hidentifier _
      exact absurd hidentifier hkind
    · rfl

namespace Binding.Covers

variable {B : Binding n}

/-- The declarations of a unit have the symbols behind those of the globals, in order. -/
lemma symbol?_of_getElem?_declarations (h : B.Covers t globals (t.surface t.root)) {k : Nat}
    {d : Declaration n} (hd : ((t.surface t.root).flatMap t.scopeDeclarations)[k]? = some d) :
    B.symbols.symbol? ⟨globals.length + k⟩ = some d.symbol := by
  simp only [SymbolTable.symbol?]
  rw [← Array.getElem?_toList, h.symbols,
    List.getElem?_append_right (by rw [length_globalSymbols]; exact Nat.le_add_right _ _),
    length_globalSymbols, Nat.add_sub_cancel_left, List.getElem?_map, hd]
  rfl

end Binding.Covers

/-! ## All nodes -/

/-- **The reports about a unit** are those about its nodes, in preorder, and its symbols are those
of the globals, each once, followed by one for each declaration of a scope, in the same order,
whether its name is new in the scope or not. This holds of the nodes that are not below an
identifier; what is below an identifier adds nothing.

**Proof sketch.** Each conjunct is a part of the invariant `Binding.Covers` for the whole surface,
whose nodes are those that are not below an identifier. -/
theorem bind_reports_exact (hspelled : t.Spelled I)
    (hdeclares : ∀ kind, bind t I spellings E ≠ .error (.cannotDeclare kind)) :
    ∃ B J, bind t I spellings E = .ok (B, J) ∧
      B.errors.map ResolutionError.bare = t.boundNodes.flatMap (t.ruleReports J spellings) ∧
      B.symbols.symbols.size =
        distinctGlobals spellings + (t.boundNodes.flatMap t.scopeDeclarations).length ∧
      (∀ s, s.index < distinctGlobals spellings →
        ∃ data, B.symbols.symbol? s = some data ∧ data.declaration = none) ∧
      ∀ k d, (t.boundNodes.flatMap t.scopeDeclarations)[k]? = some d →
        B.symbols.symbol? ⟨distinctGlobals spellings + k⟩ = some d.symbol ∧
        B.symbols.valueDeclaration ⟨distinctGlobals spellings + k⟩ = some d.node := by
  obtain ⟨J, globals, hJ, hglobals, hends⟩ := covers_bind hspelled spellings
  cases hbind : bind t I spellings E with
  | error fault =>
    obtain ⟨a, _, d, _, _, rfl⟩ := hends.of_error hbind
    exact absurd hbind (hdeclares _)
  | ok result =>
    obtain ⟨B, J'⟩ := result
    obtain ⟨rfl, hcovers⟩ := hends.of_ok hbind
    dsimp only at hcovers hglobals hJ
    have hnodes : t.boundNodes = t.surface t.root := SyntaxTree.surface_root_eq_filter.symm
    rw [← hglobals.length_eq, hnodes]
    refine ⟨B, J', rfl, ?_, hcovers.size_symbols, fun s hs => ?_, fun k d hd => ?_⟩
    · rw [hcovers.errors]
      exact List.flatMap_congr fun i _ => SyntaxTree.reports_eq hglobals (hspelled.extends hJ) i
    · exact ⟨_, hcovers.symbol?_of_getElem?_globals (List.getElem?_eq_getElem hs), rfl⟩
    · have hsymbol := hcovers.symbol?_of_getElem?_declarations hd
      exact ⟨hsymbol, SymbolTable.valueDeclaration_of_symbol? hsymbol⟩

/-- The forms of `{ let x; let x; } x`. -/
def Form.repeatedInBlock : List (Form Nat) :=
  [letStatement "x" none, letStatement "x" none, block [0, 1], identifier "x",
    expressionStatement 3]

/-- The second declaration is reported and has a symbol of its own; the reference outside of the
block is reported behind it. The undefined value counts once, even if it is listed. -/
theorem bind_reports_exact_repeated :
    ∃ src, Source.build ⟨0⟩ .empty Form.repeatedInBlock [2, 4] = .ok src ∧
      src.tree.Spelled src.interner ∧
      (∀ kind, bind src.tree src.interner ["undefined"] ≠
        .error (.cannotDeclare kind)) ∧
      ∃ B J, bind src.tree src.interner ["undefined"] = .ok (B, J) ∧
        src.tree.boundNodes.flatMap (src.tree.ruleReports J ["undefined"]) =
          [.duplicateDefinition ⟨0⟩ ⟨⟨0⟩, ⟨0, 1⟩⟩ ⟨⟨0⟩, ⟨2, 3⟩⟩,
            .undefinedName ⟨0⟩ ⟨⟨0⟩, ⟨4, 5⟩⟩ []] ∧
        distinctGlobals ["undefined"] +
          (src.tree.boundNodes.flatMap src.tree.scopeDeclarations).length = 3 := by
  have hrun : EndsIn (fun _ => False)
      (fun src => EndsIn (fun _ => False)
        (fun r => (r.1.errors.map ResolutionError.bare, r.1.symbols.symbols.size) =
          ([.duplicateDefinition ⟨0⟩ ⟨⟨0⟩, ⟨0, 1⟩⟩ ⟨⟨0⟩, ⟨2, 3⟩⟩,
            .undefinedName ⟨0⟩ ⟨⟨0⟩, ⟨4, 5⟩⟩ []], 3))
        (bind src.tree src.interner ["undefined"]))
      (Source.build ⟨0⟩ .empty Form.repeatedInBlock [2, 4]) := by decide +kernel
  obtain ⟨src, hbuild, hsrc⟩ := hrun.exists_eq_ok
  obtain ⟨⟨B, J⟩, hbind, hvalues⟩ := hsrc.exists_eq_ok
  injection hvalues with herrors hsize
  have hspelled := Source.spelled_of_build hbuild
  have hdeclares : ∀ kind, bind src.tree src.interner ["undefined"] ≠
      .error (.cannotDeclare kind) := by
    intro kind h
    rw [hbind] at h
    cases h
  obtain ⟨B', J', hbind', herrors', hsize', _⟩ := bind_reports_exact hspelled hdeclares
  obtain ⟨rfl, rfl⟩ := Prod.mk.inj (Except.ok.inj (hbind.symm.trans hbind'))
  exact ⟨src, hbuild, hspelled, hdeclares, B, J, hbind, herrors'.symm.trans herrors,
    hsize'.symm.trans hsize⟩

/-! ## An identifier below an identifier -/

/-- The forms of an undefined reference `x` with another one below it. -/
def Form.undefinedBelowUndefined : List (Form Nat) :=
  [identifier "x", node .identifier (some "x") [0], expressionStatement 1]

/-- Both references are reachable and undefined, but only the upper one is reported. -/
theorem reports_fail_below_identifier :
    ∃ src B J, Source.build ⟨0⟩ .empty Form.undefinedBelowUndefined [2] = .ok src ∧
      bind src.tree src.interner [] = .ok (B, J) ∧
      B.errors.map ResolutionError.bare = [.undefinedName ⟨0⟩ ⟨⟨0⟩, ⟨0, 1⟩⟩ []] ∧
      (src.tree.preorder src.tree.root).flatMap (src.tree.ruleReports J []) =
        [.undefinedName ⟨0⟩ ⟨⟨0⟩, ⟨0, 1⟩⟩ [], .undefinedName ⟨0⟩ ⟨⟨0⟩, ⟨0, 1⟩⟩ []] ∧
      B.errors.map ResolutionError.bare ≠
        (src.tree.preorder src.tree.root).flatMap (src.tree.ruleReports J []) := by
  have hrun : EndsIn (fun _ => False)
      (fun src => EndsIn (fun _ => False)
        (fun r => (r.1.errors.map ResolutionError.bare,
            (src.tree.preorder src.tree.root).flatMap (src.tree.ruleReports r.2 [])) =
          ([.undefinedName ⟨0⟩ ⟨⟨0⟩, ⟨0, 1⟩⟩ []],
            [.undefinedName ⟨0⟩ ⟨⟨0⟩, ⟨0, 1⟩⟩ [], .undefinedName ⟨0⟩ ⟨⟨0⟩, ⟨0, 1⟩⟩ []]))
        (bind src.tree src.interner []))
      (Source.build ⟨0⟩ .empty Form.undefinedBelowUndefined [2]) := by decide +kernel
  obtain ⟨src, hbuild, hsrc⟩ := hrun.exists_eq_ok
  obtain ⟨⟨B, J⟩, hbind, hboth⟩ := hsrc.exists_eq_ok
  injection hboth with herrors hrule
  refine ⟨src, B, J, hbuild, hbind, herrors, hrule, ?_⟩
  rw [herrors, hrule]
  simp

end Predeclare
