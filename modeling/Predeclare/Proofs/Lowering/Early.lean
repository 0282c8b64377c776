import Mathlib.Data.List.Basic
import Predeclare.Lowering.Hoist
import Predeclare.Proofs.Tree.Order

set_option relaxedAutoImplicit false
set_option autoImplicit false

/-!
# Early references

A reference is early when its statement list leads to it no later than to the declaration of its
symbol: through a statement in front of the declaring one, or through the declaring statement
itself, unless that is a function declaration, whose name is known inside it. A check asks to
announce a declaration exactly for an early reference.

## Main definitions

* `SyntaxTree.Before` — one statement of a list comes before another.
* `Early` — a reference to a symbol is early, in a statement.

## Main results

* `placement_eq_hoisted_iff` — when a reference asks to announce a declaration.
* `early_iff` — early references are those for which a declaration has to be announced.
-/

namespace Predeclare

namespace SyntaxTree

variable {n : Nat} {t : SyntaxTree n}

/-- The first node comes before the second in the statement list of `block`. -/
def Before (t : SyntaxTree n) (block i j : Fin n) : Prop :=
  (t.statements block).idxOf i < (t.statements block).idxOf j

instance (t : SyntaxTree n) (block i j : Fin n) : Decidable (t.Before block i j) :=
  inferInstanceAs (Decidable (_ < _))

/-- The child of a node that a second node lies under is the ancestor with that parent.

**Proof sketch.** The search goes through the ancestors of `i` for one with this parent. It finds
one if there is one, and two ancestors with the same parent are the same. -/
lemma childTowards_eq_some_iff {parent i a : Fin n} :
    t.childTowards parent i = some a ↔ a ∈ t.ancestors i ∧ t.parent a = some parent := by
  constructor
  · intro h
    exact ⟨mem_ancestors_of_childTowards h, parent_of_childTowards h⟩
  · rintro ⟨ha, hparent⟩
    cases h : t.childTowards parent i with
    | none =>
      have := List.find?_eq_none.1 h a ha
      simp [hparent] at this
    | some b =>
      rw [eq_of_parent_of_mem_ancestors (mem_ancestors_of_childTowards h) ha
        (parent_of_childTowards h) hparent]

/-- Statements that come before others in a list are before them in the list of children.

**Proof sketch.** Split the list where `j` first is: `i` comes earlier, so it lies in the part
before. -/
lemma Before.sublist {block i j : Fin n} (h : t.Before block i j) (hj : j ∈ t.statements block) :
    [i, j].Sublist (t.children block) := by
  refine List.Sublist.trans ?_ (statements_sublist_children block)
  simp only [Before] at h
  obtain ⟨before, after, hsplit, hnot⟩ := List.eq_append_cons_of_mem hj
  rw [hsplit] at h ⊢
  rw [List.idxOf_append_of_notMem hnot, List.idxOf_cons_self, Nat.add_zero] at h
  have hi : i ∈ before := by
    by_contra hi
    rw [List.idxOf_append_of_notMem hi] at h
    omega
  exact (List.singleton_sublist.2 hi).append (List.singleton_sublist.2 List.mem_cons_self)

end SyntaxTree

/-- The place of an entry of a list, if it is one. -/
lemma idxOf?_eq_ite {α : Type} [DecidableEq α] (l : List α) (a : α) :
    l.idxOf? a = if a ∈ l then some (l.idxOf a) else none := by
  rw [List.idxOf_eq_getD_idxOf?]
  split
  · rename_i h
    obtain ⟨k, hk⟩ := Option.isSome_iff_exists.1 (List.isSome_idxOf?.2 h)
    rw [hk]
    rfl
  · rename_i h
    exact List.idxOf?_eq_none_iff.2 h

/-- **Early references.** The reference `r` to the symbol `s` is early, in the statement `S`: the
list that the declaring statement `D` stands in leads to `r` through `S`, which comes before `D`, or
is `D` itself and no function declaration. -/
def Early {n : Nat} (t : SyntaxTree n) (model : SemanticModel (Fin n)) (r : Fin n) (s : SymbolId)
    (S : Fin n) : Prop :=
  model.symbolAt r = some s ∧ ∃ v D block,
    model.valueDeclaration s = some v ∧ t.declarationStatement v = some D ∧
    t.parent D = some block ∧ t.isBlockLike block = true ∧ D ∈ t.statements block ∧
    S ∈ t.ancestors r ∧ t.parent S = some block ∧ S ∈ t.statements block ∧
    (t.kind S).isStatement = true ∧
    (t.Before block S D ∨ S = D ∧ t.kind D ≠ .functionDeclaration)

variable {n : Nat} {t : SyntaxTree n} {model : SemanticModel (Fin n)}

/-- What a reference asks for when its statement and the declaring one are in the list: the order of
the two decides. -/
lemma placementInList_of_mem {block D S : Fin n} (hD : D ∈ t.statements block)
    (hS : S ∈ t.statements block) :
    placementInList t block D S =
      if t.Before block D S then .declaredBefore
      else if D = S ∧ t.kind D = .functionDeclaration then .selfReference
      else .hoisted S := by
  simp only [placementInList, SyntaxTree.Before]
  rw [idxOf?_eq_ite, idxOf?_eq_ite, if_pos hD, if_pos hS]
  simp only [List.idxOf_inj hD]
  rfl

/-- Unless both statements are in the list, it does not lead to the reference. -/
lemma placementInList_of_not_mem {block D S : Fin n}
    (h : ¬ (D ∈ t.statements block ∧ S ∈ t.statements block)) :
    placementInList t block D S = .noSibling := by
  simp only [placementInList]
  rw [idxOf?_eq_ite, idxOf?_eq_ite]
  by_cases hD : D ∈ t.statements block
  · rw [if_pos hD, if_neg fun hS => h ⟨hD, hS⟩]
  · rw [if_neg hD]

/-- What a reference asks for, inside the list of the declaration.

**Proof sketch.** The cases of the planner: one of the statements is not in the list, the sibling
stands behind the declaration, it is the declaration itself and a function, or none of these. -/
lemma placementInList_eq_hoisted_iff {block D S S' : Fin n} :
    placementInList t block D S' = .hoisted S ↔
      S' = S ∧ D ∈ t.statements block ∧ S ∈ t.statements block ∧
        (t.Before block S D ∨ S = D ∧ t.kind D ≠ .functionDeclaration) := by
  by_cases hmem : D ∈ t.statements block ∧ S' ∈ t.statements block
  · obtain ⟨hD, hS'⟩ := hmem
    rw [placementInList_of_mem hD hS']
    split
    · rename_i hafter
      constructor
      · intro h
        cases h
      · rintro ⟨rfl, -, -, hbefore | ⟨rfl, -⟩⟩
        · exact absurd hbefore (Nat.lt_asymm hafter)
        · exact absurd hafter (Nat.lt_irrefl _)
    · rename_i hafter
      split
      · rename_i hself
        constructor
        · intro h
          cases h
        · rintro ⟨rfl, -, -, hbefore | ⟨-, hkind⟩⟩
          · exact absurd hbefore (hself.1 ▸ Nat.lt_irrefl _)
          · exact absurd hself.2 hkind
      · rename_i hself
        constructor
        · intro h
          injection h with h
          subst h
          refine ⟨rfl, hD, hS', ?_⟩
          -- the declaration is not in front of `S'`, so it is `S'` itself or comes behind it
          by_cases heq : D = S'
          · subst heq
            exact Or.inr ⟨rfl, fun hkind => hself ⟨rfl, hkind⟩⟩
          · have := mt (List.idxOf_inj hD).1 heq
            exact Or.inl (Nat.lt_of_le_of_ne (Nat.le_of_not_lt hafter) (Ne.symm this))
        · rintro ⟨rfl, -⟩
          rfl
  · rw [placementInList_of_not_mem hmem]
    constructor
    · intro h
      cases h
    · rintro ⟨rfl, hD, hS, -⟩
      exact absurd ⟨hD, hS⟩ hmem

/-- **What a reference asks for**: to announce the declaration in front of the statement `S` of the
list of the declaring statement, if `S` leads to the reference and comes no later than the
declaration.

**Proof sketch.** From left to right by the three searches of the planner, each of which has found
something; from right to left they find what is given. The list itself is left to
`placementInList_eq_hoisted_iff`. -/
theorem placement_eq_hoisted_iff {r : Fin n} {s : SymbolId} {S : Fin n} :
    placement t model r s = .hoisted S ↔ ∃ v D block,
      model.valueDeclaration s = some v ∧ t.declarationStatement v = some D ∧
      t.parent D = some block ∧ t.isBlockLike block = true ∧ D ∈ t.statements block ∧
      S ∈ t.ancestors r ∧ t.parent S = some block ∧ S ∈ t.statements block ∧
      (t.kind S).isStatement = true ∧
      (t.Before block S D ∨ S = D ∧ t.kind D ≠ .functionDeclaration) := by
  constructor
  · intro h
    simp only [placement] at h
    split at h
    · cases h
    · rename_i D hD
      split at h
      · cases h
      · rename_i block hblock
        split at h
        · cases h
        · rename_i S' hS'
          obtain ⟨v, hv, hstatement⟩ := Option.bind_eq_some_iff.1 hD
          obtain ⟨hparent, hlike⟩ := Option.filter_eq_some_iff.1 hblock
          obtain ⟨htowards, hkind⟩ := Option.filter_eq_some_iff.1 hS'
          obtain ⟨rfl, hmemD, hmemS, horder⟩ := placementInList_eq_hoisted_iff.1 h
          obtain ⟨hancestor, hparent'⟩ := SyntaxTree.childTowards_eq_some_iff.1 htowards
          exact ⟨v, D, block, hv, hstatement, hparent, hlike, hmemD, hancestor, hparent', hmemS,
            hkind, horder⟩
  · rintro ⟨v, D, block, hv, hD, hblock, hlike, hmemD, hS, hparent, hmemS, hkind, horder⟩
    have htowards := SyntaxTree.childTowards_eq_some_iff.2 ⟨hS, hparent⟩
    simp only [placement]
    rw [hv, Option.bind_some, hD]
    simp only [hblock, Option.filter_some, hlike, if_true, htowards, hkind]
    exact placementInList_eq_hoisted_iff.2 ⟨rfl, hmemD, hmemS, horder⟩

/-- **Early references are those for which a declaration has to be announced.** -/
theorem early_iff {r : Fin n} {s : SymbolId} {S : Fin n} :
    Early t model r s S ↔ model.symbolAt r = some s ∧ placement t model r s = .hoisted S := by
  simp only [Early]
  rw [placement_eq_hoisted_iff]

/-- A reference is early in one statement only. -/
lemma Early.statement_unique {r : Fin n} {s s' : SymbolId} {S S' : Fin n}
    (h : Early t model r s S) (h' : Early t model r s' S') : s = s' ∧ S = S' := by
  obtain ⟨hs, hplacement⟩ := early_iff.1 h
  obtain ⟨hs', hplacement'⟩ := early_iff.1 h'
  obtain rfl : s = s' := Option.some.inj (hs.symm.trans hs')
  rw [hplacement] at hplacement'
  injection hplacement' with hS
  exact ⟨rfl, hS⟩

/-- An early reference lies in its statement. -/
lemma Early.mem_ancestors {r S : Fin n} {s : SymbolId} (h : Early t model r s S) :
    S ∈ t.ancestors r := by
  obtain ⟨_, _, _, _, _, _, _, _, _, hS, _⟩ := h
  exact hS

/-- All early references to a symbol are early in the same list. -/
lemma Early.mem_statements {r r' S S' p : Fin n} {s : SymbolId} (h : Early t model r s S)
    (h' : Early t model r' s S') (hS : S ∈ t.statements p) : S' ∈ t.statements p := by
  obtain ⟨_, v, D, block, hv, hD, hblock, _, _, _, hparent, _, _⟩ := h
  obtain ⟨_, v', D', block', hv', hD', hblock', _, _, _, _, hmem', _⟩ := h'
  obtain rfl : v = v' := Option.some.inj (hv.symm.trans hv')
  obtain rfl : D = D' := Option.some.inj (hD.symm.trans hD')
  obtain rfl : block = block' := Option.some.inj (hblock.symm.trans hblock')
  have hp := SyntaxTree.mem_children_iff.1 ((SyntaxTree.statements_sublist_children p).subset hS)
  obtain rfl : block = p := Option.some.inj (hparent.symm.trans hp)
  exact hmem'

end Predeclare
