import Predeclare.Proofs.Lowering.FirstEarly

set_option relaxedAutoImplicit false
set_option autoImplicit false

/-!
# Names in the target

The target knows a name of a statement list only behind its declaration, or behind the place where
it was announced. A name is looked for from the inside to the outside: a function declares its
parameters and, if it is an expression, its own name; a statement list declares, at one of its
statements, what the statements before it declare, the name of the statement itself if it is a
function declaration, and what was announced in front of it or of a statement before it.

## Main definitions

* `FunctionDeclares`, `ListDeclares` — what is declared on the way from a node to its parent.
* `TargetResolves` — the declaration that a name denotes at a node.

## Main results

* `targetResolves_iff_of_silent` — steps on which a name is not declared can be skipped.
* `targetResolves_iff_of_declares` — the innermost step that declares a name decides.
-/

namespace Predeclare

variable {n : Nat} (t : SyntaxTree n) (symbols : SymbolTable (Fin n)) (plan : HoistPlan n)

/-- The function `p` declares the name by the node `v`. -/
def FunctionDeclares (p : Fin n) (name : Name) (v : Fin n) : Prop :=
  (t.kind p).isFunctionLike = true ∧
    ∃ d ∈ t.selfDeclarations p ++ t.parameterDeclarations p, d.name = name ∧ d.node = v

/-- The statement list of `p` declares the name by the node `v` for what lies in its statement
`i`. -/
def ListDeclares (p i : Fin n) (name : Name) (v : Fin n) : Prop :=
  i ∈ t.statements p ∧
    ((∃ S ∈ t.statements p, t.Before p S i ∧
        ∃ d ∈ t.statementDeclarations S, d.name = name ∧ d.node = v) ∨
      (t.kind i = .functionDeclaration ∧ t.text i = some name ∧ v = i) ∨
      ∃ S ∈ t.statements p, (t.Before p S i ∨ S = i) ∧
        ∃ r ∈ plan.hoistsFor S, t.text r = some name ∧
          (symbols.reference? r).bind symbols.valueDeclaration = some v)

/-- On the way from the node `i` to its parent `p`, the name is declared by the node `v`. -/
def StepDeclares (p i : Fin n) (name : Name) (v : Fin n) : Prop :=
  FunctionDeclares t p name v ∨ ListDeclares t symbols plan p i name v

/-- **Names in the target.** The declaration that a name denotes at a node, if it is declared
anywhere around it: the innermost step outward that declares it decides. -/
inductive TargetResolves (name : Name) : Fin n → Option (Fin n) → Prop where
  /-- The name is declared on the way to the parent. -/
  | here {i p v : Fin n} (parent : t.parent i = some p)
      (declared : StepDeclares t symbols plan p i name v) : TargetResolves name i (some v)
  /-- The name is not declared on the way to the parent. -/
  | outward {i p : Fin n} {o : Option (Fin n)} (parent : t.parent i = some p)
      (silent : ∀ v, ¬ StepDeclares t symbols plan p i name v)
      (rest : TargetResolves name p o) : TargetResolves name i o
  /-- The name is declared nowhere around. -/
  | top {i : Fin n} (parent : t.parent i = none) : TargetResolves name i none

variable {t symbols plan} {name : Name}

/-- What a name denotes is declared on some step.

**Proof sketch.** By induction on the way outwards, which ends at a step that declares the name or
at the top, where it denotes nothing. -/
lemma TargetResolves.exists_step {i v : Fin n}
    (h : TargetResolves t symbols plan name i (some v)) :
    ∃ j ∈ t.ancestors i, ∃ p, t.parent j = some p ∧ StepDeclares t symbols plan p j name v := by
  generalize ho : some v = o at h
  induction h with
  | here hparent hdeclared =>
    injection ho with ho
    subst ho
    exact ⟨_, SyntaxTree.self_mem_ancestors _, _, hparent, hdeclared⟩
  | outward hparent _ _ ih =>
    obtain ⟨j, hj, p, hp, hdeclared⟩ := ih ho
    exact ⟨j, SyntaxTree.mem_ancestors_iff.2 (Or.inr ⟨_, hparent, hj⟩), p, hp, hdeclared⟩
  | top _ => cases ho

/-- A step on which the name is not declared can be skipped.

**Proof sketch.** The three ways to resolve: here, further outward, or at the top. Only the second
one is possible. -/
lemma targetResolves_iff_of_parent {i p : Fin n} {o : Option (Fin n)}
    (hparent : t.parent i = some p) (hsilent : ∀ v, ¬ StepDeclares t symbols plan p i name v) :
    TargetResolves t symbols plan name i o ↔ TargetResolves t symbols plan name p o := by
  constructor
  · intro h
    cases h with
    | here hparent' hdeclared =>
      obtain rfl := Option.some.inj (hparent.symm.trans hparent')
      exact absurd hdeclared (hsilent _)
    | outward hparent' _ hrest =>
      obtain rfl := Option.some.inj (hparent.symm.trans hparent')
      exact hrest
    | top hnone =>
      rw [hparent] at hnone
      cases hnone
  · exact TargetResolves.outward hparent hsilent

/-- **Steps on which a name is not declared can be skipped**, up to an ancestor of the node.

**Proof sketch.** Induction from the node upwards, one silent step after the other. -/
theorem targetResolves_iff_of_silent {i m : Fin n} {o : Option (Fin n)} (hm : m ∈ t.ancestors i)
    (hsilent : ∀ j ∈ t.ancestors i, ∀ p, t.parent j = some p → m ∈ t.ancestors p →
      ∀ v, ¬ StepDeclares t symbols plan p j name v) :
    TargetResolves t symbols plan name i o ↔ TargetResolves t symbols plan name m o := by
  induction i using SyntaxTree.upwards_induction (t := t) with
  | top i hi =>
    have : m = i := by simpa [SyntaxTree.ancestors_eq_cons_above, SyntaxTree.above_of_no_parent hi]
      using hm
    rw [this]
  | step i p hp ih =>
    rcases SyntaxTree.mem_ancestors_iff.1 hm with rfl | ⟨q, hq, hmq⟩
    · exact Iff.rfl
    · obtain rfl := Option.some.inj (hp.symm.trans hq)
      rw [targetResolves_iff_of_parent hp
        (hsilent i (SyntaxTree.self_mem_ancestors i) p hp hmq)]
      refine ih hmq fun j hj => ?_
      exact hsilent j (SyntaxTree.mem_ancestors_iff.2 (Or.inr ⟨p, hp, hj⟩))

/-- **The innermost step that declares a name decides**, if all its declarations are one.

**Proof sketch.** The three ways to resolve: here, further outward, or at the top. Only the first
one is possible. -/
theorem targetResolves_iff_of_declares {i p v : Fin n} {o : Option (Fin n)}
    (hparent : t.parent i = some p)
    (hdeclares : ∀ v', StepDeclares t symbols plan p i name v' ↔ v' = v) :
    TargetResolves t symbols plan name i o ↔ o = some v := by
  constructor
  · intro h
    cases h with
    | here hparent' hdeclared =>
      obtain rfl := Option.some.inj (hparent.symm.trans hparent')
      rw [(hdeclares _).1 hdeclared]
    | outward hparent' hsilent _ =>
      obtain rfl := Option.some.inj (hparent.symm.trans hparent')
      exact absurd ((hdeclares v).2 rfl) (hsilent v)
    | top hnone =>
      rw [hparent] at hnone
      cases hnone
  · rintro rfl
    exact TargetResolves.here hparent ((hdeclares v).2 rfl)

/-- A name that no step declares denotes nothing. -/
lemma targetResolves_root_iff {o : Option (Fin n)} :
    TargetResolves t symbols plan name t.root o ↔ o = none := by
  constructor
  · intro h
    cases h with
    | here hparent _ => exact absurd hparent (by simp [SyntaxTree.parent_root])
    | outward hparent _ _ => exact absurd hparent (by simp [SyntaxTree.parent_root])
    | top _ => rfl
  · rintro rfl
    exact TargetResolves.top SyntaxTree.parent_root

end Predeclare
