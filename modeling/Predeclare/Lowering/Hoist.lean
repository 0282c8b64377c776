import Predeclare.Scope.Symbol
import Predeclare.Tree.Locate

set_option relaxedAutoImplicit false
set_option autoImplicit false

/-!
# Hoisting

In the target a name is known only behind its declaration. A declaration of a statement list that
is referred to from an earlier statement of the list, or from its own statement, must therefore be
announced in front of the statement that refers to it. Where a reference stands relative to the
declaration is a question about the tree alone (`placement`). A declaration is announced once,
for the first reference that asks for it; a reference that does not ask for it settles nothing.

A hoist plan lists, for some statements, the references whose declarations have to be announced
in front of the statement. Statements come in the order in which their first such reference was
found, and so do the references of one statement.

## Main definitions

* `HoistPlan`, `HoistPlan.hoistsFor` — the plan, and the references listed for a statement.
* `HoistPlan.record` — adds a reference to those of a statement.
* `HoistPlan.referenceCount` — the number of references in the plan.
* `HoistOutcome`, `placement` — what a reference asks for, and why it may ask for nothing.
* `HoistState`, `HoistState.checkHoist` — what has been announced so far, and one more reference.

## Main results

* `HoistPlan.hoistsFor_record` — the references of a statement after one was added.
* `HoistState.checkHoist_of_decided`, `HoistState.checkHoist_of_undecided` — the two cases of a
  check.
-/

namespace Predeclare

/-! ## Hoist plans -/

/-- The references to announce in front of statements, by statement. -/
structure HoistPlan (n : Nat) where
  byStatement : OrderedMap (Fin n) (List (Fin n))
  deriving DecidableEq

namespace HoistPlan

variable {n : Nat}

/-- The plan without statements. -/
def empty : HoistPlan n := ⟨.empty⟩

/-- The references to announce in front of a statement. -/
def hoistsFor (plan : HoistPlan n) (statement : Fin n) : List (Fin n) :=
  (plan.byStatement.get? statement).getD []

/-- The statements with their references. -/
def entries (plan : HoistPlan n) : List (Fin n × List (Fin n)) := plan.byStatement.entries

/-- The number of statements. -/
def size (plan : HoistPlan n) : Nat := plan.byStatement.size

/-- Whether nothing has to be announced. -/
def isEmpty (plan : HoistPlan n) : Bool := plan.byStatement.isEmpty

/-- The number of references. -/
def referenceCount (plan : HoistPlan n) : Nat := plan.byStatement.values.flatten.length

/-- Adds a reference behind those of a statement. -/
def record (plan : HoistPlan n) (statement reference : Fin n) : HoistPlan n :=
  ⟨plan.byStatement.insert statement (plan.hoistsFor statement ++ [reference])⟩

theorem hoistsFor_record (plan : HoistPlan n) (statement reference s : Fin n) :
    (plan.record statement reference).hoistsFor s =
      if s = statement then plan.hoistsFor statement ++ [reference] else plan.hoistsFor s := by
  unfold record
  simp only [hoistsFor, OrderedMap.get?_insert]
  split <;> simp

end HoistPlan

/-! ## Where references stand -/

/-- What looking at a reference leads to. -/
inductive HoistOutcome (n : Nat) where
  /-- The symbol has been announced before. -/
  | alreadyDecided
  /-- The symbol is not declared by a statement: it is a parameter, a global and the like. -/
  | noDeclarationStatement
  /-- The declaring statement does not stand in a block-like node. -/
  | notBlockScoped
  /-- The reference does not lie in a statement of the list of the declaring statement. -/
  | noSibling
  /-- The reference lies in a later statement than the declaration. -/
  | declaredBefore
  /-- A function declaration refers to itself. -/
  | selfReference
  /-- The declaration has to be announced in front of `statement`. -/
  | hoisted (statement : Fin n)
  deriving DecidableEq, Repr

section Placement

variable {n : Nat} (t : SyntaxTree n) (model : SemanticModel (Fin n))

/-- What a reference to a declaration in the statement list of `block` asks for, once the two
statements through which the list leads to them are known. -/
def placementInList (block declaring sibling : Fin n) : HoistOutcome n :=
  match (t.statements block).idxOf? declaring, (t.statements block).idxOf? sibling with
  | some i, some j =>
    if i < j then .declaredBefore
    else if i = j ∧ t.kind declaring = .functionDeclaration then .selfReference
    else .hoisted sibling
  | _, _ => .noSibling

/-- What a reference to a symbol asks for, if the symbol has not been announced before. -/
def placement (reference : Fin n) (s : SymbolId) : HoistOutcome n :=
  match (model.valueDeclaration s).bind t.declarationStatement with
  | none => .noDeclarationStatement
  | some declaring =>
    match (t.parent declaring).filter t.isBlockLike with
    | none => .notBlockScoped
    | some block =>
      match (t.childTowards block reference).filter fun i => (t.kind i).isStatement with
      | none => .noSibling
      | some sibling => placementInList t block declaring sibling

end Placement

/-! ## Announcing declarations -/

/-- What has been announced so far: the plan, and the decision for each announced symbol. -/
structure HoistState (n : Nat) where
  plan : HoistPlan n
  decided : OrderedMap SymbolId Bool
  deriving DecidableEq

namespace HoistState

variable {n : Nat}

/-- Nothing has been announced. -/
def empty : HoistState n := ⟨.empty, .empty⟩

/-- The decision for a symbol. -/
def isHoisted (state : HoistState n) (s : SymbolId) : Option Bool := state.decided.get? s

/-- The references that have been announced in front of a statement so far. -/
def hoistsFor (state : HoistState n) (statement : Fin n) : List (Fin n) :=
  state.plan.hoistsFor statement

/-- Announces the declaration of a symbol in front of a statement because of a reference. -/
def announce (state : HoistState n) (statement reference : Fin n) (s : SymbolId) : HoistState n :=
  ⟨state.plan.record statement reference, state.decided.insert s true⟩

/-- Announces the declaration of a symbol if the reference asks for it and it has not been
announced before. -/
def checkHoist (t : SyntaxTree n) (model : SemanticModel (Fin n)) (state : HoistState n)
    (reference : Fin n) (s : SymbolId) : HoistOutcome n × HoistState n :=
  if state.decided.contains s then (.alreadyDecided, state)
  else
    match placement t model reference s with
    | .hoisted statement => (.hoisted statement, state.announce statement reference s)
    | outcome => (outcome, state)

/-- What is left to emit once all references have been looked at. -/
def finish (state : HoistState n) : HoistPlan n := state.plan

variable {t : SyntaxTree n} {model : SemanticModel (Fin n)} {state : HoistState n}
  {reference : Fin n} {s : SymbolId}

theorem checkHoist_of_decided (h : state.decided.contains s = true) :
    state.checkHoist t model reference s = (.alreadyDecided, state) :=
  if_pos h

theorem checkHoist_of_undecided (h : state.decided.contains s = false) :
    state.checkHoist t model reference s =
      match placement t model reference s with
      | .hoisted statement => (.hoisted statement, state.announce statement reference s)
      | outcome => (outcome, state) :=
  if_neg (by simp [h])

end HoistState

end Predeclare
