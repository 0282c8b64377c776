import Mathlib.Data.List.Perm.Subperm
import Predeclare.Proofs.Tree.Adoption
import Predeclare.Proofs.Tree.Order
import Predeclare.Tree.Locate

set_option relaxedAutoImplicit false
set_option autoImplicit false

/-!
# Finished trees are well formed

Parent links lead to larger numbers and child links to smaller ones. So every loop that follows
parents comes to an end after as many rounds as there are numbers left, whatever it looks for, and a
loop that lists what lies below a node ends after one round for each of these nodes.

## Main definitions

* `SyntaxTree.climb` — a loop along parents, stopped by what it looks for.
* `SyntaxTree.descend` — a loop over a stack of nodes to be listed.
* `SyntaxTree.WellFormed` — the properties of the links of a finished tree, and of the loops along
  them.

## Main results

* `SyntaxTree.climb_eq`, `SyntaxTree.descend_eq` — the loops end, with the results of the functions
  on lists.
* `SyntaxTree.wellFormed` — trees are well formed.
* `builder_accepts_free` — what a builder accepts, and what it makes of it.
-/

namespace Predeclare

namespace SyntaxTree

variable {n : Nat} {t : SyntaxTree n} {i : Fin n}

/-! ## Paths -/

/-- A node has no more ancestors than there are numbers from its own on. -/
lemma length_ancestors_le (i : Fin n) : (t.ancestors i).length ≤ n - i.val := by
  induction i using upwards_induction (t := t) with
  | top i hi =>
    rw [ancestors_eq_cons_above, above_of_no_parent hi, List.length_singleton]
    omega
  | step i p hp ih =>
    rw [ancestors_eq_cons_above, above_of_parent hp, List.length_cons]
    have : i < p := lt_of_parent hp
    omega

/-- The ancestors of a node are a path along parents. -/
lemma isChain_ancestors (i : Fin n) :
    (t.ancestors i).IsChain fun c p => t.parent c = some p := by
  induction i using upwards_induction (t := t) with
  | top i hi =>
    rw [ancestors_eq_cons_above, above_of_no_parent hi]
    exact .singleton i
  | step i p hp ih =>
    rw [ancestors_eq_cons_above, above_of_parent hp]
    rw [ancestors_eq_cons_above] at ih ⊢
    exact List.isChain_cons_cons.2 ⟨hp, ih⟩

/-- The path along parents goes on until there is no parent. -/
lemma parent_of_getLast?_ancestors {a : Fin n} (h : (t.ancestors i).getLast? = some a) :
    t.parent a = none := by
  induction i using upwards_induction (t := t) with
  | top i hi =>
    rw [ancestors_eq_cons_above, above_of_no_parent hi] at h
    obtain rfl : i = a := Option.some.inj h
    exact hi
  | step i p hp ih =>
    rw [ancestors_eq_cons_above, above_of_parent hp] at h
    rw [ancestors_eq_cons_above p] at h ih
    exact ih h

/-- A path along parents is no longer than there are numbers left.

**Proof sketch.** By induction on the path: each step goes to a larger number. -/
lemma length_of_isChain_parent {l : List (Fin n)}
    (h : (i :: l).IsChain fun c p => t.parent c = some p) : l.length < n - i.val := by
  induction l generalizing i with
  | nil =>
    rw [List.length_nil]
    omega
  | cons p rest ih =>
    obtain ⟨hp, hrest⟩ := List.isChain_cons_cons.1 h
    have : i < p := lt_of_parent hp
    have := ih hrest
    rw [List.length_cons]
    omega

/-- A path along children is no longer than there are numbers below its start. -/
lemma length_of_isChain_children {l : List (Fin n)}
    (h : (i :: l).IsChain fun p c => c ∈ t.children p) : l.length ≤ i.val := by
  induction l generalizing i with
  | nil => exact Nat.zero_le _
  | cons c rest ih =>
    obtain ⟨hc, hrest⟩ := List.isChain_cons_cons.1 h
    have : c < i := lt_of_mem_children hc
    have := ih hrest
    rw [List.length_cons]
    omega

/-- The path along parents ends at the root for exactly the nodes that the root leads to. -/
lemma getLast?_ancestors_iff :
    (t.ancestors i).getLast? = some t.root ↔ i ∈ t.descendants t.root := by
  rw [descendants_eq, mem_preorder_iff]
  constructor
  · exact List.mem_of_getLast?
  · intro h
    obtain ⟨lower, hlower⟩ := ancestors_suffix h
    rw [← hlower, ancestors_eq_cons_above t.root, above_root]
    exact List.getLast?_concat

/-- What lies below a node has smaller numbers, so there is no more of it than these. -/
lemma length_preorder_le (i : Fin n) : (t.preorder i).length ≤ i.val + 1 := by
  have hsub : (t.preorder i).map Fin.val ⊆ List.range (i.val + 1) := by
    intro k hk
    obtain ⟨j, hj, rfl⟩ := List.mem_map.1 hk
    have : j ≤ i := le_of_mem_ancestors (mem_preorder_iff.1 hj)
    exact List.mem_range.2 (Nat.lt_succ_of_le this)
  have hnodup : ((t.preorder i).map Fin.val).Nodup :=
    (nodup_preorder i).map fun _ _ => Fin.ext
  simpa using (List.subperm_of_subset hnodup hsub).length_le

/-! ## Loops -/

section Loops

variable {β : Type}

/-- A loop that looks at a node and then at its parent, until `stop` gives a result or there is no
parent, in which case the result is `top`. There is none as long as the loop has not ended. -/
def climb (t : SyntaxTree n) (stop : Fin n → Option β) (top : β) :
    (rounds : Nat) → Fin n → Option β
  | 0, _ => none
  | rounds + 1, i =>
    match stop i with
    | some b => some b
    | none =>
      match t.parent i with
      | none => some top
      | some p => climb t stop top rounds p

/-- A loop that lists the top of a stack and puts its children in its place, until the stack is
empty. There is no list as long as the loop has not ended. -/
def descend (t : SyntaxTree n) : (rounds : Nat) → (pending : List (Fin n)) → Option (List (Fin n))
  | _, [] => some []
  | 0, _ :: _ => none
  | rounds + 1, i :: pending => (descend t rounds (t.children i ++ pending)).map (i :: ·)

/-- **A loop along parents ends**, with what it looks for at the first ancestor that has it.

**Proof sketch.** By induction from the top downwards: each round goes from a node to its parent,
and the bound leaves a round for it. -/
theorem climb_eq (stop : Fin n → Option β) (top : β) {rounds : Nat}
    (h : (t.ancestors i).length ≤ rounds) :
    t.climb stop top rounds i = some (((t.ancestors i).findSome? stop).getD top) := by
  induction i using upwards_induction (t := t) generalizing rounds with
  | top i hi =>
    rw [ancestors_eq_cons_above, above_of_no_parent hi] at h ⊢
    cases rounds with
    | zero => simp at h
    | succ rounds =>
      simp only [climb, List.findSome?_cons, hi]
      cases stop i <;> rfl
  | step i p hp ih =>
    rw [ancestors_eq_cons_above, above_of_parent hp] at h ⊢
    cases rounds with
    | zero => simp at h
    | succ rounds =>
      simp only [climb, List.findSome?_cons, hp]
      cases stop i with
      | some b => rfl
      | none => exact ih (Nat.le_of_succ_le_succ h)

/-- **A loop over a stack ends**, with the list of the nodes that the stack leads to.

**Proof sketch.** Induction on the rounds. Each round takes one node from the stack, which is the
next one of the list. -/
theorem descend_eq {pending : List (Fin n)} {rounds : Nat}
    (h : (t.walk pending).length ≤ rounds) : t.descend rounds pending = some (t.walk pending) := by
  induction rounds generalizing pending with
  | zero =>
    cases pending with
    | nil => simp [descend, walk]
    | cons i pending => simp [walk] at h
  | succ rounds ih =>
    cases pending with
    | nil => simp [descend, walk]
    | cons i pending =>
      rw [walk] at h ⊢
      rw [descend, ih (Nat.le_of_succ_le_succ h)]
      rfl

variable (t)

/-- What the search for a statement looks for: it ends at a statement with this statement, and at a
parameter with nothing. -/
def statementAt (i : Fin n) : Option (Option (Fin n)) :=
  if t.kind i = .parameter then some none
  else if (t.kind i).isStatement then some (some i)
  else none

/-- What the search for a child of a node looks for: it ends at a child of this node. -/
def childAt (parent i : Fin n) : Option (Option (Fin n)) :=
  if t.parent i = some parent then some (some i) else none

variable {t}

/-- The statement of a declaration is found by a loop along parents.

**Proof sketch.** The loop stops at the first ancestor that is a statement or a parameter, as the
search does, and `climb_eq` says that it gets there. -/
lemma climb_statementAt {rounds : Nat} (hkind : t.kind i ≠ .functionExpression)
    (h : n - i.val ≤ rounds) :
    t.climb t.statementAt none rounds i = some (t.declarationStatement i) := by
  have hlist : ∀ l : List (Fin n), (l.findSome? t.statementAt).getD none =
      (l.find? t.endsStatementSearch).filter fun i => t.kind i ≠ .parameter := by
    intro l
    induction l with
    | nil => rfl
    | cons a rest ih =>
      simp only [List.findSome?_cons, List.find?_cons, statementAt, endsStatementSearch]
      by_cases hparameter : t.kind a = .parameter
      · simp [hparameter, Option.filter]
      · cases hstatement : (t.kind a).isStatement with
        | true => simp [hparameter, Option.filter]
        | false => simpa [hparameter] using ih
  rw [climb_eq _ _ (Nat.le_trans (length_ancestors_le i) h), hlist, declarationStatement,
    if_neg hkind]

/-- The child towards a node is found by a loop along parents.

**Proof sketch.** The loop stops at the first ancestor whose parent is the given one (`climb_eq`),
which is the one that `childTowards` looks for in the list of ancestors. -/
lemma climb_childAt {parent : Fin n} {rounds : Nat} (h : n - i.val ≤ rounds) :
    t.climb (t.childAt parent) none rounds i = some (t.childTowards parent i) := by
  have hlist : ∀ l : List (Fin n), (l.findSome? (t.childAt parent)).getD none =
      l.find? fun a => t.parent a = some parent := by
    intro l
    induction l with
    | nil => rfl
    | cons a rest ih =>
      simp only [List.findSome?_cons, List.find?_cons, childAt]
      by_cases hparent : t.parent a = some parent
      · simp [hparent]
      · simpa [hparent] using ih
  rw [climb_eq _ _ (Nat.le_trans (length_ancestors_le i) h), hlist, childTowards]

/-- What lies below a node is listed by a loop over a stack. -/
lemma descend_singleton {rounds : Nat} (h : i.val + 1 ≤ rounds) :
    t.descend rounds [i] = some (t.descendants i) := by
  refine descend_eq (Nat.le_trans ?_ h)
  rw [← descendants, descendants_eq]
  exact length_preorder_le i

end Loops

/-! ## Well-formed trees -/

/-- **What later walks rely on.** A node is once a child of its parent, and never of another node.
Parents have larger numbers, and the root has the largest one and no parent. Paths end, and so do
the loops along parents and over children, after a number of rounds that is known beforehand. The
ancestors of a node lead to the root if and only if the root leads to the node, which it does not to
a node that was never attached. -/
structure WellFormed (t : SyntaxTree n) : Prop where
  count_children : ∀ p c, (t.children p).count c = if t.parent c = some p then 1 else 0
  lt_parent : ∀ c p, t.parent c = some p → c < p
  le_root : ∀ i, i ≤ t.root
  parent_root : t.parent t.root = none
  ascent : ∀ i l, (i :: l).IsChain (fun c p => t.parent c = some p) → l.length < n - i.val
  descent : ∀ i l, (i :: l).IsChain (fun p c => c ∈ t.children p) → l.length ≤ i.val
  ancestors_path : ∀ i, (t.ancestors i).head? = some i ∧
    ((t.ancestors i).IsChain fun c p => t.parent c = some p) ∧
    ∀ a, (t.ancestors i).getLast? = some a → t.parent a = none
  climb_ends : ∀ (β : Type) (stop : Fin n → Option β) (top : β) i,
    t.climb stop top (n - i.val) i = some (((t.ancestors i).findSome? stop).getD top)
  statement_found : ∀ i, t.kind i ≠ .functionExpression →
    t.climb t.statementAt none (n - i.val) i = some (t.declarationStatement i)
  child_found : ∀ parent i,
    t.climb (t.childAt parent) none (n - i.val) i = some (t.childTowards parent i)
  descend_ends : ∀ i, t.descend (i.val + 1) [i] = some (t.descendants i)
  ends_at_root : ∀ i, (t.ancestors i).getLast? = some t.root ↔ i ∈ t.descendants t.root
  unattached : ∀ i, t.parent i = none → i ≠ t.root → i ∉ t.descendants t.root

/-- **Trees are well formed.**

**Proof sketch.** The links of a tree are consistent by construction. That walks along them end
follows from the numbers, which grow from child to parent. -/
theorem wellFormed (t : SyntaxTree n) : t.WellFormed where
  count_children p c := by
    rw [(nodup_children p).count]
    exact if_congr mem_children_iff rfl rfl
  lt_parent _ _ := lt_of_parent
  le_root := t.le_root
  parent_root := parent_root
  ascent _ _ := length_of_isChain_parent
  descent _ _ := length_of_isChain_children
  ancestors_path i := by
    refine ⟨?_, isChain_ancestors i, fun a => parent_of_getLast?_ancestors⟩
    rw [ancestors_eq_cons_above]
    rfl
  climb_ends _ stop top i := climb_eq stop top (length_ancestors_le i)
  statement_found i hkind := climb_statementAt hkind (Nat.le_refl _)
  child_found _ i := climb_childAt (Nat.le_refl _)
  descend_ends i := descend_singleton (Nat.le_refl _)
  ends_at_root i := getLast?_ancestors_iff
  unattached i hparent hroot hmem := by
    have hlast := getLast?_ancestors_iff.2 hmem
    rw [ancestors_eq_cons_above, above_of_no_parent hparent] at hlast
    exact hroot (Option.some.inj hlast)

end SyntaxTree

/-! ## Builders -/

open TreeBuilder in
/-- **A builder accepts exactly the nodes that are free**, and makes a well-formed tree of them.

Consider a builder after some calls. A node that a call has returned has a parent if and only if a
call has named it. Consider one more call that is given nodes which the calls before have returned.
As long as offsets do not run out, the call attaches a node twice if and only if one of the nodes
given has a parent already or is named twice, and it adds its nodes otherwise. The same holds of the
call that finishes the tree. The finished tree has the links of the builder, with the statements
below the root, and is well formed.

**Proof sketch.** By `Tracks.addAll` the nodes that calls have returned are known and have a parent
if they were named. What one more call does is said by `endsIn_add`, and what finishing does by
`endsIn_finish`. -/
theorem builder_accepts_free {file : FileId} {I : Interner} {forms : List (Form Nat)}
    {made : List Nat} {b : TreeBuilder}
    (h : (TreeBuilder.empty file I).addAll [] forms = .ok (made, b)) :
    (∀ place c, made[place]? = some c →
      (storedParent b.nodes c ≠ none ↔ ∃ form ∈ forms, place ∈ form.refs)) ∧
    (∀ call : Form Nat, (∀ c ∈ call.refs, c ∈ made) → b.add call ≠ .error .offsetOverflow →
      (b.add call = .error .attachedTwice ↔
        (∃ c ∈ call.refs, storedParent b.nodes c ≠ none) ∨ ¬ call.refs.Nodup) ∧
      (b.add call = .error .attachedTwice ∨ ∃ i b', b.add call = .ok (i, b'))) ∧
    ∀ statements : List Nat, (∀ c ∈ statements, c ∈ made) →
      b.finish statements ≠ .error .offsetOverflow →
      (b.finish statements = .error .attachedTwice ↔
        (∃ c ∈ statements, storedParent b.nodes c ≠ none) ∨ ¬ statements.Nodup) ∧
      (b.finish statements = .error .attachedTwice ∨
        ∃ src, b.finish statements = .ok src ∧ b.Finished statements src ∧
          src.tree.WellFormed) := by
  have htracks := (tracks_empty file I).addAll h
  refine ⟨fun place c hc => ?_, fun call hcall hoffsets => ?_,
    fun statements hstatements hoffsets => ?_⟩
  · rw [htracks.parent_iff place c hc, List.nil_append, List.mem_flatMap]
  · have hends := endsIn_add fun c hc => htracks.lt_size c (hcall c hc)
    cases hadd : b.add call with
    | ok result =>
      have hfree := (hends.of_ok hadd).1
      refine ⟨⟨nofun, fun h => ?_⟩, Or.inr ⟨_, _, rfl⟩⟩
      exact absurd hfree (not_free_iff.2 h)
    | error fault =>
      rcases hends.of_error hadd with rfl | ⟨rfl, hnot⟩
      · exact absurd hadd hoffsets
      · exact ⟨⟨fun _ => not_free_iff.1 hnot, fun _ => rfl⟩, Or.inl rfl⟩
  · have hends := endsIn_finish fun c hc => htracks.lt_size c (hstatements c hc)
    cases hfinish : b.finish statements with
    | ok src =>
      obtain ⟨hfree, hfinished⟩ := hends.of_ok hfinish
      refine ⟨⟨nofun, fun h => ?_⟩, Or.inr ⟨src, rfl, hfinished, src.tree.wellFormed⟩⟩
      exact absurd hfree (not_free_iff.2 h)
    | error fault =>
      rcases hends.of_error hfinish with rfl | ⟨rfl, hnot⟩
      · exact absurd hfinish hoffsets
      · exact ⟨⟨fun _ => not_free_iff.1 hnot, fun _ => rfl⟩, Or.inl rfl⟩

/-- The forms of a statement with a reference, and of an empty block. -/
def Form.statementAndBlock : List (Form Nat) := [identifier "x", expressionStatement 0, block []]

/-- The reference has a parent already and cannot be given to a second statement, and the block
cannot stand on both sides of an operator. The two statements make up a tree. -/
theorem builder_accepts_free_statement :
    ∃ made b, (TreeBuilder.empty ⟨0⟩ .empty).addAll [] Form.statementAndBlock = .ok (made, b) ∧
      made = [0, 1, 2] ∧
      b.add (Form.expressionStatement 0) = .error .attachedTwice ∧
      b.add (Form.binary 2 "+" 2) = .error .attachedTwice ∧
      ∃ src, b.finish [1, 2] = .ok src ∧ b.Finished [1, 2] src ∧ src.tree.WellFormed := by
  have hrun : EndsIn (fun _ => False)
      (fun r => decide (r.1 = [0, 1, 2]) = true ∧
        EndsIn (fun fault => decide (fault = .offsetOverflow) = false) (fun _ => True)
          (r.2.add (Form.expressionStatement 0)) ∧
        EndsIn (fun fault => decide (fault = .offsetOverflow) = false) (fun _ => True)
          (r.2.add (Form.binary 2 "+" 2)) ∧
        EndsIn (fun _ => False) (fun _ => True) (r.2.finish [1, 2]))
      ((TreeBuilder.empty ⟨0⟩ .empty).addAll [] Form.statementAndBlock) := by decide +kernel
  obtain ⟨⟨made, b⟩, hadd, hmade, hsecond, htwice, hfinish⟩ := hrun.exists_eq_ok
  obtain rfl : made = [0, 1, 2] := of_decide_eq_true hmade
  obtain ⟨hnamed, hcalls, hfinishes⟩ := builder_accepts_free hadd
  have hoffsets : ∀ call : Form Nat,
      EndsIn (fun fault => decide (fault = .offsetOverflow) = false) (fun _ => True) (b.add call) →
      b.add call ≠ .error .offsetOverflow :=
    fun call hends hcall => of_decide_eq_false (hends.of_error hcall) rfl
  have hparent : storedParent b.nodes 0 ≠ none :=
    (hnamed 0 0 rfl).2 ⟨.expressionStatement 0, by decide, by decide⟩
  refine ⟨[0, 1, 2], b, hadd, rfl, ?_, ?_, ?_⟩
  · exact (hcalls _ (by decide) (hoffsets _ hsecond)).1.2 (Or.inl ⟨0, by decide, hparent⟩)
  · exact (hcalls _ (by decide) (hoffsets _ htwice)).1.2 (Or.inr (by decide))
  · obtain ⟨src, hsrc, _⟩ := hfinish.exists_eq_ok
    have hoffsets' : b.finish [1, 2] ≠ .error .offsetOverflow := by
      intro hfault
      rw [hsrc] at hfault
      cases hfault
    rcases (hfinishes [1, 2] (by decide) hoffsets').2 with h | h
    · rw [hsrc] at h
      cases h
    · exact h

end Predeclare
