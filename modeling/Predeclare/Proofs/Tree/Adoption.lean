import Mathlib.Data.List.Nodup
import Predeclare.Proofs.Outcome
import Predeclare.Tree.Builder

set_option relaxedAutoImplicit false
set_option autoImplicit false

/-!
# What a builder accepts

A call of a builder is given some nodes that exist already. It accepts them if none of them has a
parent and none is named twice, whether the call adds one node or several around each other. The
nodes that it adds on the way are new, so that they never stand in the way of the nodes given.

## Main definitions

* `Form.refs` — the nodes that a form is given.
* `TreeBuilder.Free` — nodes without a parent, none of which is named twice.
* `TreeBuilder.Grown` — a builder after a call that was given some nodes.
* `TreeBuilder.Tracks` — a builder after some calls, which named some of the nodes returned before.
* `adoptEach` — nodes get their parent one after the other, until one has a parent already.
* `TreeBuilder.Finished` — a tree with the links of a builder and a source file on top.

## Main results

* `TreeBuilder.node_eq_adoptEach` — a new node adopts its children one after the other.
* `TreeBuilder.endsIn_add` — a form is added if and only if the nodes it is given are free.
* `TreeBuilder.Tracks.addAll` — the nodes with a parent are those that some call has named.
* `TreeBuilder.endsIn_finish` — the same of the source file; the finished tree loses no link.
-/

namespace Predeclare

/-- The nodes that a form is given, from left to right. -/
def Form.refs {ν : Type} : Form ν → List ν
  | node _ _ children => children
  | around _ _ before inner after => before ++ inner.refs ++ after

/-- A property of all nodes given to a node around a form, of those inside and of those beside
it. -/
lemma Form.forall_mem_refs_around {ν : Type} {P : ν → Prop} {kind : SyntaxKind}
    {text : Option String} {before after : List ν} {inner : Form ν} :
    (∀ c ∈ (around kind text before inner after).refs, P c) ↔
      (∀ c ∈ inner.refs, P c) ∧ ∀ c ∈ before ++ after, P c := by
  simp only [refs, List.mem_append, or_imp, forall_and]
  tauto

/-- A form that refers to nodes refers to what its references were replaced by. -/
lemma Form.mapM_refs {ν μ ε : Type} {f : ν → Except ε μ} {form : Form ν} {form' : Form μ}
    (h : form.mapRefs f = .ok form') : form.refs.mapM f = .ok form'.refs := by
  induction form generalizing form' with
  | node kind text children =>
    simp only [mapRefs, bind_eq_ok_iff, pure_eq_ok, Except.ok.injEq] at h
    obtain ⟨children', hchildren, rfl⟩ := h
    exact hchildren
  | around kind text before inner after ih =>
    simp only [mapRefs, bind_eq_ok_iff, pure_eq_ok, Except.ok.injEq] at h
    obtain ⟨before', hbefore, inner', hinner, after', hafter, rfl⟩ := h
    simp only [refs, List.mapM_append, hbefore, ih hinner, hafter, ok_bind, pure_eq_ok]

/-- A place in a list of nodes stands for the node there. -/
lemma TreeBuilder.nodeAt_eq_ok_iff {made : List Nat} {place c : Nat} :
    nodeAt made place = .ok c ↔ made[place]? = some c := by
  unfold nodeAt
  split <;> rename_i h <;> simp [h]

/-! ## Adopting children one after the other -/

/-- Makes `p` the parent of the listed nodes, one after the other. This is a fault at the first node
that has a parent when its turn comes. -/
def adoptEach (p : Nat) : List Nat → Array (Node Nat) → Except Fault (Array (Node Nat))
  | [], nodes => .ok nodes
  | c :: rest, nodes =>
    if storedParent nodes c = none then
      adoptEach p rest (nodes.modify c fun nd => { nd with parent := some p })
    else .error .attachedTwice

/-- A known node that gets a parent has it, and the others keep theirs. -/
lemma storedParent_modify {nodes : Array (Node Nat)} {p c : Nat} (hc : c < nodes.size) (d : Nat) :
    storedParent (nodes.modify c fun nd => { nd with parent := some p }) d =
      if d = c then some p else storedParent nodes d := by
  unfold storedParent
  rw [Array.getElem?_modify]
  by_cases hd : c = d
  · subst hd
    simp [Array.getElem?_eq_getElem hc]
  · simp [hd, Ne.symm hd]

/-- Nodes can be adopted one after the other if they are free at the beginning and different: a node
that is named again has got its parent by then.

**Proof sketch.** Induction on the list. Adopting the first node changes the parent of this node
only, so the rest can be adopted if they were free before and do not name it again. -/
lemma adoptEach_eq (p : Nat) {children : List Nat} {nodes : Array (Node Nat)}
    (known : ∀ c ∈ children, c < nodes.size) :
    adoptEach p children nodes =
      if children.Nodup ∧ ∀ c ∈ children, storedParent nodes c = none then
        .ok (setParent nodes p children)
      else .error .attachedTwice := by
  induction children generalizing nodes with
  | nil => simp [adoptEach, setParent]
  | cons c rest ih =>
    have hc : c < nodes.size := known c List.mem_cons_self
    have hrest : ∀ d ∈ rest, d < (nodes.modify c fun nd => { nd with parent := some p }).size :=
      fun d hd => by
        rw [Array.size_modify]
        exact known d (List.mem_cons_of_mem c hd)
    have hfree : (rest.Nodup ∧ ∀ d ∈ rest,
          storedParent (nodes.modify c fun nd => { nd with parent := some p }) d = none) ↔
        c ∉ rest ∧ rest.Nodup ∧ ∀ d ∈ rest, storedParent nodes d = none := by
      simp only [storedParent_modify hc]
      constructor
      · rintro ⟨hnodup, hall⟩
        have hne : ∀ d ∈ rest, d ≠ c := fun d hd heq => by simpa [heq] using hall d hd
        exact ⟨fun hmem => hne c hmem rfl, hnodup, fun d hd => by simpa [hne d hd] using hall d hd⟩
      · rintro ⟨hc, hnodup, hall⟩
        refine ⟨hnodup, fun d hd => ?_⟩
        rw [if_neg (ne_of_mem_of_not_mem hd hc), hall d hd]
    simp only [adoptEach]
    by_cases hparent : storedParent nodes c = none
    · rw [if_pos hparent, ih hrest]
      simp only [hfree, List.nodup_cons, List.forall_mem_cons, hparent, true_and, and_assoc]
      rfl
    · rw [if_neg hparent, if_neg fun h => hparent (h.2 c List.mem_cons_self)]

/-- A node that comes after others leaves it to them to be adopted. -/
lemma setParent_push {nodes : Array (Node Nat)} {p : Nat} {children : List Nat} (nd : Node Nat)
    (known : ∀ c ∈ children, c < nodes.size) :
    setParent (nodes.push nd) p children = (setParent nodes p children).push nd := by
  refine Array.ext_getElem? fun i => ?_
  rw [getElem?_setParent, Array.getElem?_push, Array.getElem?_push, size_setParent,
    getElem?_setParent]
  by_cases hi : i = nodes.size
  · have hmem : i ∉ children := fun hmem => Nat.lt_irrefl _ (hi ▸ known i hmem)
    simp [if_pos hi, if_neg hmem]
  · simp [hi]

/-- A node that is stored last brings its own data, and the others keep what is not their parent.

**Proof sketch.** Entry by entry, since adoption changes parents only. -/
lemma map_attach {α : Type} {f : Node Nat → α} (hf : ∀ nd p, f { nd with parent := p } = f nd)
    (nodes : Array (Node Nat)) (nd : Node Nat) :
    (attach nodes nd).map f = (nodes.map f).push (f nd) := by
  refine Array.ext_getElem? fun i => ?_
  rw [Array.getElem?_map, getElem?_attach, Array.getElem?_push, Array.size_map, Array.getElem?_map]
  split
  · rfl
  · rw [Option.map_map]
    refine congrArg (Option.map · _) (funext fun old => ?_)
    rw [Function.comp_apply]
    split
    · exact hf old _
    · rfl

/-- The datum of one node after another one was stored. -/
lemma map_getElem?_attach {α : Type} {f : Node Nat → α}
    (hf : ∀ nd p, f { nd with parent := p } = f nd) (nodes : Array (Node Nat)) (nd : Node Nat)
    (i : Nat) :
    (attach nodes nd)[i]?.map f = if i = nodes.size then some (f nd) else nodes[i]?.map f := by
  rw [← Array.getElem?_map, map_attach hf, Array.getElem?_push, Array.size_map, Array.getElem?_map]

/-- A node that is stored last has no parent yet, and the others keep theirs. -/
lemma storedParent_push {nodes : Array (Node Nat)} {nd : Node Nat} {c : Nat}
    (hc : c < nodes.size) : storedParent (nodes.push nd) c = storedParent nodes c := by
  unfold storedParent
  rw [Array.getElem?_push, if_neg (Nat.ne_of_lt hc)]

namespace TreeBuilder

/-! ## Free nodes -/

/-- The nodes have no parent, and none of them is named twice. -/
def Free (b : TreeBuilder) (refs : List Nat) : Prop :=
  refs.Nodup ∧ ∀ c ∈ refs, storedParent b.nodes c = none

instance (b : TreeBuilder) (refs : List Nat) : Decidable (b.Free refs) :=
  inferInstanceAs (Decidable (_ ∧ _))

variable {b b' : TreeBuilder} {kind : SyntaxKind} {text : Option String} {children : List Nat}

/-- Nodes are not free if one of them has a parent or is named twice. -/
lemma not_free_iff {refs : List Nat} :
    ¬ b.Free refs ↔ (∃ c ∈ refs, storedParent b.nodes c ≠ none) ∨ ¬ refs.Nodup := by
  rw [Free, not_and_or, or_comm]
  simp only [not_forall, exists_prop, ne_eq]

/-- A node that has been stored can adopt its children one after the other if they are free. -/
lemma adoptEach_push (nd : Node Nat) (known : ∀ c ∈ nd.children, c < b.nodes.size) :
    adoptEach b.nodes.size nd.children (b.nodes.push nd) =
      if b.Free nd.children then .ok (attach b.nodes nd) else .error .attachedTwice := by
  have known' : ∀ c ∈ nd.children, c < (b.nodes.push nd).size := fun c hc => by
    rw [Array.size_push]
    exact Nat.lt_succ_of_lt (known c hc)
  have hfree : (nd.children.Nodup ∧ ∀ c ∈ nd.children, storedParent (b.nodes.push nd) c = none) ↔
      b.Free nd.children :=
    and_congr_right fun _ => forall₂_congr fun c hc => by rw [storedParent_push (known c hc)]
  rw [adoptEach_eq _ known', setParent_push nd known]
  exact if_congr hfree rfl rfl

/-- **A new node adopts its children one after the other**, after it has been stored.

**Proof sketch.** `adoptEach_push` says that the loop over the children comes to its end if they are
free and sets their parents, which is the test that `node` makes and what it then stores. -/
theorem node_eq_adoptEach (known : ∀ c ∈ children, c < b.nodes.size) {span : Span} {offset : Nat}
    (hplace : b.place text children = .ok (span, offset)) :
    (b.node kind text children).map (fun r => r.2.nodes) =
      adoptEach b.nodes.size children
        (b.nodes.push ⟨kind, none, children, (b.interner.intern? text).1, span⟩) := by
  rw [adoptEach_push ⟨kind, none, children, (b.interner.intern? text).1, span⟩ known]
  unfold node
  rw [dif_pos known, hplace]
  dsimp only
  split
  · rename_i free
    rw [if_pos (show b.Free children from free)]
    rfl
  · rename_i free
    rw [if_neg (show ¬ b.Free children from free)]
    rfl

/-- A builder after a call that was given the nodes `refs` and returned `i`. There are more nodes,
`i` is one of them and has no parent, and of the old nodes those have none that had none before and
were not given. -/
structure Grown (b : TreeBuilder) (refs : List Nat) (i : Nat) (b' : TreeBuilder) : Prop where
  size_le : b.nodes.size ≤ i
  lt_size : i < b'.nodes.size
  top : storedParent b'.nodes i = none
  parent_iff : ∀ c < b.nodes.size,
    storedParent b'.nodes c = none ↔ storedParent b.nodes c = none ∧ c ∉ refs

/-- A call goes wrong because offsets run out, or because the nodes it was given are not free. -/
def Refuses (b : TreeBuilder) (refs : List Nat) (fault : Fault) : Prop :=
  fault = .offsetOverflow ∨ fault = .attachedTwice ∧ ¬ b.Free refs

/-- Offsets run out. -/
lemma eq_offsetOverflow_of_place {fault : Fault} (h : b.place text children = .error fault) :
    fault = .offsetOverflow := by
  unfold place at h
  split at h
  · cases h
  · dsimp only at h
    split at h
    · cases h
    · exact (Except.error.inj h).symm

/-- A node is added if and only if its children are free: it is placed, and then the loop over the
children comes to its end.

**Proof sketch.** By `node_eq_adoptEach` the nodes are those after the loop, and by `adoptEach_push`
the loop ends well if and only if the children are free. -/
lemma endsIn_node (known : ∀ c ∈ children, c < b.nodes.size) :
    EndsIn (b.Refuses children) (fun r => b.Free children ∧ b.Grown children r.1 r.2)
      (b.node kind text children) := by
  cases hplace : b.place text children with
  | error fault =>
    unfold node
    rw [dif_pos known, hplace]
    exact Or.inl (eq_offsetOverflow_of_place hplace)
  | ok placed =>
    have hloop := @node_eq_adoptEach b kind text children known placed.1 placed.2 hplace
    rw [adoptEach_push ⟨kind, none, children, (b.interner.intern? text).1, placed.1⟩ known] at hloop
    cases hnode : b.node kind text children with
    | error fault =>
      rw [hnode] at hloop
      split at hloop
      · cases hloop
      · rename_i free
        exact Or.inr ⟨Except.error.inj hloop, free⟩
    | ok result =>
      rw [hnode] at hloop
      split at hloop
      · rename_i free
        obtain ⟨hi, _⟩ := nodes_of_node hnode
        have hnodes : result.2.nodes = attach b.nodes _ := Except.ok.inj hloop
        refine ⟨free, Nat.le_of_eq hi.symm, ?_, ?_, fun c hc => ?_⟩
        · rw [hnodes, size_attach, hi]
          exact Nat.lt_succ_self _
        · rw [hnodes, storedParent_attach, if_pos hi]
        · rw [hnodes, storedParent_attach, if_neg (Nat.ne_of_lt hc)]
          by_cases hmem : c ∈ children <;> simp [hc, hmem]
      · cases hloop

/-- An added node and the nodes around it are known. -/
lemma Grown.known {refs before after : List Nat} {i : Nat} (h : b.Grown refs i b')
    (known : ∀ c ∈ before ++ after, c < b.nodes.size) :
    ∀ c ∈ before ++ i :: after, c < b'.nodes.size := by
  have hsize : b.nodes.size < b'.nodes.size := Nat.lt_of_le_of_lt h.size_le h.lt_size
  intro c hc
  rw [List.mem_append, List.mem_cons] at hc
  rcases hc with hc | rfl | hc
  · exact Nat.lt_trans (known c (List.mem_append_left after hc)) hsize
  · exact h.lt_size
  · exact Nat.lt_trans (known c (List.mem_append_right before hc)) hsize

/-- The nodes around an added form are free if they were and if the form was not given them: what
was added is new.

**Proof sketch.** The new node is none of the nodes around it, and has no parent. The others have
none if they had none and were not given to the form; that they were not is also what keeps the
longer list free of repetitions. -/
lemma Grown.free_iff {refs before after : List Nat} {i : Nat} (h : b.Grown refs i b')
    (hfree : b.Free refs) (known : ∀ c ∈ before ++ after, c < b.nodes.size) :
    b'.Free (before ++ i :: after) ↔ b.Free (before ++ refs ++ after) := by
  have hi : i ∉ before ++ after := fun hmem => Nat.not_lt.2 h.size_le (known i hmem)
  have hold : ∀ l : List Nat, (∀ c ∈ l, c < b.nodes.size) →
      ((∀ c ∈ l, storedParent b'.nodes c = none) ↔
        (∀ c ∈ l, storedParent b.nodes c = none) ∧ ∀ c ∈ l, c ∉ refs) := by
    intro l hl
    rw [← forall₂_and]
    exact forall₂_congr fun c hc => h.parent_iff c (hl c hc)
  have hmiddle : (∀ c ∈ before ++ i :: after, storedParent b'.nodes c = none) ↔
      ∀ c ∈ before ++ after, storedParent b'.nodes c = none := by
    simp [h.top, or_imp, forall_and]
  have hsplit : (∀ c ∈ before ++ refs ++ after, storedParent b.nodes c = none) ↔
      ∀ c ∈ before ++ after, storedParent b.nodes c = none := by
    have := hfree.2
    simp only [List.mem_append, or_imp, forall_and]
    tauto
  have hnodup : (before ++ refs ++ after).Nodup ↔
      (before ++ after).Nodup ∧ ∀ c ∈ before ++ after, c ∉ refs := by
    rw [List.append_assoc, (List.perm_append_comm_assoc before refs after).nodup_iff,
      List.nodup_append', and_iff_right hfree.1]
    exact and_congr_right fun _ => ⟨fun hdisjoint c hc hmem => hdisjoint hmem hc,
      fun hnot c hmem hc => hnot c hc hmem⟩
  rw [Free, Free, List.perm_middle.nodup_iff, List.nodup_cons, and_iff_right hi, hnodup, hmiddle,
    hold _ known, hsplit, and_assoc, and_comm (a := ∀ c ∈ before ++ after, c ∉ refs)]

/-- **A form is added if and only if the nodes it is given are free.**

**Proof sketch.** Induction from the inside to the outside. What has been added inside took the
nodes given to it, so that the node around it can still have the nodes that are free apart from
these. -/
theorem endsIn_add {form : Form Nat} (known : ∀ c ∈ form.refs, c < b.nodes.size) :
    EndsIn (b.Refuses form.refs) (fun r => b.Free form.refs ∧ b.Grown form.refs r.1 r.2)
      (b.add form) := by
  induction form with
  | node kind text children => exact endsIn_node known
  | around kind text before inner after ih =>
    obtain ⟨hinner, houter⟩ := Form.forall_mem_refs_around.1 known
    simp only [add, Form.refs]
    cases hadd : b.add inner with
    | error fault =>
      rcases (ih hinner).of_error hadd with h | ⟨h, hfree⟩
      · exact Or.inl h
      · refine Or.inr ⟨h, fun hall => hfree ⟨?_, fun c hc => hall.2 c (by simp [hc])⟩⟩
        exact hall.1.of_append_left.of_append_right
    | ok result =>
      obtain ⟨i, b₁⟩ := result
      obtain ⟨hfree, hgrown⟩ := (ih hinner).of_ok hadd
      dsimp only at hfree hgrown ⊢
      -- for the outer node `i` is one more child, which nothing has been able to take yet
      have hsize : b.nodes.size < b₁.nodes.size := Nat.lt_of_le_of_lt hgrown.size_le hgrown.lt_size
      have hknown : ∀ c ∈ before ++ i :: after, c < b₁.nodes.size := hgrown.known houter
      have hiff := hgrown.free_iff hfree houter
      cases hnode : b₁.node kind text (before ++ i :: after) with
      | error fault =>
        rcases (endsIn_node hknown).of_error hnode with h | ⟨h, hnot⟩
        · exact Or.inl h
        · exact Or.inr ⟨h, fun hall => hnot (hiff.2 hall)⟩
      | ok result =>
        obtain ⟨hall, hgrown'⟩ := (endsIn_node hknown).of_ok hnode
        refine ⟨hiff.1 hall, ?_, hgrown'.lt_size, hgrown'.top, fun c hc => ?_⟩
        · exact Nat.le_trans (Nat.le_of_lt hsize) hgrown'.size_le
        · have hne : c ≠ i := Nat.ne_of_lt (Nat.lt_of_lt_of_le hc hgrown.size_le)
          rw [hgrown'.parent_iff c (Nat.lt_trans hc hsize), hgrown.parent_iff c hc]
          simp only [List.mem_append, List.mem_cons, hne, false_or]
          tauto

/-! ## Calls one after the other -/

/-- The nodes that calls have returned, in order, are different nodes of the builder, and those that
have a parent are those at the places named by the calls. -/
structure Tracks (b : TreeBuilder) (made named : List Nat) : Prop where
  lt_size : ∀ c ∈ made, c < b.nodes.size
  nodup : made.Nodup
  lt_length : ∀ place ∈ named, place < made.length
  parent_iff : ∀ place c, made[place]? = some c →
    (storedParent b.nodes c ≠ none ↔ place ∈ named)

/-- A call that names places is given the nodes there.

**Proof sketch.** The references of the call are the nodes at the places that the form refers to.
Since no node has two places, a node at a place is referred to only through this place. -/
lemma Tracks.mem_refs_iff {made named : List Nat} (h : b.Tracks made named) {form call : Form Nat}
    (hrefs : form.mapRefs (nodeAt made) = .ok call) {place c : Nat}
    (hplace : made[place]? = some c) : c ∈ call.refs ↔ place ∈ form.refs := by
  have hmap := Form.mapM_refs hrefs
  constructor
  · intro hc
    obtain ⟨place', hmem, hnode⟩ := forall_mem_of_mapM_eq_ok hmap c hc
    obtain ⟨hlt, rfl⟩ := List.getElem?_eq_some_iff.1 hplace
    obtain ⟨hlt', heq⟩ := List.getElem?_eq_some_iff.1 (nodeAt_eq_ok_iff.1 hnode)
    exact (h.nodup.getElem_inj_iff.1 heq) ▸ hmem
  · intro hmem
    obtain ⟨d, hd, hnode⟩ := exists_mem_of_mapM_eq_ok hmap place hmem
    rw [nodeAt_eq_ok_iff, hplace] at hnode
    exact Option.some.inj hnode ▸ hd

/-- A call that names places is given known nodes. -/
lemma Tracks.lt_size_of_mem_refs {made named : List Nat} (h : b.Tracks made named)
    {form call : Form Nat} (hrefs : form.mapRefs (nodeAt made) = .ok call) :
    ∀ c ∈ call.refs, c < b.nodes.size := fun c hc => by
  obtain ⟨place, _, hplace⟩ := forall_mem_of_mapM_eq_ok (Form.mapM_refs hrefs) c hc
  exact h.lt_size c (List.mem_of_getElem? (nodeAt_eq_ok_iff.1 hplace))

/-- One more call names its places and returns a new node.

**Proof sketch.** By `endsIn_add` the call returns a new node, which has no parent, and the old
nodes that get a parent are those it was given. These stand at the places that the form names, and
only there, since all returned nodes are different. -/
lemma Tracks.add {made named : List Nat} (h : b.Tracks made named) {form call : Form Nat} {i : Nat}
    (hrefs : form.mapRefs (nodeAt made) = .ok call) (hadd : b.add call = .ok (i, b')) :
    b'.Tracks (made ++ [i]) (named ++ form.refs) := by
  have hmap := Form.mapM_refs hrefs
  have hplaces : ∀ place ∈ named ++ form.refs, place < made.length := fun place hplace => by
    rcases List.mem_append.1 hplace with hplace | hplace
    · exact h.lt_length place hplace
    · obtain ⟨c, hc⟩ := exists_eq_ok_of_mapM_eq_ok hmap place hplace
      exact (List.getElem?_eq_some_iff.1 (nodeAt_eq_ok_iff.1 hc)).1
  obtain ⟨_, hgrown⟩ := (endsIn_add (h.lt_size_of_mem_refs hrefs)).of_ok hadd
  dsimp only at hgrown
  have hold : ∀ c ∈ made, c < i := fun c hc => Nat.lt_of_lt_of_le (h.lt_size c hc) hgrown.size_le
  refine ⟨fun c hc => ?_, ?_, fun place hplace => ?_, fun place c hc => ?_⟩
  · rcases List.mem_append.1 hc with hc | hc
    · exact Nat.lt_trans (hold c hc) hgrown.lt_size
    · exact List.mem_singleton.1 hc ▸ hgrown.lt_size
  · refine List.nodup_append.2 ⟨h.nodup, List.nodup_singleton i, fun c hc d hd => ?_⟩
    exact List.mem_singleton.1 hd ▸ Nat.ne_of_lt (hold c hc)
  · rw [List.length_append]
    exact Nat.lt_add_right _ (hplaces place hplace)
  · rw [List.getElem?_append] at hc
    split at hc
    · have hlt := h.lt_size c (List.mem_of_getElem? hc)
      rw [ne_eq, hgrown.parent_iff c hlt, not_and_or, not_not, List.mem_append,
        ← h.parent_iff place c hc, h.mem_refs_iff hrefs hc]
    · -- the new node has no parent, and no call could name its place before it was there
      rename_i hge
      have hmem := List.mem_singleton.1 (List.mem_of_getElem? hc)
      refine iff_of_false (fun hne => hne (hmem ▸ hgrown.top)) fun hplace => ?_
      exact hge (hplaces place hplace)

/-- **The nodes with a parent are those that some call has named.**

**Proof sketch.** Induction on the forms. -/
theorem Tracks.addAll {made named made' : List Nat} {forms : List (Form Nat)}
    (h : b.Tracks made named) (hadd : b.addAll made forms = .ok (made', b')) :
    b'.Tracks made' (named ++ forms.flatMap Form.refs) := by
  induction forms generalizing b made named with
  | nil =>
    obtain ⟨rfl, rfl⟩ := Prod.mk.inj (Except.ok.inj hadd)
    simpa using h
  | cons form rest ih =>
    simp only [TreeBuilder.addAll] at hadd
    split at hadd
    · cases hadd
    · rename_i call hrefs
      split at hadd
      · cases hadd
      · rename_i i b₁ hcall
        rw [List.flatMap_cons, ← List.append_assoc]
        exact ih (h.add hrefs hcall) hadd

/-- No call has been made yet. -/
lemma tracks_empty (file : FileId) (I : Interner) : (empty file I).Tracks [] [] :=
  ⟨by simp, List.nodup_nil, by simp, by simp⟩

/-! ## Finished trees -/

/-- The numbers of nodes of a tree are those that they were restricted from. -/
lemma map_val_filterMap_below {n : Nat} {l : List Nat} (h : ∀ c ∈ l, c < n) :
    (l.filterMap (below? n)).map Fin.val = l := by
  induction l with
  | nil => rfl
  | cons c rest ih =>
    have hc : below? n c = some ⟨c, h c List.mem_cons_self⟩ := below?_eq_some_iff.2 rfl
    rw [List.filterMap_cons_some hc, List.map_cons, ih fun d hd => h d (List.mem_cons_of_mem c hd)]

/-- No child is lost when nodes are linked among each other. -/
lemma map_val_children_restrict (p : Fin b.nodes.size) :
    (b.nodes[p].restrict b.nodes.size).children.map Fin.val = storedChildren b.nodes p := by
  have hstored : storedChildren b.nodes p = b.nodes[p].children := by
    simp [storedChildren]
  have hlt : ∀ c ∈ b.nodes[p].children, c < b.nodes.size := fun c hc =>
    Nat.lt_trans (b.linked.lt p c (hstored ▸ hc)) p.isLt
  rw [hstored]
  exact map_val_filterMap_below hlt

/-- No child is lost when all nodes are made into a tree. -/
lemma map_val_children_toTree {root : Nat} (last : b.nodes.size = root + 1)
    (kind : b.nodes[root]?.map Node.kind = some .sourceFile) (p : Fin b.nodes.size) :
    ((b.toTree root last kind).children p).map Fin.val = storedChildren b.nodes p := by
  simpa [toTree, SyntaxTree.children] using map_val_children_restrict p

/-- No parent is lost when all nodes are made into a tree.

**Proof sketch.** A parent that a builder stores is one of its nodes, because it has a child. -/
lemma map_val_parent_toTree {root : Nat} (last : b.nodes.size = root + 1)
    (kind : b.nodes[root]?.map Node.kind = some .sourceFile) (c : Fin b.nodes.size) :
    ((b.toTree root last kind).parent c).map Fin.val = storedParent b.nodes c := by
  refine Option.ext fun p => ?_
  have hp : storedParent b.nodes c = some p → p < b.nodes.size := fun h => by
    by_contra hge
    have hmem := (b.linked.mem_iff p c).2 h
    rw [storedChildren_eq_nil (Nat.not_lt.1 hge)] at hmem
    exact List.not_mem_nil hmem
  have hparent : ∀ q : Fin b.nodes.size,
      (b.toTree root last kind).parent c = some q ↔ storedParent b.nodes c = some q.val := by
    intro q
    simp [toTree, SyntaxTree.parent, Node.parent_restrict, storedParent]
  rw [Option.map_eq_some_iff]
  constructor
  · rintro ⟨q, hq, rfl⟩
    exact (hparent q).1 hq
  · intro h
    exact ⟨⟨p, hp h⟩, (hparent _).2 h, rfl⟩

/-- A tree with the kinds and the links of a builder and a source file over the statements: no link
is lost, and the source file is the parent of exactly the statements. -/
structure Finished (b : TreeBuilder) (statements : List Nat) (src : Source) : Prop where
  size_eq : src.size = b.nodes.size + 1
  root_eq : src.tree.root.val = b.nodes.size
  kind_eq : ∀ i, some (src.tree.kind i) =
    if i = src.tree.root then some .sourceFile else b.nodes[i.val]?.map Node.kind
  children_eq : ∀ p, (src.tree.children p).map Fin.val =
    if p = src.tree.root then statements else storedChildren b.nodes p
  parent_eq : ∀ c, (src.tree.parent c).map Fin.val =
    if c.val ∈ statements then some b.nodes.size else storedParent b.nodes c

/-- The tree of all nodes is finished if the last one adopted the statements.

**Proof sketch.** Each link is that of the last builder, and one more node has been attached
since. -/
lemma finished_toTree {statements : List Nat} (known : ∀ c ∈ statements, c < b.nodes.size)
    {nd : Node Nat} (hkind : nd.kind = .sourceFile) (hchildren : nd.children = statements)
    (htop : nd.parent = none)
    (hnodes : b'.nodes = attach b.nodes nd) (last : b'.nodes.size = b.nodes.size + 1)
    (kind : b'.nodes[b.nodes.size]?.map Node.kind = some .sourceFile) :
    b.Finished statements ⟨b'.nodes.size, b'.toTree b.nodes.size last kind, b'.interner⟩ where
  size_eq := last
  root_eq := rfl
  kind_eq i := by
    have hstored : ∀ i, b'.nodes[i]?.map Node.kind =
        if i = b.nodes.size then some .sourceFile else b.nodes[i]?.map Node.kind := fun i => by
      rw [hnodes, map_getElem?_attach fun _ _ => rfl, hkind]
    have htree : some ((b'.toTree b.nodes.size last kind).kind i) =
        b'.nodes[i.val]?.map Node.kind := by
      simp [toTree, SyntaxTree.kind, Node.restrict]
    rw [htree, hstored]
    exact if_congr ⟨fun heq => Fin.ext heq, congrArg Fin.val⟩ rfl rfl
  children_eq p := by
    have hstored : ∀ i, storedChildren b'.nodes i =
        if i = b.nodes.size then statements else storedChildren b.nodes i := fun i => by
      rw [hnodes, storedChildren_attach, hchildren]
    rw [map_val_children_toTree last kind p, hstored]
    exact if_congr ⟨fun heq => Fin.ext heq, congrArg Fin.val⟩ rfl rfl
  parent_eq c := by
    have hstored : ∀ i, storedParent b'.nodes i = if i = b.nodes.size then none
        else if i < b.nodes.size ∧ i ∈ statements then some b.nodes.size
        else storedParent b.nodes i := fun i => by
      rw [hnodes, storedParent_attach, hchildren, htop]
    rw [map_val_parent_toTree last kind c, hstored]
    by_cases hc : c.val = b.nodes.size
    · have hmem : c.val ∉ statements := fun hmem => Nat.ne_of_lt (known c.val hmem) hc
      have hnone : storedParent b.nodes c.val = none := by
        simp [storedParent, hc]
      rw [if_pos hc, if_neg hmem, hnone]
    · rw [if_neg hc]
      exact if_congr ⟨And.right, fun hmem => ⟨known c.val hmem, hmem⟩⟩ rfl rfl

/-- **A tree is finished if and only if the statements are free**, and it has the links of the
builder. -/
theorem endsIn_finish {statements : List Nat} (known : ∀ c ∈ statements, c < b.nodes.size) :
    EndsIn (b.Refuses statements) (fun src => b.Free statements ∧ b.Finished statements src)
      (b.finish statements) := by
  have hends := @endsIn_node b .sourceFile none statements known
  unfold finish
  split
  · rename_i fault hnode
    exact hends.of_error hnode
  · rename_i root b' hnode
    obtain ⟨rfl, name, span, _, hnodes⟩ := nodes_of_node hnode
    exact ⟨(hends.of_ok hnode).1, finished_toTree known rfl rfl rfl hnodes _ _⟩

end TreeBuilder

end Predeclare
