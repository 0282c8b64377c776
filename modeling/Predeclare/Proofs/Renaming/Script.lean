import Predeclare.Proofs.Renaming.Binding
import Predeclare.Proofs.Tree.Adoption
import Predeclare.Proofs.Tree.Texts

set_option relaxedAutoImplicit false
set_option autoImplicit false

/-!
# Scripts with their texts replaced

A builder looks at the text of a node for nothing but its length. If each text of a script is
replaced by another one, the builder stores nodes of the same kinds with the same links, unless the
replaced texts are so long that offsets run out. The tree that it makes differs from the old one in
its names only.

## Main definitions

* `Form.rename` — a form with its texts replaced.
* `SameShape` — stored nodes of the same kinds with the same links.

## Main results

* `Source.endsIn_build_rename` — building a script with its texts replaced.
* `Source.renames_of_build` — the trees differ in their names only.
-/

namespace Predeclare

/-! ## Forms -/

namespace Form

variable {ν μ ε : Type} (f : String → String)

/-- A form with its texts replaced. -/
def rename : Form ν → Form ν
  | node kind text children => node kind (text.map f) children
  | around kind text before inner after => around kind (text.map f) before inner.rename after

/-- The texts are replaced one by one. -/
lemma texts_rename (form : Form ν) : (form.rename f).texts = form.texts.map (Option.map f) := by
  induction form with
  | node kind text children => rfl
  | around kind text before inner after ih =>
    simp only [rename, texts, ih, List.map_append]
    rfl

/-- Replacing texts has nothing to do with replacing references. -/
lemma mapRefs_rename {form : Form ν} {form' : Form μ} {r : ν → Except ε μ}
    (h : form.mapRefs r = .ok form') : (form.rename f).mapRefs r = .ok (form'.rename f) := by
  induction form generalizing form' with
  | node kind text children =>
    simp only [mapRefs, bind_eq_ok_iff, pure_eq_ok, Except.ok.injEq] at h
    obtain ⟨children', hchildren, rfl⟩ := h
    simp only [rename, mapRefs, hchildren, ok_bind, pure_eq_ok]
  | around kind text before inner after ih =>
    simp only [mapRefs, bind_eq_ok_iff, pure_eq_ok, Except.ok.injEq] at h
    obtain ⟨before', hbefore, inner', hinner, after', hafter, rfl⟩ := h
    simp only [rename, mapRefs, hbefore, ih hinner, hafter, ok_bind, pure_eq_ok]

end Form

/-- The texts that a builder is given are replaced one by one. -/
lemma givenTexts_rename (f : String → String) (forms : List (Form Nat)) :
    givenTexts (forms.map (Form.rename f)) = (givenTexts forms).map (Option.map f) := by
  simp only [givenTexts, List.flatMap_map, Form.texts_rename, List.map_append, List.map_flatMap,
    List.map_cons, List.map_nil, Option.map_none]

/-! ## Stored nodes -/

/-- The stored nodes have the same kinds and the same links. -/
structure SameShape (nodes nodes' : Array (Node Nat)) : Prop where
  size : nodes'.size = nodes.size
  kind : ∀ i : Nat, nodes'[i]?.map Node.kind = nodes[i]?.map Node.kind
  children : ∀ i, storedChildren nodes' i = storedChildren nodes i
  parent : ∀ i, storedParent nodes' i = storedParent nodes i

/-- Nodes of the same kind with the same children keep the shapes the same. -/
lemma SameShape.attach {nodes nodes' : Array (Node Nat)} (h : SameShape nodes nodes')
    {nd nd' : Node Nat} (hkind : nd'.kind = nd.kind) (hchildren : nd'.children = nd.children)
    (hparent : nd'.parent = nd.parent) :
    SameShape (Predeclare.attach nodes nd) (Predeclare.attach nodes' nd') where
  size := by rw [size_attach, size_attach, h.size]
  kind i := by
    have hattach := @map_getElem?_attach _ Node.kind fun _ _ => rfl
    rw [hattach, hattach, h.size, h.kind, hkind]
  children i := by
    rw [storedChildren_attach, storedChildren_attach, h.size, h.children, hchildren]
  parent i := by
    rw [storedParent_attach, storedParent_attach, h.size, h.parent, hchildren, hparent]

namespace TreeBuilder

variable {b b' b₁ : TreeBuilder} {kind : SyntaxKind} {text : Option String} {children : List Nat}
  {i : Nat}

/-- A node that was added has known children. -/
lemma known_of_node (h : b.node kind text children = .ok (i, b₁)) :
    ∀ c ∈ children, c < b.nodes.size := by
  unfold node at h
  split at h
  · assumption
  · cases h

/-- Where a node was added, one with another text can be added, unless offsets run out.

**Proof sketch.** By `endsIn_node` a node is added if its children are free. The new nodes have the
same kind, the same children and no parent. -/
lemma endsIn_node_sameShape (hshape : SameShape b.nodes b'.nodes)
    (h : b.node kind text children = .ok (i, b₁)) (text' : Option String) :
    EndsIn (· = .offsetOverflow) (fun r => r.1 = i ∧ SameShape b₁.nodes r.2.nodes)
      (b'.node kind text' children) := by
  have known := known_of_node h
  -- Whether nodes are free is a question about parents, and these are the same.
  have hfree : b'.Free children := by
    obtain ⟨hnodup, hall⟩ := ((endsIn_node known).of_ok h).1
    exact ⟨hnodup, fun c hc => (hshape.parent c).trans (hall c hc)⟩
  have hends := @endsIn_node b' kind text' children fun c hc => hshape.size ▸ known c hc
  cases hnode : b'.node kind text' children with
  | error fault =>
    rcases hends.of_error hnode with h | ⟨_, hnot⟩
    · exact h
    · exact absurd hfree hnot
  | ok result =>
    obtain ⟨j, b₁'⟩ := result
    obtain ⟨rfl, _, _, _, hnodes⟩ := nodes_of_node h
    obtain ⟨rfl, _, _, _, hnodes'⟩ := nodes_of_node hnode
    refine ⟨hshape.size, ?_⟩
    rw [hnodes, hnodes']
    exact hshape.attach rfl rfl rfl

/-- Where a form was added, it can be added with its texts replaced, unless offsets run out.

**Proof sketch.** Induction from the inside to the outside. -/
lemma endsIn_add_rename (f : String → String) (hshape : SameShape b.nodes b'.nodes)
    {form : Form Nat} (h : b.add form = .ok (i, b₁)) :
    EndsIn (· = .offsetOverflow) (fun r => r.1 = i ∧ SameShape b₁.nodes r.2.nodes)
      (b'.add (form.rename f)) := by
  induction form generalizing i b₁ with
  | node kind text children => exact endsIn_node_sameShape hshape h _
  | around kind text before inner after ih =>
    simp only [add] at h
    split at h
    · cases h
    · rename_i child b₂ hinner
      have hends := ih hinner
      simp only [Form.rename, add]
      split
      · rename_i fault hfault
        exact hends.of_error hfault
      · rename_i child' b₂' hinner'
        obtain ⟨rfl, hshape'⟩ := hends.of_ok hinner'
        exact endsIn_node_sameShape hshape' h _

/-- Where forms were added one after the other, they can be with their texts replaced, unless
offsets run out.

**Proof sketch.** Induction on the forms. Both builders return the same nodes, so the places in the
next form stand for the same nodes. -/
lemma endsIn_addAll_rename (f : String → String) (hshape : SameShape b.nodes b'.nodes)
    {made made' : List Nat} {forms : List (Form Nat)} (h : b.addAll made forms = .ok (made', b₁)) :
    EndsIn (· = .offsetOverflow) (fun r => r.1 = made' ∧ SameShape b₁.nodes r.2.nodes)
      (b'.addAll made (forms.map (Form.rename f))) := by
  induction forms generalizing b b' made with
  | nil =>
    obtain ⟨rfl, rfl⟩ := Prod.mk.inj (Except.ok.inj h)
    exact ⟨rfl, hshape⟩
  | cons form rest ih =>
    simp only [addAll] at h
    split at h
    · cases h
    · rename_i call hrefs
      split at h
      · cases h
      · rename_i i b₂ hadd
        have hends := endsIn_add_rename f hshape hadd
        simp only [List.map_cons, addAll, Form.mapRefs_rename f hrefs]
        split
        · rename_i fault hfault
          exact hends.of_error hfault
        · rename_i i' b₂' hadd'
          obtain ⟨rfl, hshape'⟩ := hends.of_ok hadd'
          exact ih hshape' h

/-- Trees that are finished over nodes of the same shapes have nodes of the same kinds with the same
children.

**Proof sketch.** A finished tree has the kinds and the children of its builder, and the root on
top. -/
lemma Finished.sameShape (hshape : SameShape b.nodes b'.nodes) {statements : List Nat}
    {src src' : Source} (h : b.Finished statements src) (h' : b'.Finished statements src') :
    ∃ t' : SyntaxTree src.size, src' = ⟨src.size, t', src'.interner⟩ ∧
      t'.kind = src.tree.kind ∧ t'.children = src.tree.children := by
  obtain ⟨n, t, I⟩ := src
  obtain ⟨n', t', I'⟩ := src'
  obtain rfl : n' = n := by
    refine h'.size_eq.trans (Eq.trans ?_ h.size_eq.symm)
    rw [hshape.size]
  have hroot : t'.root = t.root := Fin.ext (by rw [h'.root_eq, h.root_eq, hshape.size])
  refine ⟨t', rfl, funext fun i => ?_, funext fun p => ?_⟩
  · refine Option.some.inj ((h'.kind_eq i).trans (Eq.trans ?_ (h.kind_eq i).symm))
    rw [hroot, hshape.kind]
  · have hinj : (List.map (Fin.val (n := n'))).Injective :=
      List.map_injective_iff.2 fun _ _ => Fin.ext
    refine hinj ((h'.children_eq p).trans (Eq.trans ?_ (h.children_eq p).symm))
    rw [hroot, hshape.children]

/-- Where a tree was finished, one over nodes of the same shapes can be, unless offsets run out.

**Proof sketch.** By `endsIn_finish` a tree is finished if the statements are free. -/
lemma endsIn_finish_sameShape (hshape : SameShape b.nodes b'.nodes) {statements : List Nat}
    {src : Source} (h : b.finish statements = .ok src) :
    EndsIn (· = .offsetOverflow)
      (fun src' => ∃ t' : SyntaxTree src.size, src' = ⟨src.size, t', src'.interner⟩ ∧
        t'.kind = src.tree.kind ∧ t'.children = src.tree.children)
      (b'.finish statements) := by
  have known : ∀ c ∈ statements, c < b.nodes.size := by
    unfold finish at h
    split at h
    · cases h
    · rename_i hnode
      exact known_of_node hnode
  obtain ⟨⟨hnodup, hall⟩, hfinished⟩ := (endsIn_finish known).of_ok h
  have hfree : b'.Free statements := ⟨hnodup, fun c hc => (hshape.parent c).trans (hall c hc)⟩
  have hends := @endsIn_finish b' statements fun c hc => hshape.size ▸ known c hc
  cases hfinish : b'.finish statements with
  | error fault =>
    rcases hends.of_error hfinish with h | ⟨_, hnot⟩
    · exact h
    · exact absurd hfree hnot
  | ok src' => exact hfinished.sameShape hshape (hends.of_ok hfinish).2

end TreeBuilder

/-! ## Scripts -/

section Build

variable {file file' : FileId} {I₀ I₀' : Interner} {forms : List (Form Nat)}
  {statements : List Nat} {src : Source} {f : String → String}

/-- **Building a script with its texts replaced** gives a tree of the same shape, unless offsets run
out.

**Proof sketch.** Building is adding the forms and finishing. Both keep the shape unless offsets run
out (`endsIn_addAll_rename`, `endsIn_finish_sameShape`), and the statements are found at the same
places. -/
theorem Source.endsIn_build_rename (f : String → String) (I₀' : Interner) (file' : FileId)
    (h : Source.build file I₀ forms statements = .ok src) :
    EndsIn (· = .offsetOverflow)
      (fun src' => ∃ t' : SyntaxTree src.size, src' = ⟨src.size, t', src'.interner⟩ ∧
        t'.kind = src.tree.kind ∧ t'.children = src.tree.children)
      (Source.build file' I₀' (forms.map (Form.rename f)) statements) := by
  simp only [Source.build, bind_eq_ok_iff, Prod.exists] at h
  obtain ⟨made, b, hadd, places, hplaces, hfinish⟩ := h
  have hempty : SameShape (TreeBuilder.empty file I₀).nodes (TreeBuilder.empty file' I₀').nodes :=
    ⟨rfl, fun _ => rfl, fun _ => rfl, fun _ => rfl⟩
  simp only [Source.build]
  refine (TreeBuilder.endsIn_addAll_rename f hempty hadd).bind ?_
  rintro ⟨made', b'⟩ ⟨rfl, hshape⟩
  dsimp only
  rw [hplaces, ok_bind]
  exact TreeBuilder.endsIn_finish_sameShape hshape hfinish

/-- **The two trees differ in their names only**, which are matched through their spellings.

**Proof sketch.** The text of a node is the name of the string that its form was given, in either
tree. The two strings match, and so do the names, by `Interner.translate_eq`. -/
theorem Source.renames_of_build (h : Source.build file I₀ forms statements = .ok src)
    {t' : SyntaxTree src.size} {I₁' : Interner}
    (h' : Source.build file' I₀' (forms.map (Form.rename f)) statements =
      .ok ⟨src.size, t', I₁'⟩)
    (hkind : t'.kind = src.tree.kind) (hchildren : t'.children = src.tree.children)
    {J J' : Interner} (hJ : J.Extends src.interner) (hJ' : J'.Extends I₁') :
    src.tree.Renames (J.translate J' f) t' where
  kind := hkind
  children := hchildren
  text i := by
    obtain ⟨text, htext, hspells⟩ := Source.spells_of_build h i
    obtain ⟨text', htext', hspells'⟩ := Source.spells_of_build h' i
    obtain rfl : text' = text.map f := by
      rw [givenTexts_rename, List.getElem?_map, htext] at htext'
      exact (Option.some.inj htext').symm
    have hspells := hspells.extends hJ
    have hspells' := hspells'.extends hJ'
    cases text with
    | none =>
      rw [Option.map_eq_none_iff.1 hspells, Option.map_eq_none_iff.1 hspells']
      rfl
    | some s =>
      obtain ⟨name, hname, hs⟩ := Option.map_eq_some_iff.1 hspells
      obtain ⟨name', hname', hs'⟩ := Option.map_eq_some_iff.1 hspells'
      rw [hname, hname', Option.map_some, Interner.translate_eq hs hs']

end Build

end Predeclare
