import Mathlib.Data.List.Forall2
import Predeclare.Proofs.Outcome
import Predeclare.Proofs.Spelling
import Predeclare.Proofs.Tree.Adoption

set_option relaxedAutoImplicit false
set_option autoImplicit false

/-!
# The texts of a built tree

A builder is given the text of each node as a string and stores it as a name. The names that are
interned later, for other nodes or for globals, do not change what this name stands for: a node of
the finished tree has the text that the builder was given for it.

## Main definitions

* `givenTexts` — the texts that a builder is given, in the order of the nodes.
* `Interner.Spells` — an optional name stands for an optional text.
* `TreeBuilder.HasTexts` — the nodes added so far have the texts given for them.

## Main results

* `Source.spells_of_build` — the nodes of a finished tree have the texts given for them.
* `Source.spelled_of_build` — every finished tree is spelled by its interner.
-/

namespace Predeclare

namespace Form

variable {ν μ ε : Type}

/-- The texts of the nodes of a form, from the inside to the outside. -/
def texts : Form ν → List (Option String)
  | node _ text _ => [text]
  | around _ text _ inner _ => inner.texts ++ [text]

/-- Replacing the references of a form keeps its texts. -/
lemma texts_of_mapRefs {f : ν → Except ε μ} {form : Form ν} {form' : Form μ}
    (h : form.mapRefs f = .ok form') : form'.texts = form.texts := by
  induction form generalizing form' with
  | node kind text children =>
    simp only [mapRefs, bind_eq_ok_iff, pure_eq_ok, Except.ok.injEq] at h
    obtain ⟨_, _, rfl⟩ := h
    rfl
  | around kind text before inner after ih =>
    simp only [mapRefs, bind_eq_ok_iff, pure_eq_ok, Except.ok.injEq] at h
    obtain ⟨_, _, inner', hinner, _, _, rfl⟩ := h
    simp only [texts]
    rw [ih hinner]

end Form

/-- The texts that a builder is given for the nodes of a tree: those of the forms, and none for the
source file above them. -/
def givenTexts (forms : List (Form Nat)) : List (Option String) :=
  forms.flatMap Form.texts ++ [none]

/-- The optional name stands for the optional text. -/
def Interner.Spells (I : Interner) (name? : Option Name) (text : Option String) : Prop :=
  name?.map I.spelling = text.map .ok

namespace Interner

variable {I J : Interner} {name? : Option Name} {text : Option String}

/-- A name stands for a text if the text is its spelling. -/
lemma Spells.spelling_iff (h : I.Spells name? text) {name : Name} (hname : name? = some name)
    {s : String} : I.spelling name = .ok s ↔ text = some s := by
  subst hname
  cases text with
  | none => cases h
  | some s' =>
    rw [Option.some.inj h]
    simp

/-- Names keep standing for their texts when the interner learns more. -/
lemma Spells.extends (hJ : J.Extends I) (h : I.Spells name? text) : J.Spells name? text := by
  cases text with
  | none =>
    obtain rfl : name? = none := Option.map_eq_none_iff.1 h
    rfl
  | some s =>
    obtain ⟨name, rfl, hs⟩ := Option.map_eq_some_iff.1 h
    exact congrArg some (hJ.spelling hs)

/-- An interned text stands for itself. -/
lemma spells_intern? (I : Interner) (text : Option String) :
    (I.intern? text).2.Spells (I.intern? text).1 text := by
  cases text with
  | none => rfl
  | some s => exact congrArg some (spelling_intern I s)

/-- Interning an optional spelling extends the interner. -/
lemma extends_intern? (I : Interner) (text : Option String) : (I.intern? text).2.Extends I := by
  cases text with
  | none => exact Extends.refl I
  | some s => exact extends_intern I s

end Interner

/-! ## Adding nodes -/

namespace TreeBuilder

variable {b b' : TreeBuilder} {given : List (Option String)}

/-- The nodes added so far have the texts given for them. -/
def HasTexts (b : TreeBuilder) (given : List (Option String)) : Prop :=
  List.Forall₂ b.interner.Spells (b.nodes.toList.map Node.text) given

/-- A new builder has no nodes. -/
lemma hasTexts_empty (file : FileId) (I : Interner) : (empty file I).HasTexts [] := .nil

/-- Adding a node adds its text.

**Proof sketch.** The text is interned last, which leaves the old names with their spellings. -/
lemma HasTexts.node (hb : b.HasTexts given) {kind : SyntaxKind} {text : Option String}
    {children : List Nat} {i : Nat} (h : b.node kind text children = .ok (i, b')) :
    b'.HasTexts (given ++ [text]) := by
  unfold TreeBuilder.node at h
  split at h
  · split at h
    · cases h
    · split at h
      · injection h with h
        injection h with _ hb'
        subst hb'
        simp only [HasTexts]
        rw [← Array.toList_map, map_attach fun _ _ => rfl, Array.toList_push, Array.toList_map]
        have hold := hb.imp fun _ _ =>
          Interner.Spells.extends (Interner.extends_intern? b.interner text)
        have hnew := Interner.spells_intern? b.interner text
        exact List.rel_append hold (.cons hnew .nil)
      · cases h
  · cases h

/-- Adding a form adds its texts. -/
lemma HasTexts.add (hb : b.HasTexts given) {form : Form Nat} {i : Nat}
    (h : b.add form = .ok (i, b')) : b'.HasTexts (given ++ form.texts) := by
  induction form generalizing i b' with
  | node kind text children => exact hb.node h
  | around kind text before inner after ih =>
    simp only [TreeBuilder.add] at h
    split at h
    · cases h
    · rename_i child b₁ hinner
      simp only [Form.texts]
      rw [← List.append_assoc]
      exact (ih hinner).node h

/-- Adding a list of forms adds the texts of all of them.

**Proof sketch.** Induction on the forms. -/
lemma HasTexts.addAll (hb : b.HasTexts given) {made made' : List Nat} {forms : List (Form Nat)}
    (h : b.addAll made forms = .ok (made', b')) :
    b'.HasTexts (given ++ forms.flatMap Form.texts) := by
  induction forms generalizing b made given with
  | nil =>
    injection h with h
    injection h with _ hb'
    simpa [← hb'] using hb
  | cons form rest ih =>
    simp only [TreeBuilder.addAll] at h
    split at h
    · cases h
    · rename_i form' hrefs
      split at h
      · cases h
      · rename_i i b₁ hadd
        rw [List.flatMap_cons, ← List.append_assoc, ← Form.texts_of_mapRefs hrefs]
        exact ih (hb.add hadd) h

/-- A finished tree has the texts of its nodes, and none for the source file.

**Proof sketch.** The source file is one more node, and the tree takes all nodes over. -/
lemma HasTexts.finish (hb : b.HasTexts given) {statements : List Nat} {src : Source}
    (h : b.finish statements = .ok src) (i : Fin src.size) :
    ∃ text, (given ++ [none])[i.val]? = some text ∧
      src.interner.Spells (src.tree.text i) text := by
  unfold TreeBuilder.finish at h
  split at h
  · cases h
  · rename_i root b' hroot
    injection h with h
    subst h
    have htexts : b'.HasTexts (given ++ [none]) := hb.node hroot
    have hlength : b'.nodes.size = (given ++ [none]).length := by
      simpa using htexts.length_eq
    have hi : i.val < (given ++ [none]).length := hlength ▸ i.isLt
    refine ⟨(given ++ [none])[i.val], List.getElem?_eq_getElem hi, ?_⟩
    have hspells := (List.forall₂_iff_get.1 htexts).2 i.val (by simp) hi
    simpa [SyntaxTree.text, toTree, Node.restrict] using hspells

end TreeBuilder

/-! ## Finished trees -/

section Build

variable {file : FileId} {I : Interner} {forms : List (Form Nat)} {statements : List Nat}
  {src : Source}

/-- **The nodes of a finished tree have the texts that the builder was given for them.** -/
theorem Source.spells_of_build (h : Source.build file I forms statements = .ok src)
    (i : Fin src.size) :
    ∃ text, (givenTexts forms)[i.val]? = some text ∧
      src.interner.Spells (src.tree.text i) text := by
  simp only [Source.build, bind_eq_ok_iff, Prod.exists] at h
  obtain ⟨made, b, hadd, places, _, hfinish⟩ := h
  exact ((TreeBuilder.hasTexts_empty file I).addAll hadd).finish hfinish i

/-- The spelling of a text, in any interner that has learned more, is the string that the builder
was given for it. -/
lemma Source.given_of_text (h : Source.build file I forms statements = .ok src) {J : Interner}
    (hJ : J.Extends src.interner) {i : Fin src.size} {name : Name}
    (hname : src.tree.text i = some name) {s : String} (hs : J.spelling name = .ok s) :
    (givenTexts forms)[i.val]? = some (some s) := by
  obtain ⟨text, htext, hspells⟩ := Source.spells_of_build h i
  rw [htext, ((hspells.extends hJ).spelling_iff hname).1 hs]

/-- **Every finished tree is spelled by its interner.** -/
theorem Source.spelled_of_build (h : Source.build file I forms statements = .ok src) :
    src.tree.Spelled src.interner := by
  intro i name hname
  obtain ⟨text, _, hspells⟩ := Source.spells_of_build h i
  rw [hname] at hspells
  cases text with
  | none => cases hspells
  | some s => exact ⟨s, (hspells.spelling_iff rfl).2 rfl⟩

end Build

end Predeclare
