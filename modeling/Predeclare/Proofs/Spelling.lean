import Mathlib.Data.List.Basic
import Mathlib.Data.List.Nodup
import Predeclare.Tree.Basic

set_option relaxedAutoImplicit false
set_option autoImplicit false

/-!
# Names and their spellings

An interner only grows, and a name that it knows keeps its spelling. Names with the same spelling
are equal, so comparing names is comparing spellings.

## Main definitions

* `Interner.Extends` — one interner knows all that another one knows.
* `SyntaxTree.Spelled` — every text of a tree has a spelling.

## Main results

* `Interner.eq_of_spelling_eq` — names with the same spelling are equal.
* `Interner.internAll_spec`, `Interner.map_spelling_internAll` — the names of a list of spellings.
-/

namespace Predeclare

namespace Interner

/-- The interner knows the name. -/
def Knows (I : Interner) (name : Name) : Prop := ∃ s, I.spelling name = .ok s

/-- `J` knows all that `I` knows, by the same names. -/
def Extends (J I : Interner) : Prop := I.spellings <+: J.spellings

lemma Extends.refl (I : Interner) : I.Extends I := List.prefix_rfl

lemma Extends.trans {I J K : Interner} (hKJ : K.Extends J) (hJI : J.Extends I) : K.Extends I :=
  List.IsPrefix.trans hJI hKJ

/-- A known name keeps its spelling. -/
lemma Extends.spelling {I J : Interner} (h : J.Extends I) {name : Name} {s : String}
    (hs : I.spelling name = .ok s) : J.spelling name = .ok s := by
  rw [spelling_eq_ok_iff] at hs ⊢
  obtain ⟨more, hmore⟩ := h
  rw [← hmore, List.getElem?_append_left (List.getElem?_eq_some_iff.1 hs).1]
  exact hs

/-- A known name stays known. -/
lemma Extends.knows {I J : Interner} (h : J.Extends I) {name : Name} (hk : I.Knows name) :
    J.Knows name := by
  obtain ⟨s, hs⟩ := hk
  exact ⟨s, h.spelling hs⟩

/-- Interning a spelling extends the interner. -/
lemma extends_intern (I : Interner) (s : String) : (I.intern s).2.Extends I :=
  spellings_isPrefixOf_intern I s

/-- **Names with the same spelling are equal.** -/
theorem eq_of_spelling_eq {I : Interner} {a b : Name} {s : String} (ha : I.spelling a = .ok s)
    (hb : I.spelling b = .ok s) : a = b := by
  rw [spelling_eq_ok_iff, List.getElem?_eq_some_iff] at ha hb
  obtain ⟨ha, hsa⟩ := ha
  obtain ⟨hb, hsb⟩ := hb
  have : a.index = b.index := (List.Nodup.getElem_inj_iff I.nodup).1 (hsa.trans hsb.symm)
  cases a
  cases b
  exact congrArg Name.mk this

/-- The name that is found for a spelling is the one that has it. -/
lemma find?_eq_some_iff {I : Interner} {s : String} {name : Name} :
    I.find? s = some name ↔ I.spelling name = .ok s := by
  simp only [find?, Option.map_eq_some_iff, List.idxOf?_eq_some_iff, spelling_eq_ok_iff,
    List.getElem?_eq_some_iff]
  constructor
  · rintro ⟨k, ⟨hk, hs, _⟩, rfl⟩
    exact ⟨hk, hs⟩
  · rintro ⟨hk, hs⟩
    refine ⟨name.index, ⟨hk, hs, fun j hj hs' => ?_⟩, rfl⟩
    exact absurd ((List.Nodup.getElem_inj_iff I.nodup).1 (hs'.trans hs.symm)) (Nat.ne_of_lt hj)

/-- **Interning a list of spellings** extends the interner and gives the names of these
spellings.

**Proof sketch.** Induction on the spellings; a name keeps its spelling while others are added. -/
theorem internAll_spec (I : Interner) (ss : List String) :
    (I.internAll ss).2.Extends I ∧
      (∀ name ∈ (I.internAll ss).1, ∃ s ∈ ss, (I.internAll ss).2.spelling name = .ok s) ∧
      ∀ s ∈ ss, ∃ name ∈ (I.internAll ss).1, (I.internAll ss).2.spelling name = .ok s := by
  induction ss generalizing I with
  | nil => exact ⟨Extends.refl I, by simp [internAll], by simp⟩
  | cons s rest ih =>
    obtain ⟨hext, hspelled, hnamed⟩ := ih (I.intern s).2
    have hfirst := hext.spelling (spelling_intern I s)
    refine ⟨hext.trans (extends_intern I s), fun name hname => ?_, fun s' hs' => ?_⟩
    · rcases List.mem_cons.1 hname with rfl | hname
      · exact ⟨s, List.mem_cons_self, hfirst⟩
      · obtain ⟨s', hs', hspelling⟩ := hspelled name hname
        exact ⟨s', List.mem_cons_of_mem s hs', hspelling⟩
    · rcases List.mem_cons.1 hs' with rfl | hs'
      · exact ⟨_, List.mem_cons_self, hfirst⟩
      · obtain ⟨name, hname, hspelling⟩ := hnamed s' hs'
        exact ⟨name, List.mem_cons_of_mem _ hname, hspelling⟩

/-- The names of a list of spellings have these spellings, in order. -/
lemma map_spelling_internAll (I : Interner) (ss : List String) :
    (I.internAll ss).1.map (I.internAll ss).2.spelling = ss.map .ok := by
  induction ss generalizing I with
  | nil => rfl
  | cons s rest ih =>
    obtain ⟨hext, _, _⟩ := internAll_spec (I.intern s).2 rest
    exact congrArg₂ List.cons (hext.spelling (spelling_intern I s)) (ih (I.intern s).2)

end Interner

/-- The names of trees in which `x` is the only text. -/
def Interner.onlyX : Interner := ⟨["x"], List.nodup_singleton "x"⟩

/-! ## Spelled trees -/

/-- Every text of the tree is a name that the interner knows. -/
def SyntaxTree.Spelled {n : Nat} (t : SyntaxTree n) (I : Interner) : Prop :=
  ∀ i name, t.text i = some name → I.Knows name

/-- A tree is spelled if all its texts have numbers that were handed out. -/
lemma SyntaxTree.spelled_of_index_lt {n : Nat} {t : SyntaxTree n} {I : Interner}
    (h : ∀ i, ∀ name ∈ t.text i, name.index < I.size) : t.Spelled I := by
  intro i name hname
  have hlt := h i name hname
  exact ⟨I.spellings[name.index], Interner.spelling_eq_ok_iff.2 (List.getElem?_eq_getElem hlt)⟩

/-- A tree stays spelled when the interner learns more names. -/
lemma SyntaxTree.Spelled.extends {n : Nat} {t : SyntaxTree n} {I J : Interner}
    (h : t.Spelled I) (hJ : J.Extends I) : t.Spelled J :=
  fun i name hname => hJ.knows (h i name hname)

end Predeclare
