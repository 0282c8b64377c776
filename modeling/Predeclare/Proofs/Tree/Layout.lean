import Mathlib.Algebra.GroupWithZero.Nat
import Mathlib.Logic.Relation
import Mathlib.Order.Bounds.Basic
import Mathlib.Order.Fin.Basic
import Predeclare.Proofs.Tree.Adoption

set_option relaxedAutoImplicit false
set_option autoImplicit false

/-!
# The layout of a tree

A builder places the nodes without children one behind the other, each with a gap of one before the
next, and gives every other node the least range that covers its children. A node without children
thus starts behind everything that was stored before it, and a range covers all that lies below its
node, in whatever order the children were stored or are listed. The offsets that a builder needs
are known beforehand: each node without children takes the length of its text and one more.

## Main definitions

* `NestedSpans` — ranges are the least that cover the nodes without children below, which are apart.
* `Form.room` — the offsets that a form takes.
* `LaidOut`, `Fits` — how the ranges of stored nodes lie to each other and to an offset, and a range
  for one more node.
* `TreeBuilder.Filled` — a builder whose nodes are laid out and take the given room.

## Main results

* `Span.coverAll_le_iff` — the range covering a list is the least one.
* `LaidOut.attach` — one more node is stored where it fits.
* `TreeBuilder.endsIn_place` — a builder finds such a range, unless offsets run out.
* `TreeBuilder.Filled.addAll` — forms take their room together.
* `TreeBuilder.nestedSpans_stored` — the ranges of nodes that are laid out nest.
* `builder_nests_spans` — the layout after any calls, and that of the finished tree.
-/

namespace Predeclare

/-! ## Ranges -/

namespace Span

/-- Ranges are ordered by inclusion: the larger one starts no later and stops no earlier. -/
instance : SemilatticeSup Span where
  le a b := b.start ≤ a.start ∧ a.stop ≤ b.stop
  le_refl _ := ⟨Nat.le_refl _, Nat.le_refl _⟩
  le_trans _ _ _ hab hbc := ⟨Nat.le_trans hbc.1 hab.1, Nat.le_trans hab.2 hbc.2⟩
  le_antisymm a b hab hba := by
    cases a
    cases b
    exact congrArg₂ mk (Nat.le_antisymm hba.1 hab.1) (Nat.le_antisymm hab.2 hba.2)
  sup := cover
  le_sup_left _ _ := ⟨Nat.min_le_left _ _, Nat.le_max_left _ _⟩
  le_sup_right _ _ := ⟨Nat.min_le_right _ _, Nat.le_max_right _ _⟩
  sup_le _ _ _ hac hbc := ⟨Nat.le_min.2 ⟨hac.1, hbc.1⟩, Nat.max_le.2 ⟨hac.2, hbc.2⟩⟩

/-- Whatever covers two ranges covers the range that covers both. -/
lemma cover_le_iff {a b c : Span} : cover a b ≤ c ↔ a ≤ c ∧ b ≤ c := sup_le_iff

/-- **The range covering a list is the least one** that covers each of its ranges.

**Proof sketch.** By induction on the list behind the first range, for any first range: folding
covers two ranges at a time, for which `cover_le_iff` is the same statement. -/
theorem coverAll_le_iff {l : List Span} {s c : Span} (h : coverAll l = some s) :
    s ≤ c ↔ ∀ a ∈ l, a ≤ c := by
  cases l with
  | nil => cases h
  | cons a rest =>
    obtain rfl := Option.some.inj h
    induction rest generalizing a with
    | nil => simp
    | cons b rest ih =>
      rw [List.foldl_cons, ih (cover a b) rfl]
      simp only [List.forall_mem_cons, cover_le_iff, and_assoc]

end Span

/-! ## Nodes that lie below each other -/

section Nested

variable {n : Nat}

/-- The node is `p` or lies below `p`. -/
def Below (nodes : Fin n → Node (Fin n)) (p i : Fin n) : Prop :=
  Relation.ReflTransGen (fun q c => c ∈ (nodes q).children) p i

/-- **Ranges nest, and those of nodes without children are apart.** A node without children starts
behind everything that was stored before it. The range of a node is the least one that covers the
nodes without children at or below it, and so it covers everything below. -/
structure NestedSpans (nodes : Fin n → Node (Fin n)) : Prop where
  start_le_stop : ∀ i, (nodes i).span.start ≤ (nodes i).span.stop
  stop_lt_start : ∀ i j, i < j → (nodes j).children = [] →
    (nodes i).span.stop < (nodes j).span.start
  span_injective : ∀ i j, (nodes i).children = [] → (nodes j).children = [] →
    (nodes i).span = (nodes j).span → i = j
  isLUB_leaves : ∀ p, IsLUB {s | ∃ i, Below nodes p i ∧ (nodes i).children = [] ∧
    (nodes i).span = s} (nodes p).span
  span_le : ∀ p i, Below nodes p i → (nodes i).span ≤ (nodes p).span

variable {nodes : Fin n → Node (Fin n)}

/-- What lies at or below a node is the node or lies at or below one of its children. -/
lemma below_iff {p i : Fin n} :
    Below nodes p i ↔ i = p ∨ ∃ c ∈ (nodes p).children, Below nodes c i := by
  rw [Below, Relation.ReflTransGen.cases_head_iff, eq_comm]
  exact Iff.rfl

/-- If every node is just covered by its children, it is just covered by the nodes without children
below it.

**Proof sketch.** Induction from the children to the parent. Covering a node is covering its
children, and these are covered if the nodes without children below them are. -/
lemma span_le_iff_leaves (hlt : ∀ p, ∀ c ∈ (nodes p).children, c < p)
    (hcovers : ∀ p, (nodes p).children ≠ [] → ∀ s,
      (nodes p).span ≤ s ↔ ∀ c ∈ (nodes p).children, (nodes c).span ≤ s) (p : Fin n) (s : Span) :
    (nodes p).span ≤ s ↔
      ∀ i, Below nodes p i → (nodes i).children = [] → (nodes i).span ≤ s := by
  induction hk : p.val using Nat.strong_induction_on generalizing p with
  | _ k ih =>
    subst hk
    by_cases hleaf : (nodes p).children = []
    · constructor
      · intro h i hi _
        rw [below_iff, hleaf] at hi
        obtain rfl : i = p := by simpa using hi
        exact h
      · exact fun h => h p .refl hleaf
    · have hchildren : ∀ c ∈ (nodes p).children, (nodes c).span ≤ s ↔
          ∀ i, Below nodes c i → (nodes i).children = [] → (nodes i).span ≤ s :=
        fun c hc => ih c.val (hlt p c hc) c rfl
      rw [hcovers p hleaf s, forall₂_congr hchildren]
      constructor
      · intro h i hi hempty
        rcases below_iff.1 hi with rfl | ⟨c, hc, hbelow⟩
        · exact absurd hempty hleaf
        · exact h c hc i hbelow hempty
      · exact fun h c hc i hi => h i (below_iff.2 (Or.inr ⟨c, hc, hi⟩))

/-- The ranges nest if every node with children is just covered by them and every node without
children starts behind all that was stored before it.

**Proof sketch.** By `span_le_iff_leaves` a range is below another one exactly if those of its
leaves are, so it is their least upper bound. Two leaves have different ranges, since the one stored
later starts behind the other. -/
lemma NestedSpans.of_covers (hlt : ∀ p, ∀ c ∈ (nodes p).children, c < p)
    (hproper : ∀ i, (nodes i).span.start ≤ (nodes i).span.stop)
    (hstart : ∀ i j, i < j → (nodes j).children = [] → (nodes i).span.stop < (nodes j).span.start)
    (hcovers : ∀ p, (nodes p).children ≠ [] → ∀ s,
      (nodes p).span ≤ s ↔ ∀ c ∈ (nodes p).children, (nodes c).span ≤ s) : NestedSpans nodes where
  start_le_stop := hproper
  stop_lt_start := hstart
  span_injective i j hi hj heq := by
    have hapart : ∀ k l, k < l → (nodes l).children = [] → (nodes k).span ≠ (nodes l).span :=
      fun k l hkl hl hspan =>
        Nat.lt_irrefl _ (Nat.lt_of_le_of_lt (hspan ▸ hproper k) (hstart k l hkl hl))
    rcases lt_trichotomy i j with hij | hij | hij
    · exact absurd heq (hapart i j hij hj)
    · exact hij
    · exact absurd heq.symm (hapart j i hij hi)
  isLUB_leaves p := by
    rw [isLUB_iff_le_iff]
    intro s
    rw [span_le_iff_leaves hlt hcovers]
    constructor
    · rintro h _ ⟨i, hi, hempty, rfl⟩
      exact h i hi hempty
    · exact fun h i hi hempty => h ⟨i, hi, hempty, rfl⟩
  span_le p i hi := by
    refine (span_le_iff_leaves hlt hcovers i _).2 fun j hj hempty => ?_
    exact (span_le_iff_leaves hlt hcovers p _).1 le_rfl j (hi.trans hj) hempty

end Nested

/-! ## Room -/

/-- The number of bytes of a text, none for a text that is missing. -/
def textSize (text : Option String) : Nat := (text.map String.utf8ByteSize).getD 0

namespace Form

variable {ν μ ε : Type}

/-- The offsets that a form takes: those of its text and one more if it is a node without children.
A node around a form takes none of its own. -/
def room : Form ν → Nat
  | node _ text [] => textSize text + 1
  | node _ _ (_ :: _) => 0
  | around _ _ _ inner _ => inner.room

/-- Every form refers to the outermost nodes of forms in front of it. -/
def RefersBackwards (forms : List (Form Nat)) : Prop :=
  ∀ k, (h : k < forms.length) → ∀ place ∈ forms[k].refs, place < k

instance (forms : List (Form Nat)) : Decidable (RefersBackwards forms) :=
  inferInstanceAs (Decidable (∀ k, (h : k < forms.length) → ∀ place ∈ forms[k].refs, place < k))

/-- A node with children takes no room. -/
lemma room_node_of_ne_nil {kind : SyntaxKind} {text : Option String} {children : List ν}
    (h : children ≠ []) : (node kind text children).room = 0 := by
  cases children with
  | nil => exact absurd rfl h
  | cons c rest => rfl

/-- Replacing the references of a form keeps its room.

**Proof sketch.** Induction from the inside to the outside. Only the innermost node can need room,
and only if it is given no children. -/
lemma room_of_mapRefs {f : ν → Except ε μ} {form : Form ν} {form' : Form μ}
    (h : form.mapRefs f = .ok form') : form'.room = form.room := by
  induction form generalizing form' with
  | node kind text children =>
    simp only [mapRefs, bind_eq_ok_iff, pure_eq_ok, Except.ok.injEq] at h
    obtain ⟨children', hchildren, rfl⟩ := h
    cases children with
    | nil =>
      obtain rfl := Except.ok.inj hchildren
      rfl
    | cons c rest =>
      obtain ⟨c', hc', -⟩ := exists_mem_of_mapM_eq_ok hchildren c List.mem_cons_self
      exact room_node_of_ne_nil (List.ne_nil_of_mem hc')
  | around kind text before inner after ih =>
    simp only [mapRefs, bind_eq_ok_iff, pure_eq_ok, Except.ok.injEq] at h
    obtain ⟨_, _, inner', hinner, _, _, rfl⟩ := h
    show inner'.room = inner.room
    exact ih hinner

/-- The references of a form can be replaced if each of them can.

**Proof sketch.** By induction on the form: the references of a node are those of one list, and
those of a form around another are those of the lists before and behind it and of the inner form. -/
lemma exists_mapRefs_eq_ok {f : ν → Except ε μ} {form : Form ν}
    (h : ∀ r ∈ form.refs, ∃ m, f r = .ok m) : ∃ form', form.mapRefs f = .ok form' := by
  induction form with
  | node kind text children =>
    obtain ⟨children', hchildren : children.mapM f = .ok children'⟩ := exists_mapM_eq_ok h
    exact ⟨node kind text children', by simp only [mapRefs, hchildren, ok_bind, pure_eq_ok]⟩
  | around kind text before inner after ih =>
    simp only [refs, List.mem_append, or_imp, forall_and] at h
    obtain ⟨before', hbefore⟩ := exists_mapM_eq_ok h.1.1
    obtain ⟨inner', hinner⟩ := ih h.1.2
    obtain ⟨after', hafter⟩ := exists_mapM_eq_ok h.2
    exact ⟨around kind text before' inner' after', by
      simp only [mapRefs, hbefore, hinner, hafter, ok_bind, pure_eq_ok]⟩

end Form

/-! ## Stored ranges -/

/-- The range of a stored node, none for a number out of range. -/
def storedSpan? (nodes : Array (Node Nat)) (i : Nat) : Option Span := nodes[i]?.map Node.span

/-- A node that is stored last brings its range, and the others keep theirs. -/
lemma storedSpan?_attach (nodes : Array (Node Nat)) (nd : Node Nat) (i : Nat) :
    storedSpan? (attach nodes nd) i =
      if i = nodes.size then some nd.span else storedSpan? nodes i :=
  map_getElem?_attach (fun _ _ => rfl) nodes nd i

/-- Stored nodes have ranges. -/
lemma storedSpan?_eq_some {nodes : Array (Node Nat)} {i : Nat} (h : i < nodes.size) :
    storedSpan? nodes i = some nodes[i].span := by
  rw [storedSpan?, Array.getElem?_eq_getElem h, Option.map_some]

/-- Only stored nodes have ranges. -/
lemma lt_size_of_storedSpan? {nodes : Array (Node Nat)} {i : Nat} {s : Span}
    (h : storedSpan? nodes i = some s) : i < nodes.size := by
  obtain ⟨nd, hnd, -⟩ := Option.map_eq_some_iff.1 h
  exact (Array.getElem?_eq_some_iff.1 hnd).1

namespace TreeBuilder

variable {b b' : TreeBuilder} {kind : SyntaxKind} {text : Option String} {children : List Nat}

/-- A node without children is placed behind everything else, if there is room. -/
lemma place_nil : b.place text [] =
    if b.offset + textSize text + 1 < offsetLimit then
      .ok (⟨b.offset, b.offset + textSize text⟩, b.offset + textSize text + 1)
    else .error .offsetOverflow := rfl

/-- A node with children is placed at the least range that covers them, and needs no room.

**Proof sketch.** A known child has a range, so that there is something to cover. -/
lemma exists_place_of_ne_nil (text : Option String) (known : ∀ c ∈ children, c < b.nodes.size)
    (h : children ≠ []) :
    ∃ span, b.place text children = .ok (span, b.offset) ∧
      ∀ s, span ≤ s ↔ ∀ c ∈ children, ∀ a, storedSpan? b.nodes c = some a → a ≤ s := by
  cases hcover : Span.coverAll (children.filterMap (storedSpan? b.nodes)) with
  | none =>
    obtain ⟨c, rest, rfl⟩ := List.exists_cons_of_ne_nil h
    have hc := storedSpan?_eq_some (known c List.mem_cons_self)
    rw [List.filterMap_cons_some hc] at hcover
    cases hcover
  | some span =>
    refine ⟨span, ?_, fun s => ?_⟩
    · have hspans : Span.coverAll (children.filterMap fun c => b.nodes[c]?.map Node.span) =
          some span := hcover
      rw [place, hspans]
    · rw [Span.coverAll_le_iff hcover]
      simp only [List.mem_filterMap]
      exact ⟨fun hall c hc a ha => hall a ⟨c, hc, ha⟩, fun hall a ⟨c, hc, ha⟩ => hall c hc a ha⟩

/-- A node runs out of offsets only when it is placed. -/
lemma place_eq_error (known : ∀ c ∈ children, c < b.nodes.size)
    (h : b.node kind text children = .error .offsetOverflow) :
    b.place text children = .error .offsetOverflow := by
  unfold node at h
  rw [dif_pos known] at h
  split at h
  · rename_i fault hplace
    rw [hplace, Except.error.inj h]
  · split at h <;> cases h

end TreeBuilder

/-! ## Stored nodes that are laid out -/

/-- The ranges of the nodes stored so far stop before an offset. A node without children starts
behind all nodes stored before it, and every other node is just covered by its children. -/
structure LaidOut (nodes : Array (Node Nat)) (offset : Nat) : Prop where
  start_le_stop : ∀ i s, storedSpan? nodes i = some s → s.start ≤ s.stop
  stop_lt_offset : ∀ i s, storedSpan? nodes i = some s → s.stop < offset
  stop_lt_start : ∀ i j s s', i < j → storedChildren nodes j = [] →
    storedSpan? nodes i = some s → storedSpan? nodes j = some s' → s.stop < s'.start
  covers : ∀ p a, storedSpan? nodes p = some a → storedChildren nodes p ≠ [] → ∀ s,
    a ≤ s ↔ ∀ c ∈ storedChildren nodes p, ∀ a', storedSpan? nodes c = some a' → a' ≤ s

/-- A range for one more node over some of the nodes stored so far, and the offset behind it. The
range starts behind the old offset if there are no such nodes, and just covers them otherwise. -/
structure Fits (nodes : Array (Node Nat)) (offset : Nat) (children : List Nat) (span : Span)
    (offset' : Nat) : Prop where
  offset_le : offset ≤ offset'
  start_le_stop : span.start ≤ span.stop
  stop_lt_offset : span.stop < offset'
  behind : children = [] → offset ≤ span.start
  covers : children ≠ [] → ∀ s,
    span ≤ s ↔ ∀ c ∈ children, ∀ a, storedSpan? nodes c = some a → a ≤ s

namespace LaidOut

variable {nodes : Array (Node Nat)} {offset offset' : Nat} {nd : Node Nat} {children : List Nat}

/-- Nothing is stored yet. -/
lemma empty : LaidOut #[] 0 := ⟨nofun, nofun, nofun, nofun⟩

/-- The range that just covers some of the nodes fits without any room.

**Proof sketch.** All ranges end in front of the offset, so the least one that covers some of them
does too. -/
lemma fits_of_covers (h : LaidOut nodes offset) (known : ∀ c ∈ children, c < nodes.size)
    (hne : children ≠ []) {span : Span}
    (hcovers : ∀ s, span ≤ s ↔ ∀ c ∈ children, ∀ a, storedSpan? nodes c = some a → a ≤ s) :
    Fits nodes offset children span offset := by
  obtain ⟨c, hc⟩ := List.exists_mem_of_ne_nil children hne
  obtain ⟨a, ha⟩ : ∃ a, storedSpan? nodes c = some a := ⟨_, storedSpan?_eq_some (known c hc)⟩
  have hle : a ≤ span := (hcovers span).1 le_rfl c hc a ha
  have hproper := h.start_le_stop c a ha
  have hbound : span ≤ ⟨0, offset - 1⟩ := (hcovers _).2 fun d _ s hs =>
    ⟨Nat.zero_le _, Nat.le_pred_of_lt (h.stop_lt_offset d s hs)⟩
  have hpos := Nat.zero_lt_of_lt (h.stop_lt_offset c a ha)
  exact {
    offset_le := Nat.le_refl _
    start_le_stop := Nat.le_trans hle.1 (Nat.le_trans hproper hle.2)
    stop_lt_offset := Nat.lt_of_le_pred hpos hbound.2
    behind := fun hnil => absurd hnil hne
    covers := fun _ => hcovers }

/-- **One more node** is stored where it fits.

**Proof sketch.** Each statement about two nodes is one about old nodes, or the later one of the two
is the new node, which fits. -/
theorem attach (h : LaidOut nodes offset) (linked : Linked nodes)
    (known : ∀ c ∈ nd.children, c < nodes.size)
    (hfits : Fits nodes offset nd.children nd.span offset') :
    LaidOut (Predeclare.attach nodes nd) offset' := by
  -- The ranges of the old nodes stay, and so do their children, which are old nodes too.
  have hold : ∀ c < nodes.size, storedSpan? (Predeclare.attach nodes nd) c = storedSpan? nodes c :=
    fun c hc => by rw [storedSpan?_attach, if_neg (Nat.ne_of_lt hc)]
  have hspan : ∀ i s, storedSpan? (Predeclare.attach nodes nd) i = some s →
      (i = nodes.size ∧ s = nd.span) ∨ (i < nodes.size ∧ storedSpan? nodes i = some s) := by
    intro i s hs
    rw [storedSpan?_attach] at hs
    split at hs
    · exact Or.inl ⟨‹_›, (Option.some.inj hs).symm⟩
    · exact Or.inr ⟨lt_size_of_storedSpan? hs, hs⟩
  refine ⟨fun i s hs => ?_, fun i s hs => ?_, fun i j s s' hij hempty hs hs' => ?_,
    fun p a ha hne s => ?_⟩
  · rcases hspan i s hs with ⟨-, rfl⟩ | ⟨-, hs⟩
    · exact hfits.start_le_stop
    · exact h.start_le_stop i s hs
  · rcases hspan i s hs with ⟨-, rfl⟩ | ⟨-, hs⟩
    · exact hfits.stop_lt_offset
    · exact Nat.lt_of_lt_of_le (h.stop_lt_offset i s hs) hfits.offset_le
  · rw [storedChildren_attach] at hempty
    rcases hspan j s' hs' with ⟨rfl, rfl⟩ | ⟨hj, hs'⟩
    · rw [hold i hij] at hs
      rw [if_pos rfl] at hempty
      exact Nat.lt_of_lt_of_le (h.stop_lt_offset i s hs) (hfits.behind hempty)
    · rw [hold i (Nat.lt_trans hij hj)] at hs
      rw [if_neg (Nat.ne_of_lt hj)] at hempty
      exact h.stop_lt_start i j s s' hij hempty hs hs'
  · rw [storedChildren_attach] at hne ⊢
    rcases hspan p a ha with ⟨rfl, rfl⟩ | ⟨hp, ha⟩
    · rw [if_pos rfl] at hne ⊢
      rw [hfits.covers hne s]
      exact forall₂_congr fun c hc => by rw [hold c (known c hc)]
    · rw [if_neg (Nat.ne_of_lt hp)] at hne ⊢
      rw [h.covers p a ha hne s]
      exact forall₂_congr fun c hc => by rw [hold c (Nat.lt_trans (linked.lt p c hc) hp)]

end LaidOut

namespace TreeBuilder

variable {b b' : TreeBuilder} {kind : SyntaxKind} {text : Option String} {children : List Nat}
  {room : Nat}

/-! ## Builders that are filled -/

/-- A builder whose nodes are laid out and take the given room. -/
structure Filled (b : TreeBuilder) (room : Nat) : Prop where
  laidOut : LaidOut b.nodes b.offset
  offset_eq : b.offset = room

/-- A builder stops because a node is given to two parents, or because there are fewer offsets than
it takes. -/
def StopsAt (room : Nat) (fault : Fault) : Prop :=
  fault = .attachedTwice ∨ fault = .offsetOverflow ∧ offsetLimit ≤ room

/-- A builder that would take more room stops as well. -/
lemma StopsAt.mono {room' : Nat} {fault : Fault} (h : StopsAt room fault) (hle : room ≤ room') :
    StopsAt room' fault :=
  h.imp_right (And.imp_right fun hfull => Nat.le_trans hfull hle)

/-- A builder goes on if no node is given to two parents and there are enough offsets. -/
lemma exists_eq_ok_of_stopsAt {α : Type} {P : α → Prop} {x : Except Fault α}
    (h : EndsIn (StopsAt room) P x) (hroom : room < offsetLimit)
    (hfree : x ≠ .error .attachedTwice) : ∃ a, x = .ok a ∧ P a := by
  cases x with
  | error fault =>
    rcases h.of_error rfl with rfl | ⟨-, hfull⟩
    · exact absurd rfl hfree
    · exact absurd hroom (Nat.not_lt.2 hfull)
  | ok a => exact ⟨a, rfl, h⟩

/-- A new builder takes no room. -/
lemma filled_empty (file : FileId) (I : Interner) : (empty file I).Filled 0 := ⟨.empty, rfl⟩

/-- **A node is placed where it fits**, unless there is no room for it.

**Proof sketch.** A node without children is placed at the offset, if its text fits there; one with
children by `exists_place_of_ne_nil`. -/
theorem endsIn_place (h : LaidOut b.nodes b.offset) (kind : SyntaxKind) (text : Option String)
    (known : ∀ c ∈ children, c < b.nodes.size) :
    EndsIn (fun _ => offsetLimit ≤ b.offset + (Form.node kind text children).room)
      (fun r => r.2 = b.offset + (Form.node kind text children).room ∧
        Fits b.nodes b.offset children r.1 r.2) (b.place text children) := by
  by_cases hne : children = []
  · subst hne
    rw [place_nil]
    split
    · refine ⟨rfl, ?_, ?_, ?_, fun _ => ?_, fun hne => absurd rfl hne⟩
      · show b.offset ≤ b.offset + textSize text + 1
        omega
      · exact Nat.le_add_right _ _
      · exact Nat.lt_succ_self _
      · exact Nat.le_refl _
    · rename_i hfull
      exact Nat.le_of_not_lt hfull
  · obtain ⟨span, hplace, hcovers⟩ := exists_place_of_ne_nil text known hne
    rw [hplace, Form.room_node_of_ne_nil hne]
    exact ⟨rfl, h.fits_of_covers known hne hcovers⟩

/-- **One more node** takes the room of its form.

**Proof sketch.** The node is placed by `endsIn_place` and then stored where it fits. -/
theorem Filled.node (h : b.Filled room) (kind : SyntaxKind) (text : Option String)
    (known : ∀ c ∈ children, c < b.nodes.size) :
    EndsIn (StopsAt (room + (Form.node kind text children).room))
      (fun r => r.2.Filled (room + (Form.node kind text children).room))
      (b.node kind text children) := by
  obtain ⟨hlaid, rfl⟩ := h
  have hends := endsIn_place hlaid kind text known
  cases hnode : b.node kind text children with
  | error fault =>
    rcases (endsIn_node known).of_error hnode with rfl | ⟨rfl, -⟩
    · exact Or.inr ⟨rfl, hends.of_error (place_eq_error known hnode)⟩
    · exact Or.inl rfl
  | ok r =>
    obtain ⟨i, b'⟩ := r
    obtain ⟨_, name, span, hplace, hnodes⟩ := nodes_of_node hnode
    obtain ⟨hoffset, hfits⟩ := hends.of_ok hplace
    refine ⟨?_, hoffset⟩
    rw [hnodes]
    exact hlaid.attach b.linked known hfits

/-- **One more form** takes its room.

**Proof sketch.** Induction from the inside to the outside. A node around a form has a child, so it
needs no room. -/
theorem Filled.add (h : b.Filled room) {form : Form Nat}
    (known : ∀ c ∈ form.refs, c < b.nodes.size) :
    EndsIn (StopsAt (room + form.room)) (fun r => r.2.Filled (room + form.room))
      (b.add form) := by
  induction form with
  | node kind text children => exact h.node kind text known
  | around kind text before inner after ih =>
    obtain ⟨hinner, houter⟩ := Form.forall_mem_refs_around.1 known
    have hroom : (Form.around kind text before inner after).room = inner.room := rfl
    rw [hroom]
    simp only [TreeBuilder.add]
    cases hadd : b.add inner with
    | error fault => exact (ih hinner).of_error hadd
    | ok result =>
      obtain ⟨i, b₁⟩ := result
      obtain ⟨-, hgrown⟩ := (endsIn_add hinner).of_ok hadd
      have hnode := ((ih hinner).of_ok hadd).node kind text (hgrown.known houter)
      rwa [Form.room_node_of_ne_nil (by simp), Nat.add_zero] at hnode

/-- **More forms** take their room together.

**Proof sketch.** Induction on the forms. The places that a form names are there, because each form
before it has returned a node. -/
theorem Filled.addAll {made named : List Nat} {forms : List (Form Nat)} (h : b.Filled room)
    (htracks : b.Tracks made named)
    (hplaces : ∀ k, (hk : k < forms.length) → ∀ place ∈ forms[k].refs, place < made.length + k) :
    EndsIn (StopsAt (room + (forms.map Form.room).sum))
      (fun r => r.2.Filled (room + (forms.map Form.room).sum)) (b.addAll made forms) := by
  induction forms generalizing b made named room with
  | nil => exact h
  | cons form rest ih =>
    obtain ⟨call, hrefs⟩ : ∃ call, form.mapRefs (nodeAt made) = .ok call := by
      refine Form.exists_mapRefs_eq_ok fun place hplace => ?_
      have hlt : place < made.length := hplaces 0 (Nat.zero_lt_succ _) place hplace
      exact ⟨made[place], nodeAt_eq_ok_iff.2 (List.getElem?_eq_getElem hlt)⟩
    have hfilled := h.add (htracks.lt_size_of_mem_refs hrefs)
    rw [Form.room_of_mapRefs hrefs] at hfilled
    rw [List.map_cons, List.sum_cons, ← Nat.add_assoc]
    simp only [TreeBuilder.addAll, hrefs]
    cases hadd : b.add call with
    | error fault => exact (hfilled.of_error hadd).mono (Nat.le_add_right _ _)
    | ok result =>
      obtain ⟨i, b₁⟩ := result
      refine ih (hfilled.of_ok hadd) (htracks.add hrefs hadd) fun k hk place hplace => ?_
      have hlt := hplaces (k + 1) (Nat.succ_lt_succ hk) place hplace
      rw [List.length_append, List.length_singleton]
      omega

/-! ## Trees -/

/-- The nodes stored so far, linked among each other. -/
def stored (b : TreeBuilder) : Vector (Node (Fin b.nodes.size)) b.nodes.size :=
  b.nodes.toVector.map (Node.restrict b.nodes.size)

/-- The nodes are linked one by one. -/
lemma get_stored (i : Fin b.nodes.size) :
    b.stored.get i = (b.nodes.toVector.get i).restrict b.nodes.size := by
  simp only [stored, Vector.get, Vector.toArray_map, Array.getElem_map]
  rfl

/-- A stored node has its range. -/
lemma storedSpan?_stored (i : Fin b.nodes.size) :
    storedSpan? b.nodes i = some (b.stored.get i).span := by
  simp only [storedSpan?, get_stored, Node.restrict, Array.getElem?_eq_getElem i.isLt,
    Option.map_some]
  rfl

/-- A stored node has its children. -/
lemma map_val_children_stored (p : Fin b.nodes.size) :
    (b.stored.get p).children.map Fin.val = storedChildren b.nodes p := by
  rw [get_stored]
  exact map_val_children_restrict p

/-- A tree of all nodes has them linked among each other. -/
lemma nodes_toTree {root : Nat} (last : b.nodes.size = root + 1)
    (kind : b.nodes[root]?.map Node.kind = some .sourceFile) :
    (b.toTree root last kind).nodes = b.stored := by
  refine Vector.ext fun i hi => ?_
  simp [toTree, stored]

/-- **The ranges of nodes that are laid out nest.**

**Proof sketch.** `storedSpan?_stored` and `map_val_children_stored` say that the stored nodes have
the ranges and the children that the builder has noted, so each condition of `NestedSpans.of_covers`
is one of `LaidOut`. -/
theorem nestedSpans_stored (h : LaidOut b.nodes b.offset) : NestedSpans b.stored.get := by
  have hspan := @storedSpan?_stored b
  have hchildren := @map_val_children_stored b
  have hempty : ∀ p, (b.stored.get p).children = [] ↔ storedChildren b.nodes p = [] := fun p => by
    rw [← hchildren p, List.map_eq_nil_iff]
  refine .of_covers (fun p c hc => ?_) (fun i => h.start_le_stop i _ (hspan i))
    (fun i j hij hj => ?_) (fun p hne s => ?_)
  · exact b.linked.lt p c (hchildren p ▸ List.mem_map_of_mem hc)
  · exact h.stop_lt_start i j _ _ hij ((hempty j).1 hj) (hspan i) (hspan j)
  · rw [h.covers p _ (hspan p) (mt (hempty p).2 hne) s, ← hchildren p, List.forall_mem_map]
    simp only [hspan, Option.some.injEq, forall_eq']

/-- **The ranges of a finished tree nest.** -/
theorem Filled.finish {statements : List Nat} (h : b.Filled room)
    (known : ∀ c ∈ statements, c < b.nodes.size) :
    EndsIn (StopsAt (room + (Form.node .sourceFile none statements).room))
      (fun src => NestedSpans src.tree.nodes.get) (b.finish statements) := by
  have hends := h.node .sourceFile none known
  unfold TreeBuilder.finish
  split
  · rename_i fault hnode
    exact hends.of_error hnode
  · rename_i root b' hnode
    have hnested := nestedSpans_stored (hends.of_ok hnode).laidOut
    simpa only [EndsIn, nodes_toTree] using hnested

end TreeBuilder

open TreeBuilder in
/-- **The ranges that a builder makes nest.** Whatever forms are added, if no node is given to two
parents and the room is below the limit, no offset is out of range and the builder stands behind the
room taken. The ranges of the stored nodes nest, and so do those of the finished tree.

**Proof sketch.** `Filled` and `Tracks` hold of the empty builder and are kept by `addAll`, which by
the bound on the room and the absence of a second parent ends in a builder
(`exists_eq_ok_of_stopsAt`). `Filled` contains `LaidOut`, from which `nestedSpans_stored` follows.
Finishing adds one more node, so the same two steps are taken again. -/
theorem builder_nests_spans {file : FileId} {I : Interner} {forms : List (Form Nat)}
    (hplaces : Form.RefersBackwards forms) (hroom : (forms.map Form.room).sum < offsetLimit)
    (hfree : (TreeBuilder.empty file I).addAll [] forms ≠ .error .attachedTwice) :
    ∃ made b, (TreeBuilder.empty file I).addAll [] forms = .ok (made, b) ∧
      b.offset = (forms.map Form.room).sum ∧ NestedSpans b.stored.get ∧
      ∀ statements : List Nat, (∀ c ∈ statements, c ∈ made) →
        (forms.map Form.room).sum + (Form.node .sourceFile none statements).room < offsetLimit →
        b.finish statements ≠ .error .attachedTwice →
        ∃ src, b.finish statements = .ok src ∧ NestedSpans src.tree.nodes.get := by
  have hknown : ∀ k, (hk : k < forms.length) → ∀ place ∈ forms[k].refs, place < 0 + k :=
    fun k hk place hplace => Nat.lt_add_left 0 (hplaces k hk place hplace)
  have hends := (filled_empty file I).addAll (tracks_empty file I) hknown
  rw [Nat.zero_add] at hends
  obtain ⟨⟨made, b⟩, hadd, hfilled⟩ := exists_eq_ok_of_stopsAt hends hroom hfree
  have htracks := (tracks_empty file I).addAll hadd
  refine ⟨made, b, hadd, hfilled.offset_eq, nestedSpans_stored hfilled.laidOut,
    fun statements hknown hroom hfree => ?_⟩
  have hends := hfilled.finish fun c hc => htracks.lt_size c (hknown c hc)
  exact exists_eq_ok_of_stopsAt hends hroom hfree

/-- The forms of a call whose argument is stored before its callee, and of an empty block. -/
def Form.callAndBlock : List (Form Nat) :=
  [literal "1", identifier "é", call 1 [0], expressionStatement 2, block []]

/-- The call covers its argument, although it is listed behind the callee, and the empty block has a
range of its own. -/
theorem builder_nests_spans_callee_stored_last :
    ∃ made b src, (TreeBuilder.empty ⟨0⟩ .empty).addAll [] Form.callAndBlock = .ok (made, b) ∧
      b.offset = 6 ∧ NestedSpans b.stored.get ∧ b.finish [4, 3] = .ok src ∧
      src.tree.nodes.toList.map Node.span = [⟨0, 1⟩, ⟨2, 4⟩, ⟨0, 4⟩, ⟨0, 4⟩, ⟨5, 5⟩, ⟨0, 5⟩] ∧
      NestedSpans src.tree.nodes.get := by
  have hrun : EndsIn (fun _ => False)
      (fun r => decide (r.1 = [0, 1, 2, 3, 4]) = true ∧
        EndsIn (fun _ => False) (fun src => decide (src.tree.nodes.toList.map Node.span =
          [⟨0, 1⟩, ⟨2, 4⟩, ⟨0, 4⟩, ⟨0, 4⟩, ⟨5, 5⟩, ⟨0, 5⟩]) = true) (r.2.finish [4, 3]))
      ((TreeBuilder.empty ⟨0⟩ .empty).addAll [] Form.callAndBlock) := by decide +kernel
  obtain ⟨⟨made, b⟩, hadd, hmade, hfinish⟩ := hrun.exists_eq_ok
  obtain rfl : made = [0, 1, 2, 3, 4] := of_decide_eq_true hmade
  obtain ⟨src, hsrc, hspans⟩ := hfinish.exists_eq_ok
  obtain ⟨made', b', hadd', hoffset, hstored, hfinished⟩ :=
    @builder_nests_spans ⟨0⟩ .empty Form.callAndBlock (by decide) (by decide) (by simp [hadd])
  obtain ⟨rfl, rfl⟩ := Prod.mk.inj (Except.ok.inj (hadd.symm.trans hadd'))
  obtain ⟨src', hsrc', hnested⟩ := hfinished [4, 3] (by decide) (by decide) (by simp [hsrc])
  obtain rfl := Except.ok.inj (hsrc.symm.trans hsrc')
  exact ⟨_, b, src, hadd, hoffset, hstored, hsrc, of_decide_eq_true hspans, hnested⟩

end Predeclare
