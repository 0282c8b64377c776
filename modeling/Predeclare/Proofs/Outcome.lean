import Mathlib.Data.List.Basic
import Predeclare.Source

set_option relaxedAutoImplicit false
set_option autoImplicit false

/-!
# How computations end

A computation ends in a value or in a fault. What is promised about it names both: which values it
may end in and which faults it may meet. A promise about a computation follows from promises about
its parts, as a promise about a loop follows from one about a single round.

## Main definitions

* `EndsIn F P x` — the computation `x` ends in a value with `P` or in a fault with `F`.

## Main results

* `EndsIn.bind` — one computation after the other.
* `EndsIn.foldlM` — a loop over a list, by an invariant that knows the rounds done so far.
-/

namespace Predeclare

variable {ε α β : Type}

/-- The computation ends in a value that satisfies `P` or in a fault that satisfies `F`. -/
def EndsIn (F : ε → Prop) (P : α → Prop) : Except ε α → Prop
  | .ok a => P a
  | .error f => F f

namespace EndsIn

/-- Whether a computation ends as promised is found out by running it. -/
instance (F : ε → Prop) (P : α → Prop) [DecidablePred F] [DecidablePred P] :
    DecidablePred (EndsIn F P)
  | .ok a => inferInstanceAs (Decidable (P a))
  | .error f => inferInstanceAs (Decidable (F f))

variable {F : ε → Prop} {P Q : α → Prop} {x : Except ε α}

/-- A computation that has ended in a value keeps the promise about values. -/
lemma of_ok (h : EndsIn F P x) {a : α} (hx : x = .ok a) : P a := by
  subst hx
  exact h

/-- A computation that has met a fault keeps the promise about faults. -/
lemma of_error (h : EndsIn F P x) {f : ε} (hx : x = .error f) : F f := by
  subst hx
  exact h

/-- A computation that can meet no fault ends in a value. -/
lemma exists_eq_ok (h : EndsIn (fun _ => False) P x) : ∃ a, x = .ok a ∧ P a := by
  cases x with
  | ok a => exact ⟨a, rfl, h⟩
  | error f => exact h.elim

/-- A weaker promise about values. -/
lemma mono (h : EndsIn F P x) (hPQ : ∀ a, P a → Q a) : EndsIn F Q x := by
  cases x with
  | ok a => exact hPQ a h
  | error f => exact h

/-- **One computation after the other.** -/
theorem bind {R : β → Prop} {f : α → Except ε β} (hx : EndsIn F P x)
    (hf : ∀ a, P a → EndsIn F R (f a)) : EndsIn F R (x >>= f) := by
  cases x with
  | ok a => exact hf a hx
  | error fault => exact hx

/-- A function applied to the value of a computation. -/
lemma map {R : β → Prop} {f : α → β} (hx : EndsIn F P x) (hf : ∀ a, P a → R (f a)) :
    EndsIn F R (x.map f) := by
  cases x with
  | ok a => exact hf a hx
  | error fault => exact hx

/-- A loop over a list whose first rounds are done.

**Proof sketch.** By induction on the rounds that are left; a round moves its element to those that
are done. -/
lemma foldlM_aux {f : α → β → Except ε α} {I : List β → α → Prop} {l : List β}
    (step : ∀ done b rest a, l = done ++ b :: rest → I done a →
      EndsIn F (I (done ++ [b])) (f a b)) :
    ∀ (rest done : List β) (a : α), l = done ++ rest → I done a →
      EndsIn F (I l) (rest.foldlM f a) := by
  intro rest
  induction rest with
  | nil =>
    intro done a hl ha
    rw [List.append_nil] at hl
    exact hl ▸ ha
  | cons b rest ih =>
    intro done a hl ha
    rw [List.foldlM_cons]
    refine (step done b rest a hl ha).bind fun a' ha' => ?_
    exact ih (done ++ [b]) a' (by rw [hl, List.append_assoc]; rfl) ha'

/-- **A loop over a list**: an invariant of the rounds done so far that each round carries over to
one more round holds at the end for all of them. -/
theorem foldlM {f : α → β → Except ε α} {I : List β → α → Prop} {l : List β} {a : α}
    (step : ∀ done b rest a, l = done ++ b :: rest → I done a →
      EndsIn F (I (done ++ [b])) (f a b))
    (init : I [] a) : EndsIn F (I l) (l.foldlM f a) :=
  foldlM_aux step l [] a rfl init

end EndsIn

/-- A computation goes on with the value that its first part ended in. -/
@[simp] lemma ok_bind (a : α) (f : α → Except ε β) : (Except.ok a >>= f) = f a := rfl

/-- A computation whose first part met a fault has met it. -/
@[simp] lemma error_bind (fault : ε) (f : α → Except ε β) :
    (Except.error fault >>= f) = .error fault := rfl

/-- Returning a value is ending in it. -/
@[simp] lemma pure_eq_ok (a : α) : (pure a : Except ε α) = .ok a := rfl

/-- A computation of two parts succeeds when both parts do. -/
lemma bind_eq_ok_iff {x : Except ε α} {f : α → Except ε β} {b : β} :
    x >>= f = .ok b ↔ ∃ a, x = .ok a ∧ f a = .ok b := by
  cases x with
  | ok a => simp
  | error fault => simp

/-- A computation followed by a function succeeds when the computation does. -/
lemma map_eq_ok_iff {x : Except ε α} {f : α → β} {b : β} :
    x.map f = .ok b ↔ ∃ a, x = .ok a ∧ f a = b := by
  cases x with
  | ok a => simp [Except.map]
  | error fault => simp [Except.map]

/-- A list of computations that all succeed succeeds as a whole. -/
lemma exists_mapM_eq_ok {f : α → Except ε β} {l : List α}
    (h : ∀ a ∈ l, ∃ b, f a = .ok b) : ∃ bs, l.mapM f = .ok bs := by
  induction l with
  | nil => exact ⟨[], rfl⟩
  | cons a rest ih =>
    obtain ⟨b, hb⟩ := h a List.mem_cons_self
    obtain ⟨bs, hbs⟩ := ih fun c hc => h c (List.mem_cons_of_mem a hc)
    refine ⟨b :: bs, ?_⟩
    rw [List.mapM_cons, hb, hbs]
    rfl

/-- A list of computations whose results are known has the list of these results. -/
lemma mapM_eq_ok_map {f : α → Except ε β} {g : α → β} {l : List α}
    (h : ∀ a ∈ l, f a = .ok (g a)) : l.mapM f = .ok (l.map g) := by
  induction l with
  | nil => rfl
  | cons a rest ih =>
    rw [List.mapM_cons, h a List.mem_cons_self, ih fun b hb => h b (List.mem_cons_of_mem a hb)]
    rfl

/-- In a list of computations that succeeds as a whole, each computation has one of the results. -/
lemma exists_mem_of_mapM_eq_ok {f : α → Except ε β} {l : List α} {bs : List β}
    (h : l.mapM f = .ok bs) : ∀ a ∈ l, ∃ b ∈ bs, f a = .ok b := by
  induction l generalizing bs with
  | nil => simp
  | cons a rest ih =>
    simp only [List.mapM_cons, bind_eq_ok_iff, pure_eq_ok, Except.ok.injEq] at h
    obtain ⟨b, hb, bs', hbs', rfl⟩ := h
    intro c hc
    rcases List.mem_cons.1 hc with rfl | hc
    · exact ⟨b, List.mem_cons_self, hb⟩
    · obtain ⟨d, hd, hfd⟩ := ih hbs' c hc
      exact ⟨d, List.mem_cons_of_mem b hd, hfd⟩

/-- In a list of computations that succeeds as a whole, each computation succeeds. -/
lemma exists_eq_ok_of_mapM_eq_ok {f : α → Except ε β} {l : List α} {bs : List β}
    (h : l.mapM f = .ok bs) (a : α) (ha : a ∈ l) : ∃ b, f a = .ok b := by
  obtain ⟨b, _, hb⟩ := exists_mem_of_mapM_eq_ok h a ha
  exact ⟨b, hb⟩

/-- The results of a list of computations that succeed belong to the list, one by one. -/
lemma forall_mem_of_mapM_eq_ok {f : α → Except ε β} {l : List α} {bs : List β}
    (h : l.mapM f = .ok bs) : ∀ b ∈ bs, ∃ a ∈ l, f a = .ok b := by
  induction l generalizing bs with
  | nil =>
    obtain rfl : [] = bs := Except.ok.inj h
    simp
  | cons a rest ih =>
    simp only [List.mapM_cons, bind_eq_ok_iff, pure_eq_ok, Except.ok.injEq] at h
    obtain ⟨b, hb, bs', hbs', rfl⟩ := h
    intro c hc
    rcases List.mem_cons.1 hc with rfl | hc
    · exact ⟨a, List.mem_cons_self, hb⟩
    · obtain ⟨a', ha', hfa⟩ := ih hbs' c hc
      exact ⟨a', List.mem_cons_of_mem a ha', hfa⟩

end Predeclare
