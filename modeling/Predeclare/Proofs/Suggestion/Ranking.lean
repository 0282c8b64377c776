import Predeclare.Proofs.Outcome
import Predeclare.Proofs.Spelling
import Predeclare.Scope.Suggestion

set_option relaxedAutoImplicit false
set_option autoImplicit false

/-!
# The suggestions are the best candidates

A name is eligible as a suggestion if it is available, is not the name that is looked for, and lies
within the greatest distance. Eligible names are ranked by their distance and, where two are equally
far away, by their first places in the list of available names. The suggestions are the first three
of this ranking, so it does not matter how often a name is listed, and the order of the list decides
between equally distant names only.

## Main definitions

* `Suggestion.Eligible`, `Suggestion.RanksBefore` — which names are ranked, and how.
* `Suggestion.IsRanking` — the list of all eligible names in their order.

## Main results

* `Suggestion.IsRanking.unique` — there is one ranking.
* `Suggestion.isRanking_ranking` — sorting the candidates by distance ranks them.
* `suggestions_eq_best` — the suggestions are the first three names of the ranking.
-/

namespace Predeclare

namespace Suggestion

/-! ## Rankings -/

/-- The name may be suggested in place of `name`: it is available, is another name, and is at most
three edits away. -/
def Eligible (distance : Name → Nat) (name : Name) (available : List Name) (a : Name) : Prop :=
  a ∈ available ∧ a ≠ name ∧ distance a ≤ 3

/-- One name ranks before another one if it is closer, or as close and listed first. -/
def RanksBefore (distance : Name → Nat) (available : List Name) (a b : Name) : Prop :=
  distance a < distance b ∨ distance a = distance b ∧ available.idxOf a < available.idxOf b

/-- The list holds the eligible names, each before those that it ranks before. -/
structure IsRanking (distance : Name → Nat) (name : Name) (available ranking : List Name) :
    Prop where
  mem_iff : ∀ a, a ∈ ranking ↔ Eligible distance name available a
  sorted : ranking.Pairwise (RanksBefore distance available)

section Ranking

variable {distance : Name → Nat} {name a b c : Name} {available ranking ranking' : List Name}

/-- No two names rank before each other. -/
lemma RanksBefore.asymm (h : RanksBefore distance available a b) :
    ¬ RanksBefore distance available b a := by
  unfold RanksBefore at *
  omega

/-- What ranks before a name is not further away. -/
lemma RanksBefore.distance_le (h : RanksBefore distance available a b) :
    distance a ≤ distance b := by
  unfold RanksBefore at h
  omega

/-- A ranking has each name once. -/
lemma IsRanking.nodup (h : IsRanking distance name available ranking) : ranking.Nodup :=
  h.sorted.imp fun hab heq => (heq ▸ hab).asymm (heq ▸ hab)

/-- The distances of a ranking ascend. -/
lemma IsRanking.sorted_distances (h : IsRanking distance name available ranking) :
    (ranking.map distance).Pairwise (· ≤ ·) :=
  List.pairwise_map.2 (h.sorted.imp RanksBefore.distance_le)

/-- **There is one ranking.** -/
theorem IsRanking.unique (h : IsRanking distance name available ranking)
    (h' : IsRanking distance name available ranking') : ranking = ranking' := by
  have hperm : ranking.Perm ranking' :=
    (List.perm_ext_iff_of_nodup h.nodup h'.nodup).2 fun a => (h.mem_iff a).trans (h'.mem_iff a).symm
  exact hperm.eq_of_pairwise (fun a b _ _ hab hba => absurd hba hab.asymm) h.sorted h'.sorted

/-- The rankings of two lists of the same names have the same distances, one by one. -/
lemma IsRanking.map_distance_eq {available' : List Name}
    (h : IsRanking distance name available ranking)
    (h' : IsRanking distance name available' ranking')
    (hmem : ∀ a, a ∈ available ↔ a ∈ available') :
    ranking.map distance = ranking'.map distance := by
  have hperm : ranking.Perm ranking' := by
    refine (List.perm_ext_iff_of_nodup h.nodup h'.nodup).2 fun a => ?_
    rw [h.mem_iff, h'.mem_iff, Eligible, Eligible, hmem]
  exact (hperm.map distance).eq_of_pairwise (fun a b _ _ hab hba => Nat.le_antisymm hab hba)
    h.sorted_distances h'.sorted_distances

/-- An eligible name that is not among the first of a ranking is not closer than any of these. -/
lemma IsRanking.distance_le_of_notMem_take (h : IsRanking distance name available ranking)
    {k : Nat} (ha : Eligible distance name available a) (hnot : a ∉ ranking.take k)
    (hb : b ∈ ranking.take k) : distance b ≤ distance a := by
  have hsorted := h.sorted
  rw [← List.take_append_drop k ranking, List.pairwise_append] at hsorted
  have hdrop : a ∈ ranking.drop k := by
    have hmem := (h.mem_iff a).2 ha
    rw [← List.take_append_drop k ranking] at hmem
    exact (List.mem_append.1 hmem).resolve_left hnot
  exact (hsorted.2.2 b hb a hdrop).distance_le

end Ranking

/-! ## The candidates in order -/

section Candidates

variable {name a : Name} {available : List Name}

/-- The candidates are the other names of the list. -/
lemma mem_candidates_iff : a ∈ candidates name available ↔ a ∈ available ∧ a ≠ name := by
  simp [candidates]

/-- What is left of a list when repetitions and some entries are dropped stands in the order of the
first places in the list.

**Proof sketch.** Induction on the list, for all filters at once. If its first entry is kept, its
repetitions are filtered out of the rest; in any case the places in the rest move by one. -/
lemma pairwise_idxOf_eraseDups_filter (l : List Name) (p : Name → Bool) :
    (l.filter p).eraseDups.Pairwise fun a b => l.idxOf a < l.idxOf b := by
  induction l generalizing p with
  | nil => simp
  | cons c l ih =>
    -- behind an entry `c` that is kept or dropped only other names are left
    have hrest : ∀ q : Name → Bool, q c = false →
        (l.filter q).eraseDups.Pairwise fun a b => (c :: l).idxOf a < (c :: l).idxOf b := by
      intro q hq
      refine (ih q).imp_of_mem fun {a b} ha hb hab => ?_
      have hne : ∀ x ∈ (l.filter q).eraseDups, c ≠ x := by
        rintro x hx rfl
        rw [List.mem_eraseDups, List.mem_filter] at hx
        exact absurd hx.2 (by simp [hq])
      rw [List.idxOf_cons_ne l (hne a ha), List.idxOf_cons_ne l (hne b hb)]
      omega
    cases hc : p c with
    | false =>
      rw [List.filter_cons_of_neg (by simp [hc])]
      exact hrest p hc
    | true =>
      rw [List.filter_cons_of_pos hc, List.eraseDups_cons, List.filter_filter]
      refine List.pairwise_cons.2 ⟨fun b hb => ?_, hrest _ (by simp)⟩
      have hne : c ≠ b := by
        rintro rfl
        simp at hb
      rw [List.idxOf_cons_self, List.idxOf_cons_ne l hne]
      omega

/-- A name that is listed again changes nothing. -/
lemma candidates_of_repeated {u : List Name} (v : List Name) (ha : a ∈ u) :
    candidates name (u ++ a :: v) = candidates name (u ++ v) := by
  simp only [candidates, List.filter_append, List.eraseDups_append]
  congr 2
  by_cases hname : a = name
  · simp [hname]
  · have hkept : a ∈ u.filter (· ≠ name) := List.mem_filter.2 ⟨ha, by simpa using hname⟩
    rw [List.filter_cons_of_pos (by simpa using hname), List.cons_removeAll,
      if_neg (by simpa using hkept)]

end Candidates

/-! ## Sorting the candidates -/

section Sorting

/-- A list of two is sorted by one comparison. -/
lemma mergeSort_pair {α : Type} (le : α → α → Bool) (a b : α) :
    [a, b].mergeSort le = if le a b then [a, b] else [b, a] := by
  simp [List.mergeSort, List.merge]

variable (distance : Name → Nat)

/-- The order of distances. -/
def notFurther (a b : Name) : Bool := distance a ≤ distance b

/-- The near candidates, sorted by distance. -/
def ranking (name : Name) (available : List Name) : List Name :=
  ((candidates name available).filter fun a => distance a ≤ maxDistance).mergeSort
    (notFurther distance)

lemma notFurther_trans (a b c : Name) (hab : notFurther distance a b = true)
    (hbc : notFurther distance b c = true) : notFurther distance a c = true := by
  simp only [notFurther, decide_eq_true_eq] at *
  omega

lemma notFurther_total (a b : Name) :
    (notFurther distance a b || notFurther distance b a) = true := by
  simp only [notFurther, Bool.or_eq_true, decide_eq_true_eq]
  omega

variable {distance}

/-- Sorting keeps the order of equally distant names.

**Proof sketch.** The names at distance `k` are in order already, so sorting keeps them as a sublist
(`List.sublist_mergeSort`). It is all of them, since sorting permutes the list. -/
lemma filter_mergeSort_notFurther (l : List Name) (k : Nat) :
    (l.mergeSort (notFurther distance)).filter (fun a => distance a = k) =
      l.filter fun a => distance a = k := by
  have hsub : (l.filter fun a => distance a = k).Sublist (l.mergeSort (notFurther distance)) := by
    refine List.sublist_mergeSort (notFurther_trans distance) (notFurther_total distance) ?_
      List.filter_sublist
    refine List.pairwise_of_forall_mem_list fun a ha b hb => ?_
    simp_all [notFurther]
  have hkept := hsub.filter fun a => distance a = k
  simp only [List.filter_filter, Bool.and_self] at hkept
  refine (hkept.eq_of_length ?_).symm
  exact ((List.mergeSort_perm l _).filter _).length_eq.symm

/-- Names that are sorted by distance and were in the order of a list before are ranked.

**Proof sketch.** A pair of the sorted list is in order of distance. If the two are equally distant,
`filter_mergeSort_notFurther` says that they stand in the order in which they stood in `l`. -/
lemma pairwise_ranksBefore_mergeSort {available l : List Name}
    (h : l.Pairwise fun a b => available.idxOf a < available.idxOf b) :
    (l.mergeSort (notFurther distance)).Pairwise (RanksBefore distance available) := by
  have hsorted := List.pairwise_mergeSort (notFurther_trans distance) (notFurther_total distance) l
  rw [List.pairwise_iff_forall_sublist] at hsorted h ⊢
  intro a b hab
  have hle : distance a ≤ distance b := by simpa [notFurther] using hsorted hab
  rcases Nat.lt_or_eq_of_le hle with hlt | heq
  · exact Or.inl hlt
  · refine Or.inr ⟨heq, h ?_⟩
    have hkept := hab.filter fun x => distance x = distance b
    rw [filter_mergeSort_notFurther] at hkept
    simp only [heq, decide_true, List.filter_cons_of_pos, List.filter_nil] at hkept
    exact hkept.trans List.filter_sublist

/-- **Sorting the near candidates by distance ranks the eligible names.** -/
theorem isRanking_ranking (name : Name) (available : List Name) :
    IsRanking distance name available (ranking distance name available) where
  mem_iff a := by
    rw [ranking, List.mem_mergeSort, List.mem_filter, mem_candidates_iff, decide_eq_true_eq,
      and_assoc]
    rfl
  sorted :=
    pairwise_ranksBefore_mergeSort
      ((pairwise_idxOf_eraseDups_filter available _).sublist List.filter_sublist)

/-- The closest of the measured candidates are the first of the ranking. -/
lemma closest_map (name : Name) (available : List Name) :
    closest ((candidates name available).map fun a => (a, distance a)) =
      (ranking distance name available).take 3 := by
  have hsort := List.map_mergeSort (f := fun a => (a, distance a))
    (r := notFurther distance) (s := fun a b => a.2 ≤ b.2)
    (l := (candidates name available).filter fun a => distance a ≤ maxDistance)
    (fun a _ b _ => rfl)
  simp only [closest, List.filter_map, Function.comp_def]
  rw [← hsort, ← List.map_take, List.map_map]
  exact List.map_id _

end Sorting

end Suggestion

/-! ## The suggestions -/

section Suggestions

open Suggestion

/-- The distance of two names with known spellings. -/
def nameDistance (spell : Name → String) (name a : Name) : Nat :=
  editDistance (spell name) (spell a)

variable {I : Interner} {name : Name} {available : List Name} {spell : Name → String}

/-- The suggestions are the closest of the candidates, once these are measured. -/
lemma suggestions_eq_closest {target : String} {measured : List (Name × Nat)}
    (htarget : I.spelling name = .ok target)
    (hmeasured : (candidates name available).mapM (Suggestion.measure I target) = .ok measured) :
    suggestions I name available = .ok (closest measured) := by
  simp only [suggestions, htarget, ok_bind, hmeasured, pure_eq_ok]

/-- For names with known spellings the suggestions are the first of the ranking. -/
lemma suggestions_eq_take (hspell : ∀ a ∈ name :: available, I.spelling a = .ok (spell a)) :
    suggestions I name available =
      .ok ((ranking (nameDistance spell name) name available).take 3) := by
  have hmeasured : (candidates name available).mapM (Suggestion.measure I (spell name)) =
      .ok ((candidates name available).map fun a => (a, nameDistance spell name a)) := by
    refine mapM_eq_ok_map fun a ha => ?_
    have hspelled := hspell a (List.mem_cons_of_mem name (mem_candidates_iff.1 ha).1)
    simp only [Suggestion.measure, hspelled]
    rfl
  rw [suggestions_eq_closest (hspell name List.mem_cons_self) hmeasured, closest_map]

/-- **The suggestions are the best candidates.** Of the available names other than the one looked
for that are at most three edits away, ranked by distance and then by first place in the list, the
first three are suggested. Hence no name is suggested twice, a name that is listed again changes
nothing, no name is left out for one that is further away, and the distances of the suggestions do
not depend on the order of the list.

**Proof sketch.** The suggestions are the beginning of `ranking`, which is a ranking, and rankings
are unique. The consequences hold of any ranking: its entries are distinct, it is sorted by
distance, and the sorted list of distances only depends on which names are available. -/
theorem suggestions_eq_best (hspell : ∀ a ∈ name :: available, I.spelling a = .ok (spell a)) :
    ∃ best, (∀ r, IsRanking (nameDistance spell name) name available r ↔ r = best) ∧
      suggestions I name available = .ok (best.take 3) ∧
      (best.take 3).Nodup ∧
      (∀ u v, ∀ a ∈ u, suggestions I name (u ++ a :: v) = suggestions I name (u ++ v)) ∧
      (∀ a, Eligible (nameDistance spell name) name available a → a ∉ best.take 3 →
        ∀ b ∈ best.take 3, nameDistance spell name b ≤ nameDistance spell name a) ∧
      ∀ available', available'.Perm available →
        ∃ result, suggestions I name available' = .ok result ∧
          result.map (nameDistance spell name) =
            (best.take 3).map (nameDistance spell name) := by
  have hbest : IsRanking (nameDistance spell name) name available _ :=
    isRanking_ranking name available
  refine ⟨ranking (nameDistance spell name) name available,
    fun r => ⟨fun hr => hr.unique hbest, fun hr => hr ▸ hbest⟩, suggestions_eq_take hspell,
    hbest.nodup.sublist (List.take_sublist 3 _), fun u v a ha => ?_,
    fun a ha hnot b hb => hbest.distance_le_of_notMem_take ha hnot hb,
    fun available' hperm => ?_⟩
  · simp only [suggestions, candidates_of_repeated v ha]
  · have hspell' : ∀ a ∈ name :: available', I.spelling a = .ok (spell a) := fun a ha =>
      hspell a ((hperm.cons name).subset ha)
    refine ⟨_, suggestions_eq_take hspell', ?_⟩
    rw [List.map_take, List.map_take,
      (isRanking_ranking name available').map_distance_eq hbest fun a => hperm.mem_iff]

/-- The names of a misspelled word and of words to suggest. -/
def Interner.ofPrnt : Interner :=
  ⟨["prnt", "paint", "print", "somethingElse", "point", "pint"], by decide⟩

/-- For `prnt` the two names that are one edit away come first, in the order of the list. Of the two
names that are two edits away the first listed one is suggested, and the other is cut off. -/
theorem suggestions_eq_best_of_prnt :
    ∃ spell : Name → String,
      (∀ a ∈ ⟨0⟩ :: ([⟨3⟩, ⟨1⟩, ⟨2⟩, ⟨1⟩, ⟨4⟩, ⟨0⟩, ⟨5⟩] : List Name),
        Interner.ofPrnt.spelling a = .ok (spell a)) ∧
      suggestions .ofPrnt ⟨0⟩ [⟨3⟩, ⟨1⟩, ⟨2⟩, ⟨1⟩, ⟨4⟩, ⟨0⟩, ⟨5⟩] = .ok [⟨2⟩, ⟨5⟩, ⟨1⟩] ∧
      ∃ best, IsRanking (nameDistance spell ⟨0⟩) ⟨0⟩ [⟨3⟩, ⟨1⟩, ⟨2⟩, ⟨1⟩, ⟨4⟩, ⟨0⟩, ⟨5⟩] best ∧
        best.take 3 = [⟨2⟩, ⟨5⟩, ⟨1⟩] := by
  have hspell : ∀ a ∈ ⟨0⟩ :: ([⟨3⟩, ⟨1⟩, ⟨2⟩, ⟨1⟩, ⟨4⟩, ⟨0⟩, ⟨5⟩] : List Name),
      Interner.ofPrnt.spelling a = .ok (Interner.ofPrnt.spellings.getD a.index "") := by decide
  have hmeasured : (candidates ⟨0⟩ [⟨3⟩, ⟨1⟩, ⟨2⟩, ⟨1⟩, ⟨4⟩, ⟨0⟩, ⟨5⟩]).mapM
      (measure .ofPrnt "prnt") = .ok [(⟨3⟩, 12), (⟨1⟩, 2), (⟨2⟩, 1), (⟨4⟩, 2), (⟨5⟩, 1)] := by
    decide +kernel
  have hrun : suggestions .ofPrnt ⟨0⟩ [⟨3⟩, ⟨1⟩, ⟨2⟩, ⟨1⟩, ⟨4⟩, ⟨0⟩, ⟨5⟩] =
      .ok [⟨2⟩, ⟨5⟩, ⟨1⟩] := by
    rw [suggestions_eq_closest (hspell ⟨0⟩ List.mem_cons_self) hmeasured]
    simp [closest, maxDistance, maxCount, List.mergeSort]
  obtain ⟨best, hranking, hbest, _⟩ := suggestions_eq_best hspell
  exact ⟨_, hspell, hrun, best, (hranking best).2 rfl, Except.ok.inj (hbest.symm.trans hrun)⟩

end Suggestions

end Predeclare
