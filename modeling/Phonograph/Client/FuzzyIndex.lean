import Mathlib.Algebra.BigOperators.Group.Finset.Basic
import Mathlib.Algebra.BigOperators.Group.List.Lemmas
import Mathlib.Algebra.Order.Ring.Nat
import Phonograph.Client.FuzzySet
import Phonograph.Lib.Tally

/-! # The index of a fuzzy set

Whatever is added, `items` lists the names of the set in the order they came, the
list of a gram has the position of each name it occurs in with the number of its
occurrences, and `exactSet` leads from a name to the first string added under it
(`indexed_ofArray`).  A search therefore gives each name the number of pairs of equal
grams (`lookup_matchScores`). -/

set_option autoImplicit false

namespace Phonograph.Client.Fuzzy

open Phonograph.Lib

variable {e : Engine}

/-! ## Counting grams -/

theorem length_of_mem_iterateGrams {value gram : List Char} {n : ℕ}
    (inside : gram ∈ iterateGrams e value n) : gram.length = n := by
  simp only [iterateGrams, List.mem_map, List.mem_range] at inside
  obtain ⟨i, bound, rfl⟩ := inside
  rw [List.length_take, List.length_drop]
  omega

theorem lookup_gramCounter (value gram : List Char) (n : ℕ) :
    (gramCounter e value n).lookup gram =
      if gram ∈ iterateGrams e value n then some ((iterateGrams e value n).count gram) else none := by
  have tally := lookup_foldl_add id (fun _ => 1) (iterateGrams e value n) gram
  simp only [id_eq, List.filter_eq, List.replicate_eq_nil_iff, List.count_eq_zero] at tally
  rw [gramCounter, tally]
  by_cases inside : gram ∈ iterateGrams e value n
  · simp [inside]
  · simp [inside]

theorem mem_keys_gramCounter {value gram : List Char} {n : ℕ} :
    gram ∈ (gramCounter e value n).keys ↔ gram ∈ iterateGrams e value n := by
  rw [← AList.mem_keys, ← AList.lookup_isSome, lookup_gramCounter]
  split_ifs with inside <;> simp [inside]

theorem getD_gramCounter (value gram : List Char) (n : ℕ) :
    ((gramCounter e value n).lookup gram).getD 0 = (iterateGrams e value n).count gram := by
  rw [lookup_gramCounter]
  split_ifs with inside
  · rfl
  · exact (List.count_eq_zero.mpr inside).symm

theorem sum_gramCounter (value : List Char) (n : ℕ) (f : List Char → ℕ) :
    ((gramCounter e value n).keys.map fun gram =>
      ((gramCounter e value n).lookup gram).getD 0 * f gram).sum =
      ((iterateGrams e value n).map f).sum := by
  have keys : (gramCounter e value n).keys.toFinset = (iterateGrams e value n).toFinset := by
    ext gram
    rw [List.mem_toFinset, List.mem_toFinset, mem_keys_gramCounter]
  rw [Finset.sum_list_map_count (iterateGrams e value n), ← keys,
    List.sum_toFinset _ (AList.keys_nodup _)]
  simp only [getD_gramCounter, nsmul_eq_mul, Nat.cast_id]
  congr! 5
  exact lawful_beq_subsingleton _ _

/-! ## Postings -/

def occurrences (e : Engine) (name gram : List Char) : ℕ :=
  (iterateGrams e name gram.length).count gram

def postings (e : Engine) (names : List (List Char)) (gram : List Char) : List (ℕ × ℕ) :=
  names.zipIdx.filterMap fun name =>
    if occurrences e name.1 gram = 0 then none else some (name.2, occurrences e name.1 gram)

theorem postings_append (names : List (List Char)) (name gram : List Char) :
    postings e (names ++ [name]) gram = postings e names gram ++
      if occurrences e name gram = 0 then [] else [(names.length, occurrences e name gram)] := by
  rw [postings, List.zipIdx_append, List.filterMap_append]
  congr 1
  by_cases none : occurrences e name gram = 0
  · simp [none]
  · simp [none]

theorem filter_postings (names : List (List Char)) (gram : List Char) (i : ℕ) :
    (postings e names gram).filter (fun m => m.1 = i) =
      match names[i]? with
      | none => []
      | some name => if occurrences e name gram = 0 then [] else [(i, occurrences e name gram)] := by
  induction names using List.reverseRecOn with
  | nil => rfl
  | append_singleton names name ih =>
      rw [postings_append, List.filter_append, ih]
      rcases Nat.lt_trichotomy i names.length with less | same | greater
      · rw [List.getElem?_append_left less]
        have other : ¬ names.length = i := by omega
        by_cases none : occurrences e name gram = 0
        · simp [none]
        · simp [none, other]
      · subst same
        by_cases none : occurrences e name gram = 0
        · simp [none]
        · simp [none]
      · rw [List.getElem?_eq_none (by omega), List.getElem?_eq_none (by simp; omega)]
        have other : ¬ names.length = i := by omega
        by_cases none : occurrences e name gram = 0
        · simp [none]
        · simp [none, other]

theorem lookup_addMatches (index : ℕ) (value gram : List Char) (n : ℕ)
    (matchDict : Obj (List Char) (List (ℕ × ℕ))) :
    ((addMatches index (gramCounter e value n) matchDict).lookup gram).getD [] =
      (matchDict.lookup gram).getD [] ++
        if gram ∈ iterateGrams e value n then [(index, (iterateGrams e value n).count gram)] else [] := by
  have tally := lookup_foldl_insert id
    (fun (list : Option (List (ℕ × ℕ))) gram =>
      list.getD [] ++ [(index, ((gramCounter e value n).lookup gram).getD 0)])
    (gramCounter e value n).keys matchDict gram
  simp only [id_eq, filter_eq_of_nodup (AList.keys_nodup _), mem_keys_gramCounter] at tally
  rw [addMatches, tally]
  by_cases inside : gram ∈ iterateGrams e value n
  · simp [inside, getD_gramCounter]
  · simp [inside]

/-! ## The index -/

structure IndexedAt (e : Engine) (n : ℕ) (names : List (List Char)) (set : FuzzySet) : Prop where
  items : set.items n = names.map fun name => (squares (gramCounter e name n), name)
  lists : ∀ gram, gram.length = n → (set.matchDict.lookup gram).getD [] = postings e names gram

theorem indexedAt_addBySize {n : ℕ} {names : List (List Char)} {set : FuzzySet}
    (indexed : IndexedAt e n names set) (value : List Char) :
    IndexedAt e n (names ++ [e.toLowerCase value]) (addBySize e set value n) := by
  constructor
  · simp [addBySize, indexed.items]
  · intro gram length
    have index : (set.items n).length = names.length := by simp [indexed.items]
    simp only [addBySize, index]
    rw [lookup_addMatches, indexed.lists gram length, postings_append]
    congr 1
    subst length
    simp only [occurrences, List.count_eq_zero]
    split_ifs <;> rfl

theorem indexedAt_addBySize_of_ne {m n : ℕ} (other : m ≠ n) {names : List (List Char)}
    {set : FuzzySet} (indexed : IndexedAt e m names set) (value : List Char) :
    IndexedAt e m names (addBySize e set value n) := by
  constructor
  · simp [addBySize, Function.update_of_ne other, indexed.items]
  · intro gram length
    have outside : gram ∉ iterateGrams e (e.toLowerCase value) n := by
      intro inside
      exact other (length.symm.trans (length_of_mem_iterateGrams inside))
    simp only [addBySize]
    rw [lookup_addMatches, if_neg outside, List.append_nil, indexed.lists gram length]

structure Indexed (e : Engine) (arr names : List (List Char)) (set : FuzzySet) : Prop where
  lower : IndexedAt e gramSizeLower names set
  upper : IndexedAt e gramSizeUpper names set
  nodup : names.Nodup
  mem : ∀ name, name ∈ names ↔ name ∉ inherited ∧ ∃ value ∈ arr, e.toLowerCase value = name
  exact : ∀ key, set.exactSet.lookup key =
    if key ∈ inherited then none else arr.find? fun value => e.toLowerCase value = key

theorem Indexed.mem_exactSet {arr names : List (List Char)} {set : FuzzySet}
    (indexed : Indexed e arr names set) (key : List Char) : key ∈ set.exactSet ↔ key ∈ names := by
  rw [← AList.lookup_isSome, indexed.exact, indexed.mem]
  by_cases special : key ∈ inherited
  · simp [special]
  · simp [special, List.find?_isSome]

theorem indexed_empty : Indexed e [] [] .empty where
  lower := ⟨rfl, fun _ _ => rfl⟩
  upper := ⟨rfl, fun _ _ => rfl⟩
  nodup := List.nodup_nil
  mem := by simp
  exact := by simp [FuzzySet.empty]

section Add
variable {arr names : List (List Char)} {set : FuzzySet} (indexed : Indexed e arr names set)
include indexed

/-- Nothing is stored: the name is known already, or the object has such a property. -/
theorem Indexed.known {value : List Char}
    (known : e.toLowerCase value ∈ names ∨ e.toLowerCase value ∈ inherited) :
    Indexed e (arr ++ [value]) names set := by
  refine ⟨indexed.lower, indexed.upper, indexed.nodup, fun name => ?_, fun key => ?_⟩
  · rw [indexed.mem]
    constructor
    · rintro ⟨plain, other, inside, same⟩
      exact ⟨plain, other, List.mem_append_left _ inside, same⟩
    · rintro ⟨plain, other, inside, same⟩
      rcases List.mem_append.mp inside with before | last
      · exact ⟨plain, other, before, same⟩
      · rw [List.mem_singleton.mp last] at same
        subst same
        exact (indexed.mem _).mp (known.resolve_right plain)
  · rw [indexed.exact]
    by_cases special : key ∈ inherited
    · simp [special]
    · rw [if_neg special, if_neg special, List.find?_append]
      by_cases here : e.toLowerCase value = key
      · subst here
        obtain ⟨_, other, inside, same⟩ := (indexed.mem _).mp (known.resolve_right special)
        have found : (arr.find? fun v => e.toLowerCase v = e.toLowerCase value).isSome := by
          rw [List.find?_isSome]
          exact ⟨other, inside, by simpa using same⟩
        rw [Option.or_of_isSome found]
      · simp [here]

theorem Indexed.fresh {value : List Char} (fresh : e.toLowerCase value ∉ names)
    (plain : e.toLowerCase value ∉ inherited) :
    Indexed e (arr ++ [value]) (names ++ [e.toLowerCase value])
      (addBySize e (addBySize e set value gramSizeLower) value gramSizeUpper) := by
  constructor
  · exact indexedAt_addBySize_of_ne (by decide) (indexedAt_addBySize indexed.lower value) value
  · exact indexedAt_addBySize (indexedAt_addBySize_of_ne (by decide) indexed.upper value) value
  · refine List.nodup_append.mpr ⟨indexed.nodup, List.nodup_singleton _, ?_⟩
    intro name inside other last
    rw [List.mem_singleton] at last
    subst last
    exact fun same => fresh (same ▸ inside)
  · intro name
    rw [List.mem_append, indexed.mem, List.mem_singleton]
    constructor
    · rintro (⟨other, v, inside, same⟩ | rfl)
      · exact ⟨other, v, List.mem_append_left _ inside, same⟩
      · exact ⟨plain, value, List.mem_append_right _ (List.mem_singleton_self _), rfl⟩
    · rintro ⟨other, v, inside, same⟩
      rcases List.mem_append.mp inside with before | last
      · exact Or.inl ⟨other, v, before, same⟩
      · rw [List.mem_singleton.mp last] at same
        exact Or.inr same.symm
  · intro key
    simp only [addBySize, AList.insert_insert]
    by_cases here : key = e.toLowerCase value
    · subst here
      have absent : (arr.find? fun v => e.toLowerCase v = e.toLowerCase value) = none := by
        rw [List.find?_eq_none]
        intro v inside same
        exact fresh ((indexed.mem _).mpr ⟨plain, v, inside, by simpa using same⟩)
      rw [AList.lookup_insert, if_neg plain, List.find?_append, absent]
      simp
    · rw [AList.lookup_insert_ne here, indexed.exact, List.find?_append]
      simp [Ne.symm here]

theorem indexed_add (value : List Char) :
    ∃ names, Indexed e (arr ++ [value]) names (add e set value) := by
  unfold add
  by_cases known : e.toLowerCase value ∈ set.exactSet ∨ e.toLowerCase value ∈ inherited
  · rw [if_pos known]
    rw [indexed.mem_exactSet] at known
    exact ⟨names, indexed.known known⟩
  · rw [if_neg known]
    rw [indexed.mem_exactSet, not_or] at known
    exact ⟨_, indexed.fresh known.1 known.2⟩

end Add

theorem indexed_ofArray (arr : List (List Char)) :
    ∃ names, Indexed e arr names (ofArray e arr) := by
  induction arr using List.reverseRecOn with
  | nil => exact ⟨[], indexed_empty⟩
  | append_singleton arr value ih =>
      obtain ⟨names, indexed⟩ := ih
      rw [ofArray, List.foldl_append]
      exact indexed_add indexed value

/-! ## Scores of a search -/

def dot (e : Engine) (n : ℕ) (query name : List Char) : ℕ :=
  ((iterateGrams e query n).map (occurrences e name)).sum

theorem dot_eq_zero {n : ℕ} {query name : List Char} :
    dot e n query name = 0 ↔ ∀ gram ∈ iterateGrams e query n, gram ∉ iterateGrams e name n := by
  rw [dot, List.sum_eq_zero_iff_forall_eq_nat]
  simp only [List.mem_map, forall_exists_index, and_imp, forall_apply_eq_imp_iff₂]
  constructor
  · intro none gram inside
    have zero := none gram inside
    rwa [occurrences, length_of_mem_iterateGrams inside, List.count_eq_zero] at zero
  · intro apart gram inside
    rw [occurrences, length_of_mem_iterateGrams inside, List.count_eq_zero]
    exact apart gram inside

/-- The two loops of `__get` as one over all pairs of a gram and an item. -/
theorem matchScores_eq (set : FuzzySet) (gramCounts : Obj (List Char) ℕ) :
    matchScores set gramCounts =
      (gramCounts.keys.flatMap fun gram => ((set.matchDict.lookup gram).getD []).map fun m =>
        (m.1, (gramCounts.lookup gram).getD 0 * m.2)).foldl
        (fun scores m => scores.insert m.1 ((scores.lookup m.1).getD 0 + m.2)) ∅ := by
  simp only [matchScores, List.foldl_flatMap, List.foldl_map]

/-- What a gram of the query adds to the score of the item at `i`. -/
def gramPart (e : Engine) (n : ℕ) (query name : List Char) (i : ℕ) (gram : List Char) :
    List (ℕ × ℕ) :=
  if occurrences e name gram = 0 then []
  else [(i, ((gramCounter e query n).lookup gram).getD 0 * occurrences e name gram)]

section Parts
variable {n : ℕ} {query name : List Char}

theorem sum_gramPart (i : ℕ) :
    (((gramCounter e query n).keys.flatMap (gramPart e n query name i)).map Prod.snd).sum =
      dot e n query name := by
  rw [dot, ← sum_gramCounter, List.map_flatMap]
  induction (gramCounter e query n).keys with
  | nil => rfl
  | cons gram keys ih =>
      rw [List.flatMap_cons, List.sum_append, ih, List.map_cons, List.sum_cons, gramPart]
      split_ifs with none
      · simp [none]
      · simp

theorem gramPart_eq_nil (i : ℕ) :
    (gramCounter e query n).keys.flatMap (gramPart e n query name i) = [] ↔
      dot e n query name = 0 := by
  rw [List.flatMap_eq_nil_iff, dot_eq_zero]
  simp only [mem_keys_gramCounter]
  apply forall₂_congr
  intro gram inside
  rw [← List.count_eq_zero, ← length_of_mem_iterateGrams inside]
  change _ ↔ occurrences e name gram = 0
  rw [gramPart]
  split_ifs with none
  · simp [none]
  · simp [none]

end Parts

theorem lookup_matchScores {n : ℕ} {names : List (List Char)} {set : FuzzySet}
    (indexed : IndexedAt e n names set) (query : List Char) (i : ℕ) :
    (matchScores set (gramCounter e query n)).lookup i =
      names[i]?.bind fun name =>
        if dot e n query name = 0 then none else some (dot e n query name) := by
  rw [matchScores_eq, lookup_foldl_add Prod.fst Prod.snd, List.filter_flatMap]
  have part : ∀ gram ∈ (gramCounter e query n).keys,
      (((set.matchDict.lookup gram).getD []).map fun m =>
        (m.1, ((gramCounter e query n).lookup gram).getD 0 * m.2)).filter (fun m => m.1 = i) =
      match names[i]? with
      | none => []
      | some name => gramPart e n query name i gram := by
    intro gram key
    have length := length_of_mem_iterateGrams (mem_keys_gramCounter.mp key)
    rw [List.filter_map, indexed.lists gram length]
    have filtered := filter_postings (e := e) names gram i
    simp only [Function.comp_def]
    rw [filtered]
    cases names[i]? with
    | none => rfl
    | some name =>
        simp only [gramPart]
        split_ifs
        · rfl
        · rfl
  rw [List.flatMap_congr part]
  cases names[i]? with
  | none => simp
  | some name => simp only [Option.bind_some, sum_gramPart, gramPart_eq_nil]

end Phonograph.Client.Fuzzy
