import Mathlib
import Phonograph.Client.FuzzyIndex

/-! # What a search in a fuzzy set finds

A string that was added is found with the score 1.  Any other is compared with the
names that share a gram of three characters with it, or of two if there is none:
the fifty most similar are kept, and of these the ones with the best score are
returned (`get_spec`). -/

set_option autoImplicit false

namespace Phonograph.Client.Fuzzy

open Phonograph.Lib Phonograph.Client.Js Phonograph.Client.Levenshtein

/-! ## Scores -/

def score (query name : List Char) : ℚ :=
  double (1 - double (editDistance name query / (max name.length query.length : ℕ)))

theorem distance_eq {name query : List Char} (pos : 0 < max name.length query.length) :
    distance name query = some (score query name) := by
  have longest : max name.length query.length =
      if name.length > query.length then name.length else query.length := by
    split_ifs <;> omega
  have quotients : ∀ n, n = max name.length query.length →
      quotient (editDistance name query) n =
        some (double (editDistance name query / (max name.length query.length : ℕ))) := by
    rintro n rfl
    rw [quotient, if_neg (by omega)]
  unfold distance
  rw [levenshtein_eq]
  simp only [Option.bind_eq_bind, Option.bind_some]
  split_ifs at longest ⊢ with longer
  · rw [quotients _ longest.symm]
    rfl
  · rw [quotients _ longest.symm]
    rfl

theorem distance_nil : distance [] [] = none := by
  rw [distance, levenshtein_eq]
  rfl

section
variable (e : Engine) (n : ℕ) (arr : List (List Char)) (query : List Char)

/-- `matchScore / (vectorNormal * items[matchIndex][0])`. -/
def cosine (name : List Char) : ℚ :=
  e.similarity (dot e n query name) (squares (gramCounter e query n)) (squares (gramCounter e name n))

/-- The names of the set: inherited ones cannot be added. -/
def namesOf : List (List Char) := ((arr.map e.toLowerCase).filter (· ∉ inherited)).dedup

def candidates : List (List Char) := (namesOf e arr).filter fun name => dot e n query name ≠ 0

/-- A candidate is returned if it is among the fifty most similar ones and no other
of these has a better score.  The order of the results is left open. -/
def Answers (results : Results) : Prop :=
  ∃ kept dropped : List (List Char), (kept ++ dropped).Perm (candidates e n arr query) ∧
    kept.length = min 50 (candidates e n arr query).length ∧
    (∀ name ∈ kept, ∀ other ∈ dropped, cosine e n query other ≤ cosine e n query name) ∧
    results.Perm ((kept.filter fun name => ∀ other ∈ kept, score query other ≤ score query name).map
      fun name => (some (score query name), (ofArray e arr).property name))

end

variable {e : Engine} {n : ℕ} {arr names : List (List Char)}

theorem mem_namesOf {name : List Char} :
    name ∈ namesOf e arr ↔ name ∉ inherited ∧ ∃ value ∈ arr, e.toLowerCase value = name := by
  simp [namesOf, and_comm]

theorem Indexed.perm_namesOf {set : FuzzySet} (indexed : Indexed e arr names set) :
    names.Perm (namesOf e arr) := by
  have distinct : (namesOf e arr).Nodup := List.nodup_dedup _
  rw [List.perm_ext_iff_of_nodup indexed.nodup distinct]
  intro name
  rw [indexed.mem, mem_namesOf]

/-! ## One size of grams -/

theorem mem_keys_matchScores {set : FuzzySet} (indexed : IndexedAt e n names set)
    (query : List Char) (i : ℕ) :
    i ∈ (matchScores set (gramCounter e query n)).keys ↔
      ∃ name, names[i]? = some name ∧ dot e n query name ≠ 0 := by
  rw [← AList.mem_keys, ← AList.lookup_isSome, lookup_matchScores indexed]
  cases names[i]? with
  | none => simp
  | some name => by_cases zero : dot e n query name = 0 <;> simp [zero]

theorem perm_candidates {set : FuzzySet} (indexed : IndexedAt e n names set) (nodup : names.Nodup)
    (query : List Char) {keys : List ℕ}
    (perm : keys.Perm (matchScores set (gramCounter e query n)).keys) :
    (keys.filterMap fun i => names[i]?).Perm (names.filter fun name => dot e n query name ≠ 0) := by
  have scored : ∀ i, i ∈ keys ↔ ∃ name, names[i]? = some name ∧ dot e n query name ≠ 0 :=
    fun i => perm.mem_iff.trans (mem_keys_matchScores indexed query i)
  rw [List.perm_ext_iff_of_nodup _ (nodup.filter _)]
  · intro name
    simp only [List.mem_filterMap, List.mem_filter, decide_eq_true_eq]
    constructor
    · rintro ⟨i, inside, here⟩
      obtain ⟨other, there, some⟩ := (scored i).mp inside
      obtain rfl : other = name := Option.some.inj (there.symm.trans here)
      exact ⟨List.mem_of_getElem? here, some⟩
    · rintro ⟨inside, some⟩
      obtain ⟨i, here⟩ := List.mem_iff_getElem?.mp inside
      exact ⟨i, (scored i).mpr ⟨name, here, some⟩, here⟩
  · apply List.Nodup.filterMap _ (perm.nodup_iff.mpr (AList.keys_nodup _))
    intro i j name first second
    obtain ⟨bound, _⟩ := List.getElem?_eq_some_iff.mp first
    exact (List.getElem?_inj bound nodup).mp (first.trans second.symm)

theorem mapM_scoredItem {set : FuzzySet} (indexed : IndexedAt e n names set) (query : List Char)
    (keys : List ℕ)
    (inside : ∀ i ∈ keys, i ∈ (matchScores set (gramCounter e query n)).keys) :
    keys.mapM (scoredItem e (set.items n) (matchScores set (gramCounter e query n))
      (squares (gramCounter e query n))) =
      .ok ((keys.filterMap fun i => names[i]?).map fun name =>
        (some (cosine e n query name), name)) := by
  induction keys with
  | nil => rfl
  | cons i keys ih =>
      obtain ⟨name, here, shares⟩ := (mem_keys_matchScores indexed query i).mp
        (inside i List.mem_cons_self)
      have value : ((matchScores set (gramCounter e query n)).lookup i).getD 0 = dot e n query name := by
        rw [lookup_matchScores indexed, here]
        simp [shares]
      have item : scoredItem e (set.items n) (matchScores set (gramCounter e query n))
          (squares (gramCounter e query n)) i = .ok (some (cosine e n query name), name) := by
        rw [scoredItem, indexed.items, List.getElem?_map, here]
        simp only [Option.map_some, value]
        rfl
      rw [List.mapM_cons, item, ih (fun j later => inside j (List.mem_cons_of_mem i later)),
        List.filterMap_cons, here]
      rfl

/-- Sorting puts the greatest number first, and what has that number is kept. -/
theorem bestOf_perm (set : FuzzySet) (value : List Char → ℚ) (kept : List (List Char))
    (sorted : List Scored) (perm : sorted.Perm (kept.map fun name => (some (value name), name)))
    (descending : sorted.Pairwise fun a b => ∀ x ∈ a.1, ∀ y ∈ b.1, y ≤ x) :
    (bestOf set sorted).Perm
      ((kept.filter fun name => ∀ other ∈ kept, value other ≤ value name).map
        fun name => (some (value name), set.property name)) := by
  cases sorted with
  | nil =>
      have none : kept = [] := by simpa using perm.symm
      subst none
      exact List.Perm.refl _
  | cons first rest =>
      have member : first ∈ kept.map fun name => (some (value name), name) :=
        perm.mem_iff.mp List.mem_cons_self
      obtain ⟨best, inside, rfl⟩ := List.mem_map.mp member
      have greatest : ∀ name ∈ kept, value name ≤ value best := by
        intro name among
        have listed : (some (value name), name) ∈ ((some (value best), best) : Scored) :: rest :=
          perm.mem_iff.mpr (List.mem_map.mpr ⟨name, among, rfl⟩)
        rcases List.mem_cons.mp listed with same | later
        · rw [Prod.mk.injEq, Option.some_inj] at same
          exact same.1.le
        · exact (List.pairwise_cons.mp descending).1 _ later _ rfl _ rfl
      have chosen : ∀ name ∈ kept, (∀ other ∈ kept, value other ≤ value name) ↔
          value name = value best := by
        intro name among
        constructor
        · intro least
          exact le_antisymm (greatest name among) (least best inside)
        · intro same other among
          rw [same]
          exact greatest other among
      unfold bestOf
      apply ((perm.filter _).map _).trans
      rw [List.filter_map, List.map_map]
      apply List.Perm.of_eq
      congr 1
      apply List.filter_congr
      intro name among
      simp only [chosen name among]
      simp [numEq, beq_eq_decide]

theorem take_sorted {query : List Char} {found : List (List Char)}
    (perm : found.Perm (candidates e n arr query)) :
    let sorted := e.sort (found.map fun name => (some (cosine e n query name), name))
    let kept := (sorted.take 50).map Prod.snd
    let dropped := (sorted.drop 50).map Prod.snd
    (kept ++ dropped).Perm (candidates e n arr query) ∧
      kept.length = min 50 (candidates e n arr query).length ∧
      ∀ name ∈ kept, ∀ other ∈ dropped, cosine e n query other ≤ cosine e n query name := by
  intro sorted kept dropped
  have shuffled : sorted.Perm (found.map fun name => (some (cosine e n query name), name)) :=
    e.sort_perm _
  have names : (sorted.map Prod.snd).Perm (candidates e n arr query) := by
    apply (shuffled.map Prod.snd).trans
    rw [List.map_map]
    simpa [Function.comp_def] using perm
  have scored : ∀ r ∈ sorted, r.1 = some (cosine e n query r.2) := by
    intro r inside
    obtain ⟨name, _, rfl⟩ := List.mem_map.mp (shuffled.mem_iff.mp inside)
    rfl
  refine ⟨?_, ?_, ?_⟩
  · rw [← List.map_append, List.take_append_drop]
    exact names
  · rw [List.length_map, List.length_take, ← names.length_eq, List.length_map]
  · have descending := e.sort_descending (found.map fun name => (some (cosine e n query name), name))
      (by simp)
    change sorted.Pairwise _ at descending
    rw [← List.take_append_drop 50 sorted, List.pairwise_append] at descending
    rintro _ member _ later
    obtain ⟨r, inside, rfl⟩ := List.mem_map.mp member
    obtain ⟨r', after, rfl⟩ := List.mem_map.mp later
    have first := scored r (List.mem_of_mem_take inside)
    have second := scored r' (List.mem_of_mem_drop after)
    exact descending.2.2 r inside r' after _ (by rw [first]; rfl) _ (by rw [second]; rfl)

theorem pos_of_mem_candidates {value name : List Char} (nonempty : value ≠ [] ∨ [] ∉ arr)
    (inside : name ∈ candidates e n arr (e.toLowerCase value)) :
    0 < max name.length (e.toLowerCase value).length := by
  rcases nonempty with query | stored
  · have pos : 0 < (e.toLowerCase value).length := by
      rw [List.length_pos_iff, Ne, e.toLowerCase_eq_nil]
      exact query
    omega
  · obtain ⟨_, other, among, rfl⟩ := mem_namesOf.mp (List.mem_filter.mp inside).1
    have pos : 0 < (e.toLowerCase other).length := by
      rw [List.length_pos_iff, Ne, e.toLowerCase_eq_nil]
      rintro rfl
      exact stored among
    omega

/-- The search for one size: `null` without candidates, and otherwise the best of those
that are kept. -/
theorem getBySize_kept (indexed : IndexedAt e n names (ofArray e arr))
    (same : names.Perm (namesOf e arr)) (value : List Char) :
    (candidates e n arr (e.toLowerCase value) = [] ∧
      getBySize e (ofArray e arr) value n = .ok none) ∨
    (candidates e n arr (e.toLowerCase value) ≠ [] ∧ ∃ kept dropped : List (List Char),
      (kept ++ dropped).Perm (candidates e n arr (e.toLowerCase value)) ∧
      kept.length = min 50 (candidates e n arr (e.toLowerCase value)).length ∧
      (∀ name ∈ kept, ∀ other ∈ dropped,
        cosine e n (e.toLowerCase value) other ≤ cosine e n (e.toLowerCase value) name) ∧
      getBySize e (ofArray e arr) value n = .ok (some (bestOf (ofArray e arr)
        (e.sort (kept.map fun name => (distance name (e.toLowerCase value), name)))))) := by
  set query := e.toLowerCase value with lower
  have nodup : names.Nodup := same.nodup_iff.mpr (List.nodup_dedup _)
  have whole : (names.filter fun name => dot e n query name ≠ 0).Perm (candidates e n arr query) :=
    same.filter _
  set scores := matchScores (ofArray e arr) (gramCounter e query n) with matched
  by_cases empty : candidates e n arr query = []
  · left
    rw [empty] at whole
    have none : scores.keys = [] := by
      rw [List.eq_nil_iff_forall_not_mem]
      intro i inside
      obtain ⟨name, here, shares⟩ := (mem_keys_matchScores indexed query i).mp inside
      have member : name ∈ names.filter fun name => dot e n query name ≠ 0 :=
        List.mem_filter.mpr ⟨List.mem_of_getElem? here, by simpa using shares⟩
      rw [whole.eq_nil] at member
      exact absurd member List.not_mem_nil
    constructor
    · exact empty
    · simp only [getBySize, ← lower, ← matched, none]
      rfl
  · right
    have order : (scores.keys.insertionSort (· ≤ ·)).Perm scores.keys := List.perm_insertionSort _ _
    have found := (perm_candidates indexed nodup query order).trans whole
    have items := mapM_scoredItem indexed query (scores.keys.insertionSort (· ≤ ·))
      (fun i inside => order.mem_iff.mp inside)
    rw [← matched] at items
    have none : scores.keys ≠ [] := by
      intro none
      rw [none] at found
      exact empty found.symm.eq_nil
    obtain ⟨all, count, similar⟩ := take_sorted found
    refine ⟨empty, _, _, all, count, similar, ?_⟩
    rw [List.map_map]
    simp only [getBySize, ← lower, ← matched, if_neg none, items]
    rfl

theorem getBySize_spec (indexed : IndexedAt e n names (ofArray e arr))
    (same : names.Perm (namesOf e arr)) {value : List Char} (nonempty : value ≠ [] ∨ [] ∉ arr) :
    (candidates e n arr (e.toLowerCase value) = [] ∧
      getBySize e (ofArray e arr) value n = .ok none) ∨
    ∃ results, candidates e n arr (e.toLowerCase value) ≠ [] ∧
      getBySize e (ofArray e arr) value n = .ok (some results) ∧
      Answers e n arr (e.toLowerCase value) results := by
  rcases getBySize_kept indexed same value with none | ⟨near, kept, dropped, all, count, similar, searched⟩
  · exact Or.inl none
  · right
    set query := e.toLowerCase value
    have scored : (kept.map fun name => (distance name query, name)) =
        kept.map fun name => (some (score query name), name) := by
      apply List.map_congr_left
      intro name inside
      -- Not both strings are empty, so no score is `NaN`.
      have candidate : name ∈ candidates e n arr query :=
        all.mem_iff.mp (List.mem_append_left _ inside)
      rw [distance_eq (pos_of_mem_candidates nonempty candidate)]
    have finite := e.sort_descending (kept.map fun name => (some (score query name), name)) (by simp)
    refine ⟨_, near, searched, kept, dropped, all, count, similar, ?_⟩
    rw [scored]
    exact bestOf_perm (ofArray e arr) (score query) _ _ (e.sort_perm _) finite

/-! ## Searches -/

theorem property_ofArray (arr : List (List Char)) (key : List Char) :
    (ofArray e arr).property key =
      if key ∈ inherited then some (.inherited key)
      else (arr.find? fun value => e.toLowerCase value = key).map .text := by
  obtain ⟨names, indexed⟩ := indexed_ofArray (e := e) arr
  rw [FuzzySet.property, indexed.exact]
  by_cases special : key ∈ inherited
  · simp [special]
  · simp only [special, if_false]
    cases arr.find? fun value => e.toLowerCase value = key <;> rfl

def firstAdded (e : Engine) (arr : List (List Char)) (query : List Char) : Option (List Char) :=
  arr.find? fun value => e.toLowerCase value = query

theorem firstAdded_eq_some {query value : List Char} (found : firstAdded e arr query = some value) :
    value ∈ arr ∧ e.toLowerCase value = query :=
  ⟨List.mem_of_find?_eq_some found, by simpa using List.find?_some found⟩

theorem firstAdded_eq_none {query : List Char} :
    firstAdded e arr query = none ↔ ∀ value ∈ arr, e.toLowerCase value ≠ query := by
  simp [firstAdded]

/-- What `get` returns for a string: an inherited property, the string first added
under the same name, the answers of the larger grams or else of the smaller ones, or
`null`. -/
inductive Searched (e : Engine) (arr : List (List Char)) (query : List Char) :
    Except JsErr (Option Results) → Prop where
  | inherited (special : query ∈ inherited) :
      Searched e arr query (.ok (some [(some 1, some (.inherited query))]))
  | added (plain : query ∉ Fuzzy.inherited) (value : List Char)
      (found : firstAdded e arr query = some value) :
      Searched e arr query (.ok (some [(some 1, some (.text value))]))
  | upper (plain : query ∉ Fuzzy.inherited) (fresh : firstAdded e arr query = none)
      (near : candidates e gramSizeUpper arr query ≠ []) (results : Results)
      (answers : Answers e gramSizeUpper arr query results) :
      Searched e arr query (.ok (some results))
  | lower (plain : query ∉ Fuzzy.inherited) (fresh : firstAdded e arr query = none)
      (far : candidates e gramSizeUpper arr query = [])
      (near : candidates e gramSizeLower arr query ≠ []) (results : Results)
      (answers : Answers e gramSizeLower arr query results) :
      Searched e arr query (.ok (some results))
  | nothing (plain : query ∉ Fuzzy.inherited) (fresh : firstAdded e arr query = none)
      (far : candidates e gramSizeLower arr query = []) :
      Searched e arr query (.ok none)

theorem get_spec (arr : List (List Char)) {value : List Char}
    (nonempty : value ≠ [] ∨ [] ∉ arr) :
    Searched e arr (e.toLowerCase value) (get e (ofArray e arr) value) := by
  unfold get
  by_cases special : e.toLowerCase value ∈ inherited
  · rw [property_ofArray, if_pos special]
    exact .inherited special
  have property : (ofArray e arr).property (e.toLowerCase value) =
      (firstAdded e arr (e.toLowerCase value)).map .text := by
    rw [property_ofArray, if_neg special]
    rfl
  rw [property]
  cases found : firstAdded e arr (e.toLowerCase value) with
  | some other =>
      obtain ⟨inside, same⟩ := firstAdded_eq_some found
      have truthy : (Stored.text other).truthy = true := by
        simp only [Stored.truthy, decide_eq_true_eq]
        rintro rfl
        rcases nonempty with query | stored
        · apply query
          rw [← e.toLowerCase_eq_nil, ← same, e.toLowerCase_eq_nil]
        · exact stored inside
      simp only [Option.map_some, Option.filter_some, truthy, if_true]
      exact .added special other found
  | none =>
      obtain ⟨names, indexed⟩ := indexed_ofArray (e := e) arr
      have upper := getBySize_spec indexed.upper indexed.perm_namesOf nonempty
      have lower := getBySize_spec indexed.lower indexed.perm_namesOf nonempty
      simp only [Option.map_none, Option.filter_none]
      rcases upper with ⟨far, searched⟩ | ⟨results, near, searched, answers⟩
      · rw [searched]
        rcases lower with ⟨none, searched⟩ | ⟨results, near, searched, answers⟩
        · change Searched e arr _ (getBySize e (ofArray e arr) value gramSizeLower)
          rw [searched]
          exact .nothing special found none
        · change Searched e arr _ (getBySize e (ofArray e arr) value gramSizeLower)
          rw [searched]
          exact .lower special found far near results answers
      · rw [searched]
        exact .upper special found near results answers

/-! ## Pieces of pieces -/

theorem iterateGrams_shorter {value gram : List Char}
    (inside : gram ∈ iterateGrams e value (n + 1)) :
    gram.take n ∈ iterateGrams e value n := by
  simp only [iterateGrams, List.mem_map, List.mem_range] at inside ⊢
  obtain ⟨i, bound, rfl⟩ := inside
  refine ⟨i, by omega, ?_⟩
  rw [List.take_take, min_eq_left (Nat.le_succ n)]

theorem dot_shorter {query name : List Char} (shares : dot e (n + 1) query name ≠ 0) :
    dot e n query name ≠ 0 := by
  rw [Ne, dot_eq_zero] at shares ⊢
  push Not at shares ⊢
  obtain ⟨gram, first, second⟩ := shares
  exact ⟨gram.take n, iterateGrams_shorter first, iterateGrams_shorter second⟩

theorem candidates_lower_of_upper {query : List Char}
    (some : candidates e gramSizeUpper arr query ≠ []) :
    candidates e gramSizeLower arr query ≠ [] := by
  obtain ⟨name, inside⟩ := List.exists_mem_of_ne_nil _ some
  rw [candidates, List.mem_filter] at inside
  have shares : dot e gramSizeLower query name ≠ 0 := dot_shorter (of_decide_eq_true inside.2)
  exact List.ne_nil_of_mem (List.mem_filter.mpr ⟨inside.1, decide_eq_true shares⟩)

/-- No answer is an empty list: the best of the candidates that are kept is one. -/
theorem Answers.ne_nil {query : List Char} {results : Results}
    (answers : Answers e n arr query results) (some : candidates e n arr query ≠ []) :
    results ≠ [] := by
  obtain ⟨kept, dropped, _, length, _, best⟩ := answers
  have pos : 0 < (candidates e n arr query).length := List.length_pos_iff.mpr some
  have nonempty : kept ≠ [] := by
    rintro rfl
    simp at length
    omega
  obtain ⟨name, inside, greatest⟩ :
    ∃ name ∈ kept, ∀ other ∈ kept, score query other ≤ score query name := by
    obtain ⟨name, inside, greatest⟩ := Finset.exists_max_image kept.toFinset (score query)
      (by simpa using nonempty)
    exact ⟨name, List.mem_toFinset.mp inside, fun other among =>
      greatest other (List.mem_toFinset.mpr among)⟩
  rintro rfl
  have empty := best.symm.eq_nil
  rw [List.map_eq_nil_iff, List.filter_eq_nil_iff] at empty
  exact empty name inside (by simpa using greatest)

theorem candidates_eq_nil {query : List Char} : candidates e n arr query = [] ↔
    ∀ name ∈ namesOf e arr, ∀ gram ∈ iterateGrams e query n, gram ∉ iterateGrams e name n := by
  rw [candidates, List.filter_eq_nil_iff]
  apply forall₂_congr
  intro name _
  rw [← dot_eq_zero]
  simp

/-- Nothing is found if the string is not in the set and shares no two characters with
a name of the set. -/
theorem Searched.eq_none_iff {query : List Char} {result : Except JsErr (Option Results)}
    (searched : Searched e arr query result) : result = .ok none ↔
      query ∉ Fuzzy.inherited ∧ query ∉ namesOf e arr ∧
        candidates e gramSizeLower arr query = [] := by
  rw [mem_namesOf]
  cases searched with
  | inherited special => simp [special]
  | added plain value found =>
      obtain ⟨inside, same⟩ := firstAdded_eq_some found
      constructor
      · intro none
        simp at none
      · rintro ⟨_, fresh, _⟩
        exact absurd ⟨plain, value, inside, same⟩ fresh
  | upper plain fresh near results answers => simp [candidates_lower_of_upper near]
  | lower plain fresh far near results answers => simp [near]
  | nothing plain fresh far =>
      rw [firstAdded_eq_none] at fresh
      simp only [true_iff]
      refine ⟨plain, ?_, far⟩
      rintro ⟨_, value, inside, same⟩
      exact fresh value inside same

theorem Searched.ne_nil {query : List Char} {results : Results}
    (searched : Searched e arr query (.ok (some results))) : results ≠ [] := by
  cases searched with
  | inherited special => simp
  | added plain value found => simp
  | upper plain fresh near results answers => exact answers.ne_nil near
  | lower plain fresh far near results answers => exact answers.ne_nil near

theorem Searched.of_mem {value : List Char} {result : Except JsErr (Option Results)}
    (searched : Searched e arr (e.toLowerCase value) result) (inside : value ∈ arr)
    (plain : e.toLowerCase value ∉ Fuzzy.inherited) :
    ∃ first ∈ arr, e.toLowerCase first = e.toLowerCase value ∧
      result = .ok (some [(some 1, some (.text first))]) := by
  have known : firstAdded e arr (e.toLowerCase value) ≠ none := by
    rw [Ne, firstAdded_eq_none]
    exact fun fresh => fresh value inside rfl
  cases searched with
  | inherited special => exact absurd special plain
  | added plain first found =>
      obtain ⟨among, same⟩ := firstAdded_eq_some found
      exact ⟨first, among, same, rfl⟩
  | upper _ fresh => exact absurd fresh known
  | lower _ fresh => exact absurd fresh known
  | nothing _ fresh => exact absurd fresh known

/-- An engine for strings of ASCII letters whose grams are as many as a square number. -/
def asciiEngine : Engine where
  toLowerCase s := s.map Char.toLower
  similarity matchScore own other := matchScore / (Nat.sqrt own * Nat.sqrt other : ℕ)
  sort results := results.insertionSort fun a b => b.1.getD 0 ≤ a.1.getD 0
  toLowerCase_eq_nil := by simp
  sort_perm := List.perm_insertionSort _
  sort_descending results finite := by
    have total : Std.Total fun a b : Scored => b.1.getD 0 ≤ a.1.getD 0 := ⟨fun a b => le_total _ _⟩
    have trans : IsTrans Scored fun a b => b.1.getD 0 ≤ a.1.getD 0 :=
      ⟨fun a b c first second => le_trans second first⟩
    apply (List.pairwise_insertionSort _ results).imp
    intro a b le x left y right
    rw [Option.mem_def] at left right
    simpa [left, right] using le

end Phonograph.Client.Fuzzy
