import Mathlib
import Phonograph.Client.FuzzySearch
import Phonograph.Client.TrackNames

/-! # The score of a video

`calculateScore` puts the title of a video into a fuzzy set of its own and looks for
the name of the track.  A video is taken for a score above 0.3, which is computed in
floating point; `accepts_iff` says for which names that is. -/

set_option autoImplicit false

namespace Phonograph.Client.Fuzzy

open Phonograph.Lib Phonograph.Client.Js Phonograph.Client.Levenshtein Phonograph.Client.Lookups

variable {e : Engine}

/-! ## The threshold

The double next to 7/10 is below it, so that one less it is above 0.3; the next one
is at 0.3 or below.  A quotient of lengths of strings is 7/10 or differs from it by
more than the distance to the middle of the two. -/

def belowSevenTenths : ℚ := 6305039478318694 / 2 ^ 53

def aboveSevenTenths : ℚ := 6305039478318695 / 2 ^ 53

theorem double_sevenTenths : double (7 / 10) = belowSevenTenths := by decide +kernel

theorem double_one : double 1 = 1 := by decide +kernel

theorem double_one_sub_below : double (1 - belowSevenTenths) = 1 - belowSevenTenths := by
  decide +kernel

theorem double_one_sub_above : double (1 - aboveSevenTenths) = 1 - aboveSevenTenths := by
  decide +kernel

theorem threshold_between : 1 - aboveSevenTenths ≤ threshold ∧
    threshold < 1 - belowSevenTenths := by
  norm_num [threshold, aboveSevenTenths, belowSevenTenths]

theorem double_le_one {x : ℚ} (nonneg : 0 ≤ x) (le : x ≤ 1) : double x ≤ 1 := by
  have bound := double_mono nonneg le
  rwa [double_one] at bound

/-- What is above the middle of the two doubles is rounded up. -/
theorem aboveSevenTenths_le {x : ℚ} (above : 7 / 10 + 1 / (10 * 2 ^ 53) < x) (le : x ≤ 1) :
    aboveSevenTenths ≤ double x := by
  rcases le.eq_or_lt with rfl | less
  · rw [double_one]
    norm_num [aboveSevenTenths]
  · rw [double_between (-1) (by norm_num; linarith) (by norm_num; exact less)]
    have scaled : ((6305039478318694 : ℤ) : ℚ) + 1 / 2 < x / 2 ^ (-1 - 52 : ℤ) := by
      rw [lt_div_iff₀ (two_zpow_pos _)]
      norm_num at above ⊢
      linarith
    have rounded : (6305039478318695 : ℚ) ≤ roundHalfEven (x / 2 ^ (-1 - 52 : ℤ)) := by
      exact_mod_cast lt_roundHalfEven scaled
    calc aboveSevenTenths = 6305039478318695 * 2 ^ (-1 - 52 : ℤ) := by norm_num [aboveSevenTenths]
      _ ≤ roundHalfEven (x / 2 ^ (-1 - 52 : ℤ)) * 2 ^ (-1 - 52 : ℤ) :=
          mul_le_mul_of_nonneg_right rounded (two_zpow_pos _).le

theorem threshold_lt_iff {d n : ℕ} (le : d ≤ n) (pos : 0 < n) (short : n < 2 ^ 53) :
    threshold < double (1 - double (d / n)) ↔ 10 * d ≤ 7 * n := by
  have positive : (0 : ℚ) < n := by exact_mod_cast pos
  have nonneg : (0 : ℚ) ≤ d / n := by positivity
  have atMost : (d : ℚ) / n ≤ 1 := (div_le_one positive).mpr (by exact_mod_cast le)
  have bound := double_le_one nonneg atMost
  constructor
  · intro accepted
    by_contra far
    have whole : 7 * n + 1 ≤ 10 * d := by omega
    have edits : (7 * n + 1 : ℚ) ≤ 10 * d := by exact_mod_cast whole
    have length : (n : ℚ) < 9007199254740992 := by exact_mod_cast short
    have above : (7 : ℚ) / 10 + 1 / (10 * 2 ^ 53) < d / n := by
      rw [lt_div_iff₀ positive]
      norm_num
      linarith
    have rounded := aboveSevenTenths_le above atMost
    have score : double (1 - double (d / n)) ≤ 1 - aboveSevenTenths := by
      rw [← double_one_sub_above]
      exact double_mono (by linarith) (by linarith)
    linarith [threshold_between.1]
  · intro near
    have quotient : (d : ℚ) / n ≤ 7 / 10 := by
      rw [div_le_div_iff₀ positive (by norm_num)]
      exact_mod_cast (by omega : d * 10 ≤ 7 * n)
    have rounded : double (d / n) ≤ belowSevenTenths := by
      rw [← double_sevenTenths]
      exact double_mono nonneg quotient
    have score : 1 - belowSevenTenths ≤ double (1 - double (d / n)) := by
      rw [← double_one_sub_below]
      exact double_mono (by norm_num [belowSevenTenths]) (by linarith)
    linarith [threshold_between.2]

/-! ## A set of one string -/

theorem score_self (query : List Char) : score query query = 1 := by
  simp [score, double_one]

/-- Every string has a gram of two characters, so it shares one with itself. -/
theorem dot_self_ne_zero (query : List Char) : dot e gramSizeLower query query ≠ 0 := by
  have gram : (simplified e query).take 2 ∈ iterateGrams e query gramSizeLower := by
    simp only [iterateGrams, List.mem_map, List.mem_range]
    exact ⟨0, by simp [simplified, gramSizeLower], rfl⟩
  rw [Ne, dot_eq_zero]
  exact fun apart => apart _ gram gram

theorem candidates_single (n : ℕ) (added query : List Char) :
    candidates e n [added] query =
      if e.toLowerCase added ∈ inherited ∨ dot e n query (e.toLowerCase added) = 0 then []
      else [e.toLowerCase added] := by
  by_cases special : e.toLowerCase added ∈ inherited
  · simp [candidates, namesOf, special]
  · by_cases apart : dot e n query (e.toLowerCase added) = 0
    · simp [candidates, namesOf, special, apart]
    · simp [candidates, namesOf, special, apart]

theorem eq_singleton_of_kept {kept dropped names : List (List Char)} {name : List Char}
    (only : names = [name]) (all : (kept ++ dropped).Perm names)
    (count : kept.length = min 50 names.length) : kept = [name] := by
  subst only
  obtain ⟨first, rfl⟩ := List.length_eq_one_iff.mp count
  have same : first = name := by simpa using all.mem_iff.mp (List.mem_append_left _ List.mem_cons_self)
  rw [same]

theorem Answers.single {n : ℕ} {added query : List Char} {results : Results}
    (answers : Answers e n [added] query results) (near : candidates e n [added] query ≠ []) :
    results = [(some (score query (e.toLowerCase added)), some (.text added))] := by
  obtain ⟨kept, dropped, all, count, _, best⟩ := answers
  have single := candidates_single (e := e) n added query
  split_ifs at single with far
  · exact absurd single near
  · rw [not_or] at far
    have only := eq_singleton_of_kept single all count
    subst only
    have property : (ofArray e [added]).property (e.toLowerCase added) = some (.text added) := by
      simp [property_ofArray, far.1]
    simpa [property] using best

theorem get_empty : get e (ofArray e [[]]) [] = .ok (some []) := by
  obtain ⟨names, indexed⟩ := indexed_ofArray (e := e) [[]]
  have nil : e.toLowerCase [] = [] := (e.toLowerCase_eq_nil []).mpr rfl
  have plain : ([] : List Char) ∉ inherited := by decide
  have property : ((ofArray e [[]]).property []).filter Stored.truthy = none := by
    rw [property_ofArray]
    simp [plain, nil, Stored.truthy]
  have upper : getBySize e (ofArray e [[]]) [] gramSizeUpper = .ok none := by
    rcases getBySize_kept indexed.upper indexed.perm_namesOf [] with ⟨_, searched⟩ | ⟨near, _⟩
    · exact searched
    · rw [nil, Ne, candidates_eq_nil] at near
      exact absurd (by simp [iterateGrams, simplified, nil, dropNonWord, gramSizeUpper]) near
  have lower : getBySize e (ofArray e [[]]) [] gramSizeLower = .ok (some []) := by
    rcases getBySize_kept indexed.lower indexed.perm_namesOf [] with
      ⟨far, _⟩ | ⟨_, kept, dropped, all, count, _, searched⟩
    · rw [candidates_single] at far
      simp [nil, plain, dot_self_ne_zero] at far
    · have single := candidates_single (e := e) gramSizeLower [] (e.toLowerCase [])
      rw [if_neg (by simp [nil, plain, dot_self_ne_zero])] at single
      have only := eq_singleton_of_kept single all count
      subst only
      have sorted : e.sort [(none, [])] = [(none, [])] := List.perm_singleton.mp (e.sort_perm _)
      rw [searched, nil]
      simp only [List.map_cons, List.map_nil, distance_nil, sorted]
      rfl
  rw [get, nil, property]
  simp only [upper]
  exact lower

theorem get_single (added text : List Char) :
    get e (ofArray e [added]) text =
      if e.toLowerCase text ∈ inherited then
        .ok (some [(some 1, some (.inherited (e.toLowerCase text)))])
      else if added = [] ∧ text = [] then .ok (some [])
      else if e.toLowerCase added ∈ inherited ∨
          dot e gramSizeLower (e.toLowerCase text) (e.toLowerCase added) = 0 then .ok none
      else .ok (some [(some (score (e.toLowerCase text) (e.toLowerCase added)), some (.text added))]) := by
  by_cases empty : added = [] ∧ text = []
  · obtain ⟨rfl, rfl⟩ := empty
    rw [get_empty, (e.toLowerCase_eq_nil []).mpr rfl, if_neg (by decide), if_pos ⟨rfl, rfl⟩]
  have nonempty : text ≠ [] ∨ [] ∉ [added] := by
    by_cases blank : text = []
    · right
      rw [List.mem_singleton]
      exact fun same => empty ⟨same.symm, blank⟩
    · exact Or.inl blank
  rw [if_neg empty]
  have searched := get_spec (e := e) [added] nonempty
  have single := fun n => candidates_single (e := e) n added (e.toLowerCase text)
  generalize get e (ofArray e [added]) text = result at searched
  cases searched with
  | inherited special => rw [if_pos special]
  | added plain value found =>
      obtain ⟨inside, same⟩ := firstAdded_eq_some found
      rw [List.mem_singleton] at inside
      subst inside
      rw [if_neg plain, same, if_neg (by simp [plain, dot_self_ne_zero]), score_self]
  | upper plain fresh near results answers =>
      have close := candidates_lower_of_upper near
      rw [single, Ne, ite_eq_left_iff, Classical.not_imp] at close
      rw [if_neg plain, if_neg close.1, answers.single near]
  | lower plain fresh far near results answers =>
      have close := near
      rw [single, Ne, ite_eq_left_iff, Classical.not_imp] at close
      rw [if_neg plain, if_neg close.1, answers.single near]
  | nothing plain fresh far =>
      rw [single] at far
      have apart : e.toLowerCase added ∈ inherited ∨
          dot e gramSizeLower (e.toLowerCase text) (e.toLowerCase added) = 0 := by
        by_contra close
        rw [if_neg close] at far
        exact absurd far (List.cons_ne_nil _ _)
      rw [if_neg plain, if_pos apart]

/-! ## Videos -/

section
variable (service : Service)

def reduced (artistNames : List (List Char)) (name : List Char) : List Char :=
  removeNames artistNames (standardise service name)

def compared (artistNames : List (List Char)) (name : List Char) : List Char :=
  service.toLowerCase (reduced service artistNames name)

end

def nameScore (e : Engine) (request response : List Char) : Except JsErr (Option ℚ) :=
  if request ∈ inherited then .ok (some 1)
  else if response = [] ∧ request = [] then .error .typeError
  else if response ∈ inherited ∨ dot e gramSizeLower request response = 0 then .ok (some 0)
  else .ok (some (score request response))

theorem calculateScore_eq (service : Service) (requestName responseName : List Char)
    (artistNames : List (List Char)) :
    calculateScore service requestName responseName artistNames =
      nameScore service.toEngine (compared service artistNames requestName)
        (compared service artistNames responseName) := by
  unfold nameScore compared
  set request := reduced service artistNames requestName
  set response := reduced service artistNames responseName
  have searched := get_single (e := service.toEngine) response request
  simp only [service.toLowerCase_eq_nil]
  change get service.toEngine (ofArray service.toEngine [response]) request >>= firstScore = _
  rw [searched]
  by_cases special : service.toLowerCase request ∈ inherited
  · rw [if_pos special, if_pos special]
    rfl
  rw [if_neg special, if_neg special]
  by_cases blank : response = [] ∧ request = []
  · rw [if_pos blank, if_pos blank]
    rfl
  rw [if_neg blank, if_neg blank]
  by_cases apart : service.toLowerCase response ∈ inherited ∨
      dot service.toEngine gramSizeLower (service.toLowerCase request)
        (service.toLowerCase response) = 0
  · rw [if_pos apart, if_pos apart]
    rfl
  · rw [if_neg apart, if_neg apart]
    rfl

theorem nameScore_error_iff {request response : List Char} :
    nameScore e request response = .error .typeError ↔ request = [] ∧ response = [] := by
  have plain : ([] : List Char) ∉ inherited := by decide
  unfold nameScore
  constructor
  · intro raised
    split_ifs at raised with _ blank
    exact blank.symm
  · rintro ⟨rfl, rfl⟩
    simp [plain]

theorem dot_ne_zero {n : ℕ} {query name : List Char} : dot e n query name ≠ 0 ↔
    ∃ gram ∈ iterateGrams e query n, gram ∈ iterateGrams e name n := by
  rw [Ne, dot_eq_zero]
  push Not
  rfl

theorem nameScore_accepted_iff {request response : List Char}
    (short : max response.length request.length < 2 ^ 53) :
    (∃ s, nameScore e request response = .ok (some s) ∧ threshold < s) ↔
      request ∈ inherited ∨
      ((request ≠ [] ∨ response ≠ []) ∧ response ∉ inherited ∧
        (∃ gram ∈ iterateGrams e request gramSizeLower, gram ∈ iterateGrams e response gramSizeLower) ∧
        10 * editDistance response request ≤ 7 * max response.length request.length) := by
  rw [← dot_ne_zero]
  unfold nameScore
  by_cases special : request ∈ inherited
  · rw [if_pos special]
    simp only [special, true_or, iff_true]
    exact ⟨1, rfl, by norm_num [threshold]⟩
  rw [if_neg special]
  by_cases blank : response = [] ∧ request = []
  · obtain ⟨rfl, rfl⟩ := blank
    simp [special]
  rw [if_neg blank]
  have some : request ≠ [] ∨ response ≠ [] := by
    rw [and_comm, not_and_or] at blank
    exact blank
  by_cases apart : response ∈ inherited ∨ dot e gramSizeLower request response = 0
  · rw [if_pos apart]
    constructor
    · rintro ⟨s, same, accepted⟩
      obtain rfl : 0 = s := by simpa using same
      exact absurd accepted (by norm_num [threshold])
    · rintro (inside | ⟨_, plain, shares, _⟩)
      · exact absurd inside special
      · exact absurd apart (not_or.mpr ⟨plain, shares⟩)
  · have pos : 0 < max response.length request.length := by
      rw [lt_max_iff, List.length_pos_iff, List.length_pos_iff]
      exact some.symm
    have accepted := threshold_lt_iff (editDistance_le_max response request) pos short
    rw [if_neg apart, ← accepted]
    rw [not_or] at apart
    constructor
    · rintro ⟨s, same, above⟩
      obtain rfl : score request response = s := by simpa using same
      exact Or.inr ⟨some, apart.1, apart.2, above⟩
    · rintro (inside | ⟨_, _, _, above⟩)
      · exact absurd inside special
      · exact ⟨_, rfl, above⟩

def plainService : Service := { asciiEngine with key := [] }

end Phonograph.Client.Fuzzy
