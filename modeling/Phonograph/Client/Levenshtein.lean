import Phonograph.Lib.EditDistance

/-! # The edit distance of `fuzzyset.js`

`levenshtein` fills the table of distances between the fronts of two strings row by
row in one array, and keeps the entry it overwrites for the next column. -/

set_option autoImplicit false

namespace Phonograph.Client.Levenshtein

open Phonograph.Lib

/-- The row being filled and the entry to the upper left of the next one.  What is
`undefined`, and what is computed from it, is `none`. -/
structure Table where
  current : List (Option ℕ)
  prev : Option ℕ

def assign (current : List (Option ℕ)) (j : ℕ) (value : Option ℕ) : List (Option ℕ) :=
  if j < current.length then current.set j value
  else current ++ List.replicate (j - current.length) none ++ [value]

def minPlusOne (a b c : Option ℕ) : Option ℕ := do
  return min (min (← a) (← b)) (← c) + 1

def cell (str1 str2 : List Char) (i : ℕ) (table : Table) (j : ℕ) : Table :=
  let value :=
    if i ≠ 0 ∧ j ≠ 0 then
      if str1[j - 1]? = str2[i - 1]? then table.prev
      else minPlusOne table.current[j]?.join table.current[j - 1]?.join table.prev
    else some (i + j)
  ⟨assign table.current j value, table.current[j]?.join⟩

def fillRow (str1 str2 : List Char) (table : Table) (i : ℕ) : Table :=
  (List.range (str1.length + 1)).foldl (cell str1 str2 i) table

def levenshtein (str1 str2 : List Char) : Option ℕ :=
  ((List.range (str2.length + 1)).foldl (fillRow str1 str2) ⟨[], none⟩).current.getLast?.join

section
variable (str1 str2 : List Char)

def entry (i j : ℕ) : ℕ := editDistance (str1.take j).reverse (str2.take i).reverse

variable {str1 str2} {i j : ℕ}

theorem take_succ_reverse {str : List Char} {k : ℕ} (bound : k < str.length) :
    (str.take (k + 1)).reverse = str[k] :: (str.take k).reverse := by
  rw [List.take_succ_eq_append_getElem bound, List.reverse_append]
  rfl

theorem entry_zero_left (bound : j ≤ str1.length) : entry str1 str2 0 j = j := by
  simp [entry, bound]

theorem entry_zero_right (bound : i ≤ str2.length) : entry str1 str2 i 0 = i := by
  simp [entry, bound]

theorem entry_succ (hi : i < str2.length) (hj : j < str1.length) :
    entry str1 str2 (i + 1) (j + 1) =
      if str1[j] = str2[i] then entry str1 str2 i j
      else min (min (entry str1 str2 i (j + 1)) (entry str1 str2 (i + 1) j)) (entry str1 str2 i j) + 1 := by
  unfold entry
  rw [take_succ_reverse hi, take_succ_reverse hj]
  split_ifs with same
  · rw [same, editDistance_cons_self]
  · rw [editDistance_cons_of_ne same, min_comm (editDistance _ (_ :: _))]

def filling (str1 str2 : List Char) (i j : ℕ) : List (Option ℕ) :=
  (List.range (str1.length + 1)).map fun k => some (entry str1 str2 (if k < j then i + 1 else i) k)

theorem filling_getElem {k : ℕ} (bound : k ≤ str1.length) :
    (filling str1 str2 i j)[k]? = some (some (entry str1 str2 (if k < j then i + 1 else i) k)) := by
  simp [filling, List.getElem?_range (Nat.lt_succ_of_le bound)]

theorem filling_full : filling str1 str2 i (str1.length + 1) = filling str1 str2 (i + 1) 0 := by
  apply List.map_congr_left
  intro k inside
  rw [List.mem_range] at inside
  simp [inside]

theorem assign_filling (bound : j ≤ str1.length) :
    assign (filling str1 str2 i j) j (some (entry str1 str2 (i + 1) j)) =
      filling str1 str2 i (j + 1) := by
  have length : (filling str1 str2 i j).length = str1.length + 1 := by simp [filling]
  rw [assign, if_pos (by omega)]
  apply List.ext_getElem?
  intro k
  rw [List.getElem?_set]
  by_cases here : j = k
  · subst here
    simp [filling_getElem bound, length, Nat.lt_succ_of_le bound]
  · rw [if_neg here]
    have same : (k < j) ↔ (k < j + 1) := by omega
    by_cases inside : k ≤ str1.length
    · simp only [filling_getElem inside, same]
    · have outside : ∀ n, (filling str1 str2 i n)[k]? = none := by
        intro n
        rw [List.getElem?_eq_none_iff]
        simp only [filling, List.length_map, List.length_range]
        omega
      rw [outside, outside]

theorem fillRow_zero (table : Table) (start : table.current = []) :
    (fillRow str1 str2 table 0).current = filling str1 str2 0 0 := by
  have prefixes : ∀ n ≤ str1.length + 1,
      ((List.range n).foldl (cell str1 str2 0) table).current = (List.range n).map some := by
    intro n
    induction n with
    | zero => simp [start]
    | succ n ih =>
        intro bound
        rw [List.range_succ, List.foldl_append, List.foldl_cons, List.foldl_nil, List.map_append]
        simp [cell, assign, ih (by omega)]
  rw [fillRow, prefixes _ le_rfl]
  apply List.map_congr_left
  intro k inside
  rw [List.mem_range] at inside
  simp [entry_zero_left (Nat.le_of_lt_succ inside)]

/-- What the inner loop keeps: the part of the row that is filled, and the entry
that the last step has overwritten. -/
def Filled (str1 str2 : List Char) (i j : ℕ) (table : Table) : Prop :=
  table.current = filling str1 str2 i j ∧ (0 < j → table.prev = some (entry str1 str2 i (j - 1)))

theorem filled_cell {table : Table} (filled : Filled str1 str2 i j table) (hi : i < str2.length)
    (hj : j ≤ str1.length) : Filled str1 str2 i (j + 1) (cell str1 str2 (i + 1) table j) := by
  obtain ⟨current, prev⟩ := filled
  constructor
  · rw [← assign_filling hj]
    unfold cell
    rw [current]
    cases j with
    | zero => simp [entry_zero_right (Nat.succ_le_of_lt hi)]
    | succ j =>
        have left : (filling str1 str2 i (j + 1))[j]?.join = some (entry str1 str2 (i + 1) j) := by
          rw [filling_getElem (by omega)]
          simp
        have above : (filling str1 str2 i (j + 1))[j + 1]?.join = some (entry str1 str2 i (j + 1)) := by
          rw [filling_getElem hj]
          simp
        have heads : (str1[j]? = str2[i]?) ↔ (str1[j] = str2[i]) := by
          rw [List.getElem?_eq_getElem hi, List.getElem?_eq_getElem (by omega), Option.some_inj]
        simp only [Nat.add_sub_cancel, left, above, prev (by omega), heads]
        rw [if_pos (by omega), entry_succ hi (by omega)]
        split_ifs <;> rfl
  · intro _
    unfold cell
    simp [current, filling_getElem hj]

theorem fillRow_succ {table : Table} (row : table.current = filling str1 str2 i 0)
    (hi : i < str2.length) :
    (fillRow str1 str2 table (i + 1)).current = filling str1 str2 (i + 1) 0 := by
  have partly : ∀ n ≤ str1.length + 1,
      Filled str1 str2 i n ((List.range n).foldl (cell str1 str2 (i + 1)) table) := by
    intro n
    induction n with
    | zero => exact fun _ => ⟨row, fun pos => absurd pos (lt_irrefl 0)⟩
    | succ n ih =>
        intro bound
        rw [List.range_succ, List.foldl_append]
        exact filled_cell (ih (by omega)) hi (by omega)
  rw [← filling_full]
  exact (partly _ le_rfl).1

theorem levenshtein_eq (str1 str2 : List Char) :
    levenshtein str1 str2 = some (editDistance str1 str2) := by
  have rows : ∀ n ≤ str2.length,
      ((List.range (n + 1)).foldl (fillRow str1 str2) ⟨[], none⟩).current = filling str1 str2 n 0 := by
    intro n
    induction n with
    | zero => exact fun _ => fillRow_zero ⟨[], none⟩ rfl
    | succ n ih =>
        intro bound
        rw [List.range_succ, List.foldl_append]
        exact fillRow_succ (ih (by omega)) (by omega)
  have last : (filling str1 str2 str2.length 0).getLast? =
      some (some (entry str1 str2 str2.length str1.length)) := by
    rw [List.getLast?_eq_getElem?]
    simp [filling]
  rw [levenshtein, rows _ le_rfl, last]
  simp [entry, editDistance_reverse]

end

end Phonograph.Client.Levenshtein
