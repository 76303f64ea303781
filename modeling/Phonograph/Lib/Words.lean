import Mathlib.Data.List.Infix
import Mathlib.Data.List.TakeWhile

/-! # Texts cut at a separator

`splitOn_cases` takes the first piece off a text.  A loop that joins the pieces
again, one after the other while the result stays shorter than a limit, ends
with a `Greedy` label.  A text has at most one of them, so a label that is known
to be greedy is the one the loop ends with. -/

set_option autoImplicit false

namespace Phonograph.Lib

variable {α : Type} {sep : α}

def rejoin (sep : α) (pieces : List (List α)) : List α := pieces.flatMap (sep :: ·)

@[simp] theorem rejoin_nil : rejoin sep [] = [] := rfl

@[simp] theorem rejoin_cons (piece : List α) (pieces : List (List α)) :
    rejoin sep (piece :: pieces) = sep :: (piece ++ rejoin sep pieces) := rfl

theorem intercalate_eq_rejoin (piece : List α) (pieces : List (List α)) :
    [sep].intercalate (piece :: pieces) = piece ++ rejoin sep pieces := by
  induction pieces generalizing piece with
  | nil => simp
  | cons next pieces ih => simp [List.intercalate_cons_cons, ih]

theorem intercalate_cons_head (c : α) (piece : List α) (pieces : List (List α)) :
    [sep].intercalate ((c :: piece) :: pieces) = c :: [sep].intercalate (piece :: pieces) := by
  rw [intercalate_eq_rejoin, intercalate_eq_rejoin, List.cons_append]

theorem mem_intercalate {c : α} {pieces : List (List α)}
    (member : c ∈ [sep].intercalate pieces) : c = sep ∨ ∃ piece ∈ pieces, c ∈ piece := by
  cases pieces with
  | nil => simp at member
  | cons piece pieces =>
      rw [intercalate_eq_rejoin, List.mem_append, rejoin, List.mem_flatMap] at member
      rcases member with here | ⟨other, among, inside⟩
      · exact Or.inr ⟨piece, List.mem_cons_self, here⟩
      · rcases List.mem_cons.mp inside with same | inside
        · exact Or.inl same
        · exact Or.inr ⟨other, List.mem_cons_of_mem piece among, inside⟩

theorem notMem_intercalate {c : α} (other : c ≠ sep) {pieces : List (List α)} :
    c ∉ [sep].intercalate pieces ↔ ∀ piece ∈ pieces, c ∉ piece := by
  cases pieces with
  | nil => simp
  | cons piece pieces =>
      rw [intercalate_eq_rejoin, List.mem_append, rejoin, List.mem_flatMap]
      simp [other]

def AtBreak (sep : α) (rest : List α) : Prop := rest = [] ∨ ∃ more, rest = sep :: more

theorem atBreak_rejoin (pieces : List (List α)) : AtBreak sep (rejoin sep pieces) := by
  cases pieces with
  | nil => exact Or.inl rfl
  | cons piece pieces => exact Or.inr ⟨_, rfl⟩

variable [DecidableEq α]

theorem splitOn_cases (sep : α) (text : List α) :
    (sep ∉ text ∧ text.splitOn sep = [text]) ∨
    ∃ first rest, text = first ++ sep :: rest ∧ sep ∉ first ∧
      text.splitOn sep = first :: rest.splitOn sep := by
  by_cases inside : sep ∈ text
  · obtain ⟨first, rest, rfl, fresh⟩ := List.eq_append_cons_of_mem inside
    exact Or.inr ⟨first, rest, rfl, fresh, List.splitOn_append_cons_self_of_not_mem fresh rest⟩
  · exact Or.inl ⟨inside, List.splitOn_eq_singleton inside⟩

theorem splitOn_cons_self (text : List α) : (sep :: text).splitOn sep = [] :: text.splitOn sep :=
  List.splitOn_append_cons_self_of_not_mem List.not_mem_nil text

theorem splitOn_cons_of_ne {c : α} (ne : c ≠ sep) {text piece : List α} {pieces : List (List α)}
    (cut : text.splitOn sep = piece :: pieces) :
    (c :: text).splitOn sep = (c :: piece) :: pieces := by
  rw [List.splitOn, List.splitOnP_cons_eq_if_modifyHead, ← List.splitOn, cut,
    if_neg (mt beq_iff_eq.mp ne)]
  rfl

/-- Cutting at one separator and joining with another replaces the one by the other. -/
theorem intercalate_splitOn (sep other : α) (text : List α) :
    [other].intercalate (text.splitOn sep) = text.map fun c => if c = sep then other else c := by
  induction text with
  | nil => rfl
  | cons c text ih =>
      obtain ⟨piece, pieces, cut⟩ := List.exists_cons_of_ne_nil (List.splitOn_ne_nil sep text)
      rw [List.map_cons, ← ih]
      by_cases same : c = sep
      · rw [if_pos same, same, splitOn_cons_self, cut, List.intercalate_cons_cons, List.nil_append,
          List.singleton_append]
      · rw [if_neg same, splitOn_cons_of_ne same cut, cut, intercalate_cons_head]

theorem notMem_of_mem_splitOn {text : List α} : ∀ piece ∈ text.splitOn sep, sep ∉ piece := by
  induction hn : text.length using Nat.strong_induction_on generalizing text with
  | _ n ih =>
      intro piece inside
      rcases splitOn_cases sep text with ⟨fresh, whole⟩ | ⟨first, rest, rfl, fresh, pieces⟩
      · rw [whole, List.mem_singleton] at inside
        rwa [inside]
      · rw [pieces, List.mem_cons] at inside
        rcases inside with rfl | inside
        · exact fresh
        · have shorter : rest.length < n := by
            rw [← hn, List.length_append, List.length_cons]
            omega
          exact ih rest.length shorter rfl piece inside

theorem rejoin_splitOn (text : List α) :
    (text.splitOn sep).headD [] ++ rejoin sep (text.splitOn sep).tail = text := by
  have whole : [sep].intercalate (text.splitOn sep) = text := List.intercalate_splitOn sep
  obtain ⟨first, others, shape⟩ := List.exists_cons_of_ne_nil (List.splitOn_ne_nil sep text)
  rw [shape, intercalate_eq_rejoin] at whole
  rw [shape]
  exact whole

theorem takeWhile_atBreak {piece rest : List α} (fresh : sep ∉ piece) (ended : AtBreak sep rest) :
    (piece ++ rest).takeWhile (· ≠ sep) = piece := by
  have all : ∀ a ∈ piece, decide (a ≠ sep) = true := by
    intro a inside
    apply decide_eq_true
    rintro rfl
    exact fresh inside
  rw [List.takeWhile_append_of_pos all]
  rcases ended with rfl | ⟨more, rfl⟩ <;> simp

/-- The first words of `text` as a label for less than `limit` characters: it is one
word or within the limit, and with the next word it would not be. -/
structure Greedy (sep : α) (limit : ℕ) (text label rest : List α) : Prop where
  split : text = label ++ rest
  boundary : AtBreak sep rest
  fits : sep ∉ label ∨ label.length < limit
  full : rest ≠ [] → limit ≤ label.length + 1 + (rest.tail.takeWhile (· ≠ sep)).length

variable {limit : ℕ} {text label rest label' rest' : List α}

private theorem greedy_le (h : Greedy sep limit text label rest)
    (h' : Greedy sep limit text label' rest') : label'.length ≤ label.length := by
  by_contra longer
  have whole : label ++ rest = label' ++ rest' := h.split.symm.trans h'.split
  obtain ⟨more, rfl, rfl⟩ : ∃ more, label' = label ++ more ∧ rest = more ++ rest' := by
    rcases List.append_eq_append_iff.mp whole with ⟨more, left, right⟩ | ⟨more, left, right⟩
    · exact ⟨more, left, right⟩
    · rw [left, List.length_append] at longer
      omega
  cases more with
  | nil => simp at longer
  | cons a more =>
      -- The longer label has a separator, so it is within the limit, and the next word is in it.
      obtain rfl : a = sep := by
        rcases h.boundary with empty | ⟨_, same⟩
        · cases empty
        · exact (List.cons.inj same).1
      have small : (label ++ a :: more).length < limit :=
        h'.fits.resolve_left fun fresh => fresh (by simp)
      have full := h.full (by simp)
      have word : ((more ++ rest').takeWhile (· ≠ a)).length ≤ more.length := by
        rcases h'.boundary with rfl | ⟨_, rfl⟩
        · simpa using (List.takeWhile_prefix (· ≠ a)).length_le
        · rw [List.takeWhile_append]
          split
          · simp
          · exact (List.takeWhile_prefix _).length_le
      simp only [List.cons_append, List.tail_cons] at full
      rw [List.length_append, List.length_cons] at small
      omega

theorem Greedy.unique (h : Greedy sep limit text label rest)
    (h' : Greedy sep limit text label' rest') : label = label' ∧ rest = rest' := by
  apply List.append_inj (h.split.symm.trans h'.split)
  exact Nat.le_antisymm (greedy_le h' h) (greedy_le h h')

end Phonograph.Lib
