import Mathlib.Data.List.Basic
import Mathlib.Order.Bounds.Basic
import Mathlib.Order.MinMax

/-! # Edits between lists

An edit inserts, deletes or changes one element of a list.  `Reaches n xs ys` says
that `n` edits lead from `xs` to `ys`, and `editDistance` is the recursion that the
tables of the usual programs fill.  `isLeast_editDistance` says that it counts the
edits of a shortest way.  The recursion walks the lists from the front and a table
is filled from the back, which `editDistance_reverse` makes the same. -/

set_option autoImplicit false

namespace Phonograph.Lib

variable {α : Type}

inductive Edit : List α → List α → Prop where
  | insert (front rest : List α) (a : α) : Edit (front ++ rest) (front ++ a :: rest)
  | delete (front rest : List α) (a : α) : Edit (front ++ a :: rest) (front ++ rest)
  | change (front rest : List α) (a b : α) : Edit (front ++ a :: rest) (front ++ b :: rest)

inductive Reaches : ℕ → List α → List α → Prop where
  | refl (xs : List α) : Reaches 0 xs xs
  | step {n : ℕ} {xs ys zs : List α} : Edit xs ys → Reaches n ys zs → Reaches (n + 1) xs zs

theorem Edit.cons {xs ys : List α} (a : α) (edit : Edit xs ys) : Edit (a :: xs) (a :: ys) := by
  cases edit with
  | insert front rest b => exact .insert (a :: front) rest b
  | delete front rest b => exact .delete (a :: front) rest b
  | change front rest b c => exact .change (a :: front) rest b c

theorem Edit.reverse {xs ys : List α} (edit : Edit xs ys) : Edit xs.reverse ys.reverse := by
  cases edit with
  | insert front rest b => simpa using Edit.insert rest.reverse front.reverse b
  | delete front rest b => simpa using Edit.delete rest.reverse front.reverse b
  | change front rest b c => simpa using Edit.change rest.reverse front.reverse b c

theorem Reaches.cons {n : ℕ} {xs ys : List α} (a : α) (reaches : Reaches n xs ys) :
    Reaches n (a :: xs) (a :: ys) := by
  induction reaches with
  | refl xs => exact .refl (a :: xs)
  | step edit _ ih => exact .step (edit.cons a) ih

theorem Reaches.reverse {n : ℕ} {xs ys : List α} (reaches : Reaches n xs ys) :
    Reaches n xs.reverse ys.reverse := by
  induction reaches with
  | refl xs => exact .refl xs.reverse
  | step edit _ ih => exact .step edit.reverse ih

theorem reaches_reverse {n : ℕ} {xs ys : List α} :
    Reaches n xs.reverse ys.reverse ↔ Reaches n xs ys := by
  constructor
  · intro reaches
    simpa using reaches.reverse
  · exact Reaches.reverse

theorem reaches_of_nil (ys : List α) : Reaches ys.length [] ys := by
  induction ys with
  | nil => exact .refl []
  | cons a ys ih => exact .step (.insert [] [] a) (ih.cons a)

theorem reaches_nil (xs : List α) : Reaches xs.length xs [] := by
  induction xs with
  | nil => exact .refl []
  | cons a xs ih => exact .step (.delete [] xs a) ih

variable [DecidableEq α]

/-- Equal heads are kept; otherwise the best of deleting, inserting and changing one. -/
def editDistance : List α → List α → ℕ
  | [], ys => ys.length
  | xs, [] => xs.length
  | a :: xs, b :: ys =>
      if a = b then editDistance xs ys
      else min (min (editDistance xs (b :: ys)) (editDistance (a :: xs) ys)) (editDistance xs ys) + 1
  termination_by xs ys => xs.length + ys.length

@[simp] theorem editDistance_nil_left (ys : List α) : editDistance [] ys = ys.length := by
  simp [editDistance]

@[simp] theorem editDistance_nil_right (xs : List α) : editDistance xs [] = xs.length := by
  cases xs <;> simp [editDistance]

theorem editDistance_cons_self (a : α) (xs ys : List α) :
    editDistance (a :: xs) (a :: ys) = editDistance xs ys := by
  simp [editDistance]

theorem editDistance_cons_of_ne {a b : α} (differ : a ≠ b) (xs ys : List α) :
    editDistance (a :: xs) (b :: ys) =
      min (min (editDistance xs (b :: ys)) (editDistance (a :: xs) ys)) (editDistance xs ys) + 1 := by
  rw [editDistance, if_neg differ]

@[simp] theorem editDistance_self (xs : List α) : editDistance xs xs = 0 := by
  induction xs with
  | nil => simp
  | cons a xs ih => rw [editDistance_cons_self, ih]

/-! ## The distance is reached -/

theorem reaches_editDistance (xs ys : List α) : Reaches (editDistance xs ys) xs ys := by
  fun_induction editDistance xs ys with
  | case1 ys => exact reaches_of_nil ys
  | case2 xs => exact reaches_nil xs
  | case3 xs a ys ih => exact ih.cons a
  | case4 a xs b ys differ delete insert change =>
      rcases min_choice (min (editDistance xs (b :: ys)) (editDistance (a :: xs) ys))
        (editDistance xs ys) with outer | outer
      · rcases min_choice (editDistance xs (b :: ys)) (editDistance (a :: xs) ys) with inner | inner
        · rw [outer, inner]
          exact .step (.delete [] xs a) delete
        · rw [outer, inner]
          exact .step (.insert [] (a :: xs) b) (insert.cons b)
      · rw [outer]
        exact .step (.change [] xs a b) (change.cons b)

/-! ## No way is shorter -/

theorem editDistance_cons_bounds (n : ℕ) : ∀ xs ys : List α, xs.length + ys.length = n →
    (∀ a, editDistance (a :: xs) ys ≤ editDistance xs ys + 1 ∧
      editDistance xs ys ≤ editDistance (a :: xs) ys + 1) ∧
    (∀ b, editDistance xs (b :: ys) ≤ editDistance xs ys + 1 ∧
      editDistance xs ys ≤ editDistance xs (b :: ys) + 1) := by
  induction n using Nat.strong_induction_on with
  | _ n ih =>
      intro xs ys total
      constructor
      · intro a
        cases ys with
        | nil =>
            simp only [editDistance_nil_right, List.length_cons]
            omega
        | cons b ys =>
            have shorter := ih (xs.length + ys.length) (by simp at total; omega) xs ys rfl
            have inserted := shorter.2 b
            by_cases same : a = b
            · subst same
              rw [editDistance_cons_self]
              omega
            · have deleted := shorter.1 a
              rw [editDistance_cons_of_ne same]
              omega
      · intro b
        cases xs with
        | nil =>
            simp only [editDistance_nil_left, List.length_cons]
            omega
        | cons a xs =>
            have shorter := ih (xs.length + ys.length) (by simp at total; omega) xs ys rfl
            have deleted := shorter.1 a
            by_cases same : a = b
            · subst same
              rw [editDistance_cons_self]
              omega
            · have inserted := shorter.2 b
              rw [editDistance_cons_of_ne same]
              omega

theorem editDistance_cons_left_le (a : α) (xs ys : List α) :
    editDistance (a :: xs) ys ≤ editDistance xs ys + 1 :=
  ((editDistance_cons_bounds _ xs ys rfl).1 a).1

theorem le_editDistance_cons_left (a : α) (xs ys : List α) :
    editDistance xs ys ≤ editDistance (a :: xs) ys + 1 :=
  ((editDistance_cons_bounds _ xs ys rfl).1 a).2

theorem editDistance_cons_right_le (b : α) (xs ys : List α) :
    editDistance xs (b :: ys) ≤ editDistance xs ys + 1 :=
  ((editDistance_cons_bounds _ xs ys rfl).2 b).1

theorem editDistance_cons_cons_le (a b : α) (xs ys : List α) :
    editDistance (a :: xs) (b :: ys) ≤ editDistance xs ys + 1 := by
  by_cases same : a = b
  · subst same
    rw [editDistance_cons_self]
    omega
  · rw [editDistance_cons_of_ne same]
    omega

theorem editDistance_edit_front {xs ys : List α}
    (near : ∀ zs, editDistance xs zs ≤ editDistance ys zs + 1) (c : α) (zs : List α) :
    editDistance (c :: xs) zs ≤ editDistance (c :: ys) zs + 1 := by
  induction zs with
  | nil => simpa using near []
  | cons d zs ih =>
      by_cases same : c = d
      · subst same
        rw [editDistance_cons_self, editDistance_cons_self]
        exact near zs
      · rw [editDistance_cons_of_ne same, editDistance_cons_of_ne same]
        have whole := near (d :: zs)
        have rest := near zs
        omega

theorem editDistance_edit {xs ys : List α} (edit : Edit xs ys) (zs : List α) :
    editDistance xs zs ≤ editDistance ys zs + 1 := by
  cases edit with
  | insert front rest a =>
      induction front generalizing zs with
      | nil => exact le_editDistance_cons_left a rest zs
      | cons c front ih => exact editDistance_edit_front ih c zs
  | delete front rest a =>
      induction front generalizing zs with
      | nil => exact editDistance_cons_left_le a rest zs
      | cons c front ih => exact editDistance_edit_front ih c zs
  | change front rest a b =>
      induction front generalizing zs with
      | nil =>
          induction zs with
          | nil => simp
          | cons d zs ih =>
              have first := editDistance_cons_cons_le a d rest zs
              by_cases same : b = d
              · subst same
                rw [List.nil_append, List.nil_append, editDistance_cons_self]
                exact first
              · rw [List.nil_append, List.nil_append] at ih ⊢
                rw [editDistance_cons_of_ne same]
                have deleted := editDistance_cons_left_le a rest (d :: zs)
                have inserted := editDistance_cons_right_le d (a :: rest) zs
                omega
      | cons c front ih => exact editDistance_edit_front ih c zs

theorem editDistance_le {n : ℕ} {xs ys : List α} (reaches : Reaches n xs ys) :
    editDistance xs ys ≤ n := by
  induction reaches with
  | refl xs => simp
  | step edit _ ih => exact (editDistance_edit edit _).trans (Nat.add_le_add_right ih 1)

theorem isLeast_editDistance (xs ys : List α) :
    IsLeast {n | Reaches n xs ys} (editDistance xs ys) :=
  ⟨reaches_editDistance xs ys, fun _ reaches => editDistance_le reaches⟩

theorem editDistance_reverse (xs ys : List α) :
    editDistance xs.reverse ys.reverse = editDistance xs ys := by
  apply le_antisymm
  · exact editDistance_le (reaches_editDistance xs ys).reverse
  · exact editDistance_le (reaches_reverse.mp (reaches_editDistance xs.reverse ys.reverse))

theorem editDistance_le_max (xs ys : List α) : editDistance xs ys ≤ max xs.length ys.length := by
  induction xs generalizing ys with
  | nil => simp
  | cons a xs ih =>
      cases ys with
      | nil => simp
      | cons b ys =>
          have tails := ih ys
          have heads := editDistance_cons_cons_le a b xs ys
          simp only [List.length_cons]
          omega

end Phonograph.Lib
