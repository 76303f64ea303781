import Mathlib

/-! # Tallies

A loop that reads an entry of a map, changes it by the element at hand and writes it
back treats each key on its own: `lookup_foldl_insert`.  What it holds for a key in
the end is what the elements of that key alone would leave. -/

set_option autoImplicit false

namespace Phonograph.Lib

variable {α κ β : Type} [DecidableEq κ]

theorem lookup_foldl_insert (key : α → κ) (f : Option β → α → β) (xs : List α)
    (d : AList fun _ : κ => β) (k : κ) :
    (xs.foldl (fun d x => d.insert (key x) (f (d.lookup (key x)) x)) d).lookup k =
      (xs.filter fun x => key x = k).foldl (fun value x => some (f value x)) (d.lookup k) := by
  induction xs generalizing d with
  | nil => rfl
  | cons x xs ih =>
      rw [List.foldl_cons, ih]
      by_cases here : key x = k
      · subst here
        simp [AList.lookup_insert]
      · rw [AList.lookup_insert_ne (Ne.symm here)]
        simp [here]

theorem lookup_foldl_add (key : α → κ) (amount : α → ℕ) (xs : List α) (k : κ) :
    (xs.foldl (fun d x => d.insert (key x) ((d.lookup (key x)).getD 0 + amount x))
      (∅ : AList fun _ : κ => ℕ)).lookup k =
      if (xs.filter fun x => key x = k) = [] then none
      else some (((xs.filter fun x => key x = k).map amount).sum) := by
  rw [lookup_foldl_insert key (fun value x => value.getD 0 + amount x), AList.lookup_empty]
  have sums : ∀ (ys : List α) (n : ℕ),
      ys.foldl (fun (value : Option ℕ) y => some (value.getD 0 + amount y)) (some n) =
        some (n + (ys.map amount).sum) := by
    intro ys
    induction ys with
    | nil => simp
    | cons y ys ih =>
        intro n
        rw [List.foldl_cons, Option.getD_some, ih, List.map_cons, List.sum_cons, Nat.add_assoc]
  cases xs.filter fun x => key x = k with
  | nil => rfl
  | cons y ys =>
      rw [List.foldl_cons, sums, if_neg (List.cons_ne_nil y ys)]
      simp

theorem filter_eq_of_nodup {xs : List κ} (nodup : xs.Nodup) (k : κ) :
    xs.filter (fun x => x = k) = if k ∈ xs then [k] else [] := by
  rw [List.filter_eq, nodup.count]
  split_ifs <;> rfl

end Phonograph.Lib
