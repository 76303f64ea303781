import Mathlib.Data.List.Sort
import Mathlib.Data.List.Forall2
import Mathlib.Data.List.Range

/-! # Sorting by places

A sort that only compares keys is given by the places of the entries in its result.
Equal keys leave it a choice; `stableOrder` is the one that `insertionSort` makes. -/

set_option autoImplicit false

namespace Phonograph.Lib

variable {α β γ : Type}

def pick (order : List ℕ) (xs : List α) : List α := order.filterMap fun i => xs[i]?

theorem pick_perm {order : List ℕ} {xs : List α} (perm : order.Perm (List.range xs.length)) :
    (pick order xs).Perm xs := by
  have whole : (List.range xs.length).filterMap (fun i => xs[i]?) = xs := by
    have each : (List.range xs.length).map (fun i => xs[i]?) = xs.map some := by
      refine List.ext_getElem (by simp) fun i _ bound => ?_
      have inside : i < xs.length := by simpa using bound
      simp [inside]
    have both := congrArg (List.filterMap id) each
    rw [List.filterMap_map, List.filterMap_map] at both
    simpa using both
  have moved := perm.filterMap fun i => xs[i]?
  rwa [whole] at moved

theorem forall₂_pick {related : α → β → Prop} {xs : List α} {ys : List β}
    (each : List.Forall₂ related xs ys) (order : List ℕ) :
    List.Forall₂ related (pick order xs) (pick order ys) := by
  obtain ⟨length, entries⟩ := List.forall₂_iff_get.mp each
  induction order with
  | nil => exact List.Forall₂.nil
  | cons i order ih =>
      unfold pick at ih ⊢
      by_cases inside : i < xs.length
      · rw [List.filterMap_cons_some (List.getElem?_eq_getElem inside),
          List.filterMap_cons_some (List.getElem?_eq_getElem (length ▸ inside))]
        exact List.Forall₂.cons (entries i inside (length ▸ inside)) ih
      · rw [List.filterMap_cons_none (List.getElem?_eq_none (by omega)),
          List.filterMap_cons_none (List.getElem?_eq_none (by omega))]
        exact ih

/-- Related lists stay related when they are sorted in ways that agree. -/
theorem forall₂_insertionSort {related : α → β → Prop} {r : α → α → Prop} {s : β → β → Prop}
    [DecidableRel r] [DecidableRel s]
    (same : ∀ a b a' b', related a b → related a' b' → (r a a' ↔ s b b')) {xs : List α}
    {ys : List β}
    (each : List.Forall₂ related xs ys) :
    List.Forall₂ related (xs.insertionSort r) (ys.insertionSort s) := by
  induction each with
  | nil => exact List.Forall₂.nil
  | @cons x y xs ys first _ ih =>
      rw [List.insertionSort_cons, List.insertionSort_cons]
      generalize xs.insertionSort r = sorted at ih
      generalize ys.insertionSort s = sorted' at ih
      induction ih with
      | nil => exact List.Forall₂.cons first List.Forall₂.nil
      | @cons a b as bs second rest ih =>
          have agree := same x y a b first second
          rw [List.orderedInsert_cons, List.orderedInsert_cons]
          by_cases before : r x a
          · rw [if_pos before, if_pos (agree.mp before)]
            exact List.Forall₂.cons first (List.Forall₂.cons second rest)
          · rw [if_neg before, if_neg (mt agree.mpr before)]
            exact List.Forall₂.cons second ih

section Order
variable [LinearOrder γ]

/-- The places of the keys in ascending order, those of equal keys as they are. -/
def stableOrder (keys : List γ) : List ℕ :=
  (keys.zipIdx.insertionSort fun a b => a.1 ≤ b.1).map Prod.snd

structure Sorts (order : List ℕ) (keys : List γ) : Prop where
  perm : order.Perm (List.range keys.length)
  sorted : (pick order keys).Pairwise (· ≤ ·)

theorem pick_stableOrder (f : α → γ) (xs : List α) :
    pick (stableOrder (xs.map f)) xs = xs.insertionSort fun a b => f a ≤ f b := by
  have each : List.Forall₂ (fun (key : γ × ℕ) x => key.1 = f x ∧ xs[key.2]? = some x)
      (xs.map f).zipIdx xs := by
    refine List.forall₂_iff_get.mpr ⟨by simp, fun i _ inside => ?_⟩
    simp
  have sorted := forall₂_insertionSort (r := fun a b => a.1 ≤ b.1) (s := fun a b => f a ≤ f b)
    (fun a b a' b' left right => by rw [left.1, right.1]) each
  rw [stableOrder]
  generalize (xs.map f).zipIdx.insertionSort (fun a b => a.1 ≤ b.1) = keys at sorted ⊢
  generalize xs.insertionSort (fun a b => f a ≤ f b) = ys at sorted ⊢
  induction sorted with
  | nil => rfl
  | cons first _ ih =>
      unfold pick at ih ⊢
      rw [List.map_cons, List.filterMap_cons_some first.2, ih]

theorem sorts_stableOrder (keys : List γ) : Sorts (stableOrder keys) keys := by
  constructor
  · have moved := (List.perm_insertionSort (fun a b : γ × ℕ => a.1 ≤ b.1) keys.zipIdx).map Prod.snd
    rw [List.zipIdx_map_snd, ← List.range_eq_range'] at moved
    exact moved
  · have picked := pick_stableOrder id keys
    rw [List.map_id] at picked
    rw [picked]
    exact List.pairwise_insertionSort (· ≤ ·) keys

end Order

end Phonograph.Lib
