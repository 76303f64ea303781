import Mathlib.Data.List.Basic
import Mathlib.Data.List.Nodup

/-! # Changing the first element of each key

Several elements of a list can have one key, and a lookup by the key reaches the first
of them.  `changeAll` changes the elements that are reached under some keys, one after
the other; `unreached` are the elements that stay as they are. -/

set_option autoImplicit false

namespace Phonograph.Lib

variable {α κ : Type} [DecidableEq κ] (key : α → κ)

def changeFirst (k : κ) (change : α → α) : List α → List α
  | [] => []
  | a :: as => if key a = k then change a :: as else a :: changeFirst k change as

def changeAll (change : κ → α → α) (ks : List κ) (as : List α) : List α :=
  ks.foldl (fun as k => changeFirst key k (change k) as) as

def unreached : List κ → List α → List α
  | _, [] => []
  | ks, a :: as => if key a ∈ ks then unreached (ks.erase (key a)) as else a :: unreached ks as

variable {key} {change : κ → α → α} {ks : List κ}

@[simp] theorem changeAll_nil : changeAll key change ks [] = [] := by
  induction ks with
  | nil => rfl
  | cons k ks ih => exact ih

theorem changeAll_append (ks' : List κ) (as : List α) :
    changeAll key change (ks ++ ks') as = changeAll key change ks' (changeAll key change ks as) :=
  List.foldl_append

theorem changeAll_key_cons (k : κ) (as : List α) :
    changeAll key change (k :: ks) as = changeAll key change ks (changeFirst key k (change k) as) :=
      rfl

theorem changeAll_congr {change' : κ → α → α} (same : ∀ k ∈ ks, change k = change' k) :
    ∀ as : List α, changeAll key change ks as = changeAll key change' ks as := by
  induction ks with
  | nil => exact fun _ => rfl
  | cons k ks ih =>
      intro as
      obtain ⟨first, rest⟩ := List.forall_mem_cons.mp same
      rw [changeAll_key_cons, changeAll_key_cons, first]
      exact ih rest _

theorem changeAll_cons (keeps : ∀ k a, key (change k a) = key a) (a : α) (nodup : ks.Nodup) :
    ∀ as : List α, changeAll key change ks (a :: as) =
      if key a ∈ ks then change (key a) a :: changeAll key change (ks.erase (key a)) as
      else a :: changeAll key change ks as := by
  induction ks generalizing a with
  | nil => exact fun _ => rfl
  | cons k ks ih =>
      intro as
      obtain ⟨fresh, rest⟩ := List.nodup_cons.mp nodup
      rw [changeAll_key_cons, changeAll_key_cons, changeFirst]
      by_cases same : key a = k
      · subst same
        rw [if_pos rfl, if_pos List.mem_cons_self, List.erase_cons_head, ih _ rest, keeps,
          if_neg fresh]
      · have other : (k == key a) = false := beq_false_of_ne (Ne.symm same)
        rw [if_neg same, ih a rest, List.erase_cons_tail (by simp [other])]
        simp only [List.mem_cons, same, false_or]
        rfl

/-- Among the elements that no change leads to, exactly the unreached ones are left. -/
theorem filter_changeAll {p : α → Bool} (keeps : ∀ k a, key (change k a) = key a)
    (leaves : ∀ k a, p (change k a) = false) (as : List α) :
    ∀ ks : List κ, ks.Nodup →
      (changeAll key change ks as).filter p = (unreached key ks as).filter p := by
  induction as with
  | nil => simp [unreached]
  | cons a as ih =>
      intro ks nodup
      rw [changeAll_cons keeps a nodup, unreached]
      split_ifs
      · rw [List.filter_cons_of_neg (by rw [leaves]; exact Bool.false_ne_true)]
        exact ih _ (nodup.erase _)
      · rw [List.filter_cons, List.filter_cons, ih _ nodup]

theorem unreached_congr (as : List α) : ∀ ks ks' : List κ, ks.Perm ks' →
    unreached key ks as = unreached key ks' as := by
  induction as with
  | nil => exact fun _ _ _ => rfl
  | cons a as ih =>
      intro ks ks' perm
      rw [unreached, unreached]
      simp only [perm.mem_iff, ih _ _ perm, ih _ _ (perm.erase (key a))]

theorem mem_unreached {b : α} (as : List α) : ∀ ks : List κ, b ∈ as → key b ∉ ks →
    b ∈ unreached key ks as := by
  induction as with
  | nil => exact fun _ inside _ => inside
  | cons a as ih =>
      intro ks inside outside
      rw [unreached]
      split_ifs with reached
      · rcases List.mem_cons.mp inside with rfl | inside
        · exact absurd reached outside
        · exact ih _ inside fun again => outside (List.mem_of_mem_erase again)
      · rcases List.mem_cons.mp inside with rfl | inside
        · exact List.mem_cons_self
        · exact List.mem_cons_of_mem a (ih ks inside outside)

theorem filter_unreached_eq_nil_iff {p : α → Bool} (as : List α) :
    ∀ ks : List κ, ks.Nodup → (∀ a ∈ as, p a = true → key a ∈ ks) →
      ((unreached key ks as).filter p = [] ↔
        as.Pairwise fun a b => p b = true → key a ≠ key b) := by
  induction as with
  | nil => simp [unreached]
  | cons a as ih =>
      intro ks nodup known
      obtain ⟨first, later⟩ := List.forall_mem_cons.mp known
      rw [unreached, List.pairwise_cons]
      split_ifs with reached
      · constructor
        · intro none
          have apart : ∀ b ∈ as, p b = true → key a ≠ key b := by
            intro b inside kind same
            have left : key b ∉ ks.erase (key a) := by
              rw [← same]
              exact nodup.not_mem_erase
            have listed := List.mem_filter.mpr ⟨mem_unreached as _ inside left, kind⟩
            rw [none] at listed
            cases listed
          refine ⟨apart, (ih _ (nodup.erase _) fun b inside kind => ?_).mp none⟩
          exact (List.mem_erase_of_ne (apart b inside kind).symm).mpr (later b inside kind)
        · rintro ⟨apart, rest⟩
          refine (ih _ (nodup.erase _) fun b inside kind => ?_).mpr rest
          exact (List.mem_erase_of_ne (apart b inside kind).symm).mpr (later b inside kind)
      · have plain : p a = false := by
          cases kind : p a with
          | false => rfl
          | true => exact absurd (first kind) reached
        rw [List.filter_cons_of_neg (by rw [plain]; exact Bool.false_ne_true), ih _ nodup later]
        refine ⟨fun rest => ⟨fun b inside kind same => ?_, rest⟩, And.right⟩
        exact reached (same ▸ later b inside kind)

theorem filter_eraseIdx {p : α → Bool} {a : α} (as : List α) : ∀ index : ℕ, as[index]? = some a →
    p a = false → (as.eraseIdx index).filter p = as.filter p := by
  induction as with
  | nil => exact fun _ found _ => nomatch found
  | cons first as ih =>
      intro index found outside
      cases index with
      | zero =>
          obtain rfl := Option.some.inj found
          rw [List.eraseIdx_cons_zero,
            List.filter_cons_of_neg (by rw [outside]; exact Bool.false_ne_true)]
      | succ index => rw [List.eraseIdx_cons_succ, List.filter_cons, List.filter_cons, ih index found outside]

end Phonograph.Lib
