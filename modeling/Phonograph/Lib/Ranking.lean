import Mathlib.Data.List.Sort
import Mathlib.Data.Prod.Lex

/-! # Rankings

A table gives some members a score.  Its ranking lists them by score, and members with
the same score by themselves; it is determined by the table, and a change of the table
changes it in one place. -/

set_option autoImplicit false

namespace Phonograph.Lib

/-- A test on keys that holds below a bound cuts a sorted list in two. -/
theorem exists_split {α K : Type} [Preorder K] (key : α → K) {p : K → Prop}
    (down : ∀ a b, a < b → p b → p a) {xs : List α}
    (sorted : xs.Pairwise fun a b => key a < key b) :
    ∃ low high, xs = low ++ high ∧ (∀ x ∈ low, p (key x)) ∧ ∀ x ∈ high, ¬ p (key x) := by
  induction xs with
  | nil => exact ⟨[], [], rfl, by simp, by simp⟩
  | cons x xs ih =>
      rw [List.pairwise_cons] at sorted
      by_cases first : p (key x)
      · obtain ⟨low, high, rfl, before, behind⟩ := ih sorted.2
        exact ⟨x :: low, high, rfl, List.forall_mem_cons.mpr ⟨first, before⟩, behind⟩
      · refine ⟨[], x :: xs, rfl, by simp, List.forall_mem_cons.mpr ⟨first, ?_⟩⟩
        exact fun other inside holds => first (down _ _ (sorted.1 other inside) holds)

variable {S M : Type} [LinearOrder S] [LinearOrder M]

structure Ranking (keys : List (S ×ₗ M)) (table : M → Option S) : Prop where
  sorted : keys.Pairwise (· < ·)
  mem : ∀ score member, toLex (score, member) ∈ keys ↔ table member = some score

namespace Ranking
variable {keys low high : List (S ×ₗ M)} {table : M → Option S} {score : S} {member : M}

theorem unique {keys' : List (S ×ₗ M)} (ranking : Ranking keys table)
    (other : Ranking keys' table) :
    keys = keys' := by
  have nodup : keys.Nodup := ranking.sorted.imp ne_of_lt
  have nodup' : keys'.Nodup := other.sorted.imp ne_of_lt
  have same : keys.Perm keys' := by
    rw [List.perm_ext_iff_of_nodup nodup nodup']
    intro key
    have left := ranking.mem (ofLex key).1 (ofLex key).2
    have right := other.mem (ofLex key).1 (ofLex key).2
    exact left.trans right.symm
  exact same.eq_of_pairwise (fun a b _ _ less more => absurd (less.trans more) (lt_irrefl a))
    ranking.sorted other.sorted

theorem ne_nil (ranking : Ranking keys table) (found : table member = some score) : keys ≠ [] :=
  List.ne_nil_of_mem ((ranking.mem score member).mpr found)

theorem eq_nil_iff (ranking : Ranking keys table) : keys = [] ↔ ∀ member, table member = none := by
  constructor
  · intro empty member
    cases found : table member with
    | none => rfl
    | some score => exact absurd empty (ranking.ne_nil found)
  · intro none
    apply List.eq_nil_iff_forall_not_mem.mpr
    intro key inside
    have found := (ranking.mem (ofLex key).1 (ofLex key).2).mp inside
    rw [none] at found
    cases found

theorem nodup_members (ranking : Ranking keys table) :
    (keys.map fun key => (ofLex key).2).Nodup := by
  apply List.Nodup.map_on
  · intro a insideA b insideB same
    have scoreA := (ranking.mem (ofLex a).1 (ofLex a).2).mp insideA
    have scoreB := (ranking.mem (ofLex b).1 (ofLex b).2).mp insideB
    rw [same, scoreB] at scoreA
    exact Prod.ext (Option.some.inj scoreA).symm same
  · exact ranking.sorted.imp ne_of_lt

theorem split (ranking : Ranking keys table) (score : S) (absent : table member = none) :
    ∃ low high, keys = low ++ high ∧ (∀ key ∈ low, key < toLex (score, member)) ∧
      ∀ key ∈ high, toLex (score, member) < key := by
  obtain ⟨low, high, rfl, before, behind⟩ := exists_split id
    (p := fun key => key < toLex (score, member)) (fun a b less => less.trans) ranking.sorted
  refine ⟨low, high, rfl, before, fun key inside => ?_⟩
  apply lt_of_le_of_ne (not_lt.mp (behind key inside))
  rintro rfl
  have found := (ranking.mem score member).mp (List.mem_append_right _ inside)
  rw [absent] at found
  cases found

theorem insert (ranking : Ranking (low ++ high) table) (score : S) (absent : table member = none)
    (before : ∀ key ∈ low, key < toLex (score, member))
    (behind : ∀ key ∈ high, toLex (score, member) < key) :
    Ranking (low ++ toLex (score, member) :: high) (Function.update table member (some score)) where
  sorted := by
    have sorted := List.pairwise_append.mp ranking.sorted
    rw [List.pairwise_append, List.pairwise_cons]
    refine ⟨sorted.1, ⟨behind, sorted.2.1⟩, ?_⟩
    intro a left b right
    rcases List.mem_cons.mp right with rfl | right
    · exact before a left
    · exact sorted.2.2 a left b right
  mem := by
    intro s m
    have old := ranking.mem s m
    rw [List.mem_append] at old
    rw [List.mem_append, List.mem_cons, or_left_comm, old]
    by_cases same : m = member
    · subst same
      rw [Function.update_self, absent]
      simp [eq_comm]
    · rw [Function.update_of_ne same]
      have other : toLex (s, m) ≠ toLex (score, member) := fun equal =>
        same (Prod.mk.inj (toLex_inj.mp equal)).2
      simp [other]

theorem remove (ranking : Ranking (low ++ toLex (score, member) :: high) table) :
    Ranking (low ++ high) (Function.update table member none) where
  sorted := by
    have sorted := List.pairwise_append.mp ranking.sorted
    rw [List.pairwise_append]
    exact ⟨sorted.1, (List.pairwise_cons.mp sorted.2.1).2, fun a left b right =>
      sorted.2.2 a left b (List.mem_cons_of_mem _ right)⟩
  mem := by
    intro s m
    have members := ranking.nodup_members
    rw [List.map_append, List.map_cons, List.nodup_middle,
      List.nodup_cons, ← List.map_append] at members
    have old := ranking.mem s m
    rw [List.mem_append, List.mem_cons, or_left_comm, ← List.mem_append] at old
    by_cases same : m = member
    · subst same
      rw [Function.update_self]
      have absent : toLex (s, m) ∉ low ++ high := fun inside =>
        members.1 (List.mem_map.mpr ⟨_, inside, rfl⟩)
      simp only [absent, reduceCtorEq]
    · have other : toLex (s, m) ≠ toLex (score, member) := fun equal =>
        same (Prod.mk.inj (toLex_inj.mp equal)).2
      rw [Function.update_of_ne same, ← old]
      simp only [other, false_or]

end Ranking

end Phonograph.Lib
