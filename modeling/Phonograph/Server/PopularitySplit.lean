import Phonograph.Server.ZoomVisit

/-! # The popularity split of the zoom

The leaves of `/zoom` are sorted by their popularity, and the better half is
shuffled.  The popularity comes from the store as a string, and the sort
compares strings: 9 is above 10.  A wrong pair does no harm when both of its
artists are in the half that is shuffled anyway; `splitRight_iff` says that
this is all that can save the split. -/

set_option autoImplicit false

namespace Phonograph.Server.PopularitySplit

open Phonograph.Lib Phonograph.Server.Redis Phonograph.Server.Python
open Phonograph.Server.Database Phonograph.Server.Routes Phonograph.Server.ZoomVisit

/-! ## A list sorted by one key and read by another -/

section Sorted
variable {α κ : Type} [LinearOrder κ]

/-- Whenever the key has two elements the wrong way round, the second and all that share its key
are among the `m` greatest keys. -/
def Harmless (key : α → κ) (number : α → ℤ) (xs : List α) (m : ℕ) : Prop :=
  ∀ a ∈ xs, ∀ b ∈ xs, number a < number b → key b < key a →
    xs.countP (fun x => decide (key b ≤ key x)) ≤ m

variable {key : α → κ} {number : α → ℤ} {xs : List α}

theorem harmless_perm {ys : List α} (perm : xs.Perm ys) (m : ℕ) :
    Harmless key number xs m ↔ Harmless key number ys m := by
  simp only [Harmless, perm.mem_iff, perm.countP_eq]

variable (sorted : xs.Pairwise fun x y => key y ≤ key x)
include sorted

theorem key_drop_le_take {m : ℕ} {x y : α} (high : x ∈ xs.take m) (low : y ∈ xs.drop m) :
    key y ≤ key x := by
  rw [← List.take_append_drop m xs, List.pairwise_append] at sorted
  exact sorted.2.2 x high y low

/-- At most `m` elements have a key of at least `k` if none behind the first `m` has one. -/
theorem countP_le_iff (k : κ) (m : ℕ) :
    xs.countP (fun x => decide (k ≤ key x)) ≤ m ↔ ∀ x ∈ xs.drop m, key x < k := by
  have parts : xs.countP (fun x => decide (k ≤ key x)) =
      (xs.take m).countP (fun x => decide (k ≤ key x)) +
        (xs.drop m).countP fun x => decide (k ≤ key x) := by
    rw [← List.countP_append, List.take_append_drop]
  constructor
  · intro few x low
    by_contra large
    have whole : (xs.take m).countP (fun x => decide (k ≤ key x)) = (xs.take m).length := by
      refine List.countP_eq_length.mpr fun y high => decide_eq_true ?_
      exact (not_lt.mp large).trans (key_drop_le_take sorted high low)
    have one : 0 < (xs.drop m).countP fun x => decide (k ≤ key x) :=
      List.countP_pos_iff.mpr ⟨x, low, decide_eq_true (not_lt.mp large)⟩
    have long := List.length_pos_of_mem low
    rw [List.length_drop] at long
    rw [List.length_take] at whole
    omega
  · intro small
    have none : ((xs.drop m).countP fun x => decide (k ≤ key x)) = 0 := by
      refine List.countP_eq_zero.mpr fun x low => ?_
      rw [decide_eq_true_eq]
      exact not_le.mpr (small x low)
    have bound := (List.countP_le_length (l := xs.take m)
      (p := fun x => decide (k ≤ key x))).trans (List.length_take_le m xs)
    omega

variable (read : ∀ x y, key x = key y → number x = number y)
include read

/-- The first `m` are above the rest, and the rest falls, exactly if the key is harmless. -/
theorem split_iff (m : ℕ) :
    ((∀ a ∈ xs.take m, ∀ b ∈ xs.drop m, number b ≤ number a) ∧
        (xs.drop m).Pairwise fun a b => number b ≤ number a) ↔ Harmless key number xs m := by
  have either : ∀ x ∈ xs, x ∈ xs.take m ∨ x ∈ xs.drop m := by
    intro x member
    rwa [← List.mem_append, List.take_append_drop]
  simp only [Harmless, countP_le_iff sorted]
  constructor
  · intro ⟨above, falling⟩ a inA b inB less wrong x low
    by_contra large
    rcases either b inB with highB | lowB
    · -- The key of `b` reaches into the rest, so `x` has it too.
      have same : key x = key b :=
        le_antisymm (key_drop_le_take sorted highB low) (not_lt.mp large)
      have equal := read x b same
      rcases either a inA with highA | lowA
      · have le := above a highA x low
        omega
      · exact absurd wrong (not_lt.mpr (key_drop_le_take sorted highB lowA))
    · rcases either a inA with highA | lowA
      · have le := above a highA b lowB
        omega
      · -- Both are in the rest, which falls by the key and by the number.
        have right : (xs.drop m).Pairwise fun x y => key y < key x → number y ≤ number x := by
          refine falling.imp fun {x y} le => ?_
          exact fun _ => le
        have other : (xs.drop m).Pairwise (flip fun x y => key y < key x → number y ≤ number x) :=
          sorted.drop.imp fun le less => absurd less (not_lt.mpr le)
        have le := List.Pairwise.forall_of_forall_of_flip (fun x _ less => absurd less (lt_irrefl _))
          right other lowA lowB wrong
        omega
  · intro harmless
    have right : ∀ a ∈ xs, ∀ b ∈ xs.drop m, key b ≤ key a → number b ≤ number a := by
      intro a inA b low le
      have inB := List.mem_of_mem_drop low
      by_contra less
      have ne : key b ≠ key a := fun same => less (read b a same).le
      exact lt_irrefl _ (harmless a inA b inB (not_le.mp less) (lt_of_le_of_ne le ne) b low)
    constructor
    · intro a high b low
      exact right a (List.mem_of_mem_take high) b low (key_drop_le_take sorted high low)
    · refine sorted.drop.imp_of_mem fun {a b} lowA lowB le => ?_
      exact right a (List.mem_of_mem_drop lowA) b lowB le

end Sorted

/-! ## The split -/

section Split
variable {S : Type} [Score S]

def popularityText (db : MusicDb S) (artist : String) : String :=
  (db.artistInfo artist "popularity").getD ""

def popularityNumber (db : MusicDb S) (artist : String) : ℤ :=
  (int (popularityText db artist)).getD 0

/-- The ranking has the leaves, first the top half of `byPop` in some order, then the rest.  No
leaf of the top half is less popular than one of the rest, which falls in popularity. -/
structure SplitRight (popularity : String → ℤ) (leaves byPop ranked : List String) : Prop where
  perm : ranked.Perm leaves
  top : (ranked.take (leaves.length / 2)).Perm (byPop.take (leaves.length / 2))
  bottom : ranked.drop (leaves.length / 2) = byPop.drop (leaves.length / 2)
  above : ∀ a ∈ ranked.take (leaves.length / 2), ∀ b ∈ ranked.drop (leaves.length / 2),
    popularity b ≤ popularity a
  falling : (ranked.drop (leaves.length / 2)).Pairwise fun a b => popularity b ≤ popularity a

/-- A ranking that only moves the first half splits right if the sorted list does. -/
theorem splitRight_append {popularity : String → ℤ} {leaves byPop shuffled : List String}
    (perm : byPop.Perm leaves) (shuffle : shuffled.Perm (byPop.take (leaves.length / 2))) :
    SplitRight popularity leaves byPop (shuffled ++ byPop.drop (leaves.length / 2)) ↔
      (∀ a ∈ byPop.take (leaves.length / 2), ∀ b ∈ byPop.drop (leaves.length / 2),
        popularity b ≤ popularity a) ∧
      (byPop.drop (leaves.length / 2)).Pairwise fun a b => popularity b ≤ popularity a := by
  have length : shuffled.length = leaves.length / 2 := by
    rw [shuffle.length_eq, List.length_take, perm.length_eq]
    omega
  have first : (shuffled ++ byPop.drop (leaves.length / 2)).take (leaves.length / 2) = shuffled :=
    List.take_left' length
  have rest : (shuffled ++ byPop.drop (leaves.length / 2)).drop (leaves.length / 2) =
      byPop.drop (leaves.length / 2) := List.drop_left' length
  constructor
  · intro split
    have above := split.above
    have falling := split.falling
    rw [rest] at above falling
    rw [first] at above
    exact ⟨fun a high => above a (shuffle.mem_iff.mpr high), falling⟩
  · intro ⟨above, falling⟩
    constructor
    · have joined := shuffle.append_right (byPop.drop (leaves.length / 2))
      rw [List.take_append_drop] at joined
      exact joined.trans perm
    · rw [first]
      exact shuffle
    · exact rest
    · rw [first, rest]
      intro a high
      exact above a (shuffle.mem_iff.mp high)
    · rw [rest]
      exact falling

/-- For all leaves with a stored popularity that is a number, and every shuffle: the split is
right exactly if, whenever one leaf is less popular than another and the strings say otherwise,
the strings put the other, and all leaves with its string, in the top half. -/
theorem splitRight_iff (db : MusicDb S) (leaves : List String)
    (stored : ∀ x ∈ leaves, ∃ text number, db.artistInfo x "popularity" = some text ∧
      int text = some number) (tape : Tape) :
    ∃ byPop ranked, (run (machine S) (popSorted leaves) tape db.store).1 = .ok byPop ∧
      (run (machine S) (rankLeaves leaves) tape db.store).1 = .ok ranked ∧
      (SplitRight (popularityNumber db) leaves byPop ranked ↔
        Harmless (popularityText db) (popularityNumber db) leaves (leaves.length / 2)) := by
  obtain ⟨byPop, yields, perm, falls⟩ := yields_popSorted db leaves
  obtain ⟨_, listed, _⟩ := yields db.store (AgreeOff.refl _ _) tape
  obtain ⟨shuffled, _, _, ran, _, shuffle⟩ := run_rankLeaves yields (AgreeOff.refl _ _) tape
  have sorted : byPop.Pairwise fun a b => popularityText db b ≤ popularityText db a := by
    refine falls.imp_of_mem fun {a b} inA inB le => ?_
    obtain ⟨x, _, storedA, _⟩ := stored a (perm.mem_iff.mp inA)
    obtain ⟨y, _, storedB, _⟩ := stored b (perm.mem_iff.mp inB)
    rw [PopLe, storedA, storedB] at le
    rw [popularityText, popularityText, storedA, storedB]
    exact of_decide_eq_true le
  have read : ∀ x y, popularityText db x = popularityText db y →
      popularityNumber db x = popularityNumber db y := by
    intro x y same
    rw [popularityNumber, popularityNumber, same]
  rw [show byPop.length / 2 = leaves.length / 2 by rw [perm.length_eq]] at ran shuffle
  refine ⟨byPop, _, by rw [listed], by rw [ran], ?_⟩
  rw [← harmless_perm perm, ← split_iff sorted read]
  exact splitRight_append perm shuffle

theorem splitRight_iff_row :
    ∃ byPop ranked,
      (run (machine ℤ) (popSorted ["a", "b"]) (fun _ => 0) rowDb.store).1 = .ok byPop ∧
      (run (machine ℤ) (rankLeaves ["a", "b"]) (fun _ => 0) rowDb.store).1 = .ok ranked ∧
      (SplitRight (popularityNumber rowDb) ["a", "b"] byPop ranked ↔
        Harmless (popularityText rowDb) (popularityNumber rowDb) ["a", "b"]
          (["a", "b"].length / 2)) := by
  refine splitRight_iff rowDb ["a", "b"] ?_ fun _ => 0
  intro x member
  simp only [List.mem_cons, List.not_mem_nil, or_false] at member
  rcases member with rfl | rfl
  · exact ⟨"50", 50, by decide +kernel, by decide +kernel⟩
  · exact ⟨"60", 60, by decide +kernel, by decide +kernel⟩

/-- The popularities 60 and 7: the string of the second is the greater. -/
theorem not_splitRight :
    (run (machine ℤ) (popSorted ["b", "c"]) (fun _ => 0) rowDb.store).1 = .ok ["c", "b"] ∧
      (run (machine ℤ) (rankLeaves ["b", "c"]) (fun _ => 0) rowDb.store).1 = .ok ["c", "b"] ∧
      ¬ SplitRight (popularityNumber rowDb) ["b", "c"] ["c", "b"] ["c", "b"] := by
  refine ⟨by decide +kernel, by decide +kernel, fun split => ?_⟩
  have le := split.above "c" (List.mem_singleton_self _) "b" (List.mem_singleton_self _)
  revert le
  decide +kernel

end Split

end Phonograph.Server.PopularitySplit
