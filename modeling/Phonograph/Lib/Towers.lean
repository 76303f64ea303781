import Mathlib.Data.List.DropRight
import Mathlib.Data.List.Nodup

/-! # Lists of towers

Every level below the height of a tower holds a link to the next tower that reaches
that level, with the number of places it crosses; the last link of a level counts the
towers that are left.  A search for a place lands, on each level, at the last tower
before the place that reaches the level.  `linked_insert` and `linked_remove` say
which links an insertion or a removal has to change: one on each level, where the
search for the place lands. -/

set_option autoImplicit false

namespace Phonograph.Lib.Towers

structure Tower (P : Type) where
  ptr : P
  height : ℕ

structure Link (P : Type) where
  forward : Option P
  span : ℕ

variable {P L : Type}

def link (i : ℕ) : List (Tower P) → Link P
  | [] => ⟨none, 0⟩
  | t :: ts => if i < t.height then ⟨some t.ptr, 1⟩ else ⟨(link i ts).forward, (link i ts).span + 1⟩

theorem link_append {i : ℕ} {mid : List (Tower P)} (low : ∀ t ∈ mid, t.height ≤ i)
    (rest : List (Tower P)) :
    link i (mid ++ rest) = ⟨(link i rest).forward, mid.length + (link i rest).span⟩ := by
  induction mid with
  | nil => simp
  | cons t mid ih =>
      have first : ¬ i < t.height := not_lt.mpr (low t List.mem_cons_self)
      rw [List.cons_append, link, if_neg first,
        ih fun t inside => low t (List.mem_cons_of_mem _ inside),
        List.length_cons]
      rw [Link.mk.injEq]
      exact ⟨rfl, Nat.add_right_comm ..⟩

theorem link_reach {i : ℕ} {t : Tower P} (reach : i < t.height) (rest : List (Tower P)) :
    link i (t :: rest) = ⟨some t.ptr, 1⟩ := by
  rw [link, if_pos reach]

theorem link_low {i : ℕ} {ts : List (Tower P)} (low : ∀ t ∈ ts, t.height ≤ i) :
    link i ts = ⟨none, ts.length⟩ := by
  have all := link_append low []
  rwa [List.append_nil] at all

/-- A list either stays below a level or has a first tower that reaches it. -/
theorem low_or_first (i : ℕ) (ts : List (Tower P)) :
    (∀ t ∈ ts, t.height ≤ i) ∨
      ∃ skipped t rest, ts = skipped ++ t :: rest ∧ (∀ s ∈ skipped, s.height ≤ i) ∧
        i < t.height := by
  induction ts with
  | nil => exact Or.inl fun t inside => absurd inside List.not_mem_nil
  | cons t ts ih =>
      by_cases reach : i < t.height
      · exact Or.inr ⟨[], t, ts, rfl, fun s inside => absurd inside List.not_mem_nil, reach⟩
      · have first : t.height ≤ i := not_lt.mp reach
        rcases ih with low | ⟨skipped, s, rest, rfl, low, high⟩
        · exact Or.inl (List.forall_mem_cons.mpr ⟨first, low⟩)
        · exact Or.inr ⟨t :: skipped, s, rest, rfl, List.forall_mem_cons.mpr ⟨first, low⟩, high⟩

theorem link_first {i : ℕ} {skipped : List (Tower P)} {t : Tower P}
    (low : ∀ s ∈ skipped, s.height ≤ i) (reach : i < t.height) (rest : List (Tower P)) :
    link i (skipped ++ t :: rest) = ⟨some t.ptr, skipped.length + 1⟩ := by
  rw [link_append low, link_reach reach]

/-- What follows a tower that reaches the level is not seen from before it. -/
theorem link_append_of_reach {i : ℕ} {mid : List (Tower P)} (reach : ¬ ∀ t ∈ mid, t.height ≤ i)
    (rest other : List (Tower P)) : link i (mid ++ rest) = link i (mid ++ other) := by
  rcases low_or_first i mid with low | ⟨skipped, t, last, rfl, low, high⟩
  · exact absurd low reach
  · rw [List.append_assoc, List.append_assoc, List.cons_append, List.cons_append,
      link_first low high, link_first low high]

theorem link_forward_eq_none {i : ℕ} {ts : List (Tower P)} :
    (link i ts).forward = none ↔ ∀ t ∈ ts, t.height ≤ i := by
  rcases low_or_first i ts with low | ⟨skipped, t, rest, rfl, low, high⟩
  · rw [link_low low]
    exact ⟨fun _ => low, fun _ => rfl⟩
  · rw [link_first low high]
    constructor
    · intro none
      cases none
    · intro all
      exact absurd (all t (by simp)) (not_le.mpr high)

/-! ## Where a search lands -/

structure Lands (i : ℕ) (low before : List (Tower P)) (t : Tower P) (mid : List (Tower P)) :
    Prop where
  split : low = before ++ t :: mid
  reach : i < t.height
  below : ∀ s ∈ mid, s.height ≤ i

theorem Lands.rdropWhile {i : ℕ} {low before mid : List (Tower P)} {t : Tower P}
    (lands : Lands i low before t mid) :
    low.rdropWhile (fun t => t.height ≤ i) = before ++ [t] := by
  have drop : ∀ mid : List (Tower P), (∀ s ∈ mid, s.height ≤ i) →
      ((before ++ [t]) ++ mid).rdropWhile (fun t => t.height ≤ i) = before ++ [t] := by
    intro mid
    induction mid using List.reverseRecOn with
    | nil =>
        intro _
        rw [List.append_nil]
        apply List.rdropWhile_concat_neg
        simpa using lands.reach
    | append_singleton mid s ih =>
        intro below
        rw [← List.append_assoc, List.rdropWhile_concat_pos]
        · exact ih fun s inside => below s (List.mem_append_left _ inside)
        · simpa using below s (by simp)
  rw [lands.split, ← drop mid lands.below, List.append_assoc, List.singleton_append]

theorem Lands.unique {i : ℕ} {low before before' mid mid' : List (Tower P)} {t t' : Tower P}
    (lands : Lands i low before t mid) (lands' : Lands i low before' t' mid') :
    before = before' ∧ t = t' ∧ mid = mid' := by
  have same : before ++ [t] = before' ++ [t'] := by rw [← lands.rdropWhile, lands'.rdropWhile]
  obtain ⟨rfl, last⟩ := List.append_inj' same rfl
  obtain rfl := List.singleton_inj.mp last
  have rest := lands.split.symm.trans lands'.split
  rw [List.append_cancel_left_eq, List.cons_inj_right] at rest
  exact ⟨rfl, rfl, rest⟩

theorem exists_lands {i : ℕ} {low : List (Tower P)} (reach : ∃ t ∈ low, i < t.height) :
    ∃ before t mid, Lands i low before t mid := by
  induction low with
  | nil =>
      obtain ⟨t, inside, _⟩ := reach
      cases inside
  | cons s low ih =>
      by_cases later : ∃ t ∈ low, i < t.height
      · obtain ⟨before, t, mid, lands⟩ := ih later
        exact ⟨s :: before, t, mid, by rw [lands.split, List.cons_append], lands.reach, lands.below⟩
      · obtain ⟨t, inside, high⟩ := reach
        have below : ∀ t ∈ low, t.height ≤ i := fun t inside =>
          not_lt.mp fun high => later ⟨t, inside, high⟩
        rcases List.mem_cons.mp inside with rfl | inside
        · exact ⟨[], t, low, rfl, high, below⟩
        · exact absurd ⟨t, inside, high⟩ later

/-- The height of the first tower does not matter as long as it reaches the level. -/
theorem Lands.first {i l h : ℕ} {p : P} {low before mid : List (Tower P)} {t : Tower P}
    (lands : Lands i (⟨p, h⟩ :: low) before t mid) (reach : i < l) :
    ∃ before' : List (Tower P), ∃ t' : Tower P, before'.length = before.length ∧ t'.ptr = t.ptr ∧
      Lands i (⟨p, l⟩ :: low) before' t' mid := by
  have split := lands.split
  cases before with
  | nil =>
      rw [List.nil_append, List.cons.injEq] at split
      obtain ⟨rfl, rfl⟩ := split
      exact ⟨[], ⟨p, l⟩, rfl, rfl, rfl, reach, lands.below⟩
  | cons s before =>
      rw [List.cons_append, List.cons.injEq] at split
      exact ⟨⟨p, l⟩ :: before, t, rfl, rfl, by rw [split.2, List.cons_append], lands.reach, lands.below⟩

/-! ## Linked lists -/

def Linked (encode : Link P → L) (stored : P → ℕ → Option L) (ts : List (Tower P)) : Prop :=
  ∀ before t rest, ts = before ++ t :: rest → ∀ i < t.height,
    stored t.ptr i = some (encode (link i rest))

theorem eq_of_ptr_eq {before before' mid mid' : List (Tower P)} {s t : Tower P}
    (nodup : ((before ++ s :: mid).map Tower.ptr).Nodup)
    (split : before ++ s :: mid = before' ++ t :: mid') (same : s.ptr = t.ptr) :
    before = before' ∧ mid = mid' := by
  have left : ((before ++ s :: mid).map Tower.ptr)[before.length]? = some s.ptr := by simp
  have right : ((before ++ s :: mid).map Tower.ptr)[before'.length]? = some t.ptr := by
    rw [split]
    simp
  have inside : before.length < ((before ++ s :: mid).map Tower.ptr).length := by simp
  have short : before.length = before'.length := by
    rw [← List.getElem?_inj inside nodup, left, right, same]
  obtain ⟨rfl, rest⟩ := List.append_inj split short
  exact ⟨rfl, (List.cons.inj rest).2⟩

theorem append_cons_cases {α : Type} {low high before rest : List α} {t s : α}
    (split : low ++ t :: high = before ++ s :: rest) :
    (∃ mid, low = before ++ s :: mid ∧ rest = mid ++ t :: high) ∨
    (before = low ∧ s = t ∧ rest = high) ∨
    (∃ mid, before = low ++ t :: mid ∧ high = mid ++ s :: rest) := by
  rcases List.append_eq_append_iff.mp split with ⟨mid, rfl, tail⟩ | ⟨mid, rfl, tail⟩
  · cases mid with
    | nil =>
        obtain ⟨rfl, rfl⟩ := List.cons.inj tail
        exact Or.inr (Or.inl ⟨List.append_nil _, rfl, rfl⟩)
    | cons u mid =>
        obtain ⟨rfl, rfl⟩ := List.cons.inj tail
        exact Or.inr (Or.inr ⟨mid, rfl, rfl⟩)
  · cases mid with
    | nil =>
        obtain ⟨rfl, rfl⟩ := List.cons.inj tail
        exact Or.inr (Or.inl ⟨(List.append_nil _).symm, rfl, rfl⟩)
    | cons u mid =>
        obtain ⟨rfl, rfl⟩ := List.cons.inj tail
        exact Or.inl ⟨mid, rfl, rfl⟩

theorem append_cases {α : Type} {low high before rest : List α} {s : α}
    (split : low ++ high = before ++ s :: rest) :
    (∃ mid, low = before ++ s :: mid ∧ rest = mid ++ high) ∨
    (∃ mid, before = low ++ mid ∧ high = mid ++ s :: rest) := by
  rcases List.append_eq_append_iff.mp split with ⟨mid, rfl, tail⟩ | ⟨mid, rfl, tail⟩
  · exact Or.inr ⟨mid, rfl, tail⟩
  · cases mid with
    | nil => exact Or.inr ⟨[], by rw [List.append_nil, List.append_nil], tail.symm⟩
    | cons u mid =>
        obtain ⟨rfl, rfl⟩ := List.cons.inj tail
        exact Or.inl ⟨mid, rfl, rfl⟩

section Change
variable {encode : Link P → L} {stored stored' : P → ℕ → Option L}
  {low high : List (Tower P)} {t : Tower P}

/-- A tower of `low` at which no search lands on level `i` sees another one of `low`. -/
theorem lands_or_reach {before mid : List (Tower P)} {s : Tower P} {i : ℕ}
    (nodup : (low.map Tower.ptr).Nodup) (split : low = before ++ s :: mid) (reach : i < s.height) :
    Lands i low before s mid ∨
      (¬ ∀ u ∈ mid, u.height ≤ i) ∧
      ∀ before' u mid', Lands i low before' u mid' → u.ptr ≠ s.ptr := by
  by_cases below : ∀ u ∈ mid, u.height ≤ i
  · exact Or.inl ⟨split, reach, below⟩
  · refine Or.inr ⟨below, fun before' u mid' lands same => below ?_⟩
    rw [split] at nodup
    rw [(eq_of_ptr_eq nodup (split.symm.trans lands.split) same.symm).2]
    exact lands.below

theorem ptr_ne_of_lands {i : ℕ} {before mid : List (Tower P)} {s u : Tower P}
    (nodup : ((low ++ high).map Tower.ptr).Nodup) (lands : Lands i low before u mid)
    (later : s ∈ high) : u.ptr ≠ s.ptr := by
  rw [List.map_append] at nodup
  have inside : u ∈ low := by simp [lands.split]
  intro same
  exact List.disjoint_of_nodup_append nodup (List.mem_map_of_mem inside)
    (same ▸ List.mem_map_of_mem later)

theorem linked_insert (linked : Linked encode stored (low ++ high))
    (nodup : ((low ++ high).map Tower.ptr).Nodup) (fresh : t.ptr ∉ (low ++ high).map Tower.ptr)
    (own : ∀ i < t.height, stored' t.ptr i = some (encode (link i high)))
    (crossing : ∀ i before s mid, Lands i low before s mid →
      stored' s.ptr i = some (encode (link i (mid ++ t :: high))))
    (others : ∀ y i, y ≠ t.ptr → (∀ before s mid, Lands i low before s mid → s.ptr ≠ y) →
      stored' y i = stored y i) :
    Linked encode stored' (low ++ t :: high) := by
  intro before s rest split i reach
  have apart : s ∈ low ++ high → s.ptr ≠ t.ptr := fun inside same =>
    fresh (same ▸ List.mem_map_of_mem inside)
  rcases append_cons_cases split with ⟨mid, left, rfl⟩ | ⟨rfl, rfl, rfl⟩ | ⟨mid, rfl, rfl⟩
  · have nodupLow : (low.map Tower.ptr).Nodup := by
      rw [List.map_append] at nodup
      exact nodup.of_append_left
    rcases lands_or_reach nodupLow left reach with lands | ⟨taller, away⟩
    · exact crossing i before s mid lands
    · rw [others s.ptr i (apart (by simp [left])) away, link_append_of_reach taller _ high]
      exact linked before s (mid ++ high) (by rw [left, List.append_assoc, List.cons_append]) i reach
  · exact own i reach
  · rw [others s.ptr i (apart (by simp)) fun before' u mid' lands => ptr_ne_of_lands nodup lands (by simp)]
    exact linked (low ++ mid) s rest (List.append_assoc ..).symm i reach

theorem linked_remove (linked : Linked encode stored (low ++ t :: high))
    (nodup : ((low ++ t :: high).map Tower.ptr).Nodup)
    (crossing : ∀ i before s mid, Lands i low before s mid →
      stored' s.ptr i = some (encode (link i (mid ++ high))))
    (others : ∀ y i, y ≠ t.ptr → (∀ before s mid, Lands i low before s mid → s.ptr ≠ y) →
      stored' y i = stored y i) :
    Linked encode stored' (low ++ high) := by
  intro before s rest split i reach
  have apart : s ∈ low ++ high → s.ptr ≠ t.ptr := by
    intro inside same
    rw [List.map_append, List.map_cons, List.nodup_middle] at nodup
    apply (List.nodup_cons.mp nodup).1
    rw [← same, ← List.map_append]
    exact List.mem_map_of_mem inside
  rcases append_cases split with ⟨mid, left, rfl⟩ | ⟨mid, rfl, rfl⟩
  · have nodupLow : (low.map Tower.ptr).Nodup := by
      rw [List.map_append] at nodup
      exact nodup.of_append_left
    rcases lands_or_reach nodupLow left reach with lands | ⟨taller, away⟩
    · exact crossing i before s mid lands
    · rw [others s.ptr i (apart (by simp [left])) away, link_append_of_reach taller _ (t :: high)]
      exact linked before s (mid ++ t :: high) (by rw [left, List.append_assoc, List.cons_append])
        i reach
  · rw [others s.ptr i (apart (by simp)) fun before' u mid' lands => ptr_ne_of_lands nodup lands (by simp)]
    exact linked (low ++ t :: mid) s rest (by rw [List.append_assoc, List.cons_append]) i reach

end Change

/-! ## Loops over the levels -/

/-- A loop whose pass over a level changes that level alone, whatever the passes before
it have done to theirs. -/
theorem foldlM_columns {α : Type} {step : (P → ℕ → α) → ℕ → Option (P → ℕ → α)} {m : P → ℕ → α}
    (column : ℕ → P → α) (a n : ℕ)
    (each : ∀ i, a ≤ i → i < a + n → ∀ m' : P → ℕ → α, (∀ y, m' y i = m y i) →
      step m' i = some fun y j => if j = i then column i y else m' y j) :
    (List.range' a n).foldlM step m =
      some fun y j => if a ≤ j ∧ j < a + n then column j y else m y j := by
  induction n with
  | zero =>
      have none : ∀ j, ¬ (a ≤ j ∧ j < a + 0) := fun j => by omega
      simp only [none, if_false]
      rfl
  | succ n ih =>
      rw [List.range'_concat, Nat.one_mul, List.foldlM_append,
        ih fun i ge lt => each i ge (by omega)]
      simp only [Option.bind_eq_bind, Option.bind_some, List.foldlM_cons, List.foldlM_nil]
      have last := each (a + n) (by omega) (by omega)
        (fun y j => if a ≤ j ∧ j < a + n then column j y else m y j) (fun y => by simp)
      rw [last]
      simp only [Option.bind_some, Option.pure_def, Option.some.injEq]
      funext y j
      by_cases here : j = a + n
      · rw [if_pos here, if_pos (by omega), here]
      · rw [if_neg here]
        by_cases before : a ≤ j ∧ j < a + n
        · rw [if_pos before, if_pos (by omega)]
        · rw [if_neg before, if_neg (by omega)]

end Phonograph.Lib.Towers
