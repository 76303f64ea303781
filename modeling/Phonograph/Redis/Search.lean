import Mathlib.Tactic.Ring
import Phonograph.Lib.Ranking
import Phonograph.Lib.Towers
import Phonograph.Redis.Skiplist

/-! # What a skip list represents

`Represents` is the invariant between two operations: the nodes stand in the strict
order of score and member, every link leads to the next node that reaches its level
and counts the nodes it crosses, and no other node is allocated.  A search for a place finds on each level the node at
which the links have to change (`descend_found`). -/

set_option autoImplicit false

namespace Phonograph.Redis

open Phonograph.Lib Phonograph.Lib.Towers

structure Entry (S M : Type) where
  ptr : Ptr
  score : S
  obj : M
  height : ℕ

section
variable {S M : Type}

def Entry.tower (e : Entry S M) : Tower Ptr := ⟨e.ptr, e.height⟩

def Entry.key (e : Entry S M) : S ×ₗ M := toLex (e.score, e.obj)

def encode (l : Link Ptr) : Level := ⟨l.forward, (l.span : BitVec 32)⟩

def towers (header : Ptr) (level : ℕ) (es : List (Entry S M)) : List (Tower Ptr) :=
  ⟨header, level⟩ :: es.map Entry.tower

def lastPtr (es : List (Entry S M)) : Option Ptr := es.getLast?.map Entry.ptr

structure Represents [LT S] [LT M] (zsl : Zskiplist S M) (es : List (Entry S M)) : Prop where
  nodup : (zsl.header :: es.map Entry.ptr).Nodup
  objs : ∀ e ∈ es, zsl.heap.obj e.ptr = some (some e.obj)
  scores : ∀ e ∈ es, zsl.heap.score e.ptr = some e.score
  headerObj : zsl.heap.obj zsl.header = some none
  rest : ∀ y, y ∉ zsl.header :: es.map Entry.ptr → zsl.heap.obj y = none
  linked : Linked encode zsl.heap.level (towers zsl.header zsl.level es)
  spare : ∀ i, zsl.level ≤ i → i < maxLevel →
    ∃ span, zsl.heap.level zsl.header i = some ⟨none, span⟩
  heights : ∀ e ∈ es, 0 < e.height ∧ e.height ≤ zsl.level
  levels : 0 < zsl.level ∧ zsl.level ≤ maxLevel
  sorted : es.Pairwise fun a b => a.key < b.key
  backward : ∀ before e rest, es = before ++ e :: rest →
    zsl.heap.backward e.ptr = some (lastPtr before)
  tail : zsl.tail = lastPtr es
  length : zsl.length = es.length

theorem map_ptr_towers (header : Ptr) (level : ℕ) (es : List (Entry S M)) :
    (towers header level es).map Tower.ptr = header :: es.map Entry.ptr := by
  simp [towers, Entry.tower, Function.comp_def]

theorem towers_append (header : Ptr) (level : ℕ) (low high : List (Entry S M)) :
    towers header level (low ++ high) = towers header level low ++ high.map Entry.tower := by
  simp [towers]

end

theorem set_column {levels : Levels} {u : Ptr} {i : ℕ} {old value : Level}
    (stored : levels u i = some old) :
    levels.set u i value = some fun y j =>
      if j = i then (if y = u then some value else levels y i) else levels y j := by
  simp only [Levels.set, stored, Option.map_some, Option.some.injEq]
  funext y j
  by_cases level : j = i
  · simp [level]
  · simp [level]

/-! ## Walks -/

section Walk
variable {R : Type} {levels : Levels} {cross : R → BitVec 32 → R}
  {goes : R → BitVec 32 → Ptr → Option Bool} {rankOf : ℕ → R} {low high : List (Tower Ptr)}

/-- The test of a search lets exactly the towers of `low` pass, and its counter counts
the places crossed. -/
structure Seeks (cross : R → BitVec 32 → R) (goes : R → BitVec 32 → Ptr → Option Bool)
    (rankOf : ℕ → R) (low high : List (Tower Ptr)) : Prop where
  crossing : ∀ a b, a + b < (low ++ high).length → cross (rankOf a) (b : BitVec 32) = rankOf (a + b)
  test : ∀ before t rest, low ++ high = before ++ t :: rest → before ≠ [] →
    ∀ a b, a + b = before.length →
      goes (rankOf a) (b : BitVec 32) t.ptr = some (decide (before.length < low.length))

theorem walk_lands (linked : Linked encode levels (low ++ high))
    (seeks : Seeks cross goes rankOf low high)
    {i : ℕ} (fuel : ℕ) : ∀ (before mid : List (Tower Ptr)) (t : Tower Ptr),
    low = before ++ t :: mid → i < t.height → mid.length < fuel →
    ∃ before' t' mid', Lands i low before' t' mid' ∧
      walk levels cross goes i fuel (rankOf before.length) t.ptr = some (rankOf before'.length, t'.ptr) := by
  induction fuel with
  | zero =>
      intro before mid t _ _ short
      exact absurd short (Nat.not_lt_zero _)
  | succ fuel ih =>
      intro before mid t split reach short
      have whole : low ++ high = before ++ t :: (mid ++ high) := by
        rw [split, List.append_assoc, List.cons_append]
      have here := linked before t (mid ++ high) whole i reach
      rw [walk, here]
      simp only [Option.bind_eq_bind, Option.bind_some, encode]
      rcases low_or_first i mid with below | ⟨skipped, y, rest, rfl, below, taller⟩
      · -- the next tower of the level, if there is one, does not pass the test
        refine ⟨before, t, mid, ⟨split, reach, below⟩, ?_⟩
        rcases low_or_first i high with none | ⟨skipped, y, rest, rfl, under, taller⟩
        · rw [link_append below, link_low none]
        · have far : ∀ s ∈ mid ++ skipped, s.height ≤ i := by
            intro s inside
            rcases List.mem_append.mp inside with inside | inside
            · exact below s inside
            · exact under s inside
          rw [← List.append_assoc, link_first far taller]
          have place : low ++ (skipped ++ y :: rest) = (low ++ skipped) ++ y :: rest := by
            rw [List.append_assoc]
          have stops := seeks.test _ _ _ place (by simp [split]) before.length
            ((mid ++ skipped).length + 1) (by simp [split])
          have beyond : ¬ (low ++ skipped).length < low.length := by simp
          rw [decide_eq_false beyond] at stops
          simp only [stops, Option.bind_some, Bool.false_eq_true, if_false]
      · have place : low ++ high = (before ++ t :: skipped) ++ y :: (rest ++ high) := by
          rw [whole]
          simp
        have on := seeks.test _ _ _ place (by simp) before.length (skipped.length + 1) (by simp)
        have inside : (before ++ t :: skipped).length < low.length := by
          rw [split]
          simp
        rw [decide_eq_true inside] at on
        have count := seeks.crossing before.length (skipped.length + 1) (by
          rw [place]
          simp)
        rw [List.append_assoc, List.cons_append, link_first below taller]
        simp only [on, Option.bind_some, if_true, count]
        have next := ih (before ++ t :: skipped) rest y (by rw [split]; simp) taller (by
          rw [List.length_append, List.length_cons] at short
          omega)
        rwa [List.length_append, List.length_cons] at next

/-- What the search keeps for the first `n` levels: the node at which it landed, with
its rank. -/
structure Found (rankOf : ℕ → R) (low : List (Tower Ptr)) (n : ℕ) (found : List (R × Ptr)) :
    Prop where
  length : found.length = n
  lands : ∀ i before t mid, i < n → Lands i low before t mid →
    found[i]? = some (rankOf before.length, t.ptr)

theorem descend_found (linked : Linked encode levels (low ++ high))
    (seeks : Seeks cross goes rankOf low high) {fuel : ℕ} (enough : low.length ≤ fuel) (i : ℕ) :
    ∀ (before mid : List (Tower Ptr)) (t : Tower Ptr), low = before ++ t :: mid → i ≤ t.height →
    ∃ found, descend levels cross goes fuel i (rankOf before.length) t.ptr = some found ∧
      Found rankOf low i found := by
  induction i with
  | zero =>
      intro before mid t _ _
      exact ⟨[], rfl, rfl, fun i before t mid none => absurd none (Nat.not_lt_zero i)⟩
  | succ i ih =>
      intro before mid t split reach
      have short : mid.length < fuel := by
        rw [split, List.length_append, List.length_cons] at enough
        omega
      obtain ⟨before', t', mid', lands, walked⟩ :=
        walk_lands linked seeks fuel before mid t split reach short
      obtain ⟨found, ran, kept⟩ := ih before' mid' t' lands.split lands.reach.le
      refine ⟨found ++ [(rankOf before'.length, t'.ptr)], ?_, ?_, ?_⟩
      · rw [descend, walked]
        simp only [Option.bind_eq_bind, Option.bind_some, ran]
      · simp [kept.length]
      · intro j before'' t'' mid'' lt other
        rcases Nat.lt_succ_iff_lt_or_eq.mp lt with lower | rfl
        · rw [List.getElem?_append_left (by rw [kept.length]; exact lower)]
          exact kept.lands j before'' t'' mid'' lower other
        · obtain ⟨rfl, rfl, rfl⟩ := lands.unique other
          rw [List.getElem?_append_right (by rw [kept.length]), kept.length, Nat.sub_self]
          rfl

end Walk

/-! ## The place of a key -/

section Place
variable {S M : Type} [LinearOrder S] [LinearOrder M]

theorem comesBefore_lt {zsl : Zskiplist S M} {es : List (Entry S M)} (rep : Represents zsl es)
    (score : S) (obj : M) {e : Entry S M} (inside : e ∈ es) :
    comesBefore (fun a b => decide (a < b)) zsl.heap score obj e.ptr =
      some (decide (e.key < toLex (score, obj))) := by
  unfold comesBefore
  simp only [rep.scores e inside, rep.objs e inside, Option.bind_eq_bind, Option.bind_some,
    Entry.key, Prod.Lex.toLex_lt_toLex]
  rcases lt_trichotomy e.score score with less | same | more
  · simp [less]
  · simp [same]
  · simp [more.not_gt, more.ne']

theorem comesBefore_le {zsl : Zskiplist S M} {es : List (Entry S M)} (rep : Represents zsl es)
    (score : S) (obj : M) {e : Entry S M} (inside : e ∈ es) :
    comesBefore (fun a b => decide (a ≤ b)) zsl.heap score obj e.ptr =
      some (decide (e.key ≤ toLex (score, obj))) := by
  unfold comesBefore
  simp only [rep.scores e inside, rep.objs e inside, Option.bind_eq_bind, Option.bind_some,
    Entry.key, Prod.Lex.toLex_le_toLex]
  rcases lt_trichotomy e.score score with less | same | more
  · simp [less]
  · simp [same]
  · simp [more.not_gt, more.ne']

omit [LinearOrder S] [LinearOrder M] in
theorem seeks_entries {R : Type} {cross : R → BitVec 32 → R} {goes : Ptr → Option Bool}
    {rankOf : ℕ → R}
    {low high : List (Entry S M)} {header : Ptr} {level : ℕ}
    (crossing : ∀ a b, a + b ≤ (low ++ high).length → cross (rankOf a) (b : BitVec 32) = rankOf (a + b))
    (pass : ∀ e ∈ low, goes e.ptr = some true) (stop : ∀ e ∈ high, goes e.ptr = some false) :
    Seeks cross (fun _ _ y => goes y) rankOf (towers header level low) (high.map Entry.tower) where
  crossing a b short := by
    apply crossing
    rw [← towers_append] at short
    simpa [towers, Nat.lt_succ_iff] using short
  test before t rest split far a b _ := by
    rcases append_cases split with ⟨mid, left, _⟩ | ⟨mid, rfl, right⟩
    · have inside : before.length < (towers header level low).length := by
        rw [left]
        simp
      rw [decide_eq_true inside]
      cases before with
      | nil => exact absurd rfl far
      | cons u before =>
          rw [towers, List.cons_append, List.cons.injEq] at left
          have member : t ∈ low.map Entry.tower := by
            rw [left.2]
            simp
          obtain ⟨e, listed, rfl⟩ := List.mem_map.mp member
          exact pass e listed
    · have beyond : ¬ (towers header level low ++ mid).length < (towers header level low).length := by
        simp
      rw [decide_eq_false beyond]
      have member : t ∈ high.map Entry.tower := by
        rw [right]
        simp
      obtain ⟨e, listed, rfl⟩ := List.mem_map.mp member
      exact stop e listed

theorem search_found {R : Type} {cross : R → BitVec 32 → R}
    {goes : R → BitVec 32 → Ptr → Option Bool}
    {rankOf : ℕ → R} {zsl : Zskiplist S M} {low high : List (Entry S M)}
    (rep : Represents zsl (low ++ high))
    (seeks : Seeks cross goes rankOf (towers zsl.header zsl.level low) (high.map Entry.tower)) :
    ∃ found, descend zsl.heap.level cross goes (zsl.length + 1) zsl.level (rankOf 0) zsl.header =
        some found ∧
      Found rankOf (towers zsl.header zsl.level low) zsl.level found := by
  have linked := rep.linked
  rw [towers_append] at linked
  have enough : (towers zsl.header zsl.level low).length ≤ zsl.length + 1 := by
    rw [rep.length]
    simp [towers]
  exact descend_found linked seeks enough zsl.level [] (low.map Entry.tower) ⟨zsl.header, zsl.level⟩
    rfl le_rfl

end Place

end Phonograph.Redis
