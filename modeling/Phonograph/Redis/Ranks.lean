import Phonograph.Redis.Delete

/-! # Ranks

The spans add up to the number of nodes passed as long as they fit into an
`unsigned int`, that is, with fewer than `2 ^ 32` nodes. -/

set_option autoImplicit false

namespace Phonograph.Redis

open Phonograph.Lib Phonograph.Lib.Towers

theorem toNat_span {n : ℕ} (short : n < 2 ^ 32) : ((n : BitVec 32)).toNat = n := by
  rw [BitVec.natCast_eq_ofNat, BitVec.toNat_ofNat, Nat.mod_eq_of_lt short]

section Element
variable {S M : Type} [LinearOrder S] [LinearOrder M] {zsl : Zskiplist S M} {es : List (Entry S M)}

omit [LinearOrder S] [LinearOrder M] in
theorem seeks_rank (short : es.length < 2 ^ 32) (header : Ptr) (level rank : ℕ) :
    Seeks (fun traversed (span : BitVec 32) => traversed + span.toNat)
      (fun traversed span _ => some (decide (traversed + span.toNat ≤ rank))) id
      (towers header level (es.take rank)) ((es.drop rank).map Entry.tower) where
  crossing a b inside := by
    rw [← towers_append, List.take_append_drop] at inside
    rw [towers, List.length_cons, List.length_map] at inside
    rw [toNat_span (by omega)]
    rfl
  test before t rest split far a b sum := by
    rw [← towers_append, List.take_append_drop] at split
    have length := congrArg List.length split
    rw [towers, List.length_cons, List.length_map, List.length_append, List.length_cons] at length
    rw [toNat_span (by omega), id_eq, sum]
    simp only [towers, List.length_cons, List.length_map, List.length_take, Option.some.injEq,
      decide_eq_decide]
    omega

/-- The levels that are left find the tower of the rank looked for, if there is one. -/
theorem elementFrom_eq (rep : Represents zsl es) (short : es.length < 2 ^ 32) (rank i : ℕ) :
    ∀ (before mid : List (Tower Ptr)) (t : Tower Ptr),
      towers zsl.header zsl.level (es.take rank) = before ++ t :: mid → i ≤ t.height →
      (i = 0 → (towers zsl.header zsl.level es)[rank]? = none) →
      elementFrom zsl rank i before.length t.ptr =
        some ((towers zsl.header zsl.level es)[rank]?.map Tower.ptr) := by
  have whole : towers zsl.header zsl.level es =
      towers zsl.header zsl.level (es.take rank) ++ (es.drop rank).map Entry.tower := by
    rw [← towers_append, List.take_append_drop]
  have linked := rep.linked
  rw [whole] at linked
  induction i with
  | zero =>
      intro before mid t _ _ none
      rw [elementFrom, none rfl]
      rfl
  | succ i ih =>
      intro before mid t split reach _
      have enough : mid.length < zsl.length + 1 := by
        have length := congrArg List.length split
        simp only [towers, List.length_cons, List.length_map, List.length_take,
          List.length_append] at length
        rw [rep.length]
        omega
      obtain ⟨before', t', mid', lands, walked⟩ :=
        walk_lands linked (seeks_rank short zsl.header zsl.level rank) (zsl.length + 1) before mid t split
          reach enough
      simp only [id_eq] at walked
      rw [elementFrom]
      simp only [walked, Option.bind_eq_bind, Option.bind_some]
      by_cases there : before'.length = rank
      · have at_ : (towers zsl.header zsl.level es)[rank]? = some t' := by
          rw [whole, lands.split, ← there]
          simp
        rw [if_pos there, at_]
        rfl
      · rw [if_neg there]
        apply ih before' mid' t' lands.split lands.reach.le
        rintro rfl
        have last := (lands_zero rep.levels.1 (fun e inside =>
          (rep.heights e (List.mem_of_mem_take inside)).1) lands).1
        rw [List.length_take] at last
        rw [List.getElem?_eq_none]
        rw [towers, List.length_cons, List.length_map]
        omega

/-- `zslGetElementByRank` gives the node of every rank from one on, and the header for
the rank zero. -/
theorem getElementByRank_eq (rep : Represents zsl es) (short : es.length < 2 ^ 32) (rank : ℕ) :
    zslGetElementByRank zsl rank = some ((zsl.header :: es.map Entry.ptr)[rank]?) := by
  rw [zslGetElementByRank, ← map_ptr_towers zsl.header zsl.level, List.getElem?_map]
  exact elementFrom_eq rep short rank zsl.level [] _ ⟨zsl.header, zsl.level⟩ rfl le_rfl fun zero =>
    absurd zero rep.levels.1.ne'

end Element

section Rank
variable {S M : Type} [LinearOrder S] [LinearOrder M] {zsl : Zskiplist S M} {low high : List (Entry S M)}

theorem seeks_le (rep : Represents zsl (low ++ high)) (short : (low ++ high).length < 2 ^ 32)
    {score : S} {o : M} (before : ∀ e ∈ low, e.key ≤ toLex (score, o))
    (behind : ∀ e ∈ high, ¬ e.key ≤ toLex (score, o)) :
    Seeks (fun rank (span : BitVec 32) => rank + span.toNat)
      (fun _ _ y => comesBefore (fun a b => decide (a ≤ b)) zsl.heap score o y) id
      (towers zsl.header zsl.level low) (high.map Entry.tower) := by
  apply seeks_entries
  · intro a b inside
    rw [toNat_span (by omega)]
    rfl
  · intro e inside
    rw [comesBefore_le rep score o (List.mem_append_left _ inside),
      decide_eq_true (before e inside)]
  · intro e inside
    rw [comesBefore_le rep score o (List.mem_append_right _ inside),
      decide_eq_false (behind e inside)]

/-- One level of `zslGetRank`: the node at which it lands, and whether it is that of the
member. -/
theorem rankFrom_succ (rep : Represents zsl (low ++ high)) (short : (low ++ high).length < 2 ^ 32)
    {score : S} {o : M} (le : ∀ e ∈ low, e.key ≤ toLex (score, o))
    (behind : ∀ e ∈ high, ¬ e.key ≤ toLex (score, o)) {i : ℕ} {before mid : List (Tower Ptr)}
    {t : Tower Ptr} (split : towers zsl.header zsl.level low = before ++ t :: mid)
    (reach : i < t.height) :
    ∃ before' t' mid', Lands i (towers zsl.header zsl.level low) before' t' mid' ∧
      rankFrom zsl score o (i + 1) before.length t.ptr =
        (zsl.heap.obj t'.ptr).bind fun member =>
          if member = some o then some before'.length else rankFrom zsl score o i before'.length t'.ptr := by
  have linked := rep.linked
  rw [towers_append] at linked
  have enough : mid.length < zsl.length + 1 := by
    have length := congrArg List.length split
    simp only [towers, List.length_cons, List.length_map, List.length_append] at length
    rw [rep.length, List.length_append]
    omega
  obtain ⟨before', t', mid', lands, walked⟩ :=
    walk_lands linked (seeks_le rep short le behind) (zsl.length + 1) before mid t split reach enough
  simp only [id_eq] at walked
  refine ⟨before', t', mid', lands, ?_⟩
  rw [rankFrom]
  simp only [walked, Option.bind_eq_bind, Option.bind_some]

omit [LinearOrder S] [LinearOrder M] in
/-- A tower of the list is the header or that of an entry, in front of which stand the
header and the entries before it. -/
theorem tower_cases {header : Ptr} {level : ℕ} {es : List (Entry S M)}
    {before mid : List (Tower Ptr)}
    {t : Tower Ptr} (split : towers header level es = before ++ t :: mid) :
    (before = [] ∧ t.ptr = header) ∨
      ∃ front e rest, es = front ++ e :: rest ∧ before.length = front.length + 1 ∧ t = e.tower := by
  cases before with
  | nil =>
      rw [towers, List.nil_append, List.cons.injEq] at split
      exact Or.inl ⟨rfl, by rw [← split.1]⟩
  | cons u before =>
      rw [towers, List.cons_append, List.cons.injEq] at split
      obtain ⟨front, rest, rfl, rfl, behind⟩ := List.map_eq_append_iff.mp split.2
      obtain ⟨e, rest, rfl, rfl, rfl⟩ := List.map_eq_cons_iff.mp behind
      exact Or.inr ⟨front, e, rest, rfl, by simp, rfl⟩

theorem rankFrom_eq {e : Entry S M} (rep : Represents zsl ((low ++ [e]) ++ high))
    (short : ((low ++ [e]) ++ high).length < 2 ^ 32)
    (members : (((low ++ [e]) ++ high).map Entry.obj).Nodup)
    (le : ∀ e' ∈ low ++ [e], e'.key ≤ toLex (e.score, e.obj))
    (behind : ∀ e' ∈ high, ¬ e'.key ≤ toLex (e.score, e.obj)) (i : ℕ) :
    ∀ (before mid : List (Tower Ptr)) (t : Tower Ptr),
      towers zsl.header zsl.level (low ++ [e]) = before ++ t :: mid → i < t.height →
      rankFrom zsl e.score e.obj (i + 1) before.length t.ptr = some (low.length + 1) := by
  induction i with
  | zero =>
      intro before mid t split reach
      obtain ⟨before', t', mid', lands, next⟩ := rankFrom_succ rep short le behind split reach
      have last := lands_zero rep.levels.1
        (fun e inside => (rep.heights e (List.mem_append_left _ inside)).1) lands
      have own : t'.ptr = e.ptr := by simp [last.2, lastPtr]
      rw [next, own, rep.objs e (by simp), Option.bind_some, if_pos rfl, last.1]
      simp
  | succ i ih =>
      intro before mid t split reach
      obtain ⟨before', t', mid', lands, next⟩ := rankFrom_succ rep short le behind split reach
      rw [next]
      rcases tower_cases lands.split with ⟨rfl, header⟩ | ⟨front, e', rest, place, count, rfl⟩
      · have again := ih [] mid' t' lands.split (by have := lands.reach; omega)
        rw [header, rep.headerObj, Option.bind_some, if_neg (by simp)]
        rw [header] at again
        exact again
      · have inside : e' ∈ (low ++ [e]) ++ high := by
          rw [place]
          simp
        change (zsl.heap.obj e'.ptr).bind _ = _
        rw [rep.objs e' inside, Option.bind_some]
        by_cases same : e'.obj = e.obj
        · -- the members are distinct, so this is the entry itself
          have left : (((low ++ [e]) ++ high).map Entry.obj)[front.length]? = some e'.obj := by
            rw [place]
            simp
          have right : (((low ++ [e]) ++ high).map Entry.obj)[low.length]? = some e.obj := by simp
          have bound : low.length < (((low ++ [e]) ++ high).map Entry.obj).length := by
            simp
          have position : low.length = front.length := by
            rw [← List.getElem?_inj bound members, left, right, same]
          rw [same, if_pos rfl, count, position]
        · rw [if_neg fun both => same (Option.some.inj both)]
          exact ih before' mid' e'.tower lands.split (by have := lands.reach; omega)

/-- `zslGetRank` counts the entries up to the one looked for. -/
theorem getRank_eq {e : Entry S M} (rep : Represents zsl (low ++ e :: high))
    (short : (low ++ e :: high).length < 2 ^ 32)
    (members : ((low ++ e :: high).map Entry.obj).Nodup) :
    zslGetRank zsl e.score e.obj = some (low.length + 1) := by
  have sorted := List.pairwise_append.mp rep.sorted
  have arrange : low ++ e :: high = (low ++ [e]) ++ high := by simp
  rw [arrange] at rep short members
  have le : ∀ e' ∈ low ++ [e], e'.key ≤ toLex (e.score, e.obj) := by
    intro e' inside
    rcases List.mem_append.mp inside with inside | inside
    · exact (sorted.2.2 e' inside e List.mem_cons_self).le
    · rw [List.mem_singleton.mp inside]
      exact le_rfl
  have behind : ∀ e' ∈ high, ¬ e'.key ≤ toLex (e.score, e.obj) := fun e' inside =>
    ((List.pairwise_cons.mp sorted.2.1).1 e' inside).not_ge
  obtain ⟨i, level⟩ := Nat.exists_eq_succ_of_ne_zero rep.levels.1.ne'
  have ran := rankFrom_eq rep short members le behind i [] _ ⟨zsl.header, zsl.level⟩ rfl
    (by rw [level]; exact Nat.lt_succ_self i)
  rw [zslGetRank, level]
  exact ran

end Rank

end Phonograph.Redis
