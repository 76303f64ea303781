import Phonograph.Redis.Changes
import Phonograph.Server.Redis

/-! # The commands that read a sorted set

Both encodings answer from the ranking of the table they hold: a range is a part of it,
in either direction, and a rank is the number of entries before a member or behind it. -/

set_option autoImplicit false

namespace Phonograph.Redis

open Phonograph.Lib Phonograph.Server.Redis

variable {S M : Type} [LinearOrder S] [LinearOrder M]

/-! ## Ranges of a ziplist -/

section Ziplist
omit [LinearOrder S] [LinearOrder M]

theorem zzlRange_next (pairs : List (M × S)) (rangelen : ℕ) : ∀ index : ℕ,
    index + rangelen ≤ pairs.length →
    zzlRange pairs false rangelen (if index < pairs.length then some index else none) =
      some (((pairs.drop index).take rangelen).map Prod.fst) := by
  induction rangelen with
  | zero => exact fun _ _ => rfl
  | succ rangelen ih =>
      intro index short
      have inside : index < pairs.length := by omega
      have found := List.getElem?_eq_getElem inside
      rw [if_pos inside, List.drop_eq_getElem_cons inside]
      simp only [zzlRange, Option.bind_eq_bind, Option.bind_some, found, Bool.false_eq_true,
        if_false, ih (index + 1) (by omega), List.take_succ_cons, List.map_cons]

theorem zzlRange_prev (pairs : List (M × S)) (rangelen : ℕ) : ∀ count : ℕ, rangelen ≤ count →
    count ≤ pairs.length →
    zzlRange pairs true rangelen (if count = 0 then none else some (count - 1)) =
      some (((pairs.take count).reverse.take rangelen).map Prod.fst) := by
  induction rangelen with
  | zero => exact fun _ _ _ => rfl
  | succ rangelen ih =>
      intro count enough short
      obtain ⟨index, rfl⟩ := Nat.exists_eq_succ_of_ne_zero (show count ≠ 0 by omega)
      have inside : index < pairs.length := by omega
      have rest := ih index (by omega) (by omega)
      have found := List.getElem?_eq_getElem inside
      rw [if_neg (Nat.succ_ne_zero index), Nat.succ_sub_one,
        List.take_succ_eq_append_getElem inside, List.reverse_append]
      simp only [zzlRange, Option.bind_eq_bind, Option.bind_some, found, if_true, rest,
        List.reverse_singleton, List.singleton_append, List.take_succ_cons, List.map_cons]

end Ziplist

/-! ## Ranges of a skip list -/

section Skiplist
variable {zsl : Zskiplist S M} {es : List (Entry S M)}

theorem zslRange_next (rep : Represents zsl es) (rangelen : ℕ) : ∀ before rest : List (Entry S M),
    es = before ++ rest → rangelen ≤ rest.length →
    zslRange zsl.heap false rangelen (rest.head?.map Entry.ptr) =
      some ((rest.take rangelen).map Entry.obj) := by
  induction rangelen with
  | zero => exact fun _ _ _ _ => rfl
  | succ rangelen ih =>
      intro before rest split enough
      cases rest with
      | nil => exact absurd enough (Nat.not_succ_le_zero _)
      | cons e rest =>
          obtain ⟨span, next⟩ := rep.next split
          have behind := ih (before ++ [e]) rest (by rw [split]; simp) (by simpa using enough)
          have obj := rep.objs e (by rw [split]; simp)
          simp only [List.head?_cons, zslRange, next, obj, Option.bind_eq_bind, Option.bind_some,
            Bool.false_eq_true, if_false, Option.map_some, behind, List.take_succ_cons, List.map_cons]

theorem zslRange_prev (rep : Represents zsl es) (rangelen : ℕ) : ∀ before rest : List (Entry S M),
    es = before ++ rest → rangelen ≤ before.length →
    zslRange zsl.heap true rangelen (lastPtr before) =
      some ((before.reverse.take rangelen).map Entry.obj) := by
  induction rangelen with
  | zero => exact fun _ _ _ _ => rfl
  | succ rangelen ih =>
      intro before rest split enough
      rcases List.eq_nil_or_concat before with rfl | ⟨before, e, rfl⟩
      · exact absurd enough (Nat.not_succ_le_zero _)
      · rw [List.concat_eq_append] at split enough ⊢
        have arrange : es = before ++ e :: rest := by
          rw [split]
          simp
        have last : lastPtr (before ++ [e]) = some e.ptr := by simp [lastPtr]
        have front := ih before (e :: rest) arrange (by simpa using enough)
        have obj := rep.objs e (by rw [arrange]; simp)
        simp only [last, zslRange, rep.backward before e rest arrange, obj, Option.bind_eq_bind,
          Option.bind_some, if_true, front, List.reverse_append, List.reverse_singleton,
          List.singleton_append, List.take_succ_cons, List.map_cons]

theorem startNode_reverse (rep : Represents zsl es) (short : es.length < 2 ^ 32) {start : ℕ}
    (inside : start < es.length) :
    startNode zsl true es.length start = some (lastPtr (es.take (es.length - start))) := by
  rw [startNode, if_pos rfl]
  split_ifs with later
  · obtain ⟨index, found⟩ := Nat.exists_eq_succ_of_ne_zero (show es.length - start ≠ 0 by omega)
    have bound : index < es.length := by omega
    have last : lastPtr (es.take (index + 1)) = some es[index].ptr := by
      rw [List.take_succ_eq_append_getElem bound, lastPtr, List.getLast?_concat]
      rfl
    rw [getElementByRank_eq rep short, found, Nat.succ_eq_add_one, List.getElem?_cons_succ,
      List.getElem?_map, last, List.getElem?_eq_getElem bound]
    rfl
  · obtain rfl : start = 0 := by omega
    rw [rep.tail, Nat.sub_zero, List.take_length]

theorem startNode_forward (rep : Represents zsl es) (short : es.length < 2 ^ 32)
    (llen start : ℕ) :
    startNode zsl false llen start = some ((es.drop start).head?.map Entry.ptr) := by
  rw [startNode, if_neg Bool.false_ne_true]
  split_ifs with later
  · rw [getElementByRank_eq rep short, List.getElem?_cons_succ, List.getElem?_map, List.head?_drop]
  · obtain rfl : start = 0 := by omega
    obtain ⟨span, first⟩ := rep.first
    rw [first, List.drop_zero]
    rfl

end Skiplist

/-! ## Ranges -/

omit [LinearOrder S] [LinearOrder M] in
def walked (reverse : Bool) (keys : List (S ×ₗ M)) : List M :=
  let members := keys.map fun key => (ofLex key).2
  if reverse then members.reverse else members

theorem toInt_ofNat {n : ℕ} (short : n < 2 ^ 31) : (BitVec.ofNat 32 n).toInt = n := by
  rw [BitVec.toInt_eq_toNat_cond, BitVec.toNat_ofNat, Nat.mod_eq_of_lt (by omega),
    if_pos (by omega)]

theorem toNat_ofInt {n : ℤ} (nonneg : 0 ≤ n) (short : n < 2 ^ 32) :
    (BitVec.ofInt 32 n).toNat = n.toNat := by
  rw [BitVec.toNat_ofInt, Int.emod_eq_of_lt nonneg (by exact_mod_cast short)]

theorem reverse_drop_take {α β : Type} (f : α → β) {xs : List α} {start count : ℕ} :
    ((xs.take (xs.length - start)).reverse.take count).map f =
      ((xs.map f).reverse.drop start).take count := by
  rw [List.drop_reverse, List.length_map, List.map_take, List.map_reverse, List.map_take]

theorem rangeOf_eq {zobj : Object S M} {keys : List (S ×ₗ M)} (encodes : Encodes zobj keys)
    (short : keys.length < 2 ^ 32) (reverse : Bool) {start rangelen : ℕ}
    (inside : start < keys.length) (enough : start + rangelen ≤ keys.length) :
    rangeOf reverse keys.length start rangelen zobj =
      some (((walked reverse keys).drop start).take rangelen) := by
  cases encodes with
  | ziplist pairs =>
      rw [List.length_map] at inside enough
      have members : (pairs.map pairKey).map (fun key => (ofLex key).2) = pairs.map Prod.fst := by
        rw [List.map_map]
        rfl
      unfold rangeOf walked
      simp only [members]
      cases reverse with
      | false =>
          simp only [Bool.false_eq_true, if_false]
          rw [zzlRange_next pairs rangelen start enough, List.map_take, List.map_drop]
      | true =>
          have back := zzlRange_prev pairs rangelen (pairs.length - start) (by omega) (by omega)
          rw [if_neg (by omega), Nat.sub_right_comm, reverse_drop_take Prod.fst] at back
          have eptr : pairs.length - 1 - start < pairs.length := by omega
          simp only [if_true]
          rw [if_pos eptr]
          exact back
  | skiplist zs es keeps =>
      rw [List.length_map] at short inside enough
      have members : (es.map Entry.key).map (fun key => (ofLex key).2) = es.map Entry.obj := by
        rw [List.map_map]
        rfl
      unfold rangeOf walked
      simp only [members]
      cases reverse with
      | false =>
          have part := zslRange_next keeps.rep rangelen (es.take start) (es.drop start)
            (List.take_append_drop start es).symm (by rw [List.length_drop]; omega)
          simp only [startNode_forward keeps.rep short, Option.bind_eq_bind, Option.bind_some,
            part, Bool.false_eq_true, if_false, List.map_take, List.map_drop]
      | true =>
          have part := zslRange_prev keeps.rep rangelen (es.take (es.length - start))
            (es.drop (es.length - start)) (List.take_append_drop _ es).symm
            (by rw [List.length_take]; omega)
          rw [reverse_drop_take Entry.obj] at part
          simp only [List.length_map, startNode_reverse keeps.rep short inside, Option.bind_eq_bind,
            Option.bind_some, part, if_true]

/-- `ZRANGE` and `ZREVRANGE` reply with a part of the ranking. -/
theorem zrangeGeneric_eq {key : Option (Object S M)} {table : M → Option S}
    (holds : Holds key table)
    {keys : List (S ×ₗ M)} (ranking : Ranking keys table) (short : keys.length < 2 ^ 31)
    (reverse : Bool)
    (start stop : ℤ) :
    zrangeGeneric reverse start stop key = some (range start stop (walked reverse keys)) := by
  have length : (walked reverse keys).length = keys.length := by
    unfold walked
    cases reverse <;> simp
  cases key with
  | none =>
      obtain rfl := ranking.eq_nil_iff.mpr holds
      have empty : walked reverse ([] : List (S ×ₗ M)) = [] := by
        cases reverse <;> rfl
      rw [empty]
      simp only [zrangeGeneric, range, List.length_nil, List.drop_nil, List.take_nil, ite_self]
  | some zobj =>
      obtain ⟨keys', -, encodes, ranking'⟩ := holds
      obtain rfl := ranking.unique ranking'
      have llen : (zsetLength zobj).toInt = keys.length := by
        rw [zsetLength_eq encodes, toInt_ofNat short]
      have part : ∀ start rangelen : ℕ, start < keys.length → start + rangelen ≤ keys.length →
          rangeOf reverse keys.length start rangelen zobj = some _ :=
        fun start rangelen => rangeOf_eq encodes (by omega) reverse
      unfold zrangeGeneric range
      simp only [llen, length, Int.toNat_natCast]
      split_ifs
      all_goals first
        | rfl
        | rw [toNat_ofInt (by omega) (by omega)]
          exact part _ _ (by omega) (by omega)

/-! ## Ranks -/

omit [LinearOrder S] in
theorem zzlRank_of_notMem {pairs : List (M × S)} {ele : M} (absent : ele ∉ pairs.map Prod.fst) :
    ∀ rank : ℕ, zzlRank ele rank pairs = none := by
  induction pairs with
  | nil => exact fun _ => rfl
  | cons pair pairs ih =>
      intro rank
      rw [List.map_cons, List.mem_cons, not_or] at absent
      rw [zzlRank, if_neg (Ne.symm absent.1), ih absent.2]

omit [LinearOrder S] in
theorem zzlRank_append {low high : List (M × S)} {ele : M} {score : S}
    (absent : ele ∉ low.map Prod.fst) : ∀ rank : ℕ,
    zzlRank ele rank (low ++ (ele, score) :: high) = some (rank + low.length) := by
  induction low with
  | nil =>
      intro rank
      rw [List.nil_append, zzlRank, if_pos rfl]
      rfl
  | cons pair low ih =>
      intro rank
      rw [List.map_cons, List.mem_cons, not_or] at absent
      rw [List.cons_append, zzlRank, if_neg (Ne.symm absent.1), ih absent.2, List.length_cons]
      congr 1
      omega

theorem zrankGeneric_none {key : Option (Object S M)} {table : M → Option S}
    (holds : Holds key table)
    {ele : M} (absent : table ele = none) (reverse : Bool) :
    zrankGeneric reverse ele key = some none := by
  cases key with
  | none => rfl
  | some zobj =>
      obtain ⟨keys, nonempty, encodes, ranking⟩ := holds
      cases encodes with
      | ziplist pairs =>
          have fresh : ele ∉ pairs.map Prod.fst := by
            intro inside
            obtain ⟨pair, listed, rfl⟩ := List.mem_map.mp inside
            have found := (ranking.mem pair.2 pair.1).mp (List.mem_map_of_mem listed)
            rw [absent] at found
            cases found
          have some : pairs ≠ [] := fun nil => nonempty (by rw [nil]; rfl)
          rw [zrankGeneric, if_neg some, zzlRank_of_notMem fresh]
          rfl
      | skiplist zs es keeps =>
          rcases keeps.dict_eq ranking ele with ⟨_, none⟩ | ⟨_, _, _, _, _, found, _⟩
          · rw [zrankGeneric, none]
          · rw [absent] at found
            cases found

/-- `ZRANK` counts the entries before the member and `ZREVRANK` those behind it. -/
theorem zrankGeneric_some {key : Option (Object S M)} {table : M → Option S}
    (holds : Holds key table)
    {low high : List (S ×ₗ M)} {ele : M} {score : S}
    (ranking : Ranking (low ++ toLex (score, ele) :: high) table)
    (short : (low ++ toLex (score, ele) :: high).length < 2 ^ 32) (reverse : Bool) :
    zrankGeneric reverse ele key =
      some (some ((if reverse then high.length else low.length : ℕ) : ℤ)) := by
  cases key with
  | none =>
      have empty := ranking.eq_nil_iff.mpr holds
      simp at empty
  | some zobj =>
      obtain ⟨keys, nonempty, encodes, ranking'⟩ := holds
      have same := ranking'.unique ranking
      have count : (zsetLength zobj).toNat = low.length + (high.length + 1) := by
        rw [zsetLength_toNat encodes (by rwa [same]), same, List.length_append, List.length_cons]
      have members := ranking.nodup_members
      rw [List.map_append, List.map_cons, List.nodup_middle, List.nodup_cons] at members
      cases encodes with
      | ziplist pairs =>
          obtain ⟨lower, rest, rfl, rfl, tail⟩ := List.map_eq_append_iff.mp same
          obtain ⟨pair, upper, rfl, own, rfl⟩ := List.map_eq_cons_iff.mp tail
          obtain ⟨rfl, rfl⟩ := Prod.mk.inj (toLex_inj.mp own)
          have fresh : pair.1 ∉ lower.map Prod.fst := by
            intro inside
            obtain ⟨other, listed, equal⟩ := List.mem_map.mp inside
            apply members.1
            rw [List.map_map]
            exact List.mem_append_left _ (List.mem_map.mpr ⟨other, listed, equal⟩)
          rw [List.length_map, List.length_map] at count
          rw [zrankGeneric, count, if_neg (by simp), zzlRank_append fresh]
          cases reverse with
          | false => simp
          | true =>
              simp
              omega
      | skiplist zs es keeps =>
          obtain ⟨lower, rest, rfl, rfl, tail⟩ := List.map_eq_append_iff.mp same
          obtain ⟨e, upper, rfl, own, rfl⟩ := List.map_eq_cons_iff.mp tail
          obtain ⟨rfl, rfl⟩ := Prod.mk.inj (toLex_inj.mp own)
          have stored := (keeps.dict e.obj e.ptr).mpr ⟨e, by simp, rfl, rfl⟩
          have rank := getRank_eq keeps.rep (by simpa using short) keeps.nodup_members
          rw [List.length_map, List.length_map] at count
          rw [zrankGeneric, stored, count]
          simp only [keeps.rep.scores e (by simp), rank, Option.bind_eq_bind, Option.bind_some,
            Nat.succ_ne_zero, if_false]
          cases reverse with
          | false => simp
          | true =>
              simp

end Phonograph.Redis
