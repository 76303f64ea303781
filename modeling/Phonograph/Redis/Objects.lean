import Phonograph.Redis.Commands
import Phonograph.Redis.Ranks

/-! # What a sorted set holds

A sorted set, in either encoding, holds a table of scores.  The dictionary of a skip
list leads to the nodes of its entries, so each member has one entry. -/

set_option autoImplicit false

namespace Phonograph.Redis

open Phonograph.Lib

variable {S M : Type} [LinearOrder S] [LinearOrder M]

/-! ## Ziplists -/

omit [LinearOrder S] [LinearOrder M] in
def pairKey (pair : M × S) : S ×ₗ M := toLex (pair.2, pair.1)

section Ziplist
variable {pairs low high : List (M × S)} {table : M → Option S} {score : S} {ele : M}

omit [LinearOrder S] [LinearOrder M] in
theorem mem_map_pairKey : toLex (score, ele) ∈ pairs.map pairKey ↔ (ele, score) ∈ pairs := by
  rw [List.mem_map]
  constructor
  · rintro ⟨pair, inside, same⟩
    obtain ⟨rfl, rfl⟩ := Prod.mk.inj (toLex_inj.mp same)
    exact inside
  · intro inside
    exact ⟨_, inside, rfl⟩

theorem zzlFind_eq (ranking : Ranking (pairs.map pairKey) table) (ele : M) :
    zzlFind pairs ele = table ele := by
  rw [zzlFind]
  cases found : pairs.lookup ele with
  | none =>
      rw [List.lookup_eq_none_iff] at found
      cases stored : table ele with
      | none => rfl
      | some score =>
          have inside := mem_map_pairKey.mp ((ranking.mem score ele).mpr stored)
          have differs := found _ inside
          simp at differs
  | some score =>
      obtain ⟨front, rest, rfl, -⟩ := List.lookup_eq_some_iff.mp found
      rw [(ranking.mem score ele).mp (mem_map_pairKey.mpr (by simp))]

theorem zzlInsert_eq (before : ∀ pair ∈ low, pairKey pair < toLex (score, ele))
    (behind : ∀ pair ∈ high, toLex (score, ele) < pairKey pair) :
    zzlInsert ele score (low ++ high) = low ++ (ele, score) :: high := by
  induction low with
  | nil =>
      cases high with
      | nil => rfl
      | cons pair high =>
          have first := behind pair List.mem_cons_self
          rw [pairKey, Prod.Lex.toLex_lt_toLex] at first
          rw [List.nil_append, zzlInsert]
          rcases first with more | ⟨same, more⟩
          · rw [if_pos more]
            rfl
          · rw [if_pos (⟨same.symm, more⟩ : pair.2 = score ∧ pair.1 > ele), ite_self]
            rfl
  | cons pair low ih =>
      have first := before pair List.mem_cons_self
      rw [pairKey, Prod.Lex.toLex_lt_toLex] at first
      have rest := ih fun other inside => before other (List.mem_cons_of_mem _ inside)
      rw [List.cons_append, zzlInsert, rest]
      rcases first with less | ⟨same, less⟩
      · dsimp only at less
        rw [if_neg (by exact less.not_gt), if_neg (by exact fun both => less.ne both.1)]
        rfl
      · dsimp only at same less
        rw [if_neg (by rw [same]; exact lt_irrefl score),
          if_neg (by exact fun both => less.not_gt both.2)]
        rfl

theorem zzlDelete_eq (ranking : Ranking ((low ++ (ele, score) :: high).map pairKey) table) :
    zzlDelete (low ++ (ele, score) :: high) ele = low ++ high := by
  have members := ranking.nodup_members
  rw [List.map_map, List.map_append, List.map_cons, List.nodup_middle, List.nodup_cons] at members
  have other : ∀ pair ∈ low, ¬ (decide (pair.1 = ele)) = true := by
    intro pair inside same
    apply members.1
    rw [List.mem_append, List.mem_map]
    exact Or.inl ⟨pair, inside, of_decide_eq_true same⟩
  rw [zzlDelete, List.eraseP_append_right _ other, List.eraseP_cons_of_pos (by simp)]

end Ziplist

/-! ## Skip lists -/

structure Keeps (zs : Zset S M) (es : List (Entry S M)) : Prop where
  rep : Represents zs.zsl es
  dict : ∀ member ptr, zs.dict member = some ptr ↔ ∃ e ∈ es, e.obj = member ∧ e.ptr = ptr

section Skiplist
variable {zs : Zset S M} {es low high : List (Entry S M)} {table : M → Option S} {score : S} {ele : M}

theorem Keeps.nodup_members (keeps : Keeps zs es) : (es.map Entry.obj).Nodup := by
  have ptrs := (List.nodup_cons.mp keeps.rep.nodup).2
  apply List.Nodup.map_on _ ptrs.of_map
  intro e inside e' inside' same
  have left := (keeps.dict e.obj e.ptr).mpr ⟨e, inside, rfl, rfl⟩
  have right := (keeps.dict e.obj e'.ptr).mpr ⟨e', inside', same.symm, rfl⟩
  rw [left] at right
  exact List.inj_on_of_nodup_map ptrs inside inside' (Option.some.inj right)

omit [LinearOrder S] [LinearOrder M] in
theorem mem_map_key {key : S ×ₗ M} : key ∈ es.map Entry.key ↔
    ∃ e ∈ es, e.obj = (ofLex key).2 ∧ e.score = (ofLex key).1 := by
  rw [List.mem_map]
  constructor
  · rintro ⟨e, inside, rfl⟩
    exact ⟨e, inside, rfl, rfl⟩
  · rintro ⟨e, inside, member, score⟩
    exact ⟨e, inside, Prod.ext score member⟩

/-- A member is in the dictionary if it has a score, and the dictionary leads to it. -/
theorem Keeps.dict_eq (keeps : Keeps zs es) (ranking : Ranking (es.map Entry.key) table) (ele : M) :
    (table ele = none ∧ zs.dict ele = none) ∨
      ∃ low e high, es = low ++ e :: high ∧ e.obj = ele ∧ table ele = some e.score ∧
        zs.dict ele = some e.ptr := by
  cases stored : table ele with
  | none =>
      refine Or.inl ⟨rfl, ?_⟩
      cases found : zs.dict ele with
      | none => rfl
      | some ptr =>
          obtain ⟨e, inside, rfl, -⟩ := (keeps.dict ele ptr).mp found
          have score := (ranking.mem e.score e.obj).mp (List.mem_map_of_mem inside)
          rw [stored] at score
          cases score
  | some score =>
      obtain ⟨e, inside, rfl, rfl⟩ := mem_map_key.mp ((ranking.mem score ele).mpr stored)
      obtain ⟨low, high, rfl⟩ := List.append_of_mem inside
      exact Or.inr ⟨low, e, high, rfl, rfl, rfl, (keeps.dict e.obj e.ptr).mpr ⟨e, inside, rfl, rfl⟩⟩

/-- The place of a member without a score among the entries. -/
theorem split_entries (ranking : Ranking (es.map Entry.key) table) (score : S)
    (absent : table ele = none) :
    ∃ low high, es = low ++ high ∧ (∀ e ∈ low, e.key < toLex (score, ele)) ∧
      ∀ e ∈ high, toLex (score, ele) < e.key := by
  obtain ⟨low, high, split, before, behind⟩ := ranking.split score absent
  obtain ⟨lower, upper, rfl, rfl, rfl⟩ := List.map_eq_append_iff.mp split
  exact ⟨lower, upper, rfl, fun e inside => before _ (List.mem_map_of_mem inside),
    fun e inside => behind _ (List.mem_map_of_mem inside)⟩

theorem insert_keeps (score : S) {dict : M → Option Ptr} {zsl : Zskiplist S M}
    (rep : Represents zsl es)
    (kept : ∀ member, member ≠ ele → ∀ ptr, dict member = some ptr ↔ ∃ e ∈ es, e.obj = member ∧ e.ptr = ptr)
    (ranking : Ranking (es.map Entry.key) table) (absent : table ele = none) {level : ℕ} {x : Ptr}
    (pos : 0 < level) (bound : level ≤ maxLevel) (unused : zsl.heap.obj x = none) :
    ∃ zsl' es', zslInsert zsl score ele level x = some zsl' ∧
      Keeps ⟨Function.update dict ele (some x), zsl'⟩ es' ∧
      Ranking (es'.map Entry.key) (Function.update table ele (some score)) ∧
      zsl'.heap.obj = Function.update zsl.heap.obj x (some (some ele)) := by
  obtain ⟨low, high, rfl, before, behind⟩ := split_entries ranking score absent
  obtain ⟨zsl', ran, rep', objs⟩ :=
    insert_represents rep ⟨x, score, ele, level⟩ before behind pos bound unused
  have fresh : ∀ e ∈ low ++ high, e.obj ≠ ele := by
    rintro e inside rfl
    have stored := (ranking.mem e.score e.obj).mp (List.mem_map_of_mem inside)
    rw [absent] at stored
    cases stored
  refine ⟨zsl', _, ran, ⟨rep', ?_⟩, ?_, objs⟩
  · intro member ptr
    by_cases same : member = ele
    · subst same
      change Function.update dict member (some x) member = some ptr ↔ _
      rw [Function.update_self, Option.some.injEq]
      constructor
      · rintro rfl
        exact ⟨⟨x, score, member, level⟩, by simp, rfl, rfl⟩
      · rintro ⟨e, inside, obj, rfl⟩
        rw [List.mem_append, List.mem_cons, or_left_comm, ← List.mem_append] at inside
        rcases inside with rfl | inside
        · rfl
        · exact absurd obj (fresh e inside)
    · change Function.update dict ele (some x) member = some ptr ↔ _
      rw [Function.update_of_ne same, kept member same ptr]
      constructor
      · rintro ⟨e, inside, obj, at_⟩
        refine ⟨e, ?_, obj, at_⟩
        rw [List.mem_append, List.mem_cons, or_left_comm, ← List.mem_append]
        exact Or.inr inside
      · rintro ⟨e, inside, obj, at_⟩
        rw [List.mem_append, List.mem_cons, or_left_comm, ← List.mem_append] at inside
        rcases inside with rfl | inside
        · exact absurd obj.symm same
        · exact ⟨e, inside, obj, at_⟩
  · rw [List.map_append] at ranking
    have placed := ranking.insert score absent
      (fun key inside => by
        obtain ⟨e, listed, rfl⟩ := List.mem_map.mp inside
        exact before e listed)
      (fun key inside => by
        obtain ⟨e, listed, rfl⟩ := List.mem_map.mp inside
        exact behind e listed)
    rw [List.map_append, List.map_cons]
    exact placed

theorem addNode_keeps (score : S) (keeps : Keeps zs es) (ranking : Ranking (es.map Entry.key) table)
    (absent : table ele = none) {level : ℕ} {x : Ptr} (pos : 0 < level) (bound : level ≤ maxLevel)
    (unused : zs.zsl.heap.obj x = none) :
    ∃ zs' es', addNode zs ele score level x = some zs' ∧ Keeps zs' es' ∧
      Ranking (es'.map Entry.key) (Function.update table ele (some score)) ∧
      zs'.zsl.heap.obj = Function.update zs.zsl.heap.obj x (some (some ele)) := by
  obtain ⟨zsl', es', ran, keeps', ranking', objs⟩ := insert_keeps score keeps.rep
    (fun member _ ptr => keeps.dict member ptr) ranking absent pos bound unused
  have none : zs.dict ele = none := by
    rcases keeps.dict_eq ranking ele with ⟨_, none⟩ | ⟨_, _, _, _, _, stored, _⟩
    · exact none
    · rw [absent] at stored
      cases stored
  refine ⟨_, es', ?_, keeps', ranking', objs⟩
  rw [addNode, ran]
  simp only [Option.bind_eq_bind, Option.bind_some, none, if_true]

theorem delete_keeps {e : Entry S M} (keeps : Keeps zs (low ++ e :: high))
    (ranking : Ranking ((low ++ e :: high).map Entry.key) table) :
    ∃ zsl', zslDelete zs.zsl e.score e.obj = some (true, zsl') ∧ Represents zsl' (low ++ high) ∧
      Ranking ((low ++ high).map Entry.key) (Function.update table e.obj none) ∧
      (∀ member, member ≠ e.obj → ∀ ptr, zs.dict member = some ptr ↔
        ∃ e' ∈ low ++ high, e'.obj = member ∧ e'.ptr = ptr) ∧
      (∀ e' ∈ low ++ high, e'.obj ≠ e.obj) ∧
      zsl'.heap.obj = Function.update zs.zsl.heap.obj e.ptr none := by
  obtain ⟨zsl', ran, rep, objs⟩ := delete_represents keeps.rep
  have members := keeps.nodup_members
  rw [List.map_append, List.map_cons, List.nodup_middle,
    List.nodup_cons, ← List.map_append] at members
  refine ⟨zsl', ran, rep, ?_, ?_, ?_, objs⟩
  · rw [List.map_append, List.map_cons] at ranking
    rw [List.map_append]
    exact ranking.remove
  · intro member other ptr
    rw [keeps.dict]
    constructor
    · rintro ⟨e', inside, obj, at_⟩
      rw [List.mem_append, List.mem_cons, or_left_comm, ← List.mem_append] at inside
      rcases inside with rfl | inside
      · exact absurd obj.symm other
      · exact ⟨e', inside, obj, at_⟩
    · rintro ⟨e', inside, obj, at_⟩
      refine ⟨e', ?_, obj, at_⟩
      rw [List.mem_append, List.mem_cons, or_left_comm, ← List.mem_append]
      exact Or.inr inside
  · intro e' inside same
    exact members.1 (same ▸ List.mem_map_of_mem inside)

end Skiplist

end Phonograph.Redis
