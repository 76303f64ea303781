import Phonograph.Lib.Sorting
import Phonograph.Redis.Objects

/-! # The commands that change a sorted set

Whatever encoding a set has and whichever one a command turns it into, the command
answers as its table tells, and the set holds the changed table. -/

set_option autoImplicit false

namespace Phonograph.Redis

open Phonograph.Lib Phonograph.Lib.Towers

variable {S M : Type} [LinearOrder S] [LinearOrder M]

/-! ## What a set holds -/

inductive Encodes : Object S M → List (S ×ₗ M) → Prop where
  | ziplist (pairs : List (M × S)) : Encodes (.ziplist pairs) (pairs.map pairKey)
  | skiplist (zs : Zset S M) (es : List (Entry S M)) (keeps : Keeps zs es) :
      Encodes (.skiplist zs) (es.map Entry.key)

def Holds : Option (Object S M) → (M → Option S) → Prop
  | none, table => ∀ member, table member = none
  | some zobj, table => ∃ keys, keys ≠ [] ∧ Encodes zobj keys ∧ Ranking keys table

theorem exists_ranking {key : Option (Object S M)} {table : M → Option S}
    (holds : Holds key table) :
    ∃ keys, Ranking keys table := by
  cases key with
  | none => exact ⟨[], List.Pairwise.nil, by simp [holds _]⟩
  | some zobj =>
      obtain ⟨keys, -, -, ranking⟩ := holds
      exact ⟨keys, ranking⟩

structure Supply.Sound (supply : Supply) : Prop where
  levels : ∀ i, 0 < supply.level i ∧ supply.level i ≤ maxLevel
  distinct : Function.Injective supply.node
  header : ∀ i, supply.node i ≠ supply.header
  sorts : ∀ lengths, Sorts (supply.qsort lengths) lengths

/-- The addresses given out are not in use, but for those of the elements that a command is
about: it gives a node free before it asks for another one. -/
structure Suits (supply : Supply) (key : Option (Object S M)) (elements : List M) : Prop
    extends supply.Sound where
  unused : ∀ zs, key = some (.skiplist zs) → ∀ i, zs.zsl.heap.obj (supply.node i) = none ∨
    ∃ ele ∈ elements, zs.dict ele = some (supply.node i)

/-! ## Conversions -/

theorem create_represents [Zero S] (header : Ptr) :
    Represents (zslCreate header : Zskiplist S M) [] where
  nodup := by simp
  objs := by simp
  scores := by simp
  headerObj := Function.update_self _ _ _
  rest := by
    intro y outside
    exact Function.update_of_ne (fun same => outside (by rw [same]; exact List.mem_cons_self)) _ _
  linked := by
    intro before t rest split i reach
    obtain ⟨rfl, tail⟩ : before = [] ∧ [(⟨header, 1⟩ : Tower Ptr)] = t :: rest := by
      cases before with
      | nil => exact ⟨rfl, split⟩
      | cons u before => simp [towers] at split
    obtain ⟨rfl, rfl⟩ := List.cons.inj tail
    obtain rfl : i = 0 := Nat.lt_one_iff.mp reach
    simp [zslCreate, zslCreateNode, maxLevel, encode, link]
  spare := by
    intro i _ lt
    exact ⟨0, by simp [zslCreate, zslCreateNode, lt]⟩
  heights := by simp
  levels := ⟨Nat.one_pos, by simp [zslCreate, maxLevel]⟩
  sorted := List.Pairwise.nil
  backward := by simp
  tail := rfl
  length := rfl

theorem create_keeps [Zero S] (supply : Supply) : Keeps (createZset supply : Zset S M) [] where
  rep := create_represents supply.header
  dict := by simp [createZset]

omit [LinearOrder S] [LinearOrder M] in
theorem createZset_unused [Zero S] {supply : Supply} (sound : supply.Sound) (i : ℕ) :
    (createZset supply : Zset S M).zsl.heap.obj (supply.node i) = none :=
  Function.update_of_ne (sound.header i) _ _

omit [LinearOrder S] in
theorem lookup_concat {pairs : List (M × S)} {pair : M × S} (fresh : pair.1 ∉ pairs.map Prod.fst) :
    (fun member => (pairs ++ [pair]).lookup member) =
      Function.update (fun member => pairs.lookup member) pair.1 (some pair.2) := by
  have none : pairs.lookup pair.1 = none := by
    rw [List.lookup_eq_none_iff]
    intro other inside
    have differs : pair.1 ≠ other.1 := fun same => fresh (same ▸ List.mem_map_of_mem inside)
    simp [differs]
  funext member
  rw [List.lookup_append, List.lookup_cons, List.lookup_nil]
  by_cases same : member = pair.1
  · subst same
    simp [none]
  · rw [Function.update_of_ne same, beq_false_of_ne same]
    simp

/-- Elements that are all different can be added one after the other, in any order. -/
theorem addNodes_keeps [Zero S] {supply : Supply} (sound : supply.Sound) (pairs : List (M × S))
    (distinct : (pairs.map Prod.fst).Nodup) :
    ∃ zs es, addNodes supply pairs = some zs ∧ Keeps zs es ∧
      Ranking (es.map Entry.key) (fun member => pairs.lookup member) ∧
      ∀ i, pairs.length ≤ i → zs.zsl.heap.obj (supply.node i) = none := by
  induction pairs using List.reverseRecOn with
  | nil =>
      exact ⟨createZset supply, [], rfl, create_keeps supply, ⟨List.Pairwise.nil, by simp⟩,
        fun i _ => createZset_unused sound i⟩
  | append_singleton pairs pair ih =>
      rw [List.map_append, List.map_singleton, List.nodup_append] at distinct
      have fresh : pair.1 ∉ pairs.map Prod.fst := fun inside =>
        distinct.2.2 _ inside _ (List.mem_singleton_self _) rfl
      obtain ⟨zs, es, ran, keeps, ranking, unused⟩ := ih distinct.1
      have absent : pairs.lookup pair.1 = none := by
        rw [List.lookup_eq_none_iff]
        intro other inside
        have differs : pair.1 ≠ other.1 := fun same => fresh (same ▸ List.mem_map_of_mem inside)
        simp [differs]
      have level := sound.levels pairs.length
      obtain ⟨zs', es', added, keeps', ranking', objs⟩ := addNode_keeps pair.2 keeps ranking
        absent level.1 level.2 (unused pairs.length le_rfl)
      refine ⟨zs', es', ?_, keeps', ?_, ?_⟩
      · unfold addNodes at ran ⊢
        rw [List.zipIdx_append, List.foldlM_append, ran]
        simp only [Option.bind_eq_bind, Option.bind_some, List.zipIdx_singleton, List.foldlM_cons,
          List.foldlM_nil, Nat.zero_add, added]
        rfl
      · rw [lookup_concat fresh]
        exact ranking'
      · intro i ge
        rw [List.length_append, List.length_singleton] at ge
        have other : supply.node i ≠ supply.node pairs.length := fun same =>
          absurd (sound.distinct same) (by omega)
        rw [objs, Function.update_of_ne other]
        exact unused i (by omega)

section Walk
variable {zsl : Zskiplist S M} {es : List (Entry S M)}

omit [LinearOrder S] [LinearOrder M] in
theorem forward_zero {rest : List (Entry S M)} (heights : ∀ e ∈ rest, 0 < e.height) :
    (link 0 (rest.map Entry.tower)).forward = rest.head?.map Entry.ptr := by
  cases rest with
  | nil => rfl
  | cons e rest =>
      rw [List.map_cons, link_zero (heights e List.mem_cons_self)]
      rfl

theorem Represents.next (rep : Represents zsl es) {before rest : List (Entry S M)} {e : Entry S M}
    (split : es = before ++ e :: rest) :
    ∃ span, zsl.heap.level e.ptr 0 = some ⟨rest.head?.map Entry.ptr, span⟩ := by
  subst split
  have stored := rep.linked (towers zsl.header zsl.level before) e.tower (rest.map Entry.tower)
    (towers_append ..) 0 (rep.heights e (by simp)).1
  have heights : ∀ e ∈ rest, 0 < e.height := fun e inside => (rep.heights e (by simp [inside])).1
  rw [← forward_zero heights]
  exact ⟨_, stored⟩

theorem Represents.first (rep : Represents zsl es) :
    ∃ span, zsl.heap.level zsl.header 0 = some ⟨es.head?.map Entry.ptr, span⟩ := by
  have stored := rep.linked [] ⟨zsl.header, zsl.level⟩ (es.map Entry.tower) rfl 0 rep.levels.1
  rw [← forward_zero fun e inside => (rep.heights e inside).1]
  exact ⟨_, stored⟩

theorem pairsFrom_eq (rep : Represents zsl es) (fuel : ℕ) : ∀ before rest : List (Entry S M),
    es = before ++ rest → rest.length ≤ fuel →
    pairsFrom zsl.heap fuel (rest.head?.map Entry.ptr) = some (rest.map fun e => (e.obj, e.score)) := by
  induction fuel with
  | zero =>
      intro before rest _ short
      rw [List.length_eq_zero_iff.mp (Nat.le_zero.mp short)]
      rfl
  | succ fuel ih =>
      intro before rest split short
      cases rest with
      | nil => rfl
      | cons e rest =>
          have inside : e ∈ es := by
            rw [split]
            simp
          obtain ⟨span, next⟩ := rep.next split
          have behind := ih (before ++ [e]) rest (by rw [split]; simp) (by simpa using short)
          rw [List.head?_cons, Option.map_some, pairsFrom, rep.objs e inside, rep.scores e inside,
            next]
          simp only [Option.bind_eq_bind, Option.bind_some, behind, List.map_cons]

theorem skiplistPairs_eq {zs : Zset S M} (rep : Represents zs.zsl es) :
    skiplistPairs zs = some (es.map fun e => (e.obj, e.score)) := by
  obtain ⟨span, first⟩ := rep.first
  rw [skiplistPairs, first]
  simp only [Option.bind_eq_bind, Option.bind_some]
  exact pairsFrom_eq rep _ [] es rfl rep.length.ge

end Walk

/-! ## Adding -/

def addTo (server : Server S M) (incr : Bool) (score : S) (ele : M) (table : M → Option S) :
    (M → Option S) × Reply S :=
  match table ele with
  | none => (Function.update table ele (some score), addReply incr 1 score)
  | some curscore =>
      match newScore server incr score curscore with
      | none => (table, .nan)
      | some score => (Function.update table ele (some score), addReply incr 0 score)

section Add
variable {server : Server S M} {incr : Bool} {score : S} {ele : M} {supply : Supply}
  {table : M → Option S}

theorem holds_ziplist {pairs : List (M × S)} {member : M} {own : S}
    (ranking : Ranking (pairs.map pairKey) table) (found : table member = some own) :
    Holds (some (.ziplist pairs)) table :=
  ⟨_, ranking.ne_nil found, .ziplist pairs, ranking⟩

theorem holds_skiplist {zs : Zset S M} {es : List (Entry S M)} {member : M} {own : S}
    (keeps : Keeps zs es)
    (ranking : Ranking (es.map Entry.key) table) (found : table member = some own) :
    Holds (some (.skiplist zs)) table :=
  ⟨_, ranking.ne_nil found, .skiplist zs es keeps, ranking⟩

theorem zzlInsert_ranking {pairs : List (M × S)} (ranking : Ranking (pairs.map pairKey) table)
    (score : S) (absent : table ele = none) :
    Ranking ((zzlInsert ele score pairs).map pairKey) (Function.update table ele (some score)) := by
  obtain ⟨low, high, split, before, behind⟩ := ranking.split score absent
  obtain ⟨lower, upper, rfl, rfl, rfl⟩ := List.map_eq_append_iff.mp split
  rw [zzlInsert_eq (fun pair inside => before _ (List.mem_map_of_mem inside))
    (fun pair inside => behind _ (List.mem_map_of_mem inside)), List.map_append, List.map_cons]
  rw [List.map_append] at ranking
  exact ranking.insert score absent before behind

theorem zzlDelete_ranking {pairs : List (M × S)} (ranking : Ranking (pairs.map pairKey) table)
    (found : table ele = some score) :
    Ranking ((zzlDelete pairs ele).map pairKey) (Function.update table ele none) := by
  have inside := mem_map_pairKey.mp ((ranking.mem score ele).mpr found)
  obtain ⟨low, high, rfl⟩ := List.append_of_mem inside
  rw [zzlDelete_eq ranking, List.map_append]
  rw [List.map_append, List.map_cons] at ranking
  exact ranking.remove

theorem nodup_of_ranking {pairs : List (M × S)} (ranking : Ranking (pairs.map pairKey) table) :
    (pairs.map Prod.fst).Nodup := by
  have members := ranking.nodup_members
  rw [List.map_map] at members
  exact members

theorem lookup_of_ranking {pairs : List (M × S)} (ranking : Ranking (pairs.map pairKey) table) :
    (fun member => pairs.lookup member) = table := by
  funext member
  exact zzlFind_eq ranking member

theorem zaddZiplist_holds [Zero S] {pairs : List (M × S)}
    (ranking : Ranking (pairs.map pairKey) table)
    (sound : supply.Sound) :
    ∃ zobj, zaddZiplist server incr score ele supply pairs =
        some (zobj, (addTo server incr score ele table).2) ∧
      Holds (some zobj) (addTo server incr score ele table).1 := by
  unfold zaddZiplist addTo
  rw [zzlFind_eq ranking ele]
  cases found : table ele with
  | none =>
      have placed := zzlInsert_ranking ranking score found
      have own : Function.update table ele (some score) ele = some score :=
        Function.update_self _ _ _
      dsimp only
      split_ifs with large
      · obtain ⟨zs, es, ran, keeps, ranking', -⟩ := addNodes_keeps sound _ (nodup_of_ranking placed)
        rw [lookup_of_ranking placed] at ranking'
        rw [ran]
        exact ⟨_, rfl, holds_skiplist keeps ranking' own⟩
      · exact ⟨_, rfl, holds_ziplist placed own⟩
  | some curscore =>
      dsimp only
      cases next : newScore server incr score curscore with
      | none => exact ⟨_, rfl, holds_ziplist ranking found⟩
      | some score =>
          dsimp only
          by_cases same : score = curscore
          · rw [if_neg (not_not.mpr same), same, ← found, Function.update_eq_self]
            exact ⟨_, rfl, holds_ziplist ranking found⟩
          · have removed := zzlDelete_ranking ranking found
            have placed := zzlInsert_ranking removed score (Function.update_self _ _ _)
            rw [Function.update_idem] at placed
            rw [if_pos same]
            exact ⟨_, rfl, holds_ziplist placed (Function.update_self _ _ _)⟩

theorem zaddSkiplist_holds {zs : Zset S M} {es : List (Entry S M)} (keeps : Keeps zs es)
    (ranking : Ranking (es.map Entry.key) table) (sound : supply.Sound)
    (unused : zs.zsl.heap.obj (supply.node 0) = none ∨ zs.dict ele = some (supply.node 0)) :
    ∃ zobj, zaddSkiplist server incr score ele supply zs =
        some (zobj, (addTo server incr score ele table).2) ∧
      Holds (some zobj) (addTo server incr score ele table).1 := by
  have level := sound.levels 0
  unfold zaddSkiplist addTo
  rcases keeps.dict_eq ranking ele with ⟨absent, none⟩ | ⟨low, e, high, rfl, rfl, found, stored⟩
  · have fresh := unused.resolve_right (by simp [none])
    obtain ⟨zs', es', ran, keeps', ranking', -⟩ := addNode_keeps score keeps ranking absent
      level.1 level.2 fresh
    rw [none, absent]
    simp only [ran, Option.bind_eq_bind, Option.bind_some]
    exact ⟨_, rfl, holds_skiplist keeps' ranking' (Function.update_self _ _ _)⟩
  · rw [stored, found]
    simp only [keeps.rep.scores e (by simp), Option.bind_eq_bind, Option.bind_some]
    cases next : newScore server incr score e.score with
    | none => exact ⟨_, rfl, holds_skiplist keeps ranking found⟩
    | some score =>
        dsimp only
        by_cases same : score = e.score
        · rw [if_neg (not_not.mpr same), same, ← found, Function.update_eq_self]
          exact ⟨_, rfl, holds_skiplist keeps ranking found⟩
        · obtain ⟨zsl, deleted, rep, removed, kept, -, objs⟩ := delete_keeps keeps ranking
          have free : zsl.heap.obj (supply.node 0) = none := by
            rw [objs]
            by_cases own : supply.node 0 = e.ptr
            · rw [own, Function.update_self]
            · rw [Function.update_of_ne own]
              refine unused.resolve_right fun reused => own ?_
              exact (Option.some.inj (stored.symm.trans reused)).symm
          obtain ⟨zsl', es', inserted, keeps', ranking', -⟩ := insert_keeps score rep kept removed
            (Function.update_self _ _ _) level.1 level.2 free
          rw [Function.update_idem] at ranking'
          rw [if_pos same]
          simp only [deleted, inserted, Option.bind_some, if_true]
          exact ⟨_, rfl, holds_skiplist keeps' ranking' (Function.update_self _ _ _)⟩

theorem zaddGeneric_holds [Zero S] (server : Server S M) (incr : Bool) (score : S) (ele : M)
    {key : Option (Object S M)} (holds : Holds key table)
    (suits : Suits supply key [ele]) :
    ∃ zobj, zaddGeneric server incr score ele supply key =
        some (zobj, (addTo server incr score ele table).2) ∧
      Holds (some zobj) (addTo server incr score ele table).1 := by
  cases key with
  | none =>
      have empty : Ranking ([] : List (S ×ₗ M)) table := ⟨List.Pairwise.nil, by simp [holds _]⟩
      rw [zaddGeneric]
      split_ifs with large
      · exact zaddSkiplist_holds (create_keeps supply) empty suits.toSound
          (Or.inl (createZset_unused suits.toSound 0))
      · exact zaddZiplist_holds empty suits.toSound
  | some zobj =>
      obtain ⟨keys, -, encodes, ranking⟩ := holds
      cases encodes with
      | ziplist pairs => exact zaddZiplist_holds ranking suits.toSound
      | skiplist zs es keeps =>
          have unused := suits.unused zs rfl 0
          simp only [List.mem_singleton, exists_eq_left] at unused
          exact zaddSkiplist_holds keeps ranking suits.toSound unused

end Add

/-! ## Removing and storing -/

theorem holds_of_ranking {keys : List (S ×ₗ M)} {zobj : Object S M} {table : M → Option S}
    (encodes : Encodes zobj keys) (ranking : Ranking keys table) :
    Holds (if keys.length = 0 then none else some zobj) table := by
  split_ifs with empty
  · exact ranking.eq_nil_iff.mp (List.length_eq_zero_iff.mp empty)
  · exact ⟨keys, fun nil => empty (by rw [nil]; rfl), encodes, ranking⟩

theorem zrem_holds {key : Option (Object S M)} {table : M → Option S} (holds : Holds key table)
    (ele : M) :
    ∃ key', zrem ele key = some (key', if (table ele).isSome then 1 else 0) ∧
      Holds key' (Function.update table ele none) := by
  have unchanged : table ele = none → Function.update table ele none = table := by
    intro absent
    rw [← absent, Function.update_eq_self]
  cases key with
  | none =>
      rw [unchanged (holds ele), holds ele]
      exact ⟨none, rfl, holds⟩
  | some zobj =>
      obtain ⟨keys, nonempty, encodes, ranking⟩ := holds
      cases encodes with
      | ziplist pairs =>
          rw [zrem, zzlFind_eq ranking ele]
          cases found : table ele with
          | none =>
              rw [unchanged found]
              exact ⟨_, rfl, _, nonempty, .ziplist pairs, ranking⟩
          | some score =>
              have removed := zzlDelete_ranking ranking found
              have held := holds_of_ranking (.ziplist (zzlDelete pairs ele)) removed
              rw [List.length_map] at held
              exact ⟨_, rfl, held⟩
      | skiplist zs es keeps =>
          rw [zrem]
          rcases keeps.dict_eq ranking ele with ⟨absent, none⟩ | ⟨low, e, high, rfl, rfl, found, stored⟩
          · rw [none, absent, unchanged absent]
            exact ⟨_, rfl, _, nonempty, .skiplist zs es keeps, ranking⟩
          · obtain ⟨zsl, deleted, rep, removed, kept, fresh, -⟩ := delete_keeps keeps ranking
            have keeps' : Keeps ⟨Function.update zs.dict e.obj none, zsl⟩ (low ++ high) := by
              refine ⟨rep, fun member ptr => ?_⟩
              change Function.update zs.dict e.obj none member = some ptr ↔ _
              by_cases same : member = e.obj
              · subst same
                rw [Function.update_self]
                constructor
                · intro absurd
                  cases absurd
                · rintro ⟨e', inside, obj, -⟩
                  exact absurd obj (fresh e' inside)
              · rw [Function.update_of_ne same]
                exact kept member same ptr
            have held := holds_of_ranking (.skiplist _ _ keeps') removed
            rw [List.length_map, ← rep.length] at held
            rw [stored, found]
            simp only [keeps.rep.scores e (by simp), deleted, Option.bind_eq_bind, Option.bind_some,
              if_true]
            exact ⟨_, rfl, held⟩

omit [LinearOrder S] in
theorem lookup_eq_some_of_nodup {pairs : List (M × S)} (distinct : (pairs.map Prod.fst).Nodup)
    {member : M} {score : S} : pairs.lookup member = some score ↔ (member, score) ∈ pairs := by
  have sound : ∀ {own : S}, pairs.lookup member = some own → (member, own) ∈ pairs := by
    intro own found
    obtain ⟨front, rest, rfl, -⟩ := List.lookup_eq_some_iff.mp found
    simp
  constructor
  · exact sound
  · intro inside
    cases found : pairs.lookup member with
    | none =>
        rw [List.lookup_eq_none_iff] at found
        have differs := found _ inside
        simp at differs
    | some own =>
        have same := List.inj_on_of_nodup_map distinct inside (sound found) rfl
        rw [(Prod.mk.inj same).2]

theorem length_of_lookup {keys : List (S ×ₗ M)} {pairs : List (M × S)}
    (distinct : (pairs.map Prod.fst).Nodup)
    (ranking : Ranking keys fun member => pairs.lookup member) :
    keys.length = pairs.length := by
  rw [← List.length_map (f := pairKey)]
  apply List.Perm.length_eq
  rw [List.perm_ext_iff_of_nodup (ranking.sorted.imp ne_of_lt)]
  · intro key
    have left := ranking.mem (ofLex key).1 (ofLex key).2
    rw [lookup_eq_some_of_nodup distinct, ← mem_map_pairKey] at left
    exact left
  · apply List.Nodup.map_on
    · intro a _ b _ same
      obtain ⟨score, member⟩ := Prod.mk.inj (toLex_inj.mp same)
      exact Prod.ext member score
    · exact distinct.of_map

/-! The length of fewer than `2 ^ 32` elements is read without its sign, and that of fewer
than `2 ^ 31` also with it. -/

theorem zsetLength_eq {zobj : Object S M} {keys : List (S ×ₗ M)} (encodes : Encodes zobj keys) :
    zsetLength zobj = BitVec.ofNat 32 keys.length := by
  cases encodes with
  | ziplist pairs => simp [zsetLength]
  | skiplist zs es keeps =>
      rw [zsetLength, keeps.rep.length, List.length_map]

theorem zsetLength_toNat {zobj : Object S M} {keys : List (S ×ₗ M)} (encodes : Encodes zobj keys)
    (short : keys.length < 2 ^ 32) : (zsetLength zobj).toNat = keys.length := by
  rw [zsetLength_eq encodes, BitVec.toNat_ofNat, Nat.mod_eq_of_lt short]

theorem zstore_holds [Zero S] {server : Server S M} {supply : Supply} (sound : supply.Sound)
    {pairs : List (M × S)} (distinct : (pairs.map Prod.fst).Nodup) (short : pairs.length < 2 ^ 32) :
    ∃ key', zstore server supply pairs = some (key', pairs.length) ∧
      Holds key' fun member => pairs.lookup member := by
  obtain ⟨zs, es, ran, keeps, ranking, -⟩ := addNodes_keeps sound pairs distinct
  have length : zs.zsl.length = pairs.length := by
    rw [keeps.rep.length, ← length_of_lookup distinct ranking, List.length_map]
  have listed : (es.map fun e => (e.obj, e.score)).map pairKey = es.map Entry.key := by
    rw [List.map_map]
    rfl
  have held := holds_of_ranking (.skiplist zs es keeps) ranking
  rw [List.length_map, ← keeps.rep.length] at held
  unfold zstore
  simp only [ran, Option.bind_eq_bind, Option.bind_some]
  split_ifs at held ⊢ with empty small
  · rw [← length, empty]
    exact ⟨none, rfl, held⟩
  · have nonempty : es.map Entry.key ≠ [] := by
      rw [← List.length_pos_iff_ne_nil, List.length_map, ← keeps.rep.length]
      exact Nat.pos_of_ne_zero empty
    have encodes : Encodes (.ziplist (es.map fun e => (e.obj, e.score)) : Object S M)
        (es.map Entry.key) := by
      rw [← listed]
      exact .ziplist _
    have counted := zsetLength_toNat encodes (by rwa [List.length_map, ← keeps.rep.length, length])
    rw [List.length_map, ← keeps.rep.length, length] at counted
    rw [skiplistPairs_eq keeps.rep, Option.map_some, Option.bind_some, counted]
    exact ⟨_, rfl, es.map Entry.key, nonempty, encodes, ranking⟩
  · have counted := zsetLength_toNat (.skiplist zs es keeps)
      (by rwa [List.length_map, ← keeps.rep.length, length])
    rw [List.length_map, ← keeps.rep.length, length] at counted
    rw [counted]
    exact ⟨_, rfl, held⟩

end Phonograph.Redis
