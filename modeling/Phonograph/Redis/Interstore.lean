import Phonograph.Redis.Reads

/-! # Intersections

`ZINTERSTORE` walks its smallest source, looks each member up in the others and builds
a new sorted set from what it finds in all of them.  What it stores holds the scores of
the abstract intersection. -/

set_option autoImplicit false

namespace Phonograph.Redis

open Phonograph.Lib Phonograph.Server.Redis

/-- A source: an absent key, a sorted set, or a set in the order in which it is walked. -/
inductive Source (S M : Type) where
  | absent
  | zset (zobj : Object S M)
  | set (members : List M)

section Model
variable {S M : Type} [Score S] [LinearOrder M]

omit [Score S] [LinearOrder M] in
/-- A length that is returned as an `int`. -/
def zuiLength : Source S M → ℤ
  | .absent => 0
  | .zset (.ziplist pairs) => (BitVec.ofNat 32 pairs.length).toInt
  | .zset (.skiplist zs) => (BitVec.ofNat 32 zs.zsl.length).toInt
  | .set members => (BitVec.ofNat 32 members.length).toInt

omit [LinearOrder M] in
def zuiPairs : Source S M → Option (List (M × S))
  | .absent => some []
  | .zset (.ziplist pairs) => some pairs
  | .zset (.skiplist zs) => skiplistPairs zs
  | .set members => some (members.map fun member => (member, 1))

/-- The score of a member, where the inner `none` means that it is not there. -/
def zuiFind (ele : M) : Source S M → Option (Option S)
  | .absent => some none
  | .zset (.ziplist pairs) => some (zzlFind pairs ele)
  | .zset (.skiplist zs) =>
      match zs.dict ele with
      | none => some none
      | some ptr => (zs.zsl.heap.score ptr).map some
  | .set members => some (if ele ∈ members then some 1 else none)

def aggregate (ele : M) : S → List (Source S M) → Option (Option S)
  | score, [] => some (some score)
  | score, source :: sources => do
      match ← zuiFind ele source with
      | none => some none
      | some value => aggregate ele (score + value) sources

def interPairs (sources : List (Source S M)) : List (M × S) → Option (List (M × S))
  | [] => some []
  | pair :: pairs => do
      let score ← aggregate pair.1 pair.2 sources
      let rest ← interPairs sources pairs
      some ((score.map fun value => (pair.1, value)).toList ++ rest)

omit [Score S] [LinearOrder M] in
def sortSources (supply : Supply) (sources : List (Source S M)) : List (Source S M) :=
  pick (supply.qsort (sources.map zuiLength)) sources

def zinterstore [Zero S] (server : Server S M) (supply : Supply) (sources : List (Source S M)) :
    Option (Option (Object S M) × ℕ) :=
  match sortSources supply sources with
  | [] => none
  | first :: rest => do
      if zuiLength first > 0 then zstore server supply (← interPairs rest (← zuiPairs first))
      else zstore server supply []

end Model

/-! ## Sources -/

section Sources
variable {S M : Type} [Score S] [LinearOrder M] {source : Source S M} {table : M → Option S}

def Source.Holds : Source S M → (M → Option S) → Prop
  | .absent, table => ∀ member, table member = none
  | .zset zobj, table => Redis.Holds (some zobj) table
  | .set members, table => members.Nodup ∧
      ∀ member, table member = if member ∈ members then some 1 else none

theorem zuiFind_eq (holds : source.Holds table) (ele : M) :
    zuiFind ele source = some (table ele) := by
  match source with
  | .absent => rw [zuiFind, holds ele]
  | .set members => rw [zuiFind, holds.2 ele]
  | .zset zobj =>
      obtain ⟨keys, -, encodes, ranking⟩ := holds
      cases encodes with
      | ziplist pairs => rw [zuiFind, zzlFind_eq ranking]
      | skiplist zs es keeps =>
          rw [zuiFind]
          rcases keeps.dict_eq ranking ele with ⟨absent, none⟩ | ⟨low, e, high, rfl, rfl, found, stored⟩
          · rw [none, absent]
          · rw [stored, found]
            simp only [keeps.rep.scores e (by simp), Option.map_some]

theorem zuiPairs_eq (holds : source.Holds table) :
    ∃ pairs, zuiPairs source = some pairs ∧ (pairs.map Prod.fst).Nodup ∧
      (∀ member score, (member, score) ∈ pairs ↔ table member = some score) ∧
      (pairs.length < 2 ^ 31 → zuiLength source = pairs.length) := by
  match source with
  | .absent => exact ⟨[], rfl, List.nodup_nil, by simp [holds _], fun _ => rfl⟩
  | .set members =>
      refine ⟨members.map fun member => (member, 1), rfl, ?_, ?_, fun short => ?_⟩
      · rw [List.map_map]
        simpa [Function.comp_def] using holds.1
      · intro member score
        rw [holds.2]
        by_cases inside : member ∈ members
        · simp [inside, eq_comm]
        · simp [inside]
      · rw [List.length_map] at short ⊢
        exact toInt_ofNat short
  | .zset zobj =>
      obtain ⟨keys, -, encodes, ranking⟩ := holds
      cases encodes with
      | ziplist pairs =>
          refine ⟨pairs, rfl, nodup_of_ranking ranking, ?_, toInt_ofNat⟩
          intro member score
          rw [← mem_map_pairKey, ranking.mem]
      | skiplist zs es keeps =>
          have listed : (es.map fun e => (e.obj, e.score)).map pairKey = es.map Entry.key := by
            rw [List.map_map]
            rfl
          rw [← listed] at ranking
          refine ⟨_, skiplistPairs_eq keeps.rep, nodup_of_ranking ranking, ?_, ?_⟩
          · intro member score
            rw [← mem_map_pairKey, ranking.mem]
          · rw [List.length_map, zuiLength, keeps.rep.length]
            exact toInt_ofNat

end Sources

/-! ## The abstract intersection -/

section Inter
variable {S : Type} [Score S]

omit [Score S] in
def tableOf (z : ZSet S) : String → Option S := fun member => z.entries.lookup member

theorem aggregate_eq {sources : List (Source S String)} {zs : List (ZSet S)}
    (holds : List.Forall₂ (fun source z => source.Holds (tableOf z)) sources zs) (ele : String) :
    ∀ score : S, aggregate ele score sources = some (interScore zs ele score) := by
  induction holds with
  | nil => exact fun _ => rfl
  | @cons source z sources zs first _ ih =>
      intro score
      rw [aggregate, zuiFind_eq first ele, interScore, List.foldlM_cons]
      simp only [Option.bind_eq_bind, Option.bind_some]
      change (match tableOf z ele with | none => _ | some value => _) = some (((tableOf z ele).map _).bind _)
      cases tableOf z ele with
      | none => rfl
      | some value => exact ih (score + value)

theorem interPairs_eq {sources : List (Source S String)} {zs : List (ZSet S)}
    (holds : List.Forall₂ (fun source z => source.Holds (tableOf z)) sources zs)
    (pairs : List (String × S)) :
    interPairs sources pairs =
      some (pairs.filterMap fun e => (interScore zs e.1 e.2).map fun v => (e.1, v)) := by
  induction pairs with
  | nil => rfl
  | cons pair pairs ih =>
      rw [interPairs, aggregate_eq holds, ih]
      simp only [Option.bind_eq_bind, Option.bind_some, List.filterMap_cons]
      cases interScore zs pair.1 pair.2 <;> rfl

omit [Score S] in
theorem mem_entries {z : ZSet S} {member : String} {score : S} :
    (member, score) ∈ z.entries ↔ tableOf z member = some score := lookup_eq_some.symm

theorem zuiLength_eq {source : Source S String} {z : ZSet S} (holds : source.Holds (tableOf z))
    (short : z.entries.length < 2 ^ 31) : zuiLength source = z.entries.length := by
  obtain ⟨pairs, -, distinct, mem, length⟩ := zuiPairs_eq holds
  have same : pairs.length = z.entries.length := by
    apply List.Perm.length_eq
    rw [List.perm_ext_iff_of_nodup distinct.of_map z.nodup.of_map]
    intro pair
    exact (mem pair.1 pair.2).trans mem_entries.symm
  rw [← same]
  exact length (same ▸ short)

/-! ## Sums in different orders -/

def sumOf (member : String) : List (ZSet S) → Option S
  | [] => none
  | first :: rest => (tableOf first member).bind (interScore rest member)

theorem tableOf_inter (first : ZSet S) (rest : List (ZSet S)) (member : String) :
    tableOf (first.inter rest) member = sumOf member (first :: rest) := by
  apply Option.ext
  intro score
  rw [← mem_entries, sumOf, Option.bind_eq_some_iff]
  simp only [ZSet.inter, List.mem_filterMap, Option.map_eq_some_iff, Prod.mk.injEq]
  constructor
  · rintro ⟨⟨name, own⟩, inside, sum, whole, rfl, rfl⟩
    exact ⟨own, mem_entries.mp inside, whole⟩
  · rintro ⟨own, found, whole⟩
    exact ⟨(member, own), mem_entries.mpr found, score, whole, rfl, rfl⟩

def plus (member : String) (sum : Option S) (z : ZSet S) : Option S :=
  Option.map₂ (· + ·) sum (tableOf z member)

theorem sumOf_cons (member : String) (first : ZSet S) (rest : List (ZSet S)) :
    sumOf member (first :: rest) = rest.foldl (plus member) (tableOf first member) := by
  have lost : ∀ rest : List (ZSet S), rest.foldl (plus member) none = none := by
    intro rest
    induction rest with
    | nil => rfl
    | cons z rest ih => exact ih
  have each : ∀ (rest : List (ZSet S)) (score : S),
      interScore rest member score = rest.foldl (plus member) (some score) := by
    intro rest
    induction rest with
    | nil => exact fun _ => rfl
    | cons z rest ih =>
        intro score
        rw [interScore, List.foldlM_cons, List.foldl_cons, plus]
        change ((tableOf z member).map _).bind _ = _
        cases tableOf z member with
        | none => exact (lost rest).symm
        | some value => exact ih (score + value)
  rw [sumOf]
  cases tableOf first member with
  | none => exact (lost rest).symm
  | some score => exact each rest score

/-- A sum of two scores, and an associative sum of any, does not depend on the order. -/
theorem sumOf_perm (member : String) {xs ys : List (ZSet S)} (perm : xs.Perm ys)
    (sums : (∀ a b c : S, a + b + c = a + (b + c)) ∨ ys.length ≤ 2) :
    sumOf member xs = sumOf member ys := by
  induction perm with
  | nil => rfl
  | @cons z xs ys perm _ =>
      rw [sumOf_cons, sumOf_cons]
      rcases sums with assoc | few
      · apply perm.foldl_eq'
        intro x _ y _ sum
        apply Option.map₂_right_comm
        intro a b c
        rw [assoc, assoc, add_comm b c]
      · rw [List.length_cons] at few
        have equal : xs = ys := by
          match ys, few with
          | [], _ => exact perm.eq_nil
          | [y], _ => exact List.perm_singleton.mp perm
        rw [equal]
  | swap x y zs =>
      rw [sumOf_cons, sumOf_cons, List.foldl_cons, List.foldl_cons, plus, plus,
        Option.map₂_comm add_comm]
  | trans first second ih ih' =>
      exact (ih (sums.imp_right fun few => second.length_eq.trans_le few)).trans (ih' sums)

variable (S) in
/-- Three or more scores are only added in another order if that makes no difference. -/
structure Adds (supply : Supply) : Prop extends supply.Sound where
  sums : (∀ a b c : S, a + b + c = a + (b + c)) ∨
    ∀ lengths, 2 < lengths.length → supply.qsort lengths = stableOrder lengths

theorem sumOf_pick {supply : Supply} (adds : Adds S supply) (member : String)
    (zs : List (ZSet S)) :
    sumOf member (pick (supply.qsort (zs.map fun z => (z.entries.length : ℤ))) zs) =
      sumOf member (zs.insertionSort fun a b => a.entries.length ≤ b.entries.length) := by
  have sorts := (adds.sorts (zs.map fun z => (z.entries.length : ℤ))).perm
  rw [List.length_map] at sorts
  have picked := pick_perm sorts
  have sorted := List.perm_insertionSort (fun a b : ZSet S => a.entries.length ≤ b.entries.length) zs
  have either : ((∀ a b c : S, a + b + c = a + (b + c)) ∨ zs.length ≤ 2) →
      sumOf member (pick (supply.qsort (zs.map fun z => (z.entries.length : ℤ))) zs) =
        sumOf member (zs.insertionSort fun a b => a.entries.length ≤ b.entries.length) :=
    fun sums => (sumOf_perm member picked sums).trans (sumOf_perm member sorted sums).symm
  rcases adds.sums with assoc | stable
  · exact either (Or.inl assoc)
  · rcases Nat.lt_or_ge 2 zs.length with many | few
    · have same : List.Forall₂ Eq
          (zs.insertionSort fun a b => (a.entries.length : ℤ) ≤ b.entries.length)
          (zs.insertionSort fun a b => a.entries.length ≤ b.entries.length) :=
        forall₂_insertionSort (by rintro a _ b _ rfl rfl; exact Nat.cast_le) (List.forall₂_refl zs)
      rw [List.forall₂_eq_eq_eq] at same
      rw [stable _ (by rwa [List.length_map]), pick_stableOrder, same]
    · exact either (Or.inr few)

theorem sumOf_interSources {zs : List (ZSet S)} {z : ZSet S} (inter : interSources zs = .ok z)
    (member : String) :
    sumOf member (zs.insertionSort fun a b => a.entries.length ≤ b.entries.length) =
      tableOf z member := by
  rw [interSources] at inter
  cases found : zs.insertionSort (fun a b => a.entries.length ≤ b.entries.length) with
  | nil =>
      rw [found] at inter
      cases inter
  | cons first rest =>
      rw [found] at inter
      rw [← Except.ok.inj inter, tableOf_inter]

theorem lengths_eq {sources : List (Source S String)} {zs : List (ZSet S)}
    (holds : List.Forall₂ (fun source z => source.Holds (tableOf z)) sources zs)
    (short : ∀ z ∈ zs, z.entries.length < 2 ^ 31) :
    sources.map zuiLength = zs.map fun z => (z.entries.length : ℤ) := by
  induction holds with
  | nil => rfl
  | cons first _ ih =>
      obtain ⟨here, later⟩ := List.forall_mem_cons.mp short
      rw [List.map_cons, List.map_cons, zuiLength_eq first here, ih later]

omit [Score S] in
theorem perm_entries {z w : ZSet S} (same : ∀ member, tableOf z member = tableOf w member) :
    z.entries.Perm w.entries := by
  rw [List.perm_ext_iff_of_nodup z.nodup.of_map w.nodup.of_map]
  intro pair
  exact mem_entries.trans ((same pair.1).symm ▸ mem_entries.symm)

/-- What is stored holds the abstract intersection. -/
theorem zinterstore_holds [Zero S] (server : Server S String) {supply : Supply}
    (adds : Adds S supply) {sources : List (Source S String)} {zs : List (ZSet S)} {z : ZSet S}
    (holds : List.Forall₂ (fun source z => source.Holds (tableOf z)) sources zs)
    (short : ∀ z ∈ zs, z.entries.length < 2 ^ 31) (inter : interSources zs = .ok z) :
    ∃ key', zinterstore server supply sources = some (key', z.entries.length) ∧
      Holds key' (tableOf z) := by
  have sorts := (adds.sorts (zs.map fun z => (z.entries.length : ℤ))).perm
  have sum := fun member => (sumOf_pick adds member zs).trans (sumOf_interSources inter member)
  rw [zinterstore, sortSources, lengths_eq holds short]
  rw [List.length_map] at sorts
  generalize supply.qsort (zs.map fun z => (z.entries.length : ℤ)) = order at sorts sum ⊢
  have perm := pick_perm sorts
  have sorted := forall₂_pick holds order
  generalize pick order sources = taken at sorted ⊢
  generalize pick order zs = picked at sum perm sorted
  cases sorted with
  | nil =>
      rw [perm.symm.eq_nil, interSources] at inter
      cases inter
  | @cons source first others rest smallest larger =>
      obtain ⟨pairs, ran, distinct, mem, length⟩ := zuiPairs_eq smallest
      set chosen : List (String × S) :=
        pairs.filterMap fun e => (interScore rest e.1 e.2).map fun v => (e.1, v) with chosenDef
      have same : pairs.Perm first.entries := by
        rw [List.perm_ext_iff_of_nodup distinct.of_map first.nodup.of_map]
        intro pair
        exact (mem pair.1 pair.2).trans mem_entries.symm
      have few : pairs.length < 2 ^ 31 := by
        rw [same.length_eq]
        exact short first (perm.mem_iff.mp List.mem_cons_self)
      have tables : ∀ member, tableOf (first.inter rest) member = tableOf z member :=
        fun member => (tableOf_inter first rest member).trans (sum member)
      have entries : chosen.Perm (first.inter rest).entries := same.filterMap _
      have nodup : (chosen.map Prod.fst).Nodup :=
        ((entries.map Prod.fst).nodup_iff).mpr (first.inter rest).nodup
      have count : chosen.length ≤ pairs.length := List.length_filterMap_le _ _
      obtain ⟨key', stored, held⟩ :
        ∃ key', zstore server supply chosen = some (key', chosen.length) ∧
          Holds key' fun member => chosen.lookup member :=
        zstore_holds adds.toSound nodup (by omega)
      have lookups : (fun member => chosen.lookup member) = tableOf z := by
        funext member
        rw [← tables member]
        apply Option.ext
        intro score
        rw [lookup_eq_some_of_nodup nodup, entries.mem_iff, mem_entries]
      refine ⟨key', ?_, lookups ▸ held⟩
      rw [← (entries.trans (perm_entries tables)).length_eq, ← stored]
      simp only [ran, interPairs_eq larger, Option.bind_eq_bind, Option.bind_some]
      split_ifs with some
      · rfl
      · rw [length few] at some
        have none : pairs = [] := List.length_eq_zero_iff.mp (by omega)
        rw [chosenDef, none]
        rfl

theorem walked_eq_revSorted {z : ZSet S} {keys : List (S ×ₗ String)}
    (ranking : Ranking keys (tableOf z)) :
    walked true keys = z.revSorted := by
  set entries : List (String × S) := keys.reverse.map fun key => ((ofLex key).2, (ofLex key).1)
  have perm : entries.Perm z.entries := by
    have nodup : entries.Nodup := by
      apply List.Nodup.map_on
      · intro a _ b _ same
        obtain ⟨member, score⟩ := Prod.mk.inj same
        exact Prod.ext score member
      · exact List.nodup_reverse.mpr (ranking.sorted.imp ne_of_lt)
    rw [List.perm_ext_iff_of_nodup nodup z.nodup.of_map]
    rintro ⟨member, score⟩
    rw [mem_entries, ← ranking.mem, List.mem_map]
    constructor
    · rintro ⟨key, inside, same⟩
      obtain ⟨rfl, rfl⟩ := Prod.mk.inj same
      exact List.mem_reverse.mp inside
    · intro inside
      exact ⟨_, List.mem_reverse.mpr inside, rfl⟩
  have descending : entries.Pairwise RevLe := by
    rw [List.pairwise_map, List.pairwise_reverse]
    apply ranking.sorted.imp
    intro a b less
    rcases Prod.Lex.lt_iff.mp less with score | ⟨score, member⟩
    · exact Or.inl score
    · exact Or.inr ⟨score, member.le⟩
  have sorted : z.entries.insertionSort RevLe = entries :=
    ((List.perm_insertionSort RevLe z.entries).trans perm.symm).eq_of_pairwise'
      (List.pairwise_insertionSort RevLe z.entries) descending
  rw [ZSet.revSorted, sorted, List.map_map, walked, if_pos rfl, ← List.map_reverse]
  rfl

end Inter

end Phonograph.Redis
