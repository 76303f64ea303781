import Mathlib.Algebra.Group.Defs
import Mathlib.Data.List.Nodup
import Mathlib.Data.List.Sort
import Mathlib.Data.String.Basic
import Mathlib.Order.Defs.LinearOrder
import Phonograph.Lib.Script

/-! # The Redis commands the server issues

One key space holds every kind of value.  The five commands of `app.py` follow
`t_zset.c`, `t_set.c` and `t_hash.c`: an absent key is an empty value, a value
of another kind is a `WRONGTYPE` error, which the Python client raises. -/

set_option autoImplicit false

namespace Phonograph.Server.Redis

open Phonograph.Lib

/-- What a handler can raise.  `looping` marks a loop cut off by its fuel. -/
inductive PyErr where
  | responseError | badRequest | keyError | indexError | valueError | typeError | looping
  deriving DecidableEq, Repr

/-- Redis scores are doubles without NaN: ordered, with a commutative sum that
need not be associative. -/
class Score (S : Type) extends LinearOrder S, AddCommMagma S, One S

instance : Score ℤ where
  add_comm := Int.add_comm
  one := 1

structure ZSet (S : Type) where
  entries : List (String × S)
  nodup : (entries.map Prod.fst).Nodup

structure MemberSet where
  members : List String
  nodup : members.Nodup

inductive Value (S : Type) where
  | zset (z : ZSet S)
  | set (m : MemberSet)
  | hash (fields : String → Option String)
  | other

abbrev Store (S : Type) := String → Option (Value S)

inductive Cmd where
  | zinterstore (dest : String) (keys : List String)
  | zrevrange (key : String) (start stop : ℤ)
  | smembers (key : String)
  | hget (key field : String)
  | hgetall (key : String)

@[reducible] def Cmd.Reply : Cmd → Type
  | .zinterstore _ _ => ℕ
  | .zrevrange _ _ _ => List String
  | .smembers _ => List String
  | .hget _ _ => Option String
  | .hgetall _ => String → Option String

section Zset
variable {S : Type} [Score S]

/-- `ZREVRANGE` order: higher scores first, equal scores by descending member. -/
def RevLe (a b : String × S) : Prop := b.2 < a.2 ∨ (b.2 = a.2 ∧ b.1 ≤ a.1)

instance : DecidableRel (RevLe (S := S)) :=
  fun a b => inferInstanceAs (Decidable (b.2 < a.2 ∨ (b.2 = a.2 ∧ b.1 ≤ a.1)))

instance : Std.Total (RevLe (S := S)) where
  total a b := by
    rcases lt_trichotomy a.2 b.2 with less | same | more
    · exact Or.inr (Or.inl less)
    · rcases le_total a.1 b.1 with le | le
      · exact Or.inr (Or.inr ⟨same, le⟩)
      · exact Or.inl (Or.inr ⟨same.symm, le⟩)
    · exact Or.inl (Or.inl more)

instance : IsTrans (String × S) RevLe where
  trans a b c := by
    rintro (less | ⟨same, le⟩) (less' | ⟨same', le'⟩)
    · exact Or.inl (less'.trans less)
    · exact Or.inl (same' ▸ less)
    · exact Or.inl (same ▸ less')
    · exact Or.inr ⟨same'.trans same, le'.trans le⟩

instance : Std.Antisymm (RevLe (S := S)) where
  antisymm a b := by
    rintro (less | ⟨same, le⟩) (less' | ⟨same', le'⟩)
    · exact absurd (less.trans less') (lt_irrefl _)
    · exact absurd same' (ne_of_gt less)
    · exact absurd same (ne_of_gt less')
    · exact Prod.ext (le_antisymm le' le) same'

def ZSet.revSorted (z : ZSet S) : List String := (z.entries.insertionSort RevLe).map Prod.fst

/-- A plain set used as a source of `ZINTERSTORE` counts each member with score 1. -/
def MemberSet.toZSet (m : MemberSet) : ZSet S where
  entries := m.members.map fun member => (member, 1)
  nodup := by simpa [List.map_map, Function.comp_def] using m.nodup

def interScore (sources : List (ZSet S)) (member : String) (score : S) : Option S :=
  sources.foldlM (fun acc source => (source.entries.lookup member).map fun v => acc + v) score

def ZSet.inter (first : ZSet S) (rest : List (ZSet S)) : ZSet S where
  entries := first.entries.filterMap fun e => (interScore rest e.1 e.2).map fun v => (e.1, v)
  nodup := by
    have keys : (first.entries.filterMap fun e =>
        (interScore rest e.1 e.2).map fun v => (e.1, v)).map Prod.fst =
        (first.entries.filter fun e => (interScore rest e.1 e.2).isSome).map Prod.fst := by
      induction first.entries with
      | nil => rfl
      | cons e entries ih =>
          cases found : interScore rest e.1 e.2 <;> simp [found, ih]
    rw [keys]
    exact first.nodup.sublist (List.filter_sublist.map Prod.fst)

def asSource : Option (Value S) → Except PyErr (ZSet S)
  | none => .ok ⟨[], List.nodup_nil⟩
  | some (.zset z) => .ok z
  | some (.set m) => .ok m.toZSet
  | some (.hash _) => .error .responseError
  | some .other => .error .responseError

def interSources (sources : List (ZSet S)) : Except PyErr (ZSet S) :=
  match sources.insertionSort (fun a b => a.entries.length ≤ b.entries.length) with
  | [] => .error .responseError
  | first :: rest => .ok (first.inter rest)

def interKeys (keys : List String) (store : Store S) : Except PyErr (ZSet S) :=
  ((keys.map store).mapM asSource).bind interSources

/-- An empty result deletes the destination key. -/
def ZSet.stored (z : ZSet S) : Option (Value S) :=
  if z.entries = [] then none else some (.zset z)

/-! ## Members of an intersection -/

def ZSet.members (z : ZSet S) : List String := z.entries.map Prod.fst

omit [Score S] in
private theorem lookup_of_nodup {member : String} {score : S} :
    ∀ {entries : List (String × S)}, (entries.map Prod.fst).Nodup →
      (entries.lookup member = some score ↔ (member, score) ∈ entries) := by
  intro entries
  induction entries with
  | nil => simp
  | cons e entries ih =>
      obtain ⟨key, value⟩ := e
      intro nodup
      rw [List.map_cons, List.nodup_cons] at nodup
      by_cases same : member = key
      · subst same
        have absent : (member, score) ∉ entries := fun inside =>
          nodup.1 (List.mem_map.mpr ⟨_, inside, rfl⟩)
        simp [absent, eq_comm]
      · rw [List.lookup_cons, beq_false_of_ne same]
        simp [same, ih nodup.2]

omit [Score S] in
theorem lookup_eq_some {z : ZSet S} {member : String} {score : S} :
    z.entries.lookup member = some score ↔ (member, score) ∈ z.entries :=
  lookup_of_nodup z.nodup

omit [Score S] in
theorem mem_members {z : ZSet S} {member : String} :
    member ∈ z.members ↔ (z.entries.lookup member).isSome := by
  rw [ZSet.members, Option.isSome_iff_exists]
  simp only [lookup_eq_some]
  simp

theorem interScore_isSome (member : String) : ∀ (sources : List (ZSet S)) (score : S),
    (interScore sources member score).isSome ↔ ∀ source ∈ sources, member ∈ source.members := by
  intro sources
  induction sources with
  | nil => intro score; simp [interScore]
  | cons source sources ih =>
      intro score
      rw [interScore, List.foldlM_cons]
      cases found : source.entries.lookup member with
      | none =>
          have absent : member ∉ source.members := by simp [mem_members, found]
          simp [absent]
      | some v =>
          have present : member ∈ source.members := by simp [mem_members, found]
          simp only [List.forall_mem_cons, present, true_and]
          exact ih (score + v)

theorem mem_inter (first : ZSet S) (rest : List (ZSet S)) (member : String) :
    member ∈ (first.inter rest).members ↔
      member ∈ first.members ∧ ∀ source ∈ rest, member ∈ source.members := by
  have entry : member ∈ (first.inter rest).members ↔
      ∃ e ∈ first.entries, (interScore rest e.1 e.2).isSome ∧ e.1 = member := by
    simp only [ZSet.members, ZSet.inter, List.mem_map, List.mem_filterMap, Option.map_eq_some_iff,
      Option.isSome_iff_exists]
    constructor
    · rintro ⟨_, ⟨e, inside, v, found, rfl⟩, rfl⟩
      exact ⟨e, inside, ⟨v, found⟩, rfl⟩
    · rintro ⟨e, inside, ⟨v, found⟩, rfl⟩
      exact ⟨(e.1, v), ⟨e, inside, v, found, rfl⟩, rfl⟩
  rw [entry]
  constructor
  · rintro ⟨e, inside, found, rfl⟩
    exact ⟨List.mem_map_of_mem inside, (interScore_isSome e.1 rest e.2).mp found⟩
  · rintro ⟨inside, others⟩
    obtain ⟨e, listed, rfl⟩ := List.mem_map.mp inside
    exact ⟨e, listed, (interScore_isSome e.1 rest e.2).mpr others, rfl⟩

theorem mem_interSources {sources : List (ZSet S)} {z : ZSet S} (h : interSources sources = .ok z)
    (member : String) : member ∈ z.members ↔ ∀ source ∈ sources, member ∈ source.members := by
  have sorted := List.perm_insertionSort
    (fun a b : ZSet S => a.entries.length ≤ b.entries.length) sources
  rw [interSources] at h
  cases found : sources.insertionSort (fun a b => a.entries.length ≤ b.entries.length) with
  | nil => rw [found] at h; cases h
  | cons first rest =>
      rw [found] at h sorted
      obtain rfl := Except.ok.inj h
      rw [mem_inter]
      constructor
      · rintro ⟨head, tail⟩ source inside
        rcases List.mem_cons.mp (sorted.mem_iff.mpr inside) with rfl | inside
        · exact head
        · exact tail source inside
      · intro all
        exact ⟨all first (sorted.mem_iff.mp List.mem_cons_self), fun source inside =>
          all source (sorted.mem_iff.mp (List.mem_cons_of_mem _ inside))⟩

theorem interSources_ok (sources : List (ZSet S)) (ne : sources ≠ []) :
    ∃ z, interSources sources = .ok z := by
  rw [interSources]
  cases found : sources.insertionSort (fun a b => a.entries.length ≤ b.entries.length) with
  | nil =>
      have len := congrArg List.length found
      rw [List.length_insertionSort] at len
      exact absurd (List.length_eq_zero_iff.mp len) ne
  | cons first rest => exact ⟨_, rfl⟩

theorem interKeys_eq {store : Store S} {sourceAt : String → ZSet S} :
    ∀ {keys : List String}, (∀ key ∈ keys, asSource (store key) = .ok (sourceAt key)) →
      interKeys keys store = interSources (keys.map sourceAt) := by
  intro keys sources
  have mapped : (keys.map store).mapM asSource = .ok (keys.map sourceAt) := by
    induction keys with
    | nil => rfl
    | cons key keys ih =>
        rw [List.map_cons, List.mapM_cons, sources key List.mem_cons_self,
          ih fun other member => sources other (List.mem_cons_of_mem _ member)]
        rfl
  rw [interKeys, mapped]
  rfl

theorem interKeys_ok {store : Store S} {keys : List String} {sourceAt : String → ZSet S}
    (ne : keys ≠ []) (sources : ∀ key ∈ keys, asSource (store key) = .ok (sourceAt key)) :
    ∃ z, interKeys keys store = .ok z ∧
      ∀ member, member ∈ z.members ↔ ∀ key ∈ keys, member ∈ (sourceAt key).members := by
  rw [interKeys_eq sources]
  obtain ⟨z, found⟩ := interSources_ok (keys.map sourceAt) (by simpa using ne)
  refine ⟨z, found, fun member => (mem_interSources found member).trans ?_⟩
  simp

theorem perm_revSorted (z : ZSet S) : z.revSorted.Perm z.members :=
  (List.perm_insertionSort RevLe z.entries).map Prod.fst

/-- The first member has the greatest score, and among equal scores the greatest name. -/
theorem head_revSorted {z : ZSet S} {member : String} (head : z.revSorted.head? = some member) :
    ∃ score, (member, score) ∈ z.entries ∧ ∀ other score', (other, score') ∈ z.entries →
      other ≠ member → score' < score ∨ (score' = score ∧ other < member) := by
  have perm := List.perm_insertionSort RevLe z.entries
  have sorted := List.pairwise_insertionSort RevLe z.entries
  rw [ZSet.revSorted] at head
  cases entries : z.entries.insertionSort RevLe with
  | nil =>
      rw [entries] at head
      cases head
  | cons first rest =>
      rw [entries] at head perm sorted
      obtain rfl : first.1 = member := Option.some.inj head
      refine ⟨first.2, perm.mem_iff.mp (List.mem_cons_self ..), ?_⟩
      intro other score' inside ne
      rcases List.mem_cons.mp (perm.mem_iff.mpr inside) with same | later
      · exact absurd (congrArg Prod.fst same) ne
      · rcases (List.pairwise_cons.mp sorted).1 _ later with less | ⟨same, le⟩
        · exact Or.inl less
        · exact Or.inr ⟨same, lt_of_le_of_ne le ne⟩

theorem revSorted_congr {z z' : ZSet S} (same : ∀ e, e ∈ z.entries ↔ e ∈ z'.entries) :
    z.revSorted = z'.revSorted := by
  have perm : z.entries.Perm z'.entries :=
    (List.perm_ext_iff_of_nodup (List.Nodup.of_map _ z.nodup) (List.Nodup.of_map _ z'.nodup)).mpr same
  have sorted : (z.entries.insertionSort RevLe).Perm (z'.entries.insertionSort RevLe) :=
    (List.perm_insertionSort _ _).trans (perm.trans (List.perm_insertionSort _ _).symm)
  rw [ZSet.revSorted, ZSet.revSorted, sorted.eq_of_pairwise' (List.pairwise_insertionSort _ _)
    (List.pairwise_insertionSort _ _)]

theorem mem_inter_one {a b : ZSet S} {member : String} {score : S} :
    (member, score) ∈ (a.inter [b]).entries ↔
      ∃ x y, (member, x) ∈ a.entries ∧ (member, y) ∈ b.entries ∧ x + y = score := by
  simp only [ZSet.inter, interScore, List.foldlM_cons, List.foldlM_nil, List.mem_filterMap,
    Option.map_eq_some_iff, Prod.mk.injEq]
  constructor
  · rintro ⟨e, inside, v, found, rfl, rfl⟩
    cases other : b.entries.lookup e.1 with
    | none => rw [other] at found; cases found
    | some y =>
        rw [other] at found
        exact ⟨e.2, y, inside, lookup_eq_some.mp other, Option.some.inj found⟩
  · rintro ⟨x, y, inside, other, rfl⟩
    refine ⟨(member, x), inside, x + y, ?_, rfl, rfl⟩
    rw [lookup_eq_some.mpr other]
    rfl

def ZSet.meet (a b : ZSet S) : ZSet S :=
  if a.entries.length ≤ b.entries.length then a.inter [b] else b.inter [a]

theorem interSources_pair (a b : ZSet S) : interSources [a, b] = .ok (a.meet b) := by
  rw [interSources, ZSet.meet]
  split <;> rename_i sorted <;> simp only [List.insertionSort_cons, List.insertionSort_nil,
    List.orderedInsert] at sorted
  · split at sorted <;> cases sorted
  · split at sorted <;> rename_i le <;> cases sorted <;> simp [le]

theorem mem_meet {a b : ZSet S} {member : String} :
    member ∈ (a.meet b).members ↔ member ∈ a.members ∧ member ∈ b.members := by
  rw [mem_interSources (interSources_pair a b)]
  simp

theorem mem_meet_entries {a b : ZSet S} {member : String} {score : S} :
    (member, score) ∈ (a.meet b).entries ↔
      ∃ x y, (member, x) ∈ a.entries ∧ (member, y) ∈ b.entries ∧ x + y = score := by
  rw [ZSet.meet]
  split
  · exact mem_inter_one
  · rw [mem_inter_one]
    constructor
    · rintro ⟨y, x, right, left, rfl⟩
      exact ⟨x, y, left, right, add_comm x y⟩
    · rintro ⟨x, y, left, right, rfl⟩
      exact ⟨y, x, right, left, add_comm y x⟩

theorem revSorted_meet_comm (a b : ZSet S) : (a.meet b).revSorted = (b.meet a).revSorted := by
  refine revSorted_congr fun e => ?_
  rw [← Prod.mk.eta (p := e), mem_meet_entries, mem_meet_entries]
  constructor
  · rintro ⟨x, y, left, right, sum⟩
    exact ⟨y, x, right, left, (add_comm y x).trans sum⟩
  · rintro ⟨y, x, right, left, sum⟩
    exact ⟨x, y, left, right, (add_comm x y).trans sum⟩

end Zset

/-- The index arithmetic of `ZREVRANGE`: negative ends count from the back and
`stop` is included. -/
def range {α : Type} (start stop : ℤ) (xs : List α) : List α :=
  let len : ℤ := xs.length
  let from0 := if start < 0 then len + start else start
  let stop := if stop < 0 then len + stop else stop
  let start := if from0 < 0 then 0 else from0
  if start > stop ∨ start ≥ len then []
  else
    let stop := if stop ≥ len then len - 1 else stop
    (xs.drop start.toNat).take (stop - start + 1).toNat

theorem range_all {α : Type} (xs : List α) : range 0 (-1) xs = xs := by
  cases xs with
  | nil => rfl
  | cons x xs =>
      have len : ¬ ((0 : ℤ) > (xs.length + 1 : ℕ) + -1 ∨ (0 : ℤ) ≥ (xs.length + 1 : ℕ)) := by omega
      have stop : ¬ (((xs.length + 1 : ℕ) : ℤ) + -1 ≥ (xs.length + 1 : ℕ)) := by omega
      have count : ((((xs.length + 1 : ℕ) : ℤ) + -1 - 0 + 1)).toNat = xs.length + 1 := by omega
      simp only [range, List.length_cons, lt_irrefl, if_false, Int.reduceNeg, Int.reduceLT, if_true,
        len, stop, count, Int.toNat_zero, List.drop_zero]
      exact List.take_of_length_le le_rfl

theorem range_front {α : Type} (n : ℕ) (xs : List α) : range 0 (n : ℤ) xs = xs.take (n + 1) := by
  have front : ¬ (n : ℤ) < 0 := by omega
  cases xs with
  | nil => rfl
  | cons x xs =>
      simp only [range, List.length_cons, lt_irrefl, if_false, front, Int.toNat_zero,
        List.drop_zero]
      split_ifs with none all
      · rcases none with absurd | empty
        · exact absurd.elim
        · omega
      · have count : (((xs.length + 1 : ℕ) : ℤ) - 1 - 0 + 1).toNat = xs.length + 1 := by omega
        rw [count, List.take_of_length_le (le_of_eq (List.length_cons ..)),
          List.take_of_length_le (by rw [List.length_cons]; omega)]
      · rfl

section Exec
variable {S : Type} [Score S]

def smembersOf : Option (Value S) → Except PyErr (List String)
  | none => .ok []
  | some (.set m) => .ok m.members
  | some _ => .error .responseError

def zrevrangeOf (start stop : ℤ) : Option (Value S) → Except PyErr (List String)
  | none => .ok []
  | some (.zset z) => .ok (range start stop z.revSorted)
  | some _ => .error .responseError

def hgetallOf : Option (Value S) → Except PyErr (String → Option String)
  | none => .ok fun _ => none
  | some (.hash fields) => .ok fields
  | some _ => .error .responseError

def exec : (command : Cmd) → Store S → Except PyErr (command.Reply × Store S)
  | .zinterstore dest keys, store =>
      (interKeys keys store).map fun z =>
        (z.entries.length, Function.update store dest z.stored)
  | .zrevrange key start stop, store => (zrevrangeOf start stop (store key)).map fun r => (r, store)
  | .smembers key, store => (smembersOf (store key)).map fun r => (r, store)
  | .hget key field, store => (hgetallOf (store key)).map fun r => (r field, store)
  | .hgetall key, store => (hgetallOf (store key)).map fun r => (r, store)

def Cmd.reads : Cmd → Set String
  | .zinterstore _ keys => {key | key ∈ keys}
  | .zrevrange key _ _ => {key}
  | .smembers key => {key}
  | .hget key _ => {key}
  | .hgetall key => {key}

def Cmd.writes : Cmd → Set String
  | .zinterstore dest _ => {dest}
  | _ => ∅

private theorem map_ok {ε α β : Type} {x : Except ε α} {f : α → β} {b : β}
    (h : x.map f = .ok b) : ∃ a, x = .ok a ∧ f a = b := by
  cases x with
  | error e => cases h
  | ok a => exact ⟨a, rfl, Except.ok.inj h⟩

theorem interKeys_congr {keys : List String} {store other : Store S}
    (same : ∀ key ∈ keys, store key = other key) : interKeys keys store = interKeys keys other := by
  rw [interKeys, interKeys, List.map_congr_left same]

variable (S) in
def machine : Machine Cmd Cmd.Reply PyErr String (Option (Value S)) where
  exec := exec
  reads := Cmd.reads
  writes := Cmd.writes
  frame := by
    intro command store reply after ran key kept
    cases command with
    | zinterstore dest keys =>
        obtain ⟨z, _, same⟩ := map_ok ran
        rw [← (Prod.mk.inj same).2]
        exact Function.update_of_ne kept _ _
    | zrevrange key' start stop => obtain ⟨a, _, same⟩ := map_ok ran; rw [← (Prod.mk.inj same).2]
    | smembers key' => obtain ⟨a, _, same⟩ := map_ok ran; rw [← (Prod.mk.inj same).2]
    | hget key' field => obtain ⟨a, _, same⟩ := map_ok ran; rw [← (Prod.mk.inj same).2]
    | hgetall key' => obtain ⟨a, _, same⟩ := map_ok ran; rw [← (Prod.mk.inj same).2]
  answer := by
    intro command store other same
    cases command with
    | zinterstore dest keys =>
        simp only [exec, interKeys_congr same]
        cases interKeys keys other <;> rfl
    | zrevrange key start stop =>
        simp only [exec, same key rfl]; cases zrevrangeOf start stop (other key) <;> rfl
    | smembers key => simp only [exec, same key rfl]; cases smembersOf (other key) <;> rfl
    | hget key field => simp only [exec, same key rfl]; cases hgetallOf (other key) <;> rfl
    | hgetall key => simp only [exec, same key rfl]; cases hgetallOf (other key) <;> rfl
  effect := by
    intro command store other reply after reply' after' same ran ran' key written
    cases command with
    | zinterstore dest keys =>
        obtain rfl : key = dest := written
        obtain ⟨z, found, left⟩ := map_ok ran
        obtain ⟨z', found', right⟩ := map_ok ran'
        rw [interKeys_congr same, found'] at found
        rw [← (Prod.mk.inj left).2, ← (Prod.mk.inj right).2, Function.update_self,
          Function.update_self, Except.ok.inj found]
    | zrevrange key' start stop => cases written
    | smembers key' => cases written
    | hget key' field => cases written
    | hgetall key' => cases written

end Exec

abbrev Handler := Script Cmd Cmd.Reply PyErr

namespace Handler

def zinterstore (dest : String) (keys : List String) : Handler ℕ :=
  .call (.zinterstore dest keys) .done

def zrevrange (key : String) (start stop : ℤ) : Handler (List String) :=
  .call (.zrevrange key start stop) .done

def smembers (key : String) : Handler (List String) := .call (.smembers key) .done

def hget (key field : String) : Handler (Option String) := .call (.hget key field) .done

def hgetall (key : String) : Handler (String → Option String) := .call (.hgetall key) .done

def raise {α : Type} (error : PyErr) : Handler α := .fail error

def ofOption {α : Type} (error : PyErr) : Option α → Handler α
  | some value => .done value
  | none => .fail error

/-- `random.choice`: one draw picks an index, an empty list is an `IndexError`. -/
def choice {α : Type} (xs : List α) : Handler α :=
  .draw fun n => ofOption .indexError (xs[n % xs.length]?)

/-- `random.sample(xs, len(xs))`: repeatedly draw one of the elements left. -/
def shuffle {α : Type} : ℕ → List α → Handler (List α)
  | 0, _ => .done []
  | fuel + 1, xs =>
      match xs with
      | [] => .done []
      | x :: rest => .draw fun n => do
          let index := n % (rest.length + 1)
          let left ← shuffle fuel ((x :: rest).eraseIdx index)
          return ((x :: rest)[index]?.getD x) :: left

def sample {α : Type} (xs : List α) : Handler (List α) := shuffle xs.length xs

end Handler

end Phonograph.Server.Redis
