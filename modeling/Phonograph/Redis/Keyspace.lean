import Phonograph.Lib.Backend
import Phonograph.Redis.Interstore
import Phonograph.Redis.Runs
import Phonograph.Server.Isolation

/-! # The server on skip lists

The commands of `app.py` on a key space whose sorted sets are ziplists and skip lists.
Requests that are served on it, in any order of their commands, get the responses they
get on the abstract store, and no assertion fails. -/

set_option autoImplicit false

namespace Phonograph.Redis

open Phonograph.Lib Phonograph.Server.Redis Phonograph.Server.Python Phonograph.Server.Routes
open Phonograph.Server.Database Phonograph.Server.Isolation

inductive KeyValue (S : Type) where
  | zset (zobj : Object S String)
  | set (members : List String)
  | hash (fields : String → Option String)
  | other

abbrev Keyspace (S : Type) := String → Option (KeyValue S)

section Model
variable {S : Type} [Score S]

omit [Score S] in
def sourceOf : Option (KeyValue S) → Except PyErr (Source S String)
  | none => .ok .absent
  | some (.zset zobj) => .ok (.zset zobj)
  | some (.set members) => .ok (.set members)
  | some (.hash _) => .error .responseError
  | some .other => .error .responseError

/-- The commands on the stored structures; without any source `ZINTERSTORE` is an error. -/
def execute [Zero S] (server : Server S String) :
    Backend Cmd Cmd.Reply PyErr Supply (Keyspace S)
  | .zinterstore dest keys, supply, ks =>
      match (keys.map ks).mapM sourceOf with
      | .error error => some (.error error)
      | .ok sources =>
          if sources = [] then some (.error .responseError)
          else do
            let result ← zinterstore server supply sources
            some (.ok (result.2, Function.update ks dest (result.1.map .zset)))
  | .zrevrange key start stop, _, ks =>
      match ks key with
      | none => do some (.ok (← zrangeGeneric true start stop (none : Option (Object S String)), ks))
      | some (.zset zobj) => do some (.ok (← zrangeGeneric true start stop (some zobj), ks))
      | some _ => some (.error .responseError)
  | .smembers key, _, ks =>
      match ks key with
      | none => some (.ok ([], ks))
      | some (.set members) => some (.ok (members, ks))
      | some _ => some (.error .responseError)
  | .hget key field, _, ks =>
      match ks key with
      | none => some (.ok (none, ks))
      | some (.hash fields) => some (.ok (fields field, ks))
      | some _ => some (.error .responseError)
  | .hgetall key, _, ks =>
      match ks key with
      | none => some (.ok (fun _ => none, ks))
      | some (.hash fields) => some (.ok (fields, ks))
      | some _ => some (.error .responseError)

end Model

/-! ## What is stored -/

section Similar
variable {S : Type} [Score S]

/-- A stored value and the abstract one; there are fewer than `2 ^ 31` elements. -/
inductive Similar : Option (KeyValue S) → Option (Value S) → Prop where
  | absent : Similar none none
  | zset {zobj : Object S String} {z : ZSet S} (holds : Holds (some zobj) (tableOf z))
      (short : z.entries.length < 2 ^ 31) : Similar (some (.zset zobj)) (some (.zset z))
  | set (m : MemberSet) (short : m.members.length < 2 ^ 31) :
      Similar (some (.set m.members)) (some (.set m))
  | hash (fields : String → Option String) : Similar (some (.hash fields)) (some (.hash fields))
  | other : Similar (some .other) (some .other)

theorem source_similar {value : Option (KeyValue S)} {stored : Option (Value S)}
    (similar : Similar value stored) :
    (∃ source z, sourceOf value = .ok source ∧ asSource stored = .ok z ∧ source.Holds (tableOf z) ∧
      z.entries.length < 2 ^ 31) ∨
    (sourceOf value = .error .responseError ∧ asSource stored = .error .responseError) := by
  cases similar with
  | absent => exact Or.inl ⟨.absent, ⟨[], List.nodup_nil⟩, rfl, rfl, fun _ => rfl, Nat.two_pow_pos 31⟩
  | zset holds short => exact Or.inl ⟨_, _, rfl, rfl, holds, short⟩
  | set m short =>
      refine Or.inl ⟨.set m.members, m.toZSet, rfl, rfl, ⟨m.nodup, ?_⟩, ?_⟩
      · intro member
        apply Option.ext
        intro score
        rw [← mem_entries, MemberSet.toZSet]
        by_cases inside : member ∈ m.members
        · simp [inside, eq_comm]
        · simp [inside]
      · simpa [MemberSet.toZSet] using short
  | hash fields => exact Or.inr ⟨rfl, rfl⟩
  | other => exact Or.inr ⟨rfl, rfl⟩

theorem sources_similar {ks : Keyspace S} {store : Store S}
    (similar : ∀ key, Similar (ks key) (store key))
    (keys : List String) :
    (∃ sources zs, (keys.map ks).mapM sourceOf = .ok sources ∧ (keys.map store).mapM asSource = .ok zs ∧
      List.Forall₂ (fun source z => source.Holds (tableOf z)) sources zs ∧
      ∀ z ∈ zs, z.entries.length < 2 ^ 31) ∨
    ((keys.map ks).mapM sourceOf = .error .responseError ∧
      (keys.map store).mapM asSource = .error .responseError) := by
  induction keys with
  | nil => exact Or.inl ⟨[], [], rfl, rfl, List.Forall₂.nil, by simp⟩
  | cons key keys ih =>
      rw [List.map_cons, List.map_cons, List.mapM_cons, List.mapM_cons]
      rcases source_similar (similar key) with ⟨source, z, left, right, holds, short⟩ | ⟨left, right⟩
      · rcases ih with ⟨sources, zs, lefts, rights, all, shorts⟩ | ⟨lefts, rights⟩
        · rw [left, right, lefts, rights]
          exact Or.inl ⟨_, _, rfl, rfl, List.Forall₂.cons holds all,
            List.forall_mem_cons.mpr ⟨short, shorts⟩⟩
        · rw [left, right, lefts, rights]
          exact Or.inr ⟨rfl, rfl⟩
      · rw [left, right]
        exact Or.inr ⟨rfl, rfl⟩

theorem length_interSources {zs : List (ZSet S)} {z : ZSet S} (inter : interSources zs = .ok z)
    (short : ∀ z ∈ zs, z.entries.length < 2 ^ 31) : z.entries.length < 2 ^ 31 := by
  have sorted := List.perm_insertionSort (fun a b : ZSet S => a.entries.length ≤ b.entries.length) zs
  rw [interSources] at inter
  cases found : zs.insertionSort (fun a b => a.entries.length ≤ b.entries.length) with
  | nil =>
      rw [found] at inter
      cases inter
  | cons first rest =>
      rw [found] at inter sorted
      obtain rfl := Except.ok.inj inter
      exact (List.length_filterMap_le _ _).trans_lt
        (short first (sorted.mem_iff.mp List.mem_cons_self))

theorem stored_similar {key : Option (Object S String)} {z : ZSet S} (holds : Holds key (tableOf z))
    (short : z.entries.length < 2 ^ 31) : Similar (key.map .zset) z.stored := by
  cases key with
  | none =>
      have empty : z.entries = [] := by
        rw [List.eq_nil_iff_forall_not_mem]
        rintro ⟨member, score⟩ inside
        have found := mem_entries.mp inside
        rw [holds member] at found
        cases found
      rw [ZSet.stored, if_pos empty]
      exact .absent
  | some zobj =>
      have nonempty : z.entries ≠ [] := by
        obtain ⟨keys, some, -, ranking⟩ := holds
        intro empty
        apply some
        rw [ranking.eq_nil_iff]
        intro member
        rw [tableOf, empty]
        rfl
      rw [ZSet.stored, if_neg nonempty]
      exact .zset holds short

def Stores (ks : Keyspace S) (store : Store S) : Prop := ∀ key, Similar (ks key) (store key)

section Simulation
variable {ks : Keyspace S} {store : Store S} (similar : Stores ks store)
include similar

theorem zinterstore_simulates [Zero S] (server : Server S String) {supply : Supply}
    (adds : Adds S supply) (dest : String) (keys : List String) :
    ∃ result, execute server (.zinterstore dest keys) supply ks = some result ∧
      Matches Stores result (exec (.zinterstore dest keys) store) := by
  rw [execute, exec, interKeys]
  rcases sources_similar similar keys with ⟨sources, zs, left, right, holds, short⟩ | ⟨left, right⟩
  · rw [left, right]
    change ∃ result, (if sources = [] then _ else _) = some result ∧
      Matches Stores result ((interSources zs).map _)
    split_ifs with empty
    · subst empty
      cases holds
      exact ⟨_, rfl, .error _⟩
    · have some : zs ≠ [] := by
        rintro rfl
        cases holds
        exact empty rfl
      obtain ⟨z, inter⟩ := interSources_ok zs some
      obtain ⟨key', ran, held⟩ := zinterstore_holds server adds holds short inter
      rw [ran, inter]
      refine ⟨_, rfl, .ok fun key => ?_⟩
      by_cases same : key = dest
      · subst same
        rw [Function.update_self, Function.update_self]
        exact stored_similar held (length_interSources inter short)
      · rw [Function.update_of_ne same, Function.update_of_ne same]
        exact similar key
  · rw [left, right]
    exact ⟨_, rfl, .error _⟩

theorem zrevrange_simulates [Zero S] (server : Server S String) (supply : Supply) (key : String)
    (start stop : ℤ) :
    ∃ result, execute server (.zrevrange key start stop) supply ks = some result ∧
      Matches Stores result (exec (.zrevrange key start stop) store) := by
  rw [execute, exec]
  have here := similar key
  generalize ks key = value at here ⊢
  generalize store key = stored at here ⊢
  cases here with
  | absent => exact ⟨_, rfl, .ok similar⟩
  | @zset zobj z holds short =>
      obtain ⟨keys, ranking⟩ := exists_ranking holds
      have length : keys.length = z.entries.length := length_of_lookup z.nodup ranking
      have replied := zrangeGeneric_eq holds ranking (length ▸ short) true start stop
      rw [walked_eq_revSorted ranking] at replied
      simp only [replied, Option.bind_eq_bind, Option.bind_some]
      exact ⟨_, rfl, .ok similar⟩
  | set m short => exact ⟨_, rfl, .error _⟩
  | hash fields => exact ⟨_, rfl, .error _⟩
  | other => exact ⟨_, rfl, .error _⟩

theorem smembers_simulates [Zero S] (server : Server S String) (supply : Supply) (key : String) :
    ∃ result, execute server (.smembers key) supply ks = some result ∧
      Matches Stores result (exec (.smembers key) store) := by
  rw [execute, exec]
  have here := similar key
  generalize ks key = value at here ⊢
  generalize store key = stored at here ⊢
  cases here with
  | absent => exact ⟨_, rfl, .ok similar⟩
  | zset holds short => exact ⟨_, rfl, .error _⟩
  | set m short => exact ⟨_, rfl, .ok similar⟩
  | hash fields => exact ⟨_, rfl, .error _⟩
  | other => exact ⟨_, rfl, .error _⟩

theorem hgetall_simulates [Zero S] (server : Server S String) (supply : Supply) (key : String) :
    ∃ result, execute server (.hgetall key) supply ks = some result ∧
      Matches Stores result (exec (.hgetall key) store) := by
  rw [execute, exec]
  have here := similar key
  generalize ks key = value at here ⊢
  generalize store key = stored at here ⊢
  cases here with
  | absent => exact ⟨_, rfl, .ok similar⟩
  | zset holds short => exact ⟨_, rfl, .error _⟩
  | set m short => exact ⟨_, rfl, .error _⟩
  | hash fields => exact ⟨_, rfl, .ok similar⟩
  | other => exact ⟨_, rfl, .error _⟩

theorem hget_simulates [Zero S] (server : Server S String) (supply : Supply) (key field : String) :
    ∃ result, execute server (.hget key field) supply ks = some result ∧
      Matches Stores result (exec (.hget key field) store) := by
  rw [execute, exec]
  have here := similar key
  generalize ks key = value at here ⊢
  generalize store key = stored at here ⊢
  cases here with
  | absent => exact ⟨_, rfl, .ok similar⟩
  | zset holds short => exact ⟨_, rfl, .error _⟩
  | set m short => exact ⟨_, rfl, .error _⟩
  | hash fields => exact ⟨_, rfl, .ok similar⟩
  | other => exact ⟨_, rfl, .error _⟩

end Simulation

/-- Each command on the stored structures is the command on the abstract store. -/
theorem execute_simulates [Zero S] (server : Server S String) :
    (execute server).Simulates (machine S) (Adds S) Stores := by
  intro command supply ks store adds similar
  cases command with
  | zinterstore dest keys => exact zinterstore_simulates similar server adds dest keys
  | zrevrange key start stop => exact zrevrange_simulates similar server supply key start stop
  | smembers key => exact smembers_simulates similar server supply key
  | hget key field => exact hget_simulates similar server supply key field
  | hgetall key => exact hgetall_simulates similar server supply key

/-! ## A store that is loaded -/

def Small : Value S → Prop
  | .zset z => z.entries ≠ [] ∧ z.entries.length < 2 ^ 31
  | .set m => m.members.length < 2 ^ 31
  | .hash _ => True
  | .other => True

def stow : Value S → KeyValue S
  | .zset z => .zset (.ziplist (z.entries.insertionSort RevLe).reverse)
  | .set m => .set m.members
  | .hash fields => .hash fields
  | .other => .other

def loaded (db : Store S) : Keyspace S := fun key => (db key).map stow

theorem ranking_sorted (z : ZSet S) :
    Ranking ((z.entries.insertionSort RevLe).reverse.map pairKey) (tableOf z) := by
  have perm := List.perm_insertionSort RevLe z.entries
  have ordered := List.pairwise_insertionSort RevLe z.entries
  have nodup : (z.entries.insertionSort RevLe).Nodup := perm.nodup_iff.mpr z.nodup.of_map
  constructor
  · rw [List.pairwise_map, List.pairwise_reverse]
    apply (ordered.and nodup).imp
    rintro a b ⟨less | ⟨same, le⟩, ne⟩
    · exact Prod.Lex.toLex_lt_toLex.mpr (Or.inl less)
    · refine Prod.Lex.toLex_lt_toLex.mpr (Or.inr ⟨same, lt_of_le_of_ne le fun members => ne ?_⟩)
      exact Prod.ext members.symm same.symm
  · intro score member
    rw [mem_map_pairKey, List.mem_reverse, perm.mem_iff, mem_entries]

theorem loaded_stores {db : Store S} (small : ∀ key value, db key = some value → Small value) :
    Stores (loaded db) db := by
  intro key
  rw [loaded]
  cases found : db key with
  | none => exact .absent
  | some value =>
      have bounds := small key value found
      cases value with
      | zset z =>
          refine .zset ⟨_, ?_, .ziplist _, ranking_sorted z⟩ bounds.2
          intro empty
          rw [List.map_eq_nil_iff, List.reverse_eq_nil_iff] at empty
          apply bounds.1
          rw [← List.length_eq_zero_iff, ← List.length_insertionSort RevLe, empty, List.length_nil]
      | set m => exact .set m bounds
      | hash fields => exact .hash fields
      | other => exact .other

/-! ## Requests -/

end Similar

def tightServer : Server ℤ String := ⟨1, 64, String.length, String.length, fun a b => some (a + b)⟩

theorem rowDb_small : ∀ key value, rowDb.store key = some value → Small value := by
  intro key value found
  obtain ⟨front, back, entries, -⟩ := List.lookup_eq_some_iff.mp found
  have inside : (key, value) ∈ rowEntries := by
    rw [entries]
    simp
  clear found entries
  revert inside
  simp only [rowEntries, List.mem_cons, List.not_mem_nil, or_false, Prod.mk.injEq]
  rintro (⟨-, rfl⟩ | ⟨-, rfl⟩ | ⟨-, rfl⟩ | ⟨-, rfl⟩ | ⟨-, rfl⟩ | ⟨-, rfl⟩ | ⟨-, rfl⟩ | ⟨-, rfl⟩ |
    ⟨-, rfl⟩ | ⟨-, rfl⟩ | ⟨-, rfl⟩ | ⟨-, rfl⟩ | ⟨-, rfl⟩ | ⟨-, rfl⟩) <;> simp [Small, recordOf]

end Phonograph.Redis
