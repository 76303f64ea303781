import Phonograph.Redis.Reads

/-! # Runs of commands on one key

A key goes through any commands that change a sorted set: single elements are added,
changed and removed, and a result is stored over it.  Its encoding changes on the way,
but nothing of it shows: the replies are those of a table of scores. -/

set_option autoImplicit false

namespace Phonograph.Redis

open Phonograph.Lib Phonograph.Server.Redis

variable {S M : Type} [LinearOrder S] [LinearOrder M]

inductive Op (S M : Type) where
  | zadd (score : S) (ele : M)
  | zincrby (score : S) (ele : M)
  | zrem (ele : M)
  | zstore (pairs : List (M × S))

omit [LinearOrder S] [LinearOrder M] in
def Op.Sound : Op S M → Prop
  | .zstore pairs => (pairs.map Prod.fst).Nodup ∧ pairs.length < 2 ^ 32
  | _ => True

omit [LinearOrder S] [LinearOrder M] in
def Op.elements : Op S M → List M
  | .zadd _ ele => [ele]
  | .zincrby _ ele => [ele]
  | _ => []

def perform [Zero S] (server : Server S M) (supply : Supply) (key : Option (Object S M)) :
    Op S M → Option (Option (Object S M) × Reply S)
  | .zadd score ele =>
      (zaddGeneric server false score ele supply key).map fun result => (some result.1, result.2)
  | .zincrby score ele =>
      (zaddGeneric server true score ele supply key).map fun result => (some result.1, result.2)
  | .zrem ele => (zrem ele key).map fun result => (result.1, .integer result.2)
  | .zstore pairs => (zstore server supply pairs).map fun result => (result.1, .integer result.2)

omit [LinearOrder S] in
def tabulate (server : Server S M) (table : M → Option S) : Op S M → (M → Option S) × Reply S
  | .zadd score ele => addTo server false score ele table
  | .zincrby score ele => addTo server true score ele table
  | .zrem ele => (Function.update table ele none, .integer (if (table ele).isSome then 1 else 0))
  | .zstore pairs => (fun member => pairs.lookup member, .integer pairs.length)

theorem perform_holds [Zero S] {server : Server S M} {supply : Supply} {key : Option (Object S M)}
    {table : M → Option S} (holds : Holds key table) {op : Op S M}
    (suits : Suits supply key op.elements) (sound : op.Sound) :
    ∃ key', perform server supply key op = some (key', (tabulate server table op).2) ∧
      Holds key' (tabulate server table op).1 := by
  cases op with
  | zadd score ele =>
      obtain ⟨zobj, ran, held⟩ := zaddGeneric_holds server false score ele holds suits
      exact ⟨some zobj, by rw [perform, ran]; rfl, held⟩
  | zincrby score ele =>
      obtain ⟨zobj, ran, held⟩ := zaddGeneric_holds server true score ele holds suits
      exact ⟨some zobj, by rw [perform, ran]; rfl, held⟩
  | zrem ele =>
      obtain ⟨key', ran, held⟩ := zrem_holds holds ele
      exact ⟨key', by rw [perform, ran]; rfl, held⟩
  | zstore pairs =>
      obtain ⟨key', ran, held⟩ := zstore_holds suits.toSound sound.1 sound.2
      exact ⟨key', by rw [perform, ran]; rfl, held⟩

/-- The states of a key that does not exist at first, with the replies on the way.
Every command is given addresses that are not in use and any numbers of levels. -/
inductive Runs [Zero S] (server : Server S M) :
    List (Op S M) → Option (Object S M) → List (Reply S) → Prop where
  | nil : Runs server [] none []
  | snoc {ops : List (Op S M)} {key key' : Option (Object S M)} {replies : List (Reply S)}
      {op : Op S M} {supply : Supply} {reply : Reply S} (before : Runs server ops key replies)
      (sound : op.Sound) (suits : Suits supply key op.elements)
      (ran : perform server supply key op = some (key', reply)) :
      Runs server (ops ++ [op]) key' (replies ++ [reply])

omit [LinearOrder S] in
def tabulated (server : Server S M) (ops : List (Op S M)) : (M → Option S) × List (Reply S) :=
  ops.foldl (fun state op =>
    ((tabulate server state.1 op).1, state.2 ++ [(tabulate server state.1 op).2])) (fun _ => none, [])

theorem runs_holds [Zero S] {server : Server S M} {ops : List (Op S M)} {key : Option (Object S M)}
    {replies : List (Reply S)} (runs : Runs server ops key replies) :
    Holds key (tabulated server ops).1 ∧ replies = (tabulated server ops).2 := by
  induction runs with
  | nil => exact ⟨fun _ => rfl, rfl⟩
  | @snoc ops key key' replies op supply reply before sound suits ran ih =>
      obtain ⟨holds, same⟩ := ih
      obtain ⟨expected, performed, held⟩ := perform_holds holds suits sound
      rw [ran] at performed
      obtain ⟨rfl, rfl⟩ := Prod.mk.inj (Option.some.inj performed)
      unfold tabulated at held same ⊢
      rw [List.foldl_append]
      exact ⟨held, by rw [same]; rfl⟩

/-- After any commands the replies have been those of the table, no assertion fails in
the next command, and what is read is read from the ranking of the table. -/
theorem runs_refine [Zero S] {server : Server S M} {ops : List (Op S M)} {key : Option (Object S M)}
    {replies : List (Reply S)} (runs : Runs server ops key replies) :
    replies = (tabulated server ops).2 ∧
    (∀ op supply, op.Sound → Suits supply key op.elements →
      ∃ key', perform server supply key op = some (key', (tabulate server (tabulated server ops).1 op).2)) ∧
    ∃ keys, Ranking keys (tabulated server ops).1 ∧ (keys.length < 2 ^ 31 →
      (∀ reverse start stop,
        zrangeGeneric reverse start stop key = some (range start stop (walked reverse keys))) ∧
      (∀ reverse ele, (tabulated server ops).1 ele = none → zrankGeneric reverse ele key = some none) ∧
      ∀ reverse low score ele high, keys = low ++ toLex (score, ele) :: high →
        zrankGeneric reverse ele key =
          some (some ((if reverse then high.length else low.length : ℕ) : ℤ))) := by
  obtain ⟨holds, same⟩ := runs_holds runs
  obtain ⟨keys, ranking⟩ := exists_ranking holds
  refine ⟨same, ?_, keys, ranking, fun short => ⟨?_, ?_, ?_⟩⟩
  · intro op supply sound suits
    obtain ⟨key', ran, -⟩ := perform_holds holds suits sound
    exact ⟨key', ran⟩
  · exact zrangeGeneric_eq holds ranking short
  · exact fun reverse ele absent => zrankGeneric_none holds absent reverse
  · rintro reverse low score ele high rfl
    exact zrankGeneric_some holds ranking (by omega) reverse

def smallServer : Server ℤ ℕ := ⟨1, 64, fun _ => 1, fun _ => 0, fun a b => some (a + b)⟩

def freshSupply : Supply := ⟨0, fun i => i % 2 + 1, fun i => i + 1, stableOrder⟩

theorem freshSupply_sound : freshSupply.Sound where
  levels i := by
    change 0 < i % 2 + 1 ∧ i % 2 + 1 ≤ 32
    omega
  distinct := Nat.succ_injective
  header i := Nat.succ_ne_zero i
  sorts := sorts_stableOrder

theorem runs_refine_convert : ∃ zs,
    Runs smallServer [.zadd 5 7, .zadd 3 8] (some (.skiplist zs)) [.integer 1, .integer 1] ∧
    [.integer 1, .integer 1] = (tabulated smallServer [.zadd 5 7, .zadd 3 8]).2 := by
  have first : Runs smallServer [.zadd 5 7] (some (.ziplist [(7, 5)])) [.integer 1] :=
    Runs.nil.snoc trivial ⟨freshSupply_sound, fun zs same => nomatch same⟩ rfl
  have second : ∃ zs, Runs smallServer [.zadd 5 7, .zadd 3 8] (some (.skiplist zs))
      [.integer 1, .integer 1] :=
    ⟨_, first.snoc trivial ⟨freshSupply_sound, fun zs same => nomatch same⟩ rfl⟩
  obtain ⟨zs, runs⟩ := second
  exact ⟨zs, runs, (runs_refine runs).1⟩

end Phonograph.Redis
