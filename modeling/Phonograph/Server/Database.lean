import Phonograph.Server.Python

/-! # The music database

The loader keeps each kind of record under its own key prefix.  `MusicDb` is a
store in which every prefixed key holds a value of its kind; nothing is said of
the other keys, the search index among them.  The handlers write four fixed
keys, the scratch keys, which carry no prefix. -/

set_option autoImplicit false

namespace Phonograph.Server.Database

open Phonograph.Lib Phonograph.Server.Redis Phonograph.Server.Python

def neighboursKey (artist : String) : String := "artist.neighbours:" ++ artist
def tracksKey (artist : String) : String := "artist.tracks:" ++ artist
def artistInfoKey (artist : String) : String := "artist.info:" ++ artist
def trackInfoKey (track : String) : String := "track.info:" ++ track
def trackArtistsKey (track : String) : String := "track.artists:" ++ track
def termArtistsKey (term : String) : String := "term.artists:" ++ term
def termMatcherKey (word : String) : String := "term.matcher:" ++ word

def scratchKeys : List String := ["pair", "edgelookup", "artistsearch", "genresearch"]

def scratch : Set String := {key | key ∈ scratchKeys}

instance (key : String) : Decidable (key ∈ scratch) :=
  inferInstanceAs (Decidable (key ∈ scratchKeys))

theorem prefixed_not_scratch {pre : String} (colon : ':' ∈ pre.toList) (name : String) :
    pre ++ name ∉ scratch := by
  intro member
  have inside : ':' ∈ (pre ++ name).toList := by
    rw [String.toList_append]
    exact List.mem_append_left _ colon
  have plain : ∀ key ∈ scratchKeys, ':' ∉ key.toList := by decide
  exact plain _ member inside

theorem neighboursKey_not_scratch (artist : String) : neighboursKey artist ∉ scratch :=
  prefixed_not_scratch (by decide) artist

theorem tracksKey_not_scratch (artist : String) : tracksKey artist ∉ scratch :=
  prefixed_not_scratch (by decide) artist

theorem artistInfoKey_not_scratch (artist : String) : artistInfoKey artist ∉ scratch :=
  prefixed_not_scratch (by decide) artist

theorem trackInfoKey_not_scratch (track : String) : trackInfoKey track ∉ scratch :=
  prefixed_not_scratch (by decide) track

theorem trackArtistsKey_not_scratch (track : String) : trackArtistsKey track ∉ scratch :=
  prefixed_not_scratch (by decide) track

theorem termArtistsKey_not_scratch (term : String) : termArtistsKey term ∉ scratch :=
  prefixed_not_scratch (by decide) term

theorem termMatcherKey_not_scratch (word : String) : termMatcherKey word ∉ scratch :=
  prefixed_not_scratch (by decide) word

section Kinds
variable {S : Type} [Score S]

def membersAt : Option (Value S) → MemberSet
  | some (.set m) => m
  | _ => ⟨[], List.nodup_nil⟩

def zsetAt : Option (Value S) → ZSet S
  | some (.zset z) => z
  | _ => ⟨[], List.nodup_nil⟩

def hashAt : Option (Value S) → String → Option String
  | some (.hash fields) => fields
  | _ => fun _ => none

end Kinds

structure MusicDb (S : Type) [Score S] where
  store : Store S
  neighbours_kind : ∀ a, smembersOf (store (neighboursKey a)) =
    .ok (membersAt (store (neighboursKey a))).members
  tracks_kind : ∀ a, asSource (store (tracksKey a)) = .ok (zsetAt (store (tracksKey a)))
  artistInfo_kind : ∀ a, hgetallOf (store (artistInfoKey a)) = .ok (hashAt (store (artistInfoKey a)))
  trackInfo_kind : ∀ t, hgetallOf (store (trackInfoKey t)) = .ok (hashAt (store (trackInfoKey t)))
  trackArtists_kind : ∀ t, smembersOf (store (trackArtistsKey t)) =
    .ok (membersAt (store (trackArtistsKey t))).members

namespace MusicDb
variable {S : Type} [Score S] (db : MusicDb S)

def neighbours (artist : String) : MemberSet := membersAt (db.store (neighboursKey artist))
def tracks (artist : String) : ZSet S := zsetAt (db.store (tracksKey artist))
def artistInfo (artist : String) : String → Option String :=
  hashAt (db.store (artistInfoKey artist))
def trackInfo (track : String) : String → Option String := hashAt (db.store (trackInfoKey track))
def trackArtists (track : String) : MemberSet := membersAt (db.store (trackArtistsKey track))

def Adj (a b : String) : Prop := b ∈ (db.neighbours a).members

/-- Entries whose key starts with `pre` hold a value of the kind `ok`. -/
def kindAt (entries : List (String × Value S)) (pre : String) (ok : Value S → Bool) : Bool :=
  entries.all fun e => !(pre.toList.isPrefixOf e.1.toList) || ok e.2

def isSet : Value S → Bool
  | .set _ => true
  | _ => false

def isZset : Value S → Bool
  | .zset _ => true
  | _ => false

def isHash : Value S → Bool
  | .hash _ => true
  | _ => false

omit [Score S] in
private theorem kind_of_lookup {entries : List (String × Value S)} {pre : String}
    {ok : Value S → Bool} (checked : kindAt entries pre ok = true) (name : String) :
    entries.lookup (pre ++ name) = none ∨
      ∃ v, entries.lookup (pre ++ name) = some v ∧ ok v = true := by
  cases found : entries.lookup (pre ++ name) with
  | none => exact Or.inl rfl
  | some v =>
      obtain ⟨front, back, rfl, _⟩ := List.lookup_eq_some_iff.mp found
      have inside := List.all_eq_true.mp checked (pre ++ name, v) (by simp)
      have starts : pre.toList.isPrefixOf (pre ++ name).toList = true := by
        rw [String.toList_append]
        exact List.isPrefixOf_iff_prefix.mpr (List.prefix_append _ _)
      rw [starts] at inside
      exact Or.inr ⟨v, rfl, by simpa using inside⟩

omit [Score S] in
theorem lookup_unlisted {entries : List (String × Value S)} {pre : String} {names : List String}
    (listed : ∀ e ∈ entries, pre.toList.isPrefixOf e.1.toList = true →
      String.ofList (e.1.toList.drop pre.toList.length) ∈ names)
    {name : String} (other : name ∉ names) : entries.lookup (pre ++ name) = none := by
  refine List.lookup_eq_none_iff.mpr fun e member => bne_iff_ne.mpr fun key => ?_
  have starts : pre.toList.isPrefixOf e.1.toList = true := by
    rw [← key, String.toList_append]
    exact List.isPrefixOf_iff_prefix.mpr (List.prefix_append _ _)
  refine other ?_
  have found := listed e member starts
  rwa [← key, String.toList_append, List.drop_left, String.ofList_toList] at found

omit [Score S] in
theorem smembers_kind {entries : List (String × Value S)} {pre : String}
    (checked : kindAt entries pre isSet = true) (name : String) :
    smembersOf (entries.lookup (pre ++ name)) =
      .ok (membersAt (entries.lookup (pre ++ name))).members := by
  obtain none | ⟨v, some, ok⟩ := kind_of_lookup checked name
  · rw [none]; rfl
  · rw [some]; cases v <;> first | rfl | cases ok

theorem source_kind {entries : List (String × Value S)} {pre : String}
    (checked : kindAt entries pre isZset = true) (name : String) :
    asSource (entries.lookup (pre ++ name)) = .ok (zsetAt (entries.lookup (pre ++ name))) := by
  obtain none | ⟨v, some, ok⟩ := kind_of_lookup checked name
  · rw [none]; rfl
  · rw [some]; cases v <;> first | rfl | cases ok

omit [Score S] in
theorem hgetall_kind {entries : List (String × Value S)} {pre : String}
    (checked : kindAt entries pre isHash = true) (name : String) :
    hgetallOf (entries.lookup (pre ++ name)) = .ok (hashAt (entries.lookup (pre ++ name))) := by
  obtain none | ⟨v, some, ok⟩ := kind_of_lookup checked name
  · rw [none]; rfl
  · rw [some]; cases v <;> first | rfl | cases ok

def ofEntries (entries : List (String × Value S))
    (sets : kindAt entries "artist.neighbours:" isSet = true)
    (zsets : kindAt entries "artist.tracks:" isZset = true)
    (artists : kindAt entries "artist.info:" isHash = true)
    (tracks : kindAt entries "track.info:" isHash = true)
    (members : kindAt entries "track.artists:" isSet = true) : MusicDb S where
  store key := entries.lookup key
  neighbours_kind := smembers_kind sets
  tracks_kind := source_kind zsets
  artistInfo_kind := hgetall_kind artists
  trackInfo_kind := hgetall_kind tracks
  trackArtists_kind := smembers_kind members

end MusicDb

def recordOf (fields : List (String × String)) : Value ℤ := .hash fun field => fields.lookup field

/-- Three artists in a row: `a` and `b` share track `t`, `b` and `c` share track `u`. -/
def rowEntries : List (String × Value ℤ) :=
  [("artist.neighbours:a", .set ⟨["b"], by decide⟩),
   ("artist.neighbours:b", .set ⟨["a", "c"], by decide⟩),
   ("artist.neighbours:c", .set ⟨["b"], by decide⟩),
   ("artist.tracks:a", .zset ⟨[("t", 3)], by decide⟩),
   ("artist.tracks:b", .zset ⟨[("t", 1), ("u", 2)], by decide⟩),
   ("artist.tracks:c", .zset ⟨[("u", 2)], by decide⟩),
   ("artist.info:a", recordOf [("name", "A"), ("popularity", "50")]),
   ("artist.info:b", recordOf [("name", "B"), ("popularity", "60")]),
   ("artist.info:c", recordOf [("name", "C"), ("popularity", "7")]),
   ("track.info:t", recordOf [("name", "T"), ("popularity", "40")]),
   ("track.info:u", recordOf [("name", "U"), ("popularity", "30")]),
   ("track.artists:t", .set ⟨["a", "b"], by decide⟩),
   ("track.artists:u", .set ⟨["b", "c"], by decide⟩),
   ("term.artists:row", .zset ⟨[("a", 1), ("b", 2), ("c", 3)], by decide⟩)]

def rowDb : MusicDb ℤ := .ofEntries rowEntries (by decide) (by decide) (by decide) (by decide)
  (by decide)

theorem rowDb_unlisted {artist : String} (other : artist ∉ ["a", "b", "c"]) :
    (rowDb.neighbours artist).members = [] ∧ (rowDb.tracks artist).members = [] := by
  have neighbours : rowDb.store (neighboursKey artist) = none :=
    MusicDb.lookup_unlisted (by decide +kernel) other
  have tracks : rowDb.store (tracksKey artist) = none :=
    MusicDb.lookup_unlisted (by decide +kernel) other
  rw [MusicDb.neighbours, MusicDb.tracks, neighbours, tracks]
  exact ⟨rfl, rfl⟩

/-! ## What the commands give on a store whose scratch keys hold anything -/

section Commands
variable {S : Type} [Score S] {base : Store S} {key : String}

abbrev Yields {α : Type} (base : Store S) (handler : Handler α) (value : α) : Prop :=
  Gives (machine S) scratch base handler value

private theorem yields_read {α : Type} {command : Cmd} {reply : command.Reply}
    {next : command.Reply → Handler α} {value : α}
    (answers : ∀ store, AgreeOff scratch store base → exec command store = .ok (reply, store))
    (rest : Yields base (next reply) value) : Yields base (.call command next) value :=
  Gives.call (machine S) (fun store agree => ⟨store, answers store agree, agree⟩) rest

theorem yields_smembers (fresh : key ∉ scratch) {members : List String}
    (found : smembersOf (base key) = .ok members) :
    Yields base (Handler.smembers key) members :=
  yields_read (fun store agree => by simp [exec, agree key fresh, found, Except.map])
    (Gives.done _ _ _ _)

theorem yields_hgetall (fresh : key ∉ scratch) {fields : String → Option String}
    (found : hgetallOf (base key) = .ok fields) : Yields base (Handler.hgetall key) fields :=
  yields_read (fun store agree => by simp [exec, agree key fresh, found, Except.map])
    (Gives.done _ _ _ _)

theorem yields_hget (fresh : key ∉ scratch) (field : String) {fields : String → Option String}
    (found : hgetallOf (base key) = .ok fields) :
    Yields base (Handler.hget key field) (fields field) :=
  yields_read (fun store agree => by simp [exec, agree key fresh, found, Except.map])
    (Gives.done _ _ _ _)

theorem yields_ofExcept {α : Type} {x : Except PyErr α} {value : α} (h : x = .ok value) :
    Yields base (ofExcept x) value := by
  rw [h]
  exact Gives.done _ _ _ _

theorem run_lookup {α : Type} {store : Store S} {keys : List String} {z : ZSet S}
    (found : interKeys keys store = .ok z) (rest : List String → Handler α) (start stop : ℤ)
    (tape : Tape) :
    run (machine S) (do
      let _ ← Handler.zinterstore key keys
      rest (← Handler.zrevrange key start stop)) tape store =
    run (machine S) (rest (range start stop z.revSorted)) tape
      (Function.update store key z.stored) := by
  have read : zrevrangeOf start stop z.stored = .ok (range start stop z.revSorted) := by
    by_cases empty : z.entries = []
    · simp [ZSet.stored, ZSet.revSorted, empty, zrevrangeOf, range]
    · simp [ZSet.stored, empty, zrevrangeOf]
  simp only [Handler.zinterstore, Handler.zrevrange, Script.call_bind, Script.done_bind, run_call,
    machine, exec, found, Except.map, Function.update_self, read]

theorem yields_lookup {α : Type} (scratched : key ∈ scratch) {keys : List String}
    (fresh : ∀ k ∈ keys, k ∉ scratch) {z : ZSet S} (found : interKeys keys base = .ok z)
    {rest : List String → Handler α} {value : α}
    {start stop : ℤ} (after : Yields base (rest (range start stop z.revSorted)) value) :
    Yields base (do
      let _ ← Handler.zinterstore key keys
      rest (← Handler.zrevrange key start stop)) value := by
  intro store agree tape
  have inter : interKeys keys store = .ok z :=
    (interKeys_congr fun k member => agree k (fresh k member)).trans found
  have wrote : AgreeOff scratch (Function.update store key z.stored) base := by
    intro k clean
    have other : k ≠ key := fun same => clean (same ▸ scratched)
    rw [Function.update_of_ne other]
    exact agree k clean
  rw [run_lookup inter]
  exact after _ wrote tape

end Commands

end Phonograph.Server.Database
