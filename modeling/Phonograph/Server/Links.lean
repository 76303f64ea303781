import Mathlib
import Phonograph.Server.Footprints

/-! # Links and their details

`inducedGraph` is the graph on a list of artists with a link for every two that
have a track in common: what `igrapher` computes, name cache and all, when the
tracks it looks at have their records.  `edge_lookup` lists the same tracks for
the two ends of a link, in either order. -/

set_option autoImplicit false

namespace Phonograph.Server.Links

open Phonograph.Lib Phonograph.Server.Redis Phonograph.Server.Python
open Phonograph.Server.Database Phonograph.Server.Igrapher Phonograph.Server.Routes
open Phonograph.Server.Footprints

section Spec
variable {F S : Type} [Score S] (P : Platform F) (db : MusicDb S)

def common (a b : String) : List String := ((db.tracks a).meet (db.tracks b)).revSorted

theorem common_comm (a b : String) : common db a b = common db b a :=
  revSorted_meet_comm _ _

theorem mem_common {a b track : String} :
    track ∈ common db a b ↔ track ∈ (db.tracks a).members ∧ track ∈ (db.tracks b).members := by
  rw [common, (perm_revSorted _).mem_iff, mem_meet]

def HasInfo (track : String) : Prop :=
  (db.trackInfo track "name").isSome ∧ (db.trackInfo track "popularity").isSome

instance (track : String) : Decidable (HasInfo db track) :=
  inferInstanceAs (Decidable (_ ∧ _))

def nameOf (artist : String) : Option String := db.artistInfo artist "name"

def trackOf (track : String) : Track where
  id := track
  name := (db.trackInfo track "name").getD ""
  popularity := (db.trackInfo track "popularity").getD ""
  artists := (P.setOrder (db.trackArtists track).members).map (nameOf db)

def link (vs : List String) (pair : String × String) : Edge where
  source := vs.idxOf pair.1
  target := vs.idxOf pair.2
  weight := (common db pair.1 pair.2).length
  track := trackOf P db ((common db pair.1 pair.2).headD "")

def linked (pair : String × String) : Bool := common db pair.1 pair.2 ≠ []

variable {db} in
theorem linked_iff {a b : String} : linked db (a, b) = true ↔
    ∃ track ∈ (db.tracks a).members, track ∈ (db.tracks b).members := by
  rw [linked, decide_eq_true_eq, Ne, List.eq_nil_iff_forall_not_mem]
  simp [mem_common]

omit [Score S] in
theorem idxOf_of_getElem {vs : List String} (nodup : vs.Nodup) {m : ℕ} {a : String}
    (found : vs[m]? = some a) : vs.idxOf a = m := by
  obtain ⟨bound, rfl⟩ := List.getElem?_eq_some_iff.mp found
  exact nodup.idxOf_getElem m bound

def inducedGraph (vs : List String) : Graph where
  vs := vs
  es := ((pairs vs).filter (linked db)).map (link P db vs)

/-! ## What the handlers yield -/

variable {P db}

theorem interKeys_tracks (a b : String) :
    interKeys [tracksKey a, tracksKey b] db.store = .ok ((db.tracks a).meet (db.tracks b)) := by
  have sources : ∀ key ∈ [tracksKey a, tracksKey b],
      asSource (db.store key) = .ok (zsetAt (db.store key)) := by
    intro key member
    rcases List.mem_pair.mp member with rfl | rfl
    · exact db.tracks_kind a
    · exact db.tracks_kind b
  rw [interKeys_eq sources]
  exact interSources_pair _ _

theorem yields_ofOption {α : Type} {error : PyErr} {x : Option α} (default : α) (some : x.isSome) :
    Yields db.store (Handler.ofOption error x) (x.getD default) := by
  obtain ⟨value, rfl⟩ := Option.isSome_iff_exists.mp some
  exact Gives.done _ _ _ _

def Cached (db : MusicDb S) (nameMap : NameMap) : Prop :=
  ∀ artist name, nameMap.lookup artist = some name → name = nameOf db artist

theorem yields_artistName {acc : List (Option String) × NameMap} (artist : String)
    (cached : Cached db acc.2) :
    ∃ acc', Yields db.store (artistName acc artist) acc' ∧
      acc'.1 = acc.1 ++ [nameOf db artist] ∧ Cached db acc'.2 := by
  unfold artistName
  cases known : acc.2.lookup artist with
  | some name =>
      refine ⟨(acc.1 ++ [name], acc.2), Gives.done _ _ _ _, ?_, cached⟩
      rw [cached artist name known]
  | none =>
      refine ⟨(acc.1 ++ [nameOf db artist], acc.2.insert artist (nameOf db artist)), ?_, rfl, ?_⟩
      · exact Gives.bind _ (yields_hget (artistInfoKey_not_scratch artist) "name"
          (db.artistInfo_kind artist)) (Gives.done _ _ _ _)
      · intro other name found
        by_cases same : other = artist
        · subst same
          rw [AList.lookup_insert] at found
          exact (Option.some.inj found).symm
        · rw [AList.lookup_insert_ne same] at found
          exact cached other name found

theorem yields_artistNames (artists : List String) {nameMap : NameMap}
    (cached : Cached db nameMap) :
    ∃ nameMap', Yields db.store (artistNames artists nameMap)
      (artists.map (nameOf db), nameMap') ∧ Cached db nameMap' := by
  obtain ⟨⟨names, nameMap'⟩, gives, seen, cached'⟩ := Gives.foldlM_view (machine S) Prod.fst
    (fun names artist => names ++ [nameOf db artist]) (fun acc => Cached db acc.2) artists
    ([], nameMap) cached
    fun acc artist _ cached => yields_artistName artist cached
  refine ⟨nameMap', ?_, cached'⟩
  have all : names = artists.map (nameOf db) := by
    rw [show names = artists.foldl (fun names artist => names ++ [nameOf db artist]) [] from seen]
    rw [List.foldl_append_eq_append, List.nil_append, ← List.flatMap_def, List.map_eq_flatMap]
  exact all ▸ gives

variable (db) in
def Aligned (acc : Collected) : Prop :=
  acc.edges.length = acc.weights.length ∧ acc.weights.length = acc.tracks.length ∧
    Cached db acc.nameMap

theorem yields_addLink (vs : List String) {acc : Collected} {a b : String}
    (info : ∀ track ∈ (common db a b).head?, HasInfo db track) (aligned : Aligned db acc) :
    ∃ acc', Yields db.store (addLink P acc (a, b) (common db a b)) acc' ∧
      (assemble vs acc').es = (if linked db (a, b) then (assemble vs acc).es ++ [link P db vs (a, b)]
        else (assemble vs acc).es) ∧ Aligned db acc' := by
  cases tracks : common db a b with
  | nil => exact ⟨acc, Gives.done _ _ _ _, by simp [linked, tracks], aligned⟩
  | cons track rest =>
      obtain ⟨name, popularity⟩ := info track (by simp [tracks])
      obtain ⟨nameMap', names, cached⟩ := yields_artistNames
        (P.setOrder (db.trackArtists track).members) aligned.2.2
      refine ⟨⟨acc.edges ++ [(a, b)], acc.weights ++ [(track :: rest).length],
        acc.tracks ++ [trackOf P db track], nameMap'⟩, ?_, ?_, ?_⟩
      · refine Gives.bind _ (yields_hgetall (trackInfoKey_not_scratch track)
          (db.trackInfo_kind track)) ?_
        refine Gives.bind _ (yields_ofOption "" name) ?_
        refine Gives.bind _ (yields_ofOption "" popularity) ?_
        refine Gives.bind _ (yields_smembers (trackArtistsKey_not_scratch track)
          (db.trackArtists_kind track)) ?_
        exact Gives.bind _ names (Gives.done _ _ _ _)
      · have linkedHere : linked db (a, b) = true := by simp [linked, tracks]
        rw [if_pos linkedHere]
        simp [assemble, link, tracks, List.zip_append, aligned.1, aligned.2.1]
      · simp [Aligned, aligned.1, aligned.2.1, cached]

theorem yields_collectPair (vs : List String) {acc : Collected} {pair : String × String}
    (info : ∀ track ∈ (common db pair.1 pair.2).head?, HasInfo db track)
    (aligned : Aligned db acc) :
    ∃ acc', Yields db.store (collectPair P acc pair) acc' ∧
      (assemble vs acc').es = (if linked db pair then (assemble vs acc).es ++ [link P db vs pair]
        else (assemble vs acc).es) ∧ Aligned db acc' := by
  obtain ⟨acc', gives, seen, aligned'⟩ := yields_addLink (P := P) vs info aligned
  refine ⟨acc', yields_lookup (by decide) (tracksKeys_not_scratch pair.1 pair.2)
    (interKeys_tracks pair.1 pair.2) ?_, seen, aligned'⟩
  rw [range_all]
  exact gives

omit [Score S] in
private theorem foldl_collect {α β : Type} (keep : α → Bool) (f : α → β) : ∀ (xs : List α)
    (ys : List β), xs.foldl (fun ys x => if keep x then ys ++ [f x] else ys) ys =
      ys ++ (xs.filter keep).map f := by
  intro xs
  induction xs with
  | nil => simp
  | cons x xs ih =>
      intro ys
      rw [List.foldl_cons, ih]
      cases kept : keep x <;> simp [kept]

theorem yields_igrapher {vs : List String} (info : ∀ pair ∈ pairs vs,
    ∀ track ∈ (common db pair.1 pair.2).head?, HasInfo db track) :
    Yields db.store (igrapher P vs) (inducedGraph P db vs) := by
  have start : Aligned db ⟨[], [], [], ∅⟩ := ⟨rfl, rfl, fun artist name found => by simp at found⟩
  obtain ⟨acc', gives, seen, _⟩ := Gives.foldlM_view (machine S)
    (fun acc => (assemble vs acc).es)
    (fun es pair => if linked db pair then es ++ [link P db vs pair] else es) (Aligned db)
    (pairs vs) ⟨[], [], [], ∅⟩ start fun acc pair member aligned =>
      yields_collectPair vs (info pair member) aligned
  refine Gives.bind _ gives ?_
  have graph : assemble vs acc' = inducedGraph P db vs := by
    rw [foldl_collect] at seen
    exact congrArg (Igrapher.Graph.mk vs) seen
  rw [← graph]
  exact Gives.done _ _ _ _

theorem yields_edgeTrack {track : String} (info : HasInfo db track) :
    Yields db.store (edgeTrack P track) (trackOf P db track) := by
  refine Gives.bind _ (yields_hgetall (trackInfoKey_not_scratch track) (db.trackInfo_kind track)) ?_
  refine Gives.bind _ (yields_smembers (trackArtistsKey_not_scratch track)
    (db.trackArtists_kind track)) ?_
  refine Gives.bind _ (Gives.mapM _ _ fun artist _ => yields_hget
    (artistInfoKey_not_scratch artist) "name" (db.artistInfo_kind artist)) ?_
  refine Gives.bind _ (yields_ofOption "" info.1) ?_
  exact Gives.bind _ (yields_ofOption "" info.2) (Gives.done _ _ _ _)

def seed (a b : String) : String → Option String := fun name =>
  if name = "seed" then some (a ++ "," ++ b) else none

theorem yields_edgeLookup {a b : String} (left : ',' ∉ a.toList) (right : ',' ∉ b.toList)
    (info : ∀ track ∈ common db a b, HasInfo db track) :
    Yields db.store (edgeLookup P (seed a b)) (.tracks ((common db a b).map (trackOf P db))) := by
  have script : edgeLookup P (seed a b) = (do
      let _ ← Handler.zinterstore "edgelookup" [tracksKey a, tracksKey b]
      edgeTracks P (← Handler.zrevrange "edgelookup" 0 (-1))) := by
    simp [edgeLookup, arg, seed, Handler.ofOption, split_comma left right]
  rw [script]
  refine yields_lookup (by decide) (tracksKeys_not_scratch a b) (interKeys_tracks a b) ?_
  rw [range_all]
  refine Gives.bind _ (Gives.mapM _ _ fun track member => ?_) (Gives.done _ _ _ _)
  exact yields_edgeTrack (info track member)

/-! ## Links and their details agree -/

def Joined (g : Graph) (a b : String) : Prop :=
  ∃ e ∈ g.es, (g.vs[e.source]? = some a ∧ g.vs[e.target]? = some b) ∨
    (g.vs[e.source]? = some b ∧ g.vs[e.target]? = some a)

/-- What a link shows is what the lookup of its ends returns, in either order, and
the lookup of two artists without a link returns nothing. -/
def DetailsAgree (g : Graph) (lookup : String → String → Except PyErr (Response F)) : Prop :=
  (∀ e ∈ g.es, ∃ a b first rest, g.vs[e.source]? = some a ∧ g.vs[e.target]? = some b ∧
    lookup a b = .ok (.tracks (first :: rest)) ∧ lookup b a = .ok (.tracks (first :: rest)) ∧
    (first :: rest).length = e.weight ∧ first.id = e.track.id ∧ first.name = e.track.name ∧
    first.popularity = e.track.popularity ∧
    ∀ name, name ∈ first.artists ↔ name ∈ e.track.artists) ∧
  ∀ a ∈ g.vs, ∀ b ∈ g.vs, a ≠ b → ¬ Joined g a b → lookup a b = .ok (.tracks [])

theorem detailsAgree_inducedGraph {vs : List String} (nodup : vs.Nodup)
    {lookup : String → String → Except PyErr (Response F)}
    (found : ∀ a ∈ vs, ∀ b ∈ vs, a ≠ b →
      lookup a b = .ok (.tracks ((common db a b).map (trackOf P db)))) :
    DetailsAgree (inducedGraph P db vs) lookup := by
  constructor
  · intro e member
    obtain ⟨⟨a, b⟩, listed, rfl⟩ := List.mem_map.mp member
    obtain ⟨pair, linkedHere⟩ := List.mem_filter.mp listed
    obtain ⟨left, right⟩ := mem_of_mem_pairs pair
    have ne := ne_of_mem_pairs nodup pair
    have forth := found a left b right ne
    have back := found b right a left ne.symm
    rw [common_comm db b a] at back
    cases tracks : common db a b with
    | nil => simp [linked, tracks] at linkedHere
    | cons track rest =>
        rw [tracks] at forth back
        refine ⟨a, b, trackOf P db track, rest.map (trackOf P db), List.getElem?_idxOf left,
          List.getElem?_idxOf right, forth, back, ?_⟩
        simp [link, tracks]
  · intro a left b right ne apart
    rw [found a left b right ne]
    have none : common db a b = [] := by
      by_contra some
      refine apart ?_
      rcases mem_pairs_or left right ne with pair | pair
      · refine ⟨link P db vs (a, b), List.mem_map_of_mem (List.mem_filter.mpr ⟨pair, ?_⟩),
          Or.inl ⟨List.getElem?_idxOf left, List.getElem?_idxOf right⟩⟩
        simpa [linked] using some
      · refine ⟨link P db vs (b, a), List.mem_map_of_mem (List.mem_filter.mpr ⟨pair, ?_⟩),
          Or.inr ⟨List.getElem?_idxOf right, List.getElem?_idxOf left⟩⟩
        rw [common_comm] at some
        simpa [linked] using some
    rw [none]
    rfl

end Spec

section Agreement
variable {F S : Type} [Score S] (P : Platform F) (db : MusicDb S)

def details (store : Store S) (a b : String) : Except PyErr (Response F) :=
  (run (machine S) (edgeLookup P (seed a b)) (fun _ => 0) store).1

/-- After any requests `igrapher` returns a graph, and the details of its links,
each asked for after any further requests, agree with it: when the ids have no
comma and every track that two of the artists share has its record. -/
theorem igrapher_details_agree (vs : List String) (nodup : vs.Nodup)
    (commas : ∀ a ∈ vs, ',' ∉ a.toList)
    (info : ∀ a ∈ vs, ∀ b ∈ vs, a ≠ b → ∀ track ∈ (db.tracks a).members,
      track ∈ (db.tracks b).members → HasInfo db track)
    (before : List Job) (between : String → String → List Job) (tape : Tape) :
    ∃ g after,
      run (machine S) (igrapher P vs) tape (served P before db.store) = (.ok g, tape, after) ∧
      g.vs = vs ∧ DetailsAgree g fun a b => details P (served P (between a b) after) a b := by
  have shared : ∀ a ∈ vs, ∀ b ∈ vs, a ≠ b → ∀ track ∈ common db a b, HasInfo db track :=
    fun a left b right ne track member =>
      info a left b right ne track ((mem_common db).mp member).1 ((mem_common db).mp member).2
  have best : ∀ pair ∈ pairs vs, ∀ track ∈ (common db pair.1 pair.2).head?, HasInfo db track :=
    fun pair member track head => shared pair.1 (mem_of_mem_pairs member).1 pair.2
      (mem_of_mem_pairs member).2 (ne_of_mem_pairs nodup member) track (List.mem_of_mem_head? head)
  obtain ⟨after, ran, agree⟩ :=
    yields_igrapher (P := P) best _ (served_agreeOff P before db.store) tape
  refine ⟨_, after, ran, rfl, detailsAgree_inducedGraph nodup fun a left b right ne => ?_⟩
  obtain ⟨_, looked, _⟩ := yields_edgeLookup (P := P) (commas a left) (commas b right)
    (shared a left b right ne) _ ((served_agreeOff P (between a b) after).trans agree) fun _ => 0
  rw [details, looked]

end Agreement

theorem igrapher_details_agree_row : ∃ g after,
    run (machine ℤ) (igrapher Platform.plain ["a", "b", "c"]) (fun _ => 0) rowDb.store =
      (.ok g, fun _ => 0, after) ∧
    g.vs = ["a", "b", "c"] ∧ DetailsAgree g fun a b => details Platform.plain after a b :=
  igrapher_details_agree Platform.plain rowDb ["a", "b", "c"] (by decide) (by decide)
    (by decide +kernel) [] (fun _ _ => []) fun _ => 0

def bareDb : MusicDb ℤ := .ofEntries
  (("artist.tracks:a", .zset ⟨[("t", 3), ("s", 1)], by decide⟩) ::
    ("artist.tracks:b", .zset ⟨[("t", 1), ("u", 2), ("s", 1)], by decide⟩) :: rowEntries)
  (by decide) (by decide) (by decide) (by decide) (by decide)

def commaDb : MusicDb ℤ := .ofEntries
  (("artist.tracks:a,c", .zset ⟨[("t", 3)], List.nodup_singleton _⟩) :: rowEntries)
  (by decide) (by decide) (by decide) (by decide) (by decide)

/-- Every link of the graph on these artists has the tracks that `edge_lookup` lists. -/
def LinksShown (db : MusicDb ℤ) (vs : List String) : Prop :=
  ∀ g, (run (machine ℤ) (igrapher Platform.plain vs) (fun _ => 0) db.store).1 = .ok g →
    DetailsAgree g (details Platform.plain
      (run (machine ℤ) (igrapher Platform.plain vs) (fun _ => 0) db.store).2.2)

/-- Without the record of a further common track the lookup fails, and an id with a
comma is cut in two. -/
theorem links_not_shown : ¬ LinksShown bareDb ["a", "b"] ∧ ¬ LinksShown commaDb ["a,c", "b"] := by
  constructor
  · intro shown
    have agree := shown ⟨["a", "b"], [⟨0, 1, 2, ⟨"t", "T", "40", [some "A", some "B"]⟩⟩]⟩
      (by decide +kernel)
    obtain ⟨a, b, first, rest, left, right, looked, _⟩ := agree.1 _ List.mem_cons_self
    obtain rfl : "a" = a := Option.some.inj left
    obtain rfl : "b" = b := Option.some.inj right
    have failed : details Platform.plain (run (machine ℤ) (igrapher Platform.plain ["a", "b"])
        (fun _ => 0) bareDb.store).2.2 "a" "b" = .error .keyError := by decide +kernel
    rw [failed] at looked
    cases looked
  · intro shown
    have agree := shown ⟨["a,c", "b"], [⟨0, 1, 1, ⟨"t", "T", "40", [some "A", some "B"]⟩⟩]⟩
      (by decide +kernel)
    obtain ⟨a, b, first, rest, left, right, looked, _⟩ := agree.1 _ List.mem_cons_self
    obtain rfl : "a,c" = a := Option.some.inj left
    obtain rfl : "b" = b := Option.some.inj right
    have failed : details Platform.plain (run (machine ℤ) (igrapher Platform.plain ["a,c", "b"])
        (fun _ => 0) commaDb.store).2.2 "a,c" "b" = .ok (.tracks []) := by decide +kernel
    rw [failed] at looked
    cases looked

end Phonograph.Server.Links
