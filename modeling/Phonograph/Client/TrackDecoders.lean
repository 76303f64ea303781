import Phonograph.Client.TrackButton
import Phonograph.Lib.Words

/-! # The two readers of a button

"Play Next" and "Add to Playlist" read the value of a button with `parseTrack`,
"Play Now" with a copy of it in `playNext`.  The copy puts the string `"Artist"`
where the list of artists is a list with one empty name; `parseArtists` takes a
string for the list of its characters. -/

set_option autoImplicit false

namespace Phonograph.Client.TrackDecoders

open Phonograph.Lib Phonograph.Client.TrackButton

inductive Artists where
  | names (list : List (List Char))
  | text (string : List Char)
  deriving DecidableEq

/-- What `artists[i]` and `artists.length` see. -/
def Artists.entries : Artists → List (List Char)
  | .names list => list
  | .text string => string.map fun c => [c]

/-- An entry of the playlist.  The name of a value without a bar is `undefined`. -/
structure Track where
  youtubeId : List Char
  name : Option (List Char)
  artists : Artists
  deriving DecidableEq

def trackOfParseTrack (s : List Char) : Track :=
  ⟨(parseTrack s).youtubeId, (parseTrack s).name, .names (parseTrack s).artists⟩

/-- The object that `playNext` puts into the playlist; `!trackData[2]` is the test for
an empty string. -/
def trackOfPlayNext (value : List Char) : Track :=
  let trackData := value.splitOn '|'
  let third := (trackData[2]?).getD "Artist".toList
  let track : Track :=
    { youtubeId := trackData.headD []
      name := trackData[1]?
      artists := .names (third.splitOn '*') }
  if third = [] then { track with artists := .text "Artist".toList } else track

def joinMiddle (first : List Char) (middle : List (List Char)) : List Char :=
  middle.foldl (fun artistString artist => artistString ++ ", ".toList ++ artist) first

/-- Without entries `artists[0]` is `undefined`. -/
def parseArtists (track : Track) : Option (List Char) :=
  match track.artists.entries with
  | [] => none
  | first :: rest =>
      let artistString := joinMiddle first rest.dropLast
      match rest.getLast? with
      | none => some artistString
      | some last => some (artistString ++ " and ".toList ++ last)

/-- The two readers of a button make the same track of its value, and the playlist
shows the same artists. -/
def SameTrack (s : List Char) : Prop :=
  trackOfPlayNext s = trackOfParseTrack s ∧
    parseArtists (trackOfPlayNext s) = parseArtists (trackOfParseTrack s)

/-- The second bar of the text is its last character or followed by a third. -/
def EmptyThird (s : List Char) : Prop :=
  ∃ id name rest, s = id ++ '|' :: (name ++ '|' :: rest) ∧ '|' ∉ id ∧ '|' ∉ name ∧ AtBreak '|' rest

theorem splitOn_head_eq_nil (sep : Char) (text : List Char) :
    (text.splitOn sep)[0]? = some [] ↔ AtBreak sep text := by
  rcases splitOn_cases sep text with ⟨fresh, whole⟩ | ⟨first, rest, rfl, fresh, pieces⟩
  · rw [whole, List.getElem?_cons_zero, Option.some.injEq, AtBreak]
    refine ⟨Or.inl, fun ended => ended.resolve_right ?_⟩
    rintro ⟨more, rfl⟩
    simp at fresh
  · rw [pieces, List.getElem?_cons_zero, Option.some.injEq, AtBreak]
    constructor
    · rintro rfl
      exact Or.inr ⟨rest, rfl⟩
    · intro ended
      rcases ended with empty | ⟨more, same⟩
      · simp at empty
      · cases first with
        | nil => rfl
        | cons c first =>
            obtain rfl := (List.cons.inj same).1
            simp at fresh

theorem third_eq_nil_iff (s : List Char) : (s.splitOn '|')[2]? = some [] ↔ EmptyThird s := by
  constructor
  · intro empty
    rcases splitOn_cases '|' s with ⟨_, whole⟩ | ⟨id, tail, rfl, bareId, pieces⟩
    · simp [whole] at empty
    · rw [pieces, List.getElem?_cons_succ] at empty
      rcases splitOn_cases '|' tail with ⟨_, whole⟩ | ⟨name, rest, rfl, bareName, pieces'⟩
      · simp [whole] at empty
      · rw [pieces', List.getElem?_cons_succ] at empty
        exact ⟨id, name, rest, rfl, bareId, bareName, (splitOn_head_eq_nil '|' rest).mp empty⟩
  · rintro ⟨id, name, rest, rfl, bareId, bareName, ended⟩
    rw [List.splitOn_append_cons_self_of_not_mem bareId,
      List.splitOn_append_cons_self_of_not_mem bareName]
    exact (splitOn_head_eq_nil '|' rest).mpr ended

theorem third_getD_eq_nil (s : List Char) :
    ((s.splitOn '|')[2]?).getD "Artist".toList = [] ↔ EmptyThird s := by
  rw [← third_eq_nil_iff]
  cases (s.splitOn '|')[2]? with
  | none => simp
  | some third => simp

theorem trackOfPlayNext_eq {s : List Char} (present : ¬ EmptyThird s) :
    trackOfPlayNext s = trackOfParseTrack s := by
  unfold trackOfPlayNext
  rw [if_neg (mt (third_getD_eq_nil s).mp present)]
  rfl

theorem artists_of_emptyThird {s : List Char} (empty : EmptyThird s) :
    (trackOfPlayNext s).artists = .text "Artist".toList ∧
      (trackOfParseTrack s).artists = .names [[]] := by
  have third := (third_getD_eq_nil s).mpr empty
  constructor
  · unfold trackOfPlayNext
    rw [if_pos third]
  · simp only [trackOfParseTrack, parseTrack, third]
    rfl

/-- The playlist shows the same artists for both exactly if the third field of the value
is missing or not empty. -/
theorem parseArtists_eq_iff (s : List Char) :
    parseArtists (trackOfPlayNext s) = parseArtists (trackOfParseTrack s) ↔ ¬ EmptyThird s := by
  constructor
  · intro shown empty
    obtain ⟨played, read⟩ := artists_of_emptyThird empty
    unfold parseArtists at shown
    rw [played, read] at shown
    revert shown
    decide
  · intro present
    rw [trackOfPlayNext_eq present]

theorem sameTrack_iff (s : List Char) : SameTrack s ↔ ¬ EmptyThird s := by
  constructor
  · intro same
    exact (parseArtists_eq_iff s).mp same.2
  · intro present
    exact ⟨trackOfPlayNext_eq present, (parseArtists_eq_iff s).mpr present⟩

/-- A button of a track without artists: the playlist shows six of them after "Play Now". -/
theorem not_sameTrack : ¬ SameTrack "x|y|".toList ∧
    parseArtists (trackOfPlayNext "x|y|".toList) = some "A, r, t, i, s and t".toList ∧
    parseArtists (trackOfParseTrack "x|y|".toList) = some [] := by
  refine ⟨fun same => ?_, by decide, by decide⟩
  have shown := same.2
  revert shown
  decide

end Phonograph.Client.TrackDecoders
