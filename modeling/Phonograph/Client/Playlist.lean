import Mathlib.Data.List.Induction
import Phonograph.Client.Js
import Phonograph.Lib.Runs

/-! # The playlist

The player of `musicplaybar.js`: `gv.customPlaylist`, the cursor `currentTrack`
and the id last cued.  The cursor is `null`, a number, or the string that a
double-click copies from the row's `data-index`; `+ 1`, `<` and the array index
mean different things for a number and for a string.  A step that throws a
`TypeError` keeps the changes made before.  `gv.playMode` is never `"radio"`:
the one assignment of it is commented out. -/

set_option autoImplicit false

namespace Phonograph.Client.Playlist

open Phonograph.Lib Phonograph.Client.Js

structure Song where
  youtubeId : String
  name : String
  artists : List String
  deriving DecidableEq, Repr

inductive Cursor where
  | null
  | num (n : ℤ)
  | str (s : Numeral)
  deriving DecidableEq

namespace Cursor

/-- The number in `c > 0`, `c < n` and `c -= 1`. -/
def number : Cursor → ℤ
  | null => 0
  | num n => n
  | str s => s.value

def plusOne : Cursor → Cursor
  | null => num 1
  | num n => num (n + 1)
  | str s => str s.plusOne

def minusOne (c : Cursor) : Cursor := num (c.number - 1)

/-- `index == c` for the `data-index` of a row. -/
def matchesIndex (index : Numeral) : Cursor → Bool
  | null => false
  | num n => (index.value : ℤ) = n
  | str s => index = s

/-- `index < c`: two strings are compared as strings. -/
def above (index : Numeral) : Cursor → Bool
  | null => (index.value : ℤ) < 0
  | num n => (index.value : ℤ) < n
  | str s => index.lt s

end Cursor

/-- `playlist[c]`: of the strings, only that of a number is an array index. -/
def entry (playlist : List Song) : Cursor → Option Song
  | .null => none
  | .num n => if n < 0 then none else playlist[n.toNat]?
  | .str s => if s = .ofNat s.value then playlist[s.value]? else none

def Names (c : Cursor) (i : ℕ) : Prop := c = .num i ∨ c = .str (.ofNat i)

theorem entry_of_names (playlist : List Song) {c : Cursor} {i : ℕ} (names : Names c i) :
    entry playlist c = playlist[i]? := by
  rcases names with rfl | rfl
  · simp [entry, show ¬ ((i : ℤ) < 0) by omega]
  · simp [entry]

inductive PlayMode where
  | unset | playlist
  deriving DecidableEq, Repr

/-- `cued` is what `player.cueVideoById` was last called with; `some none` is `undefined`. -/
structure Player where
  customPlaylist : List Song
  currentTrack : Cursor
  playMode : PlayMode
  cued : Option (Option String)
  deriving DecidableEq

abbrev Outcome := Player × Option JsErr

namespace Player

def initial : Player := ⟨[], .null, .unset, none⟩

/-- `currentTrack = c; player.cueVideoById(gv.customPlaylist[currentTrack].youtubeId)`. -/
def moveTo (p : Player) (c : Cursor) : Outcome :=
  match entry p.customPlaylist c with
  | some song => ({ p with currentTrack := c, cued := some (some song.youtubeId) }, none)
  | none => ({ p with currentTrack := c }, some .typeError)

def advanced (p : Player) : Cursor :=
  if p.currentTrack.plusOne.number < p.customPlaylist.length then p.currentTrack.plusOne else .num 0

def playNextTrack (p : Player) : Outcome :=
  if p.playMode = .playlist then
    if p.customPlaylist.length = 0 then (p, none) else p.moveTo p.advanced
  else (p, none)

def playPreviousTrack (p : Player) : Outcome :=
  if p.currentTrack.number > 0 then p.moveTo p.currentTrack.minusOne
  else p.moveTo (.num (p.customPlaylist.length - 1))

/-- `gv.customPlaylist.splice(currentTrack+1, 0, track)`. -/
def spliceAfter (p : Player) (track : Song) : Player :=
  { p with customPlaylist := spliceIn p.customPlaylist p.currentTrack.plusOne.number track }

def playNextFromDropdown (track : Song) (p : Player) : Outcome :=
  let p := { p with playMode := .playlist }
  if p.currentTrack = .null then
    ({ p with currentTrack := .num 0, customPlaylist := p.customPlaylist ++ [track],
              cued := some (some track.youtubeId) }, none)
  else (p.spliceAfter track, none)

def addTrackToPlaylist (track : Song) (p : Player) : Outcome :=
  if p.currentTrack = .null then playNextFromDropdown track p
  else ({ p with customPlaylist := p.customPlaylist ++ [track] }, none)

/-- Unlike Play Next this does not cue the first track. -/
def playNext (track : Song) (p : Player) : Player :=
  if p.currentTrack = .null then
    { p with currentTrack := .num 0, customPlaylist := p.customPlaylist ++ [track] }
  else p.spliceAfter track

def playNow (track : Song) (p : Player) : Outcome :=
  playNextTrack (playNext track { p with playMode := .playlist })

/-- A double-click cues property `0` of the track, which has no such property. -/
def doubleClick (index : ℕ) (p : Player) : Outcome :=
  let p := { p with currentTrack := .str (.ofNat index), playMode := .playlist }
  match entry p.customPlaylist p.currentTrack with
  | some _ => ({ p with cued := some none }, none)
  | none => (p, some .typeError)

/-- The removal of a row.  The source has the second case twice, for the first row
and for the others. -/
def removeFromPlaylist (index : ℕ) (p : Player) : Outcome :=
  if index = 0 ∧ p.customPlaylist.length = 1 then
    ({ p with currentTrack := .null, customPlaylist := [] }, none)
  else
    let p := { p with customPlaylist := p.customPlaylist.eraseIdx index }
    if p.currentTrack.matchesIndex (.ofNat index) then
      playNextTrack { p with currentTrack := p.currentTrack.minusOne }
    else if p.currentTrack.above (.ofNat index) then
      ({ p with currentTrack := p.currentTrack.minusOne }, none)
    else (p, none)

def reorderCursor (currentID : String) (newPlaylist : List Song) (c : Cursor) : Cursor :=
  newPlaylist.zipIdx.foldl (fun c e => if e.1.youtubeId = currentID then .num e.2 else c) c

def reorderSongs (order : List ℕ) (playlist : List Song) : List Song :=
  order.filterMap fun oldPos => playlist[oldPos]?

def reorder (order : List ℕ) (p : Player) : Outcome :=
  match entry p.customPlaylist p.currentTrack with
  | none => (p, some .typeError)
  | some current =>
      let newPlaylist := reorderSongs order p.customPlaylist
      ({ p with customPlaylist := newPlaylist,
                currentTrack := reorderCursor current.youtubeId newPlaylist p.currentTrack }, none)

end Player

inductive Op where
  | playNow (track : Song)
  | playNext (track : Song)
  | add (track : Song)
  | next
  | previous
  | doubleClick (index : ℕ)
  | remove (index : ℕ)
  | drag (order : List ℕ)
  deriving DecidableEq, Repr

/-- One operation.  There is nothing to click or drag where there is no row. -/
def perform (p : Player) : Op → Outcome
  | .playNow track => p.playNow track
  | .playNext track => p.playNextFromDropdown track
  | .add track => p.addTrackToPlaylist track
  | .next => p.playNextTrack
  | .previous => p.playPreviousTrack
  | .doubleClick index => if index < p.customPlaylist.length then p.doubleClick index else (p, none)
  | .remove index => if index < p.customPlaylist.length then p.removeFromPlaylist index else (p, none)
  | .drag order =>
      if p.customPlaylist ≠ [] ∧ order.Perm (List.range p.customPlaylist.length) then p.reorder order
      else (p, none)

def after (p : Player) (op : Op) : Player := (perform p op).1

/-! ## What the parts of an operation do -/

namespace Player
variable {p : Player}

@[simp] theorem customPlaylist_moveTo (c : Cursor) :
    (p.moveTo c).1.customPlaylist = p.customPlaylist := by
  rw [moveTo]
  split
  · rfl
  · rfl

@[simp] theorem currentTrack_moveTo (c : Cursor) : (p.moveTo c).1.currentTrack = c := by
  rw [moveTo]
  split
  · rfl
  · rfl

@[simp] theorem customPlaylist_playNextTrack :
    p.playNextTrack.1.customPlaylist = p.customPlaylist := by
  rw [playNextTrack]
  split_ifs
  · rfl
  · exact customPlaylist_moveTo _
  · rfl

@[simp] theorem customPlaylist_playPreviousTrack :
    p.playPreviousTrack.1.customPlaylist = p.customPlaylist := by
  rw [playPreviousTrack]
  split_ifs
  · exact customPlaylist_moveTo _
  · exact customPlaylist_moveTo _

theorem customPlaylist_remove {index : ℕ} (bound : index < p.customPlaylist.length) :
    (after p (.remove index)).customPlaylist = p.customPlaylist.eraseIdx index := by
  rw [after, perform, if_pos bound, removeFromPlaylist]
  split_ifs with only
  · obtain ⟨rfl, one⟩ := only
    obtain ⟨song, single⟩ := List.length_eq_one_iff.mp one
    rw [single]
    rfl
  · dsimp only
    split_ifs
    · exact customPlaylist_playNextTrack
    · rfl
    · rfl

/-- A cursor that names a place of the playlist is taken, and its track cued. -/
theorem moveTo_names {c : Cursor} {i : ℕ} {song : Song} (names : Names c i)
    (found : p.customPlaylist[i]? = some song) :
    p.moveTo c = ({ p with currentTrack := c, cued := some (some song.youtubeId) }, none) := by
  simp [moveTo, entry_of_names _ names, found]

theorem playNextTrack_eq (mode : p.playMode = .playlist) (ne : p.customPlaylist ≠ []) :
    p.playNextTrack = p.moveTo p.advanced := by
  simp [playNextTrack, mode, ne]

theorem advanced_num {n : ℤ} (low : -1 ≤ n) (ne : p.customPlaylist ≠ [])
    (cursor : p.currentTrack = .num n) :
    ∃ i < p.customPlaylist.length, p.advanced = .num i := by
  have pos := List.length_pos_of_ne_nil ne
  simp only [advanced, cursor, Cursor.plusOne, Cursor.number]
  split
  · refine ⟨(n + 1).toNat, by omega, ?_⟩
    congr 1
    omega
  · exact ⟨0, pos, rfl⟩

theorem previous_names {i : ℕ} (names : Names p.currentTrack i)
    (bound : i < p.customPlaylist.length) :
    ∃ j < p.customPlaylist.length, p.playPreviousTrack = p.moveTo (.num j) := by
  have number : p.currentTrack.number = i := by
    rcases names with cursor | cursor <;> simp [cursor, Cursor.number]
  simp only [playPreviousTrack, Cursor.minusOne, number]
  split
  · refine ⟨i - 1, by omega, ?_⟩
    congr 2
    omega
  · refine ⟨p.customPlaylist.length - 1, by omega, ?_⟩
    congr 2
    omega

end Player

theorem reorderCursor_concat (currentID : String) (songs : List Song) (song : Song) (c : Cursor) :
    Player.reorderCursor currentID (songs ++ [song]) c =
      if song.youtubeId = currentID then .num songs.length
      else Player.reorderCursor currentID songs c := by
  simp [Player.reorderCursor, List.zipIdx_append]

/-- The cursor goes to the last track with the id. -/
theorem reorderCursor_spec (currentID : String) (c : Cursor) (songs : List Song)
    (listed : ∃ song ∈ songs, song.youtubeId = currentID) :
    ∃ (i : ℕ) (song : Song), Player.reorderCursor currentID songs c = .num i ∧
      songs[i]? = some song ∧ song.youtubeId = currentID ∧
      ∀ j > i, ∀ other, songs[j]? = some other → other.youtubeId ≠ currentID := by
  induction songs using List.reverseRecOn with
  | nil => simp at listed
  | append_singleton songs last ih =>
      rw [reorderCursor_concat]
      by_cases here : last.youtubeId = currentID
      · refine ⟨songs.length, last, by simp [here], by simp, here, fun j behind other found => ?_⟩
        have bound := (List.getElem?_eq_some_iff.mp found).1
        rw [List.length_append, List.length_singleton] at bound
        omega
      · obtain ⟨song, inside, same⟩ := listed
        have before : song ∈ songs := by
          rcases List.mem_append.mp inside with before | rest
          · exact before
          · rw [List.mem_singleton.mp rest] at same
            exact absurd same here
        obtain ⟨i, found, cursor, place, id, final⟩ := ih ⟨song, before, same⟩
        refine ⟨i, found, by simp [here, cursor], ?_, id, fun j behind other there => ?_⟩
        · rw [List.getElem?_append_left (List.getElem?_eq_some_iff.mp place).1, place]
        · rcases Nat.lt_or_ge j songs.length with less | more
          · rw [List.getElem?_append_left less] at there
            exact final j behind other there
          · rw [List.getElem?_append_right more] at there
            rw [List.mem_singleton.mp (List.mem_of_getElem? there)]
            exact here

theorem filterMap_getElem_perm {α : Type} {order : List ℕ} {xs : List α}
    (perm : order.Perm (List.range xs.length)) :
    (order.filterMap fun place => xs[place]?).Perm xs := by
  have rows : (List.range xs.length).map (fun i => xs[i]?) = xs.map some := by
    refine List.ext_getElem (by simp) fun i _ bound => ?_
    have inside : i < xs.length := by simpa using bound
    simp [inside]
  have all : (List.range xs.length).filterMap (fun i => xs[i]?) = xs := by
    calc (List.range xs.length).filterMap (fun i => xs[i]?)
        = ((List.range xs.length).map fun i => xs[i]?).filterMap id := by
          rw [List.filterMap_map, Function.id_comp]
      _ = xs := by rw [rows, List.filterMap_map, Function.id_comp, List.filterMap_some]
  exact (perm.filterMap _).trans (by rw [all])

theorem reorderSongs_perm {order : List ℕ} {playlist : List Song}
    (perm : order.Perm (List.range playlist.length)) :
    (Player.reorderSongs order playlist).Perm playlist := filterMap_getElem_perm perm

end Phonograph.Client.Playlist
