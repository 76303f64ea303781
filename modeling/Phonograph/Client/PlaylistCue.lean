import Phonograph.Client.Playlist

/-! # What plays is what the playlist marks

The id last cued is that of the track under the cursor, unless a row has been
double-clicked, which cues `undefined`, or a track has been put on the empty
playlist after the previous button has left the cursor at -1 there. -/

set_option autoImplicit false

namespace Phonograph.Client.Playlist

open Phonograph.Lib Phonograph.Client.Js

/-- On a playlist with tracks, the track under the cursor is the one last cued. -/
def PlaysMarked (p : Player) : Prop :=
  p.customPlaylist ≠ [] →
    ∃ song ∈ entry p.customPlaylist p.currentTrack, p.cued = some (some song.youtubeId)

instance (p : Player) : Decidable (PlaysMarked p) := inferInstanceAs (Decidable (_ → _))

def KeepsCue (p : Player) : Op → Prop
  | .doubleClick index => ¬ index < p.customPlaylist.length
  | .playNext _ => ¬ (p.currentTrack = .num (-1) ∧ p.customPlaylist = [])
  | .add _ => ¬ (p.currentTrack = .num (-1) ∧ p.customPlaylist = [])
  | _ => True

/-- On the empty playlist the cursor is `null` or -1; otherwise it is the number of
the place whose track was cued last. -/
def Marked (p : Player) : Prop :=
  (p.customPlaylist = [] ∧ (p.currentTrack = .null ∨ p.currentTrack = .num (-1))) ∨
    (p.playMode = .playlist ∧ ∃ (i : ℕ) (song : Song), p.currentTrack = .num i ∧
      p.customPlaylist[i]? = some song ∧ p.cued = some (some song.youtubeId))

theorem Marked.playsMarked {p : Player} (marked : Marked p) : PlaysMarked p := by
  intro ne
  obtain ⟨_, i, song, cursor, place, cued⟩ := marked.resolve_left fun h => ne h.1
  refine ⟨song, ?_, cued⟩
  rw [cursor, entry_of_names _ (Or.inl rfl)]
  exact place

section Steps
variable {p : Player}

theorem marked_moveTo {i : ℕ} (mode : p.playMode = .playlist)
    (bound : i < p.customPlaylist.length) :
    Marked (p.moveTo (.num i)).1 := by
  have place := List.getElem?_eq_getElem bound
  rw [Player.moveTo_names (Or.inl rfl) place]
  exact Or.inr ⟨mode, i, _, rfl, place, rfl⟩

theorem marked_next {n : ℤ} (mode : p.playMode = .playlist) (ne : p.customPlaylist ≠ [])
    (low : -1 ≤ n) (cursor : p.currentTrack = .num n) : Marked p.playNextTrack.1 := by
  rw [Player.playNextTrack_eq mode ne]
  obtain ⟨i, bound, moved⟩ := Player.advanced_num low ne cursor
  rw [moved]
  exact marked_moveTo mode bound

theorem marked_playNow (track : Song) (marked : Marked p) : Marked (p.playNow track).1 := by
  rcases marked with ⟨empty, cursor | cursor⟩ | ⟨mode, i, song, cursor, place, _⟩
  · simp only [Player.playNow, Player.playNext, cursor, if_true]
    exact marked_next rfl (by simp) (by decide : (-1 : ℤ) ≤ 0) rfl
  · simp only [Player.playNow, Player.playNext, cursor, reduceCtorEq, if_false]
    refine marked_next rfl ?_ (by decide : (-1 : ℤ) ≤ -1) rfl
    simp [Player.spliceAfter, empty, Cursor.plusOne, Cursor.number, spliceIn]
  · simp only [Player.playNow, Player.playNext, cursor, reduceCtorEq, if_false]
    refine marked_next rfl (List.ne_nil_of_length_pos ?_) (by omega : (-1 : ℤ) ≤ i) rfl
    have longer := length_spliceIn p.customPlaylist track (by omega : (0 : ℤ) ≤ i + 1)
    simp only [Player.spliceAfter, Cursor.plusOne, Cursor.number, longer]
    omega

theorem marked_playNext (track : Song) (marked : Marked p) (keeps : KeepsCue p (.playNext track)) :
    Marked (p.playNextFromDropdown track).1 := by
  rcases marked with ⟨empty, cursor | cursor⟩ | ⟨mode, i, song, cursor, place, cued⟩
  · simp only [Player.playNextFromDropdown, cursor, if_true]
    exact Or.inr ⟨rfl, 0, track, rfl, by simp [empty], rfl⟩
  · exact absurd ⟨cursor, empty⟩ keeps
  · simp only [Player.playNextFromDropdown, cursor, reduceCtorEq, if_false]
    refine Or.inr ⟨rfl, i, song, rfl, ?_, cued⟩
    have bound := (List.getElem?_eq_some_iff.mp place).1
    simp only [Player.spliceAfter, Cursor.plusOne, Cursor.number]
    exact (getElem_spliceIn p.customPlaylist track (Nat.lt_succ_self i) bound).trans place

theorem marked_add (track : Song) (marked : Marked p) (keeps : KeepsCue p (.add track)) :
    Marked (p.addTrackToPlaylist track).1 := by
  by_cases null : p.currentTrack = .null
  · simp only [Player.addTrackToPlaylist, null, if_true]
    exact marked_playNext track marked keeps
  · simp only [Player.addTrackToPlaylist, null, if_false]
    rcases marked with ⟨empty, cursor | cursor⟩ | ⟨mode, i, song, cursor, place, cued⟩
    · exact absurd cursor null
    · exact absurd ⟨cursor, empty⟩ keeps
    · have bound := (List.getElem?_eq_some_iff.mp place).1
      exact Or.inr ⟨mode, i, song, cursor, (List.getElem?_append_left bound).trans place, cued⟩

theorem marked_playNextTrack (marked : Marked p) : Marked p.playNextTrack.1 := by
  rcases marked with ⟨empty, cursor⟩ | ⟨mode, i, song, cursor, place, _⟩
  · have same : p.playNextTrack = (p, none) := by simp [Player.playNextTrack, empty]
    rw [same]
    exact Or.inl ⟨empty, cursor⟩
  · have bound := (List.getElem?_eq_some_iff.mp place).1
    exact marked_next mode (List.ne_nil_of_length_pos (by omega)) (by omega : (-1 : ℤ) ≤ i) cursor

theorem marked_previous (marked : Marked p) : Marked p.playPreviousTrack.1 := by
  rcases marked with ⟨empty, cursor⟩ | ⟨mode, i, song, cursor, place, _⟩
  · have moved : p.playPreviousTrack = p.moveTo (.num (-1)) := by
      rcases cursor with cursor | cursor <;>
        simp [Player.playPreviousTrack, cursor, empty, Cursor.number]
    rw [moved]
    simp [Player.moveTo, entry, Marked, empty]
  · obtain ⟨j, inside, moved⟩ := Player.previous_names (Or.inl cursor)
      (List.getElem?_eq_some_iff.mp place).1
    rw [moved]
    exact marked_moveTo mode inside

theorem marked_remove {index : ℕ} (row : index < p.customPlaylist.length) (marked : Marked p) :
    Marked (p.removeFromPlaylist index).1 := by
  have ne : p.customPlaylist ≠ [] := List.ne_nil_of_length_pos (by omega)
  obtain ⟨mode, i, song, cursor, place, cued⟩ := marked.resolve_left fun h => ne h.1
  have bound := (List.getElem?_eq_some_iff.mp place).1
  by_cases only : index = 0 ∧ p.customPlaylist.length = 1
  · simp only [Player.removeFromPlaylist, only]
    exact Or.inl ⟨rfl, Or.inl rfl⟩
  have shorter : (p.customPlaylist.eraseIdx index).length = p.customPlaylist.length - 1 :=
    List.length_eraseIdx_of_lt row
  simp only [Player.removeFromPlaylist, only, if_false, cursor, Cursor.matchesIndex, Cursor.above,
    Cursor.minusOne, Cursor.number, Numeral.value_ofNat, decide_eq_true_eq, Int.natCast_inj]
  split
  · rename_i here
    refine marked_next mode (List.ne_nil_of_length_pos ?_) (by omega : (-1 : ℤ) ≤ (i : ℤ) - 1) rfl
    show 0 < (p.customPlaylist.eraseIdx index).length
    omega
  · split
    · rename_i other above
      refine Or.inr ⟨mode, i - 1, song, ?_, ?_, cued⟩
      · show Cursor.num ((i : ℤ) - 1) = .num ((i - 1 : ℕ) : ℤ)
        congr 1
        omega
      · show (p.customPlaylist.eraseIdx index)[i - 1]? = some song
        rw [List.getElem?_eraseIdx_of_ge (by omega), Nat.sub_add_cancel (by omega), place]
    · rename_i other below
      refine Or.inr ⟨mode, i, song, rfl, ?_, cued⟩
      show (p.customPlaylist.eraseIdx index)[i]? = some song
      rw [List.getElem?_eraseIdx_of_lt (by omega), place]

theorem marked_drag {order : List ℕ} (ne : p.customPlaylist ≠ [])
    (perm : order.Perm (List.range p.customPlaylist.length)) (marked : Marked p) :
    Marked (p.reorder order).1 := by
  obtain ⟨mode, i, song, cursor, place, cued⟩ := marked.resolve_left fun h => ne h.1
  obtain ⟨j, moved, newCursor, newPlace, same, _⟩ :=
    reorderCursor_spec song.youtubeId p.currentTrack
    (Player.reorderSongs order p.customPlaylist)
    ⟨song, (reorderSongs_perm perm).mem_iff.mpr (List.mem_of_getElem? place), rfl⟩
  simp only [Player.reorder, entry_of_names p.customPlaylist (Or.inl cursor), place, newCursor]
  exact Or.inr ⟨mode, j, moved, rfl, newPlace, by rw [same]; exact cued⟩

end Steps

/-! ## Whole runs -/

theorem marked_of_keeps {p : Player} (marked : Marked p) (op : Op) (keeps : KeepsCue p op) :
    Marked (after p op) := by
  unfold after
  cases op with
  | playNow track => exact marked_playNow track marked
  | playNext track => exact marked_playNext track marked keeps
  | add track => exact marked_add track marked keeps
  | next => exact marked_playNextTrack marked
  | previous => exact marked_previous marked
  | doubleClick index =>
      have none : ¬ index < p.customPlaylist.length := keeps
      simpa only [perform, none, if_false] using marked
  | remove index =>
      rw [perform]
      split
      · rename_i row; exact marked_remove row marked
      · exact marked
  | drag order =>
      rw [perform]
      split
      · rename_i rows; exact marked_drag rows.1 rows.2 marked
      · exact marked

theorem keeps_of_playsMarked {p : Player} (op : Op) (plays : PlaysMarked (after p op)) :
    KeepsCue p op := by
  by_contra broken
  unfold after at plays
  cases op with
  | doubleClick index =>
      have row : index < p.customPlaylist.length := not_not.mp broken
      have names : Names (.str (.ofNat index)) index := Or.inr rfl
      simp only [perform, row, if_true, Player.doubleClick, entry_of_names _ names,
        List.getElem?_eq_getElem row] at plays
      obtain ⟨song, _, cued⟩ := plays (List.ne_nil_of_length_pos (Nat.zero_lt_of_lt row))
      simp at cued
  | playNext track =>
      obtain ⟨cursor, empty⟩ := not_not.mp broken
      simp [perform, Player.playNextFromDropdown, Player.spliceAfter, cursor, empty, PlaysMarked,
        entry, Cursor.plusOne, Cursor.number, spliceIn] at plays
  | add track =>
      obtain ⟨cursor, empty⟩ := not_not.mp broken
      simp [perform, Player.addTrackToPlaylist, cursor, empty, PlaysMarked, entry] at plays
  | playNow track => exact broken trivial
  | next => exact broken trivial
  | previous => exact broken trivial
  | remove index => exact broken trivial
  | drag order => exact broken trivial

/-- Along every run what was cued last is the track under the cursor, exactly when
every operation of the run keeps the two together in the state it meets. -/
theorem plays_marked_iff (ops : List Op) :
    Along after (fun p op => PlaysMarked (after p op)) .initial ops ↔
      Along after KeepsCue .initial ops :=
  along_iff Marked
    (fun _ op marked => ⟨keeps_of_playsMarked op, fun keeps =>
      (marked_of_keeps marked op keeps).playsMarked⟩)
    (fun _ op marked plays => marked_of_keeps marked op (keeps_of_playsMarked op plays))
    ops .initial (Or.inl ⟨rfl, Or.inl rfl⟩)

theorem not_plays_marked :
    ¬ ∀ ops : List Op, Along after (fun p op => PlaysMarked (after p op)) .initial ops := by
  intro always
  have run := always [.add ⟨"x", "X", []⟩, .doubleClick 0]
  revert run
  decide +kernel

end Phonograph.Client.Playlist
