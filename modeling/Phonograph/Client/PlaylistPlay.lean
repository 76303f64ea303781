import Mathlib
import Phonograph.Client.Playlist

/-! # Play Now, next and previous

Play Now puts its track behind the current one and advances to it; next and
previous go round the playlist.  Each computes the place after the cursor for
itself, and a cursor that a double-click has left as a string makes another place
of it: `"3" + 1` is `"31"`. -/

set_option autoImplicit false

namespace Phonograph.Client.Playlist

open Phonograph.Lib Phonograph.Client.Js

/-! ## Play Now -/

/-- The track stands behind the entry that was current, or alone on the playlist that was
empty; the cursor denotes it and it was cued last. -/
def PlaysNow (track : Song) (p : Player) : Prop :=
  ∃ place, (p.customPlaylist = [] ∧ place = 0 ∨
      ∃ i < p.customPlaylist.length, Names p.currentTrack i ∧ place = i + 1) ∧
    (after p (.playNow track)).customPlaylist = p.customPlaylist.insertIdx place track ∧
    Names (after p (.playNow track)).currentTrack place ∧
    (after p (.playNow track)).cued = some (some track.youtubeId)

def CountsFrom (p : Player) : Prop :=
  p.customPlaylist = [] ∨ ∃ i < p.customPlaylist.length, p.currentTrack = .num i

/-- On the empty playlist the cursor is `null`, or -1 after the previous button. -/
def EmptyCursor (p : Player) : Prop :=
  p.customPlaylist = [] → p.currentTrack = .null ∨ p.currentTrack = .num (-1)

section Steps
variable {p : Player}

theorem playNextTrack_currentTrack (mode : p.playMode = .playlist) (ne : p.customPlaylist ≠ []) :
    p.playNextTrack.1.currentTrack = p.advanced := by
  rw [Player.playNextTrack_eq mode ne, Player.currentTrack_moveTo]

theorem not_names_advanced {i : ℕ} (cursor : p.currentTrack = .str (.ofNat i)) :
    ¬ Names p.advanced (i + 1) := by
  unfold Player.advanced
  rw [cursor]
  split_ifs with inside
  · intro names
    rcases names with number | text
    · cases number
    · have same : (Numeral.ofNat i).plusOne = .ofNat (i + 1) := Cursor.str.inj text
      have value := congrArg Numeral.value same
      rw [Numeral.value_plusOne, Numeral.value_ofNat, Numeral.value_ofNat] at value
      obtain rfl : i = 0 := by omega
      exact Numeral.plusOne_zero same
  · intro names
    rcases names with number | text
    · have zero : (0 : ℤ) = ((i + 1 : ℕ) : ℤ) := Cursor.num.inj number
      omega
    · cases text

theorem playNow_eq (track : Song) (named : p.currentTrack ≠ .null) :
    p.playNow track =
      (({ p with playMode := .playlist } : Player).spliceAfter track).playNextTrack := by
  simp only [Player.playNow, Player.playNext, named, if_false]

theorem spliceIn_ne_nil (xs : List Song) (start : ℤ) (x : Song) : spliceIn xs start x ≠ [] := by
  unfold spliceIn
  apply List.ne_nil_of_length_pos
  rw [List.length_insertIdx]
  split_ifs <;> omega

theorem playsNow_empty (track : Song) (empty : p.customPlaylist = [])
    (cursor : p.currentTrack = .null ∨ p.currentTrack = .num (-1)) : PlaysNow track p := by
  refine ⟨0, Or.inl ⟨empty, rfl⟩, ?_⟩
  have first : after p (.playNow track) = { p with
      customPlaylist := [track], currentTrack := .num 0, playMode := .playlist,
      cued := some (some track.youtubeId) } := by
    rcases cursor with null | before
    · simp [after, perform, Player.playNow, Player.playNext, null, empty, Player.playNextTrack,
        Player.advanced, Cursor.plusOne, Cursor.number, Player.moveTo, entry]
    · simp [after, perform, Player.playNow, Player.playNext, before, empty, Player.spliceAfter,
        spliceIn, Player.playNextTrack, Player.advanced, Cursor.plusOne, Cursor.number,
        Player.moveTo, entry]
  rw [first, empty]
  exact ⟨rfl, Or.inl rfl, rfl⟩

theorem playsNow_num (track : Song) {i : ℕ} (bound : i < p.customPlaylist.length)
    (cursor : p.currentTrack = .num i) : PlaysNow track p := by
  refine ⟨i + 1, Or.inr ⟨i, bound, Or.inl cursor, rfl⟩, ?_⟩
  have spliced : spliceIn p.customPlaylist ((i : ℤ) + 1) track =
      p.customPlaylist.insertIdx (i + 1) track := by
    rw [spliceIn, if_neg (by omega)]
    congr 1
    omega
  have longer : (p.customPlaylist.insertIdx (i + 1) track).length = p.customPlaylist.length + 1 :=
    List.length_insertIdx_of_le_length bound track
  have here : (p.customPlaylist.insertIdx (i + 1) track)[i + 1]? = some track :=
    List.getElem?_insertIdx_self.trans (if_pos bound)
  have moved : after p (.playNow track) = { p with
      customPlaylist := p.customPlaylist.insertIdx (i + 1) track, currentTrack := .num (i + 1 : ℕ)
      playMode := .playlist, cued := some (some track.youtubeId) } := by
    rw [after, perform, playNow_eq track (by simp [cursor])]
    simp only [Player.spliceAfter, cursor, Cursor.plusOne, Cursor.number, spliced]
    rw [Player.playNextTrack_eq rfl (List.ne_nil_of_length_pos (by rw [longer]; omega))]
    have advanced : Player.advanced { p with
        customPlaylist := p.customPlaylist.insertIdx (i + 1) track, currentTrack := .num i
        playMode := .playlist } = .num (i + 1 : ℕ) := by
      simp only [Player.advanced, Cursor.plusOne, Cursor.number, longer]
      rw [if_pos (by omega)]
      push_cast
      rfl
    rw [advanced, Player.moveTo_names (Or.inl rfl) here]
  rw [moved]
  exact ⟨rfl, Or.inl rfl, rfl⟩

theorem not_names_playNow (track : Song) {i : ℕ}
    (cursor : p.currentTrack = .str (.ofNat i)) :
    ¬ Names (after p (.playNow track)).currentTrack (i + 1) := by
  rw [after, perform, playNow_eq track (by simp [cursor]),
    playNextTrack_currentTrack rfl (spliceIn_ne_nil _ _ _)]
  exact not_names_advanced (p := (({ p with playMode := .playlist } : Player).spliceAfter track))
    cursor

end Steps

/-! ## Play Now in every reachable state -/

theorem emptyCursor_of_ne_nil {p : Player} (ne : p.customPlaylist ≠ []) : EmptyCursor p :=
  fun none => absurd none ne

theorem emptyCursor_next {p : Player} (empty : EmptyCursor p) : EmptyCursor (after p .next) := by
  intro none
  rw [after, perform, Player.customPlaylist_playNextTrack] at none
  have same : p.playNextTrack = (p, Option.none) := by simp [Player.playNextTrack, none]
  rw [after, perform, same]
  exact empty none

theorem emptyCursor_previous {p : Player} (empty : EmptyCursor p) :
    EmptyCursor (after p .previous) := by
  intro none
  rw [after, perform, Player.customPlaylist_playPreviousTrack] at none
  have low : ¬ p.currentTrack.number > 0 := by
    rcases empty none with cursor | cursor <;> simp [cursor, Cursor.number]
  rw [after, perform, Player.playPreviousTrack, if_neg low, Player.currentTrack_moveTo, none]
  exact Or.inr rfl

theorem emptyCursor_remove {p : Player} (empty : EmptyCursor p) (index : ℕ) :
    EmptyCursor (after p (.remove index)) := by
  by_cases row : index < p.customPlaylist.length
  · by_cases only : index = 0 ∧ p.customPlaylist.length = 1
    · rw [after, perform, if_pos row, Player.removeFromPlaylist, if_pos only]
      exact fun _ => Or.inl rfl
    · apply emptyCursor_of_ne_nil
      rw [Player.customPlaylist_remove row]
      apply List.ne_nil_of_length_pos
      rw [List.length_eraseIdx_of_lt row]
      omega
  · rw [after, perform, if_neg row]
    exact empty

theorem emptyCursor_drag {p : Player} (empty : EmptyCursor p) (order : List ℕ) :
    EmptyCursor (after p (.drag order)) := by
  rw [after, perform]
  split_ifs with rows
  · rw [Player.reorder]
    split
    · exact empty
    · apply emptyCursor_of_ne_nil
      have perm := reorderSongs_perm rows.2
      intro none
      exact rows.1 (List.Perm.eq_nil (none ▸ perm.symm))
  · exact empty

theorem emptyCursor_after {p : Player} (empty : EmptyCursor p) (op : Op) :
    EmptyCursor (after p op) := by
  cases op with
  | playNow track =>
      apply emptyCursor_of_ne_nil
      rw [after, perform, Player.playNow, Player.customPlaylist_playNextTrack, Player.playNext]
      split_ifs
      · simp
      · exact spliceIn_ne_nil _ _ _
  | playNext track =>
      apply emptyCursor_of_ne_nil
      rw [after, perform, Player.playNextFromDropdown]
      split_ifs
      · simp
      · exact spliceIn_ne_nil _ _ _
  | add track =>
      apply emptyCursor_of_ne_nil
      rw [after, perform, Player.addTrackToPlaylist]
      split_ifs with null
      · simp [Player.playNextFromDropdown, null]
      · simp
  | next => exact emptyCursor_next empty
  | previous => exact emptyCursor_previous empty
  | doubleClick index =>
      rw [after, perform]
      split_ifs with row
      · have ne : p.customPlaylist ≠ [] := List.ne_nil_of_length_pos (Nat.zero_lt_of_lt row)
        apply emptyCursor_of_ne_nil
        rw [Player.doubleClick]
        split
        · exact ne
        · exact ne
      · exact empty
  | remove index => exact emptyCursor_remove empty index
  | drag order => exact emptyCursor_drag empty order

theorem emptyCursor_run (history : List Op) : EmptyCursor (history.foldl after .initial) :=
  List.foldlRecOn history after (fun _ => Or.inl rfl) fun _ empty op _ => emptyCursor_after empty op

/-- In every reachable state: Play Now puts the track behind the current one, goes to it and
cues it exactly if the cursor is a number in range or there is no track yet. -/
theorem playsNow_iff (history : List Op) (track : Song) :
    PlaysNow track (history.foldl after .initial) ↔
      CountsFrom (history.foldl after .initial) := by
  have empty := emptyCursor_run history
  generalize history.foldl after .initial = p at empty ⊢
  constructor
  · rintro ⟨place, none | ⟨i, bound, number | text, rfl⟩, _, names, _⟩
    · exact Or.inl none.1
    · exact Or.inr ⟨i, bound, number⟩
    · exact absurd names (not_names_playNow track text)
  · rintro (none | ⟨i, bound, cursor⟩)
    · exact playsNow_empty track none (empty none)
    · exact playsNow_num track bound cursor

/-- A double-click on the first of two rows, and then Play Now. -/
theorem not_playsNow : ¬ PlaysNow ⟨"z", "Z", []⟩
    ([.add ⟨"x", "X", []⟩, .add ⟨"y", "Y", []⟩, .doubleClick 0].foldl after .initial) := by
  rintro ⟨place, none | ⟨i, _, names, rfl⟩, _, moved, _⟩
  · cases none.1
  · rcases names with number | text
    · cases number
    · exact not_names_playNow _ text moved

/-! ## Next and previous -/

def Cues (op : Op) (p : Player) (i : ℕ) : Prop :=
  ∀ before, ∃ song, p.customPlaylist[i]? = some song ∧
    Names (after { p with cued := before } op).currentTrack i ∧
    (after { p with cued := before } op).cued = some (some song.youtubeId)

def nexts (p : Player) (k : ℕ) : Player := (fun q => after q .next)^[k] p

/-- Next and previous go round the playlist and undo each other, and a whole round of
next cues every entry once. -/
structure Advances (p : Player) (i : ℕ) : Prop where
  bound : i < p.customPlaylist.length
  current : Names p.currentTrack i
  next : Cues .next p ((i + 1) % p.customPlaylist.length)
  previous : Cues .previous p ((i + (p.customPlaylist.length - 1)) % p.customPlaylist.length)
  back : Cues .previous (after p .next) i
  forth : Cues .next (after p .previous) i
  round : ∃ order : List ℕ, order.Perm (List.range p.customPlaylist.length) ∧
    ∀ k j, order[k]? = some j → Cues .next (nexts p k) j
  unchanged : ∀ presses : List Op, (∀ op ∈ presses, op = .next ∨ op = .previous) →
    (presses.foldl after p).customPlaylist = p.customPlaylist

/-- The cursor is the number of entry `i`, or its string if it is the last entry. -/
structure Ready (p : Player) (i : ℕ) : Prop where
  mode : p.playMode = .playlist
  bound : i < p.customPlaylist.length
  cursor : p.currentTrack = .num i ∨
    (p.currentTrack = .str (.ofNat i) ∧ i + 1 = p.customPlaylist.length)

section Round
variable {p : Player} {i : ℕ}

theorem Ready.names (ready : Ready p i) : Names p.currentTrack i :=
  ready.cursor.imp id And.left

theorem Ready.advanced (ready : Ready p i) :
    p.advanced = .num ((i + 1) % p.customPlaylist.length : ℕ) := by
  have bound := ready.bound
  rcases ready.cursor with number | ⟨text, last⟩
  · simp only [Player.advanced, number, Cursor.plusOne, Cursor.number]
    by_cases more : i + 1 < p.customPlaylist.length
    · rw [if_pos (by omega), Nat.mod_eq_of_lt more]
      rfl
    · have last : i + 1 = p.customPlaylist.length := by omega
      rw [if_neg (by omega), last, Nat.mod_self]
      rfl
  · simp only [Player.advanced, text, Cursor.plusOne, Cursor.number, Numeral.value_plusOne,
      Numeral.value_ofNat]
    rw [if_neg (by omega), last, Nat.mod_self]
    rfl

theorem perform_previous (bound : i < p.customPlaylist.length) (names : Names p.currentTrack i) :
    perform p .previous =
      p.moveTo (.num ((i + (p.customPlaylist.length - 1)) % p.customPlaylist.length : ℕ)) := by
  have number : p.currentTrack.number = i := by
    rcases names with cursor | cursor <;> simp [cursor, Cursor.number]
  simp only [perform, Player.playPreviousTrack, Cursor.minusOne, number]
  split_ifs with pos
  · have before : (i + (p.customPlaylist.length - 1)) % p.customPlaylist.length = i - 1 := by
      have sum : i + (p.customPlaylist.length - 1) = i - 1 + p.customPlaylist.length := by omega
      rw [sum, Nat.add_mod_right, Nat.mod_eq_of_lt (by omega)]
    rw [before]
    congr 2
    omega
  · obtain rfl : i = 0 := by omega
    rw [Nat.zero_add, Nat.mod_eq_of_lt (by omega)]
    congr 2
    omega

theorem Ready.with_cued (ready : Ready p i) (before : Option (Option String)) :
    Ready { p with cued := before } i := ⟨ready.mode, ready.bound, ready.cursor⟩

theorem after_moveTo {op : Op} {j : ℕ} (inside : j < p.customPlaylist.length)
    (moves : perform p op = p.moveTo (.num j)) :
    after p op = { p with
      currentTrack := .num j, cued := some (some p.customPlaylist[j].youtubeId) } := by
  rw [after, moves, Player.moveTo_names (Or.inl rfl) (List.getElem?_eq_getElem inside)]

theorem Ready.perform_next (ready : Ready p i) :
    perform p .next = p.moveTo (.num ((i + 1) % p.customPlaylist.length : ℕ)) := by
  have ne : p.customPlaylist ≠ [] := List.ne_nil_of_length_pos (Nat.zero_lt_of_lt ready.bound)
  rw [perform, Player.playNextTrack_eq ready.mode ne, ready.advanced]

theorem mod_bound (ready : Ready p i) (j : ℕ) :
    j % p.customPlaylist.length < p.customPlaylist.length :=
  Nat.mod_lt _ (Nat.zero_lt_of_lt ready.bound)

theorem Ready.cues_next (ready : Ready p i) :
    Cues .next p ((i + 1) % p.customPlaylist.length) := by
  intro before
  have inside := mod_bound ready (i + 1)
  refine ⟨_, List.getElem?_eq_getElem inside, ?_⟩
  rw [after_moveTo (p := { p with cued := before }) inside (ready.with_cued before).perform_next]
  exact ⟨Or.inl rfl, rfl⟩

theorem Ready.cues_previous (ready : Ready p i) :
    Cues .previous p ((i + (p.customPlaylist.length - 1)) % p.customPlaylist.length) := by
  intro before
  have inside := mod_bound ready (i + (p.customPlaylist.length - 1))
  refine ⟨_, List.getElem?_eq_getElem inside, ?_⟩
  have moves := perform_previous (p := { p with cued := before }) ready.bound ready.names
  rw [after_moveTo (p := { p with cued := before }) inside moves]
  exact ⟨Or.inl rfl, rfl⟩

theorem Ready.after_next (ready : Ready p i) :
    Ready (after p .next) ((i + 1) % p.customPlaylist.length) := by
  rw [after_moveTo (mod_bound ready _) ready.perform_next]
  exact ⟨ready.mode, mod_bound ready _, Or.inl rfl⟩

theorem Ready.after_previous (ready : Ready p i) : Ready (after p .previous)
    ((i + (p.customPlaylist.length - 1)) % p.customPlaylist.length) := by
  rw [after_moveTo (mod_bound ready _) (perform_previous ready.bound ready.names)]
  exact ⟨ready.mode, mod_bound ready _, Or.inl rfl⟩

theorem customPlaylist_presses (p : Player) (presses : List Op)
    (pressed : ∀ op ∈ presses, op = .next ∨ op = .previous) :
    (presses.foldl after p).customPlaylist = p.customPlaylist := by
  refine List.foldlRecOn (motive := fun q => q.customPlaylist = p.customPlaylist) presses after rfl
    fun q same op member => ?_
  rcases pressed op member with rfl | rfl
  · exact Player.customPlaylist_playNextTrack.trans same
  · exact Player.customPlaylist_playPreviousTrack.trans same

theorem nexts_succ (p : Player) (k : ℕ) : nexts p (k + 1) = after (nexts p k) .next :=
  Function.iterate_succ_apply' _ k p

theorem nexts_customPlaylist (p : Player) (k : ℕ) :
    (nexts p k).customPlaylist = p.customPlaylist := by
  induction k with
  | zero => rfl
  | succ k ih =>
      rw [nexts_succ]
      exact Player.customPlaylist_playNextTrack.trans ih

theorem Ready.nexts (ready : Ready p i) (k : ℕ) :
    Ready (nexts p k) ((i + k) % p.customPlaylist.length) := by
  induction k with
  | zero =>
      rw [Nat.add_zero, Nat.mod_eq_of_lt ready.bound]
      exact ready
  | succ k ih =>
      have next := ih.after_next
      rw [nexts_customPlaylist, Nat.mod_add_mod] at next
      rw [nexts_succ]
      exact next

theorem Ready.advances (ready : Ready p i) : Advances p i where
  bound := ready.bound
  current := ready.names
  next := ready.cues_next
  previous := ready.cues_previous
  back := by
    have back := ready.after_next.cues_previous
    have same : (after p .next).customPlaylist = p.customPlaylist :=
      Player.customPlaylist_playNextTrack
    have whole : i + 1 + (p.customPlaylist.length - 1) = i + p.customPlaylist.length := by
      have bound := ready.bound
      omega
    rw [same, Nat.mod_add_mod, whole, Nat.add_mod_right, Nat.mod_eq_of_lt ready.bound] at back
    exact back
  forth := by
    have forth := ready.after_previous.cues_next
    have same : (after p .previous).customPlaylist = p.customPlaylist :=
      Player.customPlaylist_playPreviousTrack
    have whole : i + (p.customPlaylist.length - 1) + 1 = i + p.customPlaylist.length := by
      have bound := ready.bound
      omega
    rw [same, Nat.mod_add_mod, whole, Nat.add_mod_right, Nat.mod_eq_of_lt ready.bound] at forth
    exact forth
  round := by
    refine ⟨(List.range p.customPlaylist.length).rotate (i + 1), List.rotate_perm _ _, ?_⟩
    intro k j listed
    have inside : k < p.customPlaylist.length := by
      have bound := (List.getElem?_eq_some_iff.mp listed).1
      rwa [List.length_rotate, List.length_range] at bound
    rw [List.getElem?_rotate (by rwa [List.length_range]), List.length_range] at listed
    have place : j = (k + (i + 1)) % p.customPlaylist.length := by
      obtain ⟨_, found⟩ := List.getElem?_eq_some_iff.mp listed
      rw [List.getElem_range] at found
      exact found.symm
    have cues := (ready.nexts k).cues_next
    rw [nexts_customPlaylist, Nat.mod_add_mod] at cues
    rw [place, show k + (i + 1) = i + k + 1 by omega]
    exact cues
  unchanged := customPlaylist_presses p

theorem Advances.ready (advances : Advances p i) : Ready p i := by
  have bound := advances.bound
  obtain ⟨song, _, moved, cued⟩ := advances.next none
  have mode : p.playMode = .playlist := by
    by_contra other
    have still : perform { p with cued := none } .next = ({ p with cued := none }, none) := by
      simp [perform, Player.playNextTrack, other]
    rw [after, still] at cued
    cases cued
  refine ⟨mode, bound, advances.current.imp id fun text => ⟨text, ?_⟩⟩
  by_contra more
  have ne : p.customPlaylist ≠ [] := List.ne_nil_of_length_pos (Nat.zero_lt_of_lt bound)
  rw [Nat.mod_eq_of_lt (by omega), after, perform,
    playNextTrack_currentTrack (p := { p with cued := none }) mode ne] at moved
  exact not_names_advanced (p := { p with cued := none }) text moved

end Round

/-- In every state: next and previous go round the playlist from the current entry exactly
if the player is in playlist mode and the cursor is a number in range, or the string
of the last place. -/
theorem advances_iff (p : Player) : (∃ i, Advances p i) ↔ ∃ i, Ready p i := by
  constructor
  · rintro ⟨i, advances⟩
    exact ⟨i, advances.ready⟩
  · rintro ⟨i, ready⟩
    exact ⟨i, ready.advances⟩

/-- A double-click on the first of two rows, and then next. -/
theorem not_advances : ¬ ∃ i, Advances
    ([.add ⟨"x", "X", []⟩, .add ⟨"y", "Y", []⟩, .doubleClick 0].foldl after .initial) i := by
  rintro ⟨i, advances⟩
  rcases advances.ready.cursor with number | ⟨text, last⟩
  · cases number
  · have first : i = 0 := (Numeral.ofNat_injective (Cursor.str.inj text)).symm
    rw [first] at last
    cases last

end Phonograph.Client.Playlist
