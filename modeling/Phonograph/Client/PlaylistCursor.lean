import Phonograph.Client.Playlist

/-! # The cursor of the playlist

The cursor is `null` exactly on the empty playlist and names an entry otherwise,
as long as three operations stay away from the states that break it: the next
track after a double-click on the first row (`"0" + 1` is `"01"`), the previous
button on the empty playlist, and a removal that compares two row numbers as
strings. -/

set_option autoImplicit false

namespace Phonograph.Client.Playlist

open Phonograph.Lib Phonograph.Client.Js

/-- `null` on the empty playlist, and otherwise a cursor that names a track. -/
def Good (p : Player) : Prop :=
  (p.currentTrack = .null ↔ p.customPlaylist = []) ∧
    (p.customPlaylist ≠ [] → (entry p.customPlaylist p.currentTrack).isSome)

instance (p : Player) : Decidable (Good p) := inferInstanceAs (Decidable (_ ∧ (_ → _)))

def Safe (p : Player) : Op → Prop
  | .playNow _ => p.currentTrack ≠ .str (.ofNat 0)
  | .next => ¬ (p.currentTrack = .str (.ofNat 0) ∧ 2 ≤ p.customPlaylist.length)
  | .previous => p.customPlaylist ≠ []
  | .remove index => ¬ (p.currentTrack = .str (.ofNat (p.customPlaylist.length - 1)) ∧
      index < p.customPlaylist.length - 1 ∧
      (Numeral.ofNat index).lt (.ofNat (p.customPlaylist.length - 1)) = false)
  | _ => True

def Valid (p : Player) : Prop :=
  (p.currentTrack = .null ∧ p.customPlaylist = []) ∨
    (p.playMode = .playlist ∧ ∃ i < p.customPlaylist.length, Names p.currentTrack i)

def Fine (outcome : Outcome) : Prop := Valid outcome.1 ∧ outcome.2 = none

/-- A good cursor after the step, and no entry read that is absent. -/
def StepGood (p : Player) (op : Op) : Prop := Good (after p op) ∧ (perform p op).2 = none

instance (p : Player) (op : Op) : Decidable (StepGood p op) := inferInstanceAs (Decidable (_ ∧ _))

theorem ne_null_of_names {c : Cursor} {i : ℕ} (names : Names c i) : c ≠ .null := by
  rcases names with rfl | rfl <;> simp

theorem Valid.good {p : Player} (valid : Valid p) : Good p := by
  rcases valid with ⟨null, empty⟩ | ⟨_, i, bound, names⟩
  · simp [Good, null, empty]
  · have ne : p.customPlaylist ≠ [] := List.ne_nil_of_length_pos (Nat.zero_lt_of_lt bound)
    simp [Good, ne_null_of_names names, ne, entry_of_names _ names, bound]

section Steps
variable {p : Player}

theorem fine_moveTo {c : Cursor} {i : ℕ} (mode : p.playMode = .playlist)
    (bound : i < p.customPlaylist.length) (names : Names c i) : Fine (p.moveTo c) := by
  rw [Player.moveTo_names names (List.getElem?_eq_getElem bound)]
  exact ⟨Or.inr ⟨mode, i, bound, names⟩, rfl⟩

theorem fine_next_num (mode : p.playMode = .playlist) (ne : p.customPlaylist ≠ []) {n : ℤ}
    (low : -1 ≤ n) (cursor : p.currentTrack = .num n) : Fine p.playNextTrack := by
  rw [Player.playNextTrack_eq mode ne]
  obtain ⟨i, bound, moved⟩ := Player.advanced_num low ne cursor
  exact fine_moveTo mode bound (Or.inl moved)

theorem fine_next_str (mode : p.playMode = .playlist) (ne : p.customPlaylist ≠ []) {i : ℕ}
    (cursor : p.currentTrack = .str (.ofNat i)) (apart : i ≠ 0 ∨ p.customPlaylist.length < 2) :
    Fine p.playNextTrack := by
  rw [Player.playNextTrack_eq mode ne]
  have pos := List.length_pos_of_ne_nil ne
  by_cases inside : 10 * i + 1 < p.customPlaylist.length
  · apply fine_moveTo mode inside
    have some : 0 < i := by omega
    right
    simp only [Player.advanced, cursor, Cursor.plusOne, Numeral.plusOne_ofNat some, Cursor.number,
      Numeral.value_ofNat]
    rw [if_pos (by omega)]
  · apply fine_moveTo mode pos
    left
    simp only [Player.advanced, cursor, Cursor.plusOne, Cursor.number, Numeral.value_plusOne,
      Numeral.value_ofNat]
    rw [if_neg (by omega)]
    rfl

/-- After a double-click on the first row the next track is looked up under `"01"`. -/
theorem next_throws (mode : p.playMode = .playlist) (more : 2 ≤ p.customPlaylist.length)
    (cursor : p.currentTrack = .str (.ofNat 0)) : p.playNextTrack.2 = some .typeError := by
  have ne : p.customPlaylist ≠ [] := List.ne_nil_of_length_pos (by omega)
  have moved : p.advanced = .str (Numeral.ofNat 0).plusOne := by
    simp only [Player.advanced, cursor, Cursor.plusOne, Cursor.number, Numeral.value_plusOne,
      Numeral.value_ofNat]
    rw [if_pos (by omega)]
  have absent : entry p.customPlaylist (.str (Numeral.ofNat 0).plusOne) = none := by
    simp [entry, Numeral.plusOne_zero]
  rw [Player.playNextTrack_eq mode ne, moved, Player.moveTo, absent]

theorem length_spliceAfter (track : Song) {i : ℕ} (names : Names p.currentTrack i) :
    (({ p with playMode := .playlist } : Player).spliceAfter track).customPlaylist.length =
      p.customPlaylist.length + 1 := by
  apply length_spliceIn
  rcases names with cursor | cursor
  · simp only [cursor, Cursor.plusOne, Cursor.number]
    omega
  · simp only [cursor, Cursor.plusOne, Cursor.number]
    omega

theorem fine_playNow (track : Song) (valid : Valid p) (apart : p.currentTrack ≠ .str (.ofNat 0)) :
    Fine (p.playNow track) := by
  rcases valid with ⟨null, empty⟩ | ⟨_, i, bound, names⟩
  · simp only [Player.playNow, Player.playNext, null, empty, if_true]
    exact fine_next_num rfl (by simp) (by decide : (-1 : ℤ) ≤ 0) rfl
  · simp only [Player.playNow, Player.playNext, ne_null_of_names names, if_false]
    have ne := List.ne_nil_of_length_pos (Nat.lt_of_lt_of_eq (Nat.succ_pos _)
      (length_spliceAfter track names).symm)
    rcases names with cursor | cursor
    · exact fine_next_num rfl ne (by omega : (-1 : ℤ) ≤ i) cursor
    · apply fine_next_str rfl ne cursor (Or.inl ?_)
      rintro rfl
      exact apart cursor

theorem playNow_throws (track : Song) (valid : Valid p)
    (cursor : p.currentTrack = .str (.ofNat 0)) :
    (p.playNow track).2 = some .typeError := by
  have named : p.currentTrack ≠ .null := by simp [cursor]
  obtain ⟨_, i, bound, names⟩ := valid.resolve_left fun h => named h.1
  simp only [Player.playNow, Player.playNext, named, if_false]
  refine next_throws rfl (le_of_le_of_eq ?_ (length_spliceAfter track names).symm) cursor
  omega

theorem fine_playNext (track : Song) (valid : Valid p) : Fine (p.playNextFromDropdown track) := by
  rcases valid with ⟨null, empty⟩ | ⟨_, i, bound, names⟩
  · simp only [Player.playNextFromDropdown, null, empty, if_true]
    exact ⟨Or.inr ⟨rfl, 0, by simp, Or.inl rfl⟩, rfl⟩
  · simp only [Player.playNextFromDropdown, ne_null_of_names names, if_false]
    refine ⟨Or.inr ⟨rfl, i, Nat.lt_of_lt_of_eq ?_ (length_spliceAfter track names).symm, names⟩, rfl⟩
    omega

theorem fine_add (track : Song) (valid : Valid p) : Fine (p.addTrackToPlaylist track) := by
  by_cases null : p.currentTrack = .null
  · simp only [Player.addTrackToPlaylist, null, if_true]
    exact fine_playNext track valid
  · obtain ⟨mode, i, bound, names⟩ := valid.resolve_left fun h => null h.1
    simp only [Player.addTrackToPlaylist, null, if_false]
    exact ⟨Or.inr ⟨mode, i, by simp; omega, names⟩, rfl⟩

theorem fine_previous (valid : Valid p) (ne : p.customPlaylist ≠ []) :
    Fine p.playPreviousTrack := by
  obtain ⟨mode, i, bound, names⟩ := valid.resolve_left fun h => ne h.2
  obtain ⟨j, inside, moved⟩ := Player.previous_names names bound
  rw [moved]
  exact fine_moveTo mode inside (Or.inl rfl)

theorem previous_throws (valid : Valid p) (empty : p.customPlaylist = []) :
    p.playPreviousTrack.2 = some .typeError := by
  rcases valid with ⟨null, _⟩ | ⟨_, i, bound, _⟩
  · simp [Player.playPreviousTrack, null, empty, Cursor.number, Player.moveTo, entry]
  · simp [empty] at bound

theorem fine_doubleClick {index : ℕ} (bound : index < p.customPlaylist.length) :
    Fine (p.doubleClick index) := by
  have names : Names (.str (.ofNat index)) index := Or.inr rfl
  simp only [Player.doubleClick, entry_of_names _ names, List.getElem?_eq_getElem bound]
  exact ⟨Or.inr ⟨rfl, index, bound, names⟩, rfl⟩

theorem fine_drag {order : List ℕ} (valid : Valid p) (ne : p.customPlaylist ≠ [])
    (perm : order.Perm (List.range p.customPlaylist.length)) : Fine (p.reorder order) := by
  obtain ⟨mode, i, bound, names⟩ := valid.resolve_left fun h => ne h.2
  have songs := reorderSongs_perm perm
  obtain ⟨j, song, cursor, place, _⟩ := reorderCursor_spec p.customPlaylist[i].youtubeId
    p.currentTrack (Player.reorderSongs order p.customPlaylist)
    ⟨p.customPlaylist[i], songs.mem_iff.mpr (List.getElem_mem bound), rfl⟩
  simp only [Player.reorder, entry_of_names _ names, List.getElem?_eq_getElem bound, cursor]
  exact ⟨Or.inr ⟨mode, j, (List.getElem?_eq_some_iff.mp place).1, Or.inl rfl⟩, rfl⟩

theorem matchesIndex_names {c : Cursor} {i : ℕ} (names : Names c i) (index : ℕ) :
    c.matchesIndex (.ofNat index) = decide (index = i) := by
  rcases names with rfl | rfl
  · simp only [Cursor.matchesIndex, Numeral.value_ofNat, Int.natCast_inj]
  · by_cases same : index = i
    · simp [Cursor.matchesIndex, same]
    · simp [Cursor.matchesIndex, same, mt Numeral.ofNat_injective same]

theorem number_of_names {c : Cursor} {i : ℕ} (names : Names c i) : c.number = i := by
  rcases names with rfl | rfl <;> simp [Cursor.number]

theorem above_names {c : Cursor} {i index n : ℕ} (names : Names c i) (other : index ≠ i)
    (bound : i < n) (row : index < n)
    (safe : ¬ (c = .str (.ofNat (n - 1)) ∧ index < n - 1 ∧
      (Numeral.ofNat index).lt (.ofNat (n - 1)) = false)) :
    (c.above (.ofNat index) = true → 0 < i) ∧ (c.above (.ofNat index) = false → i < n - 1) := by
  rcases names with rfl | rfl
  · simp only [Cursor.above, Numeral.value_ofNat, decide_eq_true_eq, decide_eq_false_iff_not]
    omega
  · simp only [Cursor.above]
    constructor
    · intro less
      rcases Nat.eq_zero_or_pos i with rfl | pos
      · rw [Numeral.not_lt_zero] at less
        cases less
      · exact pos
    · intro notLess
      by_contra last
      obtain rfl : i = n - 1 := by omega
      exact safe ⟨rfl, by omega, notLess⟩

theorem fine_remove {index : ℕ} (valid : Valid p) (row : index < p.customPlaylist.length)
    (safe : Safe p (.remove index)) : Fine (p.removeFromPlaylist index) := by
  have ne : p.customPlaylist ≠ [] := List.ne_nil_of_length_pos (by omega)
  obtain ⟨mode, i, bound, names⟩ := valid.resolve_left fun h => ne h.2
  by_cases only : index = 0 ∧ p.customPlaylist.length = 1
  · simp only [Player.removeFromPlaylist, only]
    exact ⟨Or.inl ⟨rfl, rfl⟩, rfl⟩
  have shorter : (p.customPlaylist.eraseIdx index).length = p.customPlaylist.length - 1 :=
    List.length_eraseIdx_of_lt row
  simp only [Player.removeFromPlaylist, only, if_false, matchesIndex_names names, decide_eq_true_eq]
  by_cases here : index = i
  · simp only [here, if_true]
    refine fine_next_num mode (List.ne_nil_of_length_pos ?_) (n := (i : ℤ) - 1) (by omega) ?_
    · show 0 < (p.customPlaylist.eraseIdx i).length
      rw [← here, shorter]
      omega
    · simp only [Cursor.minusOne, number_of_names names]
  · simp only [here, if_false]
    obtain ⟨pos, low⟩ := above_names names here bound row safe
    cases above : p.currentTrack.above (.ofNat index) with
    | true =>
        have some := pos above
        refine ⟨Or.inr ⟨mode, i - 1, ?_, Or.inl ?_⟩, rfl⟩
        · show i - 1 < (p.customPlaylist.eraseIdx index).length
          omega
        · simp only [if_true, Cursor.minusOne, number_of_names names]
          congr 1
          omega
    | false =>
        have less := low above
        exact ⟨Or.inr ⟨mode, i, lt_of_lt_of_eq less shorter.symm, names⟩, rfl⟩

/-- A row above the last, current one is removed, but its number is not the smaller string. -/
theorem remove_bad {index : ℕ} (broken : ¬ Safe p (.remove index)) :
    ¬ Good (p.removeFromPlaylist index).1 := by
  obtain ⟨cursor, less, notLess⟩ := not_not.mp broken
  have names : Names p.currentTrack (p.customPlaylist.length - 1) := Or.inr cursor
  have shorter : (p.customPlaylist.eraseIdx index).length = p.customPlaylist.length - 1 :=
    List.length_eraseIdx_of_lt (by omega)
  have several : ¬ (index = 0 ∧ p.customPlaylist.length = 1) := by omega
  have above : p.currentTrack.above (.ofNat index) = false := by
    rw [cursor]
    exact notLess
  simp only [Player.removeFromPlaylist, several, if_false, matchesIndex_names names, above,
    Nat.ne_of_lt less, decide_false, Bool.false_eq_true]
  rintro ⟨_, present⟩
  have some := present (List.ne_nil_of_length_pos (by show 0 < (p.customPlaylist.eraseIdx index).length; omega))
  rw [entry_of_names _ names] at some
  simp [shorter] at some

end Steps

/-! ## Whole runs -/

theorem fine_next {p : Player} (valid : Valid p) (safe : Safe p .next) : Fine p.playNextTrack := by
  rcases valid with ⟨null, empty⟩ | ⟨mode, i, bound, names⟩
  · have same : p.playNextTrack = (p, none) := by simp [Player.playNextTrack, empty]
    rw [same]
    exact ⟨Or.inl ⟨null, empty⟩, rfl⟩
  · have ne : p.customPlaylist ≠ [] := List.ne_nil_of_length_pos (Nat.zero_lt_of_lt bound)
    rcases names with cursor | cursor
    · exact fine_next_num mode ne (by omega : (-1 : ℤ) ≤ i) cursor
    · apply fine_next_str mode ne cursor
      by_contra both
      obtain ⟨zero, more⟩ := not_or.mp both
      obtain rfl : i = 0 := not_not.mp zero
      exact safe ⟨cursor, by omega⟩

theorem fine_of_safe {p : Player} (valid : Valid p) (op : Op) (safe : Safe p op) :
    Fine (perform p op) := by
  cases op with
  | playNow track => exact fine_playNow track valid safe
  | playNext track => exact fine_playNext track valid
  | add track => exact fine_add track valid
  | next => exact fine_next valid safe
  | previous => exact fine_previous valid safe
  | doubleClick index =>
      rw [perform]
      split
      · rename_i row; exact fine_doubleClick row
      · exact ⟨valid, rfl⟩
  | remove index =>
      rw [perform]
      split
      · rename_i row; exact fine_remove valid row safe
      · exact ⟨valid, rfl⟩
  | drag order =>
      rw [perform]
      split
      · rename_i rows; exact fine_drag valid rows.1 rows.2
      · exact ⟨valid, rfl⟩

theorem safe_of_stepGood {p : Player} (valid : Valid p) (op : Op) (good : StepGood p op) :
    Safe p op := by
  by_contra broken
  obtain ⟨cursor, quiet⟩ := good
  cases op with
  | playNow track =>
      have throws := playNow_throws track valid (not_not.mp broken)
      exact absurd (throws.symm.trans quiet) (by simp)
  | next =>
      obtain ⟨first, more⟩ := not_not.mp broken
      have ne : p.customPlaylist ≠ [] := List.ne_nil_of_length_pos (by omega)
      have mode := (valid.resolve_left fun h => ne h.2).1
      exact absurd ((next_throws mode more first).symm.trans quiet) (by simp)
  | previous =>
      have throws := previous_throws valid (not_not.mp broken)
      exact absurd (throws.symm.trans quiet) (by simp)
  | remove index =>
      have row : index < p.customPlaylist.length := by
        obtain ⟨_, less, _⟩ := not_not.mp broken
        omega
      apply remove_bad broken
      simpa only [after, perform, row, if_true] using cursor
  | playNext track => exact broken trivial
  | add track => exact broken trivial
  | doubleClick index => exact broken trivial
  | drag order => exact broken trivial

/-- Along every run the cursor is good and no absent entry is read, exactly when every
operation of the run is safe in the state it meets. -/
theorem cursor_good_iff (ops : List Op) :
    (Good .initial ∧ Along after StepGood .initial ops) ↔ Along after Safe .initial ops := by
  have start : Valid .initial := Or.inl ⟨rfl, rfl⟩
  have steps : Along after StepGood .initial ops ↔ Along after Safe .initial ops := along_iff Valid
    (fun p op valid => ⟨safe_of_stepGood valid op, fun safe =>
      ⟨(fine_of_safe valid op safe).1.good, (fine_of_safe valid op safe).2⟩⟩)
    (fun p op valid good => (fine_of_safe valid op (safe_of_stepGood valid op good)).1) ops .initial start
  rw [steps]
  exact and_iff_right start.good

def doubleClickFirst : List Op :=
  [.add ⟨"x", "X", []⟩, .add ⟨"y", "Y", []⟩, .doubleClick 0, .next]

theorem cursor_not_good : ¬ ∀ ops : List Op, Along after StepGood .initial ops := by
  intro always
  have run := always doubleClickFirst
  revert run
  decide +kernel

end Phonograph.Client.Playlist
