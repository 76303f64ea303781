import Mathlib
import Phonograph.Client.PlaylistCursor

/-! # Removing and dragging rows

A removal compares the number of its row with the cursor, as strings when a
double-click has set the cursor; a drag looks for the current track by its video id
and stops at the last row that has it.  Both can leave another entry current. -/

set_option autoImplicit false

namespace Phonograph.Client.Playlist

open Phonograph.Lib Phonograph.Client.Js

/-! ## Removing a row -/

def shifted (index i : ℕ) : ℕ := if index < i then i - 1 else i

/-- The row's entry goes and the others keep their order.  Another entry that was current
stays current; after the current one its follower, or the first entry, is current and
cued; after the only one nothing is left. -/
structure RemovesRow (p : Player) (index : ℕ) : Prop where
  erased : (after p (.remove index)).customPlaylist = p.customPlaylist.eraseIdx index
  kept : ∀ i < p.customPlaylist.length, Names p.currentTrack i → i ≠ index →
    Names (after p (.remove index)).currentTrack (shifted index i)
  follower : Names p.currentTrack index → 1 < p.customPlaylist.length → ∀ before, ∃ song,
    p.customPlaylist[(index + 1) % p.customPlaylist.length]? = some song ∧
    Names (after { p with cued := before } (.remove index)).currentTrack
      (shifted index ((index + 1) % p.customPlaylist.length)) ∧
    (after { p with cued := before } (.remove index)).cued = some (some song.youtubeId)
  only : p.customPlaylist.length = 1 →
    (after p (.remove index)).customPlaylist = [] ∧ (after p (.remove index)).currentTrack = .null

/-- A cursor left as a string is ordered against the row as the two numbers are, and the
current entry is removed in playlist mode. -/
structure RowSafe (p : Player) (index : ℕ) : Prop where
  ordered : ∀ i < p.customPlaylist.length, p.currentTrack = .str (.ofNat i) → i ≠ index →
    (Numeral.ofNat index).lt (.ofNat i) = decide (index < i)
  mode : Names p.currentTrack index → 1 < p.customPlaylist.length → p.playMode = .playlist

section Removal
variable {p : Player} {index i : ℕ}

/-- The cursor after the removal of a row that is not the current one. -/
theorem currentTrack_remove_other (row : index < p.customPlaylist.length)
    (bound : i < p.customPlaylist.length) (names : Names p.currentTrack i) (other : i ≠ index) :
    (after p (.remove index)).currentTrack =
      if p.currentTrack.above (.ofNat index) then .num (i - 1) else p.currentTrack := by
  have several : ¬ (index = 0 ∧ p.customPlaylist.length = 1) := by omega
  have elsewhere : p.currentTrack.matchesIndex (.ofNat index) = false := by
    rw [matchesIndex_names names, decide_eq_false_iff_not]
    exact other.symm
  simp only [after, perform, row, if_true, Player.removeFromPlaylist, several, if_false, elsewhere,
    Bool.false_eq_true]
  split_ifs
  · rw [Cursor.minusOne, number_of_names names]
  · rfl

/-- The cursor moves to the place of the same entry if it is compared as a number is. -/
theorem names_shifted (names : Names p.currentTrack i)
    (numeric : p.currentTrack.above (.ofNat index) = decide (index < i)) :
    Names (if p.currentTrack.above (.ofNat index) then .num (i - 1) else p.currentTrack)
      (shifted index i) := by
  rw [numeric, shifted]
  by_cases above : index < i
  · simp only [above, decide_true, if_true]
    left
    congr 1
    omega
  · simp only [above, decide_false, if_false, Bool.false_eq_true]
    exact names

theorem above_of_names_shifted (cursor : p.currentTrack = .str (.ofNat i))
    (moved : Names (if p.currentTrack.above (.ofNat index) then .num (i - 1) else p.currentTrack)
      (shifted index i)) : (Numeral.ofNat index).lt (.ofNat i) = decide (index < i) := by
  have same : p.currentTrack.above (.ofNat index) = (Numeral.ofNat index).lt (.ofNat i) := by
    rw [cursor]
    rfl
  rw [same] at moved
  cases less : (Numeral.ofNat index).lt (.ofNat i) with
  | true =>
      simp only [less, if_true] at moved
      have positive : i ≠ 0 := by
        intro zero
        rw [zero, Numeral.not_lt_zero] at less
        cases less
      have place : (i : ℤ) - 1 = (shifted index i : ℕ) := by
        rcases moved with number | text
        · exact Cursor.num.inj number
        · cases text
      symm
      rw [decide_eq_true_eq]
      by_contra below
      rw [shifted, if_neg below] at place
      omega
  | false =>
      simp only [less, Bool.false_eq_true, if_false, cursor] at moved
      have place : i = shifted index i := by
        rcases moved with number | text
        · cases number
        · exact Numeral.ofNat_injective (Cursor.str.inj text)
      symm
      rw [decide_eq_false_iff_not]
      intro above
      rw [shifted, if_pos above] at place
      omega

theorem perform_remove_current (row : index < p.customPlaylist.length)
    (more : 1 < p.customPlaylist.length) (names : Names p.currentTrack index) :
    perform p (.remove index) = Player.playNextTrack
      { p with customPlaylist := p.customPlaylist.eraseIdx index, currentTrack := .num (index - 1) } := by
  have several : ¬ (index = 0 ∧ p.customPlaylist.length = 1) := by omega
  have here : p.currentTrack.matchesIndex (.ofNat index) = true := by
    rw [matchesIndex_names names, decide_eq_true_eq]
  simp only [perform, row, if_true, Player.removeFromPlaylist, several, if_false, here,
    Cursor.minusOne, number_of_names names]

theorem getElem?_shifted (row : index < p.customPlaylist.length)
    (more : 1 < p.customPlaylist.length) :
    (p.customPlaylist.eraseIdx index)[shifted index ((index + 1) % p.customPlaylist.length)]? =
      p.customPlaylist[(index + 1) % p.customPlaylist.length]? := by
  by_cases last : index + 1 < p.customPlaylist.length
  · rw [Nat.mod_eq_of_lt last, shifted, if_pos (by omega), List.getElem?_eraseIdx_of_ge (by omega)]
    congr 1
  · obtain whole : index + 1 = p.customPlaylist.length := by omega
    rw [whole, Nat.mod_self, shifted, if_neg (by omega), List.getElem?_eraseIdx_of_lt (by omega)]

theorem after_remove_current (row : index < p.customPlaylist.length)
    (more : 1 < p.customPlaylist.length) (names : Names p.currentTrack index)
    (mode : p.playMode = .playlist) {song : Song}
    (next : p.customPlaylist[(index + 1) % p.customPlaylist.length]? = some song) :
    after p (.remove index) = { p with
      customPlaylist := p.customPlaylist.eraseIdx index
      currentTrack := .num (shifted index ((index + 1) % p.customPlaylist.length) : ℕ)
      cued := some (some song.youtubeId) } := by
  have shorter : (p.customPlaylist.eraseIdx index).length = p.customPlaylist.length - 1 :=
    List.length_eraseIdx_of_lt row
  have left : p.customPlaylist.eraseIdx index ≠ [] :=
    List.ne_nil_of_length_pos (by rw [shorter]; omega)
  have moved : Player.advanced { p with
      customPlaylist := p.customPlaylist.eraseIdx index, currentTrack := .num (index - 1) } =
      .num (shifted index ((index + 1) % p.customPlaylist.length) : ℕ) := by
    simp only [Player.advanced, Cursor.plusOne, Cursor.number, shorter]
    by_cases last : index + 1 < p.customPlaylist.length
    · rw [if_pos (by omega), Nat.mod_eq_of_lt last, shifted, if_pos (by omega)]
      congr 1
      omega
    · obtain whole : index + 1 = p.customPlaylist.length := by omega
      rw [if_neg (by omega), whole, Nat.mod_self, shifted, if_neg (by omega)]
      rfl
  have found := (getElem?_shifted row more).trans next
  have played := Player.playNextTrack_eq (p := { p with
    customPlaylist := p.customPlaylist.eraseIdx index, currentTrack := .num (index - 1) }) mode left
  rw [after, perform_remove_current row more names, played, moved,
    Player.moveTo_names (Or.inl rfl) found]

theorem RowSafe.removes (row : index < p.customPlaylist.length) (safe : RowSafe p index) :
    RemovesRow p index where
  erased := Player.customPlaylist_remove row
  kept i bound names other := by
    rw [currentTrack_remove_other row bound names other]
    apply names_shifted names
    rcases names with number | text
    · rw [number]
      simp only [Cursor.above, Numeral.value_ofNat, Int.ofNat_lt]
    · have numeric := safe.ordered i bound text other
      rw [text]
      exact numeric
  follower names more before := by
    have inside : (index + 1) % p.customPlaylist.length < p.customPlaylist.length :=
      Nat.mod_lt _ (by omega)
    refine ⟨_, List.getElem?_eq_getElem inside, ?_⟩
    rw [after_remove_current (p := { p with cued := before }) row more names (safe.mode names more)
      (List.getElem?_eq_getElem inside)]
    exact ⟨Or.inl rfl, rfl⟩
  only one := by
    have first : index = 0 := by omega
    simp [after, perform, Player.removeFromPlaylist, one, first]

theorem RemovesRow.safe (row : index < p.customPlaylist.length) (removes : RemovesRow p index) :
    RowSafe p index where
  ordered i bound cursor other := by
    have moved := removes.kept i bound (Or.inr cursor) other
    rw [currentTrack_remove_other row bound (Or.inr cursor) other] at moved
    exact above_of_names_shifted cursor moved
  mode names more := by
    by_contra unset
    obtain ⟨song, _, _, cued⟩ := removes.follower names more none
    rw [after, perform_remove_current (p := { p with cued := none }) row more names] at cued
    simp [Player.playNextTrack, unset] at cued

end Removal

/-- In every state and for every row: a removal takes the right entry out and leaves the
right one current exactly if a string cursor compares with the row as their numbers
do, and the current entry is not removed before the mode is set. -/
theorem removesRow_iff (p : Player) (index : ℕ) (row : index < p.customPlaylist.length) :
    RemovesRow p index ↔ RowSafe p index :=
  ⟨RemovesRow.safe row, RowSafe.removes row⟩

theorem removesRow_first : RemovesRow
    ([.add ⟨"x", "X", []⟩, .add ⟨"y", "Y", []⟩].foldl after .initial) 0 := by
  apply (removesRow_iff _ 0 (by decide)).mpr
  constructor
  · intro i _ cursor
    cases cursor
  · intro _ _
    rfl

/-- Eleven tracks, a double-click on row 2, and the last row, number 10, is removed:
`"10" < "2"` moves the cursor to the entry before. -/
theorem not_removesRow : ¬ RemovesRow
    ((List.replicate 11 (Op.add ⟨"x", "X", []⟩) ++ [Op.doubleClick 2]).foldl after .initial) 10 := by
  intro removes
  have ordered := (removes.safe (by decide)).ordered 2 (by decide) rfl (by decide)
  revert ordered
  decide

/-! ## Dragging rows -/

/-- The playlist is the old one in the order of the rows, and the entry that was current is
current at its new place. -/
structure DragsRows (p : Player) (order : List ℕ) (i : ℕ) : Prop where
  perm : (after p (.drag order)).customPlaylist.Perm p.customPlaylist
  placed : ∀ place : ℕ, (after p (.drag order)).customPlaylist[place]? =
    order[place]?.bind fun old => p.customPlaylist[old]?
  current : Names (after p (.drag order)).currentTrack (order.idxOf i)

def LastOfItsVideo (p : Player) (order : List ℕ) (i : ℕ) : Prop :=
  ∀ place > order.idxOf i, ∀ old song current, order[place]? = some old →
    p.customPlaylist[old]? = some song → p.customPlaylist[i]? = some current →
    song.youtubeId ≠ current.youtubeId

section Drag
variable {p : Player} {order : List ℕ} {i : ℕ}

theorem getElem?_reorderSongs {songs : List Song} (inside : ∀ old ∈ order, old < songs.length)
    (place : ℕ) : (Player.reorderSongs order songs)[place]? =
      order[place]?.bind fun old => songs[old]? := by
  unfold Player.reorderSongs
  induction order generalizing place with
  | nil => rfl
  | cons old order ih =>
      obtain ⟨here, later⟩ := List.forall_mem_cons.mp inside
      rw [List.filterMap_cons_some (List.getElem?_eq_getElem here)]
      cases place with
      | zero => simp [here]
      | succ place => exact ih later place

variable (perm : order.Perm (List.range p.customPlaylist.length))
  (bound : i < p.customPlaylist.length) (names : Names p.currentTrack i)
include perm bound

theorem getElem?_idxOf : order[order.idxOf i]? = some i :=
  List.getElem?_idxOf (perm.mem_iff.mpr (List.mem_range.mpr bound))

omit bound in
theorem getElem?_dragged (place : ℕ) :
    (Player.reorderSongs order p.customPlaylist)[place]? =
      order[place]?.bind fun old => p.customPlaylist[old]? :=
  getElem?_reorderSongs (fun _ member => List.mem_range.mp (perm.mem_iff.mp member)) place

include names

theorem after_drag : after p (.drag order) = { p with
    customPlaylist := Player.reorderSongs order p.customPlaylist
    currentTrack := Player.reorderCursor p.customPlaylist[i].youtubeId
      (Player.reorderSongs order p.customPlaylist) p.currentTrack } := by
  have ne : p.customPlaylist ≠ [] := List.ne_nil_of_length_pos (Nat.zero_lt_of_lt bound)
  simp only [after, perform, ne, perm, ne_eq, not_false_eq_true, and_self, if_true, Player.reorder,
    entry_of_names _ names, List.getElem?_eq_getElem bound]

theorem dragsRows_of_last (final : LastOfItsVideo p order i) : DragsRows p order i := by
  have dragged := after_drag perm bound names
  have home : (Player.reorderSongs order p.customPlaylist)[order.idxOf i]? =
      some p.customPlaylist[i] := by
    rw [getElem?_dragged perm, getElem?_idxOf perm bound, Option.bind_some,
      List.getElem?_eq_getElem bound]
  obtain ⟨place, song, cursor, found, same, behind⟩ := reorderCursor_spec
    p.customPlaylist[i].youtubeId p.currentTrack (Player.reorderSongs order p.customPlaylist)
    ⟨p.customPlaylist[i], List.mem_of_getElem? home, rfl⟩
  have least : ¬ order.idxOf i > place := fun more => behind _ more _ home rfl
  have most : ¬ place > order.idxOf i := by
    intro more
    rw [getElem?_dragged perm] at found
    obtain ⟨old, listed, found⟩ := Option.bind_eq_some_iff.mp found
    exact final place more old song _ listed found (List.getElem?_eq_getElem bound) same
  obtain rfl : place = order.idxOf i := by omega
  constructor
  · rw [dragged]
    exact reorderSongs_perm perm
  · intro place
    rw [dragged]
    exact getElem?_dragged perm place
  · rw [dragged]
    exact Or.inl cursor

theorem DragsRows.last (drags : DragsRows p order i) : LastOfItsVideo p order i := by
  intro place more old song current listed found here
  obtain rfl : p.customPlaylist[i] = current :=
    Option.some.inj ((List.getElem?_eq_getElem bound).symm.trans here)
  have moved := drags.current
  rw [after_drag perm bound names] at moved
  have there : (Player.reorderSongs order p.customPlaylist)[place]? = some song := by
    rw [getElem?_dragged perm, listed, Option.bind_some, found]
  have home : p.customPlaylist[i] ∈ Player.reorderSongs order p.customPlaylist :=
    (reorderSongs_perm perm).mem_iff.mpr (List.getElem_mem bound)
  obtain ⟨final, _, cursor, _, _, behind⟩ := reorderCursor_spec
    p.customPlaylist[i].youtubeId p.currentTrack (Player.reorderSongs order p.customPlaylist)
    ⟨_, home, rfl⟩
  have same : final = order.idxOf i := by
    rcases moved with number | text
    · exact Int.natCast_inj.mp (Cursor.num.inj (cursor.symm.trans number))
    · rw [cursor] at text
      cases text
  exact behind place (same ▸ more) song there

end Drag

/-- For every playlist, current entry and order of the rows: a drag reorders the playlist and
keeps the current entry current exactly if no row below it then has the same video. -/
theorem dragsRows_iff (p : Player) (order : List ℕ) (i : ℕ)
    (perm : order.Perm (List.range p.customPlaylist.length)) (bound : i < p.customPlaylist.length)
    (names : Names p.currentTrack i) : DragsRows p order i ↔ LastOfItsVideo p order i :=
  ⟨DragsRows.last perm bound names, dragsRows_of_last perm bound names⟩

theorem dragsRows_swap : DragsRows
    ([.add ⟨"x", "X", []⟩, .add ⟨"y", "Y", []⟩].foldl after .initial) [1, 0] 0 := by
  apply (dragsRows_iff _ [1, 0] 0 (by decide) (by decide) (Or.inl rfl)).mpr
  intro place below old song current listed
  match place, below with
  | place + 2, _ => cases listed

/-- The same video stands twice; its first entry is current and is dragged below the track
between the two.  The cursor goes to the other one. -/
theorem not_dragsRows : ¬ DragsRows
    ([.add ⟨"x", "X", []⟩, .add ⟨"y", "Y", []⟩, .add ⟨"x", "X", []⟩].foldl after .initial)
    [1, 0, 2] 0 := by
  intro drags
  rcases drags.current with number | text
  · revert number
    decide
  · cases text

end Phonograph.Client.Playlist
