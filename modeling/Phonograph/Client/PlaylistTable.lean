import Mathlib
import Phonograph.Client.Playlist

/-! # The playlist on screen

The rows of `#playlistTable`.  bootstrap-table shows what `getPlaylist` gives it,
sorted by title from the first click on that header on, and numbers the rows as it
draws them; the handlers of `refreshPlaylist` take the number of a row for an index
of `gv.customPlaylist`.  `right_iff` says when the two are the same track. -/

set_option autoImplicit false

namespace Phonograph.Client.PlaylistTable

open Phonograph.Lib Phonograph.Client.Js Phonograph.Client.Playlist

inductive SortOrder where
  | asc
  | desc
  deriving DecidableEq

/-- `sort` with the comparison of `initSort`, which is no order for every list of titles.
Nothing is used of it but that it rearranges. -/
structure Sorter where
  sort : SortOrder → List Song → List Song
  perm : ∀ order data, (sort order data).Perm data

structure Row where
  dataIndex : ℕ
  song : Song
  deriving DecidableEq

/-- `data` are the rows that bootstrap-table has drawn, and `rows` those on screen, which
a drag can leave in another order.  Rows are `live` once `refreshPlaylist` has bound
its handlers to them. -/
structure Table where
  player : Player
  sortOrder : Option SortOrder
  data : List Song
  rows : List Row
  live : Bool
  deriving DecidableEq

def Table.initial : Table := ⟨.initial, none, [], [], false⟩

def drawn (data : List Song) : List Row := data.zipIdx.map fun entry => ⟨entry.2, entry.1⟩

variable (sorter : Sorter)

def initSort (sortOrder : Option SortOrder) (data : List Song) : List Song :=
  match sortOrder with
  | none => data
  | some order => sorter.sort order data

def refreshPlaylist (t : Table) : Table :=
  let data := initSort sorter t.sortOrder t.player.customPlaylist
  { t with data := data, rows := drawn data, live := true }

/-- A click on the header: it sorts what the table has, and draws rows without handlers. -/
def onSort (t : Table) : Table :=
  let order := if t.sortOrder = some .desc then .asc else .desc
  let data := initSort sorter (some order) t.data
  { t with sortOrder := some order, data := data, rows := drawn data, live := false }

def refreshes (p : Player) : Op → Bool
  | .next => p.playMode = .playlist
  | .drag _ => (entry p.customPlaylist p.currentTrack).isSome
  | _ => true

def operate (t : Table) (op : Op) : Table :=
  let next := { t with player := after t.player op }
  if refreshes t.player op then refreshPlaylist sorter next else next

inductive Act where
  | playNow (track : Song)
  | playNext (track : Song)
  | add (track : Song)
  | next
  | previous
  | sort
  | doubleClick (place : ℕ)
  | remove (place : ℕ)
  | drag (order : List ℕ)
  deriving DecidableEq

def Moves (t : Table) (order : List ℕ) : Prop :=
  order.Perm (List.range t.rows.length) ∧ order ≠ List.range t.rows.length

instance (t : Table) (order : List ℕ) : Decidable (Moves t order) :=
  inferInstanceAs (Decidable (_ ∧ _))

def moved (t : Table) (order : List ℕ) : List Row := order.filterMap fun place => t.rows[place]?

def act (t : Table) : Act → Table
  | .playNow track => operate sorter t (.playNow track)
  | .playNext track => operate sorter t (.playNext track)
  | .add track => operate sorter t (.add track)
  | .next => operate sorter t .next
  | .previous => operate sorter t .previous
  | .sort => onSort sorter t
  | .doubleClick place =>
      match t.rows[place]? with
      | none => t
      | some row => if t.live then operate sorter t (.doubleClick row.dataIndex) else t
  | .remove place =>
      match t.rows[place]? with
      | none => t
      | some row =>
          -- Without a handler the button submits the form around the table, and the
          -- page is loaded anew.
          if t.live then operate sorter t (.remove row.dataIndex) else .initial
  | .drag order =>
      if Moves t order then
        operate sorter { t with rows := moved t order } (.drag ((moved t order).map Row.dataIndex))
      else t

/-- The act does to the playlist what the screen shows. -/
def Right (t : Table) : Act → Prop
  | .remove place => ∀ row, t.rows[place]? = some row →
      ∃ i, t.player.customPlaylist[i]? = some row.song ∧
        (act sorter t (.remove place)).player.customPlaylist = t.player.customPlaylist.eraseIdx i
  | .doubleClick place => ∀ row, t.rows[place]? = some row →
      entry (act sorter t (.doubleClick place)).player.customPlaylist
        (act sorter t (.doubleClick place)).player.currentTrack = some row.song
  | .drag order => Moves t order →
      (act sorter t (.drag order)).player.customPlaylist = (moved t order).map Row.song
  | _ => True

def Placed (t : Table) (row : Row) : Prop :=
  t.player.customPlaylist[row.dataIndex]? = some row.song

/-- The rows that the act is about are placed.  Rows without handlers apart, and a drag
while the cursor names no track: these reload the page or leave the playlist alone. -/
def InPlace (t : Table) : Act → Prop
  | .remove place => ∀ row, t.rows[place]? = some row →
      if t.live then Placed t row else t.player.customPlaylist = [row.song]
  | .doubleClick place => ∀ row, t.rows[place]? = some row →
      if t.live then Placed t row
      else entry t.player.customPlaylist t.player.currentTrack = some row.song
  | .drag order => Moves t order →
      if (entry t.player.customPlaylist t.player.currentTrack).isSome then ∀ row ∈ t.rows, Placed t row
      else t.player.customPlaylist = (moved t order).map Row.song
  | _ => True

/-! ## What the operations do to the playlist -/

section
variable {p : Player}

theorem entry_doubleClick {index : ℕ} (bound : index < p.customPlaylist.length) :
    entry (after p (.doubleClick index)).customPlaylist (after p (.doubleClick index)).currentTrack =
      p.customPlaylist[index]? := by
  have named : entry p.customPlaylist (.str (.ofNat index)) = p.customPlaylist[index]? :=
    entry_of_names p.customPlaylist (Or.inr rfl)
  rw [after, perform, if_pos bound, Player.doubleClick]
  split
  · exact named
  · exact named

theorem customPlaylist_drag {order : List ℕ} (ne : p.customPlaylist ≠ [])
    (perm : order.Perm (List.range p.customPlaylist.length)) :
    (after p (.drag order)).customPlaylist =
      if (entry p.customPlaylist p.currentTrack).isSome then
        Player.reorderSongs order p.customPlaylist
      else p.customPlaylist := by
  rw [after, perform, if_pos ⟨ne, perm⟩, Player.reorder]
  cases found : entry p.customPlaylist p.currentTrack with
  | none => rfl
  | some current => rfl

theorem customPlaylist_of_not_refreshes {op : Op} (still : refreshes p op = false) :
    (after p op).customPlaylist = p.customPlaylist := by
  cases op with
  | next => exact Player.customPlaylist_playNextTrack
  | drag order =>
      have none : entry p.customPlaylist p.currentTrack = none := by simpa [refreshes] using still
      rw [after, perform]
      split_ifs
      · rw [Player.reorder, none]
      · rfl
  | _ => cases still

end

/-! ## What is on screen -/

/-- The rows on screen are the ones drawn, and those are of the tracks of the playlist. -/
structure Drawn (t : Table) : Prop where
  rows : t.rows.Perm (drawn t.data)
  data : t.data.Perm t.player.customPlaylist
  unsorted : t.sortOrder = none → t.data = t.player.customPlaylist

theorem mem_drawn {data : List Song} {row : Row} :
    row ∈ drawn data ↔ data[row.dataIndex]? = some row.song := by
  constructor
  · intro member
    obtain ⟨entry, inside, rfl⟩ := List.mem_map.mp member
    exact List.mem_zipIdx_iff_getElem?.mp inside
  · intro found
    apply List.mem_map.mpr
    exact ⟨(row.song, row.dataIndex), List.mem_zipIdx_iff_getElem?.mpr found, rfl⟩

theorem map_dataIndex_drawn (data : List Song) :
    (drawn data).map Row.dataIndex = List.range data.length := by
  rw [drawn, List.map_map]
  exact (List.zipIdx_map_snd 0 data).trans (List.range_eq_range').symm

theorem length_drawn (data : List Song) : (drawn data).length = data.length := by
  rw [drawn, List.length_map, List.length_zipIdx]

section
variable {sorter} {t : Table}

theorem initSort_perm (sortOrder : Option SortOrder) (data : List Song) :
    (initSort sorter sortOrder data).Perm data := by
  cases sortOrder with
  | none => exact List.Perm.refl data
  | some order => exact sorter.perm order data

theorem drawn_refreshPlaylist (t : Table) : Drawn (refreshPlaylist sorter t) := by
  constructor
  · exact List.Perm.refl _
  · exact initSort_perm _ _
  · intro unsorted
    rw [refreshPlaylist] at unsorted ⊢
    simp only at unsorted ⊢
    rw [unsorted]
    rfl

theorem drawn_operate (shown : Drawn t) (op : Op) : Drawn (operate sorter t op) := by
  rw [operate]
  split_ifs with refreshed
  · exact drawn_refreshPlaylist _
  · have same := customPlaylist_of_not_refreshes (Bool.eq_false_of_not_eq_true refreshed)
    constructor
    · exact shown.rows
    · rw [same]
      exact shown.data
    · rw [same]
      exact shown.unsorted

theorem drawn_onSort (shown : Drawn t) : Drawn (onSort sorter t) := by
  constructor
  · exact List.Perm.refl _
  · exact (sorter.perm _ t.data).trans shown.data
  · intro unsorted
    cases unsorted

theorem moved_perm {order : List ℕ} (moves : Moves t order) : (moved t order).Perm t.rows :=
  filterMap_getElem_perm moves.1

theorem drawn_act (shown : Drawn t) (a : Act) : Drawn (act sorter t a) := by
  cases a with
  | playNow track => exact drawn_operate shown (.playNow track)
  | playNext track => exact drawn_operate shown (.playNext track)
  | add track => exact drawn_operate shown (.add track)
  | next => exact drawn_operate shown .next
  | previous => exact drawn_operate shown .previous
  | sort => exact drawn_onSort shown
  | doubleClick place =>
      rw [act]
      split
      · exact shown
      · split_ifs
        · exact drawn_operate shown _
        · exact shown
  | remove place =>
      rw [act]
      split
      · exact shown
      · split_ifs
        · exact drawn_operate shown _
        · exact ⟨List.Perm.refl _, List.Perm.refl _, fun _ => rfl⟩
  | drag order =>
      rw [act]
      split_ifs with moves
      · apply drawn_operate
        exact ⟨(moved_perm moves).trans shown.rows, shown.data, shown.unsorted⟩
      · exact shown

theorem drawn_initial : Drawn .initial :=
  ⟨List.Perm.refl _, List.Perm.refl _, fun _ => rfl⟩

theorem dataIndex_lt (shown : Drawn t) {row : Row} (member : row ∈ t.rows) :
    row.dataIndex < t.player.customPlaylist.length := by
  have found := mem_drawn.mp (shown.rows.mem_iff.mp member)
  rw [← shown.data.length_eq]
  exact (List.getElem?_eq_some_iff.mp found).1

/-- Every row of a table that has not been sorted is placed. -/
theorem placed_of_unsorted (shown : Drawn t) (unsorted : t.sortOrder = none) {row : Row}
    (member : row ∈ t.rows) : Placed t row := by
  rw [Placed, ← shown.unsorted unsorted]
  exact mem_drawn.mp (shown.rows.mem_iff.mp member)

theorem player_operate (t : Table) (op : Op) :
    (operate sorter t op).player = after t.player op := by
  rw [operate]
  split_ifs <;> rfl

/-! ## Acts on rows -/

theorem getElem?_eq_of_eraseIdx_eq {songs : List Song} {i j : ℕ} (left : i < songs.length)
    (right : j < songs.length) (same : songs.eraseIdx i = songs.eraseIdx j) :
    songs[i]? = songs[j]? := by
  have perm : (songs[i] :: songs.eraseIdx i).Perm (songs[j] :: songs.eraseIdx i) := by
    have back := (List.getElem_cons_eraseIdx_perm right).symm
    rw [← same] at back
    exact (List.getElem_cons_eraseIdx_perm left).trans back
  have count := perm.count_eq songs[i]
  rw [List.count_cons_self, List.count_cons] at count
  by_cases equal : songs[j] = songs[i]
  · rw [List.getElem?_eq_getElem left, List.getElem?_eq_getElem right, equal]
  · rw [if_neg (by simpa using equal)] at count
    omega

theorem right_remove_iff (shown : Drawn t) (place : ℕ) :
    Right sorter t (.remove place) ↔ InPlace t (.remove place) := by
  apply forall_congr'
  intro row
  apply forall_congr'
  intro here
  have bound := dataIndex_lt shown (List.mem_of_getElem? here)
  simp only [act, here]
  split_ifs
  · rw [player_operate, Player.customPlaylist_remove bound, Placed]
    constructor
    · intro ⟨i, found, same⟩
      have inside := (List.getElem?_eq_some_iff.mp found).1
      rw [getElem?_eq_of_eraseIdx_eq bound inside same, found]
    · intro placed
      exact ⟨row.dataIndex, placed, rfl⟩
  · constructor
    · intro ⟨i, found, same⟩
      obtain ⟨inside, track⟩ := List.getElem?_eq_some_iff.mp found
      have perm := (List.getElem_cons_eraseIdx_perm inside).symm
      rw [← same, track] at perm
      exact List.perm_singleton.mp perm
    · intro single
      rw [single]
      exact ⟨0, rfl, rfl⟩

theorem right_doubleClick_iff (shown : Drawn t) (place : ℕ) :
    Right sorter t (.doubleClick place) ↔ InPlace t (.doubleClick place) := by
  apply forall_congr'
  intro row
  apply forall_congr'
  intro here
  have bound := dataIndex_lt shown (List.mem_of_getElem? here)
  simp only [act, here]
  split_ifs
  · rw [player_operate, entry_doubleClick bound, Placed]
  · exact Iff.rfl

/-- Rows are read by number as the tracks that they show exactly if all are placed. -/
theorem reorderSongs_eq_iff {rows : List Row}
    (bounds : ∀ row ∈ rows, row.dataIndex < t.player.customPlaylist.length) :
    Player.reorderSongs (rows.map Row.dataIndex) t.player.customPlaylist = rows.map Row.song ↔
      ∀ row ∈ rows, Placed t row := by
  induction rows with
  | nil => simp [Player.reorderSongs]
  | cons row rows ih =>
      have rest := ih fun other member => bounds other (List.mem_cons_of_mem row member)
      have found := List.getElem?_eq_getElem (bounds row List.mem_cons_self)
      rw [Player.reorderSongs] at rest ⊢
      rw [List.map_cons, List.map_cons, List.filterMap_cons, found, List.forall_mem_cons, ← rest,
        Placed, found]
      simp only [List.cons.injEq, Option.some.injEq]

theorem right_drag_iff (shown : Drawn t) (order : List ℕ) :
    Right sorter t (.drag order) ↔ InPlace t (.drag order) := by
  apply forall_congr'
  intro moves
  have perm := moved_perm moves
  have indices : ((moved t order).map Row.dataIndex).Perm
      (List.range t.player.customPlaylist.length) := by
    have all := (perm.trans shown.rows).map Row.dataIndex
    rw [map_dataIndex_drawn, shown.data.length_eq] at all
    exact all
  have ne : t.player.customPlaylist ≠ [] := by
    intro empty
    -- Without a track there is no row to drag.
    have noRows : t.rows.length = 0 := by
      rw [shown.rows.length_eq, length_drawn, shown.data.length_eq, empty, List.length_nil]
    obtain ⟨permuted, other⟩ := moves
    rw [noRows, List.range_zero] at permuted other
    exact other permuted.eq_nil
  have bounds : ∀ row ∈ moved t order, row.dataIndex < t.player.customPlaylist.length := by
    intro row member
    exact dataIndex_lt shown (perm.mem_iff.mp member)
  rw [act, if_pos moves, player_operate, customPlaylist_drag ne indices]
  split_ifs
  · rw [reorderSongs_eq_iff bounds]
    exact forall_congr' fun row => imp_congr_left perm.mem_iff
  · exact Iff.rfl

/-- Acts are in place on a table that has not been sorted, while its rows have their
handlers and the cursor names a track. -/
theorem inPlace_of_unsorted (shown : Drawn t) (unsorted : t.sortOrder = none)
    (live : t.live = true)
    (cursor : (entry t.player.customPlaylist t.player.currentTrack).isSome = true) (a : Act) :
    InPlace t a := by
  cases a with
  | remove place =>
      intro row here
      rw [if_pos live]
      exact placed_of_unsorted shown unsorted (List.mem_of_getElem? here)
  | doubleClick place =>
      intro row here
      rw [if_pos live]
      exact placed_of_unsorted shown unsorted (List.mem_of_getElem? here)
  | drag order =>
      intro _
      rw [if_pos cursor]
      intro row member
      exact placed_of_unsorted shown unsorted member
  | _ => trivial

theorem drawn_history (sorter : Sorter) (history : List Act) :
    Drawn (history.foldl (act sorter) .initial) := by
  induction history using List.reverseRecOn with
  | nil => exact drawn_initial
  | append_singleton history last ih =>
      rw [List.foldl_concat]
      exact drawn_act ih last

/-- In every reachable state and for every order of sorting: an act on a row does what
the row shows exactly if the playlist has at the number of the row, and for a drag
at the number of every row, the track shown there. -/
theorem right_iff (sorter : Sorter) (history : List Act) (a : Act) :
    Right sorter (history.foldl (act sorter) .initial) a ↔
      InPlace (history.foldl (act sorter) .initial) a := by
  have shown := drawn_history sorter history
  cases a with
  | remove place => exact right_remove_iff shown place
  | doubleClick place => exact right_doubleClick_iff shown place
  | drag order => exact right_drag_iff shown order
  | _ => exact Iff.rfl

end

def byTitle : Sorter where
  sort order data :=
    match order with
    | .asc => data.insertionSort fun a b => a.name ≤ b.name
    | .desc => data.insertionSort fun a b => b.name ≤ a.name
  perm order data := by
    cases order with
    | asc => exact List.perm_insertionSort _ data
    | desc => exact List.perm_insertionSort _ data

/-- Two tracks are added, the table is sorted, and the next track is drawn: the rows
then are in the order of the titles, from the last, and have their handlers. -/
def sortedHistory : List Act :=
  [.playNext ⟨"1", "a", ["x"]⟩, .add ⟨"2", "b", ["y"]⟩, .sort, .next]

/-- Removing the row of `b` removes `a`, a double-click on it plays `a`, and dragging it
below the row of `a` leaves the playlist in the order that was on screen before. -/
theorem not_right :
    ¬ Right byTitle (sortedHistory.foldl (act byTitle) .initial) (.remove 0) ∧
      ¬ Right byTitle (sortedHistory.foldl (act byTitle) .initial) (.doubleClick 0) ∧
      ¬ Right byTitle (sortedHistory.foldl (act byTitle) .initial) (.drag [1, 0]) := by
  have shown := drawn_history byTitle sortedHistory
  have first : (sortedHistory.foldl (act byTitle) .initial).rows[0]? =
      some ⟨0, ⟨"2", "b", ["y"]⟩⟩ := by decide
  have out : ¬ Placed (sortedHistory.foldl (act byTitle) .initial) ⟨0, ⟨"2", "b", ["y"]⟩⟩ := by
    rw [Placed]
    decide
  refine ⟨fun right => ?_, fun right => ?_, fun right => ?_⟩
  · have placed := (right_remove_iff shown 0).mp right _ first
    rw [if_pos (by decide)] at placed
    exact out placed
  · have placed := (right_doubleClick_iff shown 0).mp right _ first
    rw [if_pos (by decide)] at placed
    exact out placed
  · have placed := (right_drag_iff shown [1, 0]).mp right (by decide)
    rw [if_pos (by decide)] at placed
    exact out (placed _ (List.mem_of_getElem? first))

end Phonograph.Client.PlaylistTable
