import Mathlib
import Phonograph.Client.FuzzyScore
import Phonograph.Lib.Runs

/-! # The track tables

A selection puts its tracks into `gv.requestTracks` and starts a chain of YouTube
requests: each reply adds a row to `gv.tableData`, shows it in the table of the
chain's mode and asks for the next track.  The queue and the rows are shared by
all chains, so a selection made while a reply is outstanding does not end the
older chain but joins it.  A reply ends a chain early if the score of its item
raises an error: the callback stops before it touches the table.
`shows_last_iff` says that these are the only ways for a table to go wrong. -/

set_option autoImplicit false

namespace Phonograph.Client.Lookups

open Phonograph.Lib Phonograph.Client.Js Phonograph.Client.TrackButton Phonograph.Client.Fuzzy

structure RequestTrack where
  name : List Char
  artists : List (List Char)
  deriving DecidableEq

inductive Mode where
  | node
  | edge
  deriving DecidableEq

structure Item where
  videoId : List Char
  title : List Char
  deriving DecidableEq

/-- A row of a table; the `id` of a track that was not found is `null`. -/
inductive Row where
  | track (artist name : List Char) (id : Option (List Char)) (play : List Char)
  | noSongs
  deriving DecidableEq

structure Pending where
  yt : List Char
  thisTrack : RequestTrack
  mode : Mode
  deriving DecidableEq

structure Panel where
  requestTracks : List RequestTrack
  tableData : List Row
  tables : Mode → List Row
  outstanding : List Pending

def Panel.initial : Panel := ⟨[], [], fun _ => [], []⟩

/-! ## Requests -/

def ytRequestString (service : Service) (trackName artistNames : List Char) : List Char :=
  "https://www.googleapis.com/youtube/v3/search?safeSearch=none&part=snippet&q=".toList ++
    artistNames ++ " ".toList ++ trackName ++ "&type=video&maxResults=1&key=".toList ++ service.key

def greyed (text : List Char) : List Char :=
  "<div class=\"disabled\" style=\"color:grey;\">".toList ++ text ++ "</div>".toList

def foundRow (thisTrack : RequestTrack) (item : Item) : Row :=
  .track (", ".toList.intercalate thisTrack.artists) thisTrack.name (some item.videoId)
    (playButton (buttonText item.videoId thisTrack.name thisTrack.artists) [])

def missingRow (thisTrack : RequestTrack) : Row :=
  .track (greyed (['*'].intercalate thisTrack.artists)) (greyed thisTrack.name) none
    (playButton [] "disabled='disabled'".toList)

section
variable (service : Service)

def itemScore (thisTrack : RequestTrack) (item : Item) : Except JsErr (Option ℚ) :=
  calculateScore service (standardise service thisTrack.name) (standardise service item.title)
    (thisTrack.artists.map (standardise service))

def lookupRow (thisTrack : RequestTrack) (items : List Item) : Except JsErr Row :=
  match items with
  | [] => .ok (missingRow thisTrack)
  | item :: _ => do
      let score ← itemScore service thisTrack item
      if score.any (threshold < ·) then return foundRow thisTrack item
      else return missingRow thisTrack

def request (mode : Mode) (thisTrack : RequestTrack) : Pending :=
  let stNames := thisTrack.artists.map (standardise service)
  let stTrack := standardise service thisTrack.name
  { yt := ytRequestString service (removeNames stNames stTrack) (" ".toList.intercalate stNames)
    thisTrack := thisTrack
    mode := mode }

/-- The first track of the queue is asked for and taken off; an empty queue has no
first track to read the artists of. -/
def performRequests (mode : Mode) (p : Panel) : Panel × Option JsErr :=
  match p.requestTracks with
  | [] => (p, some .typeError)
  | thisTrack :: requestTracks =>
      ({ p with
          requestTracks := requestTracks
          outstanding := p.outstanding ++ [request service mode thisTrack] }, none)

/-- `bootstrapTable('load', gv.tableData)` on the table of the mode. -/
def Panel.load (mode : Mode) (p : Panel) : Panel :=
  { p with tables := fun m => if m = mode then p.tableData else p.tables m }

def Panel.push (row : Row) (p : Panel) : Panel := { p with tableData := p.tableData ++ [row] }

/-- The callback of a request.  The score comes first: where it raises an error, no row
is pushed and the next track is not asked for. -/
def callback (pending : Pending) (items : List Item) (p : Panel) : Panel × Option JsErr :=
  match lookupRow service pending.thisTrack items with
  | .error error => (p, some error)
  | .ok row =>
      let p := (p.push row).load pending.mode
      if p.requestTracks ≠ [] then performRequests service pending.mode p
      else
        let p := if p.tableData = [] then p.push .noSongs else p
        (p.load pending.mode, none)

inductive Event where
  /-- The tracks of an artist (`node`) or of a link (`edge`) have arrived. -/
  | select (tracks : List RequestTrack) (mode : Mode)
  /-- The reply to an outstanding request arrives. -/
  | deliver (index : ℕ) (items : List Item)

def perform (p : Panel) : Event → Panel × Option JsErr
  | .select tracks mode =>
      performRequests service mode { p with requestTracks := tracks, tableData := [] }
  | .deliver index items =>
      match p.outstanding[index]? with
      | none => (p, none)
      | some pending =>
          callback service pending items { p with outstanding := p.outstanding.eraseIdx index }

def after (p : Panel) (event : Event) : Panel := (perform service p event).1

def run (events : List Event) : Panel := events.foldl (after service) .initial

/-- One row for each track, in the order of the tracks. -/
def Shows (tracks : List RequestTrack) (rows : List Row) : Prop :=
  List.Forall₂ (fun track row => ∃ items, lookupRow service track items = .ok row) tracks rows

/-- Nothing is left of the name of the track nor of the title of the video once they are
compared. -/
def Blank (thisTrack : RequestTrack) (item : Item) : Prop :=
  let artistNames := thisTrack.artists.map (standardise service)
  compared service artistNames (standardise service thisTrack.name) = [] ∧
    compared service artistNames (standardise service item.title) = []

instance (thisTrack : RequestTrack) (item : Item) : Decidable (Blank service thisTrack item) :=
  inferInstanceAs (Decidable (_ ∧ _))

/-- A reply with an item leaves something to compare. -/
def NotBlank (p : Panel) : Event → Prop
  | .select _ _ => True
  | .deliver index items => ∀ pending ∈ p.outstanding[index]?, ∀ item ∈ items.head?,
      ¬ Blank service pending.thisTrack item

variable {service} {p : Panel} {mode : Mode}

/-! ## Rows -/

theorem itemScore_cases (service : Service) (thisTrack : RequestTrack) (item : Item) :
    (Blank service thisTrack item ∧ itemScore service thisTrack item = .error .typeError) ∨
    (¬ Blank service thisTrack item ∧ ∃ s, itemScore service thisTrack item = .ok (some s)) := by
  unfold itemScore
  rw [calculateScore_eq]
  by_cases blank : Blank service thisTrack item
  · exact Or.inl ⟨blank, nameScore_error_iff.mpr blank⟩
  · right
    refine ⟨blank, ?_⟩
    have quiet := mt (nameScore_error_iff (e := service.toEngine)).mp blank
    unfold nameScore at quiet ⊢
    split_ifs at quiet ⊢ with _ empty
    · exact ⟨_, rfl⟩
    · exact absurd rfl quiet
    · exact ⟨_, rfl⟩
    · exact ⟨_, rfl⟩

theorem lookupRow_blank {thisTrack : RequestTrack} {item : Item} {items : List Item}
    (first : item ∈ items.head?) (blank : Blank service thisTrack item) :
    lookupRow service thisTrack items = .error .typeError := by
  obtain ⟨rest, rfl⟩ := List.head?_eq_some_iff.mp first
  rcases itemScore_cases service thisTrack item with ⟨_, raised⟩ | ⟨clear, _⟩
  · rw [lookupRow, raised]
    rfl
  · exact absurd blank clear

theorem lookupRow_cons {thisTrack : RequestTrack} {item : Item} {s : ℚ}
    (scored : itemScore service thisTrack item = .ok (some s)) (rest : List Item) :
    lookupRow service thisTrack (item :: rest) =
      .ok (if threshold < s then foundRow thisTrack item else missingRow thisTrack) := by
  rw [lookupRow, scored]
  change (if decide (threshold < s) = true then pure (foundRow thisTrack item)
    else pure (missingRow thisTrack) : Except JsErr Row) = _
  simp only [decide_eq_true_eq]
  split_ifs
  · rfl
  · rfl

theorem lookupRow_ok {thisTrack : RequestTrack} {items : List Item}
    (clear : ∀ item ∈ items.head?, ¬ Blank service thisTrack item) :
    ∃ row, lookupRow service thisTrack items = .ok row := by
  cases items with
  | nil => exact ⟨_, rfl⟩
  | cons item rest =>
      rcases itemScore_cases service thisTrack item with ⟨blank, _⟩ | ⟨_, s, scored⟩
      · exact absurd blank (clear item rfl)
      · exact ⟨_, lookupRow_cons scored rest⟩

/-! ## One event -/

@[simp] theorem request_mode (thisTrack : RequestTrack) :
  (request service mode thisTrack).mode = mode := rfl

theorem performRequests_fst (mode : Mode) (p : Panel) :
    (performRequests service mode p).1 =
      { p with
        requestTracks := p.requestTracks.tail
        outstanding := p.outstanding ++ (p.requestTracks.head?.map (request service mode)).toList } := by
  cases p with
  | mk requestTracks tableData tables outstanding =>
      cases requestTracks <;> simp [performRequests]

theorem after_select (tracks : List RequestTrack) :
    after service p (.select tracks mode) =
      { requestTracks := tracks.tail
        tableData := []
        tables := p.tables
        outstanding := p.outstanding ++ (tracks.head?.map (request service mode)).toList } :=
  performRequests_fst mode _

theorem after_deliver_none {index : ℕ} (items : List Item)
    (missing : p.outstanding[index]? = none) :
    after service p (.deliver index items) = p := by
  simp [after, perform, missing]

theorem Panel.load_load : (p.load mode).load mode = p.load mode := by
  simp only [Panel.load, Panel.mk.injEq, true_and, and_true]
  funext m
  split_ifs <;> rfl

/-- A reply adds its row, shows all rows in the table of its mode, and asks for the
next track of the queue if there is one. -/
theorem after_deliver {index : ℕ} {pending : Pending} (items : List Item) {row : Row}
    (found : p.outstanding[index]? = some pending)
    (pushed : lookupRow service pending.thisTrack items = .ok row) :
    after service p (.deliver index items) =
      let rows := p.tableData ++ [row]
      { requestTracks := p.requestTracks.tail
        tableData := rows
        tables := fun m => if m = pending.mode then rows else p.tables m
        outstanding := p.outstanding.eraseIdx index ++
          (p.requestTracks.head?.map (request service pending.mode)).toList } := by
  simp only [after, perform, found, callback, pushed]
  by_cases empty : p.requestTracks = []
  · rw [if_neg (fun left => left empty), if_neg (by simp [Panel.push, Panel.load]), Panel.load_load]
    simp [Panel.push, Panel.load, empty]
  · rw [if_pos (by simpa [Panel.push, Panel.load] using empty), performRequests_fst]
    rfl

/-- The reply that raises an error is gone, and nothing else has changed. -/
theorem perform_deliver_error {index : ℕ} {pending : Pending} {items : List Item} {error : JsErr}
    (found : p.outstanding[index]? = some pending)
    (raised : lookupRow service pending.thisTrack items = .error error) :
    perform service p (.deliver index items) =
      ({ p with outstanding := p.outstanding.eraseIdx index }, some error) := by
  simp only [perform, found, callback, raised]

def replies (deliveries : List (ℕ × List Item)) : List Event :=
  deliveries.map fun delivery => .deliver delivery.1 delivery.2

def deliver (service : Service) (p : Panel) (deliveries : List (ℕ × List Item)) : Panel :=
  (replies deliveries).foldl (after service) p

theorem deliver_cons (service : Service) (p : Panel) (delivery : ℕ × List Item)
    (deliveries : List (ℕ × List Item)) :
    deliver service p (delivery :: deliveries) =
      deliver service (after service p (.deliver delivery.1 delivery.2)) deliveries := rfl

/-! ## A chain on its own -/

/-- Some rows are there, and the rest of the tracks wait in the queue behind the one
request that is outstanding. -/
def Chain (service : Service) (tracks : List RequestTrack) (mode : Mode) (p : Panel) : Prop :=
  ∃ done left, tracks = done ++ left ∧ Shows service done p.tableData ∧
    ((left = [] ∧ p.requestTracks = [] ∧ p.outstanding = [] ∧ p.tables mode = p.tableData) ∨
      ∃ track, left = track :: p.requestTracks ∧ p.outstanding = [request service mode track])

theorem chain_select {tracks : List RequestTrack} (nonempty : tracks ≠ [])
    (quiet : p.outstanding = []) :
    Chain service tracks mode (after service p (.select tracks mode)) := by
  obtain ⟨track, rest, rfl⟩ := List.exists_cons_of_ne_nil nonempty
  rw [after_select, quiet]
  exact ⟨[], track :: rest, rfl, List.Forall₂.nil, Or.inr ⟨track, rfl, rfl⟩⟩

theorem shows_append {tracks : List RequestTrack} {rows : List Row} {track : RequestTrack}
    {items : List Item} {row : Row} (shows : Shows service tracks rows)
    (pushed : lookupRow service track items = .ok row) :
    Shows service (tracks ++ [track]) (rows ++ [row]) :=
  List.rel_append shows (List.Forall₂.cons ⟨items, pushed⟩ List.Forall₂.nil)

theorem chain_deliver {tracks : List RequestTrack} (chain : Chain service tracks mode p) {index : ℕ}
    {items : List Item} (clear : NotBlank service p (.deliver index items)) :
    Chain service tracks mode (after service p (.deliver index items)) := by
  obtain ⟨done, left, rfl, shows, ⟨rfl, queue, quiet, shown⟩ | ⟨track, rfl, waits⟩⟩ := chain
  · rw [after_deliver_none items (by simp [quiet])]
    exact ⟨done, [], rfl, shows, Or.inl ⟨rfl, queue, quiet, shown⟩⟩
  · cases index with
    | succ index =>
        rw [after_deliver_none items (by simp [waits])]
        exact ⟨done, track :: p.requestTracks, rfl, shows, Or.inr ⟨track, rfl, waits⟩⟩
    | zero =>
        have found : p.outstanding[0]? = some (request service mode track) := by simp [waits]
        obtain ⟨row, pushed⟩ := lookupRow_ok (clear _ found)
        rw [after_deliver items found pushed]
        refine ⟨done ++ [track], p.requestTracks, by simp, shows_append shows pushed, ?_⟩
        cases queue : p.requestTracks with
        | nil => exact Or.inl (by simp [waits])
        | cons next rest => exact Or.inr ⟨next, by simp [waits]⟩

theorem shows_of_chain {tracks : List RequestTrack} (chain : Chain service tracks mode p)
    (quiet : p.outstanding = []) :
    Shows service tracks p.tableData ∧ p.tables mode = p.tableData := by
  obtain ⟨done, left, rfl, shows, ⟨rfl, _, _, shown⟩ | ⟨track, rfl, waits⟩⟩ := chain
  · rw [List.append_nil]
    exact ⟨shows, shown⟩
  · simp [waits] at quiet

/-- A reply that leaves nothing to compare ends the chain before its last row. -/
theorem chain_stop {tracks : List RequestTrack} (chain : Chain service tracks mode p) {index : ℕ}
    {items : List Item} (stops : ¬ NotBlank service p (.deliver index items)) :
    (after service p (.deliver index items)).outstanding = [] ∧
      (after service p (.deliver index items)).tableData.length < tracks.length := by
  unfold NotBlank at stops
  push Not at stops
  obtain ⟨pending, found, item, first, blank⟩ := stops
  have raised := perform_deliver_error found (lookupRow_blank first blank)
  rw [after, raised]
  obtain ⟨done, left, rfl, shows, ⟨rfl, queue, quiet, shown⟩ | ⟨track, rfl, waits⟩⟩ := chain
  · simp [quiet] at found
  · have zero : index = 0 := by
      obtain ⟨bound, _⟩ := List.getElem?_eq_some_iff.mp found
      simpa [waits] using bound
    subst zero
    refine ⟨by simp [waits], ?_⟩
    rw [← shows.length_eq]
    simp

theorem deliver_quiet (service : Service) (quiet : p.outstanding = [])
    (deliveries : List (ℕ × List Item)) :
    deliver service p deliveries = p := by
  induction deliveries with
  | nil => rfl
  | cons delivery deliveries ih =>
      rw [deliver_cons, after_deliver_none delivery.2 (by simp [quiet]), ih]

/-- Once all replies to a chain are there, its rows are those of its tracks exactly if each
reply left something to compare. -/
theorem chain_drained {tracks : List RequestTrack} (deliveries : List (ℕ × List Item)) :
    ∀ {p : Panel}, Chain service tracks mode p → (deliver service p deliveries).outstanding = [] →
      (Shows service tracks (deliver service p deliveries).tableData ↔
        Along (after service) (NotBlank service) p (replies deliveries)) ∧
      (Along (after service) (NotBlank service) p (replies deliveries) →
        (deliver service p deliveries).tables mode = (deliver service p deliveries).tableData) := by
  induction deliveries with
  | nil =>
      intro p chain drained
      obtain ⟨shows, shown⟩ := shows_of_chain chain drained
      exact ⟨iff_of_true shows trivial, fun _ => shown⟩
  | cons delivery deliveries ih =>
      intro p chain drained
      by_cases clear : NotBlank service p (.deliver delivery.1 delivery.2)
      · obtain ⟨same, shown⟩ := ih (chain_deliver chain clear) drained
        exact ⟨same.trans (and_iff_right clear).symm, fun along => shown along.2⟩
      · obtain ⟨quiet, fewer⟩ := chain_stop chain clear
        refine ⟨iff_of_false (fun shows => ?_) fun along => clear along.1,
          fun along => absurd along.1 clear⟩
        rw [deliver_cons, deliver_quiet service quiet] at shows
        exact fewer.ne shows.length_eq.symm

/-! ## Chains that meet -/

theorem after_missing (service : Service) {index : ℕ} {pending : Pending}
    (found : p.outstanding[index]? = some pending) :
    after service p (.deliver index []) =
      let rows := p.tableData ++ [missingRow pending.thisTrack]
      { requestTracks := p.requestTracks.tail
        tableData := rows
        tables := fun m => if m = pending.mode then rows else p.tables m
        outstanding := p.outstanding.eraseIdx index ++
          (p.requestTracks.head?.map (request service pending.mode)).toList } :=
  after_deliver [] found rfl

theorem waiting_missing (service : Service) {index : ℕ} {pending : Pending}
    (found : p.outstanding[index]? = some pending) :
    (after service p (.deliver index [])).outstanding.length +
        (after service p (.deliver index [])).requestTracks.length + 1 =
      p.outstanding.length + p.requestTracks.length := by
  obtain ⟨bound, _⟩ := List.getElem?_eq_some_iff.mp found
  rw [after_missing service found]
  cases queue : p.requestTracks with
  | nil => simp [List.length_eraseIdx, bound]; omega
  | cons next rest => simp [List.length_eraseIdx, bound]; omega

theorem along_missing (service : Service) (indices : List ℕ) : ∀ p : Panel,
    Along (after service) (NotBlank service) p (replies (indices.map fun index => (index, []))) := by
  induction indices with
  | nil => intro p; trivial
  | cons index indices ih =>
      intro p
      refine ⟨fun _ _ item first => ?_, ih _⟩
      simp at first

/-- Some order of the replies leaves a request of the mode for the end.  Its table
then shows a row for every track that was outstanding or in the queue. -/
theorem exists_drain (service : Service) (mode : Mode) (n : ℕ) : ∀ p : Panel,
    p.outstanding.length + p.requestTracks.length = n →
    (∃ pending ∈ p.outstanding, pending.mode = mode) →
    ∃ indices : List ℕ, let q := deliver service p (indices.map fun index => (index, []))
      q.outstanding = [] ∧ (q.tables mode).length = p.tableData.length + n := by
  induction n with
  | zero =>
      rintro p total ⟨pending, waits, _⟩
      have quiet : p.outstanding = [] := List.length_eq_zero_iff.mp (by omega)
      simp [quiet] at waits
  | succ n ih =>
      intro p total waits
      -- A reply after which a request of the mode still waits leaves the rest to the induction.
      have next : ∀ index pending, p.outstanding[index]? = some pending →
          (∃ other ∈ (after service p (.deliver index [])).outstanding, other.mode = mode) →
          ∃ indices : List ℕ, let q := deliver service p (indices.map fun index => (index, []))
            q.outstanding = [] ∧ (q.tables mode).length = p.tableData.length + (n + 1) := by
        intro index pending found still
        have fewer := waiting_missing service found
        obtain ⟨indices, quiet, shown⟩ := ih _ (by omega) still
        refine ⟨index :: indices, quiet, shown.trans ?_⟩
        simp [after_missing service found]
        omega
      obtain ⟨pending, member, same⟩ := waits
      cases waiting : p.outstanding with
      | nil => simp [waiting] at member
      | cons first others =>
          rw [waiting, List.mem_cons] at member
          cases others with
          | nil =>
              obtain rfl : pending = first := by simpa using member
              have found : p.outstanding[0]? = some pending := by simp [waiting]
              cases queue : p.requestTracks with
              | nil =>
                  have last : n = 0 := by simpa [waiting, queue] using total.symm
                  refine ⟨[0], ?_⟩
                  simp [deliver, replies, after_missing service found, waiting, queue, same, last]
              | cons track rest =>
                  apply next 0 pending found
                  simp [after_missing service found, waiting, queue, same]
          | cons second rest =>
              rcases member with rfl | later
              · have found : p.outstanding[1]? = some second := by simp [waiting]
                apply next 1 second found
                exact ⟨pending, by simp [after_missing service found, waiting], same⟩
              · have found : p.outstanding[0]? = some first := by simp [waiting]
                apply next 0 first found
                refine ⟨pending, ?_, same⟩
                rw [after_missing service found, waiting]
                exact List.mem_append_left _ later

/-- Whatever came before, the table of the last selection shows its tracks once all
replies are there, in whichever order they arrive, exactly if no reply was
outstanding when the selection was made: this as long as each reply leaves something
to compare.  Without that some row of the selection is missing. -/
theorem shows_last_iff (service : Service) (before : List Event) (tracks : List RequestTrack)
    (mode : Mode) (nonempty : tracks ≠ []) :
    let selected := run service (before ++ [.select tracks mode])
    let last := fun deliveries => run service (before ++ .select tracks mode :: replies deliveries)
    ((∀ deliveries, Along (after service) (NotBlank service) selected (replies deliveries) →
      (last deliveries).outstanding = [] → Shows service tracks ((last deliveries).tables mode)) ↔
        (run service before).outstanding = []) ∧
    ((run service before).outstanding = [] → ∀ deliveries, (last deliveries).outstanding = [] →
      (Shows service tracks (last deliveries).tableData ↔
        Along (after service) (NotBlank service) selected (replies deliveries))) := by
  have start : run service (before ++ [.select tracks mode]) =
      after service (run service before) (.select tracks mode) := by
    simp [run]
  have split : ∀ deliveries, run service (before ++ .select tracks mode :: replies deliveries) =
      deliver service (after service (run service before) (.select tracks mode)) deliveries := by
    intro deliveries
    simp [run, deliver]
  simp only [split, start]
  refine ⟨⟨fun shows => ?_, fun quiet deliveries along drained => ?_⟩,
    fun quiet deliveries drained => (chain_drained deliveries (chain_select nonempty quiet) drained).1⟩
  · obtain ⟨track, rest, rfl⟩ := List.exists_cons_of_ne_nil nonempty
    obtain ⟨indices, quiet, shown⟩ := exists_drain service mode _
      (after service (run service before) (.select (track :: rest) mode)) rfl (by simp [after_select])
    have length := (shows _ (along_missing service indices _) quiet).length_eq
    rw [shown] at length
    simp [after_select] at length
    exact List.length_eq_zero_iff.mp (by omega)
  · obtain ⟨same, shown⟩ := chain_drained deliveries (chain_select nonempty quiet) drained
    rw [shown along]
    exact same.mpr along

end

def songOne : RequestTrack := ⟨"one".toList, ["A".toList]⟩
def songTwo : RequestTrack := ⟨"two".toList, ["B".toList]⟩

/-- A second selection made when the replies to the first are all there. -/
theorem shows_last_in_turn :
    Shows plainService [songTwo] ((run plainService ([.select [songOne] .node, .deliver 0 []] ++
      .select [songTwo] .node :: replies [(0, [⟨"v".toList, "two".toList⟩])])).tables .node) := by
  have clear : ¬ Blank plainService songTwo ⟨"v".toList, "two".toList⟩ := by decide
  apply (shows_last_iff plainService _ _ .node (by simp)).1.mpr
  · rfl
  · refine ⟨fun pending waits item first => ?_, trivial⟩
    cases waits
    cases first
    exact clear
  · decide +kernel

/-- A second selection made too early: the table shows the first artist's song, too. -/
theorem not_shows_last :
    (run plainService [.select [songOne] .node, .select [songTwo] .node, .deliver 0 [],
        .deliver 0 []]).outstanding = [] ∧
      ¬ Shows plainService [songTwo] ((run plainService [.select [songOne] .node,
        .select [songTwo] .node, .deliver 0 [], .deliver 0 []]).tables .node) := by
  refine ⟨rfl, fun shows => ?_⟩
  have length := shows.length_eq
  have rows : ((run plainService [.select [songOne] .node, .select [songTwo] .node, .deliver 0 [],
      .deliver 0 []]).tables .node).length = 2 := rfl
  rw [rows] at length
  simp at length

end Phonograph.Client.Lookups
