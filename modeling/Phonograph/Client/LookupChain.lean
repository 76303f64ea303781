import Mathlib
import Phonograph.Client.Lookups

/-! # One chain of track lookups

`performRequests` asks for the first track of its list and takes it off before the
reply is there; the reply's callback asks for the next one.  Left alone, the chain
gives every track its row up to the first reply whose score raises an error:
`chain_result` says what it leaves behind then.  It cannot be started on an empty
list: the row "No songs found." is pushed by a callback that then never runs. -/

set_option autoImplicit false

namespace Phonograph.Client.LookupChain

open Phonograph.Lib Phonograph.Client.Js Phonograph.Client.TrackButton Phonograph.Client.Fuzzy
open Phonograph.Client.Lookups

section
variable (service : Service)

def stillOut (p : Panel) : Event → ℕ
  | .select _ _ => p.outstanding.length
  | .deliver index _ => (p.outstanding.eraseIdx index).length

def sent (p : Panel) (event : Event) : List Pending :=
  (after service p event).outstanding.drop (stillOut p event)

def sentAlong : Panel → List Event → List Pending
  | _, [] => []
  | p, event :: events => sent service p event ++ sentAlong (after service p event) events

def outcomes : Panel → List Event → List (Option JsErr)
  | _, [] => []
  | p, event :: events => (perform service p event).2 :: outcomes (after service p event) events

abbrev Lookup := RequestTrack × Option Item

def lookupReplies (lookups : List Lookup) : List Event :=
  lookups.map fun lookup => .deliver 0 lookup.2.toList

/-- A selection, and the replies to its requests one after the other. -/
def chainEvents (mode : Mode) (lookups : List Lookup) : List Event :=
  .select (lookups.map Prod.fst) mode :: lookupReplies lookups

def goesOn (lookup : Lookup) : Bool := lookup.2.all fun item => ¬ Blank service lookup.1 item

/-- `performRequests` gives the item found for a track a score above 0.3. -/
def Above (track : RequestTrack) (item : Item) : Prop :=
  ∃ s, itemScore service track item = .ok (some s) ∧ threshold < s

def Playable (row : Row) (id : List Char) : Prop :=
  ∃ artist name rest, row = .track artist name (some id) (playButton (id ++ '|' :: rest) [])

/-- The row of a track: it can be played, with the id of the item, exactly if there is an
item with a score above the threshold. -/
structure RowOf (lookup : Lookup) (row : Row) : Prop where
  shows : ∃ artist name id play, row = .track artist name id play ∧
    (name = lookup.1.name ∨ name = greyed lookup.1.name)
  playable : ∀ id, Playable row id ↔
    ∃ item, lookup.2 = some item ∧ item.videoId = id ∧ Above service lookup.1 item

/-- The chain ends without an error and has asked for every track once, and the table has
a row for each, or the one row for no tracks. -/
structure ChainRight (mode : Mode) (p : Panel) (lookups : List Lookup) : Prop where
  quiet : Along (after service) (fun p event => (perform service p event).2 = none) p
    (chainEvents mode lookups)
  asked : sentAlong service p (chainEvents mode lookups) =
    (lookups.map Prod.fst).map (request service mode)
  finished : ((chainEvents mode lookups).foldl (after service) p).outstanding = []
  table : if lookups = [] then
      ((chainEvents mode lookups).foldl (after service) p).tables mode = [.noSongs]
    else List.Forall₂ (RowOf service) lookups
      (((chainEvents mode lookups).foldl (after service) p).tables mode)

/-- What replies leave behind: a row for each of those before the first that stops the
chain, and the tracks behind that one in the queue. -/
structure Left (mode : Mode) (lookups : List Lookup) (p q : Panel) : Prop where
  rows : q.tableData.map .ok = p.tableData.map .ok ++
    (lookups.takeWhile (goesOn service)).map fun lookup => lookupRow service lookup.1 lookup.2.toList
  queue : q.requestTracks = (lookups.dropWhile (goesOn service)).tail.map Prod.fst
  quiet : q.outstanding = []
  shown : q.tables mode =
    if lookups.takeWhile (goesOn service) = [] then p.tables mode else q.tableData
  others : ∀ other, other ≠ mode → q.tables other = p.tables other
  asked : sentAlong service p (lookupReplies lookups) =
    ((lookups.take ((lookups.takeWhile (goesOn service)).length + 1)).tail.map Prod.fst).map
      (request service mode)
  raised : outcomes service p (lookupReplies lookups) =
    (List.replicate lookups.length none).set (lookups.takeWhile (goesOn service)).length
      (some .typeError)

end

variable {service : Service} {mode : Mode} {p : Panel}

/-! ## The row of a lookup -/

theorem goesOn_iff {lookup : Lookup} :
    goesOn service lookup = true ↔ ∀ item ∈ lookup.2, ¬ Blank service lookup.1 item := by
  obtain ⟨track, reply⟩ := lookup
  cases reply <;> simp [goesOn]

theorem lookupRow_goesOn {lookup : Lookup} (continues : goesOn service lookup = true) :
    ∃ row, lookupRow service lookup.1 lookup.2.toList = .ok row := by
  apply lookupRow_ok
  rw [Option.head?_toList]
  exact goesOn_iff.mp continues

theorem rowOf_found {track : RequestTrack} {item : Item} (above : Above service track item) :
    RowOf service (track, some item) (foundRow track item) := by
  constructor
  · exact ⟨_, _, _, _, rfl, Or.inl rfl⟩
  · intro id
    constructor
    · rintro ⟨_, _, _, same⟩
      injection same with _ _ ids _
      exact ⟨item, rfl, Option.some.inj ids, above⟩
    · rintro ⟨other, there, rfl, _⟩
      obtain rfl : item = other := Option.some.inj there
      exact ⟨_, _, _, rfl⟩

theorem rowOf_missing {lookup : Lookup} (below : ∀ item ∈ lookup.2, ¬ Above service lookup.1 item) :
    RowOf service lookup (missingRow lookup.1) := by
  constructor
  · exact ⟨_, _, _, _, rfl, Or.inr rfl⟩
  · intro id
    constructor
    · rintro ⟨_, _, _, same⟩
      injection same with _ _ ids _
      cases ids
    · rintro ⟨item, there, _, above⟩
      exact absurd above (below item there)

theorem rowOf_lookupRow {lookup : Lookup} {row : Row}
    (pushed : lookupRow service lookup.1 lookup.2.toList = .ok row) : RowOf service lookup row := by
  obtain ⟨track, reply⟩ := lookup
  cases reply with
  | none =>
      cases pushed
      exact rowOf_missing (by simp)
  | some item =>
      rcases itemScore_cases service track item with ⟨blank, _⟩ | ⟨_, s, scored⟩
      · have raised : lookupRow service track [item] = .error .typeError :=
          lookupRow_blank rfl blank
        exact absurd (raised.symm.trans pushed) (by simp)
      · have same := (lookupRow_cons scored []).symm.trans pushed
        split_ifs at same with above
        · cases same
          exact rowOf_found ⟨s, scored, above⟩
        · cases same
          refine rowOf_missing fun other there => ?_
          obtain rfl : item = other := Option.some.inj there
          rintro ⟨t, again, higher⟩
          obtain rfl : s = t := by simpa [scored] using again
          exact above higher

/-! ## One reply -/

theorem foldl_lookupReplies_cons (service : Service) (p : Panel) (lookup : Lookup)
    (lookups : List Lookup) :
    (lookupReplies (lookup :: lookups)).foldl (after service) p =
      (lookupReplies lookups).foldl (after service)
        (after service p (.deliver 0 lookup.2.toList)) := rfl

theorem sentAlong_lookupReplies_cons (service : Service) (p : Panel) (lookup : Lookup)
    (lookups : List Lookup) :
    sentAlong service p (lookupReplies (lookup :: lookups)) =
      sent service p (.deliver 0 lookup.2.toList) ++
        sentAlong service (after service p (.deliver 0 lookup.2.toList)) (lookupReplies lookups) :=
  rfl

theorem outcomes_lookupReplies_cons (service : Service) (p : Panel) (lookup : Lookup)
    (lookups : List Lookup) :
    outcomes service p (lookupReplies (lookup :: lookups)) =
      (perform service p (.deliver 0 lookup.2.toList)).2 ::
        outcomes service (after service p (.deliver 0 lookup.2.toList)) (lookupReplies lookups) :=
  rfl

def Waits (service : Service) (mode : Mode) (lookups : List Lookup) (p : Panel) : Prop :=
  p.outstanding = ((lookups.map Prod.fst).head?.map (request service mode)).toList ∧
    p.requestTracks = (lookups.map Prod.fst).tail

theorem waits_select (service : Service) (mode : Mode) (quiet : p.outstanding = [])
    (lookups : List Lookup) :
    Waits service mode lookups (after service p (.select (lookups.map Prod.fst) mode)) := by
  rw [after_select, quiet]
  exact ⟨rfl, rfl⟩

theorem found_of_waits {lookup : Lookup} {lookups : List Lookup}
    (waits : Waits service mode (lookup :: lookups) p) :
    p.outstanding[0]? = some (request service mode lookup.1) := by
  rw [waits.1]
  rfl

theorem perform_deliver_ok {index : ℕ} {pending : Pending} {items : List Item} {row : Row}
    (found : p.outstanding[index]? = some pending)
    (pushed : lookupRow service pending.thisTrack items = .ok row) :
    (perform service p (.deliver index items)).2 = none := by
  simp only [perform, found, callback, pushed]
  split_ifs with more
  · obtain ⟨track, rest, queue⟩ := List.exists_cons_of_ne_nil more
    rw [performRequests, queue]
  · rfl
  · rfl

theorem after_goesOn {lookup : Lookup} {lookups : List Lookup}
    (waits : Waits service mode (lookup :: lookups) p) {row : Row}
    (pushed : lookupRow service lookup.1 lookup.2.toList = .ok row) :
    after service p (.deliver 0 lookup.2.toList) =
      { requestTracks := (lookups.map Prod.fst).tail
        tableData := p.tableData ++ [row]
        tables := fun m => if m = mode then p.tableData ++ [row] else p.tables m
        outstanding := ((lookups.map Prod.fst).head?.map (request service mode)).toList } := by
  rw [after_deliver _ (found_of_waits waits) pushed, waits.1, waits.2]
  rfl

theorem replies_quiet (service : Service) (quiet : p.outstanding = []) (lookups : List Lookup) :
    (lookupReplies lookups).foldl (after service) p = p ∧
      sentAlong service p (lookupReplies lookups) = [] ∧
      outcomes service p (lookupReplies lookups) = List.replicate lookups.length none := by
  induction lookups with
  | nil => exact ⟨rfl, rfl, rfl⟩
  | cons lookup lookups ih =>
      have same : perform service p (.deliver 0 lookup.2.toList) = (p, none) := by
        simp [perform, quiet]
      have still : after service p (.deliver 0 lookup.2.toList) = p := by rw [after, same]
      obtain ⟨panel, asked, raised⟩ := ih
      rw [foldl_lookupReplies_cons, sentAlong_lookupReplies_cons, outcomes_lookupReplies_cons,
        still, asked, raised, sent, still, same, quiet]
      exact ⟨panel, by simp, rfl⟩

/-! ## The chain -/

theorem left_stop {lookup : Lookup} {lookups : List Lookup}
    (waits : Waits service mode (lookup :: lookups) p) (stops : ¬ goesOn service lookup) :
    Left service mode (lookup :: lookups) p
      ((lookupReplies (lookup :: lookups)).foldl (after service) p) := by
  rw [goesOn_iff] at stops
  push Not at stops
  obtain ⟨item, first, blank⟩ := stops
  have stops : goesOn service lookup = false := by
    rw [← Bool.not_eq_true, goesOn_iff]
    exact fun clear => clear item first blank
  have raised := perform_deliver_error (found_of_waits waits)
    (lookupRow_blank (by rwa [Option.head?_toList]) blank)
  have next : after service p (.deliver 0 lookup.2.toList) = { p with outstanding := [] } := by
    rw [after, raised, waits.1]
    rfl
  obtain ⟨panel, asked, others⟩ :=
    replies_quiet service (p := { p with outstanding := [] }) rfl lookups
  have final : (lookupReplies (lookup :: lookups)).foldl (after service) p =
      { p with outstanding := [] } := by
    rw [foldl_lookupReplies_cons, next, panel]
  rw [final]
  constructor
  · simp [stops]
  · simp [stops, waits.2]
  · rfl
  · simp [stops]
  · exact fun _ _ => rfl
  · rw [sentAlong_lookupReplies_cons, next, asked, sent, next]
    simp [stops]
  · rw [outcomes_lookupReplies_cons, next, others, raised]
    simp [stops, List.replicate_succ]

theorem left_cons {lookup : Lookup} {lookups : List Lookup} {row : Row} {q : Panel}
    (waits : Waits service mode (lookup :: lookups) p) (continues : goesOn service lookup = true)
    (pushed : lookupRow service lookup.1 lookup.2.toList = .ok row)
    (left : Left service mode lookups (after service p (.deliver 0 lookup.2.toList)) q) :
    Left service mode (lookup :: lookups) p q := by
  have next := after_goesOn waits pushed
  have quiet := perform_deliver_ok (found_of_waits waits) pushed
  constructor
  · rw [left.rows, next, List.takeWhile_cons_of_pos continues, List.map_cons, pushed]
    simp
  · rw [left.queue, List.dropWhile_cons_of_pos continues]
  · exact left.quiet
  · rw [left.shown, List.takeWhile_cons_of_pos continues, if_neg (List.cons_ne_nil _ _)]
    split_ifs with nothing
    · have rows := left.rows
      rw [nothing, List.map_nil, List.append_nil] at rows
      have same := List.map_injective_iff.mpr (fun a b => Except.ok.inj) rows
      rw [same, next]
      simp
    · rfl
  · intro other apart
    rw [left.others other apart, next]
    simp [apart]
  · rw [sentAlong_lookupReplies_cons, left.asked, sent, next, stillOut, waits.1,
      List.takeWhile_cons_of_pos continues]
    cases lookups <;> rfl
  · rw [outcomes_lookupReplies_cons, left.raised, quiet, List.takeWhile_cons_of_pos continues]
    rfl

theorem left_replies (lookups : List Lookup) : ∀ p : Panel, Waits service mode lookups p →
    Left service mode lookups p ((lookupReplies lookups).foldl (after service) p) := by
  induction lookups with
  | nil =>
      intro p waits
      constructor
      · simp [lookupReplies]
      · exact waits.2
      · exact waits.1
      · rfl
      · exact fun _ _ => rfl
      · rfl
      · rfl
  | cons lookup lookups ih =>
      intro p waits
      by_cases continues : goesOn service lookup = true
      · obtain ⟨row, pushed⟩ := lookupRow_goesOn continues
        refine left_cons waits continues pushed (ih _ ?_)
        rw [after_goesOn waits pushed]
        exact ⟨rfl, rfl⟩
      · exact left_stop waits continues

/-- The empty list has no first track to read the artists of. -/
theorem perform_select (tracks : List RequestTrack) :
    (perform service p (.select tracks mode)).2 = if tracks = [] then some .typeError else none := by
  cases tracks <;> rfl

/-- A chain that is started while nothing is outstanding, with any replies: a row for
each track before the first one whose name and whose video's title are both emptied.
At that one the callback raises an error, and the tracks behind it are never asked for. -/
theorem chain_result (service : Service) (mode : Mode) (p : Panel) (quiet : p.outstanding = [])
    (lookups : List Lookup) :
    let q := (chainEvents mode lookups).foldl (after service) p
    let done := lookups.takeWhile (goesOn service)
    outcomes service p (chainEvents mode lookups) =
      (if lookups = [] then some .typeError else none) ::
        (List.replicate lookups.length none).set done.length (some .typeError) ∧
    sentAlong service p (chainEvents mode lookups) =
      ((lookups.take (done.length + 1)).map Prod.fst).map (request service mode) ∧
    q.tableData.map .ok = (done.map fun lookup => lookupRow service lookup.1 lookup.2.toList) ∧
    q.requestTracks = (lookups.dropWhile (goesOn service)).tail.map Prod.fst ∧
    q.outstanding = [] ∧
    q.tables mode = (if done = [] then p.tables mode else q.tableData) ∧
    (∀ other, other ≠ mode → q.tables other = p.tables other) := by
  intro q done
  have left : Left service mode lookups (after service p (.select (lookups.map Prod.fst) mode)) q :=
    left_replies lookups _ (waits_select service mode quiet lookups)
  have start := @after_select service p mode (lookups.map Prod.fst)
  refine ⟨?_, ?_, ?_, left.queue, left.quiet, ?_, ?_⟩
  · rw [chainEvents, outcomes, left.raised, perform_select]
    simp only [List.map_eq_nil_iff, done]
  · rw [chainEvents, sentAlong, left.asked, sent, start, stillOut, quiet]
    cases lookups <;> rfl
  · have rows := left.rows
    rw [start] at rows
    exact rows
  · have shown := left.shown
    rw [start] at shown
    exact shown
  · intro other apart
    have same := left.others other apart
    rw [start] at same
    exact same

/-! ## A chain without an error -/

theorem quiet_iff (service : Service) (events : List Event) : ∀ p : Panel,
    Along (after service) (fun p event => (perform service p event).2 = none) p events ↔
      ∀ outcome ∈ outcomes service p events, outcome = none := by
  induction events with
  | nil => intro p; simp [Along, outcomes]
  | cons event events ih =>
      intro p
      rw [Along, ih, outcomes, List.forall_mem_cons]

theorem goesOn_of_quiet {lookups : List Lookup}
    (quiet : ∀ outcome ∈ (List.replicate lookups.length none).set
      (lookups.takeWhile (goesOn service)).length (some JsErr.typeError), outcome = none) :
    ∀ lookup ∈ lookups, goesOn service lookup = true := by
  have whole : lookups.length ≤ (lookups.takeWhile (goesOn service)).length := by
    by_contra short
    have bound : (lookups.takeWhile (goesOn service)).length <
        (List.replicate lookups.length (none : Option JsErr)).length := by simpa using short
    cases quiet _ (List.mem_set bound (some JsErr.typeError))
  have same := (List.takeWhile_prefix (goesOn service)).eq_of_length_le whole
  exact List.takeWhile_eq_self_iff.mp same

theorem outcomes_of_goesOn {lookups : List Lookup}
    (continues : ∀ lookup ∈ lookups, goesOn service lookup = true) :
    ∀ outcome ∈ (List.replicate lookups.length none).set
      (lookups.takeWhile (goesOn service)).length (some JsErr.typeError), outcome = none := by
  rw [List.takeWhile_eq_self_iff.mpr continues, List.set_eq_of_length_le (by simp)]
  exact fun outcome member => List.eq_of_mem_replicate member

theorem rows_of_goesOn {lookups : List Lookup} {rows : List Row}
    (pushed : rows.map .ok = lookups.map fun lookup => lookupRow service lookup.1 lookup.2.toList) :
    List.Forall₂ (RowOf service) lookups rows := by
  have same := List.forall₂_eq_eq_eq ▸ pushed.symm
  rw [List.forall₂_map_left_iff, List.forall₂_map_right_iff] at same
  exact same.imp fun _ _ => rowOf_lookupRow

/-- A chain that nothing disturbs is right exactly if it has a track to ask for and each
reply with an item leaves something to compare. -/
theorem chainRight_iff (service : Service) (mode : Mode) (p : Panel) (idle : p.outstanding = [])
    (lookups : List Lookup) : ChainRight service mode p lookups ↔
      lookups ≠ [] ∧ ∀ lookup ∈ lookups, ∀ item ∈ lookup.2, ¬ Blank service lookup.1 item := by
  have left := left_replies lookups _ (waits_select service mode idle lookups)
  have start := @after_select service p mode (lookups.map Prod.fst)
  constructor
  · intro right
    constructor
    · rintro rfl
      cases right.quiet.1
    · have quiet := (quiet_iff service _ _).mp right.quiet.2
      rw [left.raised] at quiet
      exact fun lookup member => goesOn_iff.mp (goesOn_of_quiet quiet lookup member)
  · rintro ⟨ne, clear⟩
    have continues : ∀ lookup ∈ lookups, goesOn service lookup = true :=
      fun lookup member => goesOn_iff.mpr (clear lookup member)
    have whole : lookups.takeWhile (goesOn service) = lookups :=
      List.takeWhile_eq_self_iff.mpr continues
    constructor
    · refine ⟨?_, (quiet_iff service _ _).mpr ?_⟩
      · dsimp only
        rw [perform_select, if_neg (by simpa using ne)]
      · rw [left.raised]
        exact outcomes_of_goesOn continues
    · rw [chainEvents, sentAlong, left.asked, sent, start, stillOut, idle, whole]
      cases lookups <;> simp
    · exact left.quiet
    · have rows := left.rows
      have shown := left.shown
      rw [whole, start] at rows
      rw [whole, if_neg ne] at shown
      rw [if_neg ne]
      change List.Forall₂ (RowOf service) lookups
        (((lookupReplies lookups).foldl (after service) (after service p _)).tables mode)
      rw [shown, start]
      exact rows_of_goesOn rows

/-- Two tracks, the second of which is not found. -/
theorem chainRight_two : ChainRight plainService .node .initial
    [(songOne, some ⟨"v".toList, "one".toList⟩), (songTwo, none)] :=
  (chainRight_iff plainService .node .initial rfl _).mpr ⟨List.cons_ne_nil _ _, by
    rw [List.forall_mem_cons, List.forall_mem_singleton]
    constructor
    · rintro _ ⟨⟩
      decide
    · rintro _ ⟨⟩⟩

theorem not_chainRight : ¬ ChainRight plainService .node .initial [] := by
  intro right
  cases right.quiet.1

theorem chain_result_video :
    (.initial : Panel).outstanding = [] ∧
    outcomes plainService .initial (chainEvents .node
      [(⟨"Video".toList, []⟩, some ⟨"x".toList, "Video".toList⟩), (⟨"Help".toList, []⟩, none)]) =
        [none, some .typeError, none] :=
  ⟨rfl, by
    rw [(chain_result plainService .node .initial rfl _).1]
    decide +kernel⟩

end Phonograph.Client.LookupChain
