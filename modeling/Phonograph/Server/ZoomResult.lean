import Phonograph.Server.Zoom

/-! # What the zoom loop returns

The chosen artists grow by whole shortest paths, so that they are `Rooted` at
the origin whenever the loop comes to its test.  A round begins below `size`
and stops at the first path that gets there, so it ends less than a path
above.  A restart throws away only choices that were too few. -/

set_option autoImplicit false

namespace Phonograph.Server.ZoomResult

open Phonograph.Lib Phonograph.Server.Redis Phonograph.Server.Python
open Phonograph.Server.Database Phonograph.Server.Paths Phonograph.Server.PathLevels
open Phonograph.Server.Engines Phonograph.Server.Routes
open Phonograph.Server.ZoomSweep Phonograph.Server.ZoomVisit Phonograph.Server.Zoom

variable {F S : Type} [Score S] {P : Platform F} {db : MusicDb S} {origin : String}
  {level size : ℤ}

/-! ## One round -/

theorem chosen_of_round {x y : ZoomConfig S}
    (next : bodyRound (zoomRound P origin size level) (machine S) x = .ok y) :
    y.1.chosen = [origin] ∨ ∃ swept,
      zoomSweep size x.1.distances x.1.c x.1.rankedLeaves x.1.chosen x.1.paths = .ok swept ∧
        y.1.chosen = swept.1 ∧ y.1.distances = x.1.distances := by
  have ran := run_of_bodyRound next
  rw [zoomRound] at ran
  obtain ⟨swept, _, _, sweep, rest⟩ := run_bind_eq_ok (machine S) ran
  have ok : zoomSweep size x.1.distances x.1.c x.1.rankedLeaves x.1.chosen x.1.paths =
      .ok swept := by
    generalize zoomSweep size x.1.distances x.1.c x.1.rankedLeaves x.1.chosen x.1.paths = result
      at sweep
    cases result with
    | error e => cases sweep
    | ok value =>
        cases sweep
        rfl
  dsimp only at rest
  split_ifs at rest with left deep
  · have same := Except.ok.inj (Prod.mk.inj rest).1
    exact Or.inr ⟨swept, ok, by rw [← same], by rw [← same]⟩
  · obtain ⟨leaves, _, _, _, last⟩ := run_bind_eq_ok (machine S) rest
    have same := Except.ok.inj (Prod.mk.inj last).1
    exact Or.inr ⟨swept, ok, by rw [← same], by rw [← same]⟩
  · obtain ⟨distances, _, _, _, rest⟩ := run_bind_eq_ok (machine S) rest
    obtain ⟨leaves, _, _, _, last⟩ := run_bind_eq_ok (machine S) rest
    have same := Except.ok.inj (Prod.mk.inj last).1
    exact Or.inl (by rw [← same])

section Visit
variable {L j : ℕ} {entered : List String} {s : ZoomState}
  (visiting : Visiting P db origin level L entered j s)
include visiting

theorem origin_mem_turn {leaf : String} (member : leaf ∈ s.rankedLeaves) {path : Path}
    (turn : path ∈ turnsOf P db origin s.c leaf) : origin ∈ path ∧ path.length ≤ s.c + 1 := by
  have dist := (visiting.leaves leaf).mp member
  have geodesic := ((mem_turnsOf P visiting.low dist path).mp turn).1
  exact ⟨List.mem_of_getLast? geodesic.getLast, geodesic.length.le⟩

theorem rooted_addTurns (rooted : Rooted db.Adj origin (· ∈ s.chosen)) {front : List String}
    (part : ∀ l ∈ front, l ∈ s.rankedLeaves) :
    Rooted db.Adj origin (· ∈ addTurns (turnsOf P db origin s.c) j front s.chosen) := by
  simp only [mem_addTurns]
  apply rooted.add
  intro a member
  obtain ⟨leaf, inFront, path, taken, inPath⟩ := member
  have dist := (visiting.leaves leaf).mp (part leaf inFront)
  have turn := List.mem_of_getElem? taken
  have geodesic := ((mem_turnsOf P visiting.low dist path).mp turn).1
  exact ⟨s.c, path, geodesic, inPath, fun v inPath => ⟨leaf, inFront, path, taken, inPath⟩⟩

theorem length_swept (begun : origin ∈ s.chosen) (short : (s.chosen.length : ℤ) < size)
    {swept : List String × LeafPaths}
    (sweep : zoomSweep size s.distances s.c s.rankedLeaves s.chosen s.paths = .ok swept) :
    (swept.1.length : ℤ) ≤ size - 1 + deepest s.distances := by
  have bound := length_zoomSweep s.rankedLeaves s.chosen s.paths visiting.distinct visiting.nodup
    begun short visiting.listed visiting.holds
    (fun leaf member path => origin_mem_turn visiting member) sweep
  have high := visiting.high
  rw [visiting.distances, deepest_table]
  omega

end Visit

/-! ## The whole loop -/

structure Grown (db : MusicDb S) (origin : String) (size : ℤ) (s : ZoomState) : Prop where
  nodup : s.chosen.Nodup
  rooted : Rooted db.Adj origin (· ∈ s.chosen)
  most : (s.chosen.length : ℤ) ≤ size - 1 + deepest s.distances

theorem Grown.step (pos : 1 ≤ level) {start x y : ZoomConfig S}
    (known : Known P db origin level size start x) (grown : Grown db origin size x.1)
    (go : Going size x.1)
    (next : bodyRound (zoomRound P origin size level) (machine S) x = .ok y) :
    Grown db origin size y.1 := by
  obtain ⟨_, full | ⟨L, e, j, m, during, agree, _, _⟩⟩ := known
  · exact absurd go full
  · have visiting := during.now
    have begun : 0 < x.1.chosen.length := List.length_pos_of_mem grown.rooted.root
    have most : (y.1.chosen.length : ℤ) ≤ size - 1 + deepest y.1.distances := by
      rcases chosen_of_round next with again | ⟨swept, sweep, chosen, same⟩
      · rw [again, List.length_singleton]
        rw [Going] at go
        omega
      · rw [chosen, same]
        exact length_swept visiting grown.rooted.root go sweep
    have swept : ∀ front, (∀ l ∈ front, l ∈ x.1.rankedLeaves) →
        y.1.chosen = addTurns (turnsOf P db origin x.1.c) j front x.1.chosen →
        Grown db origin size y.1 := by
      intro front part chosen
      refine ⟨?_, ?_, most⟩
      · rw [chosen]
        exact nodup_addTurns _ _ _ _ visiting.nodup
      · rw [chosen]
        exact rooted_addTurns visiting grown.rooted part
    have outcome := visiting.round pos agree go
    rw [next] at outcome
    cases outcome with
    | filled front back _ split _ chosen _ =>
        refine swept front (fun l member => ?_) chosen
        rw [split]
        exact List.mem_append_left _ member
    | again _ _ chosen => exact swept _ (fun l member => member) chosen
    | descended _ _ _ _ chosen => exact swept _ (fun l member => member) chosen
    | restarted _ _ _ _ _ chosen =>
        refine ⟨?_, ?_, most⟩
        · rw [chosen]
          exact List.nodup_singleton origin
        · rw [chosen]
          simp only [List.mem_singleton]
          exact rooted_root

theorem grown_of_rounds (pos : 1 ≤ level) {L n : ℕ} {start x : ZoomConfig S}
    (entry : Visiting P db origin level L start.1.chosen 0 start.1)
    (agree : AgreeOff scratch start.2.2 db.store) (first : Grown db origin size start.1)
    (rounds : ZoomRounds P S origin size level n start x) : Grown db origin size x.1 := by
  have kept : ∀ s t, (Known P db origin level size start s ∧ Grown db origin size s.1) →
      Going size s.1 → bodyRound (zoomRound P origin size level) (machine S) s = .ok t →
      Known P db origin level size start t ∧ Grown db origin size t.1 := by
    intro s t both go next
    exact ⟨both.1.step pos go next, both.2.step pos both.1 go next⟩
  exact (rounds.invariant kept ⟨known_of_rounds pos entry agree (.refl start), first⟩).2

theorem exit_of_returned {fuel : ℕ} {tape tape' : Tape} {start : ZoomState} {store' : Store S}
    (started : run (machine S) (zoomStart P origin level) tape db.store = (.ok start, tape', store'))
    {chosen : List String}
    (returned : (run (machine S) (zoomChosen P fuel origin size level) tape db.store).1 = .ok chosen) :
    ∃ n x, ZoomRounds P S origin size level n (start, tape', store') x ∧ ¬ Going size x.1 ∧
      x.1.chosen = chosen := by
  rw [zoomChosen, run_bind, started] at returned
  simp only [zoomLoop_eq, run_bind] at returned
  have ran := run_whileLoop PyErr.looping (Going size) (zoomRound P origin size level) (machine S)
    fuel (start, tape', store')
  dsimp only at ran
  generalize run (machine S) (whileLoop PyErr.looping (Going size) (zoomRound P origin size level)
    fuel start) tape' store' = result at returned ran
  obtain ⟨outcome, tape, store⟩ := result
  cases outcome with
  | error e => cases returned
  | ok s =>
      obtain rfl : s.chosen = chosen := Except.ok.inj returned
      rcases ran with ⟨y, _, out⟩ | ⟨n, y, _, rounds, stop, out⟩ | ⟨n, y, e, _, _, _, _, out⟩
      · cases out
      · obtain rfl : s = y.1 := Except.ok.inj out
        exact ⟨n, y, rounds, stop, rfl⟩
      · cases out

/-- Whenever the loop of `/zoom` returns, it has chosen the origin and at least `size` artists,
less than a path more, and with every artist a predecessor one step nearer to the origin. -/
theorem zoomChosen_returns (P : Platform F) (db : MusicDb S) (origin : String) (size level : ℤ)
    (one : 1 ≤ size) (pos : 1 ≤ level) (tape : Tape) (fuel : ℕ) (chosen : List String)
    (returned : (run (machine S) (zoomChosen P fuel origin size level) tape db.store).1 =
      .ok chosen) :
    ∃ s, Visits P db origin size level tape s ∧ ¬ Going size s ∧ s.chosen = chosen ∧
      chosen.Nodup ∧ origin ∈ chosen ∧ size ≤ chosen.length ∧
      (chosen.length : ℤ) ≤ size - 1 + deepest s.distances ∧
      (∀ a ∈ chosen, ∃ d, AtDist db.Adj origin d a) ∧
      (∀ a ∈ chosen, ∀ d ≥ 1, AtDist db.Adj origin d a →
        ∃ p ∈ chosen, AtDist db.Adj origin (d - 1) p ∧ a ∈ (db.neighbours p).members) ∧
      ∀ a ∈ chosen, ∃ d path, Geodesic db.Adj origin d path ∧ path.head? = some a ∧
        ∀ v ∈ path, v ∈ chosen := by
  obtain ⟨start, tape', store', started, agree, _, begun, entry⟩ :=
    run_zoomStart P db origin pos tape
  have first : Grown db origin size start := by
    constructor
    · rw [begun]
      exact List.nodup_singleton origin
    · rw [begun]
      simp only [List.mem_singleton]
      exact rooted_root
    · rw [begun, List.length_singleton, entry.distances, deepest_table]
      omega
  rw [← begun] at entry
  obtain ⟨n, x, rounds, stop, rfl⟩ := exit_of_returned started returned
  have grown := grown_of_rounds pos entry agree first rounds
  refine ⟨x.1, ⟨start, tape', store', n, x, started, rounds, rfl⟩, stop, rfl, grown.nodup,
    grown.rooted.root, not_lt.mp stop, grown.most, grown.rooted.placed, ?_, ?_⟩
  · intro a member d far dist
    rw [← Nat.sub_add_cancel far] at dist
    obtain ⟨p, inside, near, edge⟩ := grown.rooted.closed a (d - 1) member dist
    exact ⟨p, inside, near, edge⟩
  · intro a member
    obtain ⟨d, dist⟩ := grown.rooted.placed a member
    obtain ⟨path, geodesic, head, inside⟩ := grown.rooted.exists_geodesic member dist
    exact ⟨d, path, geodesic, head, inside⟩

/-- Three artists are asked for at level 1: the loop restarts once and takes the whole row. -/
theorem zoomChosen_returns_row :
    ∃ s, Visits Platform.plain rowDb "a" 3 1 (fun _ => 0) s ∧ ¬ Going 3 s ∧
      s.chosen = ["c", "b", "a"] ∧ ["c", "b", "a"].Nodup ∧ "a" ∈ ["c", "b", "a"] ∧
      (3 : ℤ) ≤ ["c", "b", "a"].length ∧
      (["c", "b", "a"].length : ℤ) ≤ 3 - 1 + deepest s.distances ∧
      (∀ v ∈ ["c", "b", "a"], ∃ d, AtDist rowDb.Adj "a" d v) ∧
      (∀ v ∈ ["c", "b", "a"], ∀ d ≥ 1, AtDist rowDb.Adj "a" d v →
        ∃ p ∈ ["c", "b", "a"], AtDist rowDb.Adj "a" (d - 1) p ∧ v ∈ (rowDb.neighbours p).members) ∧
      ∀ v ∈ ["c", "b", "a"], ∃ d path, Geodesic rowDb.Adj "a" d path ∧ path.head? = some v ∧
        ∀ u ∈ path, u ∈ ["c", "b", "a"] :=
  zoomChosen_returns Platform.plain rowDb "a" 3 1 (by decide) (by decide) (fun _ => 0) 6
    ["c", "b", "a"] (by decide +kernel)

end Phonograph.Server.ZoomResult
