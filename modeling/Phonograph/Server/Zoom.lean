import Phonograph.Server.ZoomVisit

/-! # The zoom loop

Two questions about the loop of `/zoom`: whether it takes a path from a leaf
that has none left, and whether it ends.  Both are decided level by level.  A
visit goes wrong when a leaf has fewer shortest paths than another leaf of its
level and the visit does not stop `InTime`.  The search restarts one level
deeper as long as the artists it can reach are fewer than `size`. -/

set_option autoImplicit false

namespace Phonograph.Server.Zoom

open Phonograph.Lib Phonograph.Server.Redis Phonograph.Server.Python
open Phonograph.Server.Database Phonograph.Server.Paths Phonograph.Server.PathLevels
open Phonograph.Server.Engines Phonograph.Server.Igrapher Phonograph.Server.Routes
open Phonograph.Server.ZoomSweep Phonograph.Server.ZoomVisit

variable {F S : Type} [Score S] (P : Platform F)

/-! ## The loop as rounds -/

/-- The part of `zoom` that ends with its loop. -/
def zoomChosen (fuel : ℕ) (origin : String) (size level : ℤ) : Handler (List String) := do
  let start ← zoomStart P origin level
  zoomLoop P origin size level fuel start

theorem zoom_eq (fuel : ℕ) (args : String → Option String) :
    zoom P fuel args = do
      let origin ← arg args "origin"
      let size ← intArg args "size"
      let level ← intArg args "level"
      let chosen ← zoomChosen P fuel origin size level
      let g ← igrapher P (P.setOrder chosen)
      return .graph (← d3Dictify P g (some origin)) := by
  simp only [zoom, zoomChosen, bind_assoc]

def Going (size : ℤ) (s : ZoomState) : Prop := (s.chosen.length : ℤ) < size

instance (size : ℤ) : DecidablePred (Going size) :=
  fun s => inferInstanceAs (Decidable ((s.chosen.length : ℤ) < size))

abbrev ZoomConfig (S : Type) := Config String (Option (Value S)) ZoomState

abbrev ZoomRounds (S : Type) [Score S] (origin : String) (size level : ℤ) :
    ℕ → ZoomConfig S → ZoomConfig S → Prop :=
  Rounds (fun x => Going size x.1) (bodyRound (zoomRound P origin size level) (machine S))

theorem zoomLoop_eq (origin : String) (size level : ℤ) : ∀ (fuel : ℕ) (s : ZoomState),
    zoomLoop P origin size level fuel s =
      whileLoop PyErr.looping (Going size) (zoomRound P origin size level) fuel s >>=
        fun t => pure t.chosen := by
  intro fuel
  induction fuel with
  | zero => intro s; rfl
  | succ fuel ih =>
      intro s
      rw [zoomLoop, whileLoop]
      by_cases go : (s.chosen.length : ℤ) < size
      · rw [if_pos go, if_pos (show Going size s from go), bind_assoc]
        exact bind_congr fun t => ih t
      · rw [if_neg go, if_neg (show ¬ Going size s from go)]
        rfl

section Start
variable {P} {db : MusicDb S} {origin : String} {size level : ℤ} {tape tape' : Tape}
  {start : ZoomState} {store' : Store S}
  (started : run (machine S) (zoomStart P origin level) tape db.store = (.ok start, tape', store'))
include started

theorem run_zoomChosen_error (fuel : ℕ) (error : PyErr) :
    (run (machine S) (zoomChosen P fuel origin size level) tape db.store).1 = .error error ↔
      (run (machine S) (whileLoop PyErr.looping (Going size) (zoomRound P origin size level) fuel
        start) tape' store').1 = .error error := by
  rw [zoomChosen, run_bind, started]
  simp only [zoomLoop_eq, run_bind]
  generalize run (machine S) (whileLoop PyErr.looping (Going size) (zoomRound P origin size level)
    fuel start) tape' store' = result
  obtain ⟨outcome, tape, store⟩ := result
  cases outcome with
  | error error' =>
      constructor
      · intro same
        rw [Except.error.inj same]
      · intro same
        rw [Except.error.inj same]
  | ok s =>
      constructor
      · intro same
        cases same
      · intro same
        cases same

end Start

def Visits (db : MusicDb S) (origin : String) (size level : ℤ) (tape : Tape) (s : ZoomState) :
    Prop :=
  ∃ start tape' store' n x,
    run (machine S) (zoomStart P origin level) tape db.store = (.ok start, tape', store') ∧
    ZoomRounds P S origin size level n (start, tape', store') x ∧ x.1 = s

/-! ## Visits that stop in time -/

/-- `determine_paths(leaf, distances, c)`. -/
def pathsOf (s : ZoomState) (leaf : String) : List Path :=
  (determinePaths leaf s.distances s.c).toOption.getD []

def lastPaths (paths : List Path) (n : ℕ) : List String := (paths.reverse.take n).flatten

/-- The artists chosen after `n` sweeps over the level, and over `front` once more. -/
def gathered (s : ZoomState) (n : ℕ) (front : List String) : List String :=
  setUpdate s.chosen ((s.rankedLeaves.flatMap fun l => lastPaths (pathsOf s l) n) ++
    front.flatMap fun l => lastPaths (pathsOf s l) (n + 1))

/-- A leaf with fewer paths than another leaf of its level is not visited again: `size`
artists are gathered before its paths are used up and its next turn comes. -/
def InTime (size : ℤ) (s : ZoomState) : Prop :=
  ∀ front leaf back, s.rankedLeaves = front ++ leaf :: back →
    (∃ other ∈ s.rankedLeaves, (pathsOf s leaf).length < (pathsOf s other).length) →
    size ≤ (gathered s (pathsOf s leaf).length front).length

theorem mem_of_append_eq {front back front' back' : List String} {x : String}
    (same : front ++ x :: back = front' ++ back') (before : x ∉ front') :
    ∀ l ∈ front', l ∈ front := by
  intro l member
  rcases List.append_eq_append_iff.mp same with ⟨c, rfl, rest⟩ | ⟨c, rfl, rest⟩
  · cases c with
    | nil => rwa [List.append_nil] at member
    | cons y c =>
        obtain ⟨rfl, _⟩ := List.cons.inj rest
        exact absurd (List.mem_append_right _ (List.mem_cons_self ..)) before
  · exact List.mem_append_left _ member

section InTime
variable {P} {db : MusicDb S} {origin : String} {level size : ℤ} {L : ℕ} {s : ZoomState}
  {entered : List String} {j : ℕ}

theorem pathsOf_eq (visiting : Visiting P db origin level L entered j s) {leaf : String}
    (member : leaf ∈ s.rankedLeaves) :
    pathsOf s leaf = (turnsOf P db origin s.c leaf).reverse := by
  rw [pathsOf, visiting.distances, determinePaths_turns P visiting.low
    ((visiting.leaves leaf).mp member) visiting.high]
  rfl

theorem mem_gathered (visiting : Visiting P db origin level L entered j s) {n : ℕ}
    {front : List String} (inside : ∀ l ∈ front, l ∈ s.rankedLeaves) (a : String) :
    a ∈ gathered s n front ↔ a ∈ s.chosen ∨
      (∃ leaf ∈ s.rankedLeaves, ∃ path ∈ (turnsOf P db origin s.c leaf).take n, a ∈ path) ∨
      ∃ leaf ∈ front, ∃ path ∈ (turnsOf P db origin s.c leaf).take (n + 1), a ∈ path := by
  have last : ∀ leaf ∈ s.rankedLeaves, ∀ k, a ∈ lastPaths (pathsOf s leaf) k ↔
      ∃ path ∈ (turnsOf P db origin s.c leaf).take k, a ∈ path := by
    intro leaf member k
    rw [lastPaths, pathsOf_eq visiting member, List.reverse_reverse, List.mem_flatten]
  rw [gathered, setUpdate, List.mem_union_iff, List.mem_append, List.mem_flatMap,
    List.mem_flatMap, or_comm]
  refine or_congr Iff.rfl (or_congr ?_ ?_)
  · exact exists_congr fun leaf => and_congr_right fun member => last leaf member n
  · exact exists_congr fun leaf => and_congr_right fun member =>
      last leaf (inside leaf member) (n + 1)

theorem nodup_gathered (visiting : Visiting P db origin level L entered j s) (n : ℕ)
    (front : List String) : (gathered s n front).Nodup :=
  List.Nodup.union _ visiting.nodup

structure During (P : Platform F) (db : MusicDb S) (origin : String) (level : ℤ) (L : ℕ)
    (e : ZoomState) (j : ℕ) (s : ZoomState) : Prop where
  entry : Visiting P db origin level L e.chosen 0 e
  now : Visiting P db origin level L e.chosen j s
  leaves : s.rankedLeaves = e.rankedLeaves
  level : s.c = e.c

theorem During.eq_zero {e : ZoomState} (during : During P db origin level L e j s)
    (fresh : ∀ leaf ∈ s.rankedLeaves, leaf ∉ s.paths) : j = 0 := by
  by_contra later
  obtain ⟨leaf, member, _⟩ := during.now.more (Nat.pos_of_ne_zero later)
  rcases during.now.holds leaf member with stored | ⟨_, zero⟩
  · exact fresh leaf member (AList.lookup_isSome.mp (by rw [stored]; rfl))
  · exact later zero

theorem During.length_pathsOf {e : ZoomState} (during : During P db origin level L e j s)
    {leaf : String} (member : leaf ∈ e.rankedLeaves) :
    (pathsOf e leaf).length = (turnsOf P db origin s.c leaf).length := by
  rw [pathsOf_eq during.entry member, List.length_reverse, during.level]

theorem During.not_inTime {e : ZoomState} (during : During P db origin level L e j s)
    {front back : List String} {leaf : String} (split : s.rankedLeaves = front ++ leaf :: back)
    (used : (turnsOf P db origin s.c leaf).length = j)
    (few : ((addTurns (turnsOf P db origin s.c) j front s.chosen).length : ℤ) < size) :
    ¬ InTime size e := by
  intro inTime
  have member : ∀ l ∈ front ++ leaf :: back, l ∈ e.rankedLeaves := by
    intro l inside
    rw [← during.leaves, split]
    exact inside
  have inLeaves : leaf ∈ e.rankedLeaves := member leaf (by simp)
  have pos := turnsOf_pos P during.entry.low ((during.entry.leaves leaf).mp inLeaves)
  have length : (pathsOf e leaf).length = j := by rw [during.length_pathsOf inLeaves, used]
  obtain ⟨other, inOther, more⟩ := during.now.more (by rw [← used, during.level]; exact pos)
  rw [during.leaves] at inOther split
  have enough := inTime front leaf back split ⟨other, inOther, by
    rw [length, during.length_pathsOf inOther]
    exact more⟩
  rw [length] at enough
  have sub : ∀ a ∈ gathered e j front, a ∈ addTurns (turnsOf P db origin s.c) j front s.chosen := by
    intro a inside
    rw [mem_addTurns, during.now.chosen, during.leaves, during.level]
    rcases (mem_gathered during.entry (fun l inFront => member l (List.mem_append_left _ inFront))
      a).mp inside with old | swept | ⟨l, inFront, path, among, inPath⟩
    · exact Or.inl (Or.inl old)
    · exact Or.inl (Or.inr swept)
    · rw [List.take_add_one, List.mem_append, Option.mem_toList] at among
      rcases among with early | now
      · exact Or.inl (Or.inr ⟨l, member l (List.mem_append_left _ inFront), path, early, inPath⟩)
      · exact Or.inr ⟨l, inFront, path, now, inPath⟩
  have le := length_le_of_subset (nodup_gathered during.entry j front) sub
  omega

/-- The artists that a sweep adds before the paths of the leaf are used up, or before the
leaf's next turn, are among those gathered. -/
theorem During.mem_gathered_of_mem_addTurns {e : ZoomState}
    (during : During P db origin level L e j s) {front back front' back' : List String}
    {leaf : String} (split : e.rankedLeaves = front ++ leaf :: back)
    (split' : s.rankedLeaves = front' ++ back')
    (ready : ∀ l ∈ front', j < (turnsOf P db origin s.c l).length) :
    ∀ a ∈ addTurns (turnsOf P db origin s.c) j front' s.chosen,
      a ∈ gathered e (pathsOf e leaf).length front := by
  have inLeaves : leaf ∈ e.rankedLeaves := by simp [split]
  have inFront : ∀ l ∈ front, l ∈ e.rankedLeaves := by
    intro l member
    rw [split]
    exact List.mem_append_left _ member
  have bound := during.now.taken leaf (by rw [during.leaves]; exact inLeaves)
  rw [← during.length_pathsOf inLeaves] at bound
  intro a member
  rw [mem_addTurns, during.now.chosen, during.leaves, during.level] at member
  rw [mem_gathered during.entry inFront]
  rcases member with (old | ⟨l, inL, path, early, inPath⟩) | ⟨l, inL, path, now, inPath⟩
  · exact Or.inl old
  · exact Or.inr (Or.inl ⟨l, inL, path, List.take_subset_take_left _ bound early, inPath⟩)
  · have inside : path ∈ (turnsOf P db origin e.c l).take (j + 1) := by
      rw [List.take_add_one, List.mem_append, Option.mem_toList]
      exact Or.inr now
    rcases Nat.eq_or_lt_of_le bound with last | before
    · -- In the last sweep the leaf itself is not reached.
      refine Or.inr (Or.inr ⟨l, ?_, path, last ▸ inside, inPath⟩)
      rw [during.leaves, split] at split'
      refine mem_of_append_eq split' (fun reached => ?_) l inL
      have more := ready leaf reached
      rw [← during.length_pathsOf inLeaves] at more
      omega
    · have early := List.take_subset_take_left _ before inside
      refine Or.inr (Or.inl ⟨l, ?_, path, early, inPath⟩)
      rw [← during.leaves, split']
      exact List.mem_append_left _ inL

theorem During.not_even {e : ZoomState} (during : During P db origin level L e j s)
    {leaf : String} (inLeaves : leaf ∈ e.rankedLeaves)
    (less : ∃ other ∈ e.rankedLeaves, (pathsOf e leaf).length < (pathsOf e other).length) :
    ¬ ∀ l ∈ s.rankedLeaves, (turnsOf P db origin s.c l).length = j + 1 := by
  intro even
  obtain ⟨other, inOther, more⟩ := less
  rw [during.length_pathsOf inLeaves, during.length_pathsOf inOther] at more
  rw [← during.leaves] at inLeaves inOther
  rw [even leaf inLeaves, even other inOther] at more
  omega

end InTime

section Raises
variable {P} {db : MusicDb S} {origin : String} {level size : ℤ} (pos : 1 ≤ level)
include pos

/-- A visit that cannot stop in time comes to the leaf whose paths are used up. -/
theorem raises_of_late {L : ℕ} {e : ZoomState} {front back : List String} {leaf : String}
    (split : e.rankedLeaves = front ++ leaf :: back)
    (less : ∃ other ∈ e.rankedLeaves, (pathsOf e leaf).length < (pathsOf e other).length)
    (few : ((gathered e (pathsOf e leaf).length front).length : ℤ) < size) :
    ∀ (left j : ℕ) (x : ZoomConfig S), (pathsOf e leaf).length - j = left →
      During P db origin level L e j x.1 → AgreeOff scratch x.2.2 db.store → Going size x.1 →
      ∃ n y, ZoomRounds P S origin size level n x y ∧ Going size y.1 ∧
        bodyRound (zoomRound P origin size level) (machine S) y = .error .indexError := by
  have inLeaves : leaf ∈ e.rankedLeaves := by simp [split]
  intro left
  induction left using Nat.strong_induction_on with
  | _ left ih =>
      intro j x steps during agree go
      have outcome := during.now.round pos agree go
      generalize result : bodyRound (zoomRound P origin size level) (machine S) x = r at outcome
      cases outcome with
      | raised => exact ⟨0, x, .refl x, go, result⟩
      | filled front' back' y split' ready chosen enough =>
          -- The artists this sweep adds are among those gathered, which are too few.
          have nodup : y.1.chosen.Nodup := by
            rw [chosen]
            exact nodup_addTurns _ _ _ _ during.now.nodup
          rw [chosen] at nodup enough
          have le := length_le_of_subset nodup
            (during.mem_gathered_of_mem_addTurns split split' ready)
          omega
      | again y short chosen leaves level visiting agree =>
          have next : During P db origin _ L e (j + 1) y.1 :=
            ⟨during.entry, visiting, leaves.trans during.leaves, level.trans during.level⟩
          have bound := next.now.taken leaf (by rw [next.leaves]; exact inLeaves)
          rw [← next.length_pathsOf inLeaves] at bound
          have goY : Going size y.1 := by
            rw [Going, chosen]
            exact short
          obtain ⟨n, z, rounds, goZ, raised⟩ :=
            ih _ (by omega) (j + 1) y rfl next agree goY
          exact ⟨n + 1, z, .cons go result rounds, goZ, raised⟩
      | descended y even => exact absurd even (during.not_even inLeaves less)
      | restarted y even => exact absurd even (during.not_even inLeaves less)

variable (P db origin level size) in
omit pos in
/-- The loop came from `start` to `x`; it is full there, or in a visit whose entry it passed. -/
def Known (start x : ZoomConfig S) : Prop :=
  (∃ n, ZoomRounds P S origin size level n start x) ∧ (¬ Going size x.1 ∨
    ∃ L e j m, During P db origin level L e.1 j x.1 ∧ AgreeOff scratch x.2.2 db.store ∧
      ZoomRounds P S origin size level m start e ∧ Going size e.1)

theorem Known.step {start s t : ZoomConfig S} (known : Known P db origin level size start s)
    (go : Going size s.1)
    (next : bodyRound (zoomRound P origin size level) (machine S) s = .ok t) :
    Known P db origin level size start t := by
  obtain ⟨⟨n, reached⟩, full | ⟨L, e, j, m, during, agree, passed, goE⟩⟩ := known
  · exact absurd go full
  · have there := reached.trans (.one go next)
    refine ⟨⟨_, there⟩, ?_⟩
    by_cases goT : Going size t.1
    · right
      have outcome := during.now.round pos agree go
      rw [next] at outcome
      cases outcome with
      | filled _ _ _ _ _ _ enough => exact absurd goT (not_lt.mpr enough)
      | again _ _ _ leaves same visiting agree =>
          exact ⟨L, e, j + 1, m, ⟨during.entry, visiting, leaves.trans during.leaves,
            same.trans during.level⟩, agree, passed, goE⟩
      | descended _ _ _ _ _ visiting agree =>
          exact ⟨L, t, 0, _, ⟨visiting, visiting, rfl, rfl⟩, agree, there, goT⟩
      | restarted _ _ _ _ _ chosen visiting agree =>
          rw [← chosen] at visiting
          exact ⟨L + 1, t, 0, _, ⟨visiting, visiting, rfl, rfl⟩, agree, there, goT⟩
    · exact Or.inl goT

theorem known_of_rounds {L n : ℕ} {start x : ZoomConfig S}
    (entry : Visiting P db origin level L start.1.chosen 0 start.1)
    (agree : AgreeOff scratch start.2.2 db.store)
    (rounds : ZoomRounds P S origin size level n start x) :
    Known P db origin level size start x := by
  refine rounds.invariant (fun s t known go next => known.step pos go next) ⟨⟨0, .refl start⟩, ?_⟩
  by_cases go : Going size start.1
  · exact Or.inr ⟨L, start, 0, 0, ⟨entry, entry, rfl, rfl⟩, agree, .refl start, go⟩
  · exact Or.inl go

end Raises

/-- The loop never takes a path from a leaf that has none left exactly when every visit of a
level stops in time. -/
theorem zoom_indexError_iff (db : MusicDb S) (origin : String) (size level : ℤ)
    (pos : 1 ≤ level) (tape : Tape) :
    (∀ fuel, (run (machine S) (zoomChosen P fuel origin size level) tape db.store).1 ≠
      .error .indexError) ↔
    ∀ s, Visits P db origin size level tape s → Going size s →
      (∀ leaf ∈ s.rankedLeaves, leaf ∉ s.paths) → InTime size s := by
  obtain ⟨start, tape', store', started, agree, _, chosen, entry⟩ :=
    run_zoomStart P db origin pos tape
  rw [← chosen] at entry
  have raises : (∃ fuel, (run (machine S) (zoomChosen P fuel origin size level) tape
      db.store).1 = .error .indexError) ↔ ∃ n y,
      ZoomRounds P S origin size level n (start, tape', store') y ∧ Going size y.1 ∧
        bodyRound (zoomRound P origin size level) (machine S) y = .error .indexError := by
    rw [← whileLoop_raises PyErr.looping (Going size) (zoomRound P origin size level) (machine S)
      (by decide) (start, tape', store')]
    exact exists_congr fun fuel => run_zoomChosen_error started fuel .indexError
  constructor
  · intro never s visits go fresh
    by_contra late
    obtain ⟨start', _, _, n, x, started', rounds, rfl⟩ := visits
    rw [started] at started'
    cases started'
    obtain ⟨_, full | ⟨L, e, j, _, during, agree, _, _⟩⟩ := known_of_rounds pos entry agree rounds
    · exact full go
    · obtain rfl := during.eq_zero fresh
      have entered := during.now.enter
      rw [InTime] at late
      push Not at late
      obtain ⟨front, leaf, back, split, less, few⟩ := late
      obtain ⟨m, y, rest, goY, raised⟩ := raises_of_late pos split less few _ 0 x rfl
        ⟨entered, entered, rfl, rfl⟩ agree go
      obtain ⟨fuel, bad⟩ := raises.mpr ⟨n + m, y, rounds.trans rest, goY, raised⟩
      exact never fuel bad
  · intro inTime fuel raised
    obtain ⟨n, y, rounds, go, fails⟩ := raises.mp ⟨fuel, raised⟩
    obtain ⟨_, full | ⟨L, e, j, m, during, agree, passed, goE⟩⟩ :=
      known_of_rounds pos entry agree rounds
    · exact full go
    · have outcome := during.now.round pos agree go
      rw [fails] at outcome
      cases outcome with
      | raised front leaf back split used few =>
          refine during.not_inTime split used few (inTime e.1 ?_ goE ?_)
          · exact ⟨start, tape', store', m, e, started, passed, rfl⟩
          · exact during.entry.fresh rfl

theorem zoom_indexError_iff_row :
    (∀ fuel, (run (machine ℤ) (zoomChosen Platform.plain fuel "a" 3 2) (fun _ => 0)
      rowDb.store).1 ≠ .error .indexError) ↔
    ∀ s, Visits Platform.plain rowDb "a" 3 2 (fun _ => 0) s → Going 3 s →
      (∀ leaf ∈ s.rankedLeaves, leaf ∉ s.paths) → InTime 3 s :=
  zoom_indexError_iff Platform.plain rowDb "a" 3 2 (by decide) fun _ => 0

/-- One way leads from `o` to `p`, through `l`; two lead to `q`, through `l` and `r`. -/
def forkEntries : List (String × Value ℤ) :=
  [("artist.neighbours:o", .set ⟨["l", "r"], by decide⟩),
   ("artist.neighbours:l", .set ⟨["o", "p", "q"], by decide⟩),
   ("artist.neighbours:r", .set ⟨["o", "q"], by decide⟩),
   ("artist.neighbours:p", .set ⟨["l"], by decide⟩),
   ("artist.neighbours:q", .set ⟨["l", "r"], by decide⟩)]

def forkDb : MusicDb ℤ := .ofEntries forkEntries (by decide) (by decide) (by decide) (by decide)
  (by decide)

/-- The second sweep comes to `p`, whose only path was taken in the first. -/
theorem zoom_raises_indexError :
    (run (machine ℤ) (zoomChosen Platform.plain 2 "o" 10 2) (fun _ => 0) forkDb.store).1 =
      .error .indexError := by
  decide +kernel

end Phonograph.Server.Zoom
