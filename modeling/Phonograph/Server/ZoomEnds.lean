import Phonograph.Server.Zoom

/-! # When the zoom loop ends

A pass searches to depth `L` and goes down its levels.  A pass that neither
fills the chosen set nor raises an error chooses every artist within distance
`L`, finds them fewer than `size` and restarts at depth `L + 1`.  So the loop
ends when `size` artists can be reached, or when some level has leaves with
different numbers of shortest paths; otherwise it restarts for ever. -/

set_option autoImplicit false

namespace Phonograph.Server.ZoomEnds

open Phonograph.Lib Phonograph.Server.Redis Phonograph.Server.Python
open Phonograph.Server.Database Phonograph.Server.Paths Phonograph.Server.PathLevels
open Phonograph.Server.Engines Phonograph.Server.Routes
open Phonograph.Server.ZoomSweep Phonograph.Server.ZoomVisit Phonograph.Server.Zoom

variable {F S : Type} [Score S] {P : Platform F} {db : MusicDb S} {origin : String}
  {level size : ℤ}

abbrev LoopEnds (P : Platform F) (S : Type) [Score S] (origin : String) (size level : ℤ) :
    ZoomConfig S → Prop :=
  Ends (fun x => Going size x.1) (bodyRound (zoomRound P origin size level) (machine S))

theorem loopEnds_of_full {x : ZoomConfig S} (full : ¬ Going size x.1) :
    LoopEnds P S origin size level x :=
  ⟨0, x, .refl x, fun go => absurd go full⟩

def EvenLevel (adj : String → String → Prop) (origin : String) (c : ℕ) : Prop :=
  ∀ a b, AtDist adj origin c a → AtDist adj origin c b →
    pathCount adj origin a = pathCount adj origin b

/-! ## A visit -/

section Visit
variable (pos : 1 ≤ level)
include pos

/-- The state `y` after the visit of the level of `x`: one level down, or at the top of a
deeper search. -/
def Left (P : Platform F) (db : MusicDb S) (origin : String) (level : ℤ) (L : ℕ)
    (swept : List String) (x y : ZoomState) : Prop :=
  (y.c + 1 = x.c ∧ y.chosen = swept ∧ Visiting P db origin level L y.chosen 0 y) ∨
    (x.c = 1 ∧ y.c = L + 1 ∧ y.chosen = [origin] ∧
      Visiting P db origin level (L + 1) [origin] 0 y)

omit pos in
/-- A sweep that leaves no path over has chosen every leaf. -/
theorem leaf_mem_swept {L j : ℕ} {entered : List String} {s : ZoomState}
    (visiting : Visiting P db origin level L entered j s)
    (even : ∀ leaf ∈ s.rankedLeaves, (turnsOf P db origin s.c leaf).length = j + 1)
    {leaf : String} (member : leaf ∈ s.rankedLeaves) :
    leaf ∈ addTurns (turnsOf P db origin s.c) j s.rankedLeaves s.chosen := by
  have dist := (visiting.leaves leaf).mp member
  obtain ⟨path, listed⟩ := List.exists_mem_of_length_pos (turnsOf_pos P visiting.low dist)
  rw [visiting.mem_swept]
  refine Or.inr ⟨leaf, member, path, ?_, (mem_path P visiting.low dist listed).1⟩
  rwa [List.take_of_length_le (even leaf member).le]

omit pos in
theorem evenLevel_of_swept {L j : ℕ} {entered : List String} {s : ZoomState}
    (visiting : Visiting P db origin level L entered j s)
    (even : ∀ leaf ∈ s.rankedLeaves, (turnsOf P db origin s.c leaf).length = j + 1) :
    EvenLevel db.Adj origin s.c := by
  intro a b distA distB
  rw [← length_turnsOf P visiting.low distA, ← length_turnsOf P visiting.low distB,
    even a ((visiting.leaves a).mpr distA), even b ((visiting.leaves b).mpr distB)]

theorem visit_ends {L : ℕ} {entered : List String} : ∀ (left j : ℕ) (x : ZoomConfig S) (most : ℕ),
    most - j = left → Visiting P db origin level L entered j x.1 →
    (∀ leaf ∈ x.1.rankedLeaves, (turnsOf P db origin x.1.c leaf).length ≤ most) →
    AgreeOff scratch x.2.2 db.store → Going size x.1 →
    LoopEnds P S origin size level x ∨ ∃ n y swept, 0 < n ∧
      ZoomRounds P S origin size level n x y ∧ AgreeOff scratch y.2.2 db.store ∧
      EvenLevel db.Adj origin x.1.c ∧ (swept.length : ℤ) < size ∧
      (∀ a ∈ entered, a ∈ swept) ∧ (∀ leaf ∈ x.1.rankedLeaves, leaf ∈ swept) ∧
      Left P db origin level L swept x.1 y.1 := by
  intro left
  induction left using Nat.strong_induction_on with
  | _ left ih =>
      intro j x most steps visiting bound agree go
      have keeps : ∀ a ∈ entered,
          a ∈ addTurns (turnsOf P db origin x.1.c) j x.1.rankedLeaves x.1.chosen :=
        fun a member => (visiting.mem_swept a).mpr (Or.inl member)
      have outcome := visiting.round pos agree go
      generalize result : bodyRound (zoomRound P origin size level) (machine S) x = r at outcome
      cases outcome with
      | raised => exact Or.inl ⟨0, x, .refl x, fun _ => ⟨_, result⟩⟩
      | filled _ _ y _ _ _ enough =>
          exact Or.inl (Ends.of_rounds (.one go result) (loopEnds_of_full (not_lt.mpr enough)))
      | again y short chosen leaves same next agree =>
          obtain ⟨leaf, member, more⟩ := next.more (Nat.succ_pos j)
          rw [leaves] at member
          rw [same] at more
          have most' := bound leaf member
          have goY : Going size y.1 := by
            rw [Going, chosen]
            exact short
          have bound' : ∀ leaf ∈ y.1.rankedLeaves, (turnsOf P db origin y.1.c leaf).length ≤ most := by
            rw [leaves, same]
            exact bound
          rcases ih _ (by omega) (j + 1) y most rfl next bound' agree goY with
            ends | ⟨n, z, swept, _, rounds, agree, even, few, old, new, left⟩
          · exact Or.inl (Ends.of_rounds (.one go result) ends)
          · rw [same] at even
            rw [leaves] at new
            refine Or.inr ⟨n + 1, z, swept, Nat.succ_pos n, .cons go result rounds, agree, even, few,
              old, new, ?_⟩
            rw [Left] at left ⊢
            rwa [same] at left
      | descended y even few down chosen next agree =>
          exact Or.inr ⟨1, y, _, Nat.one_pos, .one go result, agree, evenLevel_of_swept visiting even,
            few, keeps, fun leaf => leaf_mem_swept visiting even, Or.inl ⟨down, chosen, next⟩⟩
      | restarted y even few bottom top chosen next agree =>
          exact Or.inr ⟨1, y, _, Nat.one_pos, .one go result, agree, evenLevel_of_swept visiting even,
            few, keeps, fun leaf => leaf_mem_swept visiting even, Or.inr ⟨bottom, top, chosen, next⟩⟩

end Visit

/-! ## A pass -/

structure Top (P : Platform F) (db : MusicDb S) (origin : String) (level : ℤ) (L : ℕ)
    (x : ZoomConfig S) : Prop where
  visiting : Visiting P db origin level L x.1.chosen 0 x.1
  agree : AgreeOff scratch x.2.2 db.store
  top : x.1.c = L
  chosen : x.1.chosen = [origin]

/-- From level `c` of a search of depth `L` the loop gets to the top of the next one.  It found
the levels up to `c` even, and all the artists within distance `L` fewer than `size`. -/
def Restarts (P : Platform F) (db : MusicDb S) (origin : String) (size level : ℤ) (L c : ℕ)
    (x : ZoomConfig S) : Prop :=
  ∃ (n : ℕ) (y : ZoomConfig S) (swept : List String),
    ZoomRounds P S origin size level n x y ∧ Top P db origin level (L + 1) y ∧
    (∀ d, 0 < d → d ≤ c → EvenLevel db.Adj origin d) ∧ (swept.length : ℤ) < size ∧
    ∀ d a, d ≤ L → AtDist db.Adj origin d a → a ∈ swept

section Pass
variable (pos : 1 ≤ level)
include pos

theorem descent_ends {L : ℕ} : ∀ (c : ℕ) (x : ZoomConfig S), x.1.c = c →
    Visiting P db origin level L x.1.chosen 0 x.1 → AgreeOff scratch x.2.2 db.store →
    origin ∈ x.1.chosen → (∀ d a, c < d → d ≤ L → AtDist db.Adj origin d a → a ∈ x.1.chosen) →
    LoopEnds P S origin size level x ∨ Restarts P db origin size level L c x := by
  intro c
  induction c with
  | zero =>
      intro x at_zero visiting
      have low := visiting.low
      omega
  | succ c ih =>
      intro x at_c visiting agree begun above
      by_cases go : Going size x.1
      · have bounded : ∃ most, ∀ leaf ∈ x.1.rankedLeaves,
            (turnsOf P db origin x.1.c leaf).length ≤ most :=
          ⟨(x.1.rankedLeaves.map fun leaf => (turnsOf P db origin x.1.c leaf).length).sum,
            fun leaf member => List.single_le_sum (fun _ _ => Nat.zero_le _) _
              (List.mem_map.mpr ⟨leaf, member, rfl⟩)⟩
        obtain ⟨most, bound⟩ := bounded
        rcases visit_ends pos _ 0 x most rfl visiting bound agree go with
          ends | ⟨n, y, swept, _, rounds, agree, even, few, old, new, left⟩
        · exact Or.inl ends
        · have reached : ∀ d a, c < d → d ≤ L → AtDist db.Adj origin d a → a ∈ swept := by
            intro d a deeper le dist
            rcases Nat.eq_or_lt_of_le deeper with rfl | deeper
            · exact new a ((visiting.leaves a).mpr (by rw [at_c]; exact dist))
            · exact old a (above d a deeper le dist)
          rw [at_c] at even
          rcases left with ⟨down, chosen, next⟩ | ⟨bottom, top, chosen, next⟩
          · rcases ih y (by omega) next agree (by rw [chosen]; exact old origin begun)
                (by rw [chosen]; exact reached) with
              ends | ⟨m, z, all, rest, restart, evens, few, whole⟩
            · exact Or.inl (Ends.of_rounds rounds ends)
            · refine Or.inr ⟨n + m, z, all, rounds.trans rest, restart, fun d low le => ?_, few, whole⟩
              rcases Nat.lt_succ_iff_lt_or_eq.mp (Nat.lt_succ_of_le le) with less | rfl
              · exact evens d low (Nat.le_of_lt_succ less)
              · exact even
          · obtain rfl : c = 0 := by omega
            refine Or.inr ⟨n, y, swept, rounds, ⟨chosen ▸ next, agree, top, chosen⟩,
              fun d low le => ?_, few, fun d a le dist => ?_⟩
            · obtain rfl : d = 0 + 1 := by omega
              exact even
            · rcases Nat.eq_zero_or_pos d with rfl | low
              · rw [atDist_zero.mp dist]
                exact old origin begun
              · exact reached d a low le dist
      · exact Or.inl (loopEnds_of_full go)

theorem pass_ends {L : ℕ} {x : ZoomConfig S} (top : Top P db origin level L x) :
    LoopEnds P S origin size level x ∨ Restarts P db origin size level L L x := by
  refine descent_ends pos L x top.top top.visiting top.agree ?_ fun d a deeper le _ => ?_
  · rw [top.chosen]
    exact List.mem_singleton_self origin
  · omega

/-- A loop that does not end makes a pass of every depth. -/
theorem passes {L : ℕ} {x : ZoomConfig S} (top : Top P db origin level L x)
    (forever : ¬ LoopEnds P S origin size level x) (k : ℕ) :
    (∀ d, 0 < d → d ≤ L + k → EvenLevel db.Adj origin d) ∧ ∃ swept : List String,
      (swept.length : ℤ) < size ∧ ∀ d a, d ≤ L + k → AtDist db.Adj origin d a → a ∈ swept := by
  induction k generalizing L x with
  | zero =>
      rcases pass_ends pos top with ends | ⟨n, y, swept, _, _, even, few, whole⟩
      · exact absurd ends forever
      · exact ⟨even, swept, few, whole⟩
  | succ k ih =>
      rcases pass_ends pos top with ends | ⟨n, y, swept, rounds, next, _⟩
      · exact absurd ends forever
      · have later := ih next fun ends => forever (Ends.of_rounds rounds ends)
        rwa [Nat.add_right_comm] at later

end Pass

def Reach (db : MusicDb S) (origin : String) : Set String :=
  {a | ∃ n, Walk db.Adj n origin a}

/-- A loop that does not end finds every level even and fewer than `size` artists. -/
theorem of_forever (pos : 1 ≤ level) {L : ℕ} {x : ZoomConfig S} (top : Top P db origin level L x)
    (forever : ¬ LoopEnds P S origin size level x) :
    (Reach db origin).encard < size.toNat ∧ ∀ c, EvenLevel db.Adj origin c := by
  constructor
  · by_contra enough
    obtain ⟨some_, inside, count⟩ := Set.exists_subset_encard_eq (not_lt.mp enough)
    have finite : some_.Finite := Set.finite_of_encard_eq_coe count
    -- Some depth reaches all of them.
    obtain ⟨k, within⟩ : ∃ k, ∀ a ∈ some_, ∃ d ≤ k, AtDist db.Adj origin d a := by
      have each : ∀ a ∈ some_, ∃ d, AtDist db.Adj origin d a := by
        intro a member
        obtain ⟨n, walk⟩ := inside member
        obtain ⟨d, _, dist⟩ := exists_atDist_of_walk walk
        exact ⟨d, dist⟩
      choose! dist at_dist using each
      obtain ⟨k, bound⟩ := (finite.image dist).bddAbove
      exact ⟨k, fun a member => ⟨dist a, bound ⟨a, member, rfl⟩, at_dist a member⟩⟩
    obtain ⟨_, swept, few, whole⟩ := passes pos top forever k
    have sub : some_ ⊆ {a | a ∈ swept.dedup} := by
      intro a member
      obtain ⟨d, le, dist⟩ := within a member
      exact List.mem_dedup.mpr (whole d a (le_trans le (Nat.le_add_left k L)) dist)
    have le := Set.encard_le_encard sub
    rw [count, encard_members (List.nodup_dedup swept)] at le
    have short : swept.dedup.length ≤ swept.length := (List.dedup_sublist swept).length_le
    have := Nat.cast_le.mp le
    omega
  · intro c
    rcases Nat.eq_zero_or_pos c with rfl | low
    · intro a b distA distB
      rw [atDist_zero.mp distA, atDist_zero.mp distB]
    · exact (passes pos top forever c).1 c low (Nat.le_add_left c L)

/-! ## Running for ever -/

def Wandering (P : Platform F) (db : MusicDb S) (origin : String) (level : ℤ)
    (x : ZoomConfig S) : Prop :=
  ∃ L entered j, Visiting P db origin level L entered j x.1 ∧ AgreeOff scratch x.2.2 db.store ∧
    ∀ a ∈ x.1.chosen, a ∈ Reach db origin

theorem Top.wandering {L : ℕ} {x : ZoomConfig S} (top : Top P db origin level L x) :
    Wandering P db origin level x := by
  refine ⟨_, _, 0, top.visiting, top.agree, fun a member => ?_⟩
  rw [top.chosen] at member
  rw [List.mem_singleton.mp member]
  exact ⟨0, .refl origin⟩

theorem reach_addTurns {L j : ℕ} {entered : List String} {s : ZoomState}
    (visiting : Visiting P db origin level L entered j s)
    (inside : ∀ a ∈ s.chosen, a ∈ Reach db origin) {front : List String}
    (part : ∀ l ∈ front, l ∈ s.rankedLeaves) :
    ∀ a ∈ addTurns (turnsOf P db origin s.c) j front s.chosen, a ∈ Reach db origin := by
  intro a member
  rcases (mem_addTurns _ _ _ _ _).mp member with old | ⟨leaf, inFront, path, taken, inPath⟩
  · exact inside a old
  · have dist := (visiting.leaves leaf).mp (part leaf inFront)
    obtain ⟨d, _, at_d⟩ :=
      (mem_path P visiting.low dist (List.mem_of_getElem? taken)).2 a inPath
    exact ⟨d, at_d.1⟩

theorem going_of_reach (few : (Reach db origin).encard < size.toNat) {chosen : List String}
    (nodup : chosen.Nodup) (inside : ∀ a ∈ chosen, a ∈ Reach db origin) :
    (chosen.length : ℤ) < size := by
  have le : {a | a ∈ chosen}.encard ≤ (Reach db origin).encard := Set.encard_le_encard inside
  rw [encard_members nodup] at le
  have less : (chosen.length : ℕ∞) < size.toNat := lt_of_le_of_lt le few
  have := Nat.cast_lt.mp less
  omega

theorem not_ends_of_few (pos : 1 ≤ level) (few : (Reach db origin).encard < size.toNat)
    (even : ∀ c, EvenLevel db.Adj origin c) {x : ZoomConfig S}
    (start : Wandering P db origin level x) : ¬ LoopEnds P S origin size level x := by
  refine not_ends_of_progress (Wandering P db origin level) (fun x wandering => ?_) start
  obtain ⟨L, entered, j, visiting, agree, inside⟩ := wandering
  have go : Going size x.1 := going_of_reach few visiting.nodup inside
  have outcome := visiting.round pos agree go
  generalize result : bodyRound (zoomRound P origin size level) (machine S) x = r at outcome
  cases outcome with
  | raised front leaf back split used _ =>
      have member : leaf ∈ x.1.rankedLeaves := by
        rw [split]
        simp
      have dist := (visiting.leaves leaf).mp member
      have later := turnsOf_pos P visiting.low dist
      obtain ⟨other, inOther, more⟩ := visiting.more (by omega)
      have distO := (visiting.leaves other).mp inOther
      rw [length_turnsOf P visiting.low dist] at used
      rw [length_turnsOf P visiting.low distO, even x.1.c other leaf distO dist] at more
      omega
  | filled front back y split _ chosen enough =>
      have part : ∀ l ∈ front, l ∈ x.1.rankedLeaves := by
        intro l member
        rw [split]
        exact List.mem_append_left _ member
      have short := going_of_reach few (nodup_addTurns _ j front _ visiting.nodup)
        (reach_addTurns visiting inside part)
      rw [chosen] at enough
      omega
  | again y _ chosen _ _ next agree =>
      refine ⟨1, y, Nat.one_pos, .one go result, L, entered, j + 1, next, agree, ?_⟩
      rw [chosen]
      exact reach_addTurns visiting inside fun l member => member
  | descended y _ _ _ chosen next agree =>
      refine ⟨1, y, Nat.one_pos, .one go result, L, _, 0, next, agree, ?_⟩
      rw [chosen]
      exact reach_addTurns visiting inside fun l member => member
  | restarted y _ _ _ _ chosen next agree =>
      refine ⟨1, y, Nat.one_pos, .one go result, L + 1, _, 0, next, agree, ?_⟩
      rw [chosen]
      intro a member
      rw [List.mem_singleton.mp member]
      exact ⟨0, .refl origin⟩

/-! ## The loop of the handler -/

theorem zoomChosen_ends (P : Platform F) (db : MusicDb S) (origin : String) (size level : ℤ)
    (pos : 1 ≤ level) (tape : Tape) : ∃ x : ZoomConfig S, Top P db origin level level.toNat x ∧
    ((∃ fuel, (run (machine S) (zoomChosen P fuel origin size level) tape db.store).1 ≠
      .error .looping) ↔ LoopEnds P S origin size level x) := by
  obtain ⟨start, tape', store', started, agree, top, chosen, entry⟩ :=
    run_zoomStart P db origin pos tape
  rw [← chosen] at entry
  refine ⟨(start, tape', store'), ⟨entry, agree, top, chosen⟩, ?_⟩
  have clean : ∀ n y, ZoomRounds P S origin size level n (start, tape', store') y →
      Going size y.1 →
      bodyRound (zoomRound P origin size level) (machine S) y ≠ .error .looping := by
    intro n y rounds go raised
    obtain ⟨_, full | ⟨L, e, j, _, during, agree, _, _⟩⟩ := known_of_rounds pos entry agree rounds
    · exact full go
    · have outcome := during.now.round pos agree go
      rw [raised] at outcome
      cases outcome
  rw [LoopEnds, ← whileLoop_ends PyErr.looping (Going size) (zoomRound P origin size level)
    (machine S) clean]
  refine exists_congr fun fuel => not_congr ?_
  exact run_zoomChosen_error started fuel .looping

/-- The loop of `/zoom` ends exactly when `size` artists can be reached from the origin, or
when some level has artists with different numbers of shortest paths. -/
theorem zoom_ends_iff (P : Platform F) (db : MusicDb S) (origin : String) (size level : ℤ)
    (pos : 1 ≤ level) (tape : Tape) :
    (∃ fuel, (run (machine S) (zoomChosen P fuel origin size level) tape db.store).1 ≠
      .error .looping) ↔
    (size.toNat : ℕ∞) ≤ {a | ∃ n, Walk db.Adj n origin a}.encard ∨
      ∃ c a b, AtDist db.Adj origin c a ∧ AtDist db.Adj origin c b ∧
        pathCount db.Adj origin a ≠ pathCount db.Adj origin b := by
  obtain ⟨x, top, ends⟩ := zoomChosen_ends P db origin size level pos tape
  rw [ends]
  constructor
  · intro ended
    by_contra neither
    rw [not_or, not_le] at neither
    have even : ∀ c, EvenLevel db.Adj origin c := by
      intro c a b distA distB
      by_contra ne
      exact neither.2 ⟨c, a, b, distA, distB, ne⟩
    exact not_ends_of_few pos neither.1 even top.wandering ended
  · intro either
    by_contra forever
    obtain ⟨few, even⟩ := of_forever pos top forever
    rcases either with enough | ⟨c, a, b, distA, distB, ne⟩
    · exact absurd few (not_lt.mpr enough)
    · exact ne (even c a b distA distB)

theorem zoom_ends_iff_row :
    (∃ fuel, (run (machine ℤ) (zoomChosen Platform.plain fuel "a" 3 1) (fun _ => 0)
      rowDb.store).1 ≠ .error .looping) ↔
    (((3 : ℤ).toNat : ℕ) : ℕ∞) ≤ {a | ∃ n, Walk rowDb.Adj n "a" a}.encard ∨
      ∃ c a b, AtDist rowDb.Adj "a" c a ∧ AtDist rowDb.Adj "a" c b ∧
        pathCount rowDb.Adj "a" a ≠ pathCount rowDb.Adj "a" b :=
  zoom_ends_iff Platform.plain rowDb "a" 3 1 (by decide) fun _ => 0

theorem reach_row : ∀ v ∈ Reach rowDb "a", v ∈ ["a", "b", "c"] := by
  have closed : ∀ x ∈ ["a", "b", "c"], ∀ y ∈ (rowDb.neighbours x).members, y ∈ ["a", "b", "c"] := by
    decide +kernel
  have within : ∀ n v, Walk rowDb.Adj n "a" v → v ∈ ["a", "b", "c"] := by
    intro n
    induction n with
    | zero =>
        intro v walk
        rw [walk_zero.mp walk]
        exact List.mem_cons_self ..
    | succ n ih =>
        intro v walk
        obtain ⟨p, before, edge⟩ := walk_succ.mp walk
        exact closed p (ih p before) v edge
  intro v ⟨n, walk⟩
  exact within n v walk

theorem even_row (c : ℕ) : EvenLevel rowDb.Adj "a" c := by
  have first : AtDist rowDb.Adj "a" 0 "a" := atDist_zero.mpr rfl
  have second : AtDist rowDb.Adj "a" 1 "b" :=
    (mem_level Platform.plain (fun artist => (rowDb.neighbours artist).nodup) "a" 1 "b").mp
      (AList.mem_keys.mpr (by decide +kernel))
  have third := atDist_row
  intro a b distA distB
  have inA := reach_row a ⟨c, distA.1⟩
  have inB := reach_row b ⟨c, distB.1⟩
  simp only [List.mem_cons, List.not_mem_nil, or_false] at inA inB
  have place : ∀ v, v = "a" ∨ v = "b" ∨ v = "c" → AtDist rowDb.Adj "a" c v →
      (v = "a" ∧ c = 0) ∨ (v = "b" ∧ c = 1) ∨ (v = "c" ∧ c = 2) := by
    rintro v (rfl | rfl | rfl) dist
    · exact Or.inl ⟨rfl, dist.unique first⟩
    · exact Or.inr (Or.inl ⟨rfl, dist.unique second⟩)
    · exact Or.inr (Or.inr ⟨rfl, dist.unique third⟩)
  rcases place a inA distA with ⟨rfl, at_c⟩ | ⟨rfl, at_c⟩ | ⟨rfl, at_c⟩ <;>
    rcases place b inB distB with ⟨rfl, at_c'⟩ | ⟨rfl, at_c'⟩ | ⟨rfl, at_c'⟩ <;>
    first | rfl | omega

/-- Three artists can be reached and five are asked for: the loop restarts for ever. -/
theorem zoom_runs_forever : ¬ ∃ fuel,
    (run (machine ℤ) (zoomChosen Platform.plain fuel "a" 5 1) (fun _ => 0) rowDb.store).1 ≠
      .error .looping := by
  obtain ⟨x, top, ends⟩ := zoomChosen_ends Platform.plain rowDb "a" 5 1 (by decide)
    fun _ => 0
  have few : (Reach rowDb "a").encard < (5 : ℤ).toNat := by
    have le : (Reach rowDb "a").encard ≤ {v | v ∈ ["a", "b", "c"]}.encard :=
      Set.encard_le_encard reach_row
    rw [encard_members (by decide)] at le
    exact lt_of_le_of_lt le (by decide)
  have forever := not_ends_of_few (by decide) few even_row top.wandering
  intro answered
  exact forever (ends.mp answered)

end Phonograph.Server.ZoomEnds
