import Phonograph.Lib.Loops
import Phonograph.Server.ZoomSweep

/-! # The visit of a level

While `/zoom` visits level `c` of a search of depth `L`, sweep after sweep takes
one shortest path of every leaf.  `Visiting` is the state after `j` sweeps.  A
round of the loop is one sweep: it ends the loop, begins the next sweep, goes
down one level, or restarts with a search that is one level deeper. -/

set_option autoImplicit false

namespace Phonograph.Server.ZoomVisit

open Phonograph.Lib Phonograph.Server.Redis Phonograph.Server.Python
open Phonograph.Server.Database Phonograph.Server.Paths Phonograph.Server.PathLevels
open Phonograph.Server.Engines Phonograph.Server.Routes Phonograph.Server.ZoomSweep

variable {F S : Type} [Score S] (P : Platform F)

/-! ## Depth and samples -/

theorem foldl_max_eq {n : ℕ} : ∀ (ks : List ℕ) (m : ℕ), (∀ k ∈ ks, k ≤ n) → m ≤ n →
    (n ∈ ks ∨ m = n) → ks.foldl max m = n := by
  intro ks
  induction ks with
  | nil =>
      intro m _ _ top
      rcases top with inside | same
      · cases inside
      · exact same
  | cons k ks ih =>
      intro m bound le top
      obtain ⟨here, later⟩ := List.forall_mem_cons.mp bound
      rw [List.foldl_cons]
      refine ih (max m k) later (max_le le here) ?_
      rcases top with inside | rfl
      · rcases List.mem_cons.mp inside with rfl | inside
        · exact Or.inr (max_eq_right le)
        · exact Or.inl inside
      · exact Or.inr (max_eq_left here)

theorem deepest_table (N : String → List String) (i : String) (n : ℕ) :
    deepest (table P N i n) = n := by
  rw [deepest]
  refine foldl_max_eq _ 0 (fun k member => ?_) (Nat.zero_le n) (Or.inl ?_)
  · exact (mem_table P N i k n).mp (AList.mem_keys.mpr member)
  · exact AList.mem_keys.mp ((mem_table P N i n n).mpr le_rfl)

theorem run_shuffle {α : Type} : ∀ (fuel : ℕ) (xs : List α), xs.length ≤ fuel →
    ∀ (tape : Tape) (store : Store S), ∃ ys tape',
      run (machine S) (Handler.shuffle fuel xs) tape store = (.ok ys, tape', store) ∧
        ys.Perm xs := by
  intro fuel
  induction fuel with
  | zero =>
      intro xs bound tape store
      obtain rfl := List.length_eq_zero_iff.mp (Nat.le_zero.mp bound)
      exact ⟨[], tape, rfl, List.Perm.refl _⟩
  | succ fuel ih =>
      intro xs bound tape store
      cases xs with
      | nil => exact ⟨[], tape, rfl, List.Perm.refl _⟩
      | cons x rest =>
          have inside : tape 0 % (rest.length + 1) < (x :: rest).length :=
            Nat.mod_lt _ (Nat.succ_pos _)
          have shorter : ((x :: rest).eraseIdx (tape 0 % (rest.length + 1))).length ≤ fuel := by
            rw [List.length_eraseIdx_of_lt inside]
            exact Nat.le_of_succ_le_succ bound
          obtain ⟨ys, tape', ran, perm⟩ := ih _ shorter tape.tail store
          refine ⟨(x :: rest)[tape 0 % (rest.length + 1)]?.getD x :: ys, tape', ?_, ?_⟩
          · rw [Handler.shuffle, run_draw, run_bind, ran]
            rfl
          · rw [List.getElem?_eq_getElem inside, Option.getD_some]
            exact (perm.cons _).trans (List.getElem_cons_eraseIdx_perm inside)

/-! ## The paths of a leaf -/

section Leaves
variable (db : MusicDb S) (origin : String)

def neighbourLists : String → List String := fun a => (db.neighbours a).members

def turnsOf (c : ℕ) (leaf : String) : List Path :=
  (shortestPaths P (neighbourLists db) origin c leaf).reverse

variable {db origin} {c : ℕ} {leaf : String} (pos : 0 < c) (dist : AtDist db.Adj origin c leaf)
include pos dist

theorem mem_turnsOf (path : Path) : path ∈ turnsOf P db origin c leaf ↔
    Geodesic db.Adj origin c path ∧ path.head? = some leaf := by
  rw [turnsOf, List.mem_reverse]
  exact mem_shortestPaths P (fun a => (db.neighbours a).nodup) pos dist path

theorem length_turnsOf :
    (turnsOf P db origin c leaf).length = pathCount db.Adj origin leaf := by
  have nodup : ∀ a, (neighbourLists db a).Nodup := fun a => (db.neighbours a).nodup
  have count := pathCount_eq_length (mem_preds_of_atDist P nodup origin)
    (fun k a => nodup_preds P nodup origin a k) dist
  obtain ⟨k, rfl⟩ : ∃ k, c = k + 1 := ⟨c - 1, by omega⟩
  rw [turnsOf, List.length_reverse, shortestPaths_eq]
  exact count.symm

theorem turnsOf_pos : 0 < (turnsOf P db origin c leaf).length := by
  obtain ⟨path, joins, length⟩ := exists_joins_of_walk dist.1
  have geodesic := geodesic_of_joins joins dist length
  exact List.length_pos_of_mem
    ((mem_turnsOf P pos dist path).mpr ⟨geodesic, (joins_reverse.mp joins).2.1⟩)

theorem path_ne_nil {path : Path} (member : path ∈ turnsOf P db origin c leaf) : path ≠ [] := by
  have length := ((mem_turnsOf P pos dist path).mp member).1.length
  intro empty
  rw [empty] at length
  cases length

theorem mem_path {path : Path} (member : path ∈ turnsOf P db origin c leaf) :
    leaf ∈ path ∧ ∀ a ∈ path, ∃ d ≤ c, AtDist db.Adj origin d a := by
  obtain ⟨geodesic, head⟩ := (mem_turnsOf P pos dist path).mp member
  refine ⟨List.mem_of_mem_head? head, fun a inPath => ?_⟩
  obtain ⟨n, found⟩ := List.mem_iff_getElem?.mp inPath
  exact ⟨c - n, Nat.sub_le c n, geodesic.atDist n a found⟩

theorem determinePaths_turns {L : ℕ} (le : c ≤ L) :
    determinePaths leaf (table P (neighbourLists db) origin L) c =
      .ok (turnsOf P db origin c leaf).reverse := by
  rw [turnsOf, List.reverse_reverse]
  exact determinePaths_table P (fun a => (db.neighbours a).nodup) pos le dist

end Leaves

theorem run_sampleLevel (db : MusicDb S) (origin : String) {c L : ℕ} (le : c ≤ L) (tape : Tape)
    (store : Store S) : ∃ leaves tape',
    run (machine S) (sampleLevel P (table P (neighbourLists db) origin L) c) tape store =
      (.ok leaves, tape', store) ∧ leaves.Nodup ∧
    ∀ a, a ∈ leaves ↔ AtDist db.Adj origin c a := by
  have nodup : ∀ a, (neighbourLists db a).Nodup := fun a => (db.neighbours a).nodup
  have found := lookup_table P (N := neighbourLists db) origin L c le
  obtain ⟨leaves, tape', ran, perm⟩ := run_shuffle _
    (P.dictOrder (frontier P (neighbourLists db) origin c).level.keys) le_rfl tape store
  have same := perm.trans (P.dictOrder_perm _)
  refine ⟨leaves, tape', ?_, same.nodup_iff.mpr (AList.keys_nodup _), fun a => ?_⟩
  · rw [sampleLevel, item_ok found]
    exact ran
  · rw [same.mem_iff, ← AList.mem_keys]
    exact mem_level P nodup origin c a

/-! ## The state of a visit -/

section Visit
variable (db : MusicDb S) (origin : String) (level : ℤ)

/-- The loop variables after `j` sweeps over level `c` of a search of depth `L`, which was
entered with the artists `entered` chosen. -/
structure Visiting (L : ℕ) (entered : List String) (j : ℕ) (s : ZoomState) : Prop where
  distances : s.distances = table P (neighbourLists db) origin L
  low : 0 < s.c
  high : s.c ≤ L
  depth : level.toNat + s.k = L + 1
  leaves : ∀ a, a ∈ s.rankedLeaves ↔ AtDist db.Adj origin s.c a
  distinct : s.rankedLeaves.Nodup
  holds : ∀ leaf ∈ s.rankedLeaves, Holds (turnsOf P db origin s.c) j s.paths leaf
  fresh : j = 0 → ∀ leaf ∈ s.rankedLeaves, leaf ∉ s.paths
  others : ∀ key ∉ s.rankedLeaves, ∀ l, s.paths.lookup key = some l → l = []
  far : ∀ key ∈ s.paths, ∃ d, s.c ≤ d ∧ AtDist db.Adj origin d key
  taken : ∀ leaf ∈ s.rankedLeaves, j ≤ (turnsOf P db origin s.c leaf).length
  more : 0 < j → ∃ leaf ∈ s.rankedLeaves, j < (turnsOf P db origin s.c leaf).length
  nodup : s.chosen.Nodup
  chosen : ∀ a, a ∈ s.chosen ↔ a ∈ entered ∨
    ∃ leaf ∈ s.rankedLeaves, ∃ path ∈ (turnsOf P db origin s.c leaf).take j, a ∈ path

variable (size : ℤ)

inductive Round (L : ℕ) (entered : List String) (j : ℕ) (s : ZoomState) :
    Except PyErr (Config String (Option (Value S)) ZoomState) → Prop where
  | raised (front : List String) (leaf : String) (back : List String) :
      s.rankedLeaves = front ++ leaf :: back →
      (turnsOf P db origin s.c leaf).length = j →
      ((addTurns (turnsOf P db origin s.c) j front s.chosen).length : ℤ) < size →
      Round L entered j s (.error .indexError)
  | filled (front back : List String) (y : Config String (Option (Value S)) ZoomState) :
      s.rankedLeaves = front ++ back →
      (∀ l ∈ front, j < (turnsOf P db origin s.c l).length) →
      y.1.chosen = addTurns (turnsOf P db origin s.c) j front s.chosen →
      size ≤ y.1.chosen.length → Round L entered j s (.ok y)
  | again (y : Config String (Option (Value S)) ZoomState) :
      ((addTurns (turnsOf P db origin s.c) j s.rankedLeaves s.chosen).length : ℤ) < size →
      y.1.chosen = addTurns (turnsOf P db origin s.c) j s.rankedLeaves s.chosen →
      y.1.rankedLeaves = s.rankedLeaves → y.1.c = s.c →
      Visiting P db origin level L entered (j + 1) y.1 →
      AgreeOff scratch y.2.2 db.store → Round L entered j s (.ok y)
  | descended (y : Config String (Option (Value S)) ZoomState) :
      (∀ leaf ∈ s.rankedLeaves, (turnsOf P db origin s.c leaf).length = j + 1) →
      ((addTurns (turnsOf P db origin s.c) j s.rankedLeaves s.chosen).length : ℤ) < size →
      y.1.c + 1 = s.c →
      y.1.chosen = addTurns (turnsOf P db origin s.c) j s.rankedLeaves s.chosen →
      Visiting P db origin level L y.1.chosen 0 y.1 →
      AgreeOff scratch y.2.2 db.store → Round L entered j s (.ok y)
  | restarted (y : Config String (Option (Value S)) ZoomState) :
      (∀ leaf ∈ s.rankedLeaves, (turnsOf P db origin s.c leaf).length = j + 1) →
      ((addTurns (turnsOf P db origin s.c) j s.rankedLeaves s.chosen).length : ℤ) < size →
      s.c = 1 → y.1.c = L + 1 → y.1.chosen = [origin] →
      Visiting P db origin level (L + 1) [origin] 0 y.1 →
      AgreeOff scratch y.2.2 db.store → Round L entered j s (.ok y)

end Visit

/-! ## One round -/

theorem onpaths_ne_nil {paths : LeafPaths} {key : String} {l : List Path} {path : Path}
    (found : paths.lookup key = some l) (member : path ∈ l) (nonempty : path ≠ []) :
    (paths.entries.flatMap fun e => e.2.flatten) ≠ [] := by
  obtain ⟨a, inPath⟩ := List.exists_mem_of_ne_nil _ nonempty
  have entry := AList.mem_lookup_iff.mp found
  have inAll : a ∈ l.flatten := List.mem_flatten.mpr ⟨path, member, inPath⟩
  exact List.ne_nil_of_mem (List.mem_flatMap.mpr ⟨_, entry, inAll⟩)

theorem onpaths_nil {paths : LeafPaths} (used : ∀ key l, paths.lookup key = some l → l = []) :
    (paths.entries.flatMap fun e => e.2.flatten) = [] := by
  refine List.flatMap_eq_nil_iff.mpr fun e member => ?_
  rw [used e.1 e.2 (AList.mem_lookup_iff.mpr member), List.flatten_nil]

section OneRound
variable {P} {db : MusicDb S} {origin : String} {level size : ℤ} {L j : ℕ} {entered : List String}
  {s : ZoomState} (visiting : Visiting P db origin level L entered j s)
include visiting

omit visiting in
theorem Visiting.enter (visiting : Visiting P db origin level L entered 0 s) :
    Visiting P db origin level L s.chosen 0 s :=
  { visiting with chosen := fun a => by simp }

theorem Visiting.path_left {leaf : String} (member : leaf ∈ s.rankedLeaves)
    (more : j < (turnsOf P db origin s.c leaf).length) :
    ∃ path ∈ ((turnsOf P db origin s.c leaf).drop j).reverse, path ≠ [] := by
  have dist := (visiting.leaves leaf).mp member
  have inside := List.getElem_mem more
  refine ⟨_, ?_, path_ne_nil P visiting.low dist inside⟩
  rw [List.mem_reverse, List.drop_eq_getElem_cons more]
  exact List.mem_cons_self ..

/-- After a whole sweep, the chosen artists are those of one more path of each leaf. -/
theorem Visiting.mem_swept (a : String) :
    a ∈ addTurns (turnsOf P db origin s.c) j s.rankedLeaves s.chosen ↔ a ∈ entered ∨
      ∃ leaf ∈ s.rankedLeaves, ∃ path ∈ (turnsOf P db origin s.c leaf).take (j + 1), a ∈ path := by
  rw [mem_addTurns, visiting.chosen, or_assoc]
  refine or_congr Iff.rfl ?_
  simp only [List.take_add_one, List.mem_append, Option.mem_toList]
  constructor
  · rintro (⟨leaf, member, path, early, inPath⟩ | ⟨leaf, member, path, now, inPath⟩)
    · exact ⟨leaf, member, path, Or.inl early, inPath⟩
    · exact ⟨leaf, member, path, Or.inr now, inPath⟩
  · rintro ⟨leaf, member, path, early | now, inPath⟩
    · exact Or.inl ⟨leaf, member, path, early, inPath⟩
    · exact Or.inr ⟨leaf, member, path, now, inPath⟩

section Finished
variable {paths : LeafPaths} (found : ∀ key, paths.lookup key = if key ∈ s.rankedLeaves then
    some ((turnsOf P db origin s.c key).drop (j + 1)).reverse else s.paths.lookup key)
include found

theorem Visiting.far_swept (key : String) (member : key ∈ paths) :
    ∃ d, s.c ≤ d ∧ AtDist db.Adj origin d key := by
  by_cases leaf : key ∈ s.rankedLeaves
  · exact ⟨s.c, le_rfl, (visiting.leaves key).mp leaf⟩
  · rw [← AList.lookup_isSome, found, if_neg leaf, AList.lookup_isSome] at member
    exact visiting.far key member

theorem Visiting.sweep_again
    (ready : ∀ leaf ∈ s.rankedLeaves, j < (turnsOf P db origin s.c leaf).length)
    (more : ∃ leaf ∈ s.rankedLeaves, j + 1 < (turnsOf P db origin s.c leaf).length) :
    Visiting P db origin level L entered (j + 1)
      { s with chosen := addTurns (turnsOf P db origin s.c) j s.rankedLeaves s.chosen
               paths := paths } where
  distances := visiting.distances
  low := visiting.low
  high := visiting.high
  depth := visiting.depth
  leaves := visiting.leaves
  distinct := visiting.distinct
  holds leaf member := Or.inl (by rw [found, if_pos member])
  fresh none := by cases none
  others key other l stored := by
    rw [found, if_neg other] at stored
    exact visiting.others key other l stored
  far := visiting.far_swept found
  taken leaf member := ready leaf member
  more _ := more
  nodup := nodup_addTurns _ _ _ _ visiting.nodup
  chosen := visiting.mem_swept

theorem Visiting.used_up (even : ∀ leaf ∈ s.rankedLeaves,
    (turnsOf P db origin s.c leaf).length = j + 1) (key : String) (l : List Path)
    (stored : paths.lookup key = some l) : l = [] := by
  rw [found] at stored
  by_cases leaf : key ∈ s.rankedLeaves
  · rw [if_pos leaf, List.drop_of_length_le (even key leaf).le] at stored
    exact (Option.some.inj stored).symm
  · rw [if_neg leaf] at stored
    exact visiting.others key leaf l stored

theorem Visiting.descend (even : ∀ leaf ∈ s.rankedLeaves,
    (turnsOf P db origin s.c leaf).length = j + 1) (deep : 1 < s.c) {chosen leaves : List String}
    (nodup : chosen.Nodup) (distinct : leaves.Nodup)
    (sampled : ∀ a, a ∈ leaves ↔ AtDist db.Adj origin (s.c - 1) a) :
    Visiting P db origin level L chosen 0
      { s with chosen := chosen, paths := paths, c := s.c - 1, rankedLeaves := leaves } := by
  have absent : ∀ leaf ∈ leaves, leaf ∉ paths := by
    intro leaf member stored
    obtain ⟨d, le, dist⟩ := visiting.far_swept found leaf stored
    have same := ((sampled leaf).mp member).unique dist
    omega
  have high := visiting.high
  exact
    { distances := visiting.distances
      low := Nat.sub_pos_of_lt deep
      high := le_trans (Nat.sub_le _ _) high
      depth := visiting.depth
      leaves := sampled
      distinct := distinct
      holds := fun leaf member => Or.inr ⟨AList.lookup_eq_none.mpr (absent leaf member), rfl⟩
      fresh := fun _ => absent
      others := fun key _ l stored => visiting.used_up found even key l stored
      far := fun key stored => by
        obtain ⟨d, le, dist⟩ := visiting.far_swept found key stored
        exact ⟨d, le_trans (Nat.sub_le _ _) le, dist⟩
      taken := fun leaf _ => Nat.zero_le _
      more := fun pos => absurd pos (Nat.lt_irrefl 0)
      nodup := nodup
      chosen := fun a => by simp }

end Finished

end OneRound

theorem visiting_start {P : Platform F} {db : MusicDb S} {origin : String} {level : ℤ} {L k : ℕ}
    (deep : 0 < L) (depth : level.toNat + k = L + 1) {leaves : List String}
    (distinct : leaves.Nodup) (sampled : ∀ a, a ∈ leaves ↔ AtDist db.Adj origin L a) :
    Visiting P db origin level L [origin] 0
      ⟨table P (neighbourLists db) origin L, [origin], L, k, leaves, ∅⟩ where
  distances := rfl
  low := deep
  high := le_rfl
  depth := depth
  leaves := sampled
  distinct := distinct
  holds _ _ := Or.inr ⟨AList.lookup_empty _, rfl⟩
  fresh _ leaf _ := AList.notMem_empty leaf
  others key _ l stored := by
    rw [AList.lookup_empty] at stored
    cases stored
  far key stored := absurd stored (AList.notMem_empty key)
  taken _ _ := Nat.zero_le _
  more pos := absurd pos (Nat.lt_irrefl 0)
  nodup := List.nodup_singleton _
  chosen a := by simp

/-- The keys of `pop_sorted` are compared as strings, `None` below all of them. -/
def PopLe (a b : String × Option String) : Prop := keyLe b.2 a.2 = true

instance : DecidableRel PopLe := fun a b => inferInstanceAs (Decidable (keyLe b.2 a.2 = true))

instance : Std.Total PopLe where
  total a b := by
    obtain ⟨_, _ | x⟩ := a
    · exact Or.inr rfl
    · obtain ⟨_, _ | y⟩ := b
      · exact Or.inl rfl
      · rcases le_total y x with le | le
        · exact Or.inl (decide_eq_true le)
        · exact Or.inr (decide_eq_true le)

instance : IsTrans (String × Option String) PopLe where
  trans a b c first second := by
    obtain ⟨_, _ | z⟩ := c
    · rfl
    · obtain ⟨_, _ | y⟩ := b
      · cases second
      · obtain ⟨_, _ | x⟩ := a
        · cases first
        · exact decide_eq_true ((of_decide_eq_true second).trans (of_decide_eq_true first))

theorem yields_popSorted (db : MusicDb S) (nodes : List String) : ∃ byPop,
    Yields db.store (popSorted nodes) byPop ∧ byPop.Perm nodes ∧
      byPop.Pairwise fun a b =>
        PopLe (a, db.artistInfo a "popularity") (b, db.artistInfo b "popularity") := by
  let keyed := nodes.map fun x => (x, db.artistInfo x "popularity")
  have read : Yields db.store (nodes.mapM fun x => do return (x, ← popularityOf x)) keyed := by
    refine Gives.mapM _ nodes fun x _ => ?_
    refine Gives.bind _
      (yields_hget (artistInfoKey_not_scratch x) "popularity" (db.artistInfo_kind x)) ?_
    exact Gives.done _ _ _ _
  have perm : (keyed.insertionSort PopLe).Perm keyed := List.perm_insertionSort PopLe keyed
  refine ⟨(keyed.insertionSort PopLe).map Prod.fst, Gives.bind _ read (Gives.done _ _ _ _), ?_, ?_⟩
  · have mapped := perm.map Prod.fst
    rw [List.map_map] at mapped
    exact mapped.trans (by rw [show (Prod.fst ∘ fun x => (x, db.artistInfo x "popularity")) = id
      from rfl, List.map_id])
  · rw [List.pairwise_map]
    refine (List.pairwise_insertionSort PopLe keyed).imp_of_mem fun {a b} inA inB le => ?_
    obtain ⟨x, _, rfl⟩ := List.mem_map.mp (perm.mem_iff.mp inA)
    obtain ⟨y, _, rfl⟩ := List.mem_map.mp (perm.mem_iff.mp inB)
    exact le

/-- The part of `zoom` that ranks the leaves: by popularity, the first half shuffled. -/
def rankLeaves (leaves : List String) : Handler (List String) := do
  let byPop ← popSorted leaves
  let topHalf := byPop.take (byPop.length / 2)
  let bottomHalf := byPop.drop (byPop.length / 2)
  let shuffled ← Handler.sample topHalf
  return shuffled ++ bottomHalf

theorem zoomStart_eq (origin : String) (level : ℤ) :
    zoomStart P origin level = do
      let distances ← dijkstra P origin level
      let leaves ← ofExcept (item distances (deepest distances))
      let rankedLeaves ← rankLeaves (P.dictOrder leaves.keys)
      return ⟨distances, [origin], deepest distances, 1, rankedLeaves, ∅⟩ := by
  simp only [zoomStart, rankLeaves, bind_assoc, pure_bind]

theorem run_rankLeaves {db : MusicDb S} {leaves byPop : List String}
    (sorted : Yields db.store (popSorted leaves) byPop) {store : Store S}
    (agree : AgreeOff scratch store db.store) (tape : Tape) : ∃ shuffled tape' store',
    run (machine S) (rankLeaves leaves) tape store =
      (.ok (shuffled ++ byPop.drop (byPop.length / 2)), tape', store') ∧
    AgreeOff scratch store' db.store ∧ shuffled.Perm (byPop.take (byPop.length / 2)) := by
  obtain ⟨store', ranked, agree'⟩ := sorted store agree tape
  obtain ⟨shuffled, tape', sampled, shuffle⟩ :=
    run_shuffle _ (byPop.take (byPop.length / 2)) le_rfl tape store'
  refine ⟨shuffled, tape', store', ?_, agree', shuffle⟩
  rw [rankLeaves, run_bind, ranked]
  simp only [run_bind, Handler.sample, sampled]
  rfl

theorem run_zoomStart (db : MusicDb S) (origin : String) {level : ℤ} (pos : 1 ≤ level)
    (tape : Tape) : ∃ start tape' store',
    run (machine S) (zoomStart P origin level) tape db.store = (.ok start, tape', store') ∧
      AgreeOff scratch store' db.store ∧ start.c = level.toNat ∧ start.chosen = [origin] ∧
      Visiting P db origin level level.toNat [origin] 0 start := by
  have nodup : ∀ a, (neighbourLists db a).Nodup := fun a => (db.neighbours a).nodup
  have yields : Yields db.store (dijkstra P origin level)
      (table P (neighbourLists db) origin level.toNat) :=
    yields_dijkstra P db.neighbours_kind origin level
  obtain ⟨store₁, searched, agree₁⟩ := yields db.store (AgreeOff.refl _ _) tape
  have found := lookup_table P (N := neighbourLists db) origin level.toNat level.toNat le_rfl
  obtain ⟨byPop, sorted, perm, _⟩ := yields_popSorted db
    (P.dictOrder (frontier P (neighbourLists db) origin level.toNat).level.keys)
  obtain ⟨shuffled, tape', store₂, ranked, agree₂, shuffle⟩ := run_rankLeaves sorted agree₁ tape
  have leaves : (shuffled ++ byPop.drop (byPop.length / 2)).Perm
      (frontier P (neighbourLists db) origin level.toNat).level.keys := by
    have joined := shuffle.append_right (byPop.drop (byPop.length / 2))
    rw [List.take_append_drop] at joined
    exact (joined.trans perm).trans (P.dictOrder_perm _)
  refine ⟨⟨table P (neighbourLists db) origin level.toNat, [origin], level.toNat, 1,
    shuffled ++ byPop.drop (byPop.length / 2), ∅⟩, tape', store₂, ?_, agree₂, rfl, rfl, ?_⟩
  · rw [zoomStart_eq, run_bind, searched]
    simp only [deepest_table, item_ok found, run_bind, Python.ofExcept, run_done, ranked]
    rfl
  · refine visiting_start (by omega) rfl (leaves.nodup_iff.mpr (AList.keys_nodup _)) fun a => ?_
    rw [leaves.mem_iff, ← AList.mem_keys]
    exact mem_level P nodup origin level.toNat a

section Outcomes
variable {P : Platform F} {db : MusicDb S} {origin : String} {level size : ℤ} {L j : ℕ}
  {entered : List String} {x : Config String (Option (Value S)) ZoomState}
  (visiting : Visiting P db origin level L entered j x.1)
  (agree : AgreeOff scratch x.2.2 db.store) {paths : LeafPaths}
  (sweep : zoomSweep size x.1.distances x.1.c x.1.rankedLeaves x.1.chosen x.1.paths =
    .ok (addTurns (turnsOf P db origin x.1.c) j x.1.rankedLeaves x.1.chosen, paths))
  (few : ((addTurns (turnsOf P db origin x.1.c) j x.1.rankedLeaves x.1.chosen).length : ℤ) < size)
  (found : ∀ key, paths.lookup key = if key ∈ x.1.rankedLeaves then
    some ((turnsOf P db origin x.1.c key).drop (j + 1)).reverse else x.1.paths.lookup key)
include visiting agree sweep few found

/-- Some leaf has a path left: the next sweep begins. -/
theorem Visiting.round_again
    (ready : ∀ leaf ∈ x.1.rankedLeaves, j < (turnsOf P db origin x.1.c leaf).length)
    {leaf : String} (member : leaf ∈ x.1.rankedLeaves)
    (less : j + 1 < (turnsOf P db origin x.1.c leaf).length) :
    Round P db origin level size L entered j x.1
      (bodyRound (zoomRound P origin size level) (machine S) x) := by
  have again := visiting.sweep_again found ready ⟨leaf, member, less⟩
  obtain ⟨path, left, nonempty⟩ := again.path_left member less
  have stored := found leaf
  rw [if_pos member] at stored
  rw [bodyRound, zoomRound, sweep, Python.ofExcept, run_bind, run_done]
  simp only [if_pos (onpaths_ne_nil stored left nonempty)]
  exact .again _ few rfl rfl rfl again agree

variable (even : ∀ leaf ∈ x.1.rankedLeaves, (turnsOf P db origin x.1.c leaf).length = j + 1)
include even

/-- No path is left: the round goes down a level. -/
theorem Visiting.round_down (deep : x.1.c > 1) :
    Round P db origin level size L entered j x.1
      (bodyRound (zoomRound P origin size level) (machine S) x) := by
  have empty := onpaths_nil (visiting.used_up found even)
  have high := visiting.high
  obtain ⟨leaves, tape', ran, distinct, sampled⟩ :=
    run_sampleLevel P db origin (by omega : x.1.c - 1 ≤ L) x.2.1 x.2.2
  rw [← visiting.distances] at ran
  rw [bodyRound, zoomRound, sweep, Python.ofExcept, run_bind, run_done]
  simp only [empty, ne_eq, not_true_eq_false, if_false]
  rw [if_pos deep, run_bind, ran]
  refine .descended _ even few ?_ rfl ?_ agree
  · exact Nat.sub_add_cancel visiting.low
  · exact visiting.descend found even deep (nodup_addTurns _ _ _ _ visiting.nodup) distinct sampled

/-- No path is left on the lowest level: the search begins again, one level deeper. -/
theorem Visiting.round_restart (pos : 1 ≤ level) (bottom : ¬ x.1.c > 1) :
    Round P db origin level size L entered j x.1
      (bodyRound (zoomRound P origin size level) (machine S) x) := by
  have empty := onpaths_nil (visiting.used_up found even)
  have low := visiting.low
  have depth := visiting.depth
  have deeper : (level + x.1.k).toNat = L + 1 := by omega
  have yields : Yields db.store (dijkstra P origin (level + x.1.k))
      (table P (neighbourLists db) origin (level + x.1.k).toNat) :=
    yields_dijkstra P db.neighbours_kind origin (level + x.1.k)
  rw [deeper] at yields
  obtain ⟨store', searched, agree'⟩ := yields x.2.2 agree x.2.1
  obtain ⟨leaves, tape', ran, distinct, sampled⟩ :=
    run_sampleLevel P db origin (le_refl (L + 1)) x.2.1 store'
  rw [bodyRound, zoomRound, sweep, Python.ofExcept, run_bind, run_done]
  simp only [empty, ne_eq, not_true_eq_false, if_false]
  rw [if_neg bottom, run_bind, searched]
  simp only [run_bind, deepest_table, ran]
  exact .restarted _ even few (by omega) rfl rfl
    (visiting_start (Nat.succ_pos L) (by omega) distinct sampled) agree'

end Outcomes

theorem Visiting.listed {P : Platform F} {db : MusicDb S} {origin : String} {level : ℤ} {L j : ℕ}
    {entered : List String} {s : ZoomState}
    (visiting : Visiting P db origin level L entered j s) :
    ∀ leaf ∈ s.rankedLeaves,
      determinePaths leaf s.distances s.c = .ok (turnsOf P db origin s.c leaf).reverse := by
  intro leaf member
  rw [visiting.distances]
  exact determinePaths_turns P visiting.low ((visiting.leaves leaf).mp member) visiting.high

/-- A round of the loop has one of the outcomes of `Round`. -/
theorem Visiting.round {P : Platform F} {db : MusicDb S} {origin : String} {level size : ℤ}
    {L j : ℕ} {entered : List String} {x : Config String (Option (Value S)) ZoomState}
    (pos : 1 ≤ level) (visiting : Visiting P db origin level L entered j x.1)
    (agree : AgreeOff scratch x.2.2 db.store) (short : (x.1.chosen.length : ℤ) < size) :
    Round P db origin level size L entered j x.1
      (bodyRound (zoomRound P origin size level) (machine S) x) := by
  have swept := zoomSweep_swept x.1.rankedLeaves x.1.chosen x.1.paths visiting.distinct short
    visiting.listed visiting.holds
  generalize sweep : zoomSweep size x.1.distances x.1.c x.1.rankedLeaves x.1.chosen x.1.paths =
    result at swept
  cases swept with
  | raised front leaf back split _ used few =>
      have member : leaf ∈ x.1.rankedLeaves := by
        rw [split]
        simp
      rw [bodyRound, zoomRound, sweep]
      exact .raised front leaf back split (le_antisymm used (visiting.taken leaf member)) few
  | filled front back paths split ready enough kept =>
      obtain ⟨leaf, inFront, stored⟩ := kept
      have member : leaf ∈ x.1.rankedLeaves := by
        rw [split]
        exact List.mem_append_left _ inFront
      obtain ⟨path, left, nonempty⟩ := visiting.path_left member (ready leaf inFront)
      rw [bodyRound, zoomRound, sweep, Python.ofExcept, run_bind, run_done]
      simp only [if_pos (onpaths_ne_nil stored left nonempty)]
      exact .filled front back _ split ready rfl enough
  | finished paths ready few found =>
      by_cases more : ∃ leaf ∈ x.1.rankedLeaves, j + 1 < (turnsOf P db origin x.1.c leaf).length
      · obtain ⟨leaf, member, less⟩ := more
        exact visiting.round_again agree sweep few found ready member less
      · have even : ∀ leaf ∈ x.1.rankedLeaves,
            (turnsOf P db origin x.1.c leaf).length = j + 1 := by
          intro leaf member
          have least := ready leaf member
          by_contra ne
          exact more ⟨leaf, member, by omega⟩
        by_cases deep : x.1.c > 1
        · exact visiting.round_down agree sweep few found even deep
        · exact visiting.round_restart agree sweep few found even pos deep

end Phonograph.Server.ZoomVisit
