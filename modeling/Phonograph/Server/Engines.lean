import Phonograph.Server.PathLevels

/-! # The two path engines agree

`find_paths` stops at the level where its target first appears, `dijkstra` runs
to a fixed depth and `determine_paths` expands from there.  Both yield the
tables of `PathLevels`, and the expansion reads no level beyond the target's. -/

set_option autoImplicit false

namespace Phonograph.Server.Engines

open Phonograph.Lib Phonograph.Server.Redis Phonograph.Server.Python
open Phonograph.Server.Database Phonograph.Server.Paths Phonograph.Server.PathLevels

variable {F S : Type} [Score S] (P : Platform F)

section Yields
variable {base : Store S} {N : String → List String}
  (stored : ∀ a, smembersOf (base (neighboursKey a)) = .ok (N a))
include stored

theorem yields_extend {distances : Distances} {level : Level} {visited : List String} {c : ℕ}
    (found : distances.lookup c = some level) :
    Yields base (extend P distances visited c)
      (distances.insert (c + 1) (nextLevel P N level visited)) := by
  refine Gives.bind _ (yields_ofExcept (item_ok found)) ?_
  refine Gives.bind _ (Gives.foldlM _ _ _ fun next node _ => ?_) (Gives.done _ _ _ _)
  refine Gives.bind _ (yields_smembers (neighboursKey_not_scratch node) (stored node)) ?_
  exact Gives.done _ _ _ _

theorem yields_dijkstraLevels (i : String) : ∀ left c : ℕ,
    Yields base (dijkstraLevels P left (table P N i c) (frontier P N i c).visited c)
      (table P N i (c + left)) := by
  intro left
  induction left with
  | zero => intro c; exact Gives.done _ _ _ _
  | succ left ih =>
      intro c
      have found := lookup_table P (N := N) i c c le_rfl
      refine Gives.bind _ (yields_ofExcept (item_ok found)) ?_
      refine Gives.bind _ (yields_extend P stored found) ?_
      have next := ih (c + 1)
      rw [show c + 1 + left = c + (left + 1) by omega] at next
      exact next

theorem yields_dijkstra (i : String) (level : ℤ) :
    Yields base (dijkstra P i level) (table P N i level.toNat) := by
  have levels := yields_dijkstraLevels P stored i level.toNat 0
  rw [Nat.zero_add] at levels
  exact levels

theorem yields_searchLevels (i j : String) : ∀ left c d : ℕ, c ≤ d → d ≤ c + left →
    j ∈ (frontier P N i d).level → (∀ k, c ≤ k → k < d → j ∉ (frontier P N i k).level) →
    Yields base (searchLevels P j left (table P N i c) (frontier P N i c).visited c)
      (some (table P N i d, d)) := by
  intro left
  induction left with
  | zero =>
      intro c d low high here _
      obtain rfl : c = d := by omega
      rw [searchLevels]
      refine Gives.bind _ (yields_ofExcept (item_ok (lookup_table P i c c le_rfl))) ?_
      rw [if_pos (AList.mem_keys.mp here)]
      exact Gives.done _ _ _ _
  | succ left ih =>
      intro c d low high here before
      have found := lookup_table P (N := N) i c c le_rfl
      rw [searchLevels]
      refine Gives.bind _ (yields_ofExcept (item_ok found)) ?_
      rcases Nat.eq_or_lt_of_le low with rfl | less
      · rw [if_pos (AList.mem_keys.mp here)]
        exact Gives.done _ _ _ _
      · rw [if_neg (mt AList.mem_keys.mpr (before c le_rfl less))]
        refine Gives.bind _ (yields_extend P stored found) ?_
        exact ih (c + 1) d less (by omega) here fun k le => before k (by omega)

theorem yields_searchLevels_none (i j : String) : ∀ left c : ℕ,
    (∀ k, c ≤ k → k ≤ c + left → j ∉ (frontier P N i k).level) →
    Yields base (searchLevels P j left (table P N i c) (frontier P N i c).visited c) none := by
  intro left
  induction left with
  | zero =>
      intro c absent
      rw [searchLevels]
      refine Gives.bind _ (yields_ofExcept (item_ok (lookup_table P i c c le_rfl))) ?_
      rw [if_neg (mt AList.mem_keys.mpr (absent c le_rfl le_rfl))]
      exact Gives.done _ _ _ _
  | succ left ih =>
      intro c absent
      have found := lookup_table P (N := N) i c c le_rfl
      rw [searchLevels]
      refine Gives.bind _ (yields_ofExcept (item_ok found)) ?_
      rw [if_neg (mt AList.mem_keys.mpr (absent c le_rfl (by omega)))]
      refine Gives.bind _ (yields_extend P stored found) ?_
      exact ih (c + 1) fun k low high => absent k (by omega) (by omega)

/-- `find_paths` lists the expansion of the level at which the target appears. -/
theorem yields_findPaths (nodup : ∀ a, (N a).Nodup) {i j : String} {d : ℕ} (ne : i ≠ j)
    (bound : d ≤ 8) (dist : AtDist (fun x y => y ∈ N x) i d j) :
    Yields base (findPaths P i j) (some (shortestPaths P N i d j)) := by
  have pos := dist.pos ne
  have here := (mem_level P nodup i d j).mpr dist
  have search := yields_searchLevels P stored i j 8 0 d (Nat.zero_le d) (by omega) here
    fun k _ less member => Nat.ne_of_lt less (((mem_level P nodup i k j).mp member).unique dist)
  refine Gives.bind _ search ?_
  refine Gives.bind _ (yields_ofExcept (item_ok (lookup_table P i d d le_rfl))) ?_
  refine Gives.bind _ (yields_ofExcept (item_ok (lookup_preds P here))) ?_
  have expand := backtrack_table P nodup (d - 1) _ (Nat.sub_le d 1)
    (endsIn_preds P nodup (i := i) (j := j) pos)
  exact Gives.bind _ (yields_ofExcept expand) (Gives.done _ _ _ _)

theorem yields_findPaths_none (nodup : ∀ a, (N a).Nodup) {i j : String}
    (far : ¬ ∃ d ≤ 8, AtDist (fun x y => y ∈ N x) i d j) :
    Yields base (findPaths P i j) none := by
  have search := yields_searchLevels_none P stored i j 8 0 fun k _ high member =>
    far ⟨k, by omega, (mem_level P nodup i k j).mp member⟩
  exact Gives.bind _ search (Gives.done _ _ _ _)

omit stored in
theorem yields_findPaths_self (i : String) : Yields base (findPaths P i i) (some []) := by
  have level : item (initialDistances i) 0 = .ok (AList.singleton i []) := by
    apply item_ok
    rw [initialDistances, ← AList.insert_empty, AList.lookup_insert]
  have here : item (AList.singleton i ([] : List String)) i = .ok [] := by
    apply item_ok
    rw [← AList.insert_empty, AList.lookup_insert]
  have search : Yields base (searchLevels P i 8 (initialDistances i) [] 0)
      (some (initialDistances i, 0)) := by
    rw [searchLevels]
    refine Gives.bind _ (yields_ofExcept level) ?_
    rw [AList.keys_singleton, if_pos (List.mem_singleton_self i)]
    exact Gives.done _ _ _ _
  refine Gives.bind _ search ?_
  refine Gives.bind _ (yields_ofExcept level) ?_
  refine Gives.bind _ (yields_ofExcept here) ?_
  exact Gives.bind _ (yields_ofExcept rfl) (Gives.done _ _ _ _)

/-- What `find_paths` returns is `None` or the paths to an artist within eight steps. -/
theorem findPaths_ok (nodup : ∀ a, (N a).Nodup) {i j : String} (ne : i ≠ j) {store : Store S}
    (agree : AgreeOff scratch store base) {tape : Tape} {paths : List Path}
    (found : (run (machine S) (findPaths P i j) tape store).1 = .ok (some paths)) :
    ∃ d, 0 < d ∧ AtDist (fun x y => y ∈ N x) i d j ∧ paths = shortestPaths P N i d j := by
  by_cases near : ∃ d ≤ 8, AtDist (fun x y => y ∈ N x) i d j
  · obtain ⟨d, bound, dist⟩ := near
    obtain ⟨_, ran, _⟩ := yields_findPaths P stored nodup ne bound dist store agree tape
    rw [ran] at found
    exact ⟨d, dist.pos ne, dist, (Option.some.inj (Except.ok.inj found)).symm⟩
  · obtain ⟨_, ran, _⟩ := yields_findPaths_none P stored nodup near store agree tape
    rw [ran] at found
    cases found

end Yields

structure ExactLevels (E : String → String → Prop) (i : String) (l : ℕ)
    (distances : Distances) : Prop where
  depths : ∀ k, k ∈ distances ↔ k ≤ l
  artists : ∀ {k level}, distances.lookup k = some level → ∀ a, a ∈ level ↔ AtDist E i k a
  predecessors : ∀ {k level a ps}, distances.lookup (k + 1) = some level →
    level.lookup a = some ps → ps.Nodup ∧ ∀ p, p ∈ ps ↔ AtDist E i k p ∧ E p a
  disjoint : ∀ {j k before after}, j ≠ k → distances.lookup j = some before →
    distances.lookup k = some after → List.Disjoint before.keys after.keys
  stays_empty : ∀ {j k before after}, j ≤ k → distances.lookup j = some before →
    distances.lookup k = some after → before.keys = [] → after.keys = []

theorem lookup_table_inv {N : String → List String} {i : String} {l k : ℕ} {level : Level}
    (found : (table P N i l).lookup k = some level) : level = (frontier P N i k).level := by
  have member : k ∈ table P N i l := by
    rw [← AList.lookup_isSome, found]
    rfl
  have here := lookup_table P (N := N) i l k ((mem_table P N i k l).mp member)
  exact Option.some.inj (found.symm.trans here)

theorem exactLevels_table {N : String → List String} (nodup : ∀ a, (N a).Nodup) (i : String)
    (l : ℕ) : ExactLevels (fun x y => y ∈ N x) i l (table P N i l) where
  depths k := mem_table P N i k l
  artists := by
    intro k level found a
    obtain rfl := lookup_table_inv P found
    exact mem_level P nodup i k a
  predecessors := by
    intro k level a ps found stored
    obtain rfl := lookup_table_inv P found
    have member : a ∈ (frontier P N i (k + 1)).level := by
      rw [← AList.lookup_isSome, stored]
      rfl
    obtain rfl := Option.some.inj (stored.symm.trans (lookup_preds P member))
    have dist := (mem_level P nodup i (k + 1) a).mp member
    exact ⟨nodup_preds P nodup i a k, fun p => mem_preds_of_atDist P nodup i k a p dist⟩
  disjoint := by
    intro j k before after ne atJ atK a here there
    obtain rfl := lookup_table_inv P atJ
    obtain rfl := lookup_table_inv P atK
    have near := (mem_level P nodup i j a).mp (AList.mem_keys.mpr here)
    have far := (mem_level P nodup i k a).mp (AList.mem_keys.mpr there)
    exact ne (near.unique far)
  stays_empty := by
    intro j k before after le atJ atK empty
    obtain rfl := lookup_table_inv P atJ
    obtain rfl := lookup_table_inv P atK
    apply List.eq_nil_iff_forall_not_mem.mpr
    intro a there
    have far := (mem_level P nodup i k a).mp (AList.mem_keys.mpr there)
    obtain ⟨p, near⟩ := far.exists_nearer le
    have here := AList.mem_keys.mp ((mem_level P nodup i j p).mpr near)
    rw [empty] at here
    exact List.not_mem_nil here

/-- `dijkstra(i, l)` returns the levels `0..l`, each with the artists at its distance
from `i`, and stores for each of them all artists of the level before that lead there. -/
theorem dijkstra_exactLevels (db : MusicDb S) (i : String) (l : ℕ) (tape : Tape) :
    ∃ distances, (run (machine S) (dijkstra P i l) tape db.store).1 = .ok distances ∧
      ExactLevels db.Adj i l distances := by
  have nodup : ∀ a, ((db.neighbours a).members).Nodup := fun a => (db.neighbours a).nodup
  obtain ⟨_, ran, _⟩ := yields_dijkstra P db.neighbours_kind i l
    db.store (AgreeOff.refl _ _) tape
  exact ⟨_, congrArg Prod.fst ran, exactLevels_table P nodup i l⟩

/-- `find_paths(i, j)` and `determine_paths(j, dijkstra(i, l), d)` are the same
list of paths, for every artist `j` at a distance `d ≤ 8` and every depth `l ≥ d`. -/
theorem findPaths_eq_determinePaths (db : MusicDb S) (i j : String) (d : ℕ) (l : ℤ) (ne : i ≠ j)
    (dist : AtDist db.Adj i d j) (bound : d ≤ 8) (deep : d ≤ l) (tape : Tape) :
    ∃ paths distances,
      (run (machine S) (findPaths P i j) tape db.store).1 = .ok (some paths) ∧
      (run (machine S) (dijkstra P i l) tape db.store).1 = .ok distances ∧
      determinePaths j distances d = .ok paths := by
  have nodup : ∀ a, ((db.neighbours a).members).Nodup := fun a => (db.neighbours a).nodup
  have pos := dist.pos ne
  obtain ⟨_, found, _⟩ := yields_findPaths P db.neighbours_kind nodup ne bound dist
    db.store (AgreeOff.refl _ _) tape
  obtain ⟨_, levels, _⟩ := yields_dijkstra P db.neighbours_kind i l
    db.store (AgreeOff.refl _ _) tape
  refine ⟨_, _, congrArg Prod.fst found, congrArg Prod.fst levels, ?_⟩
  exact determinePaths_table P nodup pos (by omega) dist

/-- `find_paths(i, j)` is `None` exactly when no walk of eight steps or fewer leads from
`i` to `j`; otherwise it lists every shortest path once, written from `j` back to `i`. -/
theorem findPaths_exact (db : MusicDb S) (i j : String) (ne : i ≠ j) (tape : Tape) :
    ∃ result, (run (machine S) (findPaths P i j) tape db.store).1 = .ok result ∧
      (result = none ↔ ¬ ∃ d ≤ 8, AtDist db.Adj i d j) ∧
      ∀ paths, result = some paths →
        paths.Nodup ∧ ∀ path, path ∈ paths ↔ Shortest db.Adj i j path.reverse := by
  have nodup : ∀ a, ((db.neighbours a).members).Nodup := fun a => (db.neighbours a).nodup
  by_cases near : ∃ d ≤ 8, AtDist db.Adj i d j
  · obtain ⟨d, bound, dist⟩ := near
    have pos := dist.pos ne
    obtain ⟨_, found, _⟩ := yields_findPaths P db.neighbours_kind nodup ne bound dist
      db.store (AgreeOff.refl _ _) tape
    refine ⟨_, congrArg Prod.fst found, ?_, ?_⟩
    · simp only [reduceCtorEq, false_iff, not_not]
      exact ⟨d, bound, dist⟩
    · intro paths same
      obtain rfl := Option.some.inj same
      refine ⟨nodup_shortestPaths P nodup pos dist, fun path => ?_⟩
      rw [shortest_reverse dist]
      exact mem_shortestPaths P nodup pos dist path
  · obtain ⟨_, found, _⟩ := yields_findPaths_none P db.neighbours_kind nodup near
      db.store (AgreeOff.refl _ _) tape
    refine ⟨_, congrArg Prod.fst found, ?_, ?_⟩
    · simpa using near
    · intro paths same
      cases same

theorem findPaths_exact_row : ∃ result,
    (run (machine ℤ) (findPaths Platform.plain "a" "c") (fun _ => 0) rowDb.store).1 =
      .ok result ∧
    (result = none ↔ ¬ ∃ d ≤ 8, AtDist rowDb.Adj "a" d "c") ∧
    ∀ paths, result = some paths →
      paths.Nodup ∧ ∀ path, path ∈ paths ↔ Shortest rowDb.Adj "a" "c" path.reverse :=
  findPaths_exact Platform.plain rowDb "a" "c" (by decide) fun _ => 0

theorem atDist_row : AtDist rowDb.Adj "a" 2 "c" := by
  refine (mem_level Platform.plain (fun artist => (rowDb.neighbours artist).nodup) "a" 2 "c").mp ?_
  rw [AList.mem_keys]
  decide +kernel

theorem findPaths_eq_determinePaths_row : ∃ paths distances,
    (run (machine ℤ) (findPaths Platform.plain "a" "c") (fun _ => 0) rowDb.store).1 =
      .ok (some paths) ∧
    (run (machine ℤ) (dijkstra Platform.plain "a" 3) (fun _ => 0) rowDb.store).1 = .ok distances ∧
    determinePaths "c" distances 2 = .ok paths :=
  findPaths_eq_determinePaths Platform.plain rowDb "a" "c" 2 3 (by decide) atDist_row (by decide)
    (by decide) fun _ => 0

end Phonograph.Server.Engines
