import Phonograph.Lib.Levels
import Phonograph.Server.Paths

/-! # The level tables are the distance levels

The search over a fixed neighbour map, without commands: `frontier n` is the
level the search holds after `n` rounds and `table n` all levels up to it.
`mem_level` identifies level `n` with the artists at distance `n`, and
`shortestPaths_geodesic` the expanded paths with shortest paths.  The handlers
`extend`, `find_paths` and `dijkstra` yield exactly these values on a store
that holds the neighbour map. -/

set_option autoImplicit false

namespace Phonograph.Server.PathLevels

open Phonograph.Lib Phonograph.Server.Redis Phonograph.Server.Python
open Phonograph.Server.Database Phonograph.Server.Paths

variable {F : Type} (P : Platform F)

section Tables
variable (N : String → List String)

def nextLevel (level : Level) (visited : List String) : Level :=
  (P.dictOrder level.keys).foldl (fun next node =>
    (P.setOrder ((N node).filter (· ∉ visited))).foldl (addPredecessor node) next) ∅

structure Frontier where
  level : Level
  visited : List String

def frontier (i : String) : ℕ → Frontier
  | 0 => ⟨AList.singleton i [], []⟩
  | n + 1 =>
      let visited := setUpdate (frontier i n).visited (frontier i n).level.keys
      ⟨nextLevel P N (frontier i n).level visited, visited⟩

def table (i : String) : ℕ → Distances
  | 0 => initialDistances i
  | n + 1 => (table i n).insert (n + 1) (frontier P N i (n + 1)).level

def preds (i : String) (k : ℕ) (a : String) : List String :=
  ((frontier P N i k).level.lookup a).getD []

def trace (i : String) : ℕ → List Path → List Path
  | 0, paths => paths
  | c + 1, paths => trace i c (paths.flatMap fun path =>
      (preds P N i (c + 1) (path.getLast?.getD i)).map fun n => path ++ [n])

def shortestPaths (i : String) (d : ℕ) (j : String) : List Path :=
  trace P N i (d - 1) ((preds P N i d j).map fun a => [j, a])

end Tables

theorem lookup_foldl_addPredecessor (node a : String) :
    ∀ (ns : List String) (next : Level), ns.Nodup →
      (ns.foldl (addPredecessor node) next).lookup a =
        if a ∈ ns then some ((next.lookup a).getD [] ++ [node]) else next.lookup a := by
  intro ns
  induction ns with
  | nil => intro next _; simp
  | cons n ns ih =>
      intro next nodup
      obtain ⟨fresh, nodup⟩ := List.nodup_cons.mp nodup
      rw [List.foldl_cons, ih _ nodup]
      by_cases same : a = n
      · subst same
        simp [addPredecessor, fresh]
      · simp [addPredecessor, same, AList.lookup_insert_ne same]

variable {N : String → List String} (nodup : ∀ a, (N a).Nodup)
include nodup

private theorem lookup_foldl_nodes (visited : List String) (a : String) :
    ∀ (nodes : List String) (next : Level),
      (nodes.foldl (fun next node =>
        (P.setOrder ((N node).filter (· ∉ visited))).foldl (addPredecessor node) next)
        next).lookup a =
      match nodes.filter fun node => a ∈ N node ∧ a ∉ visited with
      | [] => next.lookup a
      | ps => some ((next.lookup a).getD [] ++ ps) := by
  intro nodes
  induction nodes with
  | nil => intro next; simp
  | cons node nodes ih =>
      intro next
      have ordered : (P.setOrder ((N node).filter (· ∉ visited))).Nodup :=
        (P.setOrder_perm _).nodup_iff.mpr ((nodup node).filter _)
      have member : a ∈ P.setOrder ((N node).filter (· ∉ visited)) ↔ a ∈ N node ∧ a ∉ visited := by
        rw [(P.setOrder_perm _).mem_iff]
        simp
      rw [List.foldl_cons, ih, lookup_foldl_addPredecessor _ _ _ _ ordered]
      by_cases h : a ∈ N node ∧ a ∉ visited
      · rw [if_pos (member.mpr h), List.filter_cons_of_pos (by simpa using h)]
        cases nodes.filter fun node => a ∈ N node ∧ a ∉ visited <;> simp
      · rw [if_neg (mt member.mp h), List.filter_cons_of_neg (by simpa using h)]

theorem lookup_nextLevel (level : Level) (visited : List String) (a : String) :
    (nextLevel P N level visited).lookup a =
      match (P.dictOrder level.keys).filter fun node => a ∈ N node ∧ a ∉ visited with
      | [] => none
      | ps => some ps := by
  rw [nextLevel, lookup_foldl_nodes P nodup visited a]
  cases (P.dictOrder level.keys).filter fun node => a ∈ N node ∧ a ∉ visited <;> simp

theorem mem_nextLevel (level : Level) (visited : List String) (a : String) :
    a ∈ nextLevel P N level visited ↔ (∃ p ∈ level, a ∈ N p) ∧ a ∉ visited := by
  rw [← AList.lookup_isSome, lookup_nextLevel P nodup]
  cases found : (P.dictOrder level.keys).filter fun node => a ∈ N node ∧ a ∉ visited with
  | nil =>
      simp only [List.filter_eq_nil_iff, decide_eq_true_eq, (P.dictOrder_perm _).mem_iff] at found
      simp only [Option.isSome_none, Bool.false_eq_true, false_iff]
      rintro ⟨⟨p, member, edge⟩, fresh⟩
      exact found p (AList.mem_keys.mp member) ⟨edge, fresh⟩
  | cons p ps =>
      have member : p ∈ (P.dictOrder level.keys).filter fun node => a ∈ N node ∧ a ∉ visited := by
        rw [found]
        exact List.mem_cons_self ..
      simp only [List.mem_filter, decide_eq_true_eq, (P.dictOrder_perm _).mem_iff] at member
      simp only [Option.isSome_some, true_iff]
      exact ⟨⟨p, AList.mem_keys.mpr member.1, member.2.1⟩, member.2.2⟩

omit nodup in
theorem mem_visited (i a : String) (n : ℕ) :
    a ∈ (frontier P N i n).visited ↔ ∃ k < n, a ∈ (frontier P N i k).level := by
  induction n with
  | zero => simp [frontier]
  | succ n ih =>
      rw [frontier, setUpdate, List.mem_union_iff, ih, ← AList.mem_keys]
      constructor
      · rintro (here | ⟨k, less, before⟩)
        · exact ⟨n, n.lt_succ_self, here⟩
        · exact ⟨k, less.trans n.lt_succ_self, before⟩
      · rintro ⟨k, less, before⟩
        rcases Nat.lt_succ_iff_lt_or_eq.mp less with less | rfl
        · exact Or.inr ⟨k, less, before⟩
        · exact Or.inl before

/-- Level `n` of the search is the set of artists at distance `n`. -/
theorem mem_level (i : String) : ∀ (n : ℕ) (a : String),
    a ∈ (frontier P N i n).level ↔ AtDist (fun x y => y ∈ N x) i n a := by
  intro n
  induction n using Nat.strong_induction_on with
  | _ n ih =>
      intro a
      cases n with
      | zero => rw [atDist_zero]; simp [frontier, AList.mem_keys]
      | succ n =>
          rw [frontier, mem_nextLevel P nodup, atDist_succ]
          have before : a ∈ setUpdate (frontier P N i n).visited (frontier P N i n).level.keys ↔
              ∃ k < n + 1, a ∈ (frontier P N i k).level := mem_visited P i a (n + 1)
          rw [before]
          constructor
          · rintro ⟨⟨p, member, edge⟩, fresh⟩
            refine ⟨⟨p, (ih n n.lt_succ_self p).mp member, edge⟩, fun k le h => fresh ?_⟩
            exact ⟨k, Nat.lt_succ_of_le le, (ih k (Nat.lt_succ_of_le le) a).mpr h⟩
          · rintro ⟨⟨p, h, edge⟩, fresh⟩
            refine ⟨⟨p, (ih n n.lt_succ_self p).mpr h, edge⟩, ?_⟩
            rintro ⟨k, less, member⟩
            exact fresh k (Nat.le_of_lt_succ less) ((ih k less a).mp member)

omit nodup in
variable (N) in
theorem mem_table (i : String) (k : ℕ) : ∀ n : ℕ, k ∈ table P N i n ↔ k ≤ n := by
  intro n
  induction n with
  | zero =>
      rw [table, initialDistances, AList.mem_keys, AList.keys_singleton, List.mem_singleton,
        Nat.le_zero]
  | succ n ih =>
      rw [table, AList.mem_insert, ih]
      omega

omit nodup in
theorem lookup_table (i : String) (n : ℕ) :
    ∀ k ≤ n, (table P N i n).lookup k = some (frontier P N i k).level := by
  induction n with
  | zero =>
      intro k le
      obtain rfl : k = 0 := Nat.le_zero.mp le
      rfl
  | succ n ih =>
      intro k le
      rcases Nat.lt_succ_iff_lt_or_eq.mp (Nat.lt_succ_of_le le) with less | rfl
      · rw [table, AList.lookup_insert_ne (Nat.ne_of_lt less), ih k (Nat.le_of_lt_succ less)]
      · rw [table, AList.lookup_insert]

theorem preds_succ (i a : String) (k : ℕ) :
    preds P N i (k + 1) a = (P.dictOrder (frontier P N i k).level.keys).filter
      fun node => a ∈ N node ∧ a ∉ (frontier P N i (k + 1)).visited := by
  have found : (frontier P N i (k + 1)).level.lookup a = _ :=
    lookup_nextLevel P nodup (frontier P N i k).level (frontier P N i (k + 1)).visited a
  rw [preds, found]
  generalize (P.dictOrder (frontier P N i k).level.keys).filter
    (fun node => decide (a ∈ N node ∧ a ∉ (frontier P N i (k + 1)).visited)) = ps
  cases ps <;> simp

theorem nodup_preds (i a : String) (k : ℕ) : (preds P N i (k + 1) a).Nodup := by
  rw [preds_succ P nodup]
  exact ((P.dictOrder_perm _).nodup_iff.mpr (AList.keys_nodup _)).filter _

/-- The list stored at level `k + 1` holds the artists of level `k` that lead there. -/
theorem mem_preds (i a p : String) (k : ℕ) :
    p ∈ preds P N i (k + 1) a ↔
      AtDist (fun x y => y ∈ N x) i k p ∧ a ∈ N p ∧ a ∈ (frontier P N i (k + 1)).level := by
  have level : a ∈ (frontier P N i (k + 1)).level ↔
      (∃ q ∈ (frontier P N i k).level, a ∈ N q) ∧ a ∉ (frontier P N i (k + 1)).visited := by
    rw [frontier, mem_nextLevel P nodup]
  rw [preds_succ P nodup, List.mem_filter, (P.dictOrder_perm _).mem_iff, ← AList.mem_keys,
    mem_level P nodup, level, decide_eq_true_eq]
  constructor
  · rintro ⟨h, edge, fresh⟩
    exact ⟨h, edge, ⟨p, (mem_level P nodup i k p).mpr h, edge⟩, fresh⟩
  · rintro ⟨h, edge, _, fresh⟩
    exact ⟨h, edge, fresh⟩

theorem mem_preds_of_atDist (i : String) (k : ℕ) (a p : String)
    (dist : AtDist (fun x y => y ∈ N x) i (k + 1) a) :
    p ∈ preds P N i (k + 1) a ↔ AtDist (fun x y => y ∈ N x) i k p ∧ a ∈ N p := by
  have level := (mem_level P nodup i (k + 1) a).mpr dist
  rw [mem_preds P nodup]
  exact ⟨fun h => ⟨h.1, h.2.1⟩, fun h => ⟨h.1, h.2, level⟩⟩

omit nodup in
theorem lookup_preds {i a : String} {k : ℕ} (member : a ∈ (frontier P N i k).level) :
    (frontier P N i k).level.lookup a = some (preds P N i k a) := by
  obtain ⟨ps, found⟩ := Option.isSome_iff_exists.mp (AList.lookup_isSome.mpr member)
  rw [preds, found]
  rfl

/-! ## The backward expansion -/

omit nodup in
variable (N) in
def EndsIn (i : String) (c : ℕ) (paths : List Path) : Prop :=
  ∀ path ∈ paths, ∃ a, path.getLast? = some a ∧ AtDist (fun x y => y ∈ N x) i c a

theorem endsIn_forks (i : String) (c : ℕ) (paths : List Path) :
    EndsIn N i c (paths.flatMap fun path =>
      (preds P N i (c + 1) (path.getLast?.getD i)).map fun n => path ++ [n]) := by
  intro fork member
  obtain ⟨path, inPaths, inForks⟩ := List.mem_flatMap.mp member
  obtain ⟨n, pred, rfl⟩ := List.mem_map.mp inForks
  exact ⟨n, by simp, ((mem_preds P nodup i _ n c).mp pred).1⟩

theorem pathfork_table {i : String} {c l : ℕ} (le : c ≤ l) {path : Path} {a : String}
    (last : path.getLast? = some a) (level : AtDist (fun x y => y ∈ N x) i c a) :
    pathfork path (table P N i l) c = .ok ((preds P N i c a).map fun n => path ++ [n]) := by
  have member := (mem_level P nodup i c a).mpr level
  simp only [pathfork, item_ok (lookup_table P i l c le), ok_bind, last,
    item_ok (lookup_preds P member)]
  rfl

theorem backtrack_table {i : String} {l : ℕ} : ∀ (c : ℕ) (paths : List Path), c ≤ l →
    EndsIn N i c paths → backtrack (table P N i l) c paths = .ok (trace P N i c paths) := by
  intro c
  induction c with
  | zero => intro paths _ _; rfl
  | succ c ih =>
      intro paths le ends
      have forks : ∀ (paths acc : List Path), EndsIn N i (c + 1) paths →
          paths.foldlM (fun acc path => do
            return acc ++ (← pathfork path (table P N i l) (c + 1))) acc =
          (.ok (acc ++ paths.flatMap fun path =>
            (preds P N i (c + 1) (path.getLast?.getD i)).map fun n => path ++ [n]) :
            Except PyErr (List Path)) := by
        intro paths
        induction paths with
        | nil => intro acc _; simp; rfl
        | cons path paths ih =>
            intro acc ends
            obtain ⟨a, last, level⟩ := ends path (List.mem_cons_self ..)
            have rest := ih (acc ++ (preds P N i (c + 1) a).map fun n => path ++ [n])
              fun path' member => ends path' (List.mem_cons_of_mem _ member)
            rw [List.foldlM_cons, pathfork_table P nodup le last level]
            simp only [List.flatMap_cons, last, Option.getD_some]
            rw [← List.append_assoc]
            exact rest
      have step := forks paths [] ends
      rw [backtrack, step, trace]
      exact ih _ (Nat.le_of_succ_le le) (endsIn_forks P nodup i c paths)

theorem endsIn_preds {i j : String} {d : ℕ} (pos : 0 < d) :
    EndsIn N i (d - 1) ((preds P N i d j).map fun a => [j, a]) := by
  obtain ⟨k, rfl⟩ : ∃ k, d = k + 1 := ⟨d - 1, by omega⟩
  intro path member
  obtain ⟨a, pred, rfl⟩ := List.mem_map.mp member
  exact ⟨a, rfl, ((mem_preds P nodup i j a k).mp pred).1⟩

theorem determinePaths_table {i j : String} {d l : ℕ} (pos : 0 < d) (le : d ≤ l)
    (dist : AtDist (fun x y => y ∈ N x) i d j) :
    determinePaths j (table P N i l) d = .ok (shortestPaths P N i d j) := by
  have member := (mem_level P nodup i d j).mpr dist
  have expand := backtrack_table P nodup (d - 1) _ (by omega : d - 1 ≤ l)
    (endsIn_preds P nodup (i := i) (j := j) pos)
  simp only [determinePaths, item_ok (lookup_table P i l d le), ok_bind,
    item_ok (lookup_preds P member)]
  exact expand

omit nodup in
/-- The expansion prolongs each path by the paths listed back from its last artist. -/
theorem trace_eq (i : String) : ∀ (c : ℕ) (paths : List Path), (∀ path ∈ paths, path ≠ []) →
    trace P N i c paths = paths.flatMap fun path =>
      (pathsBack (preds P N i) c (path.getLast?.getD i)).map (path.dropLast ++ ·) := by
  intro c
  induction c with
  | zero =>
      intro paths nonempty
      have same : ∀ path ∈ paths,
          (pathsBack (preds P N i) 0 (path.getLast?.getD i)).map (path.dropLast ++ ·) = [path] := by
        intro path member
        rw [List.getLast?_eq_some_getLast (nonempty path member), pathsBack, List.map_singleton,
          Option.getD_some, List.dropLast_append_getLast]
      rw [trace, List.flatMap_congr same, List.flatMap_singleton']
  | succ c ih =>
      intro paths nonempty
      have forks : ∀ fork ∈ paths.flatMap (fun path =>
          (preds P N i (c + 1) (path.getLast?.getD i)).map fun n => path ++ [n]), fork ≠ [] := by
        intro fork member
        obtain ⟨path, _, inForks⟩ := List.mem_flatMap.mp member
        obtain ⟨n, _, rfl⟩ := List.mem_map.mp inForks
        simp
      rw [trace, ih _ forks, List.flatMap_assoc]
      refine List.flatMap_congr fun path member => ?_
      have whole : path.dropLast ++ [path.getLast?.getD i] = path := by
        rw [List.getLast?_eq_some_getLast (nonempty path member), Option.getD_some,
          List.dropLast_append_getLast]
      rw [pathsBack, List.map_flatMap, List.flatMap_map]
      refine List.flatMap_congr fun n _ => ?_
      rw [List.getLast?_concat, Option.getD_some, List.dropLast_concat, List.map_map]
      refine List.map_congr_left fun rest _ => ?_
      rw [Function.comp_apply, ← List.singleton_append, ← List.append_assoc, whole]

omit nodup in
theorem shortestPaths_eq (i j : String) (k : ℕ) :
    shortestPaths P N i (k + 1) j = pathsBack (preds P N i) (k + 1) j := by
  have nonempty : ∀ path ∈ (preds P N i (k + 1) j).map (fun a => [j, a]), path ≠ [] := by
    intro path member
    obtain ⟨a, _, rfl⟩ := List.mem_map.mp member
    simp
  rw [shortestPaths, Nat.add_sub_cancel, trace_eq P i k _ nonempty, List.flatMap_map, pathsBack]
  rfl

/-- The expansion lists the shortest paths, each written from `j` back to `i`. -/
theorem mem_shortestPaths {i j : String} {d : ℕ} (pos : 0 < d)
    (dist : AtDist (fun x y => y ∈ N x) i d j) (path : Path) :
    path ∈ shortestPaths P N i d j ↔
      Geodesic (fun x y => y ∈ N x) i d path ∧ path.head? = some j := by
  obtain ⟨k, rfl⟩ : ∃ k, d = k + 1 := ⟨d - 1, by omega⟩
  rw [shortestPaths_eq]
  exact mem_pathsBack (mem_preds_of_atDist P nodup i) dist path

theorem nodup_shortestPaths {i j : String} {d : ℕ} (pos : 0 < d)
    (dist : AtDist (fun x y => y ∈ N x) i d j) : (shortestPaths P N i d j).Nodup := by
  obtain ⟨k, rfl⟩ : ∃ k, d = k + 1 := ⟨d - 1, by omega⟩
  rw [shortestPaths_eq]
  exact nodup_pathsBack (mem_preds_of_atDist P nodup i) (fun k a => nodup_preds P nodup i a k) dist

end Phonograph.Server.PathLevels
