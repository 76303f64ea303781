import Mathlib
import Phonograph.Server.PathLevels
import Phonograph.Server.Routes

/-! # The neighbourhood of an artist

The loop of `/neighbourhood` walks the graph of `genre_neighbours` level by
level.  At the head of round `m` all three of its sets are exact: the current
step holds the artists at distance `m`, each scored with its number of shortest
paths, and the neighbourhood and the visited set hold the artists within
distance `m`.  A round either keeps this for `m + 1`, or takes the best part of
a level and is the last one. -/

set_option autoImplicit false

namespace Phonograph.Server.Neighbourhood

open Phonograph.Lib Phonograph.Server.Redis Phonograph.Server.Python
open Phonograph.Server.Database Phonograph.Server.PathLevels Phonograph.Server.Routes

variable {F S : Type} [Score S] (P : Platform F)

/-! ## The genre graph -/

/-- `b` is in `genre_neighbours(a, genre)`: `None` and the empty genre restrict nothing. -/
def GenreAdj (db : MusicDb S) (genre : Option String) (a b : String) : Prop :=
  db.Adj a b ∧ (genre = none ∨ genre = some "" ∨ db.artistInfo b "genre" = genre)

def genreMembers (db : MusicDb S) (genre : Option String) (a : String) : List String :=
  if genre = none ∨ genre = some "" then (db.neighbours a).members
  else (P.setOrder (db.neighbours a).members).filter fun n => db.artistInfo n "genre" = genre

theorem mem_genreMembers (db : MusicDb S) (genre : Option String) (a b : String) :
    b ∈ genreMembers P db genre a ↔ GenreAdj db genre a b := by
  rw [genreMembers, GenreAdj]
  split_ifs with free
  · simp only [MusicDb.Adj, ← or_assoc, free, true_or, and_true]
  · rw [List.mem_filter, (P.setOrder_perm _).mem_iff, decide_eq_true_eq, ← or_assoc]
    simp only [MusicDb.Adj, free, false_or]

theorem nodup_genreMembers (db : MusicDb S) (genre : Option String) (a : String) :
    (genreMembers P db genre a).Nodup := by
  rw [genreMembers]
  split_ifs
  · exact (db.neighbours a).nodup
  · exact ((P.setOrder_perm _).nodup_iff.mpr (db.neighbours a).nodup).filter _

theorem genreAdj_eq (db : MusicDb S) (genre : Option String) :
    (fun x y => y ∈ genreMembers P db genre x) = GenreAdj db genre := by
  funext x y
  exact propext (mem_genreMembers P db genre x y)

theorem yields_filterM {base : Store S} {body : String → Handler Bool} {keep : String → Bool}
    (each : ∀ n, Yields base (body n) (keep n)) :
    ∀ xs : List String, Yields base (xs.filterM body) (xs.filter keep) := by
  have aux : ∀ xs acc : List String, Yields base (xs.filterAuxM body acc)
      ((xs.filter keep).reverse ++ acc) := by
    intro xs
    induction xs with
    | nil => intro acc; exact Gives.done _ _ _ _
    | cons x xs ih =>
        intro acc
        refine Gives.bind _ (each x) ?_
        cases kept : keep x with
        | false =>
            rw [List.filter_cons_of_neg (by simp [kept])]
            exact ih acc
        | true =>
            rw [List.filter_cons_of_pos kept, List.reverse_cons, List.append_assoc]
            exact ih (x :: acc)
  intro xs
  have whole := aux xs []
  refine Gives.bind _ whole ?_
  rw [List.append_nil, List.reverse_reverse]
  exact Gives.done _ _ _ _

theorem yields_genreNeighbours (db : MusicDb S) (genre : Option String) (a : String) :
    Yields db.store (genreNeighbours P a genre) (genreMembers P db genre a) := by
  refine Gives.bind _ (yields_smembers (neighboursKey_not_scratch a) (db.neighbours_kind a)) ?_
  rw [genreMembers]
  split_ifs with free
  · exact Gives.done _ _ _ _
  · apply yields_filterM
    intro n
    refine Gives.bind _ (yields_hget (artistInfoKey_not_scratch n) "genre" (db.artistInfo_kind n)) ?_
    exact Gives.done _ _ _ _

/-! ## Scores -/

def score (d : Scores) (a : String) : ℕ := (d.lookup a).getD 0

theorem keys_items (d : Scores) : (items P d).map Prod.fst = P.dictOrder d.keys := by
  rw [items, List.map_map]
  exact List.map_id _

theorem mem_items {d : Scores} {e : String × ℕ} : e ∈ items P d ↔ e.1 ∈ d ∧ e.2 = score d e.1 := by
  rw [items, List.mem_map]
  constructor
  · rintro ⟨k, member, rfl⟩
    exact ⟨AList.mem_keys.mpr ((P.dictOrder_perm _).mem_iff.mp member), rfl⟩
  · intro ⟨member, same⟩
    exact ⟨e.1, (P.dictOrder_perm _).mem_iff.mpr (AList.mem_keys.mp member), Prod.ext rfl same.symm⟩

theorem nodup_keys_items (d : Scores) : ((items P d).map Prod.fst).Nodup := by
  rw [keys_items]
  exact (P.dictOrder_perm _).nodup_iff.mpr d.keys_nodup

theorem mem_update (members : List String) (d : Scores) (a : String) :
    a ∈ setUpdate members (P.dictOrder d.keys) ↔ a ∈ d ∨ a ∈ members := by
  rw [setUpdate, List.mem_union_iff, (P.dictOrder_perm _).mem_iff, ← AList.mem_keys]

private theorem foldl_insert : ∀ (xs : List (String × ℕ)) (d : Scores), (xs.map Prod.fst).Nodup →
    (∀ a, a ∈ xs.foldl (fun d e => d.insert e.1 e.2) d ↔ a ∈ xs.map Prod.fst ∨ a ∈ d) ∧
    (∀ e ∈ xs, score (xs.foldl (fun d e => d.insert e.1 e.2) d) e.1 = e.2) ∧
    ∀ a ∉ xs.map Prod.fst, score (xs.foldl (fun d e => d.insert e.1 e.2) d) a = score d a := by
  intro xs
  induction xs with
  | nil => intro d _; simp
  | cons x xs ih =>
      intro d nodup
      rw [List.map_cons, List.nodup_cons] at nodup
      obtain ⟨mem, listed, other⟩ := ih (d.insert x.1 x.2) nodup.2
      rw [List.foldl_cons]
      refine ⟨fun a => ?_, fun e member => ?_, fun a fresh => ?_⟩
      · rw [mem, AList.mem_insert, List.map_cons, List.mem_cons]
        tauto
      · rcases List.mem_cons.mp member with rfl | member
        · rw [other _ nodup.1, score, AList.lookup_insert, Option.getD_some]
        · exact listed e member
      · rw [List.map_cons, List.mem_cons, not_or] at fresh
        rw [other a fresh.2, score, AList.lookup_insert_ne fresh.1, score]

theorem mem_ofItems {xs : List (String × ℕ)} (nodup : (xs.map Prod.fst).Nodup) (a : String) :
    a ∈ ofItems xs ↔ a ∈ xs.map Prod.fst := by
  have found := (foldl_insert xs ∅ nodup).1 a
  rw [ofItems, found]
  simp [AList.notMem_empty]

theorem score_ofItems {xs : List (String × ℕ)} (nodup : (xs.map Prod.fst).Nodup)
    {e : String × ℕ} (member : e ∈ xs) : score (ofItems xs) e.1 = e.2 :=
  (foldl_insert xs ∅ nodup).2.1 e member

theorem length_ofItems {xs : List (String × ℕ)} (nodup : (xs.map Prod.fst).Nodup) :
    (ofItems xs).keys.length = xs.length := by
  have same : (ofItems xs).keys.Perm (xs.map Prod.fst) := by
    refine (List.perm_ext_iff_of_nodup (ofItems xs).keys_nodup nodup).mpr fun a => ?_
    rw [← AList.mem_keys, mem_ofItems nodup]
  rw [same.length_eq, List.length_map]

def addScores (v : ℕ) (next : Scores) (ns : List String) : Scores :=
  ns.foldl (fun next a => next.insert a ((next.lookup a).getD 0 + v)) next

def scoresFrom (N : String → List String) (currentstep : Scores) : Scores :=
  (items P currentstep).foldl (fun next e => addScores e.2 next (P.setOrder (N e.1))) ∅

theorem yields_step (db : MusicDb S) (genre : Option String) (currentstep : Scores) :
    Yields db.store (step P currentstep genre)
      (scoresFrom P (genreMembers P db genre) currentstep) := by
  apply Gives.foldlM
  intro next e _
  refine Gives.bind _ (yields_genreNeighbours P db genre e.1) ?_
  exact Gives.done _ _ _ _

theorem mem_addScores (v : ℕ) (a : String) : ∀ (ns : List String) (next : Scores),
    a ∈ addScores v next ns ↔ a ∈ ns ∨ a ∈ next := by
  intro ns
  induction ns with
  | nil => intro next; simp [addScores]
  | cons n ns ih =>
      intro next
      have rest := ih (next.insert n ((next.lookup n).getD 0 + v))
      rw [AList.mem_insert] at rest
      rw [List.mem_cons, or_assoc, or_left_comm]
      exact rest

theorem score_addScores (v : ℕ) (a : String) : ∀ (ns : List String) (next : Scores), ns.Nodup →
    score (addScores v next ns) a = score next a + if a ∈ ns then v else 0 := by
  intro ns
  induction ns with
  | nil => intro next _; rfl
  | cons n ns ih =>
      intro next nodup
      obtain ⟨fresh, nodup⟩ := List.nodup_cons.mp nodup
      have rest := ih (next.insert n ((next.lookup n).getD 0 + v)) nodup
      refine Eq.trans rest ?_
      by_cases same : a = n
      · subst same
        simp [score, fresh]
      · simp [score, same, AList.lookup_insert_ne same]

section Graph
variable {N : String → List String} (nodup : ∀ a, (N a).Nodup)

private theorem mem_foldl_addScores (a : String) : ∀ (xs : List (String × ℕ)) (next : Scores),
    a ∈ xs.foldl (fun next e => addScores e.2 next (P.setOrder (N e.1))) next ↔
      (∃ e ∈ xs, a ∈ N e.1) ∨ a ∈ next := by
  intro xs
  induction xs with
  | nil => intro next; simp
  | cons x xs ih =>
      intro next
      rw [List.foldl_cons, ih, mem_addScores, (P.setOrder_perm _).mem_iff]
      simp only [List.mem_cons, exists_eq_or_imp]
      rw [or_assoc]
      exact or_left_comm

include nodup in
private theorem score_foldl_addScores (a : String) : ∀ (xs : List (String × ℕ)) (next : Scores),
    score (xs.foldl (fun next e => addScores e.2 next (P.setOrder (N e.1))) next) a =
      score next a + ((xs.filter fun e => a ∈ N e.1).map Prod.snd).sum := by
  intro xs
  induction xs with
  | nil => intro next; simp
  | cons x xs ih =>
      intro next
      have ordered : (P.setOrder (N x.1)).Nodup := (P.setOrder_perm _).nodup_iff.mpr (nodup x.1)
      rw [List.foldl_cons, ih, score_addScores _ _ _ _ ordered]
      by_cases edge : a ∈ N x.1
      · rw [List.filter_cons_of_pos (by simpa using edge),
          if_pos ((P.setOrder_perm _).mem_iff.mpr edge), List.map_cons, List.sum_cons,
          Nat.add_assoc]
      · rw [List.filter_cons_of_neg (by simpa using edge),
          if_neg (mt (P.setOrder_perm _).mem_iff.mp edge), Nat.add_zero]

theorem mem_scoresFrom (currentstep : Scores) (a : String) :
    a ∈ scoresFrom P N currentstep ↔ ∃ p ∈ currentstep, a ∈ N p := by
  rw [scoresFrom, mem_foldl_addScores]
  constructor
  · rintro (⟨e, member, edge⟩ | absent)
    · exact ⟨e.1, ((mem_items P).mp member).1, edge⟩
    · exact absurd absent (AList.notMem_empty a)
  · rintro ⟨p, member, edge⟩
    exact Or.inl ⟨(p, score currentstep p), (mem_items P).mpr ⟨member, rfl⟩, edge⟩

include nodup in
theorem score_scoresFrom (currentstep : Scores) (a : String) :
    score (scoresFrom P N currentstep) a =
      ((currentstep.keys.filter fun p => a ∈ N p).map (score currentstep)).sum := by
  have walked : ((items P currentstep).filter fun e => a ∈ N e.1).map Prod.snd =
      ((P.dictOrder currentstep.keys).filter fun p => a ∈ N p).map (score currentstep) := by
    rw [items, List.filter_map, List.map_map]
    rfl
  have start : score (∅ : Scores) a = 0 := rfl
  rw [scoresFrom, score_foldl_addScores P nodup, walked, start, Nat.zero_add]
  exact (((P.dictOrder_perm _).filter _).map _).sum_eq

end Graph

/-! ## One round -/

structure Round where
  currentstep : Scores
  neighbourhood : List String
  visited : List String

def Round.start (origin : String) : Round := ⟨AList.singleton origin 1, [origin], [origin]⟩

def toConsider (scores : Scores) (visited : List String) : Scores :=
  ofItems ((items P scores).filter fun e => e.1 ∉ visited)

def ranked (scores : Scores) (visited : List String) : List (String × ℕ) :=
  sortedDesc (fun a b => decide (a.2 ≤ b.2)) (items P (toConsider P scores visited))

def toAdd (size : ℤ) (s : Round) (scores : Scores) : Scores :=
  ofItems (sliceTo (size - s.neighbourhood.length) (ranked P scores s.visited))

def Round.next (size : ℤ) (s : Round) (scores : Scores) : Round :=
  ⟨toAdd P size s scores,
    setUpdate s.neighbourhood (P.dictOrder (toAdd P size s scores).keys),
    setUpdate s.visited (P.dictOrder scores.keys)⟩

def Round.loop (genre : Option String) (size : ℤ) (fuel : ℕ) (s : Round) : Handler (List String) :=
  neighbourhoodLoop P genre size fuel s.currentstep s.neighbourhood s.visited

theorem Round.loop_succ (genre : Option String) (size : ℤ) (fuel : ℕ) (s : Round) :
    s.loop P genre size (fuel + 1) =
      if (s.neighbourhood.length : ℤ) < size then do
        let scores ← step P s.currentstep genre
        if (toAdd P size s scores).keys = [] then pure s.neighbourhood
        else (s.next P size scores).loop P genre size fuel
      else pure s.neighbourhood := rfl

section Ranking
variable (scores : Scores) (visited : List String)

private theorem nodup_considered :
    (((items P scores).filter fun e => e.1 ∉ visited).map Prod.fst).Nodup :=
  (nodup_keys_items P scores).sublist (List.filter_sublist.map _)

theorem mem_toConsider (a : String) :
    a ∈ toConsider P scores visited ↔ a ∈ scores ∧ a ∉ visited := by
  rw [toConsider, mem_ofItems (nodup_considered P scores visited), List.mem_map]
  constructor
  · rintro ⟨e, member, rfl⟩
    rw [List.mem_filter, decide_eq_true_eq, mem_items] at member
    exact ⟨member.1.1, member.2⟩
  · rintro ⟨member, fresh⟩
    refine ⟨(a, score scores a), ?_, rfl⟩
    rw [List.mem_filter, decide_eq_true_eq, mem_items]
    exact ⟨⟨member, rfl⟩, fresh⟩

theorem score_toConsider {a : String} (member : a ∈ toConsider P scores visited) :
    score (toConsider P scores visited) a = score scores a := by
  obtain ⟨found, fresh⟩ := (mem_toConsider P scores visited a).mp member
  have kept : (a, score scores a) ∈ (items P scores).filter fun e => e.1 ∉ visited := by
    rw [List.mem_filter, decide_eq_true_eq, mem_items]
    exact ⟨⟨found, rfl⟩, fresh⟩
  exact score_ofItems (nodup_considered P scores visited) kept

theorem ranked_perm : (ranked P scores visited).Perm (items P (toConsider P scores visited)) :=
  List.perm_insertionSort _ _

theorem mem_ranked (e : String × ℕ) : e ∈ ranked P scores visited ↔
    e.1 ∈ scores ∧ e.1 ∉ visited ∧ e.2 = score scores e.1 := by
  rw [(ranked_perm P scores visited).mem_iff, mem_items, ← and_assoc, ← mem_toConsider P]
  constructor
  · rintro ⟨member, same⟩
    exact ⟨member, same.trans (score_toConsider P scores visited member)⟩
  · rintro ⟨member, same⟩
    exact ⟨member, same.trans (score_toConsider P scores visited member).symm⟩

theorem nodup_ranked : ((ranked P scores visited).map Prod.fst).Nodup :=
  ((ranked_perm P scores visited).map _).nodup_iff.mpr (nodup_keys_items P _)

theorem ranked_sorted : (ranked P scores visited).Pairwise fun a b => b.2 ≤ a.2 := by
  have total : Std.Total fun a b : String × ℕ => decide (b.2 ≤ a.2) = true := ⟨by
    intro a b
    simp only [decide_eq_true_eq]
    exact le_total _ _⟩
  have trans : IsTrans (String × ℕ) fun a b => decide (b.2 ≤ a.2) = true := ⟨by
    intro a b c first second
    simp only [decide_eq_true_eq] at first second ⊢
    exact le_trans second first⟩
  have sorted := List.pairwise_insertionSort (fun a b : String × ℕ => decide (b.2 ≤ a.2) = true)
    (items P (toConsider P scores visited))
  exact sorted.imp fun h => of_decide_eq_true h

end Ranking

section Adding
variable {size : ℤ} {s : Round} (room : (s.neighbourhood.length : ℤ) < size) (scores : Scores)

def Round.left (size : ℤ) (s : Round) : ℕ := (size - s.neighbourhood.length).toNat

include room

private theorem toAdd_eq :
    toAdd P size s scores = ofItems ((ranked P scores s.visited).take (s.left size)) := by
  rw [toAdd, sliceTo, if_neg (by omega), Round.left]

omit room in
private theorem nodup_taken :
    (((ranked P scores s.visited).take (s.left size)).map Prod.fst).Nodup :=
  (nodup_ranked P scores s.visited).sublist ((List.take_sublist _ _).map _)

theorem length_toAdd : (toAdd P size s scores).keys.length =
    min (s.left size) (ranked P scores s.visited).length := by
  rw [toAdd_eq P room, length_ofItems (nodup_taken P scores), List.length_take]

theorem mem_toAdd (a : String) : a ∈ toAdd P size s scores ↔
    a ∈ ((ranked P scores s.visited).take (s.left size)).map Prod.fst := by
  rw [toAdd_eq P room, mem_ofItems (nodup_taken P scores)]

theorem fresh_of_mem_toAdd {a : String} (member : a ∈ toAdd P size s scores) :
    a ∈ scores ∧ a ∉ s.visited ∧ score (toAdd P size s scores) a = score scores a := by
  obtain ⟨e, taken, rfl⟩ := List.mem_map.mp ((mem_toAdd P room scores a).mp member)
  obtain ⟨found, fresh, same⟩ := (mem_ranked P scores s.visited e).mp (List.mem_of_mem_take taken)
  refine ⟨found, fresh, ?_⟩
  rw [toAdd_eq P room, score_ofItems (nodup_taken P scores) taken, same]

/-- With room for all of them, every fresh artist is added. -/
theorem mem_toAdd_of_room (enough : (ranked P scores s.visited).length ≤ s.left size)
    {a : String} (found : a ∈ scores) (fresh : a ∉ s.visited) : a ∈ toAdd P size s scores := by
  rw [mem_toAdd P room, List.take_of_length_le enough]
  exact List.mem_map.mpr ⟨(a, score scores a),
    (mem_ranked P scores s.visited _).mpr ⟨found, fresh, rfl⟩, rfl⟩

theorem score_le_of_left_out {a b : String} (added : a ∈ toAdd P size s scores)
    (found : b ∈ scores) (fresh : b ∉ s.visited) (out : b ∉ toAdd P size s scores) :
    score scores b ≤ score scores a := by
  obtain ⟨e, taken, rfl⟩ := List.mem_map.mp ((mem_toAdd P room scores a).mp added)
  have inside : (b, score scores b) ∈ ranked P scores s.visited :=
    (mem_ranked P scores s.visited _).mpr ⟨found, fresh, rfl⟩
  have sorted := ranked_sorted P scores s.visited
  rw [← List.take_append_drop (s.left size) (ranked P scores s.visited)] at inside sorted
  rcases List.mem_append.mp inside with front | back
  · exact absurd ((mem_toAdd P room scores b).mpr (List.mem_map.mpr ⟨_, front, rfl⟩)) out
  · have le := (List.pairwise_append.mp sorted).2.2 e taken _ back
    have same := ((mem_ranked P scores s.visited e).mp (List.mem_of_mem_take taken)).2.2
    rw [← same]
    exact le

omit room in
theorem mem_next_neighbourhood (a : String) : a ∈ (s.next P size scores).neighbourhood ↔
    a ∈ toAdd P size s scores ∨ a ∈ s.neighbourhood :=
  mem_update P s.neighbourhood (toAdd P size s scores) a

omit room in
theorem mem_next_visited (a : String) : a ∈ (s.next P size scores).visited ↔
    a ∈ scores ∨ a ∈ s.visited :=
  mem_update P s.visited scores a

theorem length_next (inside : ∀ a ∈ s.neighbourhood, a ∈ s.visited) :
    (s.next P size scores).neighbourhood.length =
      s.neighbourhood.length + (toAdd P size s scores).keys.length := by
  have apart : List.Disjoint (P.dictOrder (toAdd P size s scores).keys) s.neighbourhood := by
    intro a added old
    have member := AList.mem_keys.mpr ((P.dictOrder_perm _).mem_iff.mp added)
    exact (fresh_of_mem_toAdd P room scores member).2.1 (inside a old)
  have ordered : (P.dictOrder (toAdd P size s scores).keys).Nodup :=
    (P.dictOrder_perm _).nodup_iff.mpr (AList.keys_nodup _)
  rw [Round.next, setUpdate, List.Disjoint.union_eq apart, List.Nodup.dedup ordered,
    List.length_append, (P.dictOrder_perm _).length_eq, Nat.add_comm]

end Adding

/-! ## The invariant of the loop -/

section Invariant
variable {N : String → List String} (nodup : ∀ a, (N a).Nodup) {origin : String}

/-- The loop has walked the levels up to `m` and left nothing out. -/
structure Round.Complete (N : String → List String) (origin : String) (m : ℕ) (s : Round) :
    Prop where
  current : ∀ a, a ∈ s.currentstep ↔ AtDist (fun x y => y ∈ N x) origin m a
  counts : ∀ a ∈ s.currentstep, score s.currentstep a = pathCount (fun x y => y ∈ N x) origin a
  chosen : ∀ a, a ∈ s.neighbourhood ↔ ∃ k ≤ m, AtDist (fun x y => y ∈ N x) origin k a
  seen : ∀ a, a ∈ s.visited ↔ ∃ k ≤ m, AtDist (fun x y => y ∈ N x) origin k a
  distinct : s.neighbourhood.Nodup

theorem Round.complete_start (origin : String) : (Round.start origin).Complete N origin 0 := by
  have near : ∀ a, a ∈ [origin] ↔ ∃ k ≤ 0, AtDist (fun x y => y ∈ N x) origin k a := by
    intro a
    simp only [Nat.le_zero, exists_eq_left, atDist_zero, List.mem_singleton]
  have current : ∀ a, a ∈ (Round.start origin).currentstep ↔ a = origin := by
    intro a
    rw [Round.start, AList.mem_keys, AList.keys_singleton, List.mem_singleton]
  refine ⟨fun a => ?_, fun a member => ?_, near, near, List.nodup_singleton _⟩
  · rw [current, atDist_zero]
  · obtain rfl := (current a).mp member
    rw [pathCount_self]
    simp [score, Round.start, AList.singleton, AList.lookup]

include nodup

section Complete
variable {m : ℕ} {s : Round} (complete : s.Complete N origin m)
include complete

omit nodup in
/-- The fresh artists found by `step` are those of the next level. -/
theorem Round.Complete.fresh (a : String) :
    a ∈ scoresFrom P N s.currentstep ∧ a ∉ s.visited ↔
      AtDist (fun x y => y ∈ N x) origin (m + 1) a := by
  rw [mem_scoresFrom, complete.seen, atDist_succ]
  simp only [complete.current, not_exists, not_and]

/-- The scores of the fresh artists count their shortest paths. -/
theorem Round.Complete.score_eq {a : String} (found : a ∈ scoresFrom P N s.currentstep)
    (fresh : a ∉ s.visited) :
    score (scoresFrom P N s.currentstep) a = pathCount (fun x y => y ∈ N x) origin a := by
  have dist := (complete.fresh P a).mp ⟨found, fresh⟩
  have reached : (s.currentstep.keys.filter fun p => a ∈ N p).Perm (preds P N origin (m + 1) a) := by
    refine (List.perm_ext_iff_of_nodup ?_ (nodup_preds P nodup origin a m)).mpr fun p => ?_
    · exact s.currentstep.keys_nodup.filter _
    · rw [List.mem_filter, decide_eq_true_eq, ← AList.mem_keys, complete.current,
        mem_preds_of_atDist P nodup origin m a p dist]
  have counted : (s.currentstep.keys.filter fun p => a ∈ N p).map (score s.currentstep) =
      (s.currentstep.keys.filter fun p => a ∈ N p).map (pathCount (fun x y => y ∈ N x) origin) := by
    refine List.map_congr_left fun p member => ?_
    exact complete.counts p (AList.mem_keys.mpr (List.mem_of_mem_filter member))
  rw [score_scoresFrom P nodup, counted, (reached.map _).sum_eq,
    ← pathCount_sum (mem_preds_of_atDist P nodup origin)
      (fun k a => nodup_preds P nodup origin a k) dist]

/-- With room for the whole next level, a round completes it. -/
theorem Round.Complete.next {size : ℤ} (room : (s.neighbourhood.length : ℤ) < size)
    (enough : (ranked P (scoresFrom P N s.currentstep) s.visited).length ≤ s.left size) :
    (s.next P size (scoresFrom P N s.currentstep)).Complete N origin (m + 1) := by
  have added : ∀ a, a ∈ toAdd P size s (scoresFrom P N s.currentstep) ↔
      AtDist (fun x y => y ∈ N x) origin (m + 1) a := by
    intro a
    rw [← complete.fresh P]
    constructor
    · intro member
      obtain ⟨found, fresh, _⟩ := fresh_of_mem_toAdd P room _ member
      exact ⟨found, fresh⟩
    · rintro ⟨found, fresh⟩
      exact mem_toAdd_of_room P room _ enough found fresh
  have upto : ∀ a, (∃ k ≤ m + 1, AtDist (fun x y => y ∈ N x) origin k a) ↔
      AtDist (fun x y => y ∈ N x) origin (m + 1) a ∨
        ∃ k ≤ m, AtDist (fun x y => y ∈ N x) origin k a := by
    intro a
    simp only [Nat.le_succ_iff, or_and_right, exists_or, exists_eq_left]
    exact or_comm
  refine ⟨added, fun a member => ?_, fun a => ?_, fun a => ?_, ?_⟩
  · obtain ⟨found, fresh, same⟩ := fresh_of_mem_toAdd P room _ member
    exact same.trans (complete.score_eq P nodup found fresh)
  · rw [mem_next_neighbourhood, added, upto, complete.chosen]
  · rw [mem_next_visited, upto, ← complete.seen, ← complete.fresh P]
    tauto
  · exact List.Nodup.union _ complete.distinct

omit nodup in
/-- A round without room for the whole next level fills the neighbourhood. -/
theorem Round.Complete.length_cut {size : ℤ} (room : (s.neighbourhood.length : ℤ) < size)
    (cut : s.left size < (ranked P (scoresFrom P N s.currentstep) s.visited).length) :
    ((s.next P size (scoresFrom P N s.currentstep)).neighbourhood.length : ℤ) = size := by
  have inside : ∀ a ∈ s.neighbourhood, a ∈ s.visited := by
    intro a member
    exact (complete.seen a).mpr ((complete.chosen a).mp member)
  rw [length_next P room _ inside, length_toAdd P room, Round.left]
  rw [Round.left] at cut
  omega

end Complete

/-- What the loop leaves: whole levels, then the best of one more, of the size asked
for unless all that can be reached is taken. -/
structure Filled (N : String → List String) (origin : String) (size : ℤ) (chosen : List String) :
    Prop where
  distinct : chosen.Nodup
  levels : ∃ (m : ℕ) (last : Set String), (∀ a ∈ last, AtDist (fun x y => y ∈ N x) origin m a) ∧
    ∀ a, a ∈ chosen ↔ (∃ k < m, AtDist (fun x y => y ∈ N x) origin k a) ∨ a ∈ last
  count : (chosen.length : ℕ∞) =
    min (size.toNat : ℕ∞) {a | ∃ n, Walk (fun x y => y ∈ N x) n origin a}.encard
  best : ∀ k a b, AtDist (fun x y => y ∈ N x) origin k a → AtDist (fun x y => y ∈ N x) origin k b →
    a ∈ chosen → b ∉ chosen →
      pathCount (fun x y => y ∈ N x) origin b ≤ pathCount (fun x y => y ∈ N x) origin a

omit nodup in
private theorem count_of_length {chosen : List String} {size : ℤ} {reached : Set String}
    (distinct : chosen.Nodup) (full : (chosen.length : ℤ) = size)
    (inside : ∀ a ∈ chosen, a ∈ reached) :
    (chosen.length : ℕ∞) = min (size.toNat : ℕ∞) reached.encard := by
  have le : (chosen.length : ℕ∞) ≤ reached.encard := by
    rw [← encard_members distinct]
    exact Set.encard_le_encard inside
  rw [← full, Int.toNat_natCast, min_eq_left le]

section Complete
variable {m : ℕ} {s : Round} (complete : s.Complete N origin m)
include complete

omit nodup in
private theorem whole_levels :
    (∀ k a b, AtDist (fun x y => y ∈ N x) origin k a → AtDist (fun x y => y ∈ N x) origin k b →
      a ∈ s.neighbourhood → b ∈ s.neighbourhood) ∧
    ∃ (m : ℕ) (last : Set String), (∀ a ∈ last, AtDist (fun x y => y ∈ N x) origin m a) ∧
      ∀ a, a ∈ s.neighbourhood ↔
        (∃ k < m, AtDist (fun x y => y ∈ N x) origin k a) ∨ a ∈ last := by
  constructor
  · intro k a b distA distB member
    obtain ⟨j, le, at_j⟩ := (complete.chosen a).mp member
    exact (complete.chosen b).mpr ⟨k, distA.unique at_j ▸ le, distB⟩
  · refine ⟨m + 1, ∅, fun a member => absurd member (Set.notMem_empty a), fun a => ?_⟩
    rw [complete.chosen, Set.mem_empty_iff_false, or_false]
    simp only [Nat.lt_succ_iff]

omit nodup in
theorem Round.Complete.filled_of_full {size : ℤ} (full : (s.neighbourhood.length : ℤ) = size) :
    Filled N origin size s.neighbourhood := by
  obtain ⟨whole, levels⟩ := whole_levels complete
  refine ⟨complete.distinct, levels, count_of_length complete.distinct full fun a member => ?_, ?_⟩
  · obtain ⟨k, _, dist⟩ := (complete.chosen a).mp member
    exact ⟨k, dist.1⟩
  · intro k a b distA distB inside outside
    exact absurd (whole k a b distA distB inside) outside

omit nodup in
theorem Round.Complete.filled_of_exhausted {size : ℤ}
    (bound : (s.neighbourhood.length : ℤ) ≤ size)
    (empty : ∀ a, ¬ AtDist (fun x y => y ∈ N x) origin (m + 1) a) :
    Filled N origin size s.neighbourhood := by
  obtain ⟨whole, levels⟩ := whole_levels complete
  have beyond : ∀ k a, AtDist (fun x y => y ∈ N x) origin (m + 1 + k) a → False := by
    intro k
    induction k with
    | zero => intro a; exact empty a
    | succ k ih =>
        intro a dist
        obtain ⟨p, distP, _⟩ := dist.exists_pred
        exact ih p distP
  have all : {a | ∃ n, Walk (fun x y => y ∈ N x) n origin a} = {a | a ∈ s.neighbourhood} := by
    ext a
    constructor
    · rintro ⟨n, walk⟩
      obtain ⟨k, _, dist⟩ := exists_atDist_of_walk walk
      rcases Nat.lt_or_ge m k with far | near
      · obtain ⟨j, rfl⟩ := Nat.exists_eq_add_of_le far
        exact (beyond j a dist).elim
      · exact (complete.chosen a).mpr ⟨k, near, dist⟩
    · intro member
      obtain ⟨k, _, dist⟩ := (complete.chosen a).mp member
      exact ⟨k, dist.1⟩
  refine ⟨complete.distinct, levels, ?_, ?_⟩
  · rw [all, encard_members complete.distinct, min_eq_right]
    exact_mod_cast (by omega : s.neighbourhood.length ≤ size.toNat)
  · intro k a b distA distB inside outside
    exact absurd (whole k a b distA distB inside) outside

omit nodup in
/-- With room left, a step that adds nothing has found nobody new. -/
theorem Round.Complete.filled_of_none {size : ℤ} (room : (s.neighbourhood.length : ℤ) < size)
    (none : (toAdd P size s (scoresFrom P N s.currentstep)).keys = []) :
    Filled N origin size s.neighbourhood := by
  refine complete.filled_of_exhausted room.le fun a dist => ?_
  obtain ⟨member, fresh⟩ := (complete.fresh P a).mpr dist
  have entry := (mem_ranked P _ s.visited (a, score _ a)).mpr ⟨member, fresh, rfl⟩
  have pos := List.length_pos_of_mem entry
  have added := length_toAdd P room (scoresFrom P N s.currentstep)
  rw [none, List.length_nil, Round.left] at added
  omega

theorem Round.Complete.filled_of_cut {size : ℤ} (room : (s.neighbourhood.length : ℤ) < size)
    (cut : s.left size < (ranked P (scoresFrom P N s.currentstep) s.visited).length) :
    Filled N origin size (s.next P size (scoresFrom P N s.currentstep)).neighbourhood := by
  have added : ∀ a ∈ toAdd P size s (scoresFrom P N s.currentstep),
      AtDist (fun x y => y ∈ N x) origin (m + 1) a := by
    intro a member
    obtain ⟨found, fresh, _⟩ := fresh_of_mem_toAdd P room _ member
    exact (complete.fresh P a).mp ⟨found, fresh⟩
  have distinct : (s.next P size (scoresFrom P N s.currentstep)).neighbourhood.Nodup :=
    List.Nodup.union _ complete.distinct
  refine ⟨distinct, ?_, count_of_length distinct (complete.length_cut P room cut) ?_, ?_⟩
  · refine ⟨m + 1, {a | a ∈ toAdd P size s (scoresFrom P N s.currentstep)}, added, fun a => ?_⟩
    rw [mem_next_neighbourhood, complete.chosen, or_comm]
    simp only [Nat.lt_succ_iff, Set.mem_ofPred_eq]
  · intro a member
    rcases (mem_next_neighbourhood P _ a).mp member with new | old
    · exact ⟨m + 1, (added a new).1⟩
    · obtain ⟨k, _, dist⟩ := (complete.chosen a).mp old
      exact ⟨k, dist.1⟩
  · intro k a b distA distB inside outside
    rw [mem_next_neighbourhood, not_or] at outside
    rcases (mem_next_neighbourhood P _ a).mp inside with new | old
    · obtain rfl := distA.unique (added a new)
      obtain ⟨foundA, freshA, _⟩ := fresh_of_mem_toAdd P room _ new
      obtain ⟨foundB, freshB⟩ := (complete.fresh P b).mpr distB
      rw [← complete.score_eq P nodup foundA freshA, ← complete.score_eq P nodup foundB freshB]
      exact score_le_of_left_out P room _ new foundB freshB outside.1
    · exact absurd ((whole_levels complete).1 k a b distA distB old) outside.2

end Complete

end Invariant

/-! ## Whole runs -/

section Runs
variable (db : MusicDb S) (genre : Option String) (origin : String) (size : ℤ)

inductive Reached : Round → Prop where
  | start : Reached (Round.start origin)
  | next {s : Round} {scores : Scores} {tape : Tape} : Reached s →
      (s.neighbourhood.length : ℤ) < size →
      (run (machine S) (step P s.currentstep genre) tape db.store).1 = .ok scores →
      (toAdd P size s scores).keys ≠ [] → Reached (s.next P size scores)

theorem run_step (tape : Tape) (currentstep : Scores) :
    (run (machine S) (step P currentstep genre) tape db.store).1 =
      .ok (scoresFrom P (genreMembers P db genre) currentstep) := by
  obtain ⟨_, ran, _⟩ := yields_step P db genre currentstep db.store (AgreeOff.refl _ _) tape
  rw [ran]

variable {db genre origin size}

/-- No level but the last is truncated. -/
theorem Reached.complete {s : Round} (reached : Reached P db genre origin size s) :
    (∃ m, s.Complete (genreMembers P db genre) origin m) ∨ size ≤ s.neighbourhood.length := by
  have nodup := nodup_genreMembers P db genre
  induction reached with
  | start => exact Or.inl ⟨0, Round.complete_start origin⟩
  | @next s scores tape reached room ran _ ih =>
      rw [run_step P db genre tape s.currentstep] at ran
      obtain rfl := Except.ok.inj ran
      rcases ih with ⟨m, complete⟩ | full
      · rcases Nat.lt_or_ge (s.left size)
          (ranked P (scoresFrom P (genreMembers P db genre) s.currentstep) s.visited).length
          with cut | enough
        · exact Or.inr (complete.length_cut P room cut).ge
        · exact Or.inl ⟨m + 1, complete.next P nodup room enough⟩
      · omega

theorem yields_loop : ∀ (fuel m : ℕ) (s : Round), s.Complete (genreMembers P db genre) origin m →
    (s.neighbourhood.length : ℤ) ≤ size → s.left size < fuel →
    ∃ chosen, Yields db.store (s.loop P genre size fuel) chosen ∧
      Filled (genreMembers P db genre) origin size chosen := by
  have nodup := nodup_genreMembers P db genre
  intro fuel
  induction fuel with
  | zero => intro m s _ _ enough; omega
  | succ fuel ih =>
      intro m s complete bound enough
      rw [Round.loop_succ]
      by_cases room : (s.neighbourhood.length : ℤ) < size
      · rw [if_pos room]
        have scored := yields_step P db genre s.currentstep
        generalize found : scoresFrom P (genreMembers P db genre) s.currentstep = scores at scored
        by_cases none : (toAdd P size s scores).keys = []
        · refine ⟨s.neighbourhood, Gives.bind _ scored ?_, ?_⟩
          · rw [if_pos none]
            exact Gives.done _ _ _ _
          · rw [← found] at none
            exact complete.filled_of_none P room none
        · have more := List.length_pos_iff.mpr none
          have added := length_toAdd P room scores
          have left : 0 < s.left size := by
            rw [Round.left]
            omega
          rcases Nat.lt_or_ge (s.left size) (ranked P scores s.visited).length with cut | whole
          · -- The level is cut, and the next test of the loop leaves it.
            rw [← found] at cut none scored
            have full := complete.length_cut P room cut
            refine ⟨_, Gives.bind _ scored ?_, complete.filled_of_cut P nodup room cut⟩
            rw [if_neg none]
            obtain ⟨fuel, rfl⟩ : ∃ n, fuel = n + 1 := ⟨fuel - 1, by omega⟩
            rw [Round.loop_succ, if_neg (by omega)]
            exact Gives.done _ _ _ _
          · have grown := length_next P room scores fun a member =>
              (complete.seen a).mpr ((complete.chosen a).mp member)
            have fits : ((s.next P size scores).neighbourhood.length : ℤ) ≤ size := by
              rw [grown, added, Round.left]
              omega
            have fewer : (s.next P size scores).left size < fuel := by
              rw [Round.left] at enough ⊢
              omega
            rw [← found] at whole none scored fits fewer
            obtain ⟨chosen, given, filled⟩ :=
              ih (m + 1) _ (complete.next P nodup room whole) fits fewer
            refine ⟨chosen, Gives.bind _ scored ?_, filled⟩
            rw [if_neg none]
            exact given
      · rw [if_neg room]
        exact ⟨_, Gives.done _ _ _ _, complete.filled_of_full (by omega)⟩

variable (db genre origin) in
theorem run_loop (pos : 1 ≤ size) {fuel : ℕ} (enough : size.toNat ≤ fuel) (tape : Tape) :
    ∃ chosen, (run (machine S) (neighbourhoodLoop P genre size fuel (AList.singleton origin 1)
        [origin] [origin]) tape db.store).1 = .ok chosen ∧
      Filled (genreMembers P db genre) origin size chosen := by
  have one : (Round.start origin).neighbourhood.length = 1 := rfl
  have bound : ((Round.start origin).neighbourhood.length : ℤ) ≤ size := by
    rw [one]
    exact pos
  have fuelled : (Round.start origin).left size < fuel := by
    rw [Round.left, one]
    omega
  obtain ⟨chosen, given, filled⟩ := yields_loop P fuel 0 (Round.start origin)
    (Round.complete_start (N := genreMembers P db genre) origin) bound fuelled
  obtain ⟨_, ran, _⟩ := given db.store (AgreeOff.refl _ _) tape
  exact ⟨chosen, congrArg Prod.fst ran, filled⟩

end Runs

/-- The neighbourhood is made of whole distance levels of the genre graph and a part of
the next one.  It has `size` artists, or all that can be reached if these are fewer, and
each of them is reached through others of the neighbourhood. -/
theorem neighbourhood_levels (db : MusicDb S) (genre : Option String) (origin : String) (size : ℤ)
    (pos : 1 ≤ size) (fuel : ℕ) (enough : size.toNat ≤ fuel) (tape : Tape) :
    ∃ chosen, (run (machine S) (neighbourhoodLoop P genre size fuel (AList.singleton origin 1)
        [origin] [origin]) tape db.store).1 = .ok chosen ∧
      chosen.Nodup ∧
      (∃ (m : ℕ) (last : Set String), (∀ a ∈ last, AtDist (GenreAdj db genre) origin m a) ∧
        ∀ a, a ∈ chosen ↔ (∃ k < m, AtDist (GenreAdj db genre) origin k a) ∨ a ∈ last) ∧
      (chosen.length : ℕ∞) =
        min (size.toNat : ℕ∞) {a | ∃ n, Walk (GenreAdj db genre) n origin a}.encard ∧
      ∀ a ∈ chosen, ∃ n,
        Walk (fun x y => GenreAdj db genre x y ∧ x ∈ chosen ∧ y ∈ chosen) n origin a := by
  obtain ⟨chosen, ran, filled⟩ := run_loop P db genre origin pos enough tape
  have levels := filled.levels
  have count := filled.count
  rw [genreAdj_eq] at levels count
  refine ⟨chosen, ran, filled.distinct, levels, count, fun a member => ?_⟩
  obtain ⟨m, last, inLast, inChosen⟩ := levels
  have near : ∀ k < m, ∀ b, AtDist (GenreAdj db genre) origin k b → b ∈ chosen := by
    intro k less b dist
    exact (inChosen b).mpr (Or.inl ⟨k, less, dist⟩)
  have inside : ∀ b, b ∈ chosen → ∃ k ≤ m, AtDist (GenreAdj db genre) origin k b := by
    intro b taken
    rcases (inChosen b).mp taken with ⟨k, less, dist⟩ | ofLast
    · exact ⟨k, less.le, dist⟩
    · exact ⟨m, le_rfl, inLast b ofLast⟩
  exact walk_within near inside member

theorem neighbourhood_levels_row : ∃ chosen,
    (run (machine ℤ) (neighbourhoodLoop Platform.plain none 2 2 (AList.singleton "a" 1) ["a"] ["a"])
      (fun _ => 0) rowDb.store).1 = .ok chosen ∧ chosen.Nodup ∧
    ∀ a ∈ chosen, ∃ n,
      Walk (fun x y => GenreAdj rowDb none x y ∧ x ∈ chosen ∧ y ∈ chosen) n "a" a := by
  obtain ⟨chosen, ran, distinct, _, _, reached⟩ :=
    neighbourhood_levels Platform.plain rowDb none "a" 2 (by decide) 2 (by decide) fun _ => 0
  exact ⟨chosen, ran, distinct, reached⟩

/-- In every iteration `step` scores, of the artists not yet visited, exactly the genre
neighbours of the current step, which are the next level from the origin.  The score is
their number of shortest paths, and of the last level the artists with the most paths are
taken. -/
theorem neighbourhood_ranking (db : MusicDb S) (genre : Option String) (origin : String)
    (size : ℤ) (pos : 1 ≤ size) :
    (∀ s, Reached P db genre origin size s → (s.neighbourhood.length : ℤ) < size → ∀ tape,
      ∃ scores, (run (machine S) (step P s.currentstep genre) tape db.store).1 = .ok scores ∧
        (∀ a ∉ s.visited, a ∈ scores ↔ ∃ x ∈ s.currentstep, GenreAdj db genre x a) ∧
        (∃ m, (∀ a, a ∈ s.visited ↔ ∃ k ≤ m, AtDist (GenreAdj db genre) origin k a) ∧
          ∀ a ∉ s.visited, a ∈ scores ↔ AtDist (GenreAdj db genre) origin (m + 1) a) ∧
        ∀ a ∉ s.visited, ∀ v, scores.lookup a = some v →
          v = pathCount (GenreAdj db genre) origin a) ∧
    ∀ fuel, size.toNat ≤ fuel → ∀ tape, ∃ chosen,
      (run (machine S) (neighbourhoodLoop P genre size fuel (AList.singleton origin 1)
        [origin] [origin]) tape db.store).1 = .ok chosen ∧
      (chosen.length : ℕ∞) =
        min (size.toNat : ℕ∞) {a | ∃ n, Walk (GenreAdj db genre) n origin a}.encard ∧
      ∀ k a b, AtDist (GenreAdj db genre) origin k a → AtDist (GenreAdj db genre) origin k b →
        a ∈ chosen → b ∉ chosen →
          pathCount (GenreAdj db genre) origin b ≤ pathCount (GenreAdj db genre) origin a := by
  constructor
  · intro s reached room tape
    rcases reached.complete P with ⟨m, complete⟩ | full
    · have member : ∀ a, a ∈ scoresFrom P (genreMembers P db genre) s.currentstep ↔
          ∃ x ∈ s.currentstep, GenreAdj db genre x a := by
        intro a
        rw [mem_scoresFrom]
        simp only [mem_genreMembers]
      have seen := complete.seen
      have next := complete.fresh P
      rw [genreAdj_eq] at seen next
      refine ⟨_, run_step P db genre tape s.currentstep, fun a _ => member a, ⟨m, seen, ?_⟩, ?_⟩
      · intro a fresh
        rw [← next, and_iff_left fresh]
      · intro a fresh v found
        have scored : a ∈ scoresFrom P (genreMembers P db genre) s.currentstep :=
          AList.lookup_isSome.mp (by rw [found]; rfl)
        have counted := complete.score_eq P (nodup_genreMembers P db genre) scored fresh
        rw [score, found, Option.getD_some, genreAdj_eq] at counted
        exact counted
    · omega
  · intro fuel enough tape
    obtain ⟨chosen, ran, filled⟩ := run_loop P db genre origin pos enough tape
    have best := filled.best
    have count := filled.count
    rw [genreAdj_eq] at best count
    exact ⟨chosen, ran, count, best⟩

theorem neighbourhood_ranking_row : ∃ scores,
    (run (machine ℤ) (step Platform.plain (Round.start "a").currentstep none) (fun _ => 0)
      rowDb.store).1 = .ok scores ∧ "b" ∈ scores ∧
    ∀ a ∉ ["a"], ∀ v, scores.lookup a = some v → v = pathCount (GenreAdj rowDb none) "a" a := by
  obtain ⟨scores, ran, scored, _, counts⟩ :=
    (neighbourhood_ranking Platform.plain rowDb none "a" 2 (by decide)).1 (Round.start "a")
      .start (by decide) fun _ => 0
  have listed : "b" ∈ (rowDb.neighbours "a").members := by decide +kernel
  have near : GenreAdj rowDb none "a" "b" := ⟨listed, Or.inl rfl⟩
  have current : "a" ∈ (Round.start "a").currentstep :=
    AList.mem_keys.mpr (List.mem_singleton_self _)
  exact ⟨scores, ran, (scored "b" (by decide)).mpr ⟨"a", current, near⟩, counts⟩

end Phonograph.Server.Neighbourhood
