import Mathlib.Data.Nat.Find
import Mathlib.Data.List.Chain
import Mathlib.Data.List.Nodup
import Mathlib.Data.Set.Card

/-! # Distance levels of a directed graph

`AtDist N i k a` says that the shortest walk from `i` to `a` has `k` steps.  A
`Geodesic N i k path` is a shortest path written from its far end back to `i`,
the order in which a breadth-first search recovers it.  Its vertices are
distinct, and an edge from a nearer to a farther vertex joins neighbours of the
list: a shortest path has no chord.  `pathsBack` lists the shortest paths to a
vertex from the predecessors of each level; it lists each of them once.  A
`Rooted` set is one that is made of shortest paths. -/

set_option autoImplicit false

namespace Phonograph.Lib

variable {α : Type} (N : α → α → Prop)

inductive Walk : ℕ → α → α → Prop where
  | refl (a : α) : Walk 0 a a
  | snoc {n : ℕ} {a b c : α} : Walk n a b → N b c → Walk (n + 1) a c

def AtDist (i : α) (k : ℕ) (a : α) : Prop := Walk N k i a ∧ ∀ m < k, ¬ Walk N m i a

variable {N} {i a b : α} {j k : ℕ}

theorem walk_zero : Walk N 0 a b ↔ b = a := by
  constructor
  · intro walk
    cases walk
    rfl
  · rintro rfl
    exact .refl b

theorem walk_succ : Walk N (k + 1) a b ↔ ∃ p, Walk N k a p ∧ N p b := by
  constructor
  · intro walk
    cases walk with
    | snoc walk edge => exact ⟨_, walk, edge⟩
  · rintro ⟨p, walk, edge⟩
    exact .snoc walk edge

theorem atDist_zero : AtDist N i 0 a ↔ a = i := by
  rw [AtDist, walk_zero]
  exact ⟨And.left, fun h => ⟨h, fun m small => absurd small (Nat.not_lt_zero m)⟩⟩

theorem AtDist.pos (h : AtDist N i k a) (ne : i ≠ a) : 0 < k := by
  rcases Nat.eq_zero_or_pos k with rfl | pos
  · exact absurd (atDist_zero.mp h).symm ne
  · exact pos

theorem AtDist.unique (h : AtDist N i j a) (h' : AtDist N i k a) : j = k := by
  by_contra ne
  rcases Nat.lt_or_gt_of_ne ne with less | less
  · exact h'.2 j less h.1
  · exact h.2 k less h'.1

theorem exists_atDist_of_walk (walk : Walk N k i a) : ∃ j ≤ k, AtDist N i j a := by
  classical
  have some_walk : ∃ n, Walk N n i a := ⟨k, walk⟩
  exact ⟨Nat.find some_walk, Nat.find_min' some_walk walk, Nat.find_spec some_walk,
    fun m less => Nat.find_min some_walk less⟩

theorem AtDist.exists_pred (h : AtDist N i (k + 1) a) : ∃ p, AtDist N i k p ∧ N p a := by
  obtain ⟨p, walk, edge⟩ := walk_succ.mp h.1
  refine ⟨p, ⟨walk, fun m less shorter => ?_⟩, edge⟩
  exact h.2 (m + 1) (Nat.succ_lt_succ less) (.snoc shorter edge)

theorem AtDist.exists_nearer (h : AtDist N i k a) (le : j ≤ k) : ∃ p, AtDist N i j p := by
  induction k generalizing a with
  | zero =>
      obtain rfl := Nat.le_zero.mp le
      exact ⟨a, h⟩
  | succ k ih =>
      rcases Nat.eq_or_lt_of_le le with rfl | less
      · exact ⟨a, h⟩
      · obtain ⟨p, dist, _⟩ := h.exists_pred
        exact ih dist (Nat.le_of_lt_succ less)

theorem AtDist.edge_le (h : AtDist N i k a) (edge : N a b) (h' : AtDist N i j b) :
    j ≤ k + 1 := by
  by_contra far
  exact h'.2 (k + 1) (Nat.lt_of_not_le far) (.snoc h.1 edge)

theorem atDist_succ : AtDist N i (k + 1) a ↔
    (∃ p, AtDist N i k p ∧ N p a) ∧ ∀ j ≤ k, ¬ AtDist N i j a := by
  constructor
  · intro h
    exact ⟨h.exists_pred, fun j le h' => absurd (h.unique h') (by omega)⟩
  · rintro ⟨⟨p, h, edge⟩, fresh⟩
    refine ⟨.snoc h.1 edge, fun m less walk => ?_⟩
    obtain ⟨j, le, at_j⟩ := exists_atDist_of_walk walk
    exact fresh j (by omega) at_j

variable (N) in
inductive Geodesic (i : α) : ℕ → List α → Prop where
  | start : Geodesic i 0 [i]
  | step {k : ℕ} {a p : α} {rest : List α} : Geodesic i k (p :: rest) → N p a →
      AtDist N i (k + 1) a → Geodesic i (k + 1) (a :: p :: rest)

variable {path : List α}

theorem Geodesic.length (h : Geodesic N i k path) : path.length = k + 1 := by
  induction h with
  | start => rfl
  | step _ _ _ ih => rw [List.length_cons, ih]

theorem Geodesic.atDist (h : Geodesic N i k path) :
    ∀ (m : ℕ) (v : α), path[m]? = some v → AtDist N i (k - m) v := by
  induction h with
  | start =>
      intro m v found
      cases m with
      | zero => exact atDist_zero.mpr (Option.some.inj found).symm
      | succ m => simp at found
  | @step k a p rest _ _ far ih =>
      intro m v found
      cases m with
      | zero => exact Option.some.inj found ▸ far
      | succ m =>
          have := ih m v (by simpa using found)
          rwa [Nat.add_sub_add_right]

theorem Geodesic.edge (h : Geodesic N i k path) :
    ∀ (m : ℕ) (u v : α), path[m]? = some v → path[m + 1]? = some u → N u v := by
  induction h with
  | start => intro m u v _ found; simp at found
  | @step k a p rest _ edge _ ih =>
      intro m u v found found'
      cases m with
      | zero =>
          obtain rfl : a = v := by simpa using found
          obtain rfl : p = u := by simpa using found'
          exact edge
      | succ m => exact ih m u v (by simpa using found) (by simpa using found')

theorem Geodesic.nodup (h : Geodesic N i k path) : path.Nodup := by
  refine List.nodup_iff_getElem?_ne_getElem?.mpr fun m n less bound same => ?_
  obtain ⟨v, found⟩ : ∃ v, path[n]? = some v := ⟨_, List.getElem?_eq_getElem bound⟩
  have len := h.length
  have := (h.atDist n v found).unique (h.atDist m v (same.trans found))
  omega

/-- A shortest path has no chord. -/
theorem Geodesic.chordless (h : Geodesic N i k path) {m n : ℕ} {u v : α} (less : m < n)
    (far : path[m]? = some v) (near : path[n]? = some u) (edge : N u v) : n = m + 1 := by
  have len := h.length
  have bound : n < path.length := (List.getElem?_eq_some_iff.mp near).1
  have := (h.atDist n u near).edge_le edge (h.atDist m v far)
  omega

theorem Geodesic.getLast (h : Geodesic N i k path) : path.getLast? = some i := by
  induction h with
  | start => rfl
  | step _ _ _ ih => rw [List.getLast?_cons_cons, ih]

/-! ## Subgraphs -/

theorem Walk.mono {M : α → α → Prop} (sub : ∀ x y, M x y → N x y) (walk : Walk M k a b) :
    Walk N k a b := by
  induction walk with
  | refl a => exact .refl a
  | snoc _ edge ih => exact .snoc ih (sub _ _ edge)

theorem Walk.cons {c : α} (edge : N a b) (walk : Walk N k b c) : Walk N (k + 1) a c := by
  induction walk with
  | refl b => exact .snoc (.refl a) edge
  | snoc _ last ih => exact .snoc (ih edge) last

theorem Walk.reverse (symmetric : ∀ x y, N x y → N y x) (walk : Walk N k a b) : Walk N k b a := by
  induction walk with
  | refl a => exact .refl a
  | snoc _ edge ih => exact .cons (symmetric _ _ edge) ih

theorem AtDist.reverse (symmetric : ∀ x y, N x y → N y x) (dist : AtDist N i k a) :
    AtDist N a k i :=
  ⟨dist.1.reverse symmetric, fun m less walk => dist.2 m less (walk.reverse symmetric)⟩

/-- A subgraph that holds a walk of the least length keeps the distance. -/
theorem AtDist.subgraph_iff {M : α → α → Prop} (sub : ∀ x y, M x y → N x y)
    (dist : AtDist N i k a) (walk : Walk M k i a) (d : ℕ) : AtDist M i d a ↔ AtDist N i d a := by
  have inner : AtDist M i k a := ⟨walk, fun m less shorter => dist.2 m less (shorter.mono sub)⟩
  constructor
  · intro at_d
    exact inner.unique at_d ▸ dist
  · intro at_d
    exact dist.unique at_d ▸ inner

theorem Geodesic.walk_within {C : α → Prop} (h : Geodesic N i k path)
    (inside : ∀ v ∈ path, C v) (head : path.head? = some a) :
    Walk (fun x y => N x y ∧ C x ∧ C y) k i a := by
  induction h generalizing a with
  | start =>
      obtain rfl := Option.some.inj head
      exact .refl _
  | @step k v p rest _ edge _ ih =>
      obtain rfl : v = a := Option.some.inj head
      have inRest : ∀ u ∈ p :: rest, C u := fun u member => inside u (List.mem_cons_of_mem _ member)
      exact .snoc (ih inRest rfl) ⟨edge, inRest p (List.mem_cons_self ..),
        inside v (List.mem_cons_self ..)⟩

/-- A set of whole levels and a part of the next is connected from `i`. -/
theorem walk_within {C : α → Prop} {m : ℕ} (near : ∀ k < m, ∀ a, AtDist N i k a → C a)
    (inside : ∀ a, C a → ∃ k ≤ m, AtDist N i k a) {a : α} (member : C a) :
    ∃ n, Walk (fun x y => N x y ∧ C x ∧ C y) n i a := by
  have reach : ∀ k ≤ m, ∀ a, AtDist N i k a → C a →
      Walk (fun x y => N x y ∧ C x ∧ C y) k i a := by
    intro k
    induction k with
    | zero =>
        intro _ a dist _
        exact walk_zero.mpr (atDist_zero.mp dist)
    | succ k ih =>
        intro le a dist member
        obtain ⟨p, distP, edge⟩ := dist.exists_pred
        have memberP := near k (by omega) p distP
        exact .snoc (ih (by omega) p distP memberP) ⟨edge, memberP, member⟩
  obtain ⟨k, le, dist⟩ := inside a member
  exact ⟨k, reach k le a dist member⟩

/-! ## Rooted sets -/

theorem Geodesic.exists_pred_mem (h : Geodesic N i k path) (member : a ∈ path)
    (dist : AtDist N i (j + 1) a) : ∃ p ∈ path, AtDist N i j p ∧ N p a := by
  obtain ⟨m, found⟩ := List.mem_iff_getElem?.mp member
  have here : j + 1 = k - m := dist.unique (h.atDist m a found)
  have bound : m + 1 < path.length := by
    rw [h.length]
    omega
  have next : path[m + 1]? = some path[m + 1] := List.getElem?_eq_getElem bound
  have near := h.atDist (m + 1) _ next
  rw [show k - (m + 1) = j by omega] at near
  exact ⟨path[m + 1], List.getElem_mem bound, near, h.edge m _ a found next⟩

variable (N) in
/-- The set holds `i`, and with every other vertex a predecessor one level nearer to `i`. -/
structure Rooted (i : α) (C : α → Prop) : Prop where
  root : C i
  placed : ∀ a, C a → ∃ k, AtDist N i k a
  closed : ∀ a k, C a → AtDist N i (k + 1) a → ∃ p, C p ∧ AtDist N i k p ∧ N p a

theorem rooted_root : Rooted N i (· = i) where
  root := rfl
  placed a same := ⟨0, atDist_zero.mpr same⟩
  closed a k same dist := by
    have zero := dist.unique (atDist_zero.mpr same)
    omega

/-- A rooted set stays rooted when whole shortest paths are added. -/
theorem Rooted.add {C D : α → Prop} (rooted : Rooted N i C)
    (along : ∀ a, D a → ∃ k path, Geodesic N i k path ∧ a ∈ path ∧ ∀ v ∈ path, D v) :
    Rooted N i (fun a => C a ∨ D a) where
  root := Or.inl rooted.root
  placed := by
    intro a member
    rcases member with old | new
    · exact rooted.placed a old
    · obtain ⟨k, path, geodesic, inPath, _⟩ := along a new
      obtain ⟨m, found⟩ := List.mem_iff_getElem?.mp inPath
      exact ⟨k - m, geodesic.atDist m a found⟩
  closed := by
    intro a d member dist
    rcases member with old | new
    · obtain ⟨p, inC, near, edge⟩ := rooted.closed a d old dist
      exact ⟨p, Or.inl inC, near, edge⟩
    · obtain ⟨k, path, geodesic, inPath, inside⟩ := along a new
      obtain ⟨p, inPath, near, edge⟩ := geodesic.exists_pred_mem inPath dist
      exact ⟨p, Or.inr (inside p inPath), near, edge⟩

theorem Rooted.exists_geodesic {C : α → Prop} (rooted : Rooted N i C) :
    ∀ {k : ℕ} {a : α}, C a → AtDist N i k a →
      ∃ path, Geodesic N i k path ∧ path.head? = some a ∧ ∀ v ∈ path, C v := by
  intro k
  induction k with
  | zero =>
      intro a member dist
      obtain rfl := atDist_zero.mp dist
      refine ⟨[a], .start, rfl, fun v inPath => ?_⟩
      rw [List.mem_singleton.mp inPath]
      exact member
  | succ k ih =>
      intro a member dist
      obtain ⟨p, inC, near, edge⟩ := rooted.closed a k member dist
      obtain ⟨path, geodesic, head, inside⟩ := ih inC near
      cases path with
      | nil => cases head
      | cons v rest =>
          obtain rfl : v = p := Option.some.inj head
          exact ⟨a :: v :: rest, .step geodesic edge dist, rfl,
            List.forall_mem_cons.mpr ⟨member, inside⟩⟩

/-! ## Shortest paths as lists of vertices -/

variable (N) in
structure Joins (i a : α) (path : List α) : Prop where
  chain : path.IsChain N
  head : path.head? = some i
  last : path.getLast? = some a

variable (N) in
def Shortest (i a : α) (path : List α) : Prop :=
  Joins N i a path ∧ ∀ other, Joins N i a other → path.length ≤ other.length

theorem joins_reverse : Joins N i a path.reverse ↔
    path.IsChain (fun x y => N y x) ∧ path.head? = some a ∧ path.getLast? = some i := by
  constructor
  · intro joins
    have chain := List.isChain_reverse.mp joins.chain
    have head := joins.head
    have last := joins.last
    rw [List.head?_reverse] at head
    rw [List.getLast?_reverse] at last
    exact ⟨chain, last, head⟩
  · intro ⟨chain, head, last⟩
    exact ⟨List.isChain_reverse.mpr chain, by rw [List.head?_reverse, last],
      by rw [List.getLast?_reverse, head]⟩

theorem Joins.walk : ∀ {path : List α} {a : α}, Joins N i a path.reverse →
    Walk N (path.length - 1) i a := by
  intro path
  induction path with
  | nil =>
      intro a joins
      cases joins.head
  | cons v rest ih =>
      intro a joins
      obtain ⟨chain, head, last⟩ := joins_reverse.mp joins
      obtain rfl : v = a := Option.some.inj head
      cases rest with
      | nil =>
          obtain rfl : v = i := Option.some.inj last
          exact .refl v
      | cons p rest =>
          obtain ⟨edge, chain⟩ := List.isChain_cons_cons.mp chain
          rw [List.getLast?_cons_cons] at last
          exact .snoc (ih (joins_reverse.mpr ⟨chain, rfl, last⟩)) edge

theorem exists_joins_of_walk (walk : Walk N k i a) :
    ∃ path : List α, Joins N i a path.reverse ∧ path.length = k + 1 := by
  induction walk with
  | refl a => exact ⟨[a], ⟨List.isChain_singleton a, rfl, rfl⟩, rfl⟩
  | @snoc n i b c _ edge ih =>
      obtain ⟨path, joins, length⟩ := ih
      obtain ⟨chain, head, last⟩ := joins_reverse.mp joins
      cases path with
      | nil => cases head
      | cons v rest =>
          obtain rfl : v = b := Option.some.inj head
          refine ⟨c :: v :: rest, joins_reverse.mpr ⟨?_, rfl, ?_⟩, by rw [List.length_cons, length]⟩
          · exact List.isChain_cons_cons.mpr ⟨edge, chain⟩
          · rw [List.getLast?_cons_cons, last]

theorem Geodesic.joins (h : Geodesic N i k path) (head : path.head? = some a) :
    Joins N i a path.reverse := by
  refine joins_reverse.mpr ⟨?_, head, h.getLast⟩
  clear head
  induction h with
  | start => exact List.isChain_singleton _
  | step _ edge _ ih => exact List.isChain_cons_cons.mpr ⟨edge, ih⟩

theorem geodesic_of_joins : ∀ {path : List α} {k : ℕ} {a : α}, Joins N i a path.reverse →
    AtDist N i k a → path.length = k + 1 → Geodesic N i k path := by
  intro path
  induction path with
  | nil => intro k a _ _ length; simp at length
  | cons v rest ih =>
      intro k a joins dist length
      obtain ⟨chain, head, last⟩ := joins_reverse.mp joins
      obtain rfl : v = a := Option.some.inj head
      cases rest with
      | nil =>
          obtain rfl : v = i := Option.some.inj last
          obtain rfl : k = 0 := by simpa using length.symm
          exact .start
      | cons p rest =>
          obtain ⟨edge, chain⟩ := List.isChain_cons_cons.mp chain
          rw [List.getLast?_cons_cons] at last
          have inner : Joins N i p (p :: rest).reverse := joins_reverse.mpr ⟨chain, rfl, last⟩
          obtain ⟨m, rfl⟩ : ∃ m, k = m + 1 := ⟨rest.length, by simpa using length.symm⟩
          have lengthP : (p :: rest).length = m + 1 := by simpa using length
          -- A shorter walk to `p` would give a shorter one to `v`.
          have distP : AtDist N i m p := by
            refine ⟨by simpa [lengthP] using inner.walk, fun n less walk => ?_⟩
            exact dist.2 (n + 1) (Nat.succ_lt_succ less) (.snoc walk edge)
          exact .step (ih inner distP lengthP) edge dist

/-- The geodesics that start at `a` are the shortest paths to `a`, reversed. -/
theorem shortest_reverse (dist : AtDist N i k a) :
    Shortest N i a path.reverse ↔ Geodesic N i k path ∧ path.head? = some a := by
  have far : ∀ other : List α, Joins N i a other.reverse → k + 1 ≤ other.length := by
    intro other joins
    have pos : other.length ≠ 0 := by
      intro empty
      cases List.length_eq_zero_iff.mp empty
      cases joins.head
    by_contra short
    exact dist.2 (other.length - 1) (by omega) joins.walk
  constructor
  · intro ⟨joins, least⟩
    obtain ⟨witness, joinsW, lengthW⟩ := exists_joins_of_walk dist.1
    have le := least _ joinsW
    have ge := far path joins
    rw [List.length_reverse, List.length_reverse] at le
    exact ⟨geodesic_of_joins joins dist (by omega), (joins_reverse.mp joins).2.1⟩
  · intro ⟨geodesic, head⟩
    refine ⟨geodesic.joins head, fun other joins => ?_⟩
    have ge := far other.reverse (by rwa [List.reverse_reverse])
    rw [List.length_reverse] at ge
    rw [List.length_reverse, geodesic.length]
    exact ge

/-! ## Listing the shortest paths backwards -/

def pathsBack (preds : ℕ → α → List α) : ℕ → α → List (List α)
  | 0, a => [[a]]
  | k + 1, a => (preds (k + 1) a).flatMap fun p => (pathsBack preds k p).map (a :: ·)

section Back
variable {preds : ℕ → α → List α}
  (back : ∀ k a p, AtDist N i (k + 1) a → (p ∈ preds (k + 1) a ↔ AtDist N i k p ∧ N p a))
include back

theorem mem_pathsBack : ∀ {k : ℕ} {a : α}, AtDist N i k a → ∀ path,
    path ∈ pathsBack preds k a ↔ Geodesic N i k path ∧ path.head? = some a := by
  intro k
  induction k with
  | zero =>
      intro a dist path
      obtain rfl := atDist_zero.mp dist
      rw [pathsBack, List.mem_singleton]
      constructor
      · rintro rfl
        exact ⟨.start, rfl⟩
      · rintro ⟨geodesic, _⟩
        cases geodesic
        rfl
  | succ k ih =>
      intro a dist path
      simp only [pathsBack, List.mem_flatMap, List.mem_map]
      constructor
      · rintro ⟨p, pred, rest, member, rfl⟩
        obtain ⟨distP, edge⟩ := (back k a p dist).mp pred
        obtain ⟨geodesic, head⟩ := (ih distP rest).mp member
        cases rest with
        | nil => cases head
        | cons v rest =>
            obtain rfl : v = p := Option.some.inj head
            exact ⟨.step geodesic edge dist, rfl⟩
      · rintro ⟨geodesic, head⟩
        cases geodesic with
        | @step _ v p rest geodesic edge _ =>
            obtain rfl : v = a := Option.some.inj head
            have distP : AtDist N i k p := geodesic.atDist 0 p rfl
            exact ⟨p, (back k v p dist).mpr ⟨distP, edge⟩, p :: rest,
              (ih distP _).mpr ⟨geodesic, rfl⟩, rfl⟩

theorem nodup_pathsBack (nodup : ∀ k a, (preds (k + 1) a).Nodup) : ∀ {k : ℕ} {a : α},
    AtDist N i k a → (pathsBack preds k a).Nodup := by
  intro k
  induction k with
  | zero => intro a _; exact List.nodup_singleton _
  | succ k ih =>
      intro a dist
      have distP : ∀ p ∈ preds (k + 1) a, AtDist N i k p :=
        fun p pred => ((back k a p dist).mp pred).1
      refine List.nodup_flatMap.mpr ⟨fun p pred => ?_, ?_⟩
      · exact (ih (distP p pred)).map fun _ _ same => (List.cons.inj same).2
      · -- Paths through different predecessors differ in their second vertex.
        refine (nodup k a).pairwise_of_forall_ne fun p pred q pred' ne => ?_
        intro path viaP viaQ
        obtain ⟨restP, memberP, rfl⟩ := List.mem_map.mp viaP
        obtain ⟨restQ, memberQ, same⟩ := List.mem_map.mp viaQ
        obtain rfl : restQ = restP := (List.cons.inj same).2
        have headP := ((mem_pathsBack back (distP p pred) _).mp memberP).2
        have headQ := ((mem_pathsBack back (distP q pred') _).mp memberQ).2
        exact ne (Option.some.inj (headP.symm.trans headQ))

variable (N) in
noncomputable def pathCount (i a : α) : ℕ := {path | Shortest N i a path}.ncard

theorem pathCount_eq_length (nodup : ∀ k a, (preds (k + 1) a).Nodup) (dist : AtDist N i k a) :
    pathCount N i a = (pathsBack preds k a).length := by
  have listed : {path | Shortest N i a path} =
      List.reverse '' {path | path ∈ pathsBack preds k a} := by
    ext path
    constructor
    · intro shortest
      have member : Shortest N i a path.reverse.reverse := by rwa [List.reverse_reverse]
      exact ⟨path.reverse, (mem_pathsBack back dist _).mpr ((shortest_reverse dist).mp member),
        path.reverse_reverse⟩
    · intro ⟨q, member, same⟩
      rw [← same]
      exact (shortest_reverse dist).mpr ((mem_pathsBack back dist q).mp member)
  classical
  rw [pathCount, listed, Set.ncard_image_of_injective _ List.reverse_injective,
    ← List.toFinset_card_of_nodup (nodup_pathsBack back nodup dist), ← Set.ncard_coe_finset]
  exact congrArg Set.ncard (List.coe_toFinset _).symm

omit back in
theorem pathCount_self : pathCount N i i = 1 := by
  have dist : AtDist N i 0 i := atDist_zero.mpr rfl
  have only : {path | Shortest N i i path} = {[i]} := by
    ext path
    have reversed : Shortest N i i path.reverse.reverse ↔ _ := shortest_reverse dist
    rw [List.reverse_reverse] at reversed
    rw [Set.mem_ofPred_eq, reversed, Set.mem_singleton_iff]
    constructor
    · intro ⟨geodesic, _⟩
      generalize turned : path.reverse = q at geodesic
      cases geodesic
      simpa using turned
    · intro same
      rw [same]
      exact ⟨.start, rfl⟩
  rw [pathCount, only, Set.ncard_singleton]

omit back in
theorem encard_members {xs : List α} (nodup : xs.Nodup) : {a | a ∈ xs}.encard = xs.length := by
  classical
  rw [← List.toFinset_card_of_nodup nodup, ← Set.encard_coe_eq_coe_finsetCard,
    List.coe_toFinset]

/-- Each shortest path to `a` passes through one of its predecessors. -/
theorem pathCount_sum (nodup : ∀ k a, (preds (k + 1) a).Nodup) (dist : AtDist N i (k + 1) a) :
    pathCount N i a = ((preds (k + 1) a).map (pathCount N i)).sum := by
  have each : ∀ p ∈ preds (k + 1) a, ((pathsBack preds k p).map (a :: ·)).length =
      pathCount N i p := by
    intro p pred
    rw [List.length_map, pathCount_eq_length back nodup ((back k a p dist).mp pred).1]
  rw [pathCount_eq_length back nodup dist, pathsBack, List.length_flatMap,
    List.map_congr_left each]

end Back

end Phonograph.Lib
