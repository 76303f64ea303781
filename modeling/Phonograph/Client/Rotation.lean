import Phonograph.Client.Scenes

/-! # The rotation of a layout

`optimiseRotation` of `phonograph.js` and the functions under it.  It tries ten
thousand angles and turns the new graph by the first one that brings the artists that
stay nearest to where they were.  The numbers are those of any arithmetic, and the
functions of `Math` the fields of a structure. -/

set_option autoImplicit false

namespace Phonograph.Client.Rotation

open Phonograph.Server.Igrapher Phonograph.Client.View Phonograph.Client.Scenes

structure MathFns (F : Type) where
  pi : F
  nan : F
  infinity : F
  abs : F → F
  sqrt : F → F
  pow : F → ℕ → F
  sin : F → F
  cos : F → F
  atan : F → F

section
variable {F : Type} [NatCast F] [Add F] [Sub F] [Mul F] [Div F] [LE F] [DecidableLE F] [LT F]
  [DecidableLT F] (m : MathFns F)

def calculateTheta (x y : F) : F :=
  let X := m.abs x
  let Y := m.abs y
  if x > (0 : ℕ) ∧ y > (0 : ℕ) then m.atan (X / Y)
  else if x > (0 : ℕ) ∧ y < (0 : ℕ) then m.atan (Y / X) + m.pi / (2 : ℕ)
  else if x < (0 : ℕ) ∧ y < (0 : ℕ) then m.atan (X / Y) + m.pi
  else m.atan (Y / X) + (3 : ℕ) * m.pi / (2 : ℕ)

def rotate (source : F × F) (alpha : F) : F × F :=
  let theta := calculateTheta m source.1 source.2
  let r := source.1 / m.sin theta
  (r * m.cos (theta + alpha), r * m.sin (theta + alpha))

def calculateDistance (source target : F × F) : F :=
  m.sqrt (m.pow (source.1 - target.1) 2 + m.pow (source.2 - target.2) 2)

/-- `start_Vis` gives one new position for each old one. -/
def calculateTotalDistance (alpha : F) (oldPos newPos : List (F × F)) : F :=
  (oldPos.zip newPos).foldl
    (fun sum (source, target) => sum + calculateDistance m source (rotate m target alpha)) (0 : ℕ)

def testVals : List F := (List.range 10000).map fun x : ℕ => (x : F) * m.pi / (10000 : ℕ)

/-- `Math.min(a, b)`, which is NaN if one of the two is. -/
def mathMin (a b : F) : F :=
  if a ≥ a then (if b ≥ b then (if b < a then b else a) else b) else a

/-- `testVals[results.indexOf(bestScore)]`, where `indexOf` compares with `===`.  If a
result is NaN nothing is found, and adding `undefined` to a number gives NaN. -/
def firstBest (testVals results : List F) : F :=
  let bestScore := results.foldl mathMin m.infinity
  ((results.findIdx? fun result => result ≤ bestScore ∧ bestScore ≤ result).bind
    fun index => testVals[index]?).getD m.nan

def bestAlpha (oldPos newPos : List (F × F)) : F :=
  firstBest m (testVals m)
    ((testVals m).map fun alpha => calculateTotalDistance m alpha oldPos newPos)

/-- The ranges of the positions, which `rotatePos` adds to the graph, are read off the
positions by the scales. -/
def rotatePos (alpha : F) (graph : D3Graph F) : D3Graph F :=
  { graph with nodes := graph.nodes.map fun n => { n with pos := rotate m n.pos alpha } }

def optimiseRotation : Rotation F := fun oldPos newPos graph =>
  rotatePos m (bestAlpha m oldPos newPos) graph

theorem keepsArtists_optimiseRotation : KeepsArtists (optimiseRotation m) := by
  intro oldPos newPos graph
  simp only [optimiseRotation, rotatePos, List.map_map]
  rfl

end

/-! ## The angle -/

section Ordered
variable {F : Type} [LinearOrder F]

theorem mathMin_eq_min : (mathMin : F → F → F) = min := by
  funext a b
  rw [mathMin, if_pos (le_refl a), if_pos (le_refl b), min_comm, min_def_lt]

theorem mem_foldl_mathMin {results : List F} {infinity : F} (nonempty : results ≠ [])
    (finite : ∀ result ∈ results, result ≤ infinity) :
    results.foldl mathMin infinity ∈ results ∧
      ∀ result ∈ results, results.foldl mathMin infinity ≤ result := by
  rw [mathMin_eq_min]
  have head : (infinity :: results).min? = some (results.foldl min infinity) := List.min?_cons'
  obtain ⟨among, least⟩ := List.min?_eq_some_iff.mp head
  refine ⟨?_, fun result member => least result (List.mem_cons_of_mem _ member)⟩
  rcases List.mem_cons.mp among with same | inside
  · -- Then the first score is infinity as well.
    obtain ⟨first, member⟩ := List.exists_mem_of_ne_nil results nonempty
    have below := least first (List.mem_cons_of_mem _ member)
    rw [same] at below ⊢
    rwa [le_antisymm below (finite first member)]
  · exact inside

theorem firstBest_least (m : MathFns F) {angles : List F} {score : F → F} (nonempty : angles ≠ [])
    (finite : ∀ alpha ∈ angles, score alpha ≤ m.infinity) :
    firstBest m angles (angles.map score) ∈ angles ∧
      ∀ alpha ∈ angles, score (firstBest m angles (angles.map score)) ≤ score alpha := by
  obtain ⟨among, least⟩ := mem_foldl_mathMin (List.map_eq_nil_iff.not.mpr nonempty)
    (List.forall_mem_map.mpr finite)
  rw [firstBest]
  generalize (angles.map score).foldl mathMin m.infinity = bestScore at among least ⊢
  cases found : (angles.map score).findIdx? fun result =>
      result ≤ bestScore ∧ bestScore ≤ result with
  | none =>
      have missed := List.findIdx?_eq_none_iff.mp found _ among
      simp at missed
  | some index =>
      obtain ⟨bound, hit, _⟩ := List.findIdx?_eq_some_iff_getElem.mp found
      have listed : index < angles.length := by simpa using bound
      simp only [List.getElem_map, decide_eq_true_eq] at hit
      simp only [Option.bind_some, List.getElem?_eq_getElem listed, Option.getD_some]
      rw [le_antisymm hit.1 hit.2]
      exact ⟨List.getElem_mem listed,
        fun alpha member => least _ (List.mem_map_of_mem member)⟩

variable [NatCast F] [Add F] [Sub F] [Mul F] [Div F] (m : MathFns F)

omit [LinearOrder F] [Add F] [Sub F] in
theorem testVals_ne_nil : testVals m ≠ [] := by
  rw [testVals, ne_eq, List.map_eq_nil_iff, List.range_eq_nil]
  decide

/-- Among numbers, of which none is NaN and none above infinity, no angle that is tried
does better than the one that is taken. -/
theorem bestAlpha_least {oldPos newPos : List (F × F)}
    (finite : ∀ alpha ∈ testVals m, calculateTotalDistance m alpha oldPos newPos ≤ m.infinity) :
    bestAlpha m oldPos newPos ∈ testVals m ∧ ∀ alpha ∈ testVals m,
      calculateTotalDistance m (bestAlpha m oldPos newPos) oldPos newPos ≤
        calculateTotalDistance m alpha oldPos newPos :=
  firstBest_least m (testVals_ne_nil m) finite

end Ordered

end Phonograph.Client.Rotation
