import Mathlib
import Phonograph.Server.Engines
import Phonograph.Server.Routes

/-! # The skeleton of a custom subgraph

`/custom` joins the artists of a core list by their shortest paths: the first
path of every pair, then round by round one more path of each pair, until
`size` artists are found or the paths run out.  The loop removes a pair from
the list it walks when the pair has no path left, and so passes over the pair
behind it; and it compares `size` with a list that still holds duplicates.  A
pair can miss its turn in both ways.  `keepsTurns` says of the paths found for
a core that no turn is missed at which a pair would add an artist. -/

set_option autoImplicit false

namespace Phonograph.Server.CustomSkeleton

open Phonograph.Lib Phonograph.Server.Redis Phonograph.Server.Python
open Phonograph.Server.Database Phonograph.Server.Paths Phonograph.Server.PathLevels
open Phonograph.Server.Engines Phonograph.Server.Igrapher Phonograph.Server.Routes

variable {F S : Type} [Score S] (P : Platform F)

def distanceOf (pathsDict : PathsDict) (pair : Pair) : ℕ :=
  (((pathsDict.lookup pair).getD []).headD []).length

def maxCountOf (pathsDict : PathsDict) : Option ℕ :=
  (pathsDict.keys.map fun pair => ((pathsDict.lookup pair).getD []).length).max?

def sortedPairsOf (pathsDict : PathsDict) : List Pair :=
  (P.pairOrder pathsDict.keys).insertionSort fun a b =>
    distanceOf pathsDict a ≤ distanceOf pathsDict b

/-- The part of `custom_subgraph` that ends with its loop. -/
def customSkeleton (fuel : ℕ) (size : ℤ) (core : List String) : Handler (List String) := do
  let start ← customStart P core
  let maxCount ← Handler.ofOption .valueError (maxCountOf start.1)
  customLoop P start.1 size maxCount fuel 1 (sortedPairsOf P start.1) (listSet P start.2)

theorem customSubgraph_eq (fuel : ℕ) (args : String → Option String) :
    customSubgraph P fuel args = do
      let size ← intArg args "size"
      let core ← arg args "core"
      let skeleton ← customSkeleton P fuel size (split ',' core)
      let g ← igrapher P skeleton
      return .graph (← d3Dictify P g none) := by
  simp only [customSubgraph, customSkeleton, bind_assoc]
  rfl

/-! ## One sweep over the pairs -/

def turn (pathsDict : PathsDict) (counter : ℕ) (pair : Pair) : Option Path :=
  ((pathsDict.lookup pair).getD [])[counter]?

def addsNothing (pathsDict : PathsDict) (counter : ℕ) (skeleton : List String) (pair : Pair) :
    Bool :=
  (turn pathsDict counter pair).all fun path => path.all fun a => a ∈ skeleton

/-- No pair misses its turn in the sweep: the pair behind a removed one adds nothing in this
round, and neither does any pair left when the sweep stops at a list that holds fewer than
`size` artists without its duplicates. -/
def sweepKeepsTurns (pathsDict : PathsDict) (size : ℤ) (counter : ℕ) :
    ℕ → ℕ → List Pair → List String → Bool
  | 0, _, _, _ => true
  | left + 1, index, sortedPairs, skeleton =>
      match sortedPairs[index]? with
      | none => true
      | some pair =>
          if (skeleton.length : ℤ) ≥ size then
            decide (((listSet P skeleton).length : ℤ) ≥ size) ||
              (sortedPairs.drop index).all (addsNothing pathsDict counter skeleton)
          else match turn pathsDict counter pair with
            | some path => sweepKeepsTurns pathsDict size counter left (index + 1) sortedPairs
                (skeleton ++ path)
            | none => sortedPairs[index + 1]?.all (addsNothing pathsDict counter skeleton) &&
                sweepKeepsTurns pathsDict size counter left (index + 1) (sortedPairs.erase pair)
                  skeleton

def loopKeepsTurns (pathsDict : PathsDict) (size : ℤ) (maxCount : ℕ) :
    ℕ → ℕ → List Pair → List String → Bool
  | 0, _, _, _ => true
  | rounds + 1, counter, sortedPairs, skeleton =>
      if (skeleton.length : ℤ) < size ∧ counter ≤ maxCount then
        let swept := customSweep pathsDict size counter sortedPairs.length 0 sortedPairs skeleton
        sweepKeepsTurns P pathsDict size counter sortedPairs.length 0 sortedPairs skeleton &&
          loopKeepsTurns pathsDict size maxCount rounds (counter + 1) swept.1 (listSet P swept.2)
      else true

def keepsTurns (size : ℤ) (start : PathsDict × List String) : Bool :=
  match maxCountOf start.1 with
  | none => true
  | some maxCount => loopKeepsTurns P start.1 size maxCount maxCount 1 (sortedPairsOf P start.1)
      (listSet P start.2)

theorem addsNothing_iff {pathsDict : PathsDict} {counter : ℕ} {skeleton : List String}
    {pair : Pair} : addsNothing pathsDict counter skeleton pair = true ↔
      ∀ path, turn pathsDict counter pair = some path → ∀ a ∈ path, a ∈ skeleton := by
  rw [addsNothing]
  cases turn pathsDict counter pair with
  | none => simp
  | some path => simp

theorem mem_listSet (xs : List String) (a : String) : a ∈ listSet P xs ↔ a ∈ xs := by
  rw [listSet, (P.setOrder_perm _).mem_iff, setUpdate, List.mem_union_iff]
  simp

theorem nodup_listSet (xs : List String) : (listSet P xs).Nodup :=
  (P.setOrder_perm _).nodup_iff.mpr (List.Nodup.union _ List.nodup_nil)

/-- When the element at `index` is removed, the one behind it takes its place. -/
theorem take_erase {xs : List Pair} (nodup : xs.Nodup) {index : ℕ} {x : Pair}
    (here : xs[index]? = some x) :
    (xs.erase x).take (index + 1) = xs.take index ++ xs[index + 1]?.toList := by
  obtain ⟨inside, rfl⟩ := List.getElem?_eq_some_iff.mp here
  rw [nodup.erase_getElem index inside, List.eraseIdx_eq_take_drop_succ, List.take_append,
    List.length_take_of_le inside.le, Nat.add_sub_cancel_left, List.take_one, List.head?_drop,
    List.take_of_length_le (by simp)]

section Sweep
variable (pathsDict : PathsDict) (size : ℤ) (counter : ℕ)

theorem customSweep_skeleton :
    ∀ (left index : ℕ) (sortedPairs : List Pair) (skeleton : List String),
    (∀ a ∈ skeleton,
      a ∈ (customSweep pathsDict size counter left index sortedPairs skeleton).2) ∧
    ∀ a ∈ (customSweep pathsDict size counter left index sortedPairs skeleton).2,
      a ∈ skeleton ∨ ∃ pair ∈ sortedPairs, ∃ path, turn pathsDict counter pair = some path ∧
        a ∈ path := by
  intro left
  induction left with
  | zero =>
      intro index sortedPairs skeleton
      exact ⟨fun a member => member, fun a member => Or.inl member⟩
  | succ left ih =>
      intro index sortedPairs skeleton
      rw [customSweep]
      cases at_index : sortedPairs[index]? with
      | none => exact ⟨fun a member => member, fun a member => Or.inl member⟩
      | some pair =>
          have listed : pair ∈ sortedPairs := List.mem_of_getElem? at_index
          by_cases full : (skeleton.length : ℤ) ≥ size
          · simp only [if_pos full]
            exact ⟨fun a member => member, fun a member => Or.inl member⟩
          · simp only [if_neg full]
            cases taken : ((pathsDict.lookup pair).getD [])[counter]? with
            | some path =>
                obtain ⟨keeps, adds⟩ := ih (index + 1) sortedPairs (skeleton ++ path)
                refine ⟨fun a member => keeps a (List.mem_append_left _ member), fun a member => ?_⟩
                rcases adds a member with old | new
                · rcases List.mem_append.mp old with old | new
                  · exact Or.inl old
                  · exact Or.inr ⟨pair, listed, path, taken, new⟩
                · exact Or.inr new
            | none =>
                obtain ⟨keeps, adds⟩ := ih (index + 1) (sortedPairs.erase pair) skeleton
                refine ⟨keeps, fun a member => ?_⟩
                rcases adds a member with old | ⟨other, inErased, path, taken, new⟩
                · exact Or.inl old
                · exact Or.inr ⟨other, List.mem_of_mem_erase inErased, path, taken, new⟩

theorem customSweep_pairs : ∀ (left index : ℕ) (sortedPairs : List Pair) (skeleton : List String),
    (customSweep pathsDict size counter left index sortedPairs skeleton).1.Sublist sortedPairs ∧
    ∀ pair ∈ sortedPairs, turn pathsDict counter pair ≠ none →
      pair ∈ (customSweep pathsDict size counter left index sortedPairs skeleton).1 := by
  intro left
  induction left with
  | zero =>
      intro index sortedPairs skeleton
      exact ⟨List.Sublist.refl _, fun pair member _ => member⟩
  | succ left ih =>
      intro index sortedPairs skeleton
      rw [customSweep]
      cases at_index : sortedPairs[index]? with
      | none => exact ⟨List.Sublist.refl _, fun pair member _ => member⟩
      | some pair =>
          by_cases full : (skeleton.length : ℤ) ≥ size
          · simp only [if_pos full]
            exact ⟨List.Sublist.refl _, fun pair member _ => member⟩
          · simp only [if_neg full]
            cases taken : ((pathsDict.lookup pair).getD [])[counter]? with
            | some path => exact ih (index + 1) sortedPairs (skeleton ++ path)
            | none =>
                obtain ⟨sub, keeps⟩ := ih (index + 1) (sortedPairs.erase pair) skeleton
                refine ⟨sub.trans List.erase_sublist, fun other member ready => ?_⟩
                have ne : other ≠ pair := by
                  intro same
                  exact ready (same ▸ taken)
                exact keeps other ((List.mem_erase_of_ne ne).mpr member) ready

def Covered (pairs : List Pair) (skeleton : List String) : Prop :=
  ∀ pair ∈ pairs, ∀ path, turn pathsDict counter pair = some path → ∀ a ∈ path, a ∈ skeleton

variable {pathsDict counter} {index : ℕ} {sortedPairs : List Pair} {skeleton : List String}
  (covered : Covered pathsDict counter (sortedPairs.take index) skeleton)
include covered

theorem Covered.taken {pair : Pair} {path : Path} (here : sortedPairs[index]? = some pair)
    (ready : turn pathsDict counter pair = some path) :
    Covered pathsDict counter (sortedPairs.take (index + 1)) (skeleton ++ path) := by
  rw [List.take_add_one, here, Option.toList_some]
  intro other member path' ready' a inPath
  rcases List.mem_append.mp member with before | last
  · exact List.mem_append_left _ (covered other before path' ready' a inPath)
  · obtain rfl := List.mem_singleton.mp last
    obtain rfl := Option.some.inj (ready.symm.trans ready')
    exact List.mem_append_right _ inPath

/-- The list closes up over a removed pair, and the one behind it is passed over. -/
theorem Covered.passed (nodup : sortedPairs.Nodup) {pair : Pair}
    (here : sortedPairs[index]? = some pair)
    (nothing : sortedPairs[index + 1]?.all (addsNothing pathsDict counter skeleton) = true) :
    Covered pathsDict counter ((sortedPairs.erase pair).take (index + 1)) skeleton := by
  rw [take_erase nodup here]
  intro other member path ready
  rcases List.mem_append.mp member with before | passed
  · exact covered other before path ready
  · rw [Option.mem_toList] at passed
    rw [passed, Option.all_some] at nothing
    exact addsNothing_iff.mp nothing path ready

theorem Covered.rest
    (nothing : (sortedPairs.drop index).all (addsNothing pathsDict counter skeleton) = true) :
    Covered pathsDict counter sortedPairs skeleton := by
  intro pair member path ready
  rw [← List.take_append_drop index sortedPairs] at member
  rcases List.mem_append.mp member with before | behind
  · exact covered pair before path ready
  · exact addsNothing_iff.mp (List.all_eq_true.mp nothing pair behind) path ready

omit covered in
variable (pathsDict counter) in
/-- A sweep that keeps the turns takes the path of every pair, or leaves enough artists. -/
theorem customSweep_covers : ∀ (left index : ℕ) (sortedPairs : List Pair) (skeleton : List String),
    sortedPairs.Nodup → sortedPairs.length ≤ index + left →
    Covered pathsDict counter (sortedPairs.take index) skeleton →
    sweepKeepsTurns P pathsDict size counter left index sortedPairs skeleton = true →
    size ≤ (listSet P (customSweep pathsDict size counter left index sortedPairs skeleton).2).length ∨
    Covered pathsDict counter sortedPairs
      (customSweep pathsDict size counter left index sortedPairs skeleton).2 := by
  intro left
  induction left with
  | zero =>
      intro index sortedPairs skeleton _ bound covered _
      rw [List.take_of_length_le (by omega)] at covered
      exact Or.inr covered
  | succ left ih =>
      intro index sortedPairs skeleton nodup bound covered fair
      rw [sweepKeepsTurns] at fair
      rw [customSweep]
      cases at_index : sortedPairs[index]? with
      | none =>
          rw [List.take_of_length_le (List.getElem?_eq_none_iff.mp at_index)] at covered
          exact Or.inr covered
      | some pair =>
          simp only [at_index] at fair
          by_cases full : (skeleton.length : ℤ) ≥ size
          · simp only [if_pos full] at fair ⊢
            rcases Bool.or_eq_true_iff.mp fair with enough | nothing
            · exact Or.inl (of_decide_eq_true enough)
            · exact Or.inr (covered.rest nothing)
          · simp only [if_neg full] at fair ⊢
            cases taken : ((pathsDict.lookup pair).getD [])[counter]? with
            | some path =>
                have ready : turn pathsDict counter pair = some path := taken
                simp only [ready] at fair
                exact ih (index + 1) sortedPairs (skeleton ++ path) nodup (by omega)
                  (covered.taken at_index ready) fair
            | none =>
                have done : turn pathsDict counter pair = none := taken
                simp only [done, Bool.and_eq_true] at fair
                have shorter : (sortedPairs.erase pair).length ≤ index + 1 + left := by
                  rw [List.length_erase_of_mem (List.mem_of_getElem? at_index)]
                  omega
                rcases ih (index + 1) (sortedPairs.erase pair) skeleton (nodup.erase pair) shorter
                  (covered.passed nodup at_index fair.1) fair.2 with enough | all
                · exact Or.inl enough
                · refine Or.inr fun other member path ready => ?_
                  have ne : other ≠ pair := by
                    rintro rfl
                    rw [done] at ready
                    cases ready
                  exact all other ((List.mem_erase_of_ne ne).mpr member) path ready

end Sweep

/-! ## The rounds -/

section Loop
variable (pathsDict : PathsDict) (size : ℤ) (maxCount : ℕ)

def OnPaths (pathsDict : PathsDict) (pair : Pair) (a : String) : Prop :=
  ∃ path ∈ (pathsDict.lookup pair).getD [], a ∈ path

/-- The loop ends after at most `max_count` rounds, with a list without duplicates that
holds its start and artists on paths of the pairs. -/
theorem customLoop_done : ∀ (fuel counter : ℕ) (sortedPairs : List Pair) (skeleton : List String),
    maxCount + 1 - counter < fuel → skeleton.Nodup →
    ∃ final, customLoop P pathsDict size maxCount fuel counter sortedPairs skeleton = .done final ∧
      final.Nodup ∧ (∀ a ∈ skeleton, a ∈ final) ∧
      ∀ a ∈ final, a ∈ skeleton ∨ ∃ pair ∈ sortedPairs, OnPaths pathsDict pair a := by
  intro fuel
  induction fuel with
  | zero => intro counter _ _ enough; omega
  | succ fuel ih =>
      intro counter sortedPairs skeleton enough nodup
      have stay : ∃ final, (pure skeleton : Handler (List String)) = .done final ∧
          final.Nodup ∧ (∀ a ∈ skeleton, a ∈ final) ∧
          ∀ a ∈ final, a ∈ skeleton ∨ ∃ pair ∈ sortedPairs, OnPaths pathsDict pair a :=
        ⟨skeleton, rfl, nodup, fun a member => member, fun a member => Or.inl member⟩
      rw [customLoop]
      split_ifs with short past
      · exact stay
      · generalize swept : customSweep pathsDict size counter sortedPairs.length 0 sortedPairs
          skeleton = result
        obtain ⟨keeps, adds⟩ :=
          customSweep_skeleton pathsDict size counter sortedPairs.length 0 sortedPairs skeleton
        obtain ⟨sub, _⟩ :=
          customSweep_pairs pathsDict size counter sortedPairs.length 0 sortedPairs skeleton
        rw [swept] at keeps adds sub
        obtain ⟨final, done, distinct, grows, within⟩ :=
          ih (counter + 1) result.1 (listSet P result.2) (by omega) (nodup_listSet P _)
        refine ⟨final, done, distinct, fun a member => ?_, fun a member => ?_⟩
        · exact grows a ((mem_listSet P _ a).mpr (keeps a member))
        · rcases within a member with old | ⟨pair, kept, path, listed, inPath⟩
          · rcases adds a ((mem_listSet P _ a).mp old) with old | ⟨pair, kept, path, ready, inPath⟩
            · exact Or.inl old
            · exact Or.inr ⟨pair, kept, path, List.mem_of_getElem? ready, inPath⟩
          · exact Or.inr ⟨pair, sub.subset kept, path, listed, inPath⟩
      · exact stay

/-- Before round `counter` the skeleton holds the earlier paths of every pair, and the
pairs that still have a path are in the list. -/
structure Ready (pathsDict : PathsDict) (counter : ℕ) (sortedPairs : List Pair)
    (skeleton : List String) : Prop where
  covered : ∀ pair, ∀ i < counter, ∀ path, turn pathsDict i pair = some path →
    ∀ a ∈ path, a ∈ skeleton
  waiting : ∀ pair, turn pathsDict counter pair ≠ none → pair ∈ sortedPairs
  nodup : sortedPairs.Nodup

theorem turn_earlier {counter : ℕ} {pair : Pair}
    (later : turn pathsDict (counter + 1) pair ≠ none) : turn pathsDict counter pair ≠ none := by
  rw [turn, ne_eq, List.getElem?_eq_none_iff] at later ⊢
  omega

/-- While no pair misses its turn, a round takes the paths of its number. -/
theorem Ready.next {counter : ℕ} {sortedPairs : List Pair} {skeleton : List String}
    (ready : Ready pathsDict counter sortedPairs skeleton)
    (fair : sweepKeepsTurns P pathsDict size counter sortedPairs.length 0 sortedPairs skeleton = true)
    {swept : List Pair × List String}
    (sweep : customSweep pathsDict size counter sortedPairs.length 0 sortedPairs skeleton = swept) :
    size ≤ (listSet P swept.2).length ∨
      Ready pathsDict (counter + 1) swept.1 (listSet P swept.2) := by
  have start : ∀ pair ∈ sortedPairs.take 0, ∀ path, turn pathsDict counter pair = some path →
      ∀ a ∈ path, a ∈ skeleton := by
    intro pair member
    cases member
  obtain ⟨keeps, _⟩ :=
    customSweep_skeleton pathsDict size counter sortedPairs.length 0 sortedPairs skeleton
  obtain ⟨sub, remain⟩ :=
    customSweep_pairs pathsDict size counter sortedPairs.length 0 sortedPairs skeleton
  rcases customSweep_covers P pathsDict size counter _ 0 sortedPairs skeleton ready.nodup
    (by omega) start fair with enough | all
  · rw [sweep] at enough
    exact Or.inl enough
  · rw [sweep] at keeps sub remain all
    refine Or.inr ⟨fun pair i less path found a inPath => ?_, fun pair later => ?_, ?_⟩
    · rw [mem_listSet]
      rcases Nat.lt_succ_iff_lt_or_eq.mp less with less | rfl
      · exact keeps a (ready.covered pair i less path found a inPath)
      · have waiting := ready.waiting pair (by rw [found]; exact Option.some_ne_none path)
        exact all pair waiting path found a inPath
    · have still := turn_earlier pathsDict later
      exact remain pair (ready.waiting pair still) still
    · exact sub.nodup ready.nodup

/-- If no pair misses its turn and the loop ends below `size`, every path is taken. -/
theorem customLoop_covers (counts : ∀ pair, ((pathsDict.lookup pair).getD []).length ≤ maxCount) :
    ∀ (fuel rounds counter : ℕ) (sortedPairs : List Pair) (skeleton final : List String),
    maxCount + 1 ≤ counter + rounds → Ready pathsDict counter sortedPairs skeleton →
    loopKeepsTurns P pathsDict size maxCount rounds counter sortedPairs skeleton = true →
    customLoop P pathsDict size maxCount fuel counter sortedPairs skeleton = .done final →
    (final.length : ℤ) < size → ∀ pair a, OnPaths pathsDict pair a → a ∈ final := by
  intro fuel
  induction fuel with
  | zero =>
      intro rounds counter sortedPairs skeleton final _ _ _ done
      cases done
  | succ fuel ih =>
      intro rounds counter sortedPairs skeleton final bound ready fair done small pair a onPaths
      rw [customLoop] at done
      split_ifs at done with short past
      · -- Past `max_count` no pair has a path left.
        obtain rfl : skeleton = final := Script.done.inj done
        obtain ⟨path, listed, inPath⟩ := onPaths
        obtain ⟨i, less, found⟩ := List.mem_iff_getElem.mp listed
        have few := counts pair
        refine ready.covered pair i (by omega) path ?_ a inPath
        rw [turn, List.getElem?_eq_getElem less, found]
      · obtain ⟨rounds, rfl⟩ : ∃ n, rounds = n + 1 := ⟨rounds - 1, by omega⟩
        rw [loopKeepsTurns, if_pos ⟨short, by omega⟩, Bool.and_eq_true] at fair
        rcases ready.next P pathsDict size fair.1 rfl with enough | ready
        · cases fuel with
          | zero => cases done
          | succ fuel =>
              rw [customLoop, if_neg (by omega)] at done
              obtain rfl := Script.done.inj done
              omega
        · exact ih rounds (counter + 1) _ _ final (by omega) ready fair.2 done small pair a onPaths
      · obtain rfl : skeleton = final := Script.done.inj done
        omega

end Loop

/-! ## The pairs of the core -/

theorem exists_pair {core : List String} (distinct : core.Nodup) (two : 2 ≤ core.length)
    {a : String} (member : a ∈ core) : ∃ pair ∈ pairs core, a = pair.1 ∨ a = pair.2 := by
  obtain ⟨b, inB, ne⟩ : ∃ b ∈ core, b ≠ a := by
    by_contra alone
    push Not at alone
    have only : core ⊆ [a] := fun b inB => List.mem_singleton.mpr (alone b inB)
    have short := (distinct.subperm only).length_le
    simp at short
    omega
  rcases mem_pairs_or member inB ne.symm with found | found
  · exact ⟨(a, b), found, Or.inl rfl⟩
  · exact ⟨(b, a), found, Or.inr rfl⟩

/-! ## The start of the loop -/

def collect (paths : Pair → List Path) (acc : PathsDict × List String) (pair : Pair) :
    PathsDict × List String :=
  (acc.1.insert pair (paths pair), acc.2 ++ (paths pair).headD [])

theorem collect_foldl (paths : Pair → List Path) : ∀ (ps : List Pair)
    (acc : PathsDict × List String),
    (∀ pair, (ps.foldl (collect paths) acc).1.lookup pair =
      if pair ∈ ps then some (paths pair) else acc.1.lookup pair) ∧
    (ps.foldl (collect paths) acc).2 = acc.2 ++ ps.flatMap fun pair => (paths pair).headD [] := by
  intro ps
  induction ps with
  | nil => intro acc; simp
  | cons p ps ih =>
      intro acc
      obtain ⟨found, firsts⟩ := ih (collect paths acc p)
      rw [List.foldl_cons]
      constructor
      · intro pair
        rw [found, collect]
        by_cases later : pair ∈ ps
        · rw [if_pos later, if_pos (List.mem_cons_of_mem _ later)]
        · rw [if_neg later]
          by_cases here : pair = p
          · subst here
            rw [AList.lookup_insert, if_pos (List.mem_cons_self ..)]
          · rw [AList.lookup_insert_ne here, if_neg (by simp [here, later])]
      · rw [firsts, collect, List.append_assoc, List.flatMap_cons]

variable {P} in
theorem yields_customStart {base : Store S} {paths : Pair → List Path} {core : List String}
    (found : ∀ pair ∈ pairs core,
      Yields base (findPaths P pair.1 pair.2) (some (paths pair)) ∧ paths pair ≠ []) :
    Yields base (customStart P core) ((pairs core).foldl (collect paths) (∅, [])) := by
  apply Gives.foldlM
  intro acc pair member
  obtain ⟨yields, nonempty⟩ := found pair member
  refine Gives.bind _ yields ?_
  cases listed : paths pair with
  | nil => exact absurd listed nonempty
  | cons first rest =>
      have collected : collect paths acc pair = (acc.1.insert pair (first :: rest), acc.2 ++ first) := by
        rw [collect, listed, List.headD_cons]
      rw [collected]
      exact Gives.done _ _ _ _

structure Prepared (core : List String) (paths : Pair → List Path)
    (start : PathsDict × List String) : Prop where
  found : ∀ pair ∈ pairs core, start.1.lookup pair = some (paths pair)
  only : ∀ pair, start.1.lookup pair ≠ none → pair ∈ pairs core
  firsts : start.2 = (pairs core).flatMap fun pair => (paths pair).headD []

theorem prepared_collect (core : List String) (paths : Pair → List Path) :
    Prepared core paths ((pairs core).foldl (collect paths) (∅, [])) := by
  obtain ⟨found, firsts⟩ := collect_foldl paths (pairs core) (∅, [])
  refine ⟨fun pair member => ?_, fun pair stored => ?_, firsts⟩
  · rw [found, if_pos member]
  · by_contra absent
    rw [found, if_neg absent] at stored
    exact stored (AList.lookup_empty pair)

section Prepared
variable {core : List String} {paths : Pair → List Path} {start : PathsDict × List String}
  (prepared : Prepared core paths start)
include prepared

theorem Prepared.onPaths (pair : Pair) (a : String) : OnPaths start.1 pair a ↔
    pair ∈ pairs core ∧ ∃ path ∈ paths pair, a ∈ path := by
  rw [OnPaths]
  constructor
  · intro ⟨path, listed, inPath⟩
    have member : pair ∈ pairs core := by
      apply prepared.only
      intro absent
      rw [absent] at listed
      cases listed
    rw [prepared.found pair member, Option.getD_some] at listed
    exact ⟨member, path, listed, inPath⟩
  · intro ⟨member, path, listed, inPath⟩
    refine ⟨path, ?_, inPath⟩
    rw [prepared.found pair member]
    exact listed

theorem Prepared.mem_keys (pair : Pair) : pair ∈ start.1.keys ↔ pair ∈ pairs core := by
  rw [← AList.mem_keys, ← AList.lookup_isSome]
  constructor
  · intro stored
    apply prepared.only
    intro absent
    rw [absent] at stored
    cases stored
  · intro member
    rw [prepared.found pair member]
    rfl

theorem Prepared.maxCount (some_pair : pairs core ≠ []) : ∃ m, maxCountOf start.1 = some m ∧
    ∀ pair, ((start.1.lookup pair).getD []).length ≤ m := by
  obtain ⟨p, member⟩ := List.exists_mem_of_ne_nil _ some_pair
  have inKeys := (prepared.mem_keys p).mpr member
  have nonempty : start.1.keys.map (fun pair => ((start.1.lookup pair).getD []).length) ≠ [] :=
    List.ne_nil_of_mem (List.mem_map_of_mem inKeys)
  obtain ⟨m, found⟩ := Option.ne_none_iff_exists'.mp (mt List.max?_eq_none_iff.mp nonempty)
  refine ⟨m, found, fun pair => ?_⟩
  by_cases stored : pair ∈ start.1.keys
  · exact (List.max?_eq_some_iff.mp found).2 _ (List.mem_map_of_mem stored)
  · rw [← AList.mem_keys, ← AList.lookup_eq_none] at stored
    rw [stored]
    exact Nat.zero_le m

theorem Prepared.mem_sortedPairs (pair : Pair) :
    pair ∈ sortedPairsOf P start.1 ↔ pair ∈ pairs core := by
  rw [sortedPairsOf, (List.perm_insertionSort _ _).mem_iff, (P.pairOrder_perm _).mem_iff,
    prepared.mem_keys]

omit prepared in
theorem nodup_sortedPairs (pathsDict : PathsDict) : (sortedPairsOf P pathsDict).Nodup := by
  rw [sortedPairsOf, (List.perm_insertionSort _ _).nodup_iff, (P.pairOrder_perm _).nodup_iff]
  exact pathsDict.keys_nodup

theorem Prepared.mem_start (a : String) : a ∈ listSet P start.2 ↔
    ∃ pair ∈ pairs core, a ∈ (paths pair).headD [] := by
  rw [mem_listSet, prepared.firsts, List.mem_flatMap]

theorem Prepared.onPaths_of_mem_start {a : String} (member : a ∈ listSet P start.2) :
    ∃ pair, OnPaths start.1 pair a := by
  obtain ⟨pair, inPairs, inFirst⟩ := (prepared.mem_start P a).mp member
  refine ⟨pair, (prepared.onPaths pair a).mpr ⟨inPairs, ?_⟩⟩
  cases listed : paths pair with
  | nil =>
      rw [listed] at inFirst
      cases inFirst
  | cons path rest =>
      rw [listed, List.headD_cons] at inFirst
      exact ⟨path, List.mem_cons_self .., inFirst⟩

theorem Prepared.ready : Ready start.1 1 (sortedPairsOf P start.1) (listSet P start.2) := by
  refine ⟨fun pair i less path found a inPath => ?_, fun pair waiting => ?_, nodup_sortedPairs P _⟩
  · obtain rfl : i = 0 := by omega
    rw [turn, ← List.head?_eq_getElem?] at found
    have member := ((prepared.onPaths pair a).mp ⟨path, List.mem_of_mem_head? found, inPath⟩).1
    rw [prepared.found pair member, Option.getD_some] at found
    refine (prepared.mem_start P a).mpr ⟨pair, member, ?_⟩
    rw [List.headD_eq_head?_getD, found]
    exact inPath
  · rw [prepared.mem_sortedPairs]
    apply prepared.only
    intro absent
    rw [turn, absent] at waiting
    exact waiting rfl

end Prepared

section Runs
variable (db : MusicDb S) {core : List String}

/-- Pairs of distinct artists within eight steps have paths, all of them geodesics. -/
theorem exists_prepared (distinct : core.Nodup)
    (near : ∀ pair ∈ pairs core, ∃ d ≤ 8, AtDist db.Adj pair.1 d pair.2) :
    ∃ (paths : Pair → List Path) (start : PathsDict × List String),
      (∀ pair ∈ pairs core, Yields db.store (findPaths P pair.1 pair.2) (some (paths pair)) ∧
        paths pair ≠ [] ∧ ∃ d, AtDist db.Adj pair.1 d pair.2 ∧
        ∀ path ∈ paths pair, Geodesic db.Adj pair.1 d path ∧ path.head? = some pair.2) ∧
      Yields db.store (customStart P core) start ∧ Prepared core paths start := by
  have nodup : ∀ a, ((db.neighbours a).members).Nodup := fun a => (db.neighbours a).nodup
  choose! dist bound atDist using near
  have listed : ∀ pair ∈ pairs core, ∀ path,
      path ∈ shortestPaths P (fun a => (db.neighbours a).members) pair.1 (dist pair) pair.2 ↔
        Geodesic db.Adj pair.1 (dist pair) path ∧ path.head? = some pair.2 := by
    intro pair member path
    have at_dist := atDist pair member
    exact mem_shortestPaths P nodup (at_dist.pos (ne_of_mem_pairs distinct member)) at_dist path
  have found : ∀ pair ∈ pairs core, Yields db.store (findPaths P pair.1 pair.2)
      (some (shortestPaths P (fun a => (db.neighbours a).members) pair.1 (dist pair) pair.2)) ∧
      shortestPaths P (fun a => (db.neighbours a).members) pair.1 (dist pair) pair.2 ≠ [] := by
    intro pair member
    have at_dist := atDist pair member
    refine ⟨yields_findPaths P db.neighbours_kind nodup (ne_of_mem_pairs distinct member)
      (bound pair member) at_dist, ?_⟩
    obtain ⟨path, joins, length⟩ := exists_joins_of_walk at_dist.1
    have geodesic := geodesic_of_joins joins at_dist length
    exact List.ne_nil_of_mem
      ((listed pair member path).mpr ⟨geodesic, (joins_reverse.mp joins).2.1⟩)
  refine ⟨_, _, fun pair member => ⟨(found pair member).1, (found pair member).2, ?_⟩,
    yields_customStart found, prepared_collect core _⟩
  exact ⟨dist pair, atDist pair member, fun path => (listed pair member path).mp⟩

theorem pairs_ne_nil (distinct : core.Nodup) (two : 2 ≤ core.length) : pairs core ≠ [] := by
  obtain ⟨a, member⟩ := List.exists_mem_of_length_pos (by omega : 0 < core.length)
  obtain ⟨pair, inPairs, _⟩ := exists_pair distinct two member
  exact List.ne_nil_of_mem inPairs

variable {P} in
theorem run_customSkeleton {start : PathsDict × List String} {m fuel : ℕ} {size : ℤ}
    {final : List String} (started : Yields db.store (customStart P core) start)
    (counted : maxCountOf start.1 = some m)
    (done : customLoop P start.1 size m fuel 1 (sortedPairsOf P start.1) (listSet P start.2) =
      .done final) (tape : Tape) :
    (run (machine S) (customSkeleton P fuel size core) tape db.store).1 = .ok final := by
  have yields : Yields db.store (customSkeleton P fuel size core) final := by
    refine Gives.bind _ started ?_
    rw [counted]
    refine Gives.bind _ (Gives.done _ _ _ m) ?_
    rw [done]
    exact Gives.done _ _ _ _
  obtain ⟨_, ran, _⟩ := yields db.store (AgreeOff.refl _ _) tape
  rw [ran]

end Runs

/-- The loop of `/custom` ends within `max_count` rounds.  If no turn is missed at which a pair
would add an artist and the skeleton has fewer than `size` artists, it holds all the artists on
all the paths. -/
theorem custom_fills (db : MusicDb S) (core : List String) (distinct : core.Nodup)
    (two : 2 ≤ core.length)
    (near : ∀ pair ∈ pairs core, ∃ d ≤ 8, AtDist db.Adj pair.1 d pair.2) (size : ℤ)
    (tape : Tape) :
    ∃ start, (run (machine S) (customStart P core) tape db.store).1 = .ok start ∧
      ∃ maxCount, maxCountOf start.1 = some maxCount ∧ ∀ fuel > maxCount, ∃ skeleton,
        (run (machine S) (customSkeleton P fuel size core) tape db.store).1 = .ok skeleton ∧
        (keepsTurns P size start = true → (skeleton.length : ℤ) < size →
          ∀ a, a ∈ skeleton ↔ ∃ pair ∈ pairs core, ∃ paths,
            (run (machine S) (findPaths P pair.1 pair.2) tape db.store).1 = .ok (some paths) ∧
            ∃ path ∈ paths, a ∈ path) := by
  obtain ⟨paths, start, found, started, prepared⟩ := exists_prepared P db distinct near
  obtain ⟨_, ran, _⟩ := started db.store (AgreeOff.refl _ _) tape
  obtain ⟨m, counted, counts⟩ := prepared.maxCount (pairs_ne_nil distinct two)
  refine ⟨start, congrArg Prod.fst ran, m, counted, fun fuel enough => ?_⟩
  obtain ⟨final, done, _, grows, within⟩ := customLoop_done P start.1 size m fuel 1
    (sortedPairsOf P start.1) (listSet P start.2) (by omega) (nodup_listSet P _)
  refine ⟨final, run_customSkeleton db started counted done tape, fun fair small a => ?_⟩
  have given : ∀ pair ∈ pairs core,
      (run (machine S) (findPaths P pair.1 pair.2) tape db.store).1 = .ok (some (paths pair)) := by
    intro pair member
    obtain ⟨_, ran, _⟩ := (found pair member).1 db.store (AgreeOff.refl _ _) tape
    rw [ran]
  constructor
  · intro member
    obtain ⟨pair, onPaths⟩ : ∃ pair, OnPaths start.1 pair a := by
      rcases within a member with first | ⟨pair, _, onPaths⟩
      · exact prepared.onPaths_of_mem_start P first
      · exact ⟨pair, onPaths⟩
    obtain ⟨inPairs, path, listed, inPath⟩ := (prepared.onPaths pair a).mp onPaths
    exact ⟨pair, inPairs, _, given pair inPairs, path, listed, inPath⟩
  · intro ⟨pair, inPairs, listed, ran, path, member, inPath⟩
    rw [given pair inPairs] at ran
    obtain rfl : paths pair = listed := Option.some.inj (Except.ok.inj ran)
    rw [keepsTurns, counted] at fair
    exact customLoop_covers P start.1 size m counts fuel m 1 _ _ final (by omega)
      (prepared.ready P) fair done small pair a
      ((prepared.onPaths pair a).mpr ⟨inPairs, path, member, inPath⟩)

def fanEntries : List (String × Value ℤ) :=
  [("artist.neighbours:x", .set ⟨["m", "n", "y"], by decide⟩),
   ("artist.neighbours:y", .set ⟨["x", "z"], by decide⟩),
   ("artist.neighbours:z", .set ⟨["m", "n", "y"], by decide⟩),
   ("artist.neighbours:m", .set ⟨["x", "z"], by decide⟩),
   ("artist.neighbours:n", .set ⟨["x", "z"], by decide⟩)]

def fanDb : MusicDb ℤ := .ofEntries fanEntries (by decide) (by decide) (by decide) (by decide)
  (by decide)

theorem fan_atDist {i j : String} {d : ℕ} (found : j ∈ (frontier Platform.plain
    (fun a => (fanDb.neighbours a).members) i d).level.keys) : AtDist fanDb.Adj i d j :=
  (mem_level Platform.plain (fun a => (fanDb.neighbours a).nodup) i d j).mp
    (AList.mem_keys.mpr found)

theorem fan_near : ∀ pair ∈ pairs ["x", "y", "z"], ∃ d ≤ 8, AtDist fanDb.Adj pair.1 d pair.2 := by
  intro pair member
  simp only [pairs, List.map_cons, List.map_nil, List.append_nil, List.cons_append,
    List.nil_append, List.mem_cons, List.not_mem_nil, or_false] at member
  rcases member with rfl | rfl | rfl
  · exact ⟨1, by decide, fan_atDist (by decide +kernel)⟩
  · exact ⟨2, by decide, fan_atDist (by decide +kernel)⟩
  · exact ⟨1, by decide, fan_atDist (by decide +kernel)⟩

/-- In round one `y`–`z` is removed and `x`–`y` passed over, in round two `x`–`y` is removed
and `x`–`z` passed over: its third path, through `m`, is never taken. -/
theorem custom_misses_path :
    (["x", "y", "z"] : List String).Nodup ∧
    (∀ pair ∈ pairs ["x", "y", "z"], ∃ d ≤ 8, AtDist fanDb.Adj pair.1 d pair.2) ∧
    ∃ skeleton paths,
      (run (machine ℤ) (customSkeleton Platform.plain 4 9 ["x", "y", "z"]) (fun _ => 0)
        fanDb.store).1 = .ok skeleton ∧
      (skeleton.length : ℤ) < 9 ∧
      (run (machine ℤ) (findPaths Platform.plain "x" "z") (fun _ => 0) fanDb.store).1 =
        .ok (some paths) ∧
      ("x", "z") ∈ pairs ["x", "y", "z"] ∧ ["z", "m", "x"] ∈ paths ∧ "m" ∉ skeleton :=
  ⟨by decide, fan_near, ["y", "z", "n", "x"], [["z", "y", "x"], ["z", "n", "x"], ["z", "m", "x"]],
    by decide +kernel, by decide, by decide +kernel, by decide, by decide, by decide⟩

/-- In round one `z`–`m` is removed and `x`–`m` passed over, in round two `x`–`m` is removed
and `x`–`z` passed over: its third path, through `m`, would add nothing. -/
theorem custom_fills_fan : ∃ skeleton,
    (run (machine ℤ) (customSkeleton Platform.plain 4 9 ["x", "z", "m"]) (fun _ => 0)
      fanDb.store).1 = .ok skeleton ∧
    ∀ a, a ∈ skeleton ↔ ∃ pair ∈ pairs ["x", "z", "m"], ∃ paths,
      (run (machine ℤ) (findPaths Platform.plain pair.1 pair.2) (fun _ => 0) fanDb.store).1 =
        .ok (some paths) ∧ ∃ path ∈ paths, a ∈ path := by
  have near : ∀ pair ∈ pairs ["x", "z", "m"], ∃ d ≤ 8, AtDist fanDb.Adj pair.1 d pair.2 := by
    intro pair member
    simp only [pairs, List.map_cons, List.map_nil, List.append_nil, List.cons_append,
      List.nil_append, List.mem_cons, List.not_mem_nil, or_false] at member
    rcases member with rfl | rfl | rfl
    · exact ⟨2, by decide, fan_atDist (by decide +kernel)⟩
    · exact ⟨1, by decide, fan_atDist (by decide +kernel)⟩
    · exact ⟨1, by decide, fan_atDist (by decide +kernel)⟩
  obtain ⟨start, started, m, counted, fills⟩ := custom_fills Platform.plain fanDb ["x", "z", "m"]
    (by decide) (by decide) near 9 fun _ => 0
  have fair : (run (machine ℤ) (customStart Platform.plain ["x", "z", "m"]) (fun _ => 0)
      fanDb.store).1.map (fun start => (maxCountOf start.1, keepsTurns Platform.plain 9 start)) =
      .ok (some 3, true) := by decide +kernel
  rw [started] at fair
  obtain ⟨three, kept⟩ := Prod.mk.inj (Except.ok.inj fair)
  obtain rfl : m = 3 := Option.some.inj (counted.symm.trans three)
  obtain ⟨skeleton, ran, whole⟩ := fills 4 (by decide)
  have five : (run (machine ℤ) (customSkeleton Platform.plain 4 9 ["x", "z", "m"]) (fun _ => 0)
      fanDb.store).1.map List.length = .ok 5 := by decide +kernel
  rw [ran] at five
  have length : skeleton.length = 5 := Except.ok.inj five
  exact ⟨skeleton, ran, whole kept (by rw [length]; decide)⟩

/-! ## The shape of the skeleton -/

/-- A skeleton that holds a shortest path of every pair keeps the distances of the core. -/
theorem core_distances {adj : String → String → Prop} (symmetric : ∀ a b, adj a b → adj b a)
    {core skeleton : List String}
    (joined : ∀ pair ∈ pairs core, ∃ d path, AtDist adj pair.1 d pair.2 ∧
      Geodesic adj pair.1 d path ∧ path.head? = some pair.2 ∧ ∀ v ∈ path, v ∈ skeleton)
    {a b : String} (inA : a ∈ core) (inB : b ∈ core) (d : ℕ) :
    AtDist (fun x y => adj x y ∧ x ∈ skeleton ∧ y ∈ skeleton) a d b ↔ AtDist adj a d b := by
  have sub : ∀ x y, adj x y ∧ x ∈ skeleton ∧ y ∈ skeleton → adj x y := fun x y edge => edge.1
  have turned : ∀ x y, adj x y ∧ x ∈ skeleton ∧ y ∈ skeleton →
      adj y x ∧ y ∈ skeleton ∧ x ∈ skeleton :=
    fun x y edge => ⟨symmetric x y edge.1, edge.2.2, edge.2.1⟩
  by_cases same : a = b
  · subst same
    exact (atDist_zero.mpr rfl : AtDist adj a 0 a).subgraph_iff sub (.refl a) d
  · rcases mem_pairs_or inA inB same with inPairs | inPairs
    · obtain ⟨k, path, dist, geodesic, head, inside⟩ := joined _ inPairs
      exact dist.subgraph_iff sub (geodesic.walk_within inside head) d
    · obtain ⟨k, path, dist, geodesic, head, inside⟩ := joined _ inPairs
      exact (dist.reverse symmetric).subgraph_iff sub
        ((geodesic.walk_within inside head).reverse turned) d

theorem core_inside {adj : String → String → Prop} {core skeleton : List String}
    (distinct : core.Nodup) (two : 2 ≤ core.length)
    (joined : ∀ pair ∈ pairs core, ∃ d path, AtDist adj pair.1 d pair.2 ∧
      Geodesic adj pair.1 d path ∧ path.head? = some pair.2 ∧ ∀ v ∈ path, v ∈ skeleton)
    {a : String} (member : a ∈ core) : a ∈ skeleton := by
  obtain ⟨pair, inPairs, ends⟩ := exists_pair distinct two member
  obtain ⟨d, path, _, geodesic, head, inside⟩ := joined pair inPairs
  rcases ends with rfl | rfl
  · exact inside _ (List.mem_of_getLast? geodesic.getLast)
  · exact inside _ (List.mem_of_mem_head? head)

theorem onShortest_of_geodesic {adj : String → String → Prop} {core : List String}
    (distinct : core.Nodup) {pair : Pair} (member : pair ∈ pairs core) {d : ℕ} {path : Path}
    (dist : AtDist adj pair.1 d pair.2)
    (geodesic : Geodesic adj pair.1 d path ∧ path.head? = some pair.2) {a : String}
    (inPath : a ∈ path) :
    ∃ i ∈ core, ∃ j ∈ core, i ≠ j ∧ ∃ path, Shortest adj i j path ∧ a ∈ path := by
  obtain ⟨inFirst, inSecond⟩ := mem_of_mem_pairs member
  refine ⟨pair.1, inFirst, pair.2, inSecond, ne_of_mem_pairs distinct member, path.reverse, ?_, ?_⟩
  · exact (shortest_reverse dist).mpr geodesic
  · exact List.mem_reverse.mpr inPath

/-- The skeleton has no duplicates, holds the core, and holds only artists on shortest paths
between core artists; the subgraph induced on it keeps the distances of the core. -/
theorem custom_shape (db : MusicDb S) (symmetric : ∀ a b, db.Adj a b → db.Adj b a)
    (core : List String) (distinct : core.Nodup) (two : 2 ≤ core.length)
    (near : ∀ a ∈ core, ∀ b ∈ core, ∃ d ≤ 8, AtDist db.Adj a d b) (size : ℤ) (tape : Tape) :
    ∃ bound, ∀ fuel ≥ bound, ∃ skeleton,
      (run (machine S) (customSkeleton P fuel size core) tape db.store).1 = .ok skeleton ∧
      skeleton.Nodup ∧ (∀ a ∈ core, a ∈ skeleton) ∧
      (∀ a ∈ skeleton, ∃ i ∈ core, ∃ j ∈ core, i ≠ j ∧
        ∃ path, Shortest db.Adj i j path ∧ a ∈ path) ∧
      ∀ i ∈ core, ∀ j ∈ core, ∀ d,
        AtDist (fun x y => db.Adj x y ∧ x ∈ skeleton ∧ y ∈ skeleton) i d j ↔
          AtDist db.Adj i d j := by
  have nearPairs : ∀ pair ∈ pairs core, ∃ d ≤ 8, AtDist db.Adj pair.1 d pair.2 := by
    intro pair member
    obtain ⟨inFirst, inSecond⟩ := mem_of_mem_pairs member
    exact near _ inFirst _ inSecond
  obtain ⟨paths, start, found, started, prepared⟩ := exists_prepared P db distinct nearPairs
  obtain ⟨m, counted, _⟩ := prepared.maxCount (pairs_ne_nil distinct two)
  refine ⟨m + 1, fun fuel enough => ?_⟩
  obtain ⟨final, done, nodup, grows, within⟩ := customLoop_done P start.1 size m fuel 1
    (sortedPairsOf P start.1) (listSet P start.2) (by omega) (nodup_listSet P _)
  -- The first path of each pair is in the skeleton from the start.
  have joined : ∀ pair ∈ pairs core, ∃ d path, AtDist db.Adj pair.1 d pair.2 ∧
      Geodesic db.Adj pair.1 d path ∧ path.head? = some pair.2 ∧ ∀ v ∈ path, v ∈ final := by
    intro pair member
    obtain ⟨_, nonempty, d, dist, geodesics⟩ := found pair member
    cases listed : paths pair with
    | nil => exact absurd listed nonempty
    | cons path rest =>
        obtain ⟨geodesic, head⟩ := geodesics path (by rw [listed]; exact List.mem_cons_self ..)
        refine ⟨d, path, dist, geodesic, head, fun v inPath => grows v ?_⟩
        refine (prepared.mem_start P v).mpr ⟨pair, member, ?_⟩
        rw [listed, List.headD_cons]
        exact inPath
  refine ⟨final, run_customSkeleton db started counted done tape, nodup,
    fun a member => core_inside distinct two joined member, fun a member => ?_,
    fun i inI j inJ d => core_distances symmetric joined inI inJ d⟩
  obtain ⟨pair, onPaths⟩ : ∃ pair, OnPaths start.1 pair a := by
    rcases within a member with first | ⟨pair, _, onPaths⟩
    · exact prepared.onPaths_of_mem_start P first
    · exact ⟨pair, onPaths⟩
  obtain ⟨inPairs, path, listed, inPath⟩ := (prepared.onPaths pair a).mp onPaths
  obtain ⟨_, _, d, dist, geodesics⟩ := found pair inPairs
  exact onShortest_of_geodesic distinct inPairs dist (geodesics path listed) inPath

theorem custom_shape_row : ∃ bound, ∀ fuel ≥ bound, ∃ skeleton,
    (run (machine ℤ) (customSkeleton Platform.plain fuel 3 ["a", "c"]) (fun _ => 0)
      rowDb.store).1 = .ok skeleton ∧ skeleton.Nodup ∧ ∀ a ∈ ["a", "c"], a ∈ skeleton := by
  have listed : ∀ a ∈ ["a", "b", "c"], ∀ b ∈ (rowDb.neighbours a).members,
      a ∈ (rowDb.neighbours b).members := by decide +kernel
  have symmetric : ∀ a b, rowDb.Adj a b → rowDb.Adj b a := by
    intro a b edge
    by_cases known : a ∈ ["a", "b", "c"]
    · exact listed a known b edge
    · rw [MusicDb.Adj, (rowDb_unlisted known).1] at edge
      cases edge
  have near : ∀ a ∈ ["a", "c"], ∀ b ∈ ["a", "c"], ∃ d ≤ 8, AtDist rowDb.Adj a d b := by
    simp only [List.forall_mem_cons, List.not_mem_nil, IsEmpty.forall_iff, implies_true, and_true]
    exact ⟨⟨⟨0, by decide, atDist_zero.mpr rfl⟩, 2, by decide, atDist_row⟩,
      ⟨2, by decide, atDist_row.reverse symmetric⟩, 0, by decide, atDist_zero.mpr rfl⟩
  obtain ⟨bound, shape⟩ := custom_shape Platform.plain rowDb symmetric ["a", "c"] (by decide)
    (by decide) near 3 fun _ => 0
  refine ⟨bound, fun fuel enough => ?_⟩
  obtain ⟨skeleton, ran, distinct, holds, _⟩ := shape fuel enough
  exact ⟨skeleton, ran, distinct, holds⟩

end Phonograph.Server.CustomSkeleton
