import Mathlib
import Phonograph.Server.Engines
import Phonograph.Server.Routes

/-! # One sweep of the zoom loop

`/zoom` visits the leaves of a level again and again, and takes one shortest
path of each leaf in every sweep.  `Swept` says what sweep number `j` does: it
stops when enough artists are chosen, it ends with every leaf visited, or it
comes to a leaf whose `j` paths are used up and raises an `IndexError`. -/

set_option autoImplicit false

namespace Phonograph.Server.ZoomSweep

open Phonograph.Lib Phonograph.Server.Redis Phonograph.Server.Python
open Phonograph.Server.Database Phonograph.Server.Paths Phonograph.Server.Routes

/-! ## Adding the paths of one sweep -/

section Turns
variable (turns : String → List Path)

def addTurns (j : ℕ) (front chosen : List String) : List String :=
  front.foldl (fun chosen leaf => setUpdate chosen ((turns leaf)[j]?.getD [])) chosen

theorem mem_addTurns (j : ℕ) (a : String) : ∀ (front chosen : List String),
    a ∈ addTurns turns j front chosen ↔
      a ∈ chosen ∨ ∃ leaf ∈ front, ∃ path, (turns leaf)[j]? = some path ∧ a ∈ path := by
  intro front
  induction front with
  | nil => intro chosen; simp [addTurns]
  | cons leaf front ih =>
      intro chosen
      have rest := ih (setUpdate chosen ((turns leaf)[j]?.getD []))
      have first : a ∈ setUpdate chosen ((turns leaf)[j]?.getD []) ↔
          a ∈ chosen ∨ ∃ path, (turns leaf)[j]? = some path ∧ a ∈ path := by
        rw [setUpdate, List.mem_union_iff, or_comm]
        cases (turns leaf)[j]? with
        | none => simp
        | some path => simp
      rw [first, or_assoc] at rest
      simp only [List.mem_cons, exists_eq_or_imp]
      exact rest

theorem nodup_addTurns (j : ℕ) : ∀ (front chosen : List String), chosen.Nodup →
    (addTurns turns j front chosen).Nodup := by
  intro front
  induction front with
  | nil => intro chosen nodup; exact nodup
  | cons leaf front ih => intro chosen nodup; exact ih _ (List.Nodup.union _ nodup)

theorem length_le_of_subset {xs ys : List String} (nodup : xs.Nodup) (sub : ∀ a ∈ xs, a ∈ ys) :
    xs.length ≤ ys.length :=
  (nodup.subperm sub).length_le

theorem length_setUpdate {root : String} {chosen path : List String} (nodup : chosen.Nodup)
    (old : root ∈ chosen) (new : root ∈ path) :
    (setUpdate chosen path).length + 1 ≤ chosen.length + path.length := by
  have sub : ∀ a ∈ setUpdate chosen path, a ∈ chosen ++ path.erase root := by
    intro a member
    rw [setUpdate, List.mem_union_iff] at member
    rw [List.mem_append]
    by_cases same : a = root
    · exact Or.inl (same ▸ old)
    · rcases member with inPath | inChosen
      · exact Or.inr ((List.mem_erase_of_ne same).mpr inPath)
      · exact Or.inl inChosen
  have distinct : (setUpdate chosen path).Nodup := List.Nodup.union path nodup
  have le := length_le_of_subset distinct sub
  rw [List.length_append, List.length_erase_of_mem new] at le
  have pos := List.length_pos_of_mem new
  omega

end Turns

/-! ## The loop over the leaves -/

section Sweep
variable (turns : String → List Path) (size : ℤ) (j : ℕ) (leaves chosen : List String)
  (paths : LeafPaths)

inductive Swept : Except PyErr (List String × LeafPaths) → Prop where
  | raised (front : List String) (leaf : String) (back : List String) :
      leaves = front ++ leaf :: back → (∀ l ∈ front, j < (turns l).length) →
      (turns leaf).length ≤ j → ((addTurns turns j front chosen).length : ℤ) < size →
      Swept (.error .indexError)
  | filled (front back : List String) (paths' : LeafPaths) :
      leaves = front ++ back → (∀ l ∈ front, j < (turns l).length) →
      size ≤ (addTurns turns j front chosen).length →
      (∃ leaf ∈ front, paths'.lookup leaf = some ((turns leaf).drop j).reverse) →
      Swept (.ok (addTurns turns j front chosen, paths'))
  | finished (paths' : LeafPaths) :
      (∀ l ∈ leaves, j < (turns l).length) →
      ((addTurns turns j leaves chosen).length : ℤ) < size →
      (∀ key, paths'.lookup key =
        if key ∈ leaves then some ((turns key).drop (j + 1)).reverse else paths.lookup key) →
      Swept (.ok (addTurns turns j leaves chosen, paths'))

/-- What is stored for a leaf before sweep `j`: the paths it has not taken yet. -/
def Holds (paths : LeafPaths) (leaf : String) : Prop :=
  paths.lookup leaf = some ((turns leaf).drop j).reverse ∨ (paths.lookup leaf = none ∧ j = 0)

end Sweep

section Step
variable {turns : String → List Path} {size : ℤ} {j c : ℕ} {distances : Distances}

theorem holds_insert {leaf : String} {leaves : List String} {paths : LeafPaths} {left : List Path}
    (fresh : leaf ∉ leaves) (holds : ∀ other ∈ leaves, Holds turns j paths other) :
    ∀ other ∈ leaves, Holds turns j (paths.insert leaf left) other := by
  intro other member
  have ne : other ≠ leaf := fun same => fresh (same ▸ member)
  rw [Holds, AList.lookup_insert_ne ne]
  exact holds other member

theorem zoomSweep_cons {leaf : String} {leaves chosen : List String} {paths : LeafPaths}
    (holds : Holds turns j paths leaf)
    (listed : determinePaths leaf distances c = .ok (turns leaf).reverse) :
    zoomSweep size distances c (leaf :: leaves) chosen paths =
      match (turns leaf)[j]? with
      | none => .error .indexError
      | some path =>
          if ((setUpdate chosen path).length : ℤ) ≥ size then
            .ok (setUpdate chosen path, paths.insert leaf ((turns leaf).drop j).reverse)
          else zoomSweep size distances c leaves (setUpdate chosen path)
            (paths.insert leaf ((turns leaf).drop (j + 1)).reverse) := by
  have last : ((turns leaf).drop j).reverse.getLast? = (turns leaf)[j]? := by
    rw [List.getLast?_reverse, List.head?_drop]
  have popped : ((turns leaf).drop j).reverse.dropLast = ((turns leaf).drop (j + 1)).reverse := by
    rw [List.dropLast_reverse, List.tail_drop]
  rcases holds with found | ⟨none, rfl⟩
  · simp only [zoomSweep, found, ok_bind, last, popped]
    cases (turns leaf)[j]? <;> rfl
  · rw [List.drop_zero] at last popped ⊢
    simp only [zoomSweep, none, listed, ok_bind, last, popped]
    cases (turns leaf)[0]? <;> rfl

/-- The outcome over the remaining leaves, put behind a leaf that had a path to give. -/
theorem Swept.cons {leaf : String} {leaves chosen : List String} {paths : LeafPaths} {path : Path}
    {result : Except PyErr (List String × LeafPaths)} (fresh : leaf ∉ leaves)
    (taken : (turns leaf)[j]? = some path)
    (rest : Swept turns size j leaves (setUpdate chosen path)
      (paths.insert leaf ((turns leaf).drop (j + 1)).reverse) result) :
    Swept turns size j (leaf :: leaves) chosen paths result := by
  have has : j < (turns leaf).length := (List.getElem?_eq_some_iff.mp taken).1
  have step : ∀ front, addTurns turns j front (setUpdate chosen path) =
      addTurns turns j (leaf :: front) chosen := by
    intro front
    rw [addTurns, addTurns, List.foldl_cons, taken, Option.getD_some]
  cases rest with
  | raised front late back split ready used few =>
      rw [step] at few
      refine .raised (leaf :: front) late back (by rw [split]; rfl) ?_ used few
      exact List.forall_mem_cons.mpr ⟨has, ready⟩
  | filled front back paths' split ready enough kept =>
      rw [step] at enough ⊢
      obtain ⟨l, member, found⟩ := kept
      refine .filled (leaf :: front) back paths' (by rw [split]; rfl) ?_ enough ?_
      · exact List.forall_mem_cons.mpr ⟨has, ready⟩
      · exact ⟨l, List.mem_cons_of_mem _ member, found⟩
  | finished paths' ready few found =>
      rw [step] at few ⊢
      refine .finished paths' (List.forall_mem_cons.mpr ⟨has, ready⟩) few fun key => ?_
      rw [found]
      by_cases here : key = leaf
      · subst here
        rw [if_neg fresh, if_pos (List.mem_cons_self ..), AList.lookup_insert]
      · rw [AList.lookup_insert_ne here]
        simp only [List.mem_cons, here, false_or]

/-- Sweep number `j` behaves as `Swept` says. -/
theorem zoomSweep_swept : ∀ (leaves chosen : List String) (paths : LeafPaths), leaves.Nodup →
    (chosen.length : ℤ) < size →
    (∀ leaf ∈ leaves, determinePaths leaf distances c = .ok (turns leaf).reverse) →
    (∀ leaf ∈ leaves, Holds turns j paths leaf) →
    Swept turns size j leaves chosen paths (zoomSweep size distances c leaves chosen paths) := by
  intro leaves
  induction leaves with
  | nil =>
      intro chosen paths _ short _ _
      refine .finished paths ?_ short ?_
      · intro l member
        cases member
      · intro key
        rw [if_neg List.not_mem_nil]
  | cons leaf leaves ih =>
      intro chosen paths nodup short listed holds
      obtain ⟨fresh, nodup⟩ := List.nodup_cons.mp nodup
      rw [zoomSweep_cons (holds leaf (List.mem_cons_self ..)) (listed leaf (List.mem_cons_self ..))]
      cases taken : (turns leaf)[j]? with
      | none =>
          have used : (turns leaf).length ≤ j := List.getElem?_eq_none_iff.mp taken
          exact .raised [] leaf leaves rfl (fun l member => by cases member) used short
      | some path =>
          have has : j < (turns leaf).length := (List.getElem?_eq_some_iff.mp taken).1
          have one : addTurns turns j [leaf] chosen = setUpdate chosen path := by
            simp [addTurns, taken]
          by_cases full : ((setUpdate chosen path).length : ℤ) ≥ size
          · simp only [if_pos full]
            rw [← one]
            refine .filled [leaf] leaves _ rfl ?_ (by rw [one]; exact full) ?_
            · intro l member
              rw [List.mem_singleton.mp member]
              exact has
            · exact ⟨leaf, List.mem_singleton_self leaf, AList.lookup_insert _⟩
          · simp only [if_neg full]
            apply Swept.cons fresh taken
            exact ih (setUpdate chosen path) _ nodup (by omega)
              (fun other member => listed other (List.mem_cons_of_mem _ member))
              (holds_insert fresh fun other member => holds other (List.mem_cons_of_mem _ member))

/-- A sweep that begins below `size` ends less than a whole path above it. -/
theorem length_zoomSweep {root : String} {n : ℕ} {result : List String × LeafPaths} :
    ∀ (leaves chosen : List String) (paths : LeafPaths), leaves.Nodup → chosen.Nodup →
    root ∈ chosen → (chosen.length : ℤ) < size →
    (∀ leaf ∈ leaves, determinePaths leaf distances c = .ok (turns leaf).reverse) →
    (∀ leaf ∈ leaves, Holds turns j paths leaf) →
    (∀ leaf ∈ leaves, ∀ path ∈ turns leaf, root ∈ path ∧ path.length ≤ n + 1) →
    zoomSweep size distances c leaves chosen paths = .ok result →
    (result.1.length : ℤ) ≤ size - 1 + n := by
  intro leaves
  induction leaves with
  | nil =>
      intro chosen paths _ _ _ short _ _ _ swept
      obtain rfl := Except.ok.inj swept
      dsimp only
      omega
  | cons leaf leaves ih =>
      intro chosen paths distinct nodup begun short listed holds bound swept
      obtain ⟨fresh, distinct⟩ := List.nodup_cons.mp distinct
      rw [zoomSweep_cons (holds leaf (List.mem_cons_self ..)) (listed leaf (List.mem_cons_self ..))]
        at swept
      cases taken : (turns leaf)[j]? with
      | none =>
          rw [taken] at swept
          cases swept
      | some path =>
          obtain ⟨through, length⟩ :=
            bound leaf (List.mem_cons_self ..) path (List.mem_of_getElem? taken)
          have grown := length_setUpdate nodup begun through
          simp only [taken] at swept
          by_cases full : ((setUpdate chosen path).length : ℤ) ≥ size
          · rw [if_pos full] at swept
            obtain rfl := Except.ok.inj swept
            dsimp only
            omega
          · rw [if_neg full] at swept
            have kept : root ∈ setUpdate chosen path := List.mem_union_iff.mpr (Or.inr begun)
            exact ih (setUpdate chosen path) _ distinct (List.Nodup.union path nodup) kept (by omega)
              (fun other member => listed other (List.mem_cons_of_mem _ member))
              (holds_insert fresh fun other member => holds other (List.mem_cons_of_mem _ member))
              (fun other member => bound other (List.mem_cons_of_mem _ member)) swept

end Step

end Phonograph.Server.ZoomSweep
