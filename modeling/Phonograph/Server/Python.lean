import Mathlib.Data.List.AList
import Mathlib.Data.List.Lattice
import Phonograph.Server.Redis

/-! # The Python values the handlers compute with

A set is a duplicate-free list in insertion order, a dictionary an association
list.  CPython walks both in an order of its own, which depends on how they
were filled: `Platform` supplies it, as an arbitrary rearrangement.  It also
supplies the case mappings of `unicode` and the layout computed by igraph. -/

set_option autoImplicit false

namespace Phonograph.Server.Python

open Phonograph.Lib Phonograph.Server.Redis

structure Platform (F : Type) where
  lower : String → String
  lower_fixes : ∀ s, (∀ c ∈ s.toList, c.isLower) → lower s = s
  upper : Char → Char
  setOrder : List String → List String
  setOrder_perm : ∀ xs, (setOrder xs).Perm xs
  dictOrder : List String → List String
  dictOrder_perm : ∀ xs, (dictOrder xs).Perm xs
  pairOrder : List (String × String) → List (String × String)
  pairOrder_perm : ∀ xs, (pairOrder xs).Perm xs
  /-- Random seed, vertex count, edges and weights give each vertex a position. -/
  layout : ℕ → ℕ → List (ℕ × ℕ) → List ℕ → ℕ → F × F

private theorem toLower_of_isLower {c : Char} (h : c.isLower) : c.toLower = c := by
  have lower : 'a'.val ≤ c.val := of_decide_eq_true (Bool.and_eq_true_iff.mp h).1
  apply dif_neg
  rintro ⟨_, upper⟩
  have gap : 'a'.val ≤ 'Z'.val := UInt32.le_trans lower upper
  revert gap
  decide

def Platform.plain : Platform ℤ where
  lower s := String.ofList (s.toList.map Char.toLower)
  lower_fixes s h := by
    rw [List.map_congr_left fun c member => toLower_of_isLower (h c member), List.map_id',
      String.ofList_toList]
  upper := Char.toUpper
  setOrder := id
  setOrder_perm _ := List.Perm.refl _
  dictOrder := id
  dictOrder_perm _ := List.Perm.refl _
  pairOrder := id
  pairOrder_perm _ := List.Perm.refl _
  layout _ _ _ _ _ := (0, 0)

abbrev Dict (κ β : Type) := AList fun _ : κ => β

variable {κ β : Type} [DecidableEq κ]

/-- `d[k]` as a value, or a `KeyError`. -/
def item (d : Dict κ β) (k : κ) : Except PyErr β :=
  match d.lookup k with
  | some v => .ok v
  | none => .error .keyError

theorem item_ok {d : Dict κ β} {k : κ} {v : β} (h : d.lookup k = some v) : item d k = .ok v := by
  rw [item, h]

@[simp] theorem ok_bind {α γ : Type} (value : α) (rest : α → Except PyErr γ) :
    (Except.ok value >>= rest) = rest value := rfl

/-- `s.update(xs)`. -/
def setUpdate (s xs : List String) : List String := xs ∪ s

/-- `s.split(sep)` for a one-character separator. -/
def split (sep : Char) (s : String) : List String :=
  (s.toList.splitOn sep).map String.ofList

theorem split_of_notMem {sep : Char} {s : String} (plain : sep ∉ s.toList) : split sep s = [s] := by
  have whole : ([sep].intercalate [s.toList]).splitOn sep = [s.toList] :=
    List.splitOn_intercalate sep (by simpa using plain) (by simp)
  rw [List.intercalate_singleton] at whole
  simp [split, whole]

theorem split_comma {s t : String} (left : ',' ∉ s.toList) (right : ',' ∉ t.toList) :
    split ',' (s ++ "," ++ t) = [s, t] := by
  have whole : ([','].intercalate [s.toList, t.toList]).splitOn ',' = [s.toList, t.toList] :=
    List.splitOn_intercalate ',' (by simp [left, right]) (by simp)
  have text : (s ++ "," ++ t).toList = [','].intercalate [s.toList, t.toList] := by
    simp [List.intercalate, String.toList_append]
  rw [split, text, whole]
  simp

def isSpace (c : Char) : Bool := c ∈ [' ', '\t', '\n', '\r', Char.ofNat 11, Char.ofNat 12]

def digitsValue (ds : List Char) : Option ℕ :=
  if ds ≠ [] ∧ ds.all Char.isDigit then
    some (ds.foldl (fun n d => 10 * n + (d.toNat - '0'.toNat)) 0)
  else none

/-- `int(s)`: blanks around an optional sign and decimal digits. -/
def int (s : String) : Option ℤ :=
  match ((s.toList.dropWhile isSpace).reverse.dropWhile isSpace).reverse with
  | '-' :: ds => (digitsValue ds).map fun n => -(n : ℤ)
  | '+' :: ds => (digitsValue ds).map fun n => (n : ℤ)
  | ds => (digitsValue ds).map fun n => (n : ℤ)

/-- Strings compare by code points, and `None` is below every string. -/
def keyLe : Option String → Option String → Bool
  | none, _ => true
  | some _, none => false
  | some a, some b => decide (a ≤ b)

/-- `sorted(xs, key=..., reverse=True)`, stable as Python's sort is. -/
def sortedDesc {α : Type} (le : α → α → Bool) (xs : List α) : List α :=
  xs.insertionSort fun a b => le b a = true

/-- `xs[0:n]`, where a negative bound counts from the end. -/
def sliceTo {α : Type} (n : ℤ) (xs : List α) : List α :=
  if n < 0 then xs.take (xs.length + n).toNat else xs.take n.toNat

/-- `itertools.combinations(xs, 2)`. -/
def pairs {α : Type} : List α → List (α × α)
  | [] => []
  | x :: xs => (xs.map fun y => (x, y)) ++ pairs xs

section Pairs
variable {α : Type} {a b : α}

theorem mem_pairs {vs : List α} :
    (a, b) ∈ pairs vs ↔ ∃ m n : ℕ, m < n ∧ vs[m]? = some a ∧ vs[n]? = some b := by
  induction vs with
  | nil => simp [pairs]
  | cons v vs ih =>
      rw [pairs, List.mem_append, List.mem_map, ih]
      constructor
      · rintro (⟨w, inside, same⟩ | ⟨m, n, less, left, right⟩)
        · obtain ⟨rfl, rfl⟩ := Prod.mk.inj same
          obtain ⟨n, right⟩ := List.mem_iff_getElem?.mp inside
          exact ⟨0, n + 1, n.succ_pos, rfl, right⟩
        · exact ⟨m + 1, n + 1, Nat.succ_lt_succ less, left, right⟩
      · rintro ⟨m, n, less, left, right⟩
        obtain ⟨n, rfl⟩ : ∃ k, n = k + 1 := ⟨n - 1, by omega⟩
        cases m with
        | zero =>
            exact Or.inl ⟨b, List.mem_of_getElem? right, Prod.ext (Option.some.inj left) rfl⟩
        | succ m => exact Or.inr ⟨m, n, Nat.lt_of_succ_lt_succ less, left, right⟩

theorem mem_of_mem_pairs {vs : List α} (member : (a, b) ∈ pairs vs) : a ∈ vs ∧ b ∈ vs := by
  obtain ⟨m, n, _, left, right⟩ := mem_pairs.mp member
  exact ⟨List.mem_of_getElem? left, List.mem_of_getElem? right⟩

theorem ne_of_mem_pairs {vs : List α} (nodup : vs.Nodup) (member : (a, b) ∈ pairs vs) : a ≠ b := by
  obtain ⟨m, n, less, left, right⟩ := mem_pairs.mp member
  rintro rfl
  have bound : n < vs.length := (List.getElem?_eq_some_iff.mp right).1
  exact List.nodup_iff_getElem?_ne_getElem?.mp nodup m n less bound (left.trans right.symm)

theorem nodup_pairs {vs : List α} (nodup : vs.Nodup) : (pairs vs).Nodup := by
  induction vs with
  | nil => exact List.nodup_nil
  | cons x vs ih =>
      obtain ⟨fresh, nodup⟩ := List.nodup_cons.mp nodup
      rw [pairs, List.nodup_append']
      refine ⟨nodup.map fun a b same => (Prod.mk.inj same).2, ih nodup, ?_⟩
      intro pair first later
      obtain ⟨y, _, rfl⟩ := List.mem_map.mp first
      exact fresh (mem_of_mem_pairs later).1

theorem mem_pairs_or {vs : List α} (left : a ∈ vs) (right : b ∈ vs) (ne : a ≠ b) :
    (a, b) ∈ pairs vs ∨ (b, a) ∈ pairs vs := by
  obtain ⟨m, left⟩ := List.mem_iff_getElem?.mp left
  obtain ⟨n, right⟩ := List.mem_iff_getElem?.mp right
  rcases Nat.lt_trichotomy m n with less | rfl | less
  · exact Or.inl (mem_pairs.mpr ⟨m, n, less, left, right⟩)
  · exact absurd (Option.some.inj (left.symm.trans right)) ne
  · exact Or.inr (mem_pairs.mpr ⟨n, m, less, right, left⟩)

end Pairs

def ofExcept {α : Type} : Except PyErr α → Handler α
  | .ok value => .done value
  | .error error => .fail error

end Phonograph.Server.Python
