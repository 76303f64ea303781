import Phonograph.Server.Database

/-! # The path engines

`extend`, `pathfork`, `find_paths`, `dijkstra` and `determine_paths` of
`app.py`.  `distances` maps a level to a table from the artists found there to
the artists of the level before that lead to them. -/

set_option autoImplicit false

namespace Phonograph.Server.Paths

open Phonograph.Lib Phonograph.Server.Redis Phonograph.Server.Python Phonograph.Server.Database

abbrev Level := Dict String (List String)
abbrev Distances := Dict ℕ Level
abbrev Path := List String

variable {F : Type}

/-- The inner loop of `extend`: `setdefault(neighbour, []).append(node)`. -/
def addPredecessor (node : String) (next : Level) (neighbour : String) : Level :=
  next.insert neighbour ((next.lookup neighbour).getD [] ++ [node])

def extend (P : Platform F) (distances : Distances) (visited : List String) (c : ℕ) :
    Handler Distances := do
  let level ← ofExcept (item distances c)
  let next ← (P.dictOrder level.keys).foldlM (fun next node => do
    let neighbours ← Handler.smembers (neighboursKey node)
    return (P.setOrder (neighbours.filter (· ∉ visited))).foldl (addPredecessor node) next)
    (∅ : Level)
  return distances.insert (c + 1) next

def pathfork (path : Path) (distances : Distances) (c : ℕ) : Except PyErr (List Path) := do
  let level ← item distances c
  match path.getLast? with
  | none => .error .indexError
  | some last => return (← item level last).map fun n => path ++ [n]

/-- The loop `while c > 0` that both engines end with. -/
def backtrack (distances : Distances) : ℕ → List Path → Except PyErr (List Path)
  | 0, paths => .ok paths
  | c + 1, paths => do
      let newpaths ← paths.foldlM (fun acc path => do
        return acc ++ (← pathfork path distances (c + 1))) []
      backtrack distances c newpaths

/-- The first loop of `find_paths`; `left` is `8 - c`. -/
def searchLevels (P : Platform F) (j : String) :
    ℕ → Distances → List String → ℕ → Handler (Option (Distances × ℕ))
  | left, distances, visited, c => do
      let level ← ofExcept (item distances c)
      if j ∈ level.keys then pure (some (distances, c))
      else match left with
        | 0 => pure none
        | left + 1 => do
            let visited := setUpdate visited level.keys
            let distances ← extend P distances visited c
            searchLevels P j left distances visited (c + 1)

def initialDistances (i : String) : Distances := AList.singleton 0 (AList.singleton i [])

def findPaths (P : Platform F) (i j : String) : Handler (Option (List Path)) := do
  match ← searchLevels P j 8 (initialDistances i) [] 0 with
  | none => return none
  | some (distances, c) =>
      let level ← ofExcept (item distances c)
      let predecessors ← ofExcept (item level j)
      return some (← ofExcept (backtrack distances (c - 1) (predecessors.map fun a => [j, a])))

/-- The loop of `dijkstra`; `left` is `level - c`. -/
def dijkstraLevels (P : Platform F) : ℕ → Distances → List String → ℕ → Handler Distances
  | 0, distances, _, _ => return distances
  | left + 1, distances, visited, c => do
      let level ← ofExcept (item distances c)
      let visited := setUpdate visited level.keys
      let distances ← extend P distances visited c
      dijkstraLevels P left distances visited (c + 1)

def dijkstra (P : Platform F) (i : String) (level : ℤ) : Handler Distances :=
  dijkstraLevels P level.toNat (initialDistances i) [] 0

def determinePaths (leaf : String) (distances : Distances) (c : ℕ) : Except PyErr (List Path) := do
  let predecessors ← item (← item distances c) leaf
  backtrack distances (c - 1) (predecessors.map fun a => [leaf, a])

end Phonograph.Server.Paths
