import Mathlib.Data.BitVec
import Mathlib.Order.Defs.LinearOrder

/-! # The skip list of `t_zset.c`

The heap has one map for each field of a node.  An access to a node that is not
allocated, to a level it was not allocated with or to the members of a null object is
`none`, as is a loop that does not end.  What `zmalloc` and `zslRandomLevel` answer is
an argument of `zslInsert`. -/

set_option autoImplicit false

namespace Phonograph.Redis

def maxLevel : ℕ := 32

abbrev Ptr := ℕ

/-- `struct zskiplistLevel`; the span is an `unsigned int`. -/
structure Level where
  forward : Option Ptr
  span : BitVec 32
  deriving DecidableEq

abbrev Levels := Ptr → ℕ → Option Level

structure Heap (S M : Type) where
  obj : Ptr → Option (Option M)
  score : Ptr → Option S
  backward : Ptr → Option (Option Ptr)
  level : Levels

structure Zskiplist (S M : Type) where
  heap : Heap S M
  header : Ptr
  tail : Option Ptr
  length : ℕ
  level : ℕ

def Levels.set (levels : Levels) (x : Ptr) (i : ℕ) (value : Level) : Option Levels :=
  (levels x i).map fun _ => fun y j => if y = x ∧ j = i then some value else levels y j

section
variable {S M : Type}

def Heap.setBackward (heap : Heap S M) (x : Ptr) (value : Option Ptr) : Option (Heap S M) :=
  (heap.backward x).map fun _ => { heap with backward := Function.update heap.backward x (some value) }

/-- `zslCreateNode`.  The source leaves the levels and the back pointer open and writes
them before it reads them. -/
def zslCreateNode (heap : Heap S M) (x : Ptr) (level : ℕ) (score : S) (obj : Option M) :
    Heap S M where
  obj := Function.update heap.obj x (some obj)
  score := Function.update heap.score x (some score)
  backward := Function.update heap.backward x (some none)
  level := fun y i => if y = x then (if i < level then some ⟨none, 0⟩ else none) else heap.level y i

def zslFreeNode (heap : Heap S M) (x : Ptr) : Heap S M where
  obj := Function.update heap.obj x none
  score := Function.update heap.score x none
  backward := Function.update heap.backward x none
  level := fun y i => if y = x then none else heap.level y i

def zslCreate [Zero S] (header : Ptr) : Zskiplist S M where
  heap := zslCreateNode ⟨fun _ => none, fun _ => none, fun _ => none, fun _ _ => none⟩
    header maxLevel 0 none
  header := header
  tail := none
  length := 0
  level := 1

/-! ## Searches -/

/-- The inner loop of the searches: follow the links of a level as long as the test
says so.  `cross` adds the span of a link to what has been counted. -/
def walk {R : Type} (levels : Levels) (cross : R → BitVec 32 → R)
    (goes : R → BitVec 32 → Ptr → Option Bool) (i : ℕ) : ℕ → R → Ptr → Option (R × Ptr)
  | 0, _, _ => none
  | fuel + 1, rank, x => do
      let here ← levels x i
      match here.forward with
      | none => some (rank, x)
      | some y => do
          if ← goes rank here.span y then walk levels cross goes i fuel (cross rank here.span) y
          else some (rank, x)

/-- The outer loop: `rank[j]` and `update[j]` for the levels `j` below `i`. -/
def descend {R : Type} (levels : Levels) (cross : R → BitVec 32 → R)
    (goes : R → BitVec 32 → Ptr → Option Bool) (fuel : ℕ) : ℕ → R → Ptr → Option (List (R × Ptr))
  | 0, _, _ => some []
  | i + 1, rank, x => do
      let here ← walk levels cross goes i fuel rank x
      let lower ← descend levels cross goes fuel i here.1 here.2
      some (lower ++ [here])

def comesBefore [LinearOrder S] (less : M → M → Bool) (heap : Heap S M) (score : S) (obj : M)
    (x : Ptr) : Option Bool := do
  let own ← heap.score x
  if own < score then some true
  else if own = score then do
    let member ← (← heap.obj x)
    some (less member obj)
  else some false

/-! ## Insertion -/

def openLevel (header : Ptr) (length : ℕ) (levels : Levels) (i : ℕ) : Option Levels := do
  let here ← levels header i
  levels.set header i { here with span := (length : BitVec 32) }

def splice (found : List (BitVec 32 × Ptr)) (x : Ptr) (levels : Levels) (i : ℕ) :
    Option Levels := do
  let first ← found[0]?
  let here ← found[i]?
  let old ← levels here.2 i
  let levels ← levels.set x i ⟨old.forward, old.span - (first.1 - here.1)⟩
  levels.set here.2 i ⟨some x, first.1 - here.1 + 1⟩

def widen (found : List (BitVec 32 × Ptr)) (levels : Levels) (i : ℕ) : Option Levels := do
  let here ← found[i]?
  let old ← levels here.2 i
  levels.set here.2 i { old with span := old.span + 1 }

/-- The back pointers and the tail around the node `x`, which stands behind `last`. -/
def connect (zsl : Zskiplist S M) (x last : Ptr) : Option (Zskiplist S M) := do
  let heap ← zsl.heap.setBackward x (if last = zsl.header then none else some last)
  let next ← heap.level x 0
  match next.forward with
  | some y => do
      let heap ← heap.setBackward y (some x)
      some { zsl with heap := heap, length := zsl.length + 1 }
  | none => some { zsl with heap := heap, tail := some x, length := zsl.length + 1 }

variable [LinearOrder S] [LinearOrder M]

/-- `zslInsert`, for a node that is allocated at `x` with a random number of levels. -/
def zslInsert (zsl : Zskiplist S M) (score : S) (obj : M) (level : ℕ) (x : Ptr) :
    Option (Zskiplist S M) := do
  let goes := comesBefore (fun a b => decide (a < b)) zsl.heap score obj
  let found ← descend zsl.heap.level (· + ·) (fun _ _ y => goes y) (zsl.length + 1) zsl.level
    (0 : BitVec 32) zsl.header
  let found := found ++ List.replicate (level - zsl.level) (0, zsl.header)
  let levels ← (List.range' zsl.level (level - zsl.level)).foldlM
    (openLevel zsl.header zsl.length) zsl.heap.level
  let top := max zsl.level level
  let heap := zslCreateNode { zsl.heap with level := levels } x level score (some obj)
  let levels ← (List.range' 0 level).foldlM (splice found x) heap.level
  let levels ← (List.range' level (top - level)).foldlM (widen found) levels
  let first ← found[0]?
  connect { zsl with heap := { heap with level := levels }, level := top } x first.2

/-! ## Deletion -/

def unlink (update : List Ptr) (x : Ptr) (levels : Levels) (i : ℕ) : Option Levels := do
  let u ← update[i]?
  let here ← levels u i
  if here.forward = some x then do
    let own ← levels x i
    levels.set u i ⟨own.forward, here.span + (own.span - 1)⟩
  else levels.set u i { here with span := here.span - 1 }

/-- `while (zsl->level > 1 && zsl->header->level[zsl->level-1].forward == NULL) zsl->level--`. -/
def lowerLevel (levels : Levels) (header : Ptr) : ℕ → Option ℕ
  | 0 => some 0
  | level + 1 =>
      if level = 0 then some 1
      else do
        let top ← levels header level
        if top.forward = none then lowerLevel levels header level else some (level + 1)

def zslDeleteNode (zsl : Zskiplist S M) (x : Ptr) (update : List Ptr) : Option (Zskiplist S M) := do
  let levels ← (List.range' 0 zsl.level).foldlM (unlink update x) zsl.heap.level
  let heap := { zsl.heap with level := levels }
  let next ← levels x 0
  let back ← heap.backward x
  let level ← lowerLevel levels zsl.header zsl.level
  match next.forward with
  | some y => do
      let heap ← heap.setBackward y back
      some { zsl with heap := heap, level := level, length := zsl.length - 1 }
  | none => some { zsl with heap := heap, tail := back, level := level, length := zsl.length - 1 }

def zslDelete (zsl : Zskiplist S M) (score : S) (obj : M) : Option (Bool × Zskiplist S M) := do
  let goes := comesBefore (fun a b => decide (a < b)) zsl.heap score obj
  let found ← descend zsl.heap.level (fun _ _ => ()) (fun _ _ y => goes y) (zsl.length + 1) zsl.level
    () zsl.header
  let update := found.map Prod.snd
  let last ← update[0]?
  let next ← zsl.heap.level last 0
  match next.forward with
  | none => some (false, zsl)
  | some x => do
      let own ← zsl.heap.score x
      let member ← (← zsl.heap.obj x)
      if score = own ∧ member = obj then do
        let zsl ← zslDeleteNode zsl x update
        some (true, { zsl with heap := zslFreeNode zsl.heap x })
      else some (false, zsl)

/-! ## Ranks -/

/-- The levels of `zslGetRank` below `i`, from the node `x` of the given rank. -/
def rankFrom (zsl : Zskiplist S M) (score : S) (o : M) : ℕ → ℕ → Ptr → Option ℕ
  | 0, _, _ => some 0
  | i + 1, rank, x => do
      let goes := comesBefore (fun a b => decide (a ≤ b)) zsl.heap score o
      let here ← walk zsl.heap.level (fun rank span => rank + span.toNat) (fun _ _ y => goes y) i
        (zsl.length + 1) rank x
      let member ← zsl.heap.obj here.2
      if member = some o then some here.1 else rankFrom zsl score o i here.1 here.2

def zslGetRank (zsl : Zskiplist S M) (score : S) (o : M) : Option ℕ :=
  rankFrom zsl score o zsl.level 0 zsl.header

omit [LinearOrder S] [LinearOrder M] in
def elementFrom (zsl : Zskiplist S M) (rank : ℕ) : ℕ → ℕ → Ptr → Option (Option Ptr)
  | 0, _, _ => some none
  | i + 1, traversed, x => do
      let goes (traversed : ℕ) (span : BitVec 32) := decide (traversed + span.toNat ≤ rank)
      let here ← walk zsl.heap.level (fun traversed span => traversed + span.toNat)
        (fun traversed span _ => some (goes traversed span)) i (zsl.length + 1) traversed x
      if here.1 = rank then some (some here.2) else elementFrom zsl rank i here.1 here.2

omit [LinearOrder S] [LinearOrder M] in
def zslGetElementByRank (zsl : Zskiplist S M) (rank : ℕ) : Option (Option Ptr) :=
  elementFrom zsl rank zsl.level 0 zsl.header

end

end Phonograph.Redis
