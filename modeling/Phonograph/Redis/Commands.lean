import Phonograph.Redis.Skiplist

/-! # The sorted set commands of `t_zset.c`

A sorted set is kept as a ziplist while it is small, and as a skip list with a
dictionary of its nodes otherwise.  A ziplist is the list of its pairs of an element
and its score.  A command whose assertion fails is `none`. -/

set_option autoImplicit false

namespace Phonograph.Redis

/-- The dictionary leads to the score that is stored in the node. -/
structure Zset (S M : Type) where
  dict : M → Option Ptr
  zsl : Zskiplist S M

inductive Object (S M : Type) where
  | ziplist (pairs : List (M × S))
  | skiplist (zs : Zset S M)

/-- The limits of ziplists, the length of a member (`rawlen` is zero for one that is kept
as a number), and the sum of two scores unless it is not a number. -/
structure Server (S M : Type) where
  maxZiplistEntries : ℕ
  maxZiplistValue : ℕ
  sdslen : M → ℕ
  rawlen : M → ℕ
  sum : S → S → Option S

/-- What `zslRandomLevel` and `zmalloc` answer in the course of a command, and the order in
which `qsort` leaves sources of given cardinalities. -/
structure Supply where
  header : Ptr
  level : ℕ → ℕ
  node : ℕ → Ptr
  qsort : List ℤ → List ℕ

inductive Reply (S : Type) where
  | integer (n : ℕ)
  | double (score : S)
  | nan

variable {S M : Type} [LinearOrder S] [LinearOrder M] [Zero S]

/-! ## Ziplists -/

section Ziplist
omit [LinearOrder S] [Zero S]

def zzlFind (pairs : List (M × S)) (ele : M) : Option S := pairs.lookup ele

def zzlDelete (pairs : List (M × S)) (ele : M) : List (M × S) :=
  pairs.eraseP fun pair => pair.1 = ele

def zzlRank (ele : M) : ℕ → List (M × S) → Option ℕ
  | _, [] => none
  | rank, pair :: pairs => if pair.1 = ele then some rank else zzlRank ele (rank + 1) pairs

omit [LinearOrder M] in
/-- `rangelen` elements from the one at `eptr` on, with `zzlPrev` or `zzlNext`. -/
def zzlRange (pairs : List (M × S)) (reverse : Bool) : ℕ → Option ℕ → Option (List M)
  | 0, _ => some []
  | rangelen + 1, eptr => do
      let index ← eptr
      let pair ← pairs[index]?
      let next := if reverse then (if index = 0 then none else some (index - 1))
        else (if index + 1 < pairs.length then some (index + 1) else none)
      let rest ← zzlRange pairs reverse rangelen next
      some (pair.1 :: rest)

end Ziplist

omit [Zero S] in
def zzlInsert (ele : M) (score : S) : List (M × S) → List (M × S)
  | [] => [(ele, score)]
  | pair :: pairs =>
      if pair.2 > score then (ele, score) :: pair :: pairs
      else if pair.2 = score ∧ pair.1 > ele then (ele, score) :: pair :: pairs
      else pair :: zzlInsert ele score pairs

/-! ## Conversions -/

omit [Zero S] in
/-- `zslInsert` and `dictAdd`, which must not find the element. -/
def addNode (zs : Zset S M) (ele : M) (score : S) (level : ℕ) (x : Ptr) : Option (Zset S M) := do
  let zsl ← zslInsert zs.zsl score ele level x
  if zs.dict ele = none then some ⟨Function.update zs.dict ele (some x), zsl⟩ else none

def createZset (supply : Supply) : Zset S M := ⟨fun _ => none, zslCreate supply.header⟩

def addNodes (supply : Supply) (pairs : List (M × S)) : Option (Zset S M) :=
  pairs.zipIdx.foldlM (fun zs pair =>
    addNode zs pair.1.1 pair.1.2 (supply.level pair.2) (supply.node pair.2)) (createZset supply)

omit [LinearOrder S] [LinearOrder M] [Zero S] in
/-- The pairs of the nodes from `x` on, by the links of the lowest level. -/
def pairsFrom (heap : Heap S M) : ℕ → Option Ptr → Option (List (M × S))
  | _, none => some []
  | 0, some _ => none
  | fuel + 1, some x => do
      let ele ← (← heap.obj x)
      let score ← heap.score x
      let here ← heap.level x 0
      let rest ← pairsFrom heap fuel here.forward
      some ((ele, score) :: rest)

omit [LinearOrder S] [LinearOrder M] [Zero S] in
def skiplistPairs (zs : Zset S M) : Option (List (M × S)) := do
  let first ← zs.zsl.heap.level zs.zsl.header 0
  pairsFrom zs.zsl.heap zs.zsl.length first.forward

/-! ## Changes -/

omit [LinearOrder S] [LinearOrder M] [Zero S] in
def newScore (server : Server S M) (incr : Bool) (score curscore : S) : Option S :=
  if incr then server.sum score curscore else some score

omit [LinearOrder S] [Zero S] in
def addReply (incr : Bool) (added : ℕ) (score : S) : Reply S :=
  if incr then .double score else .integer added

def zaddZiplist (server : Server S M) (incr : Bool) (score : S) (ele : M) (supply : Supply)
    (pairs : List (M × S)) : Option (Object S M × Reply S) :=
  match zzlFind pairs ele with
  | some curscore =>
      match newScore server incr score curscore with
      | none => some (.ziplist pairs, .nan)
      | some score =>
          if score ≠ curscore then
            some (.ziplist (zzlInsert ele score (zzlDelete pairs ele)), addReply incr 0 score)
          else some (.ziplist pairs, addReply incr 0 score)
  | none =>
      let pairs := zzlInsert ele score pairs
      if pairs.length > server.maxZiplistEntries ∨ server.sdslen ele > server.maxZiplistValue then do
        some (.skiplist (← addNodes supply pairs), addReply incr 1 score)
      else some (.ziplist pairs, addReply incr 1 score)

omit [Zero S] in
def zaddSkiplist (server : Server S M) (incr : Bool) (score : S) (ele : M) (supply : Supply)
    (zs : Zset S M) : Option (Object S M × Reply S) :=
  match zs.dict ele with
  | some ptr => do
      let curscore ← zs.zsl.heap.score ptr
      match newScore server incr score curscore with
      | none => some (.skiplist zs, .nan)
      | some score =>
          if score ≠ curscore then do
            let deleted ← zslDelete zs.zsl curscore ele
            if deleted.1 then do
              let zsl ← zslInsert deleted.2 score ele (supply.level 0) (supply.node 0)
              some (.skiplist ⟨Function.update zs.dict ele (some (supply.node 0)), zsl⟩,
                addReply incr 0 score)
            else none
          else some (.skiplist zs, addReply incr 0 score)
  | none => do
      let zs ← addNode zs ele score (supply.level 0) (supply.node 0)
      some (.skiplist zs, addReply incr 1 score)

/-- `zaddGenericCommand` for one element; no object is an absent key. -/
def zaddGeneric (server : Server S M) (incr : Bool) (score : S) (ele : M) (supply : Supply)
    (key : Option (Object S M)) : Option (Object S M × Reply S) :=
  match key with
  | some (.ziplist pairs) => zaddZiplist server incr score ele supply pairs
  | some (.skiplist zs) => zaddSkiplist server incr score ele supply zs
  | none =>
      if server.maxZiplistEntries = 0 ∨ server.maxZiplistValue < server.sdslen ele then
        zaddSkiplist server incr score ele supply (createZset supply)
      else zaddZiplist server incr score ele supply []

omit [LinearOrder S] [LinearOrder M] [Zero S] in
/-- The length goes through an `int`, to be read with or without its sign. -/
def zsetLength : Object S M → BitVec 32
  | .ziplist pairs => BitVec.ofNat 32 pairs.length
  | .skiplist zs => BitVec.ofNat 32 zs.zsl.length

omit [Zero S] in
/-- `zremCommand` for one element.  The key of an empty set is deleted. -/
def zrem (ele : M) : Option (Object S M) → Option (Option (Object S M) × ℕ)
  | none => some (none, 0)
  | some (.ziplist pairs) =>
      match zzlFind pairs ele with
      | none => some (some (.ziplist pairs), 0)
      | some _ =>
          let pairs := zzlDelete pairs ele
          some (if pairs.length = 0 then none else some (.ziplist pairs), 1)
  | some (.skiplist zs) =>
      match zs.dict ele with
      | none => some (some (.skiplist zs), 0)
      | some ptr => do
          let score ← zs.zsl.heap.score ptr
          let deleted ← zslDelete zs.zsl score ele
          if deleted.1 then
            some (if deleted.2.length = 0 then none
              else some (.skiplist ⟨Function.update zs.dict ele none, deleted.2⟩), 1)
          else none

/-- The end of `zunionInterGenericCommand`: the elements of the result become nodes one
after the other, and the set a ziplist if it is within the limits. -/
def zstore (server : Server S M) (supply : Supply) (pairs : List (M × S)) :
    Option (Option (Object S M) × ℕ) := do
  let zs ← addNodes supply pairs
  let maxelelen := (pairs.map fun pair => server.rawlen pair.1).foldl max 0
  if zs.zsl.length = 0 then some (none, 0)
  else
    let dstobj ←
      if zs.zsl.length ≤ server.maxZiplistEntries ∧ maxelelen ≤ server.maxZiplistValue then
        (skiplistPairs zs).map .ziplist
      else some (.skiplist zs)
    some (some dstobj, (zsetLength dstobj).toNat)

/-! ## Reads -/

section Reads
omit [LinearOrder S] [Zero S]

omit [LinearOrder M] in
def zslRange (heap : Heap S M) (reverse : Bool) : ℕ → Option Ptr → Option (List M)
  | 0, _ => some []
  | rangelen + 1, ln => do
      let x ← ln
      let ele ← (← heap.obj x)
      let next ← if reverse then heap.backward x else (heap.level x 0).map Level.forward
      let rest ← zslRange heap reverse rangelen next
      some (ele :: rest)

omit [LinearOrder M] in
def startNode (zsl : Zskiplist S M) (reverse : Bool) (llen start : ℕ) : Option (Option Ptr) :=
  if reverse then
    if start > 0 then zslGetElementByRank zsl (llen - start) else some zsl.tail
  else
    if start > 0 then zslGetElementByRank zsl (start + 1)
    else (zsl.heap.level zsl.header 0).map Level.forward

omit [LinearOrder M] in
def rangeOf (reverse : Bool) (llen start rangelen : ℕ) : Object S M → Option (List M)
  | .ziplist pairs =>
      let eptr := if reverse then pairs.length - 1 - start else start
      zzlRange pairs reverse rangelen (if eptr < pairs.length then some eptr else none)
  | .skiplist zs => do zslRange zs.zsl.heap reverse rangelen (← startNode zs.zsl reverse llen start)

omit [LinearOrder M] in
/-- `zrangeGenericCommand`, whose `llen` and `rangelen` are of type `int`. -/
def zrangeGeneric (reverse : Bool) (start stop : ℤ) : Option (Object S M) → Option (List M)
  | none => some []
  | some zobj =>
      let llen := (zsetLength zobj).toInt
      let start := if start < 0 then llen + start else start
      let stop := if stop < 0 then llen + stop else stop
      let start := if start < 0 then 0 else start
      if start > stop ∨ start ≥ llen then some []
      else
        let stop := if stop ≥ llen then llen - 1 else stop
        rangeOf reverse llen.toNat start.toNat (BitVec.ofInt 32 (stop - start + 1)).toNat zobj

end Reads

omit [Zero S] in
/-- `zrankGenericCommand`; the inner `none` is the null reply. -/
def zrankGeneric (reverse : Bool) (ele : M) : Option (Object S M) → Option (Option ℤ)
  | none => some none
  | some (.ziplist pairs) =>
      let llen := (zsetLength (.ziplist pairs : Object S M)).toNat
      if pairs = [] then none
      else some ((zzlRank ele 1 pairs).map fun rank => if reverse then (llen : ℤ) - rank else rank - 1)
  | some (.skiplist zs) =>
      let llen := (zsetLength (.skiplist zs)).toNat
      match zs.dict ele with
      | none => some none
      | some ptr => do
          let score ← zs.zsl.heap.score ptr
          let rank ← zslGetRank zs.zsl score ele
          if rank = 0 then none
          else some (some (if reverse then (llen : ℤ) - rank else rank - 1))

end Phonograph.Redis
