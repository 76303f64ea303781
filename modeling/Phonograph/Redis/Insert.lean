import Phonograph.Redis.Search

/-! # Insertion into a skip list

`zslInsert` first opens the levels that are new, then splices the node in where the
search has landed on each of its levels, and widens the links that pass above it. -/

set_option autoImplicit false

namespace Phonograph.Redis

open Phonograph.Lib Phonograph.Lib.Towers

/-! ## One level -/

theorem openLevel_column {levels : Levels} {header : Ptr} {length i : ℕ} {old : Level}
    (stored : levels header i = some old) :
    openLevel header length levels i = some fun y j => if j = i then
      (if y = header then some { old with span := (length : BitVec 32) } else levels y i)
      else levels y j := by
  simp only [openLevel, stored, Option.bind_eq_bind, Option.bind_some]
  exact set_column stored

theorem splice_column {levels : Levels} {found : List (BitVec 32 × Ptr)} {x u : Ptr} {i : ℕ}
    {first : BitVec 32 × Ptr} {rank : BitVec 32} {old own : Level}
    (zero : found[0]? = some first) (here : found[i]? = some (rank, u))
    (stored : levels u i = some old) (room : levels x i = some own) (apart : u ≠ x) :
    splice found x levels i = some fun y j => if j = i then
      (if y = u then some ⟨some x, first.1 - rank + 1⟩
        else if y = x then some ⟨old.forward, old.span - (first.1 - rank)⟩ else levels y i)
      else levels y j := by
  simp only [splice, Levels.set, zero, here, stored, room, Option.bind_eq_bind, Option.bind_some,
    Option.map_some, apart, false_and, if_false, Option.some.injEq]
  funext y j
  by_cases level : j = i
  · simp [level]
  · simp [level]

theorem widen_column {levels : Levels} {found : List (BitVec 32 × Ptr)} {u : Ptr} {i : ℕ}
    {rank : BitVec 32} {old : Level} (here : found[i]? = some (rank, u))
    (stored : levels u i = some old) :
    widen found levels i = some fun y j => if j = i then
      (if y = u then some { old with span := old.span + 1 } else levels y i) else levels y j := by
  simp only [widen, here, stored, Option.bind_eq_bind, Option.bind_some]
  exact set_column stored

section
variable {S M : Type}

/-! ## New levels -/

section Open
variable {header : Ptr} {l level : ℕ} {es low : List (Entry S M)} {levels : Levels}

theorem openLevels (linked : Linked encode levels (towers header l es))
    (nodup : (header :: es.map Entry.ptr).Nodup) (heights : ∀ e ∈ es, e.height ≤ l)
    (spare : ∀ i, l ≤ i → i < maxLevel → ∃ span, levels header i = some ⟨none, span⟩)
    (bound : level ≤ maxLevel) :
    ∃ levels', (List.range' l (level - l)).foldlM (openLevel header es.length) levels = some levels' ∧
      Linked encode levels' (towers header (max l level) es) ∧
      ∀ i, max l level ≤ i → levels' header i = levels header i := by
  refine ⟨_, foldlM_columns (fun i y => if y = header then some ⟨none, es.length⟩ else levels y i)
    l (level - l) ?_, ?_, ?_⟩
  · intro i ge lt levels' same
    obtain ⟨span, stored⟩ := spare i ge (by omega)
    rw [openLevel_column ((same header).trans stored)]
    simp only [same]
  · intro before t rest split i reach
    cases before with
    | nil =>
        rw [towers, List.nil_append, List.cons.injEq] at split
        obtain ⟨rfl, rfl⟩ := split
        dsimp only at reach ⊢
        by_cases old : i < l
        · rw [if_neg (by omega)]
          exact linked [] ⟨header, l⟩ _ rfl i old
        · have below : ∀ t ∈ es.map Entry.tower, t.height ≤ i := by
            intro t inside
            obtain ⟨e, listed, rfl⟩ := List.mem_map.mp inside
            exact (heights e listed).trans (not_lt.mp old)
          rw [if_pos (by omega), if_pos rfl, link_low below, List.length_map]
          rfl
    | cons u before =>
        rw [towers, List.cons_append, List.cons.injEq] at split
        have inside : t ∈ es.map Entry.tower := by
          rw [split.2]
          simp
        obtain ⟨e, listed, rfl⟩ := List.mem_map.mp inside
        have apart : e.ptr ≠ header := fun same =>
          (List.nodup_cons.mp nodup).1 (same ▸ List.mem_map_of_mem listed)
        have kept := linked (⟨header, l⟩ :: before) e.tower rest
          (by rw [towers, split.2, List.cons_append]) i reach
        change (if _ then (if e.ptr = header then _ else levels e.ptr i) else levels e.ptr i) = _
        rw [if_neg apart, ite_self]
        exact kept
  · intro i ge
    rw [if_neg (by omega)]

theorem found_open (level : ℕ) {found : List (BitVec 32 × Ptr)} (heights : ∀ e ∈ low, e.height ≤ l)
    (kept : Found (fun n => (n : BitVec 32)) (towers header l low) l found) :
    Found (fun n => (n : BitVec 32)) (towers header (max l level) low) (max l level)
      (found ++ List.replicate (level - l) (0, header)) where
  length := by
    rw [List.length_append, List.length_replicate, kept.length]
    omega
  lands := by
    intro i before t mid lt lands
    by_cases old : i < l
    · obtain ⟨before', t', same, ptr, first⟩ := lands.first old
      rw [List.getElem?_append_left (by rw [kept.length]; exact old),
        kept.lands i before' t' mid old first, same, ptr]
    · have below : ∀ t ∈ low.map Entry.tower, t.height ≤ i := by
        intro t inside
        obtain ⟨e, listed, rfl⟩ := List.mem_map.mp inside
        exact (heights e listed).trans (not_lt.mp old)
      have front : Lands i (towers header (max l level) low) [] ⟨header, max l level⟩
          (low.map Entry.tower) := ⟨rfl, lt, below⟩
      obtain ⟨rfl, rfl, rfl⟩ := front.unique lands
      rw [List.getElem?_append_right (by rw [kept.length]; omega), kept.length,
        List.getElem?_replicate, if_pos (by omega)]
      simp

end Open

theorem lands_zero {header : Ptr} {level : ℕ} {low : List (Entry S M)} (pos : 0 < level)
    (heights : ∀ e ∈ low, 0 < e.height) {before mid : List (Tower Ptr)} {t : Tower Ptr}
    (lands : Lands 0 (towers header level low) before t mid) :
    before.length = low.length ∧ t.ptr = (lastPtr low).getD header := by
  rcases List.eq_nil_or_concat low with rfl | ⟨low, e, rfl⟩
  · have front : Lands 0 (towers header level ([] : List (Entry S M))) [] ⟨header, level⟩ [] :=
      ⟨rfl, pos, fun s inside => absurd inside List.not_mem_nil⟩
    obtain ⟨rfl, rfl, rfl⟩ := front.unique lands
    exact ⟨rfl, rfl⟩
  · have last : Lands 0 (towers header level (low ++ [e])) (towers header level low) e.tower [] :=
      ⟨towers_append header level low [e], heights e (by simp),
        fun s inside => absurd inside List.not_mem_nil⟩
    rw [List.concat_eq_append] at lands
    obtain ⟨rfl, rfl, rfl⟩ := last.unique lands
    simp [towers, lastPtr, Entry.tower]

/-! ## The new node -/

section Splice
variable {header x : Ptr} {l top level : ℕ} {low high : List (Entry S M)} {levels : Levels}
  {found : List (BitVec 32 × Ptr)}

/-- The rank of the place less that of a node on the way are the places crossed. -/
theorem crossed {before mid : List (Tower Ptr)} {t : Tower Ptr} {i : ℕ}
    (lands : Lands i (towers header top low) before t mid) :
    (low.length : BitVec 32) - (before.length : BitVec 32) = (mid.length : BitVec 32) := by
  have length := congrArg List.length lands.split
  rw [towers, List.length_cons, List.length_map, List.length_append, List.length_cons] at length
  have sum : low.length = before.length + mid.length := by omega
  rw [sum, Nat.cast_add]
  ring

variable {before mid : ℕ → List (Tower Ptr)} {t : ℕ → Tower Ptr} {ahead : List (Tower Ptr)}

/-- A level once the node at `x` stands before `ahead`: the search has landed at `t i`. -/
def spliced (x : Ptr) (level : ℕ) (t : ℕ → Tower Ptr) (mid : ℕ → List (Tower Ptr))
    (ahead : List (Tower Ptr)) (levels : Levels) (i : ℕ) (y : Ptr) : Option Level :=
  if y = (t i).ptr then some (encode (link i (mid i ++ ⟨x, level⟩ :: ahead)))
  else if y = x ∧ i < level then some (encode (link i ahead)) else levels y i

theorem splice_eq {i : ℕ} (lt : i < level)
    (lands : Lands i (towers header top low) (before i) (t i) (mid i))
    (zero : found[0]? = some ((low.length : BitVec 32), (t 0).ptr))
    (here : found[i]? = some (((before i).length : BitVec 32), (t i).ptr)) (apart : (t i).ptr ≠ x)
    (stored : levels (t i).ptr i = some (encode (link i (mid i ++ ahead))))
    {own : Level} (room : levels x i = some own) :
    splice found x levels i =
      some fun y j => if j = i then spliced x level t mid ahead levels i y else levels y j := by
  rw [splice_column zero here stored room apart, crossed lands]
  unfold spliced
  rw [link_append lands.below, link_first (t := ⟨x, level⟩) lands.below lt]
  simp only [encode, lt, and_true, Nat.cast_add, Nat.cast_one, add_sub_cancel_left]

theorem widen_eq (x : Ptr) {i : ℕ} (ge : level ≤ i)
    (lands : Lands i (towers header top low) (before i) (t i) (mid i))
    (here : found[i]? = some (((before i).length : BitVec 32), (t i).ptr))
    (stored : levels (t i).ptr i = some (encode (link i (mid i ++ ahead)))) :
    widen found levels i =
      some fun y j => if j = i then spliced x level t mid ahead levels i y else levels y j := by
  have short : ∀ s ∈ [(⟨x, level⟩ : Tower Ptr)], s.height ≤ i := by simpa using ge
  have one : link i (⟨x, level⟩ :: ahead) = ⟨(link i ahead).forward, 1 + (link i ahead).span⟩ :=
    link_append short ahead
  rw [widen_column here stored]
  unfold spliced
  rw [link_append lands.below, link_append lands.below, one]
  simp only [encode, not_lt.mpr ge, and_false, if_false, Nat.cast_add, Nat.cast_one]
  congr 1
  funext y j
  congr 4
  ring

def created (x : Ptr) (level : ℕ) (levels : Levels) : Levels :=
  fun y i => if y = x then (if i < level then some ⟨none, 0⟩ else none) else levels y i

theorem spliceLevels (le : level ≤ top) (pos : 0 < level) (heights : ∀ e ∈ low, 0 < e.height)
    (lands : ∀ i < top, Lands i (towers header top low) (before i) (t i) (mid i))
    (kept : Found (fun n => (n : BitVec 32)) (towers header top low) top found)
    (apart : ∀ i < top, (t i).ptr ≠ x)
    (stored : ∀ i < top, levels (t i).ptr i = some (encode (link i (mid i ++ ahead)))) :
    ∃ levels₁, (List.range' 0 level).foldlM (splice found x) (created x level levels) = some levels₁ ∧
      (List.range' level (top - level)).foldlM (widen found) levels₁ = some fun y i =>
        if i < top then spliced x level t mid ahead (created x level levels) i y
        else created x level levels y i := by
  have here : ∀ i < top, found[i]? = some (((before i).length : BitVec 32), (t i).ptr) := fun i lt =>
    kept.lands i _ _ _ lt (lands i lt)
  have first : 0 < top := pos.trans_le le
  have zero : found[0]? = some ((low.length : BitVec 32), (t 0).ptr) := by
    rw [here 0 first, (lands_zero first heights (lands 0 first)).1]
  have old : ∀ i < top, created x level levels (t i).ptr i = some (encode (link i (mid i ++ ahead))) := by
    intro i lt
    rw [created, if_neg (apart i lt), stored i lt]
  refine ⟨_, foldlM_columns (spliced x level t mid ahead (created x level levels)) 0 level ?_, ?_⟩
  · intro i _ lt levels' same
    rw [Nat.zero_add] at lt
    have far := lt.trans_le le
    have room : levels' x i = some ⟨none, 0⟩ := by
      rw [same, created, if_pos rfl, if_pos lt]
    rw [splice_eq lt (lands i far) zero (here i far) (apart i far) ((same _).trans (old i far)) room]
    simp only [spliced, same]
  rw [foldlM_columns (spliced x level t mid ahead (created x level levels)) level (top - level)]
  · simp only [Option.some.injEq]
    funext y i
    by_cases upper : level ≤ i ∧ i < level + (top - level)
    · rw [if_pos upper, if_pos (by omega)]
    · rw [if_neg upper]
      by_cases under : 0 ≤ i ∧ i < 0 + level
      · rw [if_pos under, if_pos (by omega)]
      · rw [if_neg under, if_neg (by omega)]
  · intro i ge lt levels' same
    have far : i < top := by omega
    have unchanged : ∀ y, levels' y i = created x level levels y i := by
      intro y
      rw [same, if_neg (by omega)]
    rw [widen_eq x ge (lands i far) (here i far) ((unchanged _).trans (old i far))]
    simp only [spliced, unchanged]

theorem linked_spliced (linked : Linked encode levels (towers header top low ++ ahead))
    (nodup : ((towers header top low ++ ahead).map Tower.ptr).Nodup)
    (fresh : x ∉ (towers header top low ++ ahead).map Tower.ptr) (le : level ≤ top)
    (bound : ∀ e ∈ low, e.height ≤ top)
    (lands : ∀ i < top, Lands i (towers header top low) (before i) (t i) (mid i)) :
    Linked encode (fun y i => if i < top then spliced x level t mid ahead (created x level levels) i y
      else created x level levels y i) (towers header top low ++ ⟨x, level⟩ :: ahead) := by
  have apart : ∀ i < top, x ≠ (t i).ptr := by
    intro i lt same
    apply fresh
    rw [same, (lands i lt).split]
    simp
  apply linked_insert (t := ⟨x, level⟩) linked nodup fresh
  · intro i lt
    dsimp only at lt ⊢
    rw [if_pos (lt.trans_le le), spliced, if_neg (apart i (lt.trans_le le)), if_pos ⟨rfl, lt⟩]
  · intro i before' s mid' other
    have inside : s ∈ towers header top low := by
      rw [other.split]
      simp
    have lt : i < top := by
      apply other.reach.trans_le
      rcases List.mem_cons.mp inside with rfl | inside
      · exact le_rfl
      · obtain ⟨e, listed, rfl⟩ := List.mem_map.mp inside
        exact bound e listed
    obtain ⟨-, rfl, rfl⟩ := (lands i lt).unique other
    rw [if_pos lt, spliced, if_pos rfl]
  · intro y i other away
    have same : created x level levels y i = levels y i := if_neg other
    split_ifs with lt
    · have far : y ≠ (t i).ptr := fun same => away _ _ _ (lands i lt) same.symm
      rw [spliced, if_neg far, if_neg fun own => other own.1, same]
    · exact same

/-- The loops over the levels of the new node and over those above it. -/
theorem insertLevels (linked : Linked encode levels (towers header top (low ++ high)))
    (nodup : (header :: (low ++ high).map Entry.ptr).Nodup)
    (fresh : x ∉ header :: (low ++ high).map Entry.ptr) (pos : 0 < level) (le : level ≤ top)
    (heights : ∀ e ∈ low, 0 < e.height ∧ e.height ≤ top)
    (kept : Found (fun n => (n : BitVec 32)) (towers header top low) top found) :
    ∃ levels₁ levels₂,
      (List.range' 0 level).foldlM (splice found x) (created x level levels) = some levels₁ ∧
      (List.range' level (top - level)).foldlM (widen found) levels₁ = some levels₂ ∧
      Linked encode levels₂ (towers header top low ++ ⟨x, level⟩ :: high.map Entry.tower) ∧
      ∀ i, top ≤ i → levels₂ header i = levels header i := by
  have reach : ∀ i, ∃ before t mid, i < top → Lands i (towers header top low) before t mid := by
    intro i
    by_cases lt : i < top
    · have header : ∃ t ∈ towers header top low, i < t.height :=
        ⟨⟨header, top⟩, List.mem_cons_self, lt⟩
      obtain ⟨before, t, mid, lands⟩ := exists_lands header
      exact ⟨before, t, mid, fun _ => lands⟩
    · exact ⟨[], ⟨header, top⟩, [], fun yes => absurd yes lt⟩
  choose before t mid lands using reach
  rw [← map_ptr_towers header top, towers_append] at nodup fresh
  rw [towers_append] at linked
  have apart : ∀ i < top, (t i).ptr ≠ x := by
    intro i lt same
    apply fresh
    rw [← same, (lands i lt).split]
    simp
  have stored : ∀ i < top, levels (t i).ptr i =
      some (encode (link i (mid i ++ high.map Entry.tower))) := by
    intro i lt
    apply linked (before i) (t i) (mid i ++ high.map Entry.tower) _ i (lands i lt).reach
    rw [(lands i lt).split, List.append_assoc, List.cons_append]
  obtain ⟨levels₁, lower, upper⟩ := spliceLevels le pos (fun e inside => (heights e inside).1) lands
    kept apart stored
  refine ⟨levels₁, _, lower, upper, ?_, ?_⟩
  · exact linked_spliced linked nodup fresh le (fun e inside => (heights e inside).2) lands
  · intro i ge
    have other : header ≠ x := by
      rintro rfl
      exact fresh (by simp [towers])
    rw [if_neg (not_lt.mpr ge), created, if_neg other]

end Splice

/-! ## Back pointers -/

theorem link_zero {e : Entry S M} (pos : 0 < e.height) (rest : List (Tower Ptr)) :
    link 0 (e.tower :: rest) = ⟨some e.ptr, 1⟩ := link_reach pos rest

structure Connected (x : Ptr) (low high : List (Entry S M)) (old new : Ptr → Option (Option Ptr)) :
    Prop where
  own : new x = some (lastPtr low)
  next : ∀ e rest, high = e :: rest → new e.ptr = some (some x)
  others : ∀ y, y ≠ x → (∀ e rest, high = e :: rest → y ≠ e.ptr) → new y = old y

theorem connect_spec {zsl : Zskiplist S M} {x : Ptr} {low high : List (Entry S M)}
    (node : zsl.heap.level x 0 = some (encode (link 0 (high.map Entry.tower))))
    (heights : ∀ e ∈ high, 0 < e.height) (room : (zsl.heap.backward x).isSome)
    (rooms : ∀ e ∈ high, (zsl.heap.backward e.ptr).isSome)
    (header : ∀ e ∈ low, e.ptr ≠ zsl.header) (fresh : ∀ e ∈ high, e.ptr ≠ x) :
    ∃ backward, connect zsl x ((lastPtr low).getD zsl.header) =
        some { zsl with
          heap := { zsl.heap with backward := backward }
          tail := if high = [] then some x else zsl.tail
          length := zsl.length + 1 } ∧
      Connected x low high zsl.heap.backward backward := by
  have last : (if (lastPtr low).getD zsl.header = zsl.header then none
      else some ((lastPtr low).getD zsl.header)) = lastPtr low := by
    rcases List.eq_nil_or_concat low with rfl | ⟨low, e, rfl⟩
    · exact if_pos rfl
    · have apart : e.ptr ≠ zsl.header := header e (by simp)
      simp [lastPtr, apart]
  obtain ⟨stored, own⟩ := Option.isSome_iff_exists.mp room
  unfold connect
  simp only [Heap.setBackward, own, Option.map_some, Option.bind_eq_bind, Option.bind_some, node,
    last]
  cases high with
  | nil =>
      refine ⟨Function.update zsl.heap.backward x (some (lastPtr low)), ?_, ?_, ?_, ?_⟩
      · simp [encode, link]
      · simp
      · intro e rest none
        cases none
      · intro y other _
        exact Function.update_of_ne other _ _
  | cons e rest =>
      have apart : e.ptr ≠ x := fresh e List.mem_cons_self
      obtain ⟨found, back⟩ := Option.isSome_iff_exists.mp (rooms e List.mem_cons_self)
      rw [List.map_cons, link_zero (heights e List.mem_cons_self)]
      refine ⟨Function.update (Function.update zsl.heap.backward x (some (lastPtr low))) e.ptr
        (some (some x)), ?_, ?_, ?_, ?_⟩
      · simp [encode, Function.update_of_ne apart, back]
      · rw [Function.update_of_ne apart.symm, Function.update_self]
      · intro e' rest' same
        obtain ⟨rfl, rfl⟩ := List.cons.inj same
        exact Function.update_self _ _ _
      · intro y other away
        rw [Function.update_of_ne (away e rest rfl), Function.update_of_ne other]

theorem Connected.backward {low high : List (Entry S M)} {new : Entry S M}
    {old back : Ptr → Option (Option Ptr)} (connected : Connected new.ptr low high old back)
    (nodup : ((low ++ high).map Entry.ptr).Nodup) (fresh : new.ptr ∉ (low ++ high).map Entry.ptr)
    (stored : ∀ before e rest, low ++ high = before ++ e :: rest → old e.ptr = some (lastPtr before)) :
    ∀ before e rest, low ++ new :: high = before ++ e :: rest →
      back e.ptr = some (lastPtr before) := by
  intro before e rest split
  have apart : e ∈ low ++ high → e.ptr ≠ new.ptr := fun inside same =>
    fresh (same ▸ List.mem_map_of_mem inside)
  rcases append_cons_cases split with ⟨mid, rfl, rfl⟩ | ⟨rfl, rfl, rfl⟩ | ⟨mid, rfl, rfl⟩
  · have kept := stored before e (mid ++ high) (by simp)
    rw [← kept]
    apply connected.others e.ptr (apart (by simp))
    rintro e' rest' rfl same
    simp only [List.map_append, List.map_cons, List.append_assoc, List.cons_append] at nodup
    have later := (List.nodup_cons.mp nodup.of_append_right).1
    exact later (by simp [same])
  · exact connected.own
  · cases mid with
    | nil =>
        rw [connected.next e rest rfl]
        simp [lastPtr]
    | cons first mid =>
        have kept := stored (low ++ first :: mid) e rest (by simp)
        have same : lastPtr (low ++ new :: first :: mid) = lastPtr (low ++ first :: mid) := by
          simp [lastPtr]
        rw [same, ← kept]
        apply connected.others e.ptr (apart (by simp))
        intro e' rest' split same
        obtain ⟨rfl, -⟩ := List.cons.inj split
        simp only [List.map_append, List.map_cons, List.cons_append] at nodup
        have later := (List.nodup_cons.mp nodup.of_append_right).1
        exact later (by simp [same])

end

/-! ## The insertion -/

section Insert
variable {S M : Type} [LinearOrder S] [LinearOrder M] {zsl : Zskiplist S M} {low high : List (Entry S M)}

/-- The search of `zslInsert` ends before the first entry that does not come before. -/
theorem seeks_lt {R : Type} {cross : R → BitVec 32 → R} {rankOf : ℕ → R}
    (rep : Represents zsl (low ++ high)) {score : S} {obj : M}
    (crossing : ∀ a b, a + b ≤ (low ++ high).length → cross (rankOf a) (b : BitVec 32) = rankOf (a + b))
    (before : ∀ e ∈ low, e.key < toLex (score, obj))
    (behind : ∀ e ∈ high, ¬ e.key < toLex (score, obj)) :
    Seeks cross (fun _ _ y => comesBefore (fun a b => decide (a < b)) zsl.heap score obj y) rankOf
      (towers zsl.header zsl.level low) (high.map Entry.tower) := by
  apply seeks_entries crossing
  · intro e inside
    rw [comesBefore_lt rep score obj (List.mem_append_left _ inside),
      decide_eq_true (before e inside)]
  · intro e inside
    rw [comesBefore_lt rep score obj (List.mem_append_right _ inside),
      decide_eq_false (behind e inside)]

theorem Represents.fresh {es : List (Entry S M)} (rep : Represents zsl es) {x : Ptr}
    (unused : zsl.heap.obj x = none) : x ∉ zsl.header :: es.map Entry.ptr := by
  intro inside
  rcases List.mem_cons.mp inside with rfl | inside
  · rw [rep.headerObj] at unused
    cases unused
  · obtain ⟨e, listed, rfl⟩ := List.mem_map.mp inside
    rw [rep.objs e listed] at unused
    cases unused

omit [LinearOrder S] [LinearOrder M] in
/-- The list after an insertion before `high`, with the links and back pointers it gets. -/
def inserted (zsl : Zskiplist S M) (new : Entry S M) (high : List (Entry S M)) (levels : Levels)
    (backward : Ptr → Option (Option Ptr)) : Zskiplist S M where
  heap := ⟨Function.update zsl.heap.obj new.ptr (some (some new.obj)),
    Function.update zsl.heap.score new.ptr (some new.score), backward, levels⟩
  header := zsl.header
  tail := if high = [] then some new.ptr else zsl.tail
  length := zsl.length + 1
  level := max zsl.level new.height

theorem zslInsert_eq (rep : Represents zsl (low ++ high)) (new : Entry S M)
    (before : ∀ e ∈ low, e.key < new.key) (behind : ∀ e ∈ high, new.key < e.key)
    (pos : 0 < new.height) (bound : new.height ≤ maxLevel) (unused : zsl.heap.obj new.ptr = none) :
    ∃ levels backward,
      zslInsert zsl new.score new.obj new.height new.ptr =
        some (inserted zsl new high levels backward) ∧
      Linked encode levels (towers zsl.header (max zsl.level new.height) (low ++ new :: high)) ∧
      (∀ i, max zsl.level new.height ≤ i → levels zsl.header i = zsl.heap.level zsl.header i) ∧
      Connected new.ptr low high zsl.heap.backward backward := by
  have fresh := rep.fresh unused
  have levelHeights : ∀ e ∈ low ++ high, e.height ≤ zsl.level := fun e inside => (rep.heights e inside).2
  have lowHeights : ∀ e ∈ low, 0 < e.height ∧ e.height ≤ zsl.level := fun e inside =>
    rep.heights e (List.mem_append_left _ inside)
  have first : 0 < max zsl.level new.height := pos.trans_le (le_max_right _ _)
  -- the search, and the levels that are new
  obtain ⟨found, searched, kept⟩ := search_found rep
    (seeks_lt rep (fun a b _ => (Nat.cast_add a b).symm) before fun e inside => (behind e inside).not_gt)
  obtain ⟨levels, opened, linked, spare⟩ :=
    openLevels rep.linked rep.nodup levelHeights rep.spare bound
  have entered := found_open new.height (fun e inside => (lowHeights e inside).2) kept
  obtain ⟨levels₁, levels₂, lower, upper, linked₂, spare₂⟩ :=
    insertLevels linked rep.nodup fresh pos
    (le_max_right _ _) (fun e inside => ⟨(lowHeights e inside).1,
      (lowHeights e inside).2.trans (le_max_left _ _)⟩) entered
  -- the back pointers
  have apart : ∀ e ∈ low ++ high, e.ptr ≠ new.ptr := fun e inside same =>
    fresh (List.mem_cons_of_mem _ (same ▸ List.mem_map_of_mem inside))
  have rooms : ∀ e ∈ high, (zsl.heap.backward e.ptr).isSome := by
    intro e inside
    obtain ⟨mid, rest, split⟩ := List.append_of_mem (List.mem_append_right low inside)
    rw [rep.backward mid e rest split]
    rfl
  have header : ∀ e ∈ low, e.ptr ≠ zsl.header := fun e inside same =>
    (List.nodup_cons.mp rep.nodup).1 (same ▸ List.mem_map_of_mem (List.mem_append_left _ inside))
  obtain ⟨before₀, t₀, mid₀, lands₀⟩ : ∃ before t mid,
      Lands 0 (towers zsl.header (max zsl.level new.height) low) before t mid :=
    exists_lands ⟨⟨zsl.header, max zsl.level new.height⟩, List.mem_cons_self, first⟩
  have zero := entered.lands 0 before₀ t₀ mid₀ first lands₀
  rw [(lands_zero first (fun e inside => (lowHeights e inside).1) lands₀).2] at zero
  set heap := zslCreateNode { zsl.heap with level := levels } new.ptr new.height new.score (some new.obj)
  have old : ∀ y, y ≠ new.ptr → heap.backward y = zsl.heap.backward y := fun y other =>
    Function.update_of_ne other _ _
  have connects := @connect_spec S M
    { zsl with heap := { heap with level := levels₂ }, level := max zsl.level new.height }
    new.ptr low high (linked₂ _ ⟨new.ptr, new.height⟩ _ rfl 0 pos)
    (fun e inside => (rep.heights e (List.mem_append_right _ inside)).1) (by simp [heap, zslCreateNode])
    (fun e inside => by
      rw [old _ (apart e (List.mem_append_right _ inside))]
      exact rooms e inside)
    header (fun e inside => apart e (List.mem_append_right _ inside))
  obtain ⟨backward, connected, back⟩ := connects
  refine ⟨levels₂, backward, ?_, ?_, ?_, ?_⟩
  · rw [zslInsert]
    simp only [Option.bind_eq_bind]
    rw [Nat.cast_zero] at searched
    rw [← rep.length] at opened
    rw [searched, Option.bind_some, opened, Option.bind_some]
    change ((List.range' 0 new.height).foldlM (splice _ new.ptr)
      (created new.ptr new.height levels)).bind _ = _
    rw [lower, Option.bind_some, upper, Option.bind_some, zero, Option.bind_some]
    exact connected
  · rw [towers_append]
    exact linked₂
  · intro i ge
    rw [spare₂ i ge, spare i ge]
  · refine ⟨back.own, back.next, ?_⟩
    intro y other away
    rw [back.others y other away]
    exact old y other

/-- A new key is put in its place, whatever number of levels its node has. -/
theorem insert_represents (rep : Represents zsl (low ++ high)) (new : Entry S M)
    (before : ∀ e ∈ low, e.key < new.key) (behind : ∀ e ∈ high, new.key < e.key)
    (pos : 0 < new.height) (bound : new.height ≤ maxLevel) (unused : zsl.heap.obj new.ptr = none) :
    ∃ zsl', zslInsert zsl new.score new.obj new.height new.ptr = some zsl' ∧
      Represents zsl' (low ++ new :: high) ∧
      zsl'.heap.obj = Function.update zsl.heap.obj new.ptr (some (some new.obj)) := by
  obtain ⟨levels, backward, ran, linked, spare, back⟩ :=
    zslInsert_eq rep new before behind pos bound unused
  have fresh := rep.fresh unused
  rw [List.mem_cons, not_or] at fresh
  have apart : ∀ e ∈ low ++ high, e.ptr ≠ new.ptr := fun e inside same =>
    fresh.2 (same ▸ List.mem_map_of_mem inside)
  have nodup := List.nodup_cons.mp rep.nodup
  have member : ∀ e, e ∈ low ++ new :: high ↔ e = new ∨ e ∈ low ++ high := by
    intro e
    simp only [List.mem_append, List.mem_cons]
    tauto
  refine ⟨_, ran, ?_, rfl⟩
  constructor
  · change (zsl.header :: (low ++ new :: high).map Entry.ptr).Nodup
    rw [List.map_append, List.map_cons, List.nodup_cons, List.nodup_middle, List.nodup_cons,
      ← List.map_append]
    refine ⟨?_, fresh.2, nodup.2⟩
    intro inside
    obtain ⟨e, listed, same⟩ := List.mem_map.mp
      (show zsl.header ∈ (low ++ new :: high).map Entry.ptr by simpa using inside)
    rcases (member e).mp listed with rfl | listed
    · exact fresh.1 same
    · exact nodup.1 (same ▸ List.mem_map_of_mem listed)
  · intro e inside
    rcases (member e).mp inside with rfl | inside
    · exact Function.update_self _ _ _
    · exact (Function.update_of_ne (apart e inside) _ _).trans (rep.objs e inside)
  · intro e inside
    rcases (member e).mp inside with rfl | inside
    · exact Function.update_self _ _ _
    · exact (Function.update_of_ne (apart e inside) _ _).trans (rep.scores e inside)
  · exact (Function.update_of_ne (Ne.symm fresh.1) _ _).trans rep.headerObj
  · intro y outside
    change y ∉ zsl.header :: (low ++ new :: high).map Entry.ptr at outside
    have other : y ≠ new.ptr := by
      rintro rfl
      simp at outside
    apply (Function.update_of_ne other _ _).trans
    apply rep.rest
    simp only [List.map_append, List.map_cons, List.mem_cons, List.mem_append] at outside ⊢
    tauto
  · exact linked
  · intro i ge lt
    obtain ⟨span, stored⟩ := rep.spare i ((le_max_left _ _).trans ge) lt
    exact ⟨span, (spare i ge).trans stored⟩
  · intro e inside
    rcases (member e).mp inside with rfl | inside
    · exact ⟨pos, le_max_right _ _⟩
    · exact ⟨(rep.heights e inside).1, (rep.heights e inside).2.trans (le_max_left _ _)⟩
  · exact ⟨pos.trans_le (le_max_right _ _), max_le rep.levels.2 bound⟩
  · have sorted := List.pairwise_append.mp rep.sorted
    rw [List.pairwise_append, List.pairwise_cons]
    refine ⟨sorted.1, ⟨behind, sorted.2.1⟩, ?_⟩
    intro e left e' right
    rcases List.mem_cons.mp right with rfl | right
    · exact before e left
    · exact sorted.2.2 e left e' right
  · exact back.backward nodup.2 fresh.2 rep.backward
  · change (if high = [] then some new.ptr else zsl.tail) = _
    rw [rep.tail]
    cases high with
    | nil => simp [lastPtr]
    | cons e rest => simp [lastPtr]
  · change zsl.length + 1 = _
    rw [rep.length]
    simp
    omega

end Insert

end Phonograph.Redis
