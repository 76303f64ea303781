import Phonograph.Redis.Insert

/-! # Deletion from a skip list

The links that lead to a node, or past it, are those at which the search for it lands.
Where a node is the last of its level the `unsigned` difference `span - 1` wraps, and
the sum that it is added to wraps back. -/

set_option autoImplicit false

namespace Phonograph.Redis

open Phonograph.Lib Phonograph.Lib.Towers

section
variable {S M : Type}

/-! ## The links -/

section Unlink
variable {header x : Ptr} {l : ℕ} {low high : List (Entry S M)} {levels : Levels}
  {update : List Ptr} {before mid : ℕ → List (Tower Ptr)} {t : ℕ → Tower Ptr}
  {ahead : List (Tower Ptr)}

def unlinked (t : ℕ → Tower Ptr) (mid : ℕ → List (Tower Ptr)) (ahead : List (Tower Ptr))
    (levels : Levels) (i : ℕ) (y : Ptr) : Option Level :=
  if y = (t i).ptr then some (encode (link i (mid i ++ ahead))) else levels y i

theorem forward_mem {i : ℕ} {ts : List (Tower Ptr)} {y : Ptr}
    (next : (link i ts).forward = some y) :
    y ∈ ts.map Tower.ptr := by
  rcases low_or_first i ts with below | ⟨skipped, t, rest, rfl, below, reach⟩
  · rw [link_low below] at next
    cases next
  · rw [link_first below reach] at next
    obtain rfl := Option.some.inj next
    simp

theorem unlink_eq (height : ℕ) {i : ℕ} (here : update[i]? = some (t i).ptr)
    (below : ∀ s ∈ mid i, s.height ≤ i) (later : x ∉ ahead.map Tower.ptr)
    (stored : levels (t i).ptr i = some (encode (link i (mid i ++ ⟨x, height⟩ :: ahead))))
    (own : i < height → levels x i = some (encode (link i ahead))) :
    unlink update x levels i =
      some fun y j => if j = i then unlinked t mid ahead levels i y else levels y j := by
  unfold unlink unlinked
  simp only [here, stored, Option.bind_eq_bind, Option.bind_some]
  by_cases reach : i < height
  · rw [link_first below (t := ⟨x, height⟩) reach, link_append below, own reach]
    have sum : ((mid i).length + 1 : BitVec 32) + ((link i ahead).span - 1) =
        (mid i).length + (link i ahead).span := by ring
    simp only [encode, if_true, Option.bind_some, Nat.cast_add, Nat.cast_one, sum]
    rw [set_column stored]
  · have short : ∀ s ∈ [(⟨x, height⟩ : Tower Ptr)], s.height ≤ i := by
      simpa using not_lt.mp reach
    have one : link i (⟨x, height⟩ :: ahead) = ⟨(link i ahead).forward, 1 + (link i ahead).span⟩ :=
      link_append short ahead
    have other : (link i ahead).forward ≠ some x := fun next => later (forward_mem next)
    have rest : ((mid i).length + (1 + (link i ahead).span) : BitVec 32) - 1 =
        (mid i).length + (link i ahead).span := by ring
    rw [set_column stored, link_append below, link_append below, one]
    simp only [encode, other, if_false, Nat.cast_add, Nat.cast_one, rest]

theorem unlinkLevels {e : Entry S M}
    (linked : Linked encode levels (towers header l (low ++ e :: high)))
    (nodup : (header :: (low ++ e :: high).map Entry.ptr).Nodup)
    (bound : ∀ e ∈ low, e.height ≤ l) (tall : e.height ≤ l)
    (kept : ∀ i before t mid, i < l → Lands i (towers header l low) before t mid →
      update[i]? = some t.ptr) :
    ∃ levels', (List.range' 0 l).foldlM (unlink update e.ptr) levels = some levels' ∧
      Linked encode levels' (towers header l (low ++ high)) ∧
      (∀ i < e.height, levels' e.ptr i = some (encode (link i (high.map Entry.tower)))) ∧
      ∀ i, l ≤ i → levels' header i = levels header i := by
  have reach : ∀ i, ∃ before t mid, i < l → Lands i (towers header l low) before t mid := by
    intro i
    by_cases lt : i < l
    · have header : ∃ t ∈ towers header l low, i < t.height := ⟨⟨header, l⟩, List.mem_cons_self, lt⟩
      obtain ⟨before, t, mid, lands⟩ := exists_lands header
      exact ⟨before, t, mid, fun _ => lands⟩
    · exact ⟨[], ⟨header, l⟩, [], fun yes => absurd yes lt⟩
  choose before t mid lands using reach
  rw [← map_ptr_towers header l, towers_append, List.map_cons] at nodup
  rw [towers_append, List.map_cons] at linked
  have parts := nodup
  rw [List.map_append, List.map_cons, List.nodup_middle, List.nodup_cons, List.mem_append] at parts
  have later : e.ptr ∉ (high.map Entry.tower).map Tower.ptr := fun inside => parts.1 (Or.inr inside)
  have apart : ∀ i < l, e.ptr ≠ (t i).ptr := by
    intro i lt same
    apply parts.1
    left
    rw [(lands i lt).split]
    simp [Entry.tower, same]
  have stored : ∀ i < l, levels (t i).ptr i =
      some (encode (link i (mid i ++ e.tower :: high.map Entry.tower))) := by
    intro i lt
    apply linked (before i) (t i) (mid i ++ e.tower :: high.map Entry.tower) _ i (lands i lt).reach
    rw [(lands i lt).split, List.append_assoc, List.cons_append]
  have own : ∀ i < e.height, levels e.ptr i = some (encode (link i (high.map Entry.tower))) :=
    linked (towers header l low) e.tower _ rfl
  refine ⟨_, foldlM_columns (unlinked t mid (high.map Entry.tower) levels) 0 l ?_, ?_, ?_, ?_⟩
  · intro i _ lt levels' same
    rw [Nat.zero_add] at lt
    rw [unlink_eq e.height (kept i _ _ _ lt (lands i lt)) (lands i lt).below later
      ((same _).trans (stored i lt)) fun short => (same _).trans (own i short)]
    simp only [unlinked, same]
  · rw [towers_append]
    apply linked_remove linked nodup
    · intro i before' s mid' other
      have inside : s ∈ towers header l low := by
        rw [other.split]
        simp
      have lt : i < l := by
        apply other.reach.trans_le
        rcases List.mem_cons.mp inside with rfl | inside
        · exact le_rfl
        · obtain ⟨e, listed, rfl⟩ := List.mem_map.mp inside
          exact bound e listed
      obtain ⟨-, rfl, rfl⟩ := (lands i lt).unique other
      rw [if_pos ⟨Nat.zero_le i, by omega⟩, unlinked, if_pos rfl]
    · intro y i _ away
      split_ifs with lt
      · have far : y ≠ (t i).ptr := fun same => away _ _ _ (lands i (by omega)) same.symm
        rw [unlinked, if_neg far]
      · rfl
  · intro i lt
    rw [if_pos ⟨Nat.zero_le i, by omega⟩, unlinked, if_neg (apart i (lt.trans_le tall)), own i lt]
  · intro i ge
    rw [if_neg (by omega)]

end Unlink

/-! ## The number of levels -/

theorem lowerLevel_spec {header : Ptr} {l : ℕ} {levels : Levels} {es : List (Entry S M)}
    (linked : Linked encode levels (towers header l es)) (n : ℕ) (le : n ≤ l) (pos : 0 < n)
    (heights : ∀ e ∈ es, e.height ≤ n) :
    ∃ l', lowerLevel levels header n = some l' ∧ 0 < l' ∧ l' ≤ n ∧ ∀ e ∈ es, e.height ≤ l' := by
  induction n with
  | zero => exact absurd pos (lt_irrefl 0)
  | succ n ih =>
      rw [lowerLevel]
      by_cases last : n = 0
      · subst last
        exact ⟨1, rfl, Nat.one_pos, le_rfl, heights⟩
      · have top := linked [] ⟨header, l⟩ _ rfl n le
        rw [if_neg last, top]
        simp only [Option.bind_eq_bind, Option.bind_some, encode]
        by_cases none : (link n (es.map Entry.tower)).forward = none
        · have below := link_forward_eq_none.mp none
          obtain ⟨l', ran, pos, short, fits⟩ := ih (by omega) (by omega) fun e inside =>
            below e.tower (List.mem_map_of_mem inside)
          rw [if_pos none]
          exact ⟨l', ran, pos, by omega, fits⟩
        · rw [if_neg none]
          exact ⟨n + 1, rfl, pos, le_rfl, heights⟩

/-- Levels that no node reaches can be given up. -/
theorem linked_lower {header : Ptr} {l l' : ℕ} {levels : Levels} {es : List (Entry S M)}
    (linked : Linked encode levels (towers header l es)) (le : l' ≤ l) :
    Linked encode levels (towers header l' es) := by
  intro before t rest split i reach
  cases before with
  | nil =>
      rw [towers, List.nil_append, List.cons.injEq] at split
      obtain ⟨rfl, rfl⟩ := split
      exact linked [] ⟨header, l⟩ _ rfl i (reach.trans_le le)
  | cons u before =>
      rw [towers, List.cons_append, List.cons.injEq] at split
      exact linked (⟨header, l⟩ :: before) t rest (by rw [towers, split.2, List.cons_append]) i reach

/-! ## Back pointers -/

structure Rejoined (low high : List (Entry S M)) (old new : Ptr → Option (Option Ptr)) : Prop where
  next : ∀ e rest, high = e :: rest → new e.ptr = some (lastPtr low)
  others : ∀ y, (∀ e rest, high = e :: rest → y ≠ e.ptr) → new y = old y

theorem Rejoined.backward {low high : List (Entry S M)} {gone : Entry S M}
    {old back : Ptr → Option (Option Ptr)} (rejoined : Rejoined low high old back)
    (nodup : ((low ++ gone :: high).map Entry.ptr).Nodup)
    (stored : ∀ before e rest, low ++ gone :: high = before ++ e :: rest →
      old e.ptr = some (lastPtr before)) :
    ∀ before e rest, low ++ high = before ++ e :: rest → back e.ptr = some (lastPtr before) := by
  intro before e rest split
  rcases append_cases split with ⟨mid, rfl, rfl⟩ | ⟨mid, rfl, rfl⟩
  · rw [← stored before e (mid ++ gone :: high) (by simp)]
    apply rejoined.others
    rintro e' rest' rfl same
    simp only [List.map_append, List.map_cons, List.append_assoc, List.cons_append] at nodup
    have later := (List.nodup_cons.mp nodup.of_append_right).1
    exact later (by simp [same])
  · cases mid with
    | nil =>
        rw [rejoined.next e rest rfl, List.append_nil]
    | cons first mid =>
        have kept := stored (low ++ gone :: first :: mid) e rest (by simp)
        have same : lastPtr (low ++ gone :: first :: mid) = lastPtr (low ++ first :: mid) := by
          simp [lastPtr]
        rw [← same, ← kept]
        apply rejoined.others
        intro e' rest' split same
        obtain ⟨rfl, -⟩ := List.cons.inj split
        simp only [List.map_append, List.map_cons, List.cons_append] at nodup
        have later := (List.nodup_cons.mp (List.nodup_cons.mp nodup.of_append_right).2).1
        exact later (by simp [same])

end

/-! ## The deletion -/

section Delete
variable {S M : Type} [LinearOrder S] [LinearOrder M] {zsl : Zskiplist S M} {low high : List (Entry S M)}
  {e : Entry S M}

omit [LinearOrder S] [LinearOrder M] in
/-- The list without the node at `x`, which is not freed yet, with the links and back
pointers it gets. -/
def without (zsl : Zskiplist S M) (low high : List (Entry S M)) (levels : Levels)
    (backward : Ptr → Option (Option Ptr)) (level : ℕ) : Zskiplist S M where
  heap := { zsl.heap with level := levels, backward := backward }
  header := zsl.header
  tail := if high = [] then lastPtr low else zsl.tail
  length := zsl.length - 1
  level := level

omit [LinearOrder S] [LinearOrder M] in
structure CutOut (zsl : Zskiplist S M) (low high : List (Entry S M)) (levels : Levels)
    (backward : Ptr → Option (Option Ptr)) (level : ℕ) : Prop where
  linked : Linked encode levels (towers zsl.header zsl.level (low ++ high))
  spare : ∀ i, zsl.level ≤ i → levels zsl.header i = zsl.heap.level zsl.header i
  rejoined : Rejoined low high zsl.heap.backward backward
  pos : 0 < level
  le : level ≤ zsl.level
  fits : ∀ e ∈ low ++ high, e.height ≤ level

theorem zslDeleteNode_eq (rep : Represents zsl (low ++ e :: high)) {update : List Ptr}
    (kept : ∀ i before t mid, i < zsl.level →
      Lands i (towers zsl.header zsl.level low) before t mid → update[i]? = some t.ptr) :
    ∃ levels backward level, CutOut zsl low high levels backward level ∧
      zslDeleteNode zsl e.ptr update = some (without zsl low high levels backward level) := by
  have lowInside : ∀ e' ∈ low, e' ∈ low ++ e :: high := fun e' inside => List.mem_append_left _ inside
  have highInside : ∀ e' ∈ high, e' ∈ low ++ e :: high := fun e' inside =>
    List.mem_append_right _ (List.mem_cons_of_mem _ inside)
  have own := rep.heights e (by simp)
  obtain ⟨levels, ran, linked, node, spare⟩ := unlinkLevels rep.linked rep.nodup
    (fun e' inside => (rep.heights e' (lowInside e' inside)).2) own.2 kept
  have heights : ∀ e' ∈ low ++ high, e'.height ≤ zsl.level := by
    intro e' inside
    rcases List.mem_append.mp inside with inside | inside
    · exact (rep.heights e' (lowInside e' inside)).2
    · exact (rep.heights e' (highInside e' inside)).2
  obtain ⟨l', lowered, pos, le, fits⟩ :=
    lowerLevel_spec linked zsl.level le_rfl rep.levels.1 heights
  have back := rep.backward low e high rfl
  unfold zslDeleteNode
  simp only [ran, node 0 own.1, back, lowered, Option.bind_eq_bind, Option.bind_some]
  cases high with
  | nil =>
      have rejoined : Rejoined low [] zsl.heap.backward zsl.heap.backward :=
        ⟨fun e' rest none => (List.cons_ne_nil e' rest none.symm).elim, fun _ _ => rfl⟩
      exact ⟨levels, zsl.heap.backward, l', ⟨linked, spare, rejoined, pos, le, fits⟩, rfl⟩
  | cons next rest =>
      have nextBack := rep.backward (low ++ [e]) next rest (by simp)
      rw [List.map_cons, link_zero (rep.heights next (highInside next List.mem_cons_self)).1]
      simp only [encode, Heap.setBackward, nextBack, Option.map_some, Option.bind_some]
      have rejoined : Rejoined low (next :: rest) zsl.heap.backward
          (Function.update zsl.heap.backward next.ptr (some (lastPtr low))) := by
        constructor
        · intro e' rest' same
          obtain ⟨rfl, rfl⟩ := List.cons.inj same
          exact Function.update_self _ _ _
        · intro y away
          exact Function.update_of_ne (away next rest rfl) _ _
      exact ⟨levels, _, l', ⟨linked, spare, rejoined, pos, le, fits⟩, rfl⟩

/-- What the search of `zslDelete` keeps, and the link behind the last node it reached. -/
theorem search_last (rep : Represents zsl (low ++ high)) {score : S} {obj : M}
    (before : ∀ e ∈ low, e.key < toLex (score, obj))
    (behind : ∀ e ∈ high, ¬ e.key < toLex (score, obj)) :
    ∃ found last,
      descend zsl.heap.level (fun _ _ => ())
        (fun _ _ y => comesBefore (fun a b => decide (a < b)) zsl.heap score obj y)
        (zsl.length + 1) zsl.level () zsl.header = some found ∧
      (∀ i before t mid, i < zsl.level → Lands i (towers zsl.header zsl.level low) before t mid →
        (found.map Prod.snd)[i]? = some t.ptr) ∧
      (found.map Prod.snd)[0]? = some last ∧
      zsl.heap.level last 0 = some (encode (link 0 (high.map Entry.tower))) := by
  have seeks : Seeks (fun (_ : Unit) (_ : BitVec 32) => ())
      (fun _ _ y => comesBefore (fun a b => decide (a < b)) zsl.heap score obj y) (fun _ => ())
      (towers zsl.header zsl.level low) (high.map Entry.tower) :=
    seeks_lt rep (fun _ _ _ => rfl) before behind
  obtain ⟨found, searched, kept⟩ := search_found rep seeks
  have update : ∀ i before t mid, i < zsl.level →
      Lands i (towers zsl.header zsl.level low) before t mid →
      (found.map Prod.snd)[i]? = some t.ptr := by
    intro i before t mid lt lands
    rw [List.getElem?_map, kept.lands i before t mid lt lands]
    rfl
  obtain ⟨before₀, t₀, mid₀, lands₀⟩ : ∃ before t mid,
      Lands 0 (towers zsl.header zsl.level low) before t mid :=
    exists_lands ⟨⟨zsl.header, zsl.level⟩, List.mem_cons_self, rep.levels.1⟩
  have heights : ∀ e ∈ low, 0 < e.height := fun e inside =>
    (rep.heights e (List.mem_append_left _ inside)).1
  have none : mid₀ = [] := by
    have length := congrArg List.length lands₀.split
    rw [towers, List.length_cons, List.length_map, List.length_append, List.length_cons,
      (lands_zero rep.levels.1 heights lands₀).1] at length
    exact List.length_eq_zero_iff.mp (by omega)
  have linked := rep.linked
  rw [towers_append, lands₀.split, none, List.append_assoc, List.singleton_append] at linked
  exact ⟨found, t₀.ptr, searched, update, update 0 _ _ _ rep.levels.1 lands₀,
    linked before₀ t₀ _ rfl 0 lands₀.reach⟩

theorem zslDelete_eq (rep : Represents zsl (low ++ e :: high)) :
    ∃ levels backward level, CutOut zsl low high levels backward level ∧
      zslDelete zsl e.score e.obj = some (true, { without zsl low high levels backward level with
        heap := zslFreeNode (without zsl low high levels backward level).heap e.ptr }) := by
  have sorted := List.pairwise_append.mp rep.sorted
  have behind : ∀ e' ∈ e :: high, ¬ e'.key < toLex (e.score, e.obj) := by
    intro e' inside
    rcases List.mem_cons.mp inside with rfl | inside
    · exact lt_irrefl _
    · exact ((List.pairwise_cons.mp sorted.2.1).1 e' inside).not_gt
  obtain ⟨found, last, searched, update, zero, next⟩ := search_last rep
    (fun e' inside => sorted.2.2 e' inside e List.mem_cons_self) behind
  obtain ⟨levels, backward, level, cut, deleted⟩ := zslDeleteNode_eq rep update
  refine ⟨levels, backward, level, cut, ?_⟩
  unfold zslDelete
  simp only [searched, zero, next, Option.bind_eq_bind, Option.bind_some]
  rw [List.map_cons, link_zero (rep.heights e (by simp)).1]
  simp only [encode, rep.scores e (by simp), rep.objs e (by simp), Option.bind_some, and_self,
    if_true, deleted]

/-- The list without the node represents what is left. -/
theorem CutOut.represents {levels : Levels} {backward : Ptr → Option (Option Ptr)} {level : ℕ}
    (cut : CutOut zsl low high levels backward level) (rep : Represents zsl (low ++ e :: high)) :
    Represents { without zsl low high levels backward level with
      heap := zslFreeNode (without zsl low high levels backward level).heap e.ptr } (low ++ high) := by
  have sorted := List.pairwise_append.mp rep.sorted
  have nodup := rep.nodup
  rw [List.map_append, List.map_cons, List.nodup_cons, List.nodup_middle, List.nodup_cons,
    ← List.map_append] at nodup
  have apart : ∀ e' ∈ low ++ high, e'.ptr ≠ e.ptr := fun e' inside same =>
    nodup.2.1 (same ▸ List.mem_map_of_mem inside)
  have header : zsl.header ≠ e.ptr := fun same => nodup.1 (by simp [same])
  have inside : ∀ e' ∈ low ++ high, e' ∈ low ++ e :: high := by
    intro e' inside
    rw [List.mem_append, List.mem_cons]
    rw [List.mem_append] at inside
    tauto
  constructor
  · change (zsl.header :: (low ++ high).map Entry.ptr).Nodup
    rw [List.nodup_cons]
    refine ⟨fun listed => nodup.1 ?_, nodup.2.2⟩
    rw [List.map_append] at listed
    simp only [List.mem_append, List.mem_cons] at listed ⊢
    tauto
  · intro e' listed
    exact (Function.update_of_ne (apart e' listed) _ _).trans (rep.objs e' (inside e' listed))
  · intro e' listed
    exact (Function.update_of_ne (apart e' listed) _ _).trans (rep.scores e' (inside e' listed))
  · exact (Function.update_of_ne header _ _).trans rep.headerObj
  · intro y outside
    change y ∉ zsl.header :: (low ++ high).map Entry.ptr at outside
    by_cases gone : y = e.ptr
    · rw [gone]
      exact Function.update_self _ _ _
    · apply (Function.update_of_ne gone _ _).trans
      apply rep.rest
      simp only [List.map_append, List.map_cons, List.mem_cons, List.mem_append] at outside ⊢
      tauto
  · intro before t rest split i reach
    have other : t.ptr ≠ e.ptr := by
      have member : t.ptr ∈ (towers zsl.header level (low ++ high)).map Tower.ptr := by
        change towers zsl.header level (low ++ high) = _ at split
        rw [split]
        simp
      rw [map_ptr_towers, List.mem_cons] at member
      rcases member with same | listed
      · rw [same]
        exact header
      · exact fun same => nodup.2.1 (same ▸ listed)
    exact (if_neg other).trans (linked_lower cut.linked cut.le before t rest split i reach)
  · intro i ge lt
    have stored : (if zsl.header = e.ptr then none else levels zsl.header i) =
        levels zsl.header i := if_neg header
    by_cases old : i < zsl.level
    · have below : ∀ t ∈ (low ++ high).map Entry.tower, t.height ≤ i := by
        intro t member
        obtain ⟨e', listed, rfl⟩ := List.mem_map.mp member
        exact (cut.fits e' listed).trans ge
      have top := cut.linked [] ⟨zsl.header, zsl.level⟩ _ rfl i old
      rw [link_low below] at top
      exact ⟨_, stored.trans top⟩
    · obtain ⟨span, kept⟩ := rep.spare i (not_lt.mp old) lt
      exact ⟨span, stored.trans ((cut.spare i (not_lt.mp old)).trans kept)⟩
  · intro e' listed
    exact ⟨(rep.heights e' (inside e' listed)).1, cut.fits e' listed⟩
  · exact ⟨cut.pos, cut.le.trans rep.levels.2⟩
  · rw [List.pairwise_append]
    exact ⟨sorted.1, (List.pairwise_cons.mp sorted.2.1).2, fun a left b right =>
      sorted.2.2 a left b (List.mem_cons_of_mem _ right)⟩
  · intro before e' rest split
    have other : e'.ptr ≠ e.ptr := apart e' (by rw [split]; simp)
    exact (Function.update_of_ne other _ _).trans
      (cut.rejoined.backward (List.nodup_cons.mp rep.nodup).2 rep.backward before e' rest split)
  · change (if high = [] then lastPtr low else zsl.tail) = _
    rw [rep.tail]
    cases high with
    | nil => simp
    | cons e' rest => simp [lastPtr]
  · change zsl.length - 1 = _
    rw [rep.length]
    simp

theorem delete_represents (rep : Represents zsl (low ++ e :: high)) :
    ∃ zsl', zslDelete zsl e.score e.obj = some (true, zsl') ∧ Represents zsl' (low ++ high) ∧
      zsl'.heap.obj = Function.update zsl.heap.obj e.ptr none := by
  obtain ⟨levels, backward, level, cut, ran⟩ := zslDelete_eq rep
  exact ⟨_, ran, cut.represents rep, rfl⟩

theorem delete_absent {es : List (Entry S M)} (rep : Represents zsl es) {score : S} {obj : M}
    (absent : ∀ e ∈ es, e.key ≠ toLex (score, obj)) :
    zslDelete zsl score obj = some (false, zsl) := by
  obtain ⟨low, high, rfl, before, behind⟩ :=
    exists_split Entry.key (p := fun key => key < toLex (score, obj)) (fun a b less => less.trans)
      rep.sorted
  obtain ⟨found, last, searched, update, zero, next⟩ := search_last rep before behind
  unfold zslDelete
  simp only [searched, zero, next, Option.bind_eq_bind, Option.bind_some]
  cases high with
  | nil => rfl
  | cons e rest =>
      have inside : e ∈ low ++ e :: rest := by simp
      have other : ¬ (score = e.score ∧ e.obj = obj) := by
        rintro ⟨rfl, rfl⟩
        exact absent e inside rfl
      rw [List.map_cons, link_zero (rep.heights e inside).1]
      simp only [encode, rep.scores e inside, rep.objs e inside, Option.bind_some, other, if_false]

end Delete

end Phonograph.Redis
