import Phonograph.Client.Js
import Phonograph.Lib.Loops
import Phonograph.Lib.Words

/-! # The labels of a node

`firstLabel` and `secondLabel` of `phonograph.js` write the name of an artist on
two lines.  A name is a JavaScript string, a list of 16-bit units, and both
functions cut it between words.  The loop over the words reads `splt[0]` whether
or not a word is left; the text of a missing word is `undefined`. -/

set_option autoImplicit false

namespace Phonograph.Client.NodeLabels

open Phonograph.Lib Phonograph.Client.Js

abbrev Text := List UInt16

def units (s : String) : Text := s.toList.map fun c => c.toNat.toUInt16

def space : UInt16 := 32

def dots : Text := units "..."

structure Words where
  label : Text
  splt : List Text
  deriving DecidableEq

/-- `splt.reverse().pop(); splt.reverse();`. -/
def dropFirst (splt : List Text) : List Text := splt.reverse.dropLast.reverse

namespace Words

def joined (s : Words) : Text := s.label ++ space :: (s.splt.head?).getD (units "undefined")

def Going (s : Words) : Prop := s.joined.length < 14

instance (s : Words) : Decidable s.Going := inferInstanceAs (Decidable (_ < 14))

def next (s : Words) : Words := ⟨s.joined, dropFirst s.splt⟩

end Words

/-- `splt = text.split(' '); label = splt[0];` and the first word taken off. -/
def firstWord (text : Text) : Words :=
  ⟨(text.splitOn space).headD [], dropFirst (text.splitOn space)⟩

/-- The loop over the words; `none` when the fuel runs out. -/
def wordLoop : ℕ → Words → Option Words
  | 0, _ => none
  | fuel + 1, s => if s.Going then wordLoop fuel s.next else some s

def firstLabel (fuel : ℕ) (name : Text) : Option Text :=
  if name.length < 16 then some name
  else (wordLoop fuel (firstWord name)).map Words.label

/-- `text.substring(start, stop)`: the bounds are cut to the length and put in order. -/
def substring (text : Text) (start stop : ℕ) : Text :=
  let i := min start text.length
  let j := min stop text.length
  (text.take (max i j)).drop (min i j)

/-- `splt == []` compares with a new array, which no other array is. -/
def isNewArray (_ : List Text) : Bool := false

def secondLabel (fuel : ℕ) (name : Text) : Option Text := do
  let first ← firstLabel fuel name
  let label := substring name (first.length + 1) 999
  if label.length < 16 then return label
  else
    let s ← wordLoop fuel (firstWord label)
    if isNewArray s.splt then return s.label
    else return s.label ++ dots

/-! ## The loop over the words -/

abbrev WordRounds (n : ℕ) (s t : Words) : Prop :=
  Rounds Words.Going (fun s => (.ok s.next : Except JsErr Words)) n s t

theorem dropFirst_eq (splt : List Text) : dropFirst splt = splt.tail := by
  rw [dropFirst, List.dropLast_reverse, List.reverse_reverse]

theorem wordLoop_of_rounds {n : ℕ} {s t : Words} (rounds : WordRounds n s t) (ended : ¬ t.Going) :
    ∀ fuel, n < fuel → wordLoop fuel s = some t := by
  induction rounds with
  | refl s =>
      intro fuel pos
      obtain ⟨k, rfl⟩ := Nat.exists_eq_succ_of_ne_zero (Nat.ne_of_gt pos)
      rw [wordLoop, if_neg ended]
  | @cons n s t u go step _ ih =>
      intro fuel less
      obtain ⟨k, rfl⟩ := Nat.exists_eq_succ_of_ne_zero (Nat.ne_of_gt (Nat.zero_lt_of_lt less))
      obtain rfl := Except.ok.inj step
      rw [wordLoop, if_pos go]
      exact ih ended k (Nat.lt_of_succ_lt_succ less)

theorem length_joined (s : Words) : s.label.length < s.joined.length := by
  simp [Words.joined]

/-- Every round makes the label longer, so the loop ends within fourteen rounds. -/
theorem exists_wordRounds (s : Words) :
    ∃ n t, n ≤ 14 - s.label.length ∧ WordRounds n s t ∧ ¬ t.Going := by
  induction left : 14 - s.label.length using Nat.strong_induction_on generalizing s with
  | _ left' ih =>
      by_cases go : s.Going
      · have longer := length_joined s
        have short : s.joined.length < 14 := go
        have label : s.next.label = s.joined := rfl
        obtain ⟨n, t, bound, rounds, ended⟩ := ih (14 - s.next.label.length)
          (by rw [label]; omega) s.next rfl
        refine ⟨n + 1, t, ?_, .cons go rfl rounds, ended⟩
        rw [label] at bound
        omega
      · exact ⟨0, s, Nat.zero_le _, .refl s, go⟩

structure Cut (text : Text) (s : Words) : Prop where
  whole : s.label ++ rejoin space s.splt = text
  plain : ∀ word ∈ s.splt, space ∉ word
  fits : space ∉ s.label ∨ s.label.length < 14

theorem cut_firstWord (text : Text) : Cut text (firstWord text) := by
  have pieces : ∀ word ∈ text.splitOn space, space ∉ word := notMem_of_mem_splitOn
  obtain ⟨word, others, shape⟩ := List.exists_cons_of_ne_nil (List.splitOn_ne_nil space text)
  refine ⟨?_, ?_, Or.inl ?_⟩
  · rw [firstWord, dropFirst_eq]
    exact rejoin_splitOn text
  · intro word member
    rw [firstWord, dropFirst_eq] at member
    exact pieces word (List.mem_of_mem_tail member)
  · rw [firstWord, shape]
    exact pieces word (by simp [shape])

variable {text : Text} {s : Words}

/-- A loop that goes on has a word left: the whole text would be too long. -/
theorem Cut.exists_word (cut : Cut text s) (long : 14 ≤ text.length) (go : s.Going) :
    ∃ word words, s.splt = word :: words := by
  cases left : s.splt with
  | nil =>
      have all := cut.whole
      rw [left, rejoin_nil, List.append_nil] at all
      have longer := length_joined s
      have short : s.joined.length < 14 := go
      rw [all] at longer
      omega
  | cons word words => exact ⟨word, words, rfl⟩

theorem Cut.next (cut : Cut text s) (long : 14 ≤ text.length) (go : s.Going) : Cut text s.next := by
  obtain ⟨word, words, left⟩ := cut.exists_word long go
  have label : s.next.label = s.label ++ space :: word := by
    simp [Words.next, Words.joined, left]
  have splt : s.next.splt = words := by
    simp [Words.next, dropFirst_eq, left]
  refine ⟨?_, ?_, Or.inr go⟩
  · rw [label, splt, ← cut.whole, left, rejoin_cons]
    simp
  · intro word' member
    rw [splt] at member
    exact cut.plain word' (left ▸ List.mem_cons_of_mem _ member)

theorem cut_of_rounds {n : ℕ} (long : 14 ≤ text.length) (rounds : WordRounds n (firstWord text) s) :
    Cut text s := by
  refine rounds.invariant (fun s t cut go step => ?_) (cut_firstWord text)
  obtain rfl := Except.ok.inj step
  exact cut.next long go

theorem Cut.greedy (cut : Cut text s) (ended : ¬ s.Going) :
    Greedy space 14 text s.label (rejoin space s.splt) where
  split := cut.whole.symm
  boundary := atBreak_rejoin s.splt
  fits := cut.fits
  full := by
    intro some
    cases left : s.splt with
    | nil => simp [left] at some
    | cons word words =>
        have plain := cut.plain word (by simp [left])
        have size : s.joined.length = s.label.length + 1 + word.length := by
          simp [Words.joined, left]
          omega
        rw [rejoin_cons, List.tail_cons, takeWhile_atBreak plain (atBreak_rejoin words), ← size]
        exact Nat.le_of_not_lt ended

/-- In no round of the loop over the words of the text is the text of a missing word
joined to the label. -/
def NeverUndefined (text : Text) : Prop :=
  ∀ n s, WordRounds n (firstWord text) s → s.Going → s.splt ≠ []

theorem neverUndefined (long : 14 ≤ text.length) : NeverUndefined text := by
  intro n s rounds go
  obtain ⟨word, words, left⟩ := (cut_of_rounds long rounds).exists_word long go
  simp [left]

theorem wordLoop_ends (long : 14 ≤ text.length) :
    ∃ s, (∀ fuel ≥ 15, wordLoop fuel (firstWord text) = some s) ∧
      Greedy space 14 text s.label (rejoin space s.splt) := by
  obtain ⟨n, s, bound, rounds, ended⟩ := exists_wordRounds (firstWord text)
  refine ⟨s, fun fuel enough => ?_, (cut_of_rounds long rounds).greedy ended⟩
  exact wordLoop_of_rounds rounds ended fuel (by omega)

/-! ## The two labels -/

/-- The first and the second label of a name.  A second line of one long word is shown
in full and gets dots all the same. -/
inductive Labels (name : Text) : Text → Text → Prop where
  | short : name.length < 16 → Labels name name []
  | single : Greedy space 14 name name [] → Labels name name []
  | both {first second : Text} : Greedy space 14 name first (space :: second) →
      second.length < 16 → Labels name first second
  | abridged {first label more : Text} :
      Greedy space 14 name first (space :: (label ++ space :: more)) →
      Labels name first (label ++ dots)
  | unabridged {first second : Text} : Greedy space 14 name first (space :: second) →
      16 ≤ second.length → space ∉ second → Labels name first (second ++ dots)

def Returns (name first second : Text) : Prop :=
  ∀ fuel ≥ 15, firstLabel fuel name = some first ∧ secondLabel fuel name = some second

theorem substring_eq_drop {name : Text} (bound : name.length ≤ 999) (start : ℕ) :
    substring name start 999 = name.drop start := by
  rw [substring, Nat.min_eq_right bound, Nat.max_eq_right (Nat.min_le_right _ _), List.take_length,
    Nat.min_eq_left (Nat.min_le_right _ _)]
  rcases Nat.le_total start name.length with le | le
  · rw [Nat.min_eq_left le]
  · rw [Nat.min_eq_right le, List.drop_length, List.drop_eq_nil_of_le le]

theorem secondLabel_short {name first : Text} {fuel : ℕ} (found : firstLabel fuel name = some first)
    (short : (substring name (first.length + 1) 999).length < 16) :
    secondLabel fuel name = some (substring name (first.length + 1) 999) := by
  simp [secondLabel, found, short]

theorem secondLabel_long {name first : Text} {fuel : ℕ} (found : firstLabel fuel name = some first)
    (long : 16 ≤ (substring name (first.length + 1) 999).length) {s : Words}
    (ends : wordLoop fuel (firstWord (substring name (first.length + 1) 999)) = some s) :
    secondLabel fuel name = some (s.label ++ dots) := by
  simp [secondLabel, found, Nat.not_lt.mpr long, ends, isNewArray]

theorem firstLabel_short {name : Text} (short : name.length < 16) (fuel : ℕ) :
    firstLabel fuel name = some name := by
  rw [firstLabel, if_pos short]

theorem exists_firstLabel {name : Text} (long : 16 ≤ name.length) :
    ∃ first rest, (∀ fuel ≥ 15, firstLabel fuel name = some first) ∧
      Greedy space 14 name first rest := by
  obtain ⟨s, ends, greedy⟩ := wordLoop_ends (Nat.le_trans (by decide) long)
  refine ⟨s.label, _, fun fuel enough => ?_, greedy⟩
  rw [firstLabel, if_neg (Nat.not_lt.mpr long), ends fuel enough]
  rfl

theorem drop_first {name first second : Text} (split : name = first ++ space :: second) :
    name.drop (first.length + 1) = second := by
  rw [split, ← List.drop_drop, List.drop_left, List.drop_one, List.tail_cons]

theorem labels_of_greedy {name first second : Text} (bound : name.length ≤ 999)
    (found : ∀ fuel ≥ 15, firstLabel fuel name = some first)
    (greedy : Greedy space 14 name first (space :: second)) :
    ∃ shown, Returns name first shown ∧ Labels name first shown := by
  have rest : substring name (first.length + 1) 999 = second := by
    rw [substring_eq_drop bound, drop_first greedy.split]
  rcases Nat.lt_or_ge second.length 16 with short | long
  · refine ⟨second, fun fuel enough => ⟨found fuel enough, ?_⟩, .both greedy short⟩
    have label := secondLabel_short (found fuel enough) (rest.symm ▸ short)
    rwa [rest] at label
  · obtain ⟨s, ends, words⟩ := wordLoop_ends (Nat.le_trans (by decide) long)
    refine ⟨s.label ++ dots, fun fuel enough => ⟨found fuel enough, ?_⟩, ?_⟩
    · apply secondLabel_long (found fuel enough) (rest.symm ▸ long)
      rw [rest]
      exact ends fuel enough
    · rcases words.boundary with empty | ⟨more, follows⟩
      · have whole := words.split
        rw [empty, List.append_nil] at whole
        have plain : space ∉ second := by
          rcases words.fits with fresh | small
          · rwa [whole]
          · rw [← whole] at small
            omega
        rw [← whole]
        exact .unabridged greedy long plain
      · have whole := words.split
        rw [follows] at whole
        rw [whole] at greedy
        exact .abridged greedy

theorem returns_whole {name : Text} (bound : name.length ≤ 999)
    (found : ∀ fuel ≥ 15, firstLabel fuel name = some name) : Returns name name [] := by
  have rest : substring name (name.length + 1) 999 = [] := by
    rw [substring_eq_drop bound, List.drop_eq_nil_of_le (Nat.le_succ _)]
  intro fuel enough
  have label := secondLabel_short (found fuel enough) (by simp [rest])
  rw [rest] at label
  exact ⟨found fuel enough, label⟩

theorem exists_labels {name : Text} (bound : name.length ≤ 999) :
    ∃ first second, Returns name first second ∧ Labels name first second := by
  rcases Nat.lt_or_ge name.length 16 with short | long
  · exact ⟨name, [], returns_whole bound fun fuel _ => firstLabel_short short fuel, .short short⟩
  · obtain ⟨first, rest, found, greedy⟩ := exists_firstLabel long
    rcases greedy.boundary with rfl | ⟨second, rfl⟩
    · obtain rfl : name = first := by rw [greedy.split, List.append_nil]
      exact ⟨name, [], returns_whole bound found, .single greedy⟩
    · obtain ⟨shown, returns, labels⟩ := labels_of_greedy bound found greedy
      exact ⟨first, shown, returns, labels⟩

/-! ## What the labels show -/

/-- The labels show the name, or the second one ends in dots and they show less. -/
def Shown (name first second : Text) : Prop :=
  (name = first ∧ second = []) ∨ name = first ++ space :: second ∨
  ∃ label, second = label ++ dots ∧
    first ++ space :: label <+: name ∧ first ++ space :: label ≠ name

def Dotted (name first second : Text) : Prop :=
  (∃ label, second = label ++ dots) ∧ ¬ first ++ space :: second <+: name

/-- Some of the name is neither on the first nor, up to the dots, on the second label. -/
def Hidden (name first second : Text) : Prop :=
  name ≠ first ∧ name ≠ first ++ space :: second ∧
  ∀ label, second = label ++ dots → name ≠ first ++ space :: label

structure Fit (name first second : Text) : Prop where
  first_label : first = name ∨ first ++ [space] <+: name
  shown : Shown name first second
  dotted_iff : Dotted name first second ↔ Hidden name first second

theorem dots_ne_nil (label : Text) : label ++ dots ≠ [] := by
  intro empty
  have none : dots = [] := (List.append_eq_nil_iff.mp empty).2
  revert none
  decide

theorem fit_whole (name : Text) : Fit name name [] where
  first_label := Or.inl rfl
  shown := Or.inl ⟨rfl, rfl⟩
  dotted_iff := by
    constructor
    · intro dotted
      obtain ⟨⟨label, same⟩, _⟩ := dotted
      exact absurd same.symm (dots_ne_nil label)
    · intro hidden
      exact absurd rfl hidden.1

theorem fit_both {name first second : Text} (split : name = first ++ space :: second) :
    Fit name first second where
  first_label := Or.inr ⟨second, by simp [split]⟩
  shown := Or.inr (Or.inl split)
  dotted_iff := by
    constructor
    · intro dotted
      exact absurd (split ▸ List.prefix_rfl) dotted.2
    · intro hidden
      exact absurd split hidden.2.1

theorem not_dots_prefix (more : Text) : ¬ dots <+: space :: more := by
  intro starts
  obtain ⟨rest, same⟩ := starts
  have head : (46 : UInt16) = space := (List.cons.inj same).1
  revert head
  decide

theorem fit_abridged {name first label more : Text}
    (split : name = first ++ space :: (label ++ space :: more)) :
    Fit name first (label ++ dots) := by
  have foreign : ¬ first ++ space :: (label ++ dots) <+: name := by
    intro starts
    rw [split, List.prefix_append_right_inj, List.cons_prefix_cons,
      List.prefix_append_right_inj] at starts
    exact not_dots_prefix more starts.2
  have proper : name ≠ first ++ space :: label := by
    intro same
    have length := congrArg List.length (split.symm.trans same)
    simp at length
  refine ⟨Or.inr ⟨label ++ space :: more, by simp [split]⟩, Or.inr (Or.inr ?_), ?_⟩
  · exact ⟨label, rfl, ⟨space :: more, by simp [split]⟩, proper.symm⟩
  · have dotted : Dotted name first (label ++ dots) := ⟨⟨label, rfl⟩, foreign⟩
    have hidden : Hidden name first (label ++ dots) := by
      refine ⟨?_, ?_, ?_⟩
      · intro same
        have length := congrArg List.length (split.symm.trans same)
        simp at length
      · intro same
        exact foreign (same ▸ List.prefix_rfl)
      · intro label' same
        rw [← List.append_cancel_right same]
        exact proper
    exact iff_of_true dotted hidden

theorem not_fit_unabridged {name first second : Text} (split : name = first ++ space :: second) :
    ¬ Fit name first (second ++ dots) := by
  intro fit
  have foreign : ¬ first ++ space :: (second ++ dots) <+: name := by
    intro starts
    have length := starts.length_le
    have three : dots.length = 3 := rfl
    simp only [split, List.length_append, List.length_cons, three] at length
    omega
  have hidden := fit.dotted_iff.mp ⟨⟨second, rfl⟩, foreign⟩
  exact hidden.2.2 second rfl split

/-- The last word has at least 16 characters, and what stands before it fills the first
label: it is one word, or has less than 14 characters. -/
def LongTail (name : Text) : Prop :=
  ∃ front word, name = front ++ space :: word ∧ space ∉ word ∧ 16 ≤ word.length ∧
    (space ∉ front ∨ front.length < 14)

theorem longTail_iff (name : Text) : LongTail name ↔
    ∃ front word, Greedy space 14 name front (space :: word) ∧ space ∉ word ∧ 16 ≤ word.length := by
  constructor
  · intro tail
    obtain ⟨front, word, split, plain, long, fits⟩ := tail
    refine ⟨front, word, ⟨split, Or.inr ⟨word, rfl⟩, fits, fun _ => ?_⟩, plain, long⟩
    have one := takeWhile_atBreak plain (Or.inl rfl)
    rw [List.append_nil] at one
    rw [List.tail_cons, one]
    omega
  · intro found
    obtain ⟨front, word, greedy, plain, long⟩ := found
    exact ⟨front, word, greedy.split, plain, long, greedy.fits⟩

/-- The label that fills the first line decides whether the last word is a long tail. -/
theorem longTail_iff_of_greedy {name first rest : Text} (greedy : Greedy space 14 name first rest) :
    LongTail name ↔ ∃ word, rest = space :: word ∧ space ∉ word ∧ 16 ≤ word.length := by
  rw [longTail_iff]
  constructor
  · intro found
    obtain ⟨front, word, greedy', plain, long⟩ := found
    exact ⟨word, (greedy.unique greedy').2, plain, long⟩
  · intro found
    obtain ⟨word, rfl, plain, long⟩ := found
    exact ⟨first, word, greedy, plain, long⟩

theorem fit_iff {name first second : Text} (labels : Labels name first second) :
    Fit name first second ↔ ¬ LongTail name := by
  cases labels with
  | short small =>
      refine iff_of_true (fit_whole name) fun tail => ?_
      obtain ⟨front, word, rfl, _, long, _⟩ := tail
      rw [List.length_append, List.length_cons] at small
      omega
  | single greedy =>
      refine iff_of_true (fit_whole name) ?_
      rw [longTail_iff_of_greedy greedy]
      simp
  | both greedy small =>
      refine iff_of_true (fit_both greedy.split) ?_
      rw [longTail_iff_of_greedy greedy]
      rintro ⟨word, same, _, long⟩
      rw [(List.cons.inj same).2] at small
      omega
  | abridged greedy =>
      refine iff_of_true (fit_abridged greedy.split) ?_
      rw [longTail_iff_of_greedy greedy]
      rintro ⟨word, same, plain, _⟩
      rw [← (List.cons.inj same).2] at plain
      simp at plain
  | unabridged greedy long plain =>
      refine iff_of_false (not_fit_unabridged greedy.split) (not_not_intro ?_)
      exact (longTail_iff_of_greedy greedy).mpr ⟨_, rfl, plain, long⟩

/-- The two functions end, never join a missing word, and their labels fit the name. -/
structure LabelsRight (name first second : Text) : Prop where
  returns : Returns name first second
  first_defined : 16 ≤ name.length → NeverUndefined name
  second_defined : 16 ≤ (substring name (first.length + 1) 999).length →
    NeverUndefined (substring name (first.length + 1) 999)
  fit : Fit name first second

/-- The labels of a name of at most 999 characters are right exactly if the name does
not end in a word of 16 or more characters that is alone on the second line. -/
theorem labelsRight_iff (name : Text) (bound : name.length ≤ 999) :
    (∃ first second, LabelsRight name first second) ↔ ¬ LongTail name := by
  obtain ⟨first, second, returns, labels⟩ := exists_labels bound
  rw [← fit_iff labels]
  constructor
  · intro right
    obtain ⟨first', second', right⟩ := right
    obtain ⟨one, two⟩ := returns 15 le_rfl
    obtain ⟨one', two'⟩ := right.returns 15 le_rfl
    obtain rfl := Option.some.inj (one.symm.trans one')
    obtain rfl := Option.some.inj (two.symm.trans two')
    exact right.fit
  · intro fit
    refine ⟨first, second, returns, fun long => ?_, fun long => ?_, fit⟩
    · exact neverUndefined (Nat.le_trans (by decide) long)
    · exact neverUndefined (Nat.le_trans (by decide) long)

theorem labelsRight_florence :
    ∃ first second, LabelsRight (units "Florence + The Machine") first second := by
  apply (labelsRight_iff _ (by decide)).mpr
  intro tail
  obtain ⟨front, word, split, _, long, _⟩ := tail
  have length := congrArg List.length split
  rw [List.length_append, List.length_cons, show (units _).length = 22 from rfl] at length
  have early : front ++ [space] <+: (units "Florence + The Machine").take 6 := by
    rw [split, List.prefix_take_iff]
    exact ⟨⟨word, by simp⟩, by simp; omega⟩
  have inside : space ∈ (units "Florence + The Machine").take 6 := early.subset (by simp)
  revert inside
  decide

/-- The second line of this name shows all that is left of it, and dots. -/
theorem not_labelsRight :
    firstLabel 15 (units "The Internationalists") = some (units "The") ∧
    secondLabel 15 (units "The Internationalists") = some (units "Internationalists...") ∧
    ¬ ∃ first second, LabelsRight (units "The Internationalists") first second := by
  have one : firstLabel 15 (units "The Internationalists") = some (units "The") := by decide
  have two : secondLabel 15 (units "The Internationalists") =
      some (units "Internationalists" ++ dots) := by decide
  refine ⟨one, two, ?_⟩
  intro right
  obtain ⟨first, second, right⟩ := right
  obtain ⟨one', two'⟩ := right.returns 15 le_rfl
  obtain rfl := Option.some.inj (one.symm.trans one')
  obtain rfl := Option.some.inj (two.symm.trans two')
  have split : units "The Internationalists" =
      units "The" ++ space :: units "Internationalists" := by decide
  exact not_fit_unabridged split right.fit

end Phonograph.Client.NodeLabels
