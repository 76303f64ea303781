import Mathlib.Algebra.Group.Action.Defs
import Mathlib.Algebra.Order.BigOperators.Group.List
import Mathlib.Algebra.Order.Ring.Nat
import Phonograph.Client.TrackButton
import Phonograph.Lib.Words

/-! # Reading a track back from its button

None of the four stages escapes anything.  Each of them leaves a text alone or
makes it lighter, under a weight chosen for this purpose, so nothing that one
stage changes can be made good by a later one: the text comes back only if
every stage leaves it alone, and the track only if its separators are its own. -/

set_option autoImplicit false

namespace Phonograph.Client.TrackButton

open Phonograph.Lib

/-! ## Weights -/

/-- An ampersand outweighs what a reference stands for, a dollar sign what a
pattern inserts before the cut, and a quote what `parseTrack` puts for a missing
artist list. -/
def charWeight (c : Char) : ℕ :=
  if c = '&' then 1000
  else if c = '$' ∨ c = backquote then 100
  else if c = quote then 8
  else if c = '\r' ∨ c = nul then 2
  else 1

def weight (text : List Char) : ℕ := (text.map charWeight).sum

@[simp] theorem weight_nil : weight [] = 0 := rfl

@[simp] theorem weight_cons (c : Char) (text : List Char) :
    weight (c :: text) = charWeight c + weight text := by simp [weight]

@[simp] theorem weight_append (xs ys : List Char) : weight (xs ++ ys) = weight xs + weight ys := by
  simp [weight]

theorem charWeight_pos (c : Char) : 0 < charWeight c := by
  unfold charWeight
  split_ifs <;> decide

/-- Unchanged or lighter; and a bar is lost only along with a weight of eight. -/
def Shrinks (text left : List Char) : Prop :=
  (left = text ∨ weight left < weight text) ∧
    (text.count '|' ≤ left.count '|' ∨ weight left + 8 ≤ weight text)

theorem Shrinks.le {text left : List Char} (shrinks : Shrinks text left) :
    weight left ≤ weight text := by
  rcases shrinks.1 with rfl | lighter
  · exact Nat.le_refl _
  · exact Nat.le_of_lt lighter

theorem Shrinks.refl (text : List Char) : Shrinks text text := ⟨Or.inl rfl, Or.inl (Nat.le_refl _)⟩

theorem Shrinks.trans {text mid left : List Char} (first : Shrinks text mid)
    (second : Shrinks mid left) : Shrinks text left := by
  have light := first.le
  have lighter := second.le
  constructor
  · rcases first.1 with rfl | less
    · exact second.1
    · exact Or.inr (Nat.lt_of_le_of_lt lighter less)
  · rcases first.2 with kept | lost <;> rcases second.2 with kept' | lost'
    · exact Or.inl (Nat.le_trans kept kept')
    all_goals right; omega

theorem Shrinks.cons {text left : List Char} (c : Char) (shrinks : Shrinks text left) :
    Shrinks (c :: text) (c :: left) := by
  obtain ⟨size, bars⟩ := shrinks
  constructor
  · rcases size with rfl | lighter
    · exact Or.inl rfl
    · exact Or.inr (by simp [lighter])
  · rcases bars with kept | lost
    · exact Or.inl (by simp [List.count_cons, kept])
    · exact Or.inr (by simp; omega)

/-- A text that weighs no less is unchanged. -/
theorem Shrinks.eq {text left : List Char} (shrinks : Shrinks text left)
    (heavy : weight text ≤ weight left) : left = text :=
  shrinks.1.resolve_right (Nat.not_lt.mpr heavy)

/-- What a stage makes of a text that may be clean: the text itself exactly if it is. -/
def Settled (text left : List Char) (clean : Prop) : Prop :=
  Shrinks text left ∧ (left = text ↔ clean)

theorem Settled.cons {text left : List Char} {clean clean' : Prop} (c : Char)
    (settled : Settled text left clean) (same : clean' ↔ clean) :
    Settled (c :: text) (c :: left) clean' := by
  refine ⟨settled.1.cons c, ?_⟩
  rw [List.cons_inj_right, settled.2, same]

/-- A part without a bar is replaced by something lighter. -/
theorem Settled.replace {text left : List Char} {clean clean' : Prop} (old new : List Char)
    (settled : Settled text left clean) (lighter : weight new < weight old)
    (bars : '|' ∉ old) (dirty : ¬ clean') : Settled (old ++ text) (new ++ left) clean' := by
  have light := settled.1.le
  have less : weight (new ++ left) < weight (old ++ text) := by
    simp only [weight_append]
    omega
  have count : old.count '|' = 0 := List.count_eq_zero.mpr bars
  refine ⟨⟨Or.inr less, ?_⟩, iff_of_false (fun same => ?_) dirty⟩
  · rcases settled.1.2 with kept | lost
    · left
      simp only [List.count_append, count]
      omega
    · right
      simp only [weight_append]
      omega
  · rw [same] at less
    exact Nat.lt_irrefl _ less

theorem Settled.drop {text left : List Char} {clean : Prop}
    (lighter : weight left + 8 ≤ weight text) (dirty : ¬ clean) : Settled text left clean := by
  refine ⟨⟨Or.inr (by omega), Or.inr lighter⟩, iff_of_false ?_ dirty⟩
  rintro rfl
  omega

theorem settled_nil {clean : Prop} (holds : clean) : Settled [] [] clean :=
  ⟨Shrinks.refl [], iff_of_true rfl holds⟩

def Settles (stage : List Char → List Char) (clean : List Char → Prop) : Prop :=
  ∀ text, Settled text (stage text) (clean text)

theorem Settles.comp {stage stage' : List Char → List Char} {clean clean' : List Char → Prop}
    (second : Settles stage' clean') (first : Settles stage clean) :
    Settles (stage' ∘ stage) fun text => clean text ∧ clean' text := by
  intro text
  have shrinks := (first text).1
  have shrinks' := (second (stage text)).1
  refine ⟨shrinks.trans shrinks', ?_⟩
  change stage' (stage text) = text ↔ clean text ∧ clean' text
  rw [← (first text).2, ← (second text).2]
  constructor
  · intro fixed
    have same : stage text = text :=
      shrinks.eq (Nat.le_trans (Nat.le_of_eq (congrArg weight fixed).symm) shrinks'.le)
    refine ⟨same, ?_⟩
    rw [← same]
    exact fixed.trans same.symm
  · rintro ⟨same, same'⟩
    rw [same, same']

/-! ## The stages -/

def Unmarked (text : List Char) : Prop := ¬ marks <:+: text

theorem settles_replaceMarks : Settles (replaceMarks []) Unmarked := by
  apply marks_induction
  · exact settled_nil (by simp [Unmarked, marks])
  · intro rest ih
    exact ih.replace marks [] (by decide) (by decide)
      (not_not_intro (List.prefix_append _ _).isInfix)
  · intro c rest unmarked ih
    rw [replaceMarks_cons [] unmarked]
    apply ih.cons c
    rw [Unmarked, List.infix_cons_iff, not_or, and_iff_right unmarked, Unmarked]

def Unreturned (text : List Char) : Prop := '\r' ∉ text

theorem settles_normalizeNewlines : Settles normalizeNewlines Unreturned := by
  intro text
  induction text using normalizeNewlines.induct with
  | case1 rest ih =>
      exact ih.replace ['\r', '\n'] ['\n'] (by decide) (by decide) (by simp [Unreturned])
  | case2 rest alone ih =>
      rw [normalizeNewlines.eq_2 _ alone]
      exact ih.replace ['\r'] ['\n'] (by decide) (by decide) (by simp [Unreturned])
  | case3 c rest _ plain ih =>
      rw [normalizeNewlines_cons plain]
      apply ih.cons c
      rw [Unreturned, List.mem_cons, not_or, and_iff_right (Ne.symm plain), Unreturned]
  | case4 => exact settled_nil (by simp [Unreturned])

/-- No reference that the tokenizer would read, and no character it replaces. -/
def Unread (refs : CharRefs) (text : List Char) : Prop :=
  nul ∉ text ∧ ∀ after, '&' :: after <:+ text → refs.read after = none

theorem unread_cons {refs : CharRefs} {c : Char} {rest : List Char} (other : c ≠ nul)
    (unread : c = '&' → refs.read rest = none) : Unread refs (c :: rest) ↔ Unread refs rest := by
  simp only [Unread, List.mem_cons, not_or, List.suffix_cons_iff, List.cons.injEq]
  constructor
  · rintro ⟨⟨_, fresh⟩, none⟩
    exact ⟨fresh, fun after inside => none after (Or.inr inside)⟩
  · rintro ⟨fresh, none⟩
    refine ⟨⟨other.symm, fresh⟩, ?_⟩
    rintro after (⟨rfl, rfl⟩ | inside)
    · exact unread rfl
    · exact none after inside

/-- What a reference stands for is lighter than the reference. -/
theorem weight_stands {stands used : List Char} (short : stands.length ≤ 2)
    (alone : '&' ∈ stands → stands = ['&']) (nonempty : used ≠ []) :
    weight stands < weight ('&' :: used) := by
  by_cases ampersand : '&' ∈ stands
  · obtain ⟨c, used, rfl⟩ := List.exists_cons_of_ne_nil nonempty
    have pos := charWeight_pos c
    rw [alone ampersand]
    simp only [weight_cons, weight_nil]
    omega
  · have light : ∀ w ∈ stands.map charWeight, w ≤ 100 := by
      simp only [List.mem_map]
      rintro w ⟨c, inside, rfl⟩
      have other : c ≠ '&' := fun same => ampersand (same ▸ inside)
      rw [charWeight, if_neg other]
      split_ifs <;> decide
    have total := List.sum_le_card_nsmul _ _ light
    have heavy : charWeight '&' = 1000 := rfl
    simp only [List.length_map, smul_eq_mul] at total
    simp only [weight_cons, heavy]
    rw [weight]
    omega

theorem settled_decodeFuel (refs : CharRefs) : ∀ (fuel : ℕ) (text : List Char), text.length ≤ fuel →
    Settled text (decodeFuel refs fuel text) (Unread refs text) := by
  intro fuel
  induction fuel with
  | zero =>
      intro text bound
      rw [List.length_eq_zero_iff.mp (Nat.le_zero.mp bound)]
      exact settled_nil (by simp [Unread])
  | succ fuel ih =>
      intro text bound
      cases text with
      | nil => exact settled_nil (by simp [Unread])
      | cons c rest =>
          have shorter : rest.length ≤ fuel := Nat.le_of_succ_le_succ bound
          rw [decodeFuel]
          by_cases ampersand : c = '&'
          · subst ampersand
            rw [if_pos rfl]
            cases read : refs.read rest with
            | none => exact (ih rest shorter).cons _ (unread_cons (by decide) fun _ => read)
            | some result =>
                obtain ⟨stands, left⟩ := result
                obtain ⟨used, nonempty, rfl, bars⟩ := refs.consumes _ _ _ read
                obtain ⟨short, alone⟩ := refs.short _ _ _ read
                have within : left.length ≤ fuel := by
                  rw [List.length_append] at shorter
                  omega
                have dirty : ¬ Unread refs ('&' :: (used ++ left)) := by
                  intro unread
                  have none := unread.2 _ List.suffix_rfl
                  simp [none] at read
                exact (ih left within).replace ('&' :: used) stands
                  (weight_stands short alone nonempty) (by simp [bars]) dirty
          · rw [if_neg ampersand]
            by_cases null : c = nul
            · subst null
              rw [if_pos rfl]
              exact (ih rest shorter).replace [nul] [replacement] (by decide) (by decide)
                fun unread => unread.1 List.mem_cons_self
            · rw [if_neg null]
              exact (ih rest shorter).cons c (unread_cons null fun same => absurd same ampersand)

theorem settles_decode (refs : CharRefs) : Settles (decode refs) (Unread refs) :=
  fun text => settled_decodeFuel refs text.length text (Nat.le_refl _)

def Plain (text : List Char) : Prop :=
  quote ∉ text ∧ ∀ d, (d = '$' ∨ d = '&' ∨ d = backquote) → ¬ ['$', d] <:+: text

theorem not_plain_pattern {d : Char} (sign : d = '$' ∨ d = '&' ∨ d = backquote) (rest : List Char) :
    ¬ Plain ('$' :: d :: rest) :=
  fun plain => plain.2 d sign (List.prefix_append ['$', d] rest).isInfix

theorem plain_cons {c : Char} {rest : List Char} (other : c ≠ quote)
    (unsigned : ∀ d, (d = '$' ∨ d = '&' ∨ d = backquote) → ¬ ['$', d] <+: c :: rest) :
    Plain (c :: rest) ↔ Plain rest := by
  simp only [Plain, List.mem_cons, not_or, List.infix_cons_iff]
  constructor
  · rintro ⟨⟨_, fresh⟩, plain⟩
    exact ⟨fresh, fun d sign => (plain d sign).2⟩
  · rintro ⟨fresh, plain⟩
    exact ⟨⟨other.symm, fresh⟩, fun d sign => ⟨unsigned d sign, plain d sign⟩⟩

/-- The template up to its first quote, which the value ends with after `$` and a back quote. -/
theorem weight_front : weight (front.takeWhile (· ≠ quote)) = 11 := by decide +kernel

/-- The value ends at a quote of its own. -/
theorem settled_quote (rest tail : List Char) :
    Settled (quote :: rest) ((quote :: tail).takeWhile (· ≠ quote)) (Plain (quote :: rest)) := by
  have heavy : charWeight quote = 8 := rfl
  apply Settled.drop
  · simp [heavy]
  · intro plain
    exact plain.1 List.mem_cons_self

/-- A character that starts no pattern stays, or it is the quote that ends the value. -/
theorem settled_ordinary {c : Char} {rest tail : List Char}
    (unsigned : ∀ d, (d = '$' ∨ d = '&' ∨ d = backquote) → ¬ ['$', d] <+: c :: rest)
    (settled : Settled rest (tail.takeWhile (· ≠ quote)) (Plain rest)) :
    Settled (c :: rest) ((c :: tail).takeWhile (· ≠ quote)) (Plain (c :: rest)) := by
  by_cases ends : c = quote
  · subst ends
    exact settled_quote rest tail
  · rw [List.takeWhile_cons_of_pos (by simpa using ends)]
    exact settled.cons c (plain_cons ends unsigned)

theorem settles_cutSubstitution : Settles cutSubstitution Plain := by
  intro text
  unfold cutSubstitution
  have dollar : charWeight '$' = 100 := rfl
  induction text using getSubstitution.induct with
  | case1 => exact settled_nil (by simp [Plain])
  | case2 c =>
      rw [getSubstitution]
      apply settled_ordinary
      · intro d _ starts
        simpa using starts.length_le
      · exact settled_nil (by simp [Plain])
  | case3 c d rest sign ih =>
      obtain ⟨rfl, rfl⟩ := sign
      rw [getSubstitution, if_pos ⟨rfl, rfl⟩, List.takeWhile_cons_of_pos (by decide)]
      exact ih.replace ['$', '$'] ['$'] (by decide) (by decide) (not_plain_pattern (by simp) rest)
  | case4 c d rest _ sign ih =>
      obtain ⟨rfl, rfl⟩ := sign
      rw [getSubstitution, if_neg (by decide), if_pos ⟨rfl, rfl⟩,
        List.takeWhile_append_of_pos (by simp [quote])]
      exact ih.replace ['$', '&'] "???".toList (by decide) (by decide)
        (not_plain_pattern (by simp) rest)
  | case5 c d rest _ _ sign ih =>
      obtain ⟨rfl, rfl⟩ := sign
      rw [getSubstitution, if_neg (by decide), if_neg (by decide), if_pos ⟨rfl, rfl⟩,
        List.append_assoc, List.singleton_append, takeWhile_quote]
      apply Settled.drop
      · rw [weight_front, weight_cons, dollar]
        omega
      · exact not_plain_pattern (by simp) rest
  | case6 c d rest _ _ _ sign ih =>
      obtain ⟨rfl, rfl⟩ := sign
      rw [getSubstitution, if_neg (by decide), if_neg (by decide), if_neg (by decide),
        if_pos ⟨rfl, rfl⟩, List.cons_append, List.takeWhile_cons_of_neg (by simp)]
      apply Settled.drop
      · rw [weight_nil, weight_cons, dollar]
        omega
      · intro plain
        exact plain.1 (by simp)
  | case7 c d rest notDollar notMatch notBefore notAfter ih =>
      rw [getSubstitution, if_neg notDollar, if_neg notMatch, if_neg notBefore, if_neg notAfter]
      refine settled_ordinary (fun e sign starts => ?_) ih
      obtain ⟨tail, same⟩ := starts
      obtain ⟨rfl, rfl, rfl⟩ : '$' = c ∧ e = d ∧ tail = rest := by simpa using same
      rcases sign with rfl | rfl | rfl
      · exact notDollar ⟨rfl, rfl⟩
      · exact notMatch ⟨rfl, rfl⟩
      · exact notBefore ⟨rfl, rfl⟩

/-! ## The track -/

theorem buttonText_eq (id name : List Char) (artists : List (List Char)) :
    buttonText id name artists = ['|'].intercalate [id, name, ['*'].intercalate artists] := by
  simp [buttonText, List.intercalate]

def Separated (name : List Char) (artists : List (List Char)) : Prop :=
  '|' ∉ name ∧ ∀ artist ∈ artists, '|' ∉ artist ∧ '*' ∉ artist

theorem parseTrack_buttonText {id name : List Char} {artists : List (List Char)}
    (bare : '|' ∉ id) (nonempty : artists ≠ []) (separated : Separated name artists) :
    parseTrack (buttonText id name artists) = ⟨id, some name, artists⟩ := by
  have joined : '|' ∉ ['*'].intercalate artists :=
    (notMem_intercalate (by decide)).mpr fun artist inside => (separated.2 artist inside).1
  have pieces : (buttonText id name artists).splitOn '|' = [id, name, ['*'].intercalate artists] := by
    rw [buttonText_eq]
    apply List.splitOn_intercalate
    · simp [bare, separated.1, joined]
    · simp
  have names : (['*'].intercalate artists).splitOn '*' = artists :=
    List.splitOn_intercalate '*' (fun artist inside => (separated.2 artist inside).2) nonempty
  simp [parseTrack, pieces, names]

/-- What a text is that parses as a track: without artists, or the text of the
track, perhaps followed by more. -/
theorem text_of_parseTrack {text id name : List Char} {artists : List (List Char)}
    (parsed : parseTrack text = ⟨id, some name, artists⟩) :
    '|' ∉ name ∧ ((artists = ["Artist".toList] ∧ text = id ++ '|' :: name) ∨
      (Separated name artists ∧ ∃ rest, text = buttonText id name artists ++ rest)) := by
  have pieces : ['|'].intercalate (text.splitOn '|') = text := List.intercalate_splitOn '|'
  have bars : ∀ piece ∈ text.splitOn '|', '|' ∉ piece := notMem_of_mem_splitOn
  unfold parseTrack at parsed
  revert parsed pieces bars
  generalize text.splitOn '|' = trackData
  intro parsed pieces bars
  obtain ⟨first, second, third⟩ := ParsedTrack.mk.inj parsed
  rcases trackData with _ | ⟨p, _ | ⟨q, _ | ⟨r, more⟩⟩⟩
  · simp at second
  · simp at second
  · obtain ⟨rfl, rfl⟩ : p = id ∧ q = name := ⟨first, Option.some.inj second⟩
    refine ⟨bars q (by simp), Or.inl ⟨third.symm, ?_⟩⟩
    rw [← pieces]
    simp [List.intercalate]
  · obtain ⟨rfl, rfl⟩ : p = id ∧ q = name := ⟨first, Option.some.inj second⟩
    obtain rfl : r.splitOn '*' = artists := third
    have joined : '|' ∉ ['*'].intercalate (r.splitOn '*') := by
      rw [List.intercalate_splitOn]
      exact bars r (by simp)
    refine ⟨bars q (by simp), Or.inr ⟨⟨bars q (by simp), ?_⟩, ?_⟩⟩
    · intro artist inside
      exact ⟨(notMem_intercalate (by decide)).mp joined artist inside,
        notMem_of_mem_splitOn artist inside⟩
    · obtain ⟨rest, follows⟩ : ∃ rest, ['|'].intercalate (r :: more) = r ++ rest := by
        cases more with
        | nil => exact ⟨[], by simp⟩
        | cons next more => exact ⟨_, List.intercalate_cons_cons.trans (List.append_assoc _ _ _)⟩
      refine ⟨rest, ?_⟩
      rw [← pieces, List.intercalate_cons_cons, List.intercalate_cons_cons, follows, buttonText,
        List.intercalate_splitOn]
      simp

def Clean (refs : CharRefs) (text : List Char) : Prop :=
  Plain text ∧ Unmarked text ∧ Unreturned text ∧ Unread refs text

theorem settled_attrValue (refs : CharRefs) (text : List Char) :
    Settled text (attrValue refs (playButton text [])) (Clean refs text) := by
  have stages := ((settles_decode refs).comp settles_normalizeNewlines).comp
    (settles_replaceMarks.comp settles_cutSubstitution)
  rw [attrValue_button]
  obtain ⟨shrinks, fixed⟩ := stages text
  refine ⟨shrinks, fixed.trans ?_⟩
  simp only [Clean, and_assoc]

/-- The track comes back from its button exactly if no name has a separator and no
stage on the way finds anything to change. -/
theorem parseTrack_button_iff (refs : CharRefs) (id name : List Char) (artists : List (List Char))
    (bare : ∀ c ∈ id, c.isAlphanum ∨ c = '-' ∨ c = '_') (nonempty : artists ≠ []) :
    parseTrack (attrValue refs (playButton (buttonText id name artists) [])) =
        ⟨id, some name, artists⟩ ↔
      Separated name artists ∧ Clean refs (buttonText id name artists) := by
  have noBar : '|' ∉ id := fun inside => by simpa using bare _ inside
  obtain ⟨shrinks, fixed⟩ := settled_attrValue refs (buttonText id name artists)
  constructor
  · intro parsed
    obtain ⟨nameBar, ⟨rfl, short⟩ | ⟨separated, rest, longer⟩⟩ := text_of_parseTrack parsed
    · -- The artist list cannot be lost: the bar before it outlasts every stage.
      exfalso
      rw [short] at shrinks
      have artist : weight "Artist".toList = 6 := rfl
      have bar : charWeight '|' = 1 := rfl
      rcases shrinks.2 with kept | lost
      · have none : id.count '|' = 0 := List.count_eq_zero.mpr noBar
        have none' : name.count '|' = 0 := List.count_eq_zero.mpr nameBar
        simp [buttonText, none, none'] at kept
      · simp only [buttonText, List.intercalate_singleton, weight_append, weight_cons, bar,
          artist] at lost
        omega
    · refine ⟨separated, fixed.mp (shrinks.eq ?_)⟩
      rw [longer, weight_append]
      exact Nat.le_add_right _ _
  · rintro ⟨separated, clean⟩
    rw [fixed.mpr clean]
    exact parseTrack_buttonText noBar nonempty separated

def ampRefs : CharRefs where
  read text := if "amp;".toList <+: text then some (['&'], text.drop 4) else none
  consumes := by
    intro text stands rest read
    obtain ⟨⟨tail, rfl⟩, same⟩ := Option.ite_none_right_eq_some.mp read
    obtain ⟨rfl, rfl⟩ := Prod.mk.inj (Option.some.inj same)
    exact ⟨"amp;".toList, by decide, by simp, by decide⟩
  short := by
    intro text stands rest read
    obtain ⟨_, same⟩ := Option.ite_none_right_eq_some.mp read
    obtain ⟨rfl, rfl⟩ := Prod.mk.inj (Option.some.inj same)
    simp

theorem parseTrack_button_ampersand :
    parseTrack (attrValue ampRefs (playButton (buttonText "a-1".toList "R&B".toList
      ["A".toList, "C".toList]) [])) = ⟨"a-1".toList, some "R&B".toList, ["A".toList, "C".toList]⟩ := by
  apply (parseTrack_button_iff ampRefs _ _ _ (by simp) (by simp)).mpr
  constructor
  · unfold Separated
    decide
  · apply (settled_attrValue ampRefs _).2.mp
    rw [attrValue_button]
    decide +kernel

/-- A quote in the name ends the attribute. -/
theorem parseTrack_button_quote :
    parseTrack (attrValue ampRefs (playButton (buttonText "abc".toList
      ("Don".toList ++ quote :: "t".toList) ["A".toList]) [])) ≠
        ⟨"abc".toList, some ("Don".toList ++ quote :: "t".toList), ["A".toList]⟩ := by
  rw [attrValue_button]
  decide +kernel

end Phonograph.Client.TrackButton
