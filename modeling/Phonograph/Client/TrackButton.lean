import Mathlib.Data.List.Infix
import Mathlib.Data.List.TakeWhile

/-! # The play button of a track

`performRequests` puts a track into the `value` attribute of a button and
`parseTrack` reads it back.  On the way the text passes through JavaScript's
`String.replace`, which gives a meaning to `$`, the removal of the `&&&`
placeholder, and the HTML parser, which ends the attribute at the next single
quote and reads character references.  `attrValue_button` says what is left:
the four stages, one after the other. -/

set_option autoImplicit false

namespace Phonograph.Client.TrackButton

def quote : Char := Char.ofNat 39
def backquote : Char := Char.ofNat 96
def nul : Char := Char.ofNat 0
def replacement : Char := Char.ofNat 0xFFFD

def front : List Char :=
  "<div class='btn-group'> <button type='button' class='btn btn-info btn-play playNowButton' &&& value=".toList

def back : List Char :=
  "><i class='fa fa-play-circle fa-lg'></i></button> <button type='button' class='btn btn-info btn-play dropdown-toggle' &&& data-toggle='dropdown' aria-expanded='false'> <span class='caret'></span> <span class='sr-only'>Toggle Play Dropdown</span> </button> <ul class='dropdown-menu pull-right' role='menu'> <li><a href='#' class='drop-down-play-now'>Play Now</a></li> <li><a href='#' class='drop-down-play-next'>Play Next</a></li> <li><a href='#' class='drop-down-add-to-playlist'>Add to Playlist</a></li></ul> </div>".toList

def playInTable : List Char := front ++ quote :: ("???".toList ++ quote :: back)

/-! ## JavaScript -/

def findFirst (pattern : List Char) : List Char → Option (List Char × List Char)
  | [] => if pattern = [] then some ([], []) else none
  | c :: rest =>
      if pattern.isPrefixOf (c :: rest) then some ([], (c :: rest).drop pattern.length)
      else (findFirst pattern rest).map fun parts => (c :: parts.1, parts.2)

/-- The replacement text of `replace` with a string pattern: `$$`, `$&` and `$` with
a back quote or a quote stand for a dollar sign, the match and the text on
either side of it. -/
def getSubstitution (matched before after : List Char) : List Char → List Char
  | [] => []
  | [c] => [c]
  | c :: d :: rest =>
      if c = '$' ∧ d = '$' then '$' :: getSubstitution matched before after rest
      else if c = '$' ∧ d = '&' then matched ++ getSubstitution matched before after rest
      else if c = '$' ∧ d = backquote then before ++ getSubstitution matched before after rest
      else if c = '$' ∧ d = quote then after ++ getSubstitution matched before after rest
      else c :: getSubstitution matched before after (d :: rest)

/-- `text.replace(pattern, value)`. -/
def replaceFirst (pattern value text : List Char) : List Char :=
  match findFirst pattern text with
  | some (before, after) => before ++ getSubstitution pattern before after value ++ after
  | none => text

/-- `text.replace(/&&&/g, mark)`. -/
def replaceMarks (mark : List Char) : List Char → List Char
  | '&' :: '&' :: '&' :: rest => mark ++ replaceMarks mark rest
  | c :: rest => c :: replaceMarks mark rest
  | [] => []

/-- `playInTable.replace("???", value)`, then `.replace(/&&&/g, mark)`. -/
def playButton (value mark : List Char) : List Char :=
  replaceMarks mark (replaceFirst "???".toList value playInTable)

/-- `id + "|" + name + "|" + artists.join("*")`. -/
def buttonText (id name : List Char) (artists : List (List Char)) : List Char :=
  id ++ '|' :: (name ++ '|' :: ['*'].intercalate artists)

structure ParsedTrack where
  youtubeId : List Char
  name : Option (List Char)
  artists : List (List Char)
  deriving DecidableEq

/-- The name of a text without a bar is `undefined`. -/
def parseTrack (s : List Char) : ParsedTrack :=
  let trackData := s.splitOn '|'
  { youtubeId := trackData.headD []
    name := trackData[1]?
    artists := ((trackData[2]?).getD "Artist".toList).splitOn '*' }

/-! ## HTML -/

/-- The character references of HTML.  `read` is given what follows an ampersand in
an attribute, up to the end of the attribute, and returns what the reference
there stands for and the text after it.  A reference has at least one character
and no bar, and stands for one or two characters; `&` occurs alone. -/
structure CharRefs where
  read : List Char → Option (List Char × List Char)
  consumes : ∀ text stands rest, read text = some (stands, rest) →
    ∃ used, used ≠ [] ∧ text = used ++ rest ∧ '|' ∉ used
  short : ∀ text stands rest, read text = some (stands, rest) →
    stands.length ≤ 2 ∧ ('&' ∈ stands → stands = ['&'])

/-- The preprocessing of the input: every line break becomes a line feed. -/
def normalizeNewlines : List Char → List Char
  | '\r' :: '\n' :: rest => '\n' :: normalizeNewlines rest
  | '\r' :: rest => '\n' :: normalizeNewlines rest
  | c :: rest => c :: normalizeNewlines rest
  | [] => []

/-- The attribute value states of the tokenizer; `fuel` bounds the characters left. -/
def decodeFuel (refs : CharRefs) : ℕ → List Char → List Char
  | 0, _ => []
  | _ + 1, [] => []
  | fuel + 1, c :: rest =>
      if c = '&' then
        match refs.read rest with
        | some (stands, left) => stands ++ decodeFuel refs fuel left
        | none => '&' :: decodeFuel refs fuel rest
      else (if c = nul then replacement else c) :: decodeFuel refs fuel rest

def decode (refs : CharRefs) (text : List Char) : List Char := decodeFuel refs text.length text

def attrValue (refs : CharRefs) (html : List Char) : List Char :=
  match findFirst ("value=".toList ++ [quote]) (normalizeNewlines html) with
  | some (_, rest) => decode refs (rest.takeWhile (· ≠ quote))
  | none => []

/-! ## What is left of the text -/

def cutSubstitution (text : List Char) : List Char :=
  (getSubstitution "???".toList (front ++ [quote]) (quote :: back) text).takeWhile (· ≠ quote)

theorem findFirst_append {pattern : List Char} : ∀ {xs before after : List Char} (ys : List Char),
    findFirst pattern xs = some (before, after) →
    findFirst pattern (xs ++ ys) = some (before, after ++ ys) ∧ pattern.length ≤ xs.length := by
  intro xs
  induction xs with
  | nil =>
      intro before after ys found
      by_cases empty : pattern = []
      · obtain ⟨rfl, rfl⟩ : before = [] ∧ after = [] := by
          simpa [findFirst, empty, eq_comm] using found
        cases ys <;> simp [findFirst, empty]
      · simp [findFirst, empty] at found
  | cons c rest ih =>
      intro before after ys found
      rw [findFirst] at found
      rw [List.cons_append, findFirst, ← List.cons_append]
      by_cases here : pattern <+: c :: rest
      · have whole : pattern <+: c :: rest ++ ys := here.trans (List.prefix_append _ _)
        rw [if_pos (List.isPrefixOf_iff_prefix.mpr here)] at found
        obtain ⟨rfl, rfl⟩ := Prod.mk.inj (Option.some.inj found)
        rw [if_pos (List.isPrefixOf_iff_prefix.mpr whole),
          List.drop_append_of_le_length here.length_le]
        exact ⟨rfl, here.length_le⟩
      · rw [if_neg (mt List.isPrefixOf_iff_prefix.mp here), Option.map_eq_some_iff] at found
        obtain ⟨parts, later, same⟩ := found
        obtain ⟨rfl, rfl⟩ := Prod.mk.inj same
        obtain ⟨longer, fits⟩ := ih ys later
        have room : pattern.length ≤ (c :: rest).length := Nat.le_succ_of_le fits
        -- The pattern is found further on, so it fits into the text without `ys`.
        have still : ¬ pattern <+: c :: rest ++ ys := fun starts =>
          here (List.prefix_of_prefix_length_le starts (List.prefix_append _ _) room)
        rw [if_neg (mt List.isPrefixOf_iff_prefix.mp still), longer]
        exact ⟨rfl, room⟩

theorem eq_of_findFirst {pattern : List Char} : ∀ {text before after : List Char},
    findFirst pattern text = some (before, after) → text = before ++ (pattern ++ after) := by
  intro text
  induction text with
  | nil =>
      intro before after found
      by_cases empty : pattern = []
      · obtain ⟨rfl, rfl⟩ : before = [] ∧ after = [] := by
          simpa [findFirst, empty, eq_comm] using found
        simp [empty]
      · simp [findFirst, empty] at found
  | cons c rest ih =>
      intro before after found
      rw [findFirst] at found
      by_cases here : pattern <+: c :: rest
      · rw [if_pos (List.isPrefixOf_iff_prefix.mpr here)] at found
        obtain ⟨rfl, rfl⟩ := Prod.mk.inj (Option.some.inj found)
        obtain ⟨tail, whole⟩ := here
        rw [← whole, List.drop_left, List.nil_append]
      · rw [if_neg (mt List.isPrefixOf_iff_prefix.mp here), Option.map_eq_some_iff] at found
        obtain ⟨parts, later, same⟩ := found
        obtain ⟨rfl, rfl⟩ := Prod.mk.inj same
        rw [List.cons_append, ← ih later]

theorem replaceFirst_nil_sublist (pattern text : List Char) :
    (replaceFirst pattern [] text).Sublist text := by
  unfold replaceFirst
  split
  · rename_i before after found
    rw [eq_of_findFirst found, getSubstitution, List.append_nil]
    exact (List.Sublist.refl before).append (List.sublist_append_right pattern after)
  · exact List.Sublist.refl text

theorem findFirst_of_notMem (p : Char) (ps xs ys : List Char) (fresh : p ∉ xs) :
    findFirst (p :: ps) (xs ++ (p :: ps ++ ys)) = some (xs, ys) := by
  induction xs with
  | nil =>
      have here : p :: ps <+: p :: (ps ++ ys) := List.prefix_append (p :: ps) ys
      rw [List.nil_append, List.cons_append, findFirst,
        if_pos (List.isPrefixOf_iff_prefix.mpr here)]
      simp
  | cons c xs ih =>
      have later : ¬ p :: ps <+: c :: (xs ++ (p :: ps ++ ys)) := by
        rintro ⟨tail, same⟩
        exact fresh ((List.cons.inj same).1 ▸ List.mem_cons_self)
      rw [List.cons_append, findFirst, if_neg (mt List.isPrefixOf_iff_prefix.mp later),
        ih fun inside => fresh (List.mem_cons_of_mem _ inside)]
      rfl

theorem findFirst_template :
    findFirst "???".toList playInTable = some (front ++ [quote], quote :: back) := by
  have fresh : '?' ∉ front ++ [quote] := by decide +kernel
  have found := findFirst_of_notMem '?' ['?', '?'] (front ++ [quote]) (quote :: back) fresh
  rw [List.append_assoc] at found
  exact found

def marks : List Char := ['&', '&', '&']

theorem replaceMarks_cons (mark : List Char) {c : Char} {rest : List Char}
    (other : ¬ marks <+: c :: rest) :
    replaceMarks mark (c :: rest) = c :: replaceMarks mark rest := by
  apply replaceMarks.eq_2
  rintro tail rfl rfl
  exact other (List.prefix_append marks tail)

theorem replaceMarks_marks (mark rest : List Char) :
    replaceMarks mark (marks ++ rest) = mark ++ replaceMarks mark rest := rfl

theorem marks_induction {motive : List Char → Prop} (nil : motive [])
    (marked : ∀ rest, motive rest → motive (marks ++ rest))
    (plain : ∀ c rest, ¬ marks <+: c :: rest → motive rest → motive (c :: rest)) :
    ∀ text, motive text := by
  intro text
  induction text using replaceMarks.induct with
  | case1 rest ih => exact marked rest ih
  | case2 c rest other ih =>
      refine plain c rest ?_ ih
      rintro ⟨tail, same⟩
      obtain ⟨rfl, rfl⟩ : '&' = c ∧ '&' :: '&' :: tail = rest := by simpa [marks] using same
      exact other tail rfl rfl
  | case3 => exact nil

theorem replaceMarks_append (mark : List Char) {c : Char} (other : c ≠ '&') (ys : List Char) :
    ∀ xs, replaceMarks mark (xs ++ c :: ys) = replaceMarks mark xs ++ c :: replaceMarks mark ys := by
  have alone : ∀ ys, ¬ marks <+: c :: ys := by
    rintro ys ⟨tail, same⟩
    exact other (List.cons.inj same).1.symm
  apply marks_induction
  · exact replaceMarks_cons mark (alone ys)
  · intro rest ih
    rw [List.append_assoc, replaceMarks_marks, replaceMarks_marks, ih, List.append_assoc]
  · intro d rest unmarked ih
    have still : ¬ marks <+: d :: (rest ++ c :: ys) := by
      rcases rest with _ | ⟨x, _ | ⟨y, rest⟩⟩
      · simp [marks, other.symm]
      · simp [marks, other.symm]
      · simpa [marks] using unmarked
    rw [List.cons_append, replaceMarks_cons mark still, replaceMarks_cons mark unmarked, ih,
      List.cons_append]

theorem normalizeNewlines_cons {c : Char} (other : c ≠ '\r') (rest : List Char) :
    normalizeNewlines (c :: rest) = c :: normalizeNewlines rest := by
  apply normalizeNewlines.eq_3
  · rintro tail rfl
    exact absurd rfl other
  · exact other

theorem normalizeNewlines_append {c : Char} (other : c ≠ '\n') (other' : c ≠ '\r')
    (ys : List Char) :
    ∀ xs, normalizeNewlines (xs ++ c :: ys) = normalizeNewlines xs ++ c :: normalizeNewlines ys := by
  intro xs
  induction xs using normalizeNewlines.induct with
  | case1 rest ih => simp [normalizeNewlines, ih]
  | case2 rest alone ih =>
      have alone' : ∀ tail, rest ++ c :: ys = '\n' :: tail → False := by
        intro tail same
        cases rest with
        | nil => exact other (List.cons.inj same).1
        | cons d rest => exact alone rest ((List.cons.inj same).1 ▸ rfl)
      rw [List.cons_append, normalizeNewlines.eq_2 _ alone', normalizeNewlines.eq_2 _ alone, ih,
        List.cons_append]
  | case3 d rest _ plain ih =>
      rw [List.cons_append, normalizeNewlines_cons plain, normalizeNewlines_cons plain, ih,
        List.cons_append]
  | case4 => exact normalizeNewlines_cons other' ys

theorem mem_of_mem_replaceMarks {c : Char} :
    ∀ {text : List Char}, c ∈ replaceMarks [] text → c ∈ text := by
  apply marks_induction
  · exact id
  · intro rest ih inside
    exact List.mem_append_right marks (ih inside)
  · intro d rest unmarked ih inside
    rw [replaceMarks_cons [] unmarked] at inside
    exact List.mem_cons.mpr ((List.mem_cons.mp inside).imp_right ih)

theorem mem_of_mem_normalizeNewlines {c : Char} (other : c ≠ '\n') {text : List Char} :
    c ∈ normalizeNewlines text → c ∈ text := by
  induction text using normalizeNewlines.induct with
  | case1 rest ih =>
      intro inside
      simp [normalizeNewlines, other] at inside
      simp [ih inside]
  | case2 rest alone ih =>
      intro inside
      rw [normalizeNewlines.eq_2 _ alone, List.mem_cons] at inside
      exact List.mem_cons_of_mem _ (ih (inside.resolve_left other))
  | case3 d rest _ plain ih =>
      intro inside
      rw [normalizeNewlines_cons plain] at inside
      exact List.mem_cons.mpr ((List.mem_cons.mp inside).imp_right ih)
  | case4 => exact id

theorem takeWhile_of_notMem {text : List Char} (fresh : quote ∉ text) :
    text.takeWhile (· ≠ quote) = text := by
  apply List.takeWhile_eq_self_iff.mpr
  intro c inside
  exact decide_eq_true fun same => fresh (same ▸ inside)

theorem takeWhile_quote (text rest : List Char) :
    (text ++ quote :: rest).takeWhile (· ≠ quote) = text.takeWhile (· ≠ quote) := by
  induction text with
  | nil => simp
  | cons c text ih => rw [List.cons_append, List.takeWhile_cons, List.takeWhile_cons, ih]

/-- A stage that treats the text on the two sides of a quote apart may be done after
the text is cut at its first quote. -/
theorem takeWhile_stage (stage : List Char → List Char)
    (apart : ∀ xs ys, stage (xs ++ quote :: ys) = stage xs ++ quote :: stage ys)
    (keeps : ∀ xs, quote ∉ xs → quote ∉ stage xs) (text : List Char) :
    (stage text).takeWhile (· ≠ quote) = stage (text.takeWhile (· ≠ quote)) := by
  by_cases inside : quote ∈ text
  · obtain ⟨before, after, rfl, fresh⟩ := List.eq_append_cons_of_mem inside
    rw [apart, takeWhile_quote, takeWhile_quote, takeWhile_of_notMem fresh,
      takeWhile_of_notMem (keeps before fresh)]
  · rw [takeWhile_of_notMem inside, takeWhile_of_notMem (keeps text inside)]

def cleaned (text : List Char) : List Char := normalizeNewlines (replaceMarks [] text)

theorem cleaned_quote (xs ys : List Char) :
    cleaned (xs ++ quote :: ys) = cleaned xs ++ quote :: cleaned ys := by
  rw [cleaned, replaceMarks_append [] (by decide), normalizeNewlines_append (by decide) (by decide)]
  rfl

theorem quote_notMem_cleaned (text : List Char) (fresh : quote ∉ text) : quote ∉ cleaned text :=
  fun inside => fresh (mem_of_mem_replaceMarks (mem_of_mem_normalizeNewlines (by decide) inside))

/-- The attribute opens where the template says. -/
theorem findFirst_value :
    (findFirst ("value=".toList ++ [quote]) (cleaned front ++ [quote])).map Prod.snd = some [] := by
  decide +kernel

theorem cleaned_button (text : List Char) :
    normalizeNewlines (playButton text []) = (cleaned front ++ [quote]) ++
      (cleaned (getSubstitution "???".toList (front ++ [quote]) (quote :: back) text) ++
        quote :: cleaned back) := by
  rw [playButton, replaceFirst, findFirst_template]
  change cleaned _ = _
  simp only [List.append_assoc, List.cons_append, List.nil_append, cleaned_quote]

theorem attrValue_button (refs : CharRefs) (text : List Char) :
    attrValue refs (playButton text []) = decode refs (cleaned (cutSubstitution text)) := by
  obtain ⟨⟨before, after⟩, found, rfl⟩ := Option.map_eq_some_iff.mp findFirst_value
  rw [attrValue, cleaned_button, (findFirst_append _ found).1]
  simp only [List.nil_append]
  rw [takeWhile_quote, takeWhile_stage cleaned cleaned_quote quote_notMem_cleaned, cutSubstitution]

end Phonograph.Client.TrackButton
