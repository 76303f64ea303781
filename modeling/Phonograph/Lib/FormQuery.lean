import Mathlib

/-! # Query strings

What a browser sends of an address, and what a server reads from the query of
it: fields split at `&` and `=`, `+` for a space, `%` and two hexadecimal digits
for a byte, bytes as UTF-8.  `received_eq_iff` says which texts arrive as they
are when nothing escapes them first. -/

set_option autoImplicit false

namespace Phonograph.Lib.FormQuery

/-! ## UTF-8 -/

def replacement : Char := Char.ofNat 0xFFFD

/-- `bytes.decode('utf-8', 'replace')` without its first `skip` bytes.  Every byte that starts
no character gives a marker of its own. -/
def decodeFrom : ℕ → List UInt8 → List Char
  | _, [] => []
  | skip + 1, _ :: bytes => decodeFrom skip bytes
  | 0, byte :: bytes =>
      match (byte :: bytes).toByteArray.utf8DecodeChar? 0 with
      | some c => c :: decodeFrom (c.utf8Size - 1) bytes
      | none => replacement :: decodeFrom 0 bytes

def decode (bytes : List UInt8) : List Char := decodeFrom 0 bytes

theorem decodeFrom_append (skipped bytes : List UInt8) :
    decodeFrom skipped.length (skipped ++ bytes) = decode bytes := by
  induction skipped with
  | nil => rfl
  | cons byte skipped ih => exact ih

/-- A character is read back, whatever bytes come after it. -/
theorem decode_encode_append (c : Char) (bytes : List UInt8) :
    decode (String.utf8EncodeChar c ++ bytes) = c :: decode bytes := by
  have first : (String.utf8EncodeChar c ++ bytes).toByteArray.utf8DecodeChar? 0 = some c := by
    rw [List.toByteArray_append]
    exact ByteArray.utf8DecodeChar?_utf8EncodeChar_append
  have size := String.length_utf8EncodeChar c
  cases shape : String.utf8EncodeChar c with
  | nil => exact absurd shape String.utf8EncodeChar_ne_nil
  | cons byte rest =>
      rw [shape, List.cons_append] at first
      rw [shape, List.length_cons] at size
      have skip : c.utf8Size - 1 = rest.length := by omega
      rw [decode, List.cons_append, decodeFrom, first]
      simp only [skip, decodeFrom_append]

theorem count_percent_decodeFrom (bytes : List UInt8) :
    ∀ skip, (decodeFrom skip bytes).count '%' ≤ bytes.count 37 := by
  induction bytes with
  | nil =>
      intro skip
      simp [decodeFrom]
  | cons byte bytes ih =>
      intro skip
      cases skip with
      | succ skip => exact Nat.le_trans (ih skip) List.count_le_count_cons
      | zero =>
          rw [decodeFrom]
          split
          · rename_i c found
            by_cases percent : c = '%'
            · -- Only the byte 37 starts that character.
              subst percent
              obtain ⟨rest, whole⟩ := ByteArray.exists_of_utf8DecodeChar?_eq_some found
              have byteIs : byte = 37 := by
                have lists := congrArg (fun bytes => bytes.data.toList) whole
                simp only [List.toList_data_toByteArray, ByteArray.data_append,
                  Array.toList_append] at lists
                exact (List.cons.inj lists).1
              rw [byteIs, List.count_cons_self, List.count_cons_self]
              exact Nat.add_le_add_right (ih _) 1
            · rw [List.count_cons_of_ne percent]
              exact Nat.le_trans (ih _) List.count_le_count_cons
          · rw [List.count_cons_of_ne (by decide)]
            exact Nat.le_trans (ih 0) List.count_le_count_cons

/-! ## Percent signs -/

def hexValue (c : Char) : Option ℕ :=
  if c.isDigit then some (c.toNat - '0'.toNat)
  else if 'a' ≤ c ∧ c ≤ 'f' then some (c.toNat - 'a'.toNat + 10)
  else if 'A' ≤ c ∧ c ≤ 'F' then some (c.toNat - 'A'.toNat + 10)
  else none

def escapeAt : List Char → Option UInt8
  | '%' :: high :: low :: _ => do
      let m ← hexValue high
      let n ← hexValue low
      return UInt8.ofNat (16 * m + n)
  | _ => none

/-- The bytes of a text with its escapes replaced.  A percent sign that starts no escape
stands for itself. -/
def unquote : List Char → List UInt8
  | c :: high :: low :: text =>
      match escapeAt (c :: high :: low :: text) with
      | some byte => byte :: unquote text
      | none => String.utf8EncodeChar c ++ unquote (high :: low :: text)
  | c :: text => String.utf8EncodeChar c ++ unquote text
  | [] => []

theorem unquote_cons {c : Char} {text : List Char} (plain : escapeAt (c :: text) = none) :
    unquote (c :: text) = String.utf8EncodeChar c ++ unquote text := by
  match text with
  | [] => rfl
  | [_] => rfl
  | high :: low :: text => rw [unquote, plain]

theorem unquote_escape {c high low : Char} {text : List Char} {byte : UInt8}
    (escape : escapeAt (c :: high :: low :: text) = some byte) :
    unquote (c :: high :: low :: text) = byte :: unquote text := by
  rw [unquote, escape]

theorem escapeAt_eq_some {text : List Char} {byte : UInt8} (escape : escapeAt text = some byte) :
    ∃ high low rest m n, text = '%' :: high :: low :: rest ∧ hexValue high = some m ∧
      hexValue low = some n ∧ byte = UInt8.ofNat (16 * m + n) := by
  unfold escapeAt at escape
  split at escape
  · rename_i high low rest
    obtain ⟨m, ofHigh, escape⟩ := Option.bind_eq_some_iff.mp escape
    obtain ⟨n, ofLow, escape⟩ := Option.bind_eq_some_iff.mp escape
    exact ⟨high, low, rest, m, n, rfl, ofHigh, ofLow, (Option.some.inj escape).symm⟩
  · cases escape

theorem hexValue_ne_percent {c : Char} {n : ℕ} (hex : hexValue c = some n) : c ≠ '%' := by
  intro percent
  rw [percent, show hexValue '%' = none from by decide] at hex
  cases hex

/-- A text is empty, starts with an escape, or starts with a character that stands for
itself. -/
theorem unquote_induction {motive : List Char → Prop} (nil : motive [])
    (escape : ∀ high low text byte, escapeAt ('%' :: high :: low :: text) = some byte →
      motive text → motive ('%' :: high :: low :: text))
    (plain : ∀ c text, escapeAt (c :: text) = none → motive text → motive (c :: text))
    (text : List Char) : motive text := by
  induction length : text.length using Nat.strong_induction_on generalizing text with
  | _ n ih =>
      cases text with
      | nil => exact nil
      | cons c text =>
          cases found : escapeAt (c :: text) with
          | none => exact plain c text found (ih text.length (by simp [← length]) text rfl)
          | some byte =>
              obtain ⟨high, low, rest, m, k, shape, _, _, _⟩ := escapeAt_eq_some found
              rw [shape] at found length ⊢
              have less : rest.length < n := by
                simp only [List.length_cons] at length
                omega
              exact escape high low rest byte found (ih rest.length less rest rfl)

def Escapes (text : List Char) : Prop := ∃ suffix ∈ text.tails, (escapeAt suffix).isSome

instance (text : List Char) : Decidable (Escapes text) :=
  inferInstanceAs (Decidable (∃ suffix ∈ text.tails, (escapeAt suffix).isSome))

theorem escapes_cons {c : Char} {text : List Char} :
    Escapes (c :: text) ↔ (escapeAt (c :: text)).isSome ∨ Escapes text := by
  simp [Escapes]

theorem decode_unquote {text : List Char} (plain : ¬ Escapes text) :
    decode (unquote text) = text := by
  induction text with
  | nil => rfl
  | cons c text ih =>
      rw [escapes_cons, not_or] at plain
      have first : escapeAt (c :: text) = none := by simpa using plain.1
      rw [unquote_cons first, decode_encode_append, ih plain.2]

theorem ofNat_ne_percent {n : ℕ} (low : 128 ≤ n) (high : n < 256) : UInt8.ofNat n ≠ 37 := by
  intro same
  have value := congrArg UInt8.toNat same
  rw [UInt8.toNat_ofNat', Nat.mod_eq_of_lt high] at value
  exact absurd value (by change n ≠ 37; omega)

theorem count_utf8 (c : Char) : (String.utf8EncodeChar c).count 37 = if c = '%' then 1 else 0 := by
  by_cases percent : c = '%'
  · subst percent
    decide
  · rw [if_neg percent, List.count_eq_zero]
    intro member
    simp only [String.utf8EncodeChar] at member
    split_ifs at member with one two three
    · have same := List.mem_singleton.mp member
      have value := congrArg UInt8.toNat same
      rw [UInt8.toNat_ofNat', Nat.mod_eq_of_lt (by omega)] at value
      exact percent (Char.toNat_inj.mp value.symm)
    · simp only [List.mem_cons, List.not_mem_nil, or_false] at member
      rcases member with same | same <;>
        exact ofNat_ne_percent (by omega) (by omega) same.symm
    · simp only [List.mem_cons, List.not_mem_nil, or_false] at member
      rcases member with same | same | same <;>
        exact ofNat_ne_percent (by omega) (by omega) same.symm
    · simp only [List.mem_cons, List.not_mem_nil, or_false] at member
      rcases member with same | same | same | same <;>
        exact ofNat_ne_percent (by omega) (by omega) same.symm

theorem count_unquote (text : List Char) : (unquote text).count 37 ≤ text.count '%' := by
  induction text using unquote_induction with
  | nil => exact Nat.le_refl _
  | escape high low text byte found ih =>
      rw [unquote_escape found, List.count_cons_self]
      have tail : text.count '%' ≤ (high :: low :: text).count '%' :=
        (List.sublist_cons_self low text |>.trans (List.sublist_cons_self high _)).count_le _
      have head : (byte :: unquote text).count 37 ≤ (unquote text).count 37 + 1 := by
        rw [List.count_cons]
        split_ifs <;> omega
      omega
  | plain c text found ih =>
      rw [unquote_cons found, List.count_append, count_utf8, List.count_cons]
      simp only [beq_iff_eq]
      omega

/-- A text that keeps all its percent signs gets no longer, and shorter if it has an
escape. -/
theorem length_decode_unquote (text : List Char)
    (kept : text.count '%' ≤ (decode (unquote text)).count '%') :
    (decode (unquote text)).length ≤ text.length ∧
      (Escapes text → (decode (unquote text)).length < text.length) := by
  induction text using unquote_induction with
  | nil =>
      constructor
      · exact Nat.le_refl _
      · intro escapes
        exact absurd escapes (by decide)
  | escape high low text byte found ih =>
      have tail : text.count '%' ≤ (high :: low :: text).count '%' :=
        (List.sublist_cons_self low text |>.trans (List.sublist_cons_self high _)).count_le _
      rw [unquote_escape found] at kept ⊢
      rw [List.count_cons_self] at kept
      by_cases percent : byte = 37
      · have read : decode (byte :: unquote text) = '%' :: decode (unquote text) := by
          rw [percent]
          exact decode_encode_append '%' (unquote text)
        rw [read, List.count_cons_self] at kept
        have bound := (ih (by omega)).1
        rw [read]
        simp only [List.length_cons]
        omega
      · -- The escape has used up a percent sign.
        have bytes := count_percent_decodeFrom (byte :: unquote text) 0
        rw [List.count_cons_of_ne percent] at bytes
        have used := count_unquote text
        rw [decode] at kept
        omega
  | plain c text found ih =>
      rw [unquote_cons found, decode_encode_append] at kept ⊢
      rw [List.count_cons, List.count_cons] at kept
      have rest := ih (by omega)
      rw [escapes_cons, found]
      simp only [List.length_cons, Option.isSome_none, Bool.false_eq_true, false_or]
      exact ⟨Nat.succ_le_succ rest.1, fun escapes => Nat.succ_lt_succ (rest.2 escapes)⟩

/-! ## Plus signs -/

def plusToSpace (text : List Char) : List Char := text.map fun c => if c = '+' then ' ' else c

theorem escapeAt_plusToSpace (text : List Char) :
    escapeAt (plusToSpace text) = escapeAt text := by
  have hex : ∀ c, hexValue (if c = '+' then ' ' else c) = hexValue c := by
    intro c
    split_ifs with plus
    · rw [plus]
      decide
    · rfl
  match text with
  | [] => rfl
  | [c] => simp [plusToSpace, escapeAt]
  | [c, d] => simp [plusToSpace, escapeAt]
  | c :: high :: low :: text =>
      by_cases percent : c = '%'
      · subst percent
        simp [plusToSpace, escapeAt, hex]
      · have other : (if c = '+' then ' ' else c) ≠ '%' := by
          split_ifs
          · decide
          · exact percent
        simp [plusToSpace, escapeAt, percent, other]

theorem escapes_plusToSpace {text : List Char} : Escapes (plusToSpace text) ↔ Escapes text := by
  induction text with
  | nil => exact Iff.rfl
  | cons c text ih =>
      have first := escapeAt_plusToSpace (c :: text)
      have cons : plusToSpace (c :: text) = (if c = '+' then ' ' else c) :: plusToSpace text := rfl
      rw [cons] at first ⊢
      rw [escapes_cons, escapes_cons, first, ih]

theorem unquote_plusToSpace_escape {c high low : Char} {text : List Char} {byte : UInt8}
    (escape : escapeAt (c :: high :: low :: text) = some byte) :
    unquote (plusToSpace (c :: high :: low :: text)) = byte :: unquote (plusToSpace text) :=
  unquote_escape ((escapeAt_plusToSpace _).trans escape)

theorem unquote_plusToSpace_cons {c : Char} {text : List Char}
    (plain : escapeAt (c :: text) = none) :
    unquote (plusToSpace (c :: text)) =
      String.utf8EncodeChar (if c = '+' then ' ' else c) ++ unquote (plusToSpace text) :=
  unquote_cons ((escapeAt_plusToSpace _).trans plain)

theorem length_plusToSpace (text : List Char) : (plusToSpace text).length = text.length :=
  List.length_map _

theorem plus_notMem_plusToSpace (text : List Char) : '+' ∉ plusToSpace text := by
  intro member
  obtain ⟨c, _, same⟩ := List.mem_map.mp member
  split_ifs at same with plus
  · exact absurd same (by decide)
  · exact plus same

theorem plusToSpace_of_notMem {text : List Char} (plain : '+' ∉ text) :
    plusToSpace text = text := by
  have each : ∀ c ∈ text, (if c = '+' then ' ' else c) = c := by
    intro c member
    rw [if_neg]
    intro plus
    exact plain (plus ▸ member)
  rw [plusToSpace, List.map_congr_left each, List.map_id']

theorem count_plusToSpace (text : List Char) : (plusToSpace text).count '%' = text.count '%' := by
  induction text with
  | nil => rfl
  | cons c text ih =>
      have cons : plusToSpace (c :: text) = (if c = '+' then ' ' else c) :: plusToSpace text := rfl
      rw [cons, List.count_cons, List.count_cons, ih]
      by_cases plus : c = '+'
      · subst plus
        rfl
      · rw [if_neg plus]

/-- What the server reads from a text. -/
def value (text : List Char) : List Char := decode (unquote (plusToSpace text))

/-- The part of a text that arrives is read as the whole text exactly if it is the whole
text and has neither escapes nor plus signs. -/
theorem value_eq_iff {part whole : List Char} (sub : part.Sublist whole) :
    value part = whole ↔ part = whole ∧ ¬ Escapes part ∧ '+' ∉ part := by
  constructor
  · intro same
    have plain : ¬ Escapes (plusToSpace part) := by
      intro escapes
      have kept : (plusToSpace part).count '%' ≤ (value part).count '%' := by
        rw [count_plusToSpace, same]
        exact sub.count_le '%'
      have shorter := (length_decode_unquote _ kept).2 escapes
      have longer := sub.length_le
      rw [← same, value] at longer
      rw [length_plusToSpace] at shorter
      omega
    have spaced : plusToSpace part = whole := (decode_unquote plain).symm.trans same
    have all : part = whole := by
      apply sub.eq_of_length
      rw [← spaced, length_plusToSpace]
    refine ⟨all, fun escapes => plain (escapes_plusToSpace.mpr escapes), ?_⟩
    rw [all, ← spaced]
    exact plus_notMem_plusToSpace part
  · intro ⟨all, plain, noPlus⟩
    rw [value, plusToSpace_of_notMem noPlus, decode_unquote plain, all]

/-! ## What a browser sends -/

inductive Fate where
  | kept
  | escaped
  | dropped
  deriving DecidableEq

/-- What a browser does to the characters of a query.  Browsers differ in those that the
fields leave open: quotes and brackets are escaped or kept, tabs and line breaks
dropped, blanks at the end of an address trimmed. -/
structure Browser where
  fate : Char → Fate
  trims : Char → Bool
  keeps : ∀ c, c.isAlphanum ∨ c ∈ ['&', '+', '=', '%', ','] → fate c = .kept ∧ trims c = false
  escapes : ∀ c, c = ' ' ∨ 128 ≤ c.toNat → fate c = .escaped

def hexDigit (n : ℕ) : Char := if n < 10 then Char.ofNat (48 + n) else Char.ofNat (55 + n)

def percent (byte : UInt8) : List Char :=
  ['%', hexDigit (byte.toNat / 16), hexDigit (byte.toNat % 16)]

def Browser.sendChar (browser : Browser) (c : Char) : List Char :=
  match browser.fate c with
  | .kept => [c]
  | .escaped => (String.utf8EncodeChar c).flatMap percent
  | .dropped => []

def Browser.query (browser : Browser) (address : List Char) : List Char :=
  ((((address.dropWhile (· ≠ '?')).drop 1).rdropWhile browser.trims).takeWhile
    (· ≠ '#')).flatMap browser.sendChar

/-! ## What a server reads -/

def field (text : List Char) : String × String :=
  (String.ofList (value (text.takeWhile (· ≠ '='))),
    String.ofList (value ((text.dropWhile (· ≠ '=')).drop 1)))

/-- The fields of a query; an empty one is passed over. -/
def fields (query : List Char) : List (String × String) :=
  ((query.splitOn '&').filter (· ≠ [])).map field

/-- `args[name]`: the first field of that name. -/
def firstField (query : List Char) (name : String) : Option String := (fields query).lookup name

/-! ## The browser's escapes are undone -/

theorem hexValue_hexDigit {n : ℕ} (bound : n < 16) : hexValue (hexDigit n) = some n := by
  have all : ∀ n : Fin 16, hexValue (hexDigit n) = some n.val := by decide
  exact all ⟨n, bound⟩

theorem escapeAt_percent (byte : UInt8) (text : List Char) :
    escapeAt (percent byte ++ text) = some byte := by
  have bound := byte.toNat_lt
  have high := hexValue_hexDigit (show byte.toNat / 16 < 16 by omega)
  have low := hexValue_hexDigit (show byte.toNat % 16 < 16 by omega)
  have whole : 16 * (byte.toNat / 16) + byte.toNat % 16 = byte.toNat := by omega
  rw [percent, List.cons_append, List.cons_append, List.cons_append, escapeAt, high, low]
  change some (UInt8.ofNat (16 * (byte.toNat / 16) + byte.toNat % 16)) = some byte
  rw [whole, UInt8.ofNat_toNat]

theorem unquote_percent (byte : UInt8) (text : List Char) :
    unquote (percent byte ++ text) = byte :: unquote text :=
  unquote_escape (escapeAt_percent byte text)

theorem unquote_flatMap_percent (bytes : List UInt8) (text : List Char) :
    unquote (bytes.flatMap percent ++ text) = bytes ++ unquote text := by
  induction bytes with
  | nil => rfl
  | cons byte bytes ih =>
      rw [List.flatMap_cons, List.append_assoc, unquote_percent, ih, List.cons_append]

theorem percent_mem {byte : UInt8} {c : Char} (member : c ∈ percent byte) :
    c = '%' ∨ c.isAlphanum := by
  have digits : ∀ n : Fin 16, (hexDigit n).isAlphanum := by decide
  have bound := byte.toNat_lt
  simp only [percent, List.mem_cons, List.not_mem_nil, or_false] at member
  rcases member with rfl | rfl | rfl
  · exact Or.inl rfl
  · exact Or.inr (digits ⟨byte.toNat / 16, by omega⟩)
  · exact Or.inr (digits ⟨byte.toNat % 16, by omega⟩)

section
variable {browser : Browser}

theorem isAlphanum_of_hexValue {c : Char} {n : ℕ} (hex : hexValue c = some n) :
    c.isAlphanum := by
  unfold hexValue at hex
  split_ifs at hex with digit lower upper
  · simp [Char.isAlphanum, digit]
  · have small : c.isLower := by
      simp only [Char.le_def, UInt32.le_iff_toNat_le] at lower
      simp only [Char.isLower, ge_iff_le, Bool.and_eq_true, decide_eq_true_eq,
        UInt32.le_iff_toNat_le]
      exact ⟨lower.1, Nat.le_trans lower.2 (by decide)⟩
    simp [Char.isAlphanum, Char.isAlpha, small]
  · have large : c.isUpper := by
      simp only [Char.le_def, UInt32.le_iff_toNat_le] at upper
      simp only [Char.isUpper, ge_iff_le, decide_eq_true_eq, UInt32.le_iff_toNat_le]
      exact ⟨upper.1, Nat.le_trans upper.2 (by decide)⟩
    simp [Char.isAlphanum, Char.isAlpha, large]

def Undropped (browser : Browser) (text : List Char) : Prop :=
  ∀ c ∈ text, browser.fate c ≠ .dropped

theorem sendChar_kept {c : Char} (kept : browser.fate c = .kept) : browser.sendChar c = [c] := by
  rw [Browser.sendChar, kept]

theorem sendChar_escaped {c : Char} (escaped : browser.fate c = .escaped) :
    browser.sendChar c = (String.utf8EncodeChar c).flatMap percent := by
  rw [Browser.sendChar, escaped]

theorem flatMap_sendChar_eq_cons {text rest : List Char} {first : Char}
    (undropped : Undropped browser text)
    (sent : text.flatMap browser.sendChar = first :: rest) :
    first = '%' ∨ ∃ tail, text = first :: tail ∧ tail.flatMap browser.sendChar = rest := by
  cases text with
  | nil => cases sent
  | cons c text =>
      rw [List.flatMap_cons] at sent
      cases fate : browser.fate c with
      | kept =>
          rw [sendChar_kept fate, List.singleton_append] at sent
          obtain ⟨rfl, same⟩ := List.cons.inj sent
          exact Or.inr ⟨text, rfl, same⟩
      | escaped =>
          rw [sendChar_escaped fate] at sent
          cases bytes : String.utf8EncodeChar c with
          | nil => exact absurd bytes String.utf8EncodeChar_ne_nil
          | cons byte bytes' =>
              rw [bytes] at sent
              exact Or.inl (List.cons.inj sent).1.symm
      | dropped => exact absurd fate (undropped c List.mem_cons_self)

/-- Sending a text makes no escape of a percent sign that started none. -/
theorem escapeAt_cons_sent {c : Char} {text : List Char} (undropped : Undropped browser text)
    (plain : escapeAt (c :: text) = none) :
    escapeAt (c :: text.flatMap browser.sendChar) = none := by
  cases found : escapeAt (c :: text.flatMap browser.sendChar) with
  | none => rfl
  | some byte =>
      obtain ⟨high, low, rest, m, n, shape, ofHigh, ofLow, _⟩ := escapeAt_eq_some found
      obtain ⟨rfl, sent⟩ := List.cons.inj shape
      rcases flatMap_sendChar_eq_cons undropped sent with percent | ⟨tail, rfl, sentTail⟩
      · exact absurd percent (hexValue_ne_percent ofHigh)
      · have undroppedTail : Undropped browser tail := fun d member =>
          undropped d (List.mem_cons_of_mem _ member)
        rcases flatMap_sendChar_eq_cons undroppedTail sentTail with percent | ⟨_, rfl, _⟩
        · exact absurd percent (hexValue_ne_percent ofLow)
        · rw [escapeAt, ofHigh, ofLow] at plain
          cases plain

theorem keeps_percent : browser.fate '%' = .kept := (browser.keeps '%' (Or.inr (by decide))).1

theorem keeps_plus : browser.fate '+' = .kept := (browser.keeps '+' (Or.inr (by decide))).1

theorem plusToSpace_append (text rest : List Char) :
    plusToSpace (text ++ rest) = plusToSpace text ++ plusToSpace rest := List.map_append

theorem plusToSpace_percent (bytes : List UInt8) :
    plusToSpace (bytes.flatMap percent) = bytes.flatMap percent := by
  apply plusToSpace_of_notMem
  intro member
  obtain ⟨byte, _, inside⟩ := List.mem_flatMap.mp member
  rcases percent_mem inside with same | digit
  · exact absurd same (by decide)
  · exact absurd digit (by decide)

/-- The server reads from what is sent what it would read from the text itself. -/
theorem value_sent {text : List Char} (undropped : Undropped browser text) :
    value (text.flatMap browser.sendChar) = value text := by
  have bytes : unquote (plusToSpace (text.flatMap browser.sendChar)) =
      unquote (plusToSpace text) := by
    induction text using unquote_induction with
    | nil => rfl
    | escape high low text byte found ih =>
        obtain ⟨_, _, _, m, n, shape, ofHigh, ofLow, _⟩ := escapeAt_eq_some found
        obtain ⟨rfl, rfl, rfl⟩ : high = _ ∧ low = _ ∧ text = _ := by simpa using shape
        have keptHigh := (browser.keeps high (Or.inl (isAlphanum_of_hexValue ofHigh))).1
        have keptLow := (browser.keeps low (Or.inl (isAlphanum_of_hexValue ofLow))).1
        have undroppedTail : Undropped browser text := by
          intro d member
          apply undropped
          simp [member]
        have sent : escapeAt ('%' :: high :: low :: text.flatMap browser.sendChar) = some byte :=
          found
        rw [List.flatMap_cons, List.flatMap_cons, List.flatMap_cons, sendChar_kept keeps_percent,
          sendChar_kept keptHigh, sendChar_kept keptLow]
        rw [List.singleton_append, List.singleton_append, List.singleton_append,
          unquote_plusToSpace_escape sent, unquote_plusToSpace_escape found, ih undroppedTail]
    | plain c text found ih =>
        have undroppedTail : Undropped browser text := fun d member =>
          undropped d (List.mem_cons_of_mem _ member)
        rw [List.flatMap_cons]
        cases fate : browser.fate c with
        | kept =>
            rw [sendChar_kept fate, List.singleton_append,
              unquote_plusToSpace_cons (escapeAt_cons_sent undroppedTail found),
              unquote_plusToSpace_cons found, ih undroppedTail]
        | escaped =>
            have plus : c ≠ '+' := by
              intro same
              rw [same, keeps_plus] at fate
              cases fate
            rw [sendChar_escaped fate, plusToSpace_append, plusToSpace_percent,
              unquote_flatMap_percent, unquote_plusToSpace_cons found, if_neg plus,
              ih undroppedTail]
        | dropped => exact absurd fate (undropped c List.mem_cons_self)
  rw [value, value, bytes]

/-! ## A text that is sent last -/

/-- The characters of a text at the end of an address that reach the server as part of
it. -/
def arriving (browser : Browser) (text : List Char) : List Char :=
  (((text.rdropWhile browser.trims).takeWhile (· ≠ '#')).takeWhile (· ≠ '&')).filter
    (browser.fate · ≠ .dropped)

/-- The text can be sent as it is. -/
structure Travels (browser : Browser) (text : List Char) : Prop where
  delimiters : ∀ c ∈ ['#', '&', '+'], c ∉ text
  undropped : Undropped browser text
  untrimmed : ∀ c ∈ text.getLast?, browser.trims c = false
  plain : ¬ Escapes text

theorem arriving_sublist (text : List Char) : (arriving browser text).Sublist text :=
  List.filter_sublist.trans ((List.takeWhile_sublist _).trans
    ((List.takeWhile_sublist _).trans (List.rdropWhile_prefix _ _).sublist))

theorem rdropWhile_trims_eq_iff {text : List Char} :
    text.rdropWhile browser.trims = text ↔ ∀ c ∈ text.getLast?, browser.trims c = false := by
  rw [List.rdropWhile_eq_self_iff]
  rcases eq_or_ne text [] with rfl | nonempty
  · simp
  · simp [List.getLast?_eq_some_getLast nonempty, nonempty]

theorem all_ne {sep : Char} {text : List Char} (out : sep ∉ text) :
    ∀ c ∈ text, decide (c ≠ sep) = true := by
  intro c member
  apply decide_eq_true
  intro same
  exact out (same ▸ member)

theorem takeWhile_ne_eq_iff {sep : Char} {text : List Char} :
    text.takeWhile (· ≠ sep) = text ↔ sep ∉ text := by
  rw [List.takeWhile_eq_self_iff]
  constructor
  · intro each member
    exact absurd rfl (of_decide_eq_true (each sep member))
  · exact all_ne

theorem filter_dropped_eq_iff {text : List Char} :
    text.filter (browser.fate · ≠ .dropped) = text ↔ Undropped browser text := by
  simp [Undropped]

theorem arriving_eq_iff {text : List Char} :
    arriving browser text = text ↔ '#' ∉ text ∧ '&' ∉ text ∧ Undropped browser text ∧
      ∀ c ∈ text.getLast?, browser.trims c = false := by
  rw [← rdropWhile_trims_eq_iff, ← takeWhile_ne_eq_iff, ← takeWhile_ne_eq_iff,
    ← filter_dropped_eq_iff]
  constructor
  · intro all
    -- Each stage leaves a part of the one before, and in the end nothing is missing.
    have trimmed : (text.rdropWhile browser.trims).Sublist text :=
      (List.rdropWhile_prefix _ _).sublist
    have cut := (List.takeWhile_sublist (· ≠ '#')).trans trimmed
    have field := (List.takeWhile_sublist (· ≠ '&')).trans cut
    have squeezed : ∀ {part larger : List Char}, part.Sublist larger → larger.Sublist text →
        part = text → larger = text := by
      intro part larger sub inside same
      subst same
      exact inside.antisymm sub
    have allField := squeezed List.filter_sublist field all
    have allCut := squeezed (List.takeWhile_sublist _) cut allField
    have allTrimmed := squeezed (List.takeWhile_sublist _) trimmed allCut
    rw [arriving, allField] at all
    rw [allCut] at allField
    rw [allTrimmed] at allCut
    exact ⟨allCut, allField, all, allTrimmed⟩
  · intro ⟨allCut, allField, all, allTrimmed⟩
    rw [arriving, allTrimmed, allCut, allField, all]

/-- A text is read as it was exactly if it can be sent as it is. -/
theorem value_arriving_eq_iff {text : List Char} :
    value (arriving browser text) = text ↔ Travels browser text := by
  rw [value_eq_iff (arriving_sublist text)]
  constructor
  · intro ⟨all, plain, noPlus⟩
    obtain ⟨noHash, noAnd, undropped, untrimmed⟩ := arriving_eq_iff.mp all
    rw [all] at plain noPlus
    refine ⟨?_, undropped, untrimmed, plain⟩
    simp [noHash, noAnd, noPlus]
  · intro travels
    have all : arriving browser text = text := by
      apply arriving_eq_iff.mpr
      exact ⟨travels.delimiters '#' (by decide), travels.delimiters '&' (by decide),
        travels.undropped, travels.untrimmed⟩
    rw [all]
    exact ⟨rfl, travels.plain, travels.delimiters '+' (by decide)⟩

/-! ## The fields of an address -/

theorem sep_mem_sent {sep : Char} (delimiter : sep ∈ ['&', '=']) {text : List Char} :
    sep ∈ text.flatMap browser.sendChar ↔ sep ∈ text := by
  have kept : browser.fate sep = .kept := by
    apply (browser.keeps sep (Or.inr _)).1
    rcases List.mem_pair.mp delimiter with rfl | rfl <;> decide
  constructor
  · intro member
    obtain ⟨c, inside, sent⟩ := List.mem_flatMap.mp member
    cases fate : browser.fate c with
    | kept =>
        rw [sendChar_kept fate, List.mem_singleton] at sent
        exact sent ▸ inside
    | escaped =>
        rw [sendChar_escaped fate] at sent
        obtain ⟨byte, _, digit⟩ := List.mem_flatMap.mp sent
        have other := percent_mem digit
        rcases List.mem_pair.mp delimiter with rfl | rfl
        · exact absurd other (by decide)
        · exact absurd other (by decide)
    | dropped =>
        rw [Browser.sendChar, fate] at sent
        cases sent
  · intro member
    apply List.mem_flatMap.mpr
    exact ⟨sep, member, by rw [sendChar_kept kept, List.mem_singleton]⟩

theorem takeWhile_sent (text : List Char) :
    (text.flatMap browser.sendChar).takeWhile (· ≠ '&') =
      (text.takeWhile (· ≠ '&')).flatMap browser.sendChar := by
  induction text with
  | nil => rfl
  | cons c text ih =>
      by_cases sep : c = '&'
      · have kept : browser.fate '&' = .kept := (browser.keeps '&' (Or.inr (by decide))).1
        rw [sep, List.flatMap_cons, sendChar_kept kept]
        simp
      · have plain : '&' ∉ [c].flatMap browser.sendChar := by
          rw [sep_mem_sent (by decide), List.mem_singleton]
          exact fun same => sep same.symm
        rw [List.flatMap_singleton] at plain
        rw [List.takeWhile_cons_of_pos (by simpa using sep), List.flatMap_cons, List.flatMap_cons,
          List.takeWhile_append_of_pos (all_ne plain), ih]

theorem sent_filter (text : List Char) :
    (text.filter (browser.fate · ≠ .dropped)).flatMap browser.sendChar =
      text.flatMap browser.sendChar := by
  induction text with
  | nil => rfl
  | cons c text ih =>
      by_cases dropped : browser.fate c = .dropped
      · rw [List.filter_cons_of_neg (by simpa using dropped), ih, List.flatMap_cons,
          Browser.sendChar, dropped, List.nil_append]
      · rw [List.filter_cons_of_pos (by simpa using dropped), List.flatMap_cons, List.flatMap_cons,
          ih]

def Tame (browser : Browser) (text : List Char) : Prop :=
  ∀ c ∈ text, browser.fate c ≠ .dropped ∧ c ∉ ['&', '#', '+', '%']

theorem percent_mem_of_escapes {text : List Char} (escapes : Escapes text) : '%' ∈ text := by
  obtain ⟨suffix, tail, found⟩ := escapes
  obtain ⟨byte, found⟩ := Option.isSome_iff_exists.mp found
  obtain ⟨high, low, rest, _, _, rfl, _, _, _⟩ := escapeAt_eq_some found
  exact ((List.mem_tails _ _).mp tail).subset List.mem_cons_self

theorem value_sent_of_tame {text : List Char} (tame : Tame browser text) :
    value (text.flatMap browser.sendChar) = text := by
  rw [value_sent (fun c member => (tame c member).1), value_eq_iff (List.Sublist.refl text)]
  refine ⟨rfl, fun escapes => ?_, fun plus => ?_⟩
  · exact (tame '%' (percent_mem_of_escapes escapes)).2 (by decide)
  · exact (tame '+' plus).2 (by decide)

theorem notMem_of_tame {text : List Char} (tame : Tame browser text) {c : Char}
    (special : c ∈ ['&', '#', '+', '%']) : c ∉ text :=
  fun member => (tame c member).2 special

def front (pairs : List (List Char × List Char)) (name : List Char) : List Char :=
  (pairs.flatMap fun pair => pair.1 ++ '=' :: pair.2 ++ ['&']) ++ name ++ ['=']

structure TamePair (browser : Browser) (pair : List Char × List Char) : Prop where
  name : Tame browser pair.1
  noEquals : '=' ∉ pair.1
  value : Tame browser pair.2

theorem field_eq {name text : List Char} (noEquals : '=' ∉ name) :
    field (name ++ '=' :: text) = (String.ofList (value name), String.ofList (value text)) := by
  rw [field, List.takeWhile_append_of_pos (all_ne noEquals),
    List.dropWhile_append_of_pos (all_ne noEquals)]
  simp

theorem sent_pair (name text : List Char) :
    (name ++ '=' :: text).flatMap browser.sendChar =
      name.flatMap browser.sendChar ++ '=' :: text.flatMap browser.sendChar := by
  have kept : browser.fate '=' = .kept := (browser.keeps '=' (Or.inr (by decide))).1
  rw [List.flatMap_append, List.flatMap_cons, sendChar_kept kept, List.singleton_append]

theorem TamePair.and_notMem_sent {pair : List Char × List Char} (tame : TamePair browser pair) :
    '&' ∉ pair.1.flatMap browser.sendChar ++ '=' :: pair.2.flatMap browser.sendChar := by
  rw [← sent_pair, sep_mem_sent (by decide)]
  simp [notMem_of_tame tame.name, notMem_of_tame tame.value]

theorem field_sent {name : List Char} (tame : Tame browser name) (noEquals : '=' ∉ name)
    (text : List Char) :
    field (name.flatMap browser.sendChar ++ '=' :: text) =
      (String.ofList name, String.ofList (value text)) := by
  have sent : '=' ∉ name.flatMap browser.sendChar := by
    rw [sep_mem_sent (by decide)]
    exact noEquals
  rw [field_eq sent, value_sent_of_tame tame]

/-- The first field ends at the first `&`. -/
theorem fields_first (query : List Char) (nonempty : query.takeWhile (· ≠ '&') ≠ []) :
    ∃ more, fields query = field (query.takeWhile (· ≠ '&')) :: more := by
  by_cases sep : '&' ∈ query
  · obtain ⟨before, after, whole, out⟩ := List.eq_append_cons_of_mem sep
    have first : query.takeWhile (· ≠ '&') = before := by
      rw [whole, List.takeWhile_append_of_pos (all_ne out)]
      simp
    rw [first] at nonempty ⊢
    rw [fields, whole, List.splitOn_append_cons_self_of_not_mem out,
      List.filter_cons_of_pos (by simpa using nonempty), List.map_cons]
    exact ⟨_, rfl⟩
  · rw [takeWhile_ne_eq_iff.mpr sep] at nonempty ⊢
    rw [fields, List.splitOn_eq_singleton sep, List.filter_cons_of_pos (by simpa using nonempty)]
    exact ⟨[], rfl⟩

theorem fields_cons {first rest : List Char} (nonempty : first ≠ []) (out : '&' ∉ first) :
    fields (first ++ '&' :: rest) = field first :: fields rest := by
  rw [fields, List.splitOn_append_cons_self_of_not_mem out,
    List.filter_cons_of_pos (by simpa using nonempty), List.map_cons, fields]

/-- The fields that stand before a text are read as they were, and the text after them. -/
theorem fields_pairs {pairs : List (List Char × List Char)}
    (tame : ∀ pair ∈ pairs, TamePair browser pair) (rest : List Char) :
    fields (((pairs.flatMap fun pair => pair.1 ++ '=' :: pair.2 ++ ['&']) ++ rest).flatMap
        browser.sendChar) =
      (pairs.map fun pair => (String.ofList pair.1, String.ofList pair.2)) ++
        fields (rest.flatMap browser.sendChar) := by
  induction pairs with
  | nil => rfl
  | cons pair pairs ih =>
      have later := ih fun other member => tame other (List.mem_cons_of_mem _ member)
      have this := tame pair List.mem_cons_self
      have kept : browser.fate '&' = .kept := (browser.keeps '&' (Or.inr (by decide))).1
      have whole : (((pair :: pairs).flatMap fun pair => pair.1 ++ '=' :: pair.2 ++ ['&']) ++
            rest).flatMap browser.sendChar =
          (pair.1.flatMap browser.sendChar ++ '=' :: pair.2.flatMap browser.sendChar) ++
            '&' :: ((pairs.flatMap fun pair => pair.1 ++ '=' :: pair.2 ++ ['&']) ++ rest).flatMap
              browser.sendChar := by
        rw [← sent_pair]
        simp [sendChar_kept kept]
      have out := this.and_notMem_sent
      rw [whole, fields_cons (by simp) out, field_sent this.name this.noEquals,
        value_sent_of_tame this.value, later]
      rfl

/-- All fields but the last are read as they were; of the last, what stands before the
first `&`. -/
theorem fields_sent {pairs : List (List Char × List Char)}
    (tame : ∀ pair ∈ pairs, TamePair browser pair) {name : List Char}
    (tameName : Tame browser name) (noEquals : '=' ∉ name) (text : List Char) :
    ∃ more, fields ((front pairs name ++ text).flatMap browser.sendChar) =
      (pairs.map fun pair => (String.ofList pair.1, String.ofList pair.2)) ++
        (String.ofList name,
          String.ofList (value ((text.takeWhile (· ≠ '&')).flatMap browser.sendChar))) :: more := by
  have out : '&' ∉ name.flatMap browser.sendChar := by
    rw [sep_mem_sent (by decide)]
    exact notMem_of_tame tameName (by decide)
  have first : ((name ++ '=' :: text).flatMap browser.sendChar).takeWhile (· ≠ '&') =
      name.flatMap browser.sendChar ++
        '=' :: (text.takeWhile (· ≠ '&')).flatMap browser.sendChar := by
    rw [sent_pair, List.takeWhile_append_of_pos (all_ne out),
      List.takeWhile_cons_of_pos (by decide), takeWhile_sent]
  obtain ⟨more, last⟩ := fields_first ((name ++ '=' :: text).flatMap browser.sendChar)
    (by rw [first]; simp)
  rw [first, field_sent tameName noEquals] at last
  refine ⟨more, ?_⟩
  rw [← last, ← fields_pairs tame, front]
  simp

theorem value_arriving (text : List Char) :
    value ((((text.rdropWhile browser.trims).takeWhile (· ≠ '#')).takeWhile (· ≠ '&')).flatMap
      browser.sendChar) = value (arriving browser text) := by
  rw [← sent_filter, value_sent]
  · rfl
  · intro c member
    simpa using (List.mem_filter.mp member).2

theorem hash_notMem_front {pairs : List (List Char × List Char)}
    (tame : ∀ pair ∈ pairs, TamePair browser pair) {name : List Char}
    (tameName : Tame browser name) : '#' ∉ front pairs name := by
  intro member
  simp only [front, List.mem_append, List.mem_flatMap, List.mem_cons, List.not_mem_nil,
    or_false] at member
  rcases member with (⟨pair, inside, (here | here | here) | here⟩ | here) | here
  · exact notMem_of_tame (tame pair inside).name (by decide) here
  · exact absurd here (by decide)
  · exact notMem_of_tame (tame pair inside).value (by decide) here
  · exact absurd here (by decide)
  · exact notMem_of_tame tameName (by decide) here
  · exact absurd here (by decide)

theorem rdropWhile_front (pairs : List (List Char × List Char)) (name text : List Char) :
    (front pairs name ++ text).rdropWhile browser.trims =
      front pairs name ++ text.rdropWhile browser.trims := by
  have stays : browser.trims '=' = false := (browser.keeps '=' (Or.inr (by decide))).2
  induction text using List.reverseRecOn with
  | nil =>
      rw [List.append_nil, List.rdropWhile_nil, List.append_nil, front,
        List.rdropWhile_concat_neg _ _ _ (by simp [stays])]
  | append_singleton text c ih =>
      rw [← List.append_assoc, List.rdropWhile_concat, List.rdropWhile_concat]
      split_ifs
      · exact ih
      · rw [List.append_assoc]

theorem query_front {path : List Char} (noQuestion : '?' ∉ path)
    {pairs : List (List Char × List Char)} (tame : ∀ pair ∈ pairs, TamePair browser pair)
    {name : List Char} (tameName : Tame browser name) (text : List Char) :
    browser.query (path ++ '?' :: (front pairs name ++ text)) =
      (front pairs name ++ (text.rdropWhile browser.trims).takeWhile (· ≠ '#')).flatMap
        browser.sendChar := by
  have noHash := hash_notMem_front tame tameName
  rw [Browser.query, List.dropWhile_append_of_pos (all_ne noQuestion),
    List.dropWhile_cons_of_neg (by decide), List.drop_succ_cons, List.drop_zero,
    rdropWhile_front, List.takeWhile_append_of_pos (all_ne noHash)]

/-- The fields that the server reads from an address. -/
theorem fields_query {path : List Char} (noQuestion : '?' ∉ path)
    {pairs : List (List Char × List Char)} (tame : ∀ pair ∈ pairs, TamePair browser pair)
    {name : List Char} (tameName : Tame browser name) (noEquals : '=' ∉ name) (text : List Char) :
    ∃ more, fields (browser.query (path ++ '?' :: (front pairs name ++ text))) =
      (pairs.map fun pair => (String.ofList pair.1, String.ofList pair.2)) ++
        (String.ofList name, String.ofList (value (arriving browser text))) :: more := by
  rw [query_front noQuestion tame tameName, ← value_arriving]
  exact fields_sent tame tameName noEquals _

theorem fields_query_of_tame {path : List Char} (noQuestion : '?' ∉ path)
    {pairs : List (List Char × List Char)} (tame : ∀ pair ∈ pairs, TamePair browser pair)
    {last : List Char × List Char} (tameLast : TamePair browser last)
    (untrimmed : ∀ c ∈ last.2.getLast?, browser.trims c = false) :
    fields (browser.query (path ++ '?' :: (front pairs last.1 ++ last.2))) =
      (pairs ++ [last]).map fun pair => (String.ofList pair.1, String.ofList pair.2) := by
  have noAnd := tameLast.and_notMem_sent
  have single : fields ((last.1 ++ '=' :: last.2).flatMap browser.sendChar) =
      [(String.ofList last.1, String.ofList last.2)] := by
    rw [sent_pair, fields, List.splitOn_eq_singleton noAnd, List.filter_cons_of_pos (by simp),
      List.filter_nil, List.map_singleton, field_sent tameLast.name tameLast.noEquals,
      value_sent_of_tame tameLast.value]
  rw [query_front noQuestion tame tameLast.name, rdropWhile_trims_eq_iff.mpr untrimmed,
    takeWhile_ne_eq_iff.mpr (notMem_of_tame tameLast.value (by decide)), List.map_append,
    List.map_singleton, ← single, ← fields_pairs tame, front]
  simp

end

end Phonograph.Lib.FormQuery
