import Phonograph.Client.FuzzySet
import Phonograph.Client.TrackButton

/-! # The names of tracks and videos

A track is looked for under its name in lower case, without punctuation, without the
names of its artists and without the words that most titles have.  `calculateScore`
compares the title of a video in the same form: it puts the title into a fuzzy set of
its own and looks for the track there. -/

set_option autoImplicit false

namespace Phonograph.Client.Lookups

open Phonograph.Client.Js Phonograph.Client.TrackButton Phonograph.Client.Fuzzy

/-- What is outside the program: the engine that runs it, and the key of the YouTube
interface. -/
structure Service extends Engine where
  key : List Char

def punctuation : List Char := "`~!@#$%^&*()_|+-=?;:'\",.<>\x7b\x7d[]\\/".toList

def standardise (service : Service) (str : List Char) : List Char :=
  (service.toLowerCase str).filter (· ∉ punctuation)

def commonWords : List (List Char) :=
  ["featuring", "feat", "ft", "original", "music", "official", "video", "explicit", "version"].map
    String.toList

def removeNames (pairNames : List (List Char)) (trackName : List Char) : List Char :=
  (pairNames ++ commonWords).foldl (fun trackName n => replaceFirst n [] trackName) trackName

/-- `check[0][0]`, or 0 for `null`; an empty list has no first element. -/
def firstScore : Option Results → Except JsErr (Option ℚ)
  | none => .ok (some 0)
  | some [] => .error .typeError
  | some (result :: _) => .ok result.1

def calculateScore (service : Service) (requestName responseName : List Char)
    (artistNames : List (List Char)) : Except JsErr (Option ℚ) := do
  let requestName := removeNames artistNames (standardise service requestName)
  let responseName := removeNames artistNames (standardise service responseName)
  let a := add service.toEngine .empty responseName
  firstScore (← get service.toEngine a requestName)

def threshold : ℚ := 5404319552844595 / 18014398509481984

end Phonograph.Client.Lookups
