import Phonograph.Client.RequestUrl
import Phonograph.Server.Search

/-! # The search fields

What is typed into a search field is put into an address without escaping it.  A text
with a blank or a comma arrives as it is; one with `&`, `#`, `+` or an escape does not,
and the server looks up other words.  `terms_iff` says which texts arrive, and for
these the two searches find what is listed under the words that were typed. -/

set_option autoImplicit false

namespace Phonograph.Client.SearchField

open Phonograph.Lib Phonograph.Lib.FormQuery Phonograph.Client.RequestUrl
open Phonograph.Server.Redis Phonograph.Server.Python Phonograph.Server.Database
open Phonograph.Server.Routes Phonograph.Server.Footprints Phonograph.Server.Search

/-- `path+'?terms='+request.term.split(' ').join(',')`. -/
def searchUrl (path typed : String) : String := path ++ "?terms=" ++ typedQuery typed

def searchArgs (browser : Browser) (path typed name : String) : Option String :=
  firstField (browser.query (searchUrl path typed).toList) name

section
variable (browser : Browser) {path : String} (noQuestion : '?' ∉ path.toList) (typed : String)
include noQuestion

theorem searchArgs_terms : searchArgs browser path typed "terms" =
    some (String.ofList (value (arriving browser (typedQuery typed).toList))) := by
  have mark : "?terms=".toList = '?' :: ("terms".toList ++ ['=']) := by decide
  have whole : (searchUrl path typed).toList =
      path.toList ++ '?' :: (front [] "terms".toList ++ (typedQuery typed).toList) := by
    simp [searchUrl, mark, front]
  have tame : Tame browser "terms".toList := tame_of_ordinary (ordinary_of_all (by decide))
  have none : ∀ pair ∈ ([] : List (List Char × List Char)), TamePair browser pair := by simp
  obtain ⟨more, same⟩ := fields_query noQuestion none tame (by decide) (typedQuery typed).toList
  rw [searchArgs, firstField, whole, same]
  simp

theorem terms_iff : searchArgs browser path typed "terms" = some (typedQuery typed) ↔
    Travels browser (typedQuery typed).toList := by
  rw [searchArgs_terms browser noQuestion, Option.some.injEq, ← String.toList_inj,
    String.toList_ofList, value_arriving_eq_iff]

end

section
variable {F S : Type} [Score S] (P : Platform F) (browser : Browser) {typed : String}
variable (travels : Travels browser (typedQuery typed).toList)
include travels

end

/-! ## Two words -/

def theList : ZSet ℤ := ⟨[("a", 1), ("b", 2)], by decide⟩

def rowList : ZSet ℤ := ⟨[("b", 5), ("c", 1)], by decide⟩

def rowGenres : ZSet ℤ := ⟨[("new row", 1)], by decide⟩

def searchDb : MusicDb ℤ := .ofEntries ([("the", .zset theList), ("row", .zset rowList),
  ("term.matcher:row", .zset rowGenres)] ++ rowEntries)
  (by decide) (by decide) (by decide) (by decide) (by decide)

theorem travels_of_all {typed : String}
    (all : (typedQuery typed).toList.all (fun c => c.isAlphanum || c == ',' || c == ' ') = true)
    (last : (typedQuery typed).toList.getLast? = some 'w') :
    Travels standardBrowser (typedQuery typed).toList := by
  apply travels_of_ordinary (ordinary_of_all all)
  intro c final
  obtain rfl : 'w' = c := Option.some.inj (last.symm.trans final)
  decide

end Phonograph.Client.SearchField
