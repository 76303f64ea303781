import Phonograph.Server.Footprints

/-! # Concurrent requests

Several requests are served at once, each issuing its commands one at a time.
Two requests of one route share a scratch key, so a result can be overwritten
between the command that stores it and the command that reads it back.  That is
the only way in which they disturb each other, apart from artist searches for
the name of a scratch key. -/

set_option autoImplicit false

namespace Phonograph.Server.Isolation

open Phonograph.Lib Phonograph.Server.Redis Phonograph.Server.Python
open Phonograph.Server.Database Phonograph.Server.Routes Phonograph.Server.Footprints

variable {F S : Type} [Score S] {ι : Type} [DecidableEq ι]

abbrev Requests (ι F S : Type) :=
  Pool ι Cmd Cmd.Reply PyErr String (Option (Value S)) (Response F)

def accepted (P : Platform F) (jobs : ι → Job) (db : Store S) : Requests ι F S where
  threads i := ⟨serve P (jobs i).fuel (jobs i).request, (jobs i).tape⟩
  store := db

def interleaved (P : Platform F) (jobs : ι → Job) (db : Store S) (schedule : List ι) (i : ι) :
    Option (Except PyErr (Response F)) :=
  outcome (((accepted P jobs db).interleave (machine S) schedule).threads i).script

omit [DecidableEq ι] in
theorem accepted_tidy (P : Platform F) (jobs : ι → Job) (db : Store S)
    (unnamed : ∀ i, ¬ NamesScratch P (jobs i).request) (j : ι) :
    Tidy (machine S) scratch (scratchOf (jobs j).request.route)
      ((accepted P jobs db).threads j).script :=
  ⟨serve_writes P _ _, ∅, Set.empty_subset _, serve_reads P _ _ (unnamed j)⟩

/-- Requests of routes with different scratch keys never get in each other's way. -/
theorem apart_of_routes (P : Platform F) (jobs : ι → Job) (db : Store S) (schedule : List ι)
    (unnamed : ∀ i, ¬ NamesScratch P (jobs i).request)
    (routes : ∀ i j key, i ≠ j → key ∈ scratchOf (jobs i).request.route →
      key ∉ scratchOf (jobs j).request.route) :
    (accepted P jobs db).Apart (machine S) schedule :=
  apart_of_disjoint (machine S) (fun j => scratchOf_subset (jobs j).request.route) routes
    schedule _ (accepted_tidy P jobs db unnamed)

def lookupAnd (other : Request) (first : Bool) : Job where
  request := if first then ⟨.edgeLookup, fun name => if name = "seed" then some "a,b" else none⟩
    else other
  fuel := 0
  tape := fun _ => 0

def termRow : Request := ⟨.termsubgraph, fun name =>
  if name = "term" then some "row" else if name = "size" then some "2" else none⟩

end Phonograph.Server.Isolation
