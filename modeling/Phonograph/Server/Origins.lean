import Mathlib
import Phonograph.Lib.Rejection
import Phonograph.Server.Neighbourhood

/-! # The origin of a neighbourhood

A neighbourhood without an origin starts at an artist that is drawn at random.  The
artists at the top of a genre are drawn until one is well known and has enough
neighbours; when there is none, the loop never ends. -/

set_option autoImplicit false

namespace Phonograph.Server.Origins

open Phonograph.Lib Phonograph.Server.Redis Phonograph.Server.Python
open Phonograph.Server.Database Phonograph.Server.Routes Phonograph.Server.Neighbourhood

variable {F S : Type} [Score S] (P : Platform F) (db : MusicDb S)

/-! ## What is drawn from -/

def topArtists (term : String) : List String :=
  (zsetAt (db.store (termArtistsKey term))).revSorted.take 501

def termsFor : Option String → List String
  | none => genres
  | some genre => [genre]

/-- Each term that can be drawn from has a list of artists. -/
def Listed (genre : Option String) : Prop :=
  ∀ term ∈ termsFor genre, ∃ z, db.store (termArtistsKey term) = some (.zset z) ∧ z.entries ≠ []

def popular (artist : String) : Except PyErr Bool :=
  match db.artistInfo artist "popularity" with
  | none => .error .typeError
  | some stored =>
      match int stored with
      | none => .error .valueError
      | some popularity => .ok (decide (popularity > 25))

def popularWhen (a : Bool) (artist : String) : Except PyErr Bool :=
  if a then popular db artist else .ok false

def fits (genre : Option String) (origin : String) : Except PyErr Bool :=
  match genre with
  | none => popularWhen db (decide ((db.neighbours origin).members.length > 5)) origin
  | some genre =>
      popularWhen db (decide ((genreMembers P db (some genre) origin).length ≥ 10 ∧
        db.artistInfo origin "genre" = some genre)) origin

def Known (artist : String) : Prop :=
  ∃ stored popularity, db.artistInfo artist "popularity" = some stored ∧
    int stored = some popularity ∧
    25 < popularity

/-- An artist with enough neighbours, who is of the genre that is asked for. -/
def WellConnected (genre : Option String) (artist : String) : Prop :=
  match genre with
  | none => 5 < (db.neighbours artist).members.length
  | some genre => 10 ≤ (genreMembers P db (some genre) artist).length ∧
      db.artistInfo artist "genre" = some genre

theorem fits_eq_true_iff (genre : Option String) (origin : String) :
    fits P db genre origin = .ok true ↔ Known db origin ∧ WellConnected P db genre origin := by
  have known : ∀ a : Bool, popularWhen db a origin = .ok true ↔ Known db origin ∧ a = true := by
    intro a
    cases a with
    | false => simp [popularWhen]
    | true =>
        rw [popularWhen, if_pos rfl, popular, Known]
        cases found : db.artistInfo origin "popularity" with
        | none => simp
        | some stored =>
            cases read : int stored with
            | none => simp [read]
            | some popularity => simp [read]
  cases genre with
  | none => exact (known _).trans (and_congr_right fun _ => decide_eq_true_iff)
  | some genre => exact (known _).trans (and_congr_right fun _ => decide_eq_true_iff)

/-! ## Single rounds -/

theorem settles_intPopularity (artist : String) :
    Settles (machine S) scratch db.store (do pure (decide ((← intPopularity artist) > 25)))
      (popular db artist) := by
  have read : Gives (machine S) scratch db.store (popularityOf artist)
      (db.artistInfo artist "popularity") :=
    yields_hget (artistInfoKey_not_scratch artist) "popularity" (db.artistInfo_kind artist)
  unfold intPopularity
  rw [Script.bind_assoc]
  apply read.settles.bind
  rw [popular]
  cases db.artistInfo artist "popularity" with
  | none => exact settles_fail _
  | some stored =>
      change Settles (machine S) scratch db.store
        (Handler.ofOption .valueError (int stored) >>= fun n => .done (decide (n > 25))) _
      cases read : int stored with
      | none =>
          simp only [read]
          exact settles_fail _
      | some popularity =>
          simp only [read]
          exact (Gives.done _ _ _ _).settles

theorem settles_popularIf (a : Bool) (artist : String) :
    Settles (machine S) scratch db.store (popularIf a artist) (popularWhen db a artist) := by
  rw [popularIf, popularWhen]
  split_ifs
  · exact settles_intPopularity db artist
  · exact (Gives.done _ _ _ _).settles

theorem draws_choice {base : Store S} {xs : List String} (some : xs ≠ []) :
    Draws (machine S) scratch base (Handler.choice xs) fun n => (xs[n % xs.length]?).getD "" := by
  intro store agree tape
  refine ⟨store, ?_, agree⟩
  have lt : tape 0 % xs.length < xs.length := Nat.mod_lt _ (List.length_pos_iff.mpr some)
  have found := List.getElem?_eq_getElem lt
  simp only [Handler.choice, run_draw, found, Handler.ofOption, run_done, Option.getD_some]

theorem gives_topArtists {genre : Option String} (listed : Listed db genre) {term : String}
    (allowed : term ∈ termsFor genre) :
    Gives (machine S) scratch db.store (Handler.zrevrange (termArtistsKey term) 0 500)
      (topArtists db term) ∧ topArtists db term ≠ [] := by
  obtain ⟨z, stored, nonempty⟩ := listed term allowed
  have top : topArtists db term = z.revSorted.take 501 := by
    rw [topArtists, stored]
    rfl
  constructor
  · intro store agree tape
    refine ⟨store, ?_, agree⟩
    rw [Handler.zrevrange, run_call, top, ← range_front 500]
    simp only [machine, exec, agree _ (termArtistsKey_not_scratch term), stored, zrevrangeOf,
      Except.map]
    rfl
  · intro empty
    have length := congrArg List.length (top.symm.trans empty)
    have count : z.revSorted.length = z.entries.length := by
      rw [(perm_revSorted z).length_eq, ZSet.members, List.length_map]
    rw [List.length_take, count, List.length_nil] at length
    have pos := List.length_pos_iff.mpr nonempty
    omega

/-! ## The loops -/

theorem randomOriginLoop_eq (term : String) (fuel : ℕ) : ∀ origin : String,
    randomOriginLoop term origin fuel =
      retry .looping (fun origin => do
          popularIf (decide ((← Handler.smembers (neighboursKey origin)).length > 5)) origin)
        id (do Handler.choice (← Handler.zrevrange (termArtistsKey term) 0 500)) fuel origin := by
  induction fuel with
  | zero => exact fun _ => rfl
  | succ fuel ih =>
      intro origin
      simp only [randomOriginLoop, retry, Script.bind_assoc, ih]
      rfl

theorem genreOriginLoop_eq (genre : String) (artists : List String) (fuel : ℕ) :
    ∀ (origin : String) (gn : List String),
      genreOriginLoop P genre artists origin gn fuel =
        retry .looping (fun candidate => do
            let stored ← genreIf (decide (candidate.2.length ≥ 10)) candidate.1
            popularIf (decide (stored = some genre)) candidate.1)
          Prod.fst (do
            let origin ← Handler.choice artists
            return (origin, ← genreNeighbours P origin genre)) fuel (origin, gn) := by
  induction fuel with
  | zero => exact fun _ _ => rfl
  | succ fuel ih =>
      intro origin gn
      simp only [genreOriginLoop, retry, Script.bind_assoc, ih]
      rfl

def candidate (term : String) (n : ℕ) : String :=
  ((topArtists db term)[n % (topArtists db term).length]?).getD ""

def termDrawn (genre : Option String) (tape : Tape) : String :=
  genre.getD ((genres[tape 0 % genres.length]?).getD "")

def drawn (genre : Option String) (tape : Tape) (k : ℕ) : String :=
  candidate db (termDrawn genre tape) (tape (if genre = none then k + 1 else k))

theorem termDrawn_mem (genre : Option String) (tape : Tape) :
    termDrawn genre tape ∈ termsFor genre := by
  cases genre with
  | none =>
      have lt : tape 0 % genres.length < genres.length := Nat.mod_lt _ (by decide)
      rw [termDrawn, List.getElem?_eq_getElem lt]
      exact List.getElem_mem lt
  | some genre => exact List.mem_singleton_self genre

theorem settles_random (origin : String) :
    Settles (machine S) scratch db.store (do
        popularIf (decide ((← Handler.smembers (neighboursKey origin)).length > 5)) origin)
      (fits P db none origin) :=
  (yields_smembers (neighboursKey_not_scratch origin) (db.neighbours_kind origin)).settles.bind
    (settles_popularIf db _ origin)

theorem settles_genre (genre : String) (pair : String × List String) :
    Settles (machine S) scratch db.store (do
        let stored ← genreIf (decide (pair.2.length ≥ 10)) pair.1
        popularIf (decide (stored = some genre)) pair.1)
      (popularWhen db (decide (pair.2.length ≥ 10 ∧ db.artistInfo pair.1 "genre" = some genre)) pair.1) := by
  by_cases enough : pair.2.length ≥ 10
  · have read : Gives (machine S) scratch db.store (genreIf true pair.1) (db.artistInfo pair.1 "genre") :=
      yields_hget (artistInfoKey_not_scratch pair.1) "genre" (db.artistInfo_kind pair.1)
    simp only [enough, decide_true, true_and]
    exact read.settles.bind (settles_popularIf db _ pair.1)
  · simp only [enough, decide_false, false_and]
    exact (Gives.done _ _ _ none).settles.bind (settles_popularIf db false pair.1)

theorem draws_pair (genre : String) {artists : List String} (some : artists ≠ []) :
    Draws (machine S) scratch db.store (do
        let origin ← Handler.choice artists
        return (origin, ← genreNeighbours P origin genre))
      fun n => ((artists[n % artists.length]?).getD "",
        genreMembers P db genre ((artists[n % artists.length]?).getD "")) :=
  (draws_choice some).bind fun _ =>
    (yields_genreNeighbours P db genre _).bind _ (Gives.done _ _ _ _)

section Runs
variable {store : Store S} (agree : AgreeOff scratch store db.store) (fuel : ℕ) (tape : Tape)
include agree

theorem run_randomOrigin (listed : Listed db none) :
    (run (machine S) (randomOrigin fuel) tape store).1 =
      hitOutcome .looping id (firstHit (fits P db none) fuel (drawn db none tape)) := by
  set term : String := termDrawn none tape with drawnTerm
  have script : randomOrigin fuel = Handler.choice genres >>= fun term =>
      (Handler.zrevrange (termArtistsKey term) 0 500 >>= Handler.choice) >>= fun origin =>
        randomOriginLoop term origin fuel := by
    simp only [Script.bind_assoc]
    rfl
  obtain ⟨read, ne⟩ := gives_topArtists db listed (termDrawn_mem none tape)
  have some : genres ≠ [] := by decide
  obtain ⟨after, ran, agree'⟩ := draws_choice some store agree tape
  rw [script, run_bind, ran]
  change (run (machine S) ((Handler.zrevrange (termArtistsKey term) 0 500 >>= Handler.choice) >>=
    fun origin => randomOriginLoop term origin fuel) tape.tail after).1 = _
  simp only [randomOriginLoop_eq]
  exact run_draw_retry (settles_random P db) (read.bind_draws (draws_choice ne)) fuel after agree' tape.tail

theorem run_genreOrigin {genre : String} (listed : Listed db (some genre)) :
    (run (machine S) (genreOrigin P genre fuel) tape store).1 =
      hitOutcome .looping id (firstHit (fits P db (some genre)) fuel (drawn db (some genre) tape)) := by
  have script : genreOrigin P genre fuel = Handler.zrevrange (termArtistsKey genre) 0 500 >>= fun artists =>
      (do
        let origin ← Handler.choice artists
        return (origin, ← genreNeighbours P origin genre)) >>= fun pair =>
        genreOriginLoop P genre artists pair.1 pair.2 fuel := by
    simp only [Script.bind_assoc]
    rfl
  obtain ⟨read, ne⟩ := gives_topArtists db listed (List.mem_singleton_self genre)
  obtain ⟨after, ran, agree'⟩ := read store agree tape
  rw [script, run_bind, ran]
  simp only [genreOriginLoop_eq]
  exact (run_draw_retry (settles_genre db genre) (draws_pair P db genre ne) fuel after agree' tape).trans
    (hitOutcome_comp (fun origin => (origin, genreMembers P db (some genre) origin)) fuel
      (drawn db (some genre) tape))

/-- The outcome is decided by the first artist drawn that is not rejected. -/
theorem run_originFor {genre : Option String} (listed : Listed db genre) :
    (run (machine S) (originFor P fuel "null" genre) tape store).1 =
      hitOutcome .looping id (firstHit (fits P db genre) fuel (drawn db genre tape)) := by
  cases genre with
  | none => exact run_randomOrigin P db agree fuel tape listed
  | some genre => exact run_genreOrigin P db agree fuel tape listed

end Runs

theorem fits_ne_looping (genre : Option String) (origin : String) :
    fits P db genre origin ≠ .error .looping := by
  have popularity : ∀ a : Bool, popularWhen db a origin ≠ .error .looping := by
    intro a
    rw [popularWhen]
    split_ifs
    · rw [popular]
      rcases db.artistInfo origin "popularity" with _ | stored
      · simp
      · rcases found : int stored with _ | popularity <;> simp [found]
    · simp
  cases genre with
  | none => exact popularity _
  | some genre => exact popularity _

theorem drawn_mem {genre : Option String} (listed : Listed db genre) (tape : Tape) (k : ℕ) :
    drawn db genre tape k ∈ topArtists db (termDrawn genre tape) := by
  obtain ⟨-, ne⟩ := gives_topArtists db listed (termDrawn_mem genre tape)
  have lt : ∀ n, n % (topArtists db (termDrawn genre tape)).length <
      (topArtists db (termDrawn genre tape)).length := fun n => Nat.mod_lt _ (List.length_pos_iff.mpr ne)
  rw [drawn, candidate, List.getElem?_eq_getElem (lt _)]
  exact List.getElem_mem (lt _)

theorem exists_drawn {genre : Option String} {term origin : String}
    (allowed : term ∈ termsFor genre) (top : origin ∈ topArtists db term) :
    ∃ tape, drawn db genre tape 0 = origin := by
  obtain ⟨index, lt, found⟩ := List.getElem_of_mem top
  have picked : candidate db term index = origin := by
    rw [candidate, Nat.mod_eq_of_lt lt, List.getElem?_eq_getElem lt, found]
    rfl
  cases genre with
  | none =>
      obtain ⟨g, lt', found'⟩ := List.getElem_of_mem allowed
      refine ⟨fun n => if n = 0 then g else index, ?_⟩
      have same : termDrawn none (fun n => if n = 0 then g else index) = term := by
        change g < genres.length at lt'
        change (genres[g % genres.length]?).getD "" = term
        rw [Nat.mod_eq_of_lt lt', List.getElem?_eq_getElem lt', Option.getD_some]
        exact found'
      rw [drawn, same]
      exact picked
  | some genre =>
      obtain rfl := List.mem_singleton.mp allowed
      exact ⟨fun _ => index, picked⟩

end Phonograph.Server.Origins
