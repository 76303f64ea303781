import Mathlib
import Phonograph.Client.View

/-! # The click lock

`reload` clears `gv.clickable` and the timer of `start_Vis`, or a reply without a
path, sets it again.  The flag is one for all requests: a timer that one reply has
armed sets it while another request is on its way.  `clickLock_iff` says in which
runs this does not happen. -/

set_option autoImplicit false

namespace Phonograph.Client.ClickLock

open Phonograph.Lib Phonograph.Server.Igrapher Phonograph.Client.PathLayout Phonograph.Client.View

inductive Signal (F : Type) where
  | event (event : Event F)
  /-- The reply `{"error": "No path found."}`. -/
  | noPath (index : ℕ)
  /-- The server or the network fails, and `graph` is undefined. -/
  | failure (index : ℕ)

section
variable {F : Type}

def LockHolds (v : Page F) : Prop := v.gv.clickable = true → v.inFlight = []

def opens (gv : Gv) : Prop := gv.route = .neighbourhood → gv.knowsArtist

instance (gv : Gv) : Decidable (opens gv) := inferInstanceAs (Decidable (_ → _))

/-- The two steps that set `gv.clickable` come when no other request is in flight. -/
def OpensIdle (v : Page F) : Signal F → Prop
  | .event .animationEnd => v.timers ≠ 0 → opens v.gv → v.inFlight = []
  | .noPath index => index < v.inFlight.length → v.inFlight.length = 1
  | _ => True

/-- The handlers that send a request without a look at `gv.clickable` are used only
while it is true. -/
def Patient (v : Page F) : Signal F → Prop
  | .event (.artist _) => v.gv.clickable = true
  | .event (.term _) => v.gv.clickable = true
  | .event .search => v.gv.clickable = true
  | .event (.genre newGenre) => v.gv.genre ≠ some newGenre → v.gv.clickable = true
  | _ => True

/-! ## One signal -/

structure Lock where
  clickable : Bool
  inFlight : ℕ
  timers : ℕ

def lock (v : Page F) : Lock := ⟨v.gv.clickable, v.inFlight.length, v.timers⟩

theorem lockHolds_iff {v : Page F} :
    LockHolds v ↔ ((lock v).clickable = true → (lock v).inFlight = 0) := by
  rw [LockHolds, lock, List.length_eq_zero_iff]

/-- What a signal does to the lock: nothing, a request is sent, a reply arrives, an
animation ends, or there is no path. -/
inductive Turn (v : Page F) (signal : Signal F) : Lock → Prop where
  | still (idle : OpensIdle v signal) : Turn v signal (lock v)
  | sent (idle : OpensIdle v signal) (patient : Patient v signal → v.gv.clickable = true) :
      Turn v signal ⟨false, v.inFlight.length + 1, v.timers⟩
  | arrived (idle : OpensIdle v signal) {left timers : ℕ} (one : v.inFlight.length = left + 1)
      (armed : timers ≤ v.timers + 1) : Turn v signal ⟨v.gv.clickable, left, timers⟩
  | ended (pending : v.timers ≠ 0)
      (idle : OpensIdle v signal ↔ (opens v.gv → v.inFlight = [])) :
      Turn v signal ⟨v.gv.clickable || decide (opens v.gv), v.inFlight.length, v.timers - 1⟩
  | refused {left : ℕ} (one : v.inFlight.length = left + 1)
      (idle : OpensIdle v signal ↔ left = 0) : Turn v signal ⟨true, left, v.timers⟩

theorem lock_reload (v : Page F) :
    lock (reload v) = ⟨false, v.inFlight.length + 1, v.timers⟩ := by
  simp [lock, reload]

/-- One request or one animation at a time, and none while the page is clickable. -/
structure OneAtATime (v : Page F) : Prop where
  one : v.inFlight.length + v.timers ≤ 1
  none : v.gv.clickable = true → v.inFlight.length + v.timers = 0

theorem opensIdle_of_oneAtATime {v : Page F} (alone : OneAtATime v) (signal : Signal F) :
    OpensIdle v signal := by
  have one := alone.one
  unfold OpensIdle
  split
  · intro pending _
    apply List.length_eq_zero_iff.mp
    omega
  · intro inside
    omega
  · trivial

theorem length_eraseIdx {v : Page F} {index : ℕ} {request : Request}
    (found : v.inFlight[index]? = some request) :
    v.inFlight.length = (v.inFlight.eraseIdx index).length + 1 := by
  have bound := (List.getElem?_eq_some_iff.mp found).1
  rw [List.length_eraseIdx, if_pos bound]
  omega

theorem turn_guarded (v : Page F) (signal : Signal F) (idle : OpensIdle v signal) {test : Prop}
    [Decidable test] (guarded : test → Patient v signal → v.gv.clickable = true) (gv : Gv) :
    Turn v signal (lock (if test then reload { v with gv := gv } else v)) := by
  split_ifs with taken
  · rw [lock_reload]
    exact .sent idle (guarded taken)
  · exact .still idle

variable [NatCast F] [Add F] [Sub F] [Mul F] [Div F] [LE F] [DecidableLE F] [LT F] [DecidableLT F]
variable (optimiseRotation : Rotation F)

def heard (v : Page F) : Signal F → Page F
  | .event event => after optimiseRotation v event
  | .noPath index =>
      match v.inFlight[index]? with
      | none => v
      | some _ =>
          { v with
            inFlight := v.inFlight.eraseIdx index
            gv := { v.gv with origin := none, clickable := true } }
  -- The callback stops at `graph.origin`.
  | .failure index => { v with inFlight := v.inFlight.eraseIdx index }

theorem lock_callback (v : Page F) (request : Request) (graph : D3Graph F) (width height : F) :
    ∃ timers ≤ v.timers + 1,
      lock (callback optimiseRotation v request graph width height) =
        ⟨v.gv.clickable, v.inFlight.length, timers⟩ := by
  have shown : ∀ gv : Gv, gv.clickable = v.gv.clickable →
      ∃ timers ≤ v.timers + 1,
        lock (startVis optimiseRotation { v with gv := gv } request graph width height) =
          ⟨v.gv.clickable, v.inFlight.length, timers⟩ := by
    intro gv same
    rw [startVis]
    split
    · exact ⟨v.timers + 1, Nat.le_refl _, by simp [lock, same]⟩
    · exact ⟨v.timers, Nat.le_succ _, by simp [lock, same]⟩
  rw [callback]
  split
  · exact shown _ rfl
  · exact shown _ rfl

theorem turn_after (v : Page F) (event : Event F) :
    Turn v (.event event) (lock (after optimiseRotation v event)) := by
  cases event with
  | artist value => exact lock_reload _ ▸ .sent trivial id
  | term value => exact lock_reload _ ▸ .sent trivial id
  | source value => exact .still trivial
  | destination value => exact .still trivial
  | search => exact lock_reload _ ▸ .sent trivial id
  | genre newGenre =>
      exact turn_guarded v (.event (.genre newGenre)) trivial
        (fun changed patient => patient changed) _
  | size newSize =>
      exact turn_guarded v (.event (.size newSize)) trivial (fun taken _ => taken.2) _
  | doubleClick id =>
      exact turn_guarded v (.event (.doubleClick id)) trivial (fun taken _ => taken.2) _
  | clickNode id =>
      rw [after]
      split_ifs
      · exact .still trivial
      · exact .still trivial
  | clickLink =>
      rw [after]
      split_ifs
      · exact .still trivial
      · exact .still trivial
  | animationEnd =>
      rw [after]
      split_ifs with none
      · exact .still fun pending => absurd none pending
      · exact .ended none (forall_prop_of_true none)
  | reply index graph width height =>
      cases found : v.inFlight[index]? with
      | none =>
          simp only [after, found]
          exact .still trivial
      | some request =>
          simp only [after, found]
          obtain ⟨timers, armed, same⟩ := lock_callback optimiseRotation
            { v with inFlight := v.inFlight.eraseIdx index } request graph width height
          have idle : OpensIdle v (.event (.reply index graph width height)) := trivial
          rw [same]
          exact .arrived idle (length_eraseIdx found) armed

theorem turn_heard (v : Page F) (signal : Signal F) :
    Turn v signal (lock (heard optimiseRotation v signal)) := by
  cases signal with
  | event event => exact turn_after optimiseRotation v event
  | noPath index =>
      cases found : v.inFlight[index]? with
      | none =>
          simp only [heard, found]
          have bound := List.getElem?_eq_none_iff.mp found
          exact .still fun inside => absurd inside (Nat.not_lt.mpr bound)
      | some request =>
          simp only [heard, found]
          have one := length_eraseIdx found
          have inside := (List.getElem?_eq_some_iff.mp found).1
          apply Turn.refused one
          rw [OpensIdle, forall_prop_of_true inside]
          omega
  | failure index =>
      cases found : v.inFlight[index]? with
      | none =>
          have bound := List.getElem?_eq_none_iff.mp found
          simp only [heard, List.eraseIdx_of_length_le bound]
          exact .still trivial
      | some request =>
          have idle : OpensIdle v (.failure index) := trivial
          exact .arrived idle (length_eraseIdx found) (Nat.le_succ _)

/-! ## Every run -/

theorem lockHolds_heard_iff {v : Page F} (held : LockHolds v) (signal : Signal F) :
    LockHolds (heard optimiseRotation v signal) ↔ OpensIdle v signal := by
  have turn := turn_heard optimiseRotation v signal
  rw [lockHolds_iff]
  generalize lock (heard optimiseRotation v signal) = next at turn
  cases turn with
  | still idle => exact iff_of_true (lockHolds_iff.mp held) idle
  | sent idle _ =>
      apply iff_of_true _ idle
      intro false
      cases false
  | arrived idle one _ =>
      apply iff_of_true _ idle
      intro clickable
      rw [held clickable, List.length_nil] at one
      omega
  | ended one idle =>
      rw [idle, ← List.length_eq_zero_iff]
      constructor
      · intro locked open'
        exact locked (by simp [open'])
      · intro idle clickable
        rcases (Bool.or_eq_true _ _).mp clickable with before | now
        · exact List.length_eq_zero_iff.mpr (held before)
        · exact idle (of_decide_eq_true now)
  | refused one idle =>
      rw [idle]
      exact forall_prop_of_true rfl

theorem oneAtATime_heard {v : Page F} (alone : OneAtATime v) {signal : Signal F}
    (patient : Patient v signal) : OneAtATime (heard optimiseRotation v signal) := by
  have kept : (lock (heard optimiseRotation v signal)).inFlight +
        (lock (heard optimiseRotation v signal)).timers ≤ 1 ∧
      ((lock (heard optimiseRotation v signal)).clickable = true →
        (lock (heard optimiseRotation v signal)).inFlight +
          (lock (heard optimiseRotation v signal)).timers = 0) := by
    have turn := turn_heard optimiseRotation v signal
    generalize lock (heard optimiseRotation v signal) = next at turn
    obtain ⟨one, none⟩ := alone
    cases turn with
    | still _ => exact ⟨one, none⟩
    | sent _ waited =>
        have quiet := none (waited patient)
        constructor
        · dsimp only
          omega
        · intro false
          cases false
    | arrived _ same armed =>
        constructor
        · dsimp only
          omega
        · intro clickable
          have quiet := none clickable
          omega
    | ended same _ =>
        constructor
        · dsimp only
          omega
        · intro _
          dsimp only
          omega
    | refused same _ =>
        constructor
        · dsimp only
          omega
        · intro _
          dsimp only
          omega
  exact ⟨kept.1, kept.2⟩

/-- Along every run, `gv.clickable` is true only while no request is in flight,
exactly if the steps that set it find no other request in flight.  So it is in every
run in which the triggers that do not test the flag wait for it. -/
theorem clickLock_iff (signals : List (Signal F)) :
    ((LockHolds (Page.initial : Page F) ∧
        Along (heard optimiseRotation)
          (fun v signal => LockHolds (heard optimiseRotation v signal)) .initial signals) ↔
      Along (heard optimiseRotation) OpensIdle .initial signals) ∧
    (Along (heard optimiseRotation) Patient .initial signals →
      Along (heard optimiseRotation) OpensIdle .initial signals) := by
  have start : LockHolds (Page.initial : Page F) := by
    intro clickable
    cases clickable
  constructor
  · rw [and_iff_right start]
    exact along_iff LockHolds (fun v signal held => lockHolds_heard_iff optimiseRotation held signal)
      (fun _ _ _ next => next) signals .initial start
  · intro patient
    have alone : OneAtATime (Page.initial : Page F) := by
      constructor
      · simp [Page.initial, reload]
      · intro clickable
        cases clickable
    have both : Along (heard optimiseRotation)
        (fun v signal => Patient v signal ∧ OpensIdle v signal) .initial signals :=
      (along_iff OneAtATime
        (fun v signal alone => (and_iff_left (opensIdle_of_oneAtATime alone signal)).symm)
        (fun v signal alone patient => oneAtATime_heard optimiseRotation alone patient)
        signals .initial alone).mp patient
    exact ((along_and signals Page.initial).mp both).2

end

/-- The first view arrives, an artist is chosen while it is animated, and the end of
the animation unlocks the page. -/
theorem not_lockHolds :
    ¬ LockHolds (List.foldl (heard noRotation) .initial
      [.event (.reply 0 (loneReply "b") 1160 420), .event (.artist "x"),
        .event .animationEnd]) := by
  intro held
  exact absurd (held rfl) (by decide)

end Phonograph.Client.ClickLock
