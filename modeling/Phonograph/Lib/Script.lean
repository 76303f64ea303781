import Mathlib.Data.List.Forall2
import Mathlib.Data.Set.Basic
import Mathlib.Logic.Function.Basic

/-! # Scripts over a shared store

A script is a finite-branching tree of atomic commands and random draws.  It is
run alone against a store, or as one of several threads whose commands are
interleaved by a schedule.  A machine gives each command its effect together
with its footprint: the keys it may read and the keys it may write.

`run_congr`: a script that reads a scratch key only right after writing it
answers the same on stores that differ in scratch keys only.
`interleave_isolated`: a schedule in which no command writes a key that is live
in another thread gives every thread the outcome it has alone; for such scripts
it is enough that no command writes what another is about to read. -/

set_option autoImplicit false

namespace Phonograph.Lib

abbrev Tape := ℕ → ℕ

def Tape.tail (tape : Tape) : Tape := fun n => tape (n + 1)

inductive Script (C : Type) (R : C → Type) (E : Type) (α : Type) : Type where
  | done (value : α) : Script C R E α
  | fail (error : E) : Script C R E α
  | call (command : C) (next : R command → Script C R E α) : Script C R E α
  | draw (next : ℕ → Script C R E α) : Script C R E α

section Syntax
variable {C : Type} {R : C → Type} {E α β γ : Type}

namespace Script

def bind : Script C R E α → (α → Script C R E β) → Script C R E β
  | .done value, rest => rest value
  | .fail error, _ => .fail error
  | .call command next, rest => .call command fun reply => (next reply).bind rest
  | .draw next, rest => .draw fun n => (next n).bind rest

instance : Monad (Script C R E) where
  pure := .done
  bind := bind

@[simp] theorem pure_eq (value : α) : (pure value : Script C R E α) = .done value := rfl

@[simp] theorem done_bind (value : α) (rest : α → Script C R E β) :
    (Script.done value >>= rest) = rest value := rfl

@[simp] theorem fail_bind (error : E) (rest : α → Script C R E β) :
    ((.fail error : Script C R E α) >>= rest) = .fail error := rfl

@[simp] theorem call_bind (command : C) (next : R command → Script C R E α)
    (rest : α → Script C R E β) :
    (Script.call command next >>= rest) = .call command fun reply => next reply >>= rest := rfl

@[simp] theorem draw_bind (next : ℕ → Script C R E α) (rest : α → Script C R E β) :
    (Script.draw next >>= rest) = .draw fun n => next n >>= rest := rfl

theorem bind_done (script : Script C R E α) : (script >>= .done) = script := by
  induction script with
  | done value => rfl
  | fail error => rfl
  | call command next ih => simp only [call_bind, ih]
  | draw next ih => simp only [draw_bind, ih]

theorem bind_assoc (script : Script C R E α) (first : α → Script C R E β)
    (second : β → Script C R E γ) :
    ((script >>= first) >>= second) = script >>= fun value => first value >>= second := by
  induction script with
  | done value => rfl
  | fail error => rfl
  | call command next ih => simp only [call_bind, ih]
  | draw next ih => simp only [draw_bind, ih]

instance : LawfulMonad (Script C R E) :=
  LawfulMonad.mk' (Script C R E) bind_done (fun _ _ => rfl) bind_assoc

def Calls (allowed : C → Prop) : Script C R E α → Prop
  | .done _ => True
  | .fail _ => True
  | .call command next => allowed command ∧ ∀ reply, (next reply).Calls allowed
  | .draw next => ∀ n, (next n).Calls allowed

theorem Calls.bind {allowed : C → Prop} {script : Script C R E α}
    {rest : α → Script C R E β} (first : script.Calls allowed)
    (second : ∀ value, (rest value).Calls allowed) : (script >>= rest).Calls allowed := by
  induction script with
  | done value => exact second value
  | fail error => trivial
  | call command next ih => exact ⟨first.1, fun reply => ih reply (first.2 reply)⟩
  | draw next ih => exact fun n => ih n (first n)

theorem Calls.foldlM {allowed : C → Prop} {ι : Type} {body : α → ι → Script C R E α}
    (each : ∀ acc item, (body acc item).Calls allowed) :
    ∀ (items : List ι) (acc : α), (items.foldlM body acc).Calls allowed := by
  intro items
  induction items with
  | nil => intro acc; trivial
  | cons item items ih =>
      intro acc
      rw [List.foldlM_cons]
      exact (each acc item).bind ih

theorem Calls.mapM {allowed : C → Prop} {ι : Type} {body : ι → Script C R E α}
    (each : ∀ item, (body item).Calls allowed) :
    ∀ items : List ι, (items.mapM body).Calls allowed := by
  intro items
  induction items with
  | nil => simp [Calls]
  | cons item items ih =>
      rw [List.mapM_cons]
      exact (each item).bind fun value => ih.bind fun values => trivial

def Ensures (post : α → Prop) : Script C R E α → Prop
  | .done value => post value
  | .fail _ => True
  | .call _ next => ∀ reply, (next reply).Ensures post
  | .draw next => ∀ n, (next n).Ensures post

theorem Ensures.bind {middle : α → Prop} {post : β → Prop} {script : Script C R E α}
    {rest : α → Script C R E β} (first : script.Ensures middle)
    (second : ∀ value, middle value → (rest value).Ensures post) :
    (script >>= rest).Ensures post := by
  induction script with
  | done value => exact second value first
  | fail error => trivial
  | call command next ih => exact fun reply => ih reply (first reply)
  | draw next ih => exact fun n => ih n (first n)

theorem ensures_true (script : Script C R E α) : script.Ensures fun _ => True := by
  induction script with
  | done value => trivial
  | fail error => trivial
  | call command next ih => exact ih
  | draw next ih => exact ih

theorem Ensures.mapM {ι : Type} {body : ι → Script C R E α} {post : ι → α → Prop}
    (each : ∀ item, (body item).Ensures (post item)) :
    ∀ items : List ι, (items.mapM body).Ensures (List.Forall₂ post items) := by
  intro items
  induction items with
  | nil => simp [Ensures]
  | cons item items ih =>
      rw [List.mapM_cons]
      exact (each item).bind fun value first => ih.bind fun values rest => .cons first rest

end Script
end Syntax

/-- Atomic commands on a store, with footprints that bound their effect. -/
structure Machine (C : Type) (R : C → Type) (E K V : Type) where
  exec : (command : C) → (K → V) → Except E (R command × (K → V))
  reads : C → Set K
  writes : C → Set K
  frame : ∀ command store reply after, exec command store = .ok (reply, after) →
    ∀ key, key ∉ writes command → after key = store key
  answer : ∀ command store other, (∀ key ∈ reads command, store key = other key) →
    (exec command store).map Prod.fst = (exec command other).map Prod.fst
  effect : ∀ command store other reply after reply' after',
    (∀ key ∈ reads command, store key = other key) →
    exec command store = .ok (reply, after) → exec command other = .ok (reply', after') →
    ∀ key ∈ writes command, after key = after' key

section Semantics
variable {C : Type} {R : C → Type} {E K V α β : Type} (m : Machine C R E K V)

/-- Running alone: the outcome, the unused tape and the store left behind. -/
def run : Script C R E α → Tape → (K → V) → Except E α × Tape × (K → V)
  | .done value, tape, store => (.ok value, tape, store)
  | .fail error, tape, store => (.error error, tape, store)
  | .call command next, tape, store =>
      match m.exec command store with
      | .error error => (.error error, tape, store)
      | .ok (reply, after) => run (next reply) tape after
  | .draw next, tape, store => run (next (tape 0)) tape.tail store

@[simp] theorem run_done (value : α) (tape : Tape) (store : K → V) :
    run m (.done value) tape store = (.ok value, tape, store) := rfl

@[simp] theorem run_fail (error : E) (tape : Tape) (store : K → V) :
    run m (.fail error : Script C R E α) tape store = (.error error, tape, store) := rfl

theorem run_call (command : C) (next : R command → Script C R E α) (tape : Tape)
    (store : K → V) :
    run m (.call command next) tape store =
      match m.exec command store with
      | .error error => (.error error, tape, store)
      | .ok (reply, after) => run m (next reply) tape after := by
  rw [run]

@[simp] theorem run_draw (next : ℕ → Script C R E α) (tape : Tape) (store : K → V) :
    run m (.draw next) tape store = run m (next (tape 0)) tape.tail store := rfl

theorem run_bind (script : Script C R E α) (rest : α → Script C R E β) (tape : Tape)
    (store : K → V) :
    run m (script >>= rest) tape store =
      match run m script tape store with
      | (.ok value, tape', store') => run m (rest value) tape' store'
      | (.error error, tape', store') => (.error error, tape', store') := by
  induction script generalizing tape store with
  | done value => rfl
  | fail error => rfl
  | call command next ih =>
      rw [Script.call_bind, run_call, run_call]
      cases m.exec command store with
      | error error => rfl
      | ok result => exact ih result.1 tape result.2
  | draw next ih => exact ih (tape 0) tape.tail store

/-- A script that returns a value has passed through one of its first part. -/
theorem run_bind_eq_ok {script : Script C R E α} {rest : α → Script C R E β} {tape tape' : Tape}
    {store store' : K → V} {value : β}
    (ran : run m (script >>= rest) tape store = (.ok value, tape', store')) :
    ∃ middle tape'' store'', run m script tape store = (.ok middle, tape'', store'') ∧
      run m (rest middle) tape'' store'' = (.ok value, tape', store') := by
  rw [run_bind] at ran
  generalize run m script tape store = first at ran
  obtain ⟨outcome, tape'', store''⟩ := first
  cases outcome with
  | error error => cases ran
  | ok middle => exact ⟨middle, tape'', store'', rfl, ran⟩

theorem run_ensures {script : Script C R E α} {post : α → Prop} (h : script.Ensures post)
    {tape : Tape} {store : K → V} {value : α} (ran : (run m script tape store).1 = .ok value) :
    post value := by
  induction script generalizing tape store with
  | done value' => exact Except.ok.inj ran ▸ h
  | fail error => cases ran
  | call command next ih =>
      rw [run_call] at ran
      cases step : m.exec command store with
      | error error => rw [step] at ran; cases ran
      | ok result => rw [step] at ran; exact ih result.1 (h result.1) ran
  | draw next ih => exact ih _ (h _) ran

def AgreeOff (scratch : Set K) (store other : K → V) : Prop :=
  ∀ key, key ∉ scratch → store key = other key

theorem AgreeOff.refl (scratch : Set K) (store : K → V) : AgreeOff scratch store store :=
  fun _ _ => rfl

theorem AgreeOff.trans {scratch : Set K} {first second third : K → V}
    (h : AgreeOff scratch first second) (h' : AgreeOff scratch second third) :
    AgreeOff scratch first third :=
  fun key fresh => (h key fresh).trans (h' key fresh)

/-! ## Scripts that write scratch keys only -/

def WritesOnly (scratch : Set K) : Script C R E α → Prop :=
  Script.Calls fun command => m.writes command ⊆ scratch

theorem run_agreeOff {scratch : Set K} {script : Script C R E α}
    (h : WritesOnly m scratch script) (tape : Tape) (store : K → V) :
    AgreeOff scratch (run m script tape store).2.2 store := by
  induction script generalizing tape store with
  | done value => exact AgreeOff.refl _ _
  | fail error => exact AgreeOff.refl _ _
  | call command next ih =>
      rw [run_call]
      cases step : m.exec command store with
      | error error => exact AgreeOff.refl _ _
      | ok result =>
          obtain ⟨reply, after⟩ := result
          refine (ih reply (h.2 reply) tape after).trans fun key fresh => ?_
          exact m.frame command store reply after step key fun written => fresh (h.1 written)
  | draw next ih => exact ih (tape 0) (h (tape 0)) tape.tail store

/-! ## Scripts that read a scratch key only right after writing it -/

/-- `fresh` holds the keys the operation just before has written. -/
def Prompt (scratch : Set K) : Set K → Script C R E α → Prop
  | _, .done _ => True
  | _, .fail _ => True
  | fresh, .call command next =>
      (∀ key ∈ m.reads command, key ∈ scratch → key ∈ fresh) ∧
        ∀ reply, Prompt scratch (m.writes command) (next reply)
  | _, .draw next => ∀ n, Prompt scratch ∅ (next n)

theorem Prompt.mono {scratch fresh more : Set K} {script : Script C R E α}
    (h : Prompt m scratch fresh script) (sub : fresh ⊆ more) : Prompt m scratch more script := by
  cases script with
  | done value => trivial
  | fail error => trivial
  | call command next => exact ⟨fun key read scratched => sub (h.1 key read scratched), h.2⟩
  | draw next => exact h

theorem Prompt.bind {scratch fresh : Set K} {script : Script C R E α}
    {rest : α → Script C R E β} (first : Prompt m scratch fresh script)
    (second : ∀ value, Prompt m scratch ∅ (rest value)) :
    Prompt m scratch fresh (script >>= rest) := by
  induction script generalizing fresh with
  | done value => exact (second value).mono m (Set.empty_subset fresh)
  | fail error => trivial
  | call command next ih => exact ⟨first.1, fun reply => ih reply (first.2 reply)⟩
  | draw next ih => exact fun n => ih n (first n)

theorem Prompt.foldlM {scratch : Set K} {ι : Type} {body : α → ι → Script C R E α}
    (each : ∀ acc item, Prompt m scratch ∅ (body acc item)) :
    ∀ (items : List ι) (acc : α), Prompt m scratch ∅ (items.foldlM body acc) := by
  intro items
  induction items with
  | nil => intro acc; trivial
  | cons item items ih =>
      intro acc
      rw [List.foldlM_cons]
      exact (each acc item).bind m ih

theorem Prompt.of_calls {scratch : Set K} {script : Script C R E α}
    (h : script.Calls fun command => ∀ key ∈ m.reads command, key ∉ scratch)
    (fresh : Set K) : Prompt m scratch fresh script := by
  induction script generalizing fresh with
  | done value => trivial
  | fail error => trivial
  | call command next ih =>
      refine ⟨fun key read scratched => ?_, fun reply => ih reply (h.2 reply) _⟩
      exact absurd scratched (h.1 key read)
  | draw next ih => exact fun n => ih n (h n) ∅

private theorem exec_agree {command : C} {store other : K → V}
    (same : ∀ key ∈ m.reads command, store key = other key) :
    (∃ error, m.exec command store = .error error ∧ m.exec command other = .error error) ∨
      ∃ reply after after', m.exec command store = .ok (reply, after) ∧
        m.exec command other = .ok (reply, after') ∧
        ∀ key, (store key = other key ∨ key ∈ m.writes command) → after key = after' key := by
  have answers := m.answer command store other same
  cases left : m.exec command store with
  | error error =>
      cases right : m.exec command other with
      | error error' =>
          rw [left, right] at answers
          cases answers
          exact Or.inl ⟨error, rfl, rfl⟩
      | ok result => rw [left, right] at answers; cases answers
  | ok result =>
      obtain ⟨reply, after⟩ := result
      cases right : m.exec command other with
      | error error => rw [left, right] at answers; cases answers
      | ok result' =>
          obtain ⟨reply', after'⟩ := result'
          rw [left, right] at answers
          obtain rfl : reply = reply' := Except.ok.inj answers
          refine Or.inr ⟨reply, after, after', rfl, rfl, fun key agree => ?_⟩
          by_cases written : key ∈ m.writes command
          · exact m.effect command store other reply after reply after' same left right key written
          · rw [m.frame command store reply after left key written,
              m.frame command other reply after' right key written]
            exact agree.resolve_right written

/-- The outcome of a prompt script depends on no scratch key. -/
theorem run_congr {scratch fresh : Set K} {script : Script C R E α}
    (h : Prompt m scratch fresh script) (tape : Tape) (store other : K → V)
    (same : ∀ key, (key ∈ scratch → key ∈ fresh) → store key = other key) :
    (run m script tape store).1 = (run m script tape other).1 := by
  induction script generalizing fresh tape store other with
  | done value => rfl
  | fail error => rfl
  | call command next ih =>
      rw [run_call, run_call]
      obtain ⟨error, left, right⟩ | ⟨reply, after, after', left, right, agree⟩ :=
        exec_agree m fun key read => same key (h.1 key read)
      · rw [left, right]
      · rw [left, right]
        refine ih reply (h.2 reply) tape after after' fun key own => agree key ?_
        by_cases scratched : key ∈ scratch
        · exact Or.inr (own scratched)
        · exact Or.inl (same key fun scratched' => absurd scratched' scratched)
  | draw next ih =>
      refine ih (tape 0) (h (tape 0)) tape.tail store other fun key own => ?_
      exact same key fun scratched => absurd (own scratched) (Set.notMem_empty key)

/-! ## What a script gives on a database, whatever the scratch keys hold -/

/-- On every store that agrees with `base` off the scratch keys the script
returns `value`, draws nothing and touches scratch keys only. -/
def Gives (scratch : Set K) (base : K → V) (script : Script C R E α) (value : α) : Prop :=
  ∀ store, AgreeOff scratch store base → ∀ tape, ∃ after,
    run m script tape store = (.ok value, tape, after) ∧ AgreeOff scratch after base

theorem Gives.done (scratch : Set K) (base : K → V) (value : α) :
    Gives m scratch base (.done value : Script C R E α) value :=
  fun store agree _ => ⟨store, rfl, agree⟩

theorem Gives.bind {scratch : Set K} {base : K → V} {script : Script C R E α}
    {rest : α → Script C R E β} {value : α} {result : β}
    (first : Gives m scratch base script value)
    (second : Gives m scratch base (rest value) result) :
    Gives m scratch base (script >>= rest) result := by
  intro store agree tape
  obtain ⟨middle, ran, agree'⟩ := first store agree tape
  obtain ⟨after, ran', agree''⟩ := second middle agree' tape
  exact ⟨after, by rw [run_bind, ran]; exact ran', agree''⟩

/-- A loop follows the fold of what each round does to a view of its accumulator,
as long as the rounds keep the invariant. -/
theorem Gives.foldlM_view {scratch : Set K} {base : K → V} {ι γ : Type}
    {body : α → ι → Script C R E α} (view : α → γ) (next : γ → ι → γ) (inv : α → Prop) :
    ∀ (items : List ι) (acc : α), inv acc →
      (∀ acc, ∀ item ∈ items, inv acc → ∃ acc', Gives m scratch base (body acc item) acc' ∧
        view acc' = next (view acc) item ∧ inv acc') →
      ∃ acc', Gives m scratch base (items.foldlM body acc) acc' ∧
        view acc' = items.foldl next (view acc) ∧ inv acc' := by
  intro items
  induction items with
  | nil => intro acc start _; exact ⟨acc, Gives.done m scratch base acc, rfl, start⟩
  | cons item items ih =>
      intro acc start each
      obtain ⟨middle, first, seen, kept⟩ := each acc item (List.mem_cons_self ..) start
      obtain ⟨last, rest, seen', kept'⟩ := ih middle kept fun acc' item' member =>
        each acc' item' (List.mem_cons_of_mem _ member)
      rw [seen] at seen'
      exact ⟨last, by rw [List.foldlM_cons]; exact first.bind m rest, seen', kept'⟩

theorem Gives.foldlM {scratch : Set K} {base : K → V} {ι : Type}
    {body : α → ι → Script C R E α} {step : α → ι → α} (items : List ι) (acc : α)
    (each : ∀ acc, ∀ item ∈ items, Gives m scratch base (body acc item) (step acc item)) :
    Gives m scratch base (items.foldlM body acc) (items.foldl step acc) := by
  obtain ⟨acc', gives, same, _⟩ := Gives.foldlM_view m id step (fun _ => True)
    items acc trivial fun acc item member _ => ⟨_, each acc item member, rfl, trivial⟩
  exact (same : acc' = _) ▸ gives

theorem Gives.mapM {scratch : Set K} {base : K → V} {ι : Type}
    {body : ι → Script C R E α} {step : ι → α} :
    ∀ items : List ι, (∀ item ∈ items, Gives m scratch base (body item) (step item)) →
      Gives m scratch base (items.mapM body) (items.map step) := by
  intro items
  induction items with
  | nil => intro _; simpa using Gives.done m scratch base []
  | cons item items ih =>
      intro each
      rw [List.mapM_cons, List.map_cons]
      refine (each item (List.mem_cons_self ..)).bind m ?_
      refine (ih fun item' member => each item' (List.mem_cons_of_mem _ member)).bind m ?_
      exact Gives.done m scratch base _

theorem Gives.call {scratch : Set K} {base : K → V} {command : C} {reply : R command}
    {next : R command → Script C R E α} {value : α}
    (answers : ∀ store, AgreeOff scratch store base → ∃ after,
      m.exec command store = .ok (reply, after) ∧ AgreeOff scratch after base)
    (rest : Gives m scratch base (next reply) value) :
    Gives m scratch base (.call command next) value := by
  intro store agree tape
  obtain ⟨middle, ran, agree'⟩ := answers store agree
  obtain ⟨after, ran', agree''⟩ := rest middle agree' tape
  exact ⟨after, by rw [run_call, ran]; exact ran', agree''⟩

/-! ## Interleaved threads -/

structure Thread (C : Type) (R : C → Type) (E α : Type) where
  script : Script C R E α
  tape : Tape

def advance (thread : Thread C R E α) (store : K → V) : Thread C R E α × (K → V) :=
  match thread.script with
  | .done _ => (thread, store)
  | .fail _ => (thread, store)
  | .call command next =>
      match m.exec command store with
      | .error error => (⟨.fail error, thread.tape⟩, store)
      | .ok (reply, after) => (⟨next reply, thread.tape⟩, after)
  | .draw next => (⟨next (thread.tape 0), thread.tape.tail⟩, store)

def nextWrites : Script C R E α → Set K
  | .call command _ => m.writes command
  | _ => ∅

def nextReads : Script C R E α → Set K
  | .call command _ => m.reads command
  | _ => ∅

/-- The script may still read what is stored at `key` now: a read lies ahead
that no write of its own precedes. -/
inductive Live (key : K) : Script C R E α → Prop where
  | read {command : C} {next : R command → Script C R E α} :
      key ∈ m.reads command → Live key (.call command next)
  | later {command : C} {next : R command → Script C R E α} {reply : R command} :
      key ∉ m.writes command → Live key (next reply) → Live key (.call command next)
  | draw {next : ℕ → Script C R E α} {n : ℕ} : Live key (next n) → Live key (.draw next)

/-- In a prompt script a scratch key is live only while its own write is just behind. -/
theorem Live.of_prompt {scratch fresh : Set K} {script : Script C R E α} {key : K}
    (live : Live m key script) (prompt : Prompt m scratch fresh script)
    (scratched : key ∈ scratch) : key ∈ fresh ∧ key ∈ nextReads m script := by
  induction live generalizing fresh with
  | read read => exact ⟨prompt.1 _ read scratched, read⟩
  | later kept _ ih => exact absurd (ih (prompt.2 _)).1 kept
  | draw _ ih => exact absurd (ih (prompt _)).1 (Set.notMem_empty key)

variable {ι : Type} [DecidableEq ι]

structure Pool (ι C : Type) (R : C → Type) (E K V α : Type) where
  threads : ι → Thread C R E α
  store : K → V

def Pool.step (pool : Pool ι C R E K V α) (i : ι) : Pool ι C R E K V α :=
  let moved := advance m (pool.threads i) pool.store
  ⟨Function.update pool.threads i moved.1, moved.2⟩

def Pool.interleave : List ι → Pool ι C R E K V α → Pool ι C R E K V α
  | [], pool => pool
  | i :: schedule, pool => Pool.interleave schedule (pool.step m i)

/-- No move of the schedule writes a key that is live in another thread. -/
def Pool.Undisturbed : List ι → Pool ι C R E K V α → Prop
  | [], _ => True
  | i :: schedule, pool =>
      (∀ key ∈ nextWrites m (pool.threads i).script, ∀ j, j ≠ i →
        ¬ Live m key (pool.threads j).script) ∧
      Pool.Undisturbed schedule (pool.step m i)

def outcome : Script C R E α → Option (Except E α)
  | .done value => some (.ok value)
  | .fail error => some (.error error)
  | _ => none

/-- A thread owes `result`: on some store that agrees with the shared one on
every live key, its remaining script ends in `result`. -/
def Owes (thread : Thread C R E α) (store : K → V) (result : Except E α) : Prop :=
  ∃ alone : K → V, (∀ key, Live m key thread.script → store key = alone key) ∧
    (run m thread.script thread.tape alone).1 = result

theorem owes_advance {thread : Thread C R E α} {store : K → V} {result : Except E α}
    (h : Owes m thread store result) :
    Owes m (advance m thread store).1 (advance m thread store).2 result := by
  obtain ⟨script, tape⟩ := thread
  obtain ⟨alone, agree, ends⟩ := h
  cases script with
  | done value => exact ⟨alone, agree, ends⟩
  | fail error => exact ⟨alone, agree, ends⟩
  | call command next =>
      simp only [run_call] at ends
      obtain ⟨error, left, right⟩ | ⟨reply, after, after', left, right, same⟩ :=
        exec_agree m fun key read => agree key (.read read)
      · rw [right] at ends
        simp only [advance, left]
        exact ⟨alone, fun key live => (by cases live), ends⟩
      · rw [right] at ends
        simp only [advance, left]
        refine ⟨after', fun key live => same key ?_, ends⟩
        by_cases written : key ∈ m.writes command
        · exact Or.inr written
        · exact Or.inl (agree key (.later written live))
  | draw next => exact ⟨alone, fun key live => agree key (.draw live), ends⟩

theorem advance_frame (thread : Thread C R E α) (store : K → V) (key : K)
    (kept : key ∉ nextWrites m thread.script) : (advance m thread store).2 key = store key := by
  obtain ⟨script, tape⟩ := thread
  cases script with
  | done value => rfl
  | fail error => rfl
  | call command next =>
      cases step : m.exec command store with
      | error error => simp only [advance, step]
      | ok result =>
          simp only [advance, step]
          exact m.frame command store result.1 result.2 step key kept
  | draw next => rfl

theorem owes_step {pool : Pool ι C R E K V α} {i j : ι} {result : Except E α}
    (quiet : ∀ key ∈ nextWrites m (pool.threads i).script, ∀ j, j ≠ i →
      ¬ Live m key (pool.threads j).script)
    (h : Owes m (pool.threads j) pool.store result) :
    Owes m ((pool.step m i).threads j) (pool.step m i).store result := by
  by_cases same : j = i
  · subst same
    simpa [Pool.step] using owes_advance m h
  · obtain ⟨alone, agree, ends⟩ := h
    simp only [Pool.step, Function.update_of_ne same]
    refine ⟨alone, fun key live => ?_, ends⟩
    rw [advance_frame m _ _ key fun written => quiet key written j same live]
    exact agree key live

/-- Every thread that has ended has the outcome it has when run alone. -/
theorem interleave_isolated (schedule : List ι) (pool : Pool ι C R E K V α)
    (undisturbed : pool.Undisturbed m schedule) (j : ι) (result : Except E α)
    (ended : outcome ((pool.interleave m schedule).threads j).script = some result) :
    (run m (pool.threads j).script (pool.threads j).tape pool.store).1 = result := by
  have owes : ∀ (schedule : List ι) (pool : Pool ι C R E K V α) (result : Except E α),
      pool.Undisturbed m schedule → Owes m (pool.threads j) pool.store result →
      Owes m ((pool.interleave m schedule).threads j) (pool.interleave m schedule).store
        result := by
    intro schedule
    induction schedule with
    | nil => intro pool result _ h; exact h
    | cons i schedule ih =>
        intro pool result quiet h
        exact ih _ _ quiet.2 (owes_step m quiet.1 h)
  obtain ⟨alone, -, ends⟩ := owes schedule pool _ undisturbed ⟨pool.store, fun _ _ => rfl, rfl⟩
  rw [← ends]
  generalize ((pool.interleave m schedule).threads j) = thread at ended
  obtain ⟨script, tape⟩ := thread
  cases script with
  | done value => exact Option.some.inj ended
  | fail error => exact Option.some.inj ended
  | call command next => cases ended
  | draw next => cases ended

/-! ## Isolation of prompt threads -/

/-- No move of the schedule writes a key that another thread is about to read. -/
def Pool.Apart : List ι → Pool ι C R E K V α → Prop
  | [], _ => True
  | i :: schedule, pool =>
      (∀ key ∈ nextWrites m (pool.threads i).script, ∀ j, j ≠ i →
        key ∉ nextReads m (pool.threads j).script) ∧
      Pool.Apart schedule (pool.step m i)

/-- The thread writes its own scratch keys only and reads back what it just wrote. -/
def Tidy (scratch own : Set K) (script : Script C R E α) : Prop :=
  WritesOnly m own script ∧ ∃ fresh ⊆ own, Prompt m scratch fresh script

theorem tidy_advance {scratch own : Set K} {thread : Thread C R E α} (store : K → V)
    (h : Tidy m scratch own thread.script) :
    Tidy m scratch own (advance m thread store).1.script := by
  obtain ⟨script, tape⟩ := thread
  obtain ⟨writes, fresh, sub, prompt⟩ := h
  cases script with
  | done value => exact ⟨trivial, fresh, sub, trivial⟩
  | fail error => exact ⟨trivial, fresh, sub, trivial⟩
  | call command next =>
      cases step : m.exec command store with
      | error error =>
          simp only [advance, step]
          exact ⟨trivial, fresh, sub, trivial⟩
      | ok result =>
          simp only [advance, step]
          exact ⟨writes.2 result.1, _, writes.1, prompt.2 result.1⟩
  | draw next => exact ⟨writes (tape 0), ∅, Set.empty_subset own, prompt (tape 0)⟩

theorem tidy_step {scratch : Set K} {own : ι → Set K} {pool : Pool ι C R E K V α} (i : ι)
    (h : ∀ j, Tidy m scratch (own j) (pool.threads j).script) :
    ∀ j, Tidy m scratch (own j) ((pool.step m i).threads j).script := by
  intro j
  by_cases same : j = i
  · subst same
    simpa [Pool.step] using tidy_advance m pool.store (h j)
  · simpa [Pool.step, Function.update_of_ne same] using h j

theorem nextWrites_subset {own : Set K} {script : Script C R E α} (h : WritesOnly m own script) :
    nextWrites m script ⊆ own := by
  cases script with
  | done value => exact Set.empty_subset own
  | fail error => exact Set.empty_subset own
  | call command next => exact h.1
  | draw next => exact Set.empty_subset own

/-- For tidy threads it is enough that no command writes what another thread's
next command reads. -/
theorem undisturbed_of_apart {scratch : Set K} {own : ι → Set K} (inside : ∀ j, own j ⊆ scratch) :
    ∀ (schedule : List ι) (pool : Pool ι C R E K V α),
      (∀ j, Tidy m scratch (own j) (pool.threads j).script) → pool.Apart m schedule →
      pool.Undisturbed m schedule := by
  intro schedule
  induction schedule with
  | nil => intro pool _ _; trivial
  | cons i schedule ih =>
      intro pool tidy apart
      refine ⟨fun key written j ne live => ?_, ih _ (tidy_step m i tidy) apart.2⟩
      obtain ⟨fresh, _, prompt⟩ := (tidy j).2
      have scratched := inside i (nextWrites_subset m (tidy i).1 written)
      exact apart.1 key written j ne (live.of_prompt m prompt scratched).2

/-- Tidy threads with scratch keys of their own never get in each other's way. -/
theorem apart_of_disjoint {scratch : Set K} {own : ι → Set K} (inside : ∀ j, own j ⊆ scratch)
    (disjoint : ∀ i j key, i ≠ j → key ∈ own i → key ∉ own j) :
    ∀ (schedule : List ι) (pool : Pool ι C R E K V α),
      (∀ j, Tidy m scratch (own j) (pool.threads j).script) → pool.Apart m schedule := by
  intro schedule
  induction schedule with
  | nil => intro pool _; trivial
  | cons i schedule ih =>
      intro pool tidy
      refine ⟨fun key written j ne read => ?_, ih _ (tidy_step m i tidy)⟩
      obtain ⟨fresh, sub, prompt⟩ := (tidy j).2
      have mine := nextWrites_subset m (tidy i).1 written
      have live : Live m key (pool.threads j).script := by
        cases script : (pool.threads j).script with
        | call command next => rw [script] at read; exact .read read
        | done value => rw [script] at read; cases read
        | fail error => rw [script] at read; cases read
        | draw next => rw [script] at read; cases read
      exact disjoint i j key (Ne.symm ne) mine (sub (live.of_prompt m prompt (inside i mine)).1)

end Semantics

end Phonograph.Lib
