import Phonograph.Lib.Script

/-! # Machines and what implements them

A backend answers the commands of a machine on a state of its own.  A command may use
what its environment hands it, and it can get stuck.  When every command alone answers
as the machine does and keeps the two states related, any interleaving of scripts
passes through the same threads on both and never gets stuck. -/

set_option autoImplicit false

namespace Phonograph.Lib

variable {C : Type} {R : C → Type} {E A T K V α : Type}

/-- Commands on a concrete state, each given a resource; `none` is a stuck command. -/
abbrev Backend (C : Type) (R : C → Type) (E A T : Type) :=
  (command : C) → A → T → Option (Except E (R command × T))

namespace Backend
variable (b : Backend C R E A T)

def advance (thread : Thread C R E α) (resource : A) (state : T) : Option (Thread C R E α × T) :=
  match thread.script with
  | .done _ => some (thread, state)
  | .fail _ => some (thread, state)
  | .call command next =>
      (b command resource state).map fun result =>
        match result with
        | .error error => (⟨.fail error, thread.tape⟩, state)
        | .ok (reply, after) => (⟨next reply, thread.tape⟩, after)
  | .draw next => some (⟨next (thread.tape 0), thread.tape.tail⟩, state)

variable {ι : Type} [DecidableEq ι]

def interleave : List (ι × A) → (ι → Thread C R E α) → T → Option ((ι → Thread C R E α) × T)
  | [], threads, state => some (threads, state)
  | move :: schedule, threads, state => do
      let moved ← b.advance (threads move.1) move.2 state
      interleave schedule (Function.update threads move.1 moved.1) moved.2

end Backend

/-! ## Simulation -/

inductive Matches {r : Type} (related : T → (K → V) → Prop) :
    Except E (r × T) → Except E (r × (K → V)) → Prop where
  | error (error : E) : Matches related (.error error) (.error error)
  | ok {reply : r} {after : T} {after' : K → V} (keeps : related after after') :
      Matches related (.ok (reply, after)) (.ok (reply, after'))

/-- With resources that fit, no command gets stuck, and each one matches the machine's. -/
def Backend.Simulates (b : Backend C R E A T) (m : Machine C R E K V) (fits : A → Prop)
    (related : T → (K → V) → Prop) : Prop :=
  ∀ command resource state store, fits resource → related state store →
    ∃ result, b command resource state = some result ∧ Matches related result (m.exec command store)

namespace Backend
variable {b : Backend C R E A T} {m : Machine C R E K V} {fits : A → Prop}
  {related : T → (K → V) → Prop}

theorem Simulates.advance (simulates : b.Simulates m fits related) (thread : Thread C R E α)
    {resource : A} (fit : fits resource) {state : T} {store : K → V} (start : related state store) :
    ∃ after, b.advance thread resource state = some ((Lib.advance m thread store).1, after) ∧
      related after (Lib.advance m thread store).2 := by
  obtain ⟨script, tape⟩ := thread
  cases script with
  | done value => exact ⟨state, rfl, start⟩
  | fail error => exact ⟨state, rfl, start⟩
  | draw next => exact ⟨state, rfl, start⟩
  | call command next =>
      obtain ⟨result, executed, same⟩ := simulates command resource state store fit start
      simp only [Backend.advance, Lib.advance, executed, Option.map_some]
      generalize m.exec command store = expected at same ⊢
      cases same with
      | error error => exact ⟨state, rfl, start⟩
      | ok keeps => exact ⟨_, rfl, keeps⟩

variable {ι : Type} [DecidableEq ι]

theorem Simulates.interleave (simulates : b.Simulates m fits related) :
    ∀ (schedule : List (ι × A)) (pool : Pool ι C R E K V α) (state : T),
      (∀ move ∈ schedule, fits move.2) → related state pool.store →
      ∃ after, b.interleave schedule pool.threads state =
          some ((pool.interleave m (schedule.map Prod.fst)).threads, after) ∧
        related after (pool.interleave m (schedule.map Prod.fst)).store := by
  intro schedule
  induction schedule with
  | nil => exact fun pool state _ start => ⟨state, rfl, start⟩
  | cons move schedule ih =>
      intro pool state fit start
      obtain ⟨first, later⟩ := List.forall_mem_cons.mp fit
      obtain ⟨after, moved, keeps⟩ := simulates.advance (pool.threads move.1) first start
      obtain ⟨final, ran, ends⟩ := ih (pool.step m move.1) after later keeps
      refine ⟨final, ?_, ends⟩
      rw [Backend.interleave, moved]
      exact ran

end Backend

end Phonograph.Lib
