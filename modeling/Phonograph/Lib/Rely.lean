import Phonograph.Lib.Script

/-! # What a thread can rely on

All threads write scratch keys only, so at any moment of an interleaving the shared
store agrees with the first one elsewhere.  `Always` is the weakest condition under
which a script keeps its promise on the given tape whatever the scratch keys hold
when it reads them; `interleave_always` carries it through every schedule.  A part
of a script that reads no scratch key behaves as it does alone
(`always_bind_reads`). -/

set_option autoImplicit false

namespace Phonograph.Lib

namespace Script
variable {C : Type} {R : C → Type} {E α ι : Type}

theorem Calls.mono {allowed more : C → Prop} {script : Script C R E α}
    (calls : script.Calls allowed)
    (le : ∀ command, allowed command → more command) : script.Calls more := by
  induction script with
  | done value => trivial
  | fail error => trivial
  | call command next ih => exact ⟨le command calls.1, fun reply => ih reply (calls.2 reply)⟩
  | draw next ih => exact fun n => ih n (calls n)

/-- A loop keeps an invariant of the items it has gone through. -/
theorem Ensures.foldlM {body : α → ι → Script C R E α} (inv : List ι → α → Prop)
    (each : ∀ seen acc item, inv seen acc → (body acc item).Ensures (inv (seen ++ [item]))) :
    ∀ (items seen : List ι) (acc : α), inv seen acc →
      (items.foldlM body acc).Ensures (inv (seen ++ items)) := by
  intro items
  induction items with
  | nil =>
      intro seen acc start
      rw [List.append_nil]
      exact start
  | cons item items ih =>
      intro seen acc start
      rw [List.foldlM_cons]
      apply (each seen acc item start).bind
      intro acc' kept
      rw [List.append_cons]
      exact ih (seen ++ [item]) acc' kept

end Script

section
variable {C : Type} {R : C → Type} {E K V α β : Type} (m : Machine C R E K V)

def CanReply (scratch : Set K) (base : K → V) (command : C) (reply : R command) : Prop :=
  ∃ store after, AgreeOff scratch store base ∧ m.exec command store = .ok (reply, after)

def Always (scratch : Set K) (base : K → V) (post : α → Prop) : Script C R E α → Tape → Prop
  | .done value, _ => post value
  | .fail _, _ => True
  | .call command next, tape =>
      ∀ reply, CanReply m scratch base command reply → Always scratch base post (next reply) tape
  | .draw next, tape => Always scratch base post (next (tape 0)) tape.tail

variable {m} {scratch : Set K} {base : K → V} {post : α → Prop}

theorem always_of_ensures {script : Script C R E α} (ensures : script.Ensures post) (tape : Tape) :
    Always m scratch base post script tape := by
  induction script generalizing tape with
  | done value => exact ensures
  | fail error => trivial
  | call command next ih => exact fun reply _ => ih reply (ensures reply) tape
  | draw next ih => exact ih (tape 0) (ensures (tape 0)) tape.tail

theorem always_bind {post : β → Prop} {script : Script C R E α} {rest : α → Script C R E β}
    {middle : α → Prop} {tape : Tape} (first : Always m scratch base middle script tape)
    (second : ∀ value, middle value → ∀ tape, Always m scratch base post (rest value) tape) :
    Always m scratch base post (script >>= rest) tape := by
  induction script generalizing tape with
  | done value => exact second value first tape
  | fail error => trivial
  | call command next ih => exact fun reply can => ih reply (first reply can)
  | draw next ih => exact ih (tape 0) first

theorem always_mapM {ι : Type} {body : ι → Script C R E α} {post : ι → α → Prop}
    (each : ∀ item tape, Always m scratch base (post item) (body item) tape) :
    ∀ (items : List ι) (tape : Tape),
      Always m scratch base (List.Forall₂ post items) (items.mapM body) tape := by
  intro items
  induction items with
  | nil =>
      intro tape
      rw [List.mapM_nil]
      exact List.Forall₂.nil
  | cons item items ih =>
      intro tape
      rw [List.mapM_cons]
      apply always_bind (each item tape)
      intro value first tape
      apply always_bind (ih tape)
      intro values others tape
      exact List.Forall₂.cons first others

/-- A part that reads no scratch key and writes nothing gives what it gives alone. -/
theorem always_bind_reads {post : β → Prop} {script : Script C R E α} {rest : α → Script C R E β}
    (reads : script.Calls fun command =>
      (∀ key ∈ m.reads command, key ∉ scratch) ∧ m.writes command = ∅)
    (tape : Tape)
    (second : ∀ value tape', run m script tape base = (.ok value, tape', base) →
      Always m scratch base post (rest value) tape') :
    Always m scratch base post (script >>= rest) tape := by
  induction script generalizing tape with
  | done value => exact second value tape rfl
  | fail error => trivial
  | call command next ih =>
      rintro reply ⟨store, after, agree, answered⟩
      obtain ⟨⟨fresh, silent⟩, later⟩ := reads
      -- The command answers on `base` as it did on the shared store, and leaves it as it is.
      have same := m.answer command store base fun key read => agree key (fresh key read)
      rw [answered] at same
      obtain ⟨after', alone⟩ : ∃ after', m.exec command base = .ok (reply, after') := by
        cases ran : m.exec command base with
        | error error =>
            rw [ran] at same
            cases same
        | ok result =>
            rw [ran] at same
            obtain rfl : reply = result.1 := Except.ok.inj same
            exact ⟨result.2, rfl⟩
      have kept : after' = base := by
        funext key
        apply m.frame command base reply after' alone key
        rw [silent]
        exact Set.notMem_empty key
      subst kept
      apply ih reply (later reply) tape
      intro value tape' ran
      apply second value tape'
      rw [run_call, alone]
      exact ran
  | draw next ih => exact ih (tape 0) (reads (tape 0)) tape.tail second

theorem always_outcome {script : Script C R E α} {tape : Tape}
    (always : Always m scratch base post script tape) {value : α}
    (ended : outcome script = some (.ok value)) : post value := by
  cases script with
  | done value' =>
      obtain rfl : value' = value := by simpa [outcome] using ended
      exact always
  | fail error => simp [outcome] at ended
  | call command next => cases ended
  | draw next => cases ended

theorem always_advance {thread : Thread C R E α} {store : K → V}
    (agree : AgreeOff scratch store base)
    (always : Always m scratch base post thread.script thread.tape) :
    Always m scratch base post (advance m thread store).1.script (advance m thread store).1.tape := by
  obtain ⟨script, tape⟩ := thread
  cases script with
  | done value => exact always
  | fail error => exact always
  | call command next =>
      cases step : m.exec command store with
      | error error =>
          simp only [advance, step]
          trivial
      | ok result =>
          simp only [advance, step]
          exact always result.1 ⟨store, result.2, agree, step⟩
  | draw next => exact always

theorem writesOnly_advance {thread : Thread C R E α} (store : K → V)
    (writes : WritesOnly m scratch thread.script) :
    WritesOnly m scratch (advance m thread store).1.script := by
  obtain ⟨script, tape⟩ := thread
  cases script with
  | done value => exact writes
  | fail error => exact writes
  | call command next =>
      cases step : m.exec command store with
      | error error =>
          simp only [advance, step]
          trivial
      | ok result =>
          simp only [advance, step]
          exact writes.2 result.1
  | draw next => exact writes (tape 0)

variable {ι : Type} [DecidableEq ι]

/-- In every schedule the store keeps all but its scratch keys, and each thread its
promise. -/
theorem interleave_always {post : ι → α → Prop} (schedule : List ι) :
    ∀ pool : Pool ι C R E K V α, AgreeOff scratch pool.store base →
      (∀ i, WritesOnly m scratch (pool.threads i).script) →
      (∀ i, Always m scratch base (post i) (pool.threads i).script (pool.threads i).tape) →
      AgreeOff scratch (pool.interleave m schedule).store base ∧
      ∀ i value, outcome ((pool.interleave m schedule).threads i).script = some (.ok value) →
        post i value := by
  induction schedule with
  | nil =>
      intro pool agree _ always
      exact ⟨agree, fun i value ended => always_outcome (always i) ended⟩
  | cons j schedule ih =>
      intro pool agree writes always
      apply ih
      · intro key fresh
        apply Eq.trans _ (agree key fresh)
        exact advance_frame m _ _ key fun written =>
          fresh (nextWrites_subset m (writes j) written)
      · intro i
        by_cases same : i = j
        · subst same
          simpa [Pool.step] using writesOnly_advance pool.store (writes i)
        · simpa [Pool.step, Function.update_of_ne same] using writes i
      · intro i
        by_cases same : i = j
        · subst same
          simpa [Pool.step] using always_advance agree (always i)
        · simpa [Pool.step, Function.update_of_ne same] using always i

end

end Phonograph.Lib
