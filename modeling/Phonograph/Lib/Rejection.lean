import Phonograph.Lib.Script

/-! # Rejection loops

A loop that draws one candidate after the other until a test accepts one.  Its outcome
is decided by the first candidate that is not rejected; while all candidates are
rejected it goes on for ever. -/

set_option autoImplicit false

namespace Phonograph.Lib

/-- The first candidate that is accepted, or the error of its test, among the first `fuel` ones. -/
def firstHit {E α : Type} (verdict : α → Except E Bool) : ℕ → (ℕ → α) → Option (Except E α)
  | 0, _ => none
  | fuel + 1, candidates =>
      match verdict (candidates 0) with
      | .error error => some (.error error)
      | .ok true => some (.ok (candidates 0))
      | .ok false => firstHit verdict fuel fun n => candidates (n + 1)

section FirstHit
variable {E α : Type} {verdict : α → Except E Bool}

theorem firstHit_eq_none_iff (fuel : ℕ) : ∀ candidates : ℕ → α,
    firstHit verdict fuel candidates = none ↔ ∀ k < fuel, verdict (candidates k) = .ok false := by
  induction fuel with
  | zero => simp [firstHit]
  | succ fuel ih =>
      intro candidates
      rw [firstHit, Nat.forall_lt_succ_left]
      rcases verdict (candidates 0) with error | accepted
      · simp
      · cases accepted with
        | true => simp
        | false => simpa using ih fun n => candidates (n + 1)

theorem firstHit_skip (n k : ℕ) : ∀ candidates : ℕ → α,
    (∀ j < k, verdict (candidates j) = .ok false) →
      firstHit verdict (k + n) candidates = firstHit verdict n fun i => candidates (k + i) := by
  induction k with
  | zero =>
      intro candidates _
      simp only [Nat.zero_add]
  | succ k ih =>
      intro candidates rejected
      obtain ⟨first, later⟩ := Nat.forall_lt_succ_left.mp rejected
      rw [Nat.add_right_comm, firstHit, first]
      simp only [ih (fun i => candidates (i + 1)) later, Nat.add_right_comm k 1]

theorem firstHit_eq_ok_iff (fuel : ℕ) (candidates : ℕ → α) (value : α) :
    firstHit verdict fuel candidates = some (.ok value) ↔
      ∃ k < fuel, (∀ j < k, verdict (candidates j) = .ok false) ∧
        verdict (candidates k) = .ok true ∧ candidates k = value := by
  constructor
  · induction fuel generalizing candidates with
    | zero =>
        intro hit
        cases hit
    | succ fuel ih =>
        intro hit
        rw [firstHit] at hit
        cases first : verdict (candidates 0) with
        | error error =>
            rw [first] at hit
            cases hit
        | ok accepted =>
            cases accepted with
            | true =>
                rw [first] at hit
                exact ⟨0, Nat.succ_pos fuel, by simp, first, Except.ok.inj (Option.some.inj hit)⟩
            | false =>
                rw [first] at hit
                obtain ⟨k, lt, rejected, accepted, same⟩ := ih _ hit
                refine ⟨k + 1, Nat.succ_lt_succ lt, ?_, accepted, same⟩
                exact Nat.forall_lt_succ_left.mpr ⟨first, rejected⟩
  · rintro ⟨k, lt, rejected, accepted, rfl⟩
    obtain ⟨n, rfl⟩ := Nat.exists_eq_add_of_lt lt
    rw [Nat.add_assoc, firstHit_skip _ _ _ rejected, firstHit, Nat.add_zero, accepted]

end FirstHit

section Semantics
variable {C : Type} {R : C → Type} {E K V α β : Type} (m : Machine C R E K V)

/-- On every store that agrees with `base` outside the scratch keys, the script ends in
`result`, draws nothing and touches scratch keys only. -/
def Settles (scratch : Set K) (base : K → V) (script : Script C R E α) (result : Except E α) :
    Prop :=
  ∀ store, AgreeOff scratch store base → ∀ tape, ∃ after,
    run m script tape store = (result, tape, after) ∧ AgreeOff scratch after base

def Draws (scratch : Set K) (base : K → V) (script : Script C R E α) (candidate : ℕ → α) : Prop :=
  ∀ store, AgreeOff scratch store base → ∀ tape, ∃ after,
    run m script tape store = (.ok (candidate (tape 0)), tape.tail, after) ∧
      AgreeOff scratch after base

variable {m} {scratch : Set K} {base : K → V}

theorem Gives.settles {script : Script C R E α} {value : α}
    (gives : Gives m scratch base script value) :
    Settles m scratch base script (.ok value) := gives

theorem settles_fail (error : E) :
    Settles m scratch base (.fail error : Script C R E α) (.error error) :=
  fun store agree _ => ⟨store, rfl, agree⟩

theorem Settles.bind {script : Script C R E α} {rest : α → Script C R E β} {value : α}
    {result : Except E β} (first : Settles m scratch base script (.ok value))
    (second : Settles m scratch base (rest value) result) :
    Settles m scratch base (script >>= rest) result := by
  intro store agree tape
  obtain ⟨middle, ran, agree'⟩ := first store agree tape
  obtain ⟨after, ran', agree''⟩ := second middle agree' tape
  exact ⟨after, by rw [run_bind, ran]; exact ran', agree''⟩

theorem Settles.andThen {script : Script C R E α} {rest : α → Script C R E β} {result : Except E α}
    {result' : α → Except E β} (first : Settles m scratch base script result)
    (second : ∀ value, Settles m scratch base (rest value) (result' value)) :
    Settles m scratch base (script >>= rest) (result >>= result') := by
  cases result with
  | ok value => exact first.bind (second value)
  | error error =>
      intro store agree tape
      obtain ⟨after, ran, agree'⟩ := first store agree tape
      exact ⟨after, by rw [run_bind, ran]; rfl, agree'⟩

theorem Settles.mapM {ι : Type} {body : ι → Script C R E α} {result : ι → Except E α}
    (each : ∀ i, Settles m scratch base (body i) (result i)) :
    ∀ items : List ι, Settles m scratch base (items.mapM body) (items.mapM result) := by
  intro items
  induction items with
  | nil => exact (Gives.done _ _ _ _).settles
  | cons item items ih =>
      rw [List.mapM_cons, List.mapM_cons]
      exact (each item).andThen fun value => ih.andThen fun values => (Gives.done _ _ _ _).settles

theorem Draws.bind {script : Script C R E α} {rest : α → Script C R E β} {candidate : ℕ → α}
    {candidate' : ℕ → β} (first : Draws m scratch base script candidate)
    (second : ∀ n, Gives m scratch base (rest (candidate n)) (candidate' n)) :
    Draws m scratch base (script >>= rest) candidate' := by
  intro store agree tape
  obtain ⟨middle, ran, agree'⟩ := first store agree tape
  obtain ⟨after, ran', agree''⟩ := second (tape 0) middle agree' tape.tail
  exact ⟨after, by rw [run_bind, ran]; exact ran', agree''⟩

theorem Gives.bind_draws {script : Script C R E α} {rest : α → Script C R E β} {value : α}
    {candidate : ℕ → β} (first : Gives m scratch base script value)
    (second : Draws m scratch base (rest value) candidate) :
    Draws m scratch base (script >>= rest) candidate := by
  intro store agree tape
  obtain ⟨middle, ran, agree'⟩ := first store agree tape
  obtain ⟨after, ran', agree''⟩ := second middle agree' tape
  exact ⟨after, by rw [run_bind, ran]; exact ran', agree''⟩

end Semantics

section Retry
variable {C : Type} {R : C → Type} {E K V α β : Type}

def retry (limit : E) (test : α → Script C R E Bool) (value : α → β) (next : Script C R E α) :
    ℕ → α → Script C R E β
  | 0, _ => .fail limit
  | fuel + 1, candidate => do
      let accepted ← test candidate
      if accepted then pure (value candidate)
      else do
        let candidate ← next
        retry limit test value next fuel candidate

def hitOutcome (limit : E) (value : α → β) : Option (Except E α) → Except E β
  | none => .error limit
  | some result => result.map value

def candidatesFrom (first : α) (candidate : ℕ → α) (tape : Tape) : ℕ → α
  | 0 => first
  | n + 1 => candidate (tape n)

theorem hitOutcome_eq_ok_iff {limit : E} {verdict : α → Except E Bool} (fuel : ℕ)
    (candidates : ℕ → α)
    (result : α) : hitOutcome limit id (firstHit verdict fuel candidates) = .ok result ↔
      ∃ k < fuel, (∀ j < k, verdict (candidates j) = .ok false) ∧
        verdict (candidates k) = .ok true ∧ candidates k = result := by
  rw [← firstHit_eq_ok_iff]
  rcases firstHit verdict fuel candidates with _ | error | value
  · simp [hitOutcome]
  · simp [hitOutcome, Except.map]
  · simp [hitOutcome, Except.map]

/-- The loop never ends exactly when every candidate is rejected. -/
theorem hitOutcome_eq_limit_iff {limit : E} {verdict : α → Except E Bool}
    (other : ∀ a, verdict a ≠ .error limit) (candidates : ℕ → α) :
    (∀ fuel, hitOutcome limit id (firstHit verdict fuel candidates) = .error limit) ↔
      ∀ k, verdict (candidates k) = .ok false := by
  constructor
  · intro endless k
    induction k using Nat.strong_induction_on with
    | _ k ih =>
        cases here : verdict (candidates k) with
        | error error =>
            have raised := endless (k + 1)
            rw [firstHit_skip 1 k candidates ih, firstHit, Nat.add_zero, here] at raised
            obtain rfl := Except.error.inj raised
            exact absurd here (other _)
        | ok accepted =>
            cases accepted with
            | false => rfl
            | true =>
                have ended := endless (k + 1)
                rw [firstHit_skip 1 k candidates ih, firstHit, Nat.add_zero, here] at ended
                cases ended
  · intro rejected fuel
    rw [(firstHit_eq_none_iff fuel candidates).mpr fun k _ => rejected k]
    rfl

theorem hitOutcome_comp {γ : Type} {limit : E} {verdict : α → Except E Bool} {value : α → β}
    (f : γ → α)
    (fuel : ℕ) : ∀ candidates : ℕ → γ,
      hitOutcome limit value (firstHit verdict fuel fun n => f (candidates n)) =
        hitOutcome limit (value ∘ f) (firstHit (verdict ∘ f) fuel candidates) := by
  induction fuel with
  | zero => exact fun _ => rfl
  | succ fuel ih =>
      intro candidates
      rw [firstHit, firstHit, Function.comp_apply]
      rcases verdict (f (candidates 0)) with error | accepted
      · rfl
      · cases accepted with
        | true => rfl
        | false => exact ih fun n => candidates (n + 1)

variable {m : Machine C R E K V} {scratch : Set K} {base : K → V}

theorem run_retry {limit : E} {test : α → Script C R E Bool} {value : α → β} {next : Script C R E α}
    {verdict : α → Except E Bool} {candidate : ℕ → α}
    (tests : ∀ a, Settles m scratch base (test a) (verdict a))
    (draws : Draws m scratch base next candidate) (fuel : ℕ) :
    ∀ (first : α) (store : K → V), AgreeOff scratch store base → ∀ tape,
      (run m (retry limit test value next fuel first) tape store).1 =
        hitOutcome limit value (firstHit verdict fuel (candidatesFrom first candidate tape)) := by
  induction fuel with
  | zero => exact fun _ _ _ _ => rfl
  | succ fuel ih =>
      intro first store agree tape
      obtain ⟨tested, ran, agree'⟩ := tests first store agree tape
      have start : candidatesFrom first candidate tape 0 = first := rfl
      rw [retry, run_bind, ran, firstHit, start]
      rcases verdict first with error | accepted
      · rfl
      · cases accepted with
        | true => rfl
        | false =>
            obtain ⟨after, drew, agree''⟩ := draws tested agree' tape
            have rest := ih (candidate (tape 0)) after agree'' tape.tail
            simp only [Bool.false_eq_true, if_false, run_bind, drew, rest]
            congr 2
            funext n
            cases n <;> rfl

/-- A loop whose first candidate is drawn as the later ones are. -/
theorem run_draw_retry {limit : E} {test : α → Script C R E Bool} {value : α → β}
    {next : Script C R E α} {verdict : α → Except E Bool} {candidate : ℕ → α}
    (tests : ∀ a, Settles m scratch base (test a) (verdict a))
    (draws : Draws m scratch base next candidate) (fuel : ℕ) (store : K → V)
    (agree : AgreeOff scratch store base) (tape : Tape) :
    (run m (next >>= fun first => retry limit test value next fuel first) tape store).1 =
      hitOutcome limit value (firstHit verdict fuel fun k => candidate (tape k)) := by
  obtain ⟨after, drew, agree'⟩ := draws store agree tape
  have all : candidatesFrom (candidate (tape 0)) candidate tape.tail = fun k => candidate (tape k) := by
    funext k
    cases k <;> rfl
  rw [run_bind, drew, ← all]
  exact run_retry tests draws fuel _ after agree' tape.tail

end Retry

end Phonograph.Lib
