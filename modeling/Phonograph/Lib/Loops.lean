import Phonograph.Lib.Script

/-! # While loops of scripts

A loop whose number of rounds is not known beforehand takes fuel and fails with
`limit` when it runs out.  `Rounds` are the states it passes through, whatever
the fuel.  The loop ends in a state where it stops or where its body raises an
error; a loop that can always do some more rounds never ends. -/

set_option autoImplicit false

namespace Phonograph.Lib

section Rounds
variable {σ ε : Type} (going : σ → Prop) (round : σ → Except ε σ)

inductive Rounds : ℕ → σ → σ → Prop where
  | refl (s : σ) : Rounds 0 s s
  | cons {n : ℕ} {s t u : σ} : going s → round s = .ok t → Rounds n t u → Rounds (n + 1) s u

def Ends (s : σ) : Prop :=
  ∃ n t, Rounds going round n s t ∧ (going t → ∃ error, round t = .error error)

variable {going round} {n m : ℕ} {s t u : σ}

theorem Rounds.one (go : going s) (next : round s = .ok t) : Rounds going round 1 s t :=
  .cons go next (.refl t)

theorem Rounds.trans (first : Rounds going round n s t) (second : Rounds going round m t u) :
    Rounds going round (n + m) s u := by
  induction first with
  | refl s => rwa [Nat.zero_add]
  | @cons n s t _ go next _ ih =>
      rw [Nat.add_right_comm]
      exact .cons go next (ih second)

/-- The loop is deterministic: of two runs one goes on from the other. -/
theorem Rounds.linear (first : Rounds going round n s t) (second : Rounds going round m s u)
    (le : n ≤ m) : Rounds going round (m - n) t u := by
  induction first generalizing m with
  | refl s => exact second
  | @cons n s t _ go next _ ih =>
      cases second with
      | refl => omega
      | @cons m _ t' _ _ next' rest =>
          obtain rfl : t = t' := Except.ok.inj (next.symm.trans next')
          have shorter := ih rest (by omega)
          rwa [Nat.add_sub_add_right]

theorem Rounds.invariant {inv : σ → Prop}
    (kept : ∀ s t, inv s → going s → round s = .ok t → inv t)
    (rounds : Rounds going round n s t) (start : inv s) : inv t := by
  induction rounds with
  | refl => exact start
  | cons go next _ ih => exact ih (kept _ _ start go next)

theorem Rounds.eq_of_over (rounds : Rounds going round n s t)
    (ended : going s → ∃ error, round s = .error error) : n = 0 := by
  cases rounds with
  | refl => rfl
  | cons go next _ =>
      obtain ⟨error, raised⟩ := ended go
      rw [raised] at next
      cases next

theorem Ends.of_rounds (rounds : Rounds going round n s t) (ends : Ends going round t) :
    Ends going round s := by
  obtain ⟨m, u, rest, over_u⟩ := ends
  exact ⟨n + m, u, rounds.trans rest, over_u⟩

/-- A loop that can always do some more rounds never ends. -/
theorem not_ends_of_progress (inv : σ → Prop)
    (progress : ∀ s, inv s → ∃ n t, 0 < n ∧ Rounds going round n s t ∧ inv t) (start : inv s) :
    ¬ Ends going round s := by
  rintro ⟨n, t, rounds, ended⟩
  induction n using Nat.strong_induction_on generalizing s with
  | _ n ih =>
      obtain ⟨m, u, pos, more, kept⟩ := progress s start
      rcases Nat.lt_or_ge n m with less | le
      · -- The run to `u` passes through `t`, where the loop is over.
        have none := (rounds.linear more less.le).eq_of_over ended
        omega
      · exact ih (n - m) (by omega) kept (more.linear rounds le)

end Rounds

section Loop
variable {C : Type} {R : C → Type} {E K V σ : Type} (limit : E) (going : σ → Prop)
  [DecidablePred going] (body : σ → Script C R E σ)

def whileLoop : ℕ → σ → Script C R E σ
  | 0, _ => .fail limit
  | fuel + 1, s => if going s then body s >>= whileLoop fuel else .done s

variable (m : Machine C R E K V)

abbrev Config (K V σ : Type) := σ × Tape × (K → V)

def bodyRound (x : Config K V σ) : Except E (Config K V σ) :=
  match run m (body x.1) x.2.1 x.2.2 with
  | (.ok s, tape, store) => .ok (s, tape, store)
  | (.error error, _, _) => .error error

variable {body m} in
theorem run_of_bodyRound {x y : Config K V σ} (next : bodyRound body m x = .ok y) :
    run m (body x.1) x.2.1 x.2.2 = (.ok y.1, y.2.1, y.2.2) := by
  rw [bodyRound] at next
  generalize run m (body x.1) x.2.1 x.2.2 = result at next
  obtain ⟨outcome, tape, store⟩ := result
  cases outcome with
  | error error => cases next
  | ok s =>
      obtain rfl := Except.ok.inj next
      rfl

theorem run_whileLoop_rounds {n : ℕ} {x y : Config K V σ}
    (rounds : Rounds (fun x => going x.1) (bodyRound body m) n x y) (fuel : ℕ) :
    run m (whileLoop limit going body (n + fuel) x.1) x.2.1 x.2.2 =
      run m (whileLoop limit going body fuel y.1) y.2.1 y.2.2 := by
  induction rounds with
  | refl x => rw [Nat.zero_add]
  | @cons n x y _ go next _ ih =>
      rw [Nat.add_right_comm, whileLoop, if_pos go, run_bind, run_of_bodyRound next]
      exact ih

/-- The run of the loop with fuel: out of fuel, stopped, or ended by an error of the body. -/
theorem run_whileLoop (fuel : ℕ) (x : Config K V σ) :
    (∃ y, Rounds (fun x => going x.1) (bodyRound body m) fuel x y ∧
      (run m (whileLoop limit going body fuel x.1) x.2.1 x.2.2).1 = .error limit) ∨
    (∃ n y, n < fuel ∧ Rounds (fun x => going x.1) (bodyRound body m) n x y ∧ ¬ going y.1 ∧
      (run m (whileLoop limit going body fuel x.1) x.2.1 x.2.2).1 = .ok y.1) ∨
    ∃ n y error, n < fuel ∧ Rounds (fun x => going x.1) (bodyRound body m) n x y ∧ going y.1 ∧
      bodyRound body m y = .error error ∧
      (run m (whileLoop limit going body fuel x.1) x.2.1 x.2.2).1 = .error error := by
  induction fuel generalizing x with
  | zero => exact Or.inl ⟨x, .refl x, rfl⟩
  | succ fuel ih =>
      rw [whileLoop]
      by_cases go : going x.1
      · rw [if_pos go, run_bind]
        generalize ran : run m (body x.1) x.2.1 x.2.2 = result
        obtain ⟨outcome, tape, store⟩ := result
        cases outcome with
        | error error =>
            refine Or.inr (Or.inr ⟨0, x, error, Nat.succ_pos _, .refl x, go, ?_, rfl⟩)
            rw [bodyRound, ran]
        | ok s =>
            have next : bodyRound body m x = .ok (s, tape, store) := by rw [bodyRound, ran]
            rcases ih (s, tape, store) with ⟨y, rounds, out⟩ | ⟨n, y, less, rounds, stop, out⟩ |
              ⟨n, y, error, less, rounds, goY, raised, out⟩
            · exact Or.inl ⟨y, .cons go next rounds, out⟩
            · exact Or.inr (Or.inl ⟨n + 1, y, by omega, .cons go next rounds, stop, out⟩)
            · exact Or.inr (Or.inr
                ⟨n + 1, y, error, by omega, .cons go next rounds, goY, raised, out⟩)
      · rw [if_neg go]
        exact Or.inr (Or.inl ⟨0, x, Nat.succ_pos _, .refl x, go, rfl⟩)

/-- Some fuel lets the loop raise an error exactly when one of its rounds does. -/
theorem whileLoop_raises {error : E} (other : error ≠ limit) (x : Config K V σ) :
    (∃ fuel, (run m (whileLoop limit going body fuel x.1) x.2.1 x.2.2).1 = .error error) ↔
      ∃ n y, Rounds (fun x => going x.1) (bodyRound body m) n x y ∧ going y.1 ∧
        bodyRound body m y = .error error := by
  constructor
  · rintro ⟨fuel, raised⟩
    rcases run_whileLoop limit going body m fuel x with ⟨y, _, out⟩ | ⟨n, y, _, _, _, out⟩ |
      ⟨n, y, error', _, rounds, go, fails, out⟩
    · exact absurd (Except.error.inj (raised.symm.trans out)) other
    · rw [raised] at out
      cases out
    · obtain rfl : error = error' := Except.error.inj (raised.symm.trans out)
      exact ⟨n, y, rounds, go, fails⟩
  · rintro ⟨n, y, rounds, go, fails⟩
    refine ⟨n + 1, ?_⟩
    rw [bodyRound] at fails
    rw [run_whileLoop_rounds limit going body m rounds 1, whileLoop, if_pos go, run_bind]
    generalize run m (body y.1) y.2.1 y.2.2 = result at fails
    obtain ⟨outcome, tape, store⟩ := result
    cases outcome with
    | error error' =>
        obtain rfl : error' = error := Except.error.inj fails
        rfl
    | ok s => cases fails

/-- Some fuel is enough exactly when the loop ends, if its body never raises `limit`. -/
theorem whileLoop_ends {x : Config K V σ}
    (clean : ∀ n y, Rounds (fun x => going x.1) (bodyRound body m) n x y → going y.1 →
      bodyRound body m y ≠ .error limit) :
    (∃ fuel, (run m (whileLoop limit going body fuel x.1) x.2.1 x.2.2).1 ≠ .error limit) ↔
      Ends (fun x => going x.1) (bodyRound body m) x := by
  constructor
  · rintro ⟨fuel, enough⟩
    rcases run_whileLoop limit going body m fuel x with ⟨y, _, out⟩ | ⟨n, y, _, rounds, stop, _⟩ |
      ⟨n, y, error, _, rounds, _, fails, _⟩
    · exact absurd out enough
    · exact ⟨n, y, rounds, fun go => absurd go stop⟩
    · exact ⟨n, y, rounds, fun _ => ⟨error, fails⟩⟩
  · rintro ⟨n, y, rounds, ended⟩
    refine ⟨n + 1, ?_⟩
    rcases run_whileLoop limit going body m (n + 1) x with ⟨z, longer, _⟩ | ⟨k, z, _, _, _, out⟩ |
      ⟨k, z, error, _, to_z, go, fails, out⟩
    · have none := (rounds.linear longer (Nat.le_succ n)).eq_of_over ended
      omega
    · rw [out]
      intro same
      cases same
    · rw [out]
      intro same
      obtain rfl : error = limit := Except.error.inj same
      exact clean k z to_z go fails

end Loop

end Phonograph.Lib
