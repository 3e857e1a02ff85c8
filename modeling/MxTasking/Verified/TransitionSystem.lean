import Mathlib.Logic.Function.Basic
import Mathlib.Logic.Relation

/-!
# Runs of labelled transition systems

Every component of this development is a set of states with a labelled step
relation `step : σ → ε → σ → Prop`: one label per atomic action of the
program, any order of labels the scheduler may choose.  This module fixes what
a run of such a system is and proves the rules by which facts about one
step become facts about every run.

A run is built at its *end* (`Run.snoc`): the log of labels a run has produced so far
is then available to the invariant, which is what a statement about "the steps
taken so far, in step order" needs.

## Main results

* `Run.invariant` — what holds at the start and survives each step holds at
  the end of every run.
* `Run.log_invariant` — the same for a relation between the log and the state.
* `acc_of_decreasing` — steps that make a measure smaller come to an end.
* `Run.exists_end` — and then there is a run to the end.
* `loop_ends` — a loop with fuel whose rounds make a measure smaller comes to its result.
* `update_cases`, `update_elsewhere` — one of several parties has moved on, the others are where
  they were.
* `exists_kept`, `inj_kept` — the claims of the parties when one moves on and keeps its claim.
-/

namespace MxTasking.Verified

variable {σ ε : Type*}

/-- `Run step s es s'`: from `s` the labels `es`, in this order, lead to `s'`. -/
inductive Run (step : σ → ε → σ → Prop) (s : σ) : List ε → σ → Prop where
  | nil : Run step s [] s
  | snoc {es : List ε} {e : ε} {mid fin : σ} :
      Run step s es mid → step mid e fin → Run step s (es ++ [e]) fin

/-- The steps of `step` taken in a state that meets `good`. -/
def Guarded (step : σ → ε → σ → Prop) (good : σ → ε → Prop) (s : σ) (e : ε)
    (s' : σ) : Prop :=
  good s e ∧ step s e s'

namespace Run

variable {step : σ → ε → σ → Prop} {s mid fin : σ} {es : List ε}

/-- A run of one step. -/
theorem single {e : ε} (h : step s e fin) : Run step s [e] fin :=
  Run.snoc Run.nil h

/-- An empty run. -/
theorem eq_of_nil (h : Run step s [] fin) : fin = s := by
  generalize hLog : [] = log at h
  cases h with
  | nil => rfl
  | snoc _ _ => exact absurd hLog (by simp)

/-- A run with one label is one step. -/
theorem step_of_single {e : ε} (h : Run step s [e] fin) : step s e fin := by
  generalize hLog : [e] = log at h
  cases h with
  | nil => exact absurd hLog (by simp)
  | @snoc es e' mid fin hBefore hStep =>
      have hSplit : [] ++ [e] = es ++ [e'] := hLog
      obtain ⟨rfl, hLast⟩ := List.append_inj' hSplit rfl
      obtain rfl := eq_of_nil hBefore
      rwa [(List.cons.inj hLast).1]

/-- The end of a run, written in another way. -/
theorem cast {fin' : σ} (h : Run step s es fin) (hEq : fin = fin') : Run step s es fin' :=
  hEq ▸ h

/-- Runs compose. -/
theorem append {es' : List ε} (h : Run step s es mid)
    (h' : Run step mid es' fin) : Run step s (es ++ es') fin := by
  induction h' with
  | nil => simpa using h
  | snoc _ hStep ih => rw [← List.append_assoc]; exact Run.snoc ih hStep

/-- A relation between the log and the state that holds of the empty log and
is extended by each step holds at the end of every run. -/
theorem log_invariant {P : List ε → σ → Prop} (hInit : P [] s)
    (hStep : ∀ es e mid fin, P es mid → step mid e fin → P (es ++ [e]) fin)
    (h : Run step s es fin) : P es fin := by
  induction h with
  | nil => exact hInit
  | snoc _ hLast ih => exact hStep _ _ _ _ ih hLast

/-- The invariant rule. -/
theorem invariant {P : σ → Prop} (hInit : P s)
    (hStep : ∀ e mid fin, P mid → step mid e fin → P fin)
    (h : Run step s es fin) : P fin :=
  log_invariant (P := fun _ => P) hInit
    (fun _ e mid fin hMid hLast => hStep e mid fin hMid hLast) h

/-- A guarded run is a run. -/
theorem of_guarded {good : σ → ε → Prop} (h : Run (Guarded step good) s es fin) :
    Run step s es fin := by
  induction h with
  | nil => exact Run.nil
  | snoc _ hStep ih => exact Run.snoc ih hStep.2

end Run

/-- If an invariant ties every state to a measure and each step makes the measure smaller, only
finitely many steps can be taken from any state that meets the invariant. -/
theorem acc_of_decreasing {μ : Type*} {next : σ → σ → Prop} {lt : μ → μ → Prop}
    (hWf : WellFounded lt) {P : σ → μ → Prop}
    (hStep : ∀ s m s', P s m → next s s' → ∃ m', P s' m' ∧ lt m' m) (m : μ) :
    ∀ s, P s m → Acc (fun s' s => next s s') s := by
  induction m using hWf.induction with
  | h m ih =>
      intro s hs
      refine Acc.intro s fun s' hNext => ?_
      obtain ⟨m', hs', hLess⟩ := hStep s m s' hs hNext
      exact ih m' hLess s' hs'

/-- Where only finitely many steps can be taken, no run leads out of that. -/
theorem Run.acc {step : σ → ε → σ → Prop} {s fin : σ} {es : List ε}
    (h : Acc (fun s' s => ∃ e, step s e s') s) (hRun : Run step s es fin) :
    Acc (fun s' s => ∃ e, step s e s') fin := by
  induction hRun with
  | nil => exact h
  | snoc _ hStep ih => exact ih.inv ⟨_, hStep⟩

/-- Where only finitely many steps can be taken, some run cannot be continued. -/
theorem Run.exists_end {step : σ → ε → σ → Prop} {s : σ}
    (h : Acc (fun s' s => ∃ e, step s e s') s) :
    ∃ es fin, Run step s es fin ∧ ∀ s', ¬ ∃ e, step fin e s' := by
  induction h with
  | intro s _ ih =>
      by_cases hNext : ∃ s' e, step s e s'
      · obtain ⟨s', e, hStep⟩ := hNext
        obtain ⟨es, fin, hRun, hEnd⟩ := ih s' ⟨e, hStep⟩
        exact ⟨[e] ++ es, fin, (Run.single hStep).append hRun, hEnd⟩
      · exact ⟨[], s, Run.nil, fun s' hStep => hNext ⟨s', hStep⟩⟩

/-- A loop with fuel that in each round is done or makes a measure smaller: with more fuel than
the measure it ends, and the result does not depend on the fuel. -/
theorem loop_ends {τ : Type*} {f : Nat → σ → Option τ} {P : σ → Nat → Prop} {Q : τ → Prop}
    (hRound : ∀ s n, P s n → (∃ t, Q t ∧ ∀ fuel, f (fuel + 1) s = some t) ∨
      ∃ s' n', P s' n' ∧ n' < n ∧ ∀ fuel, f (fuel + 1) s = f fuel s') (n : Nat) :
    ∀ s, P s n → ∃ t, Q t ∧ ∀ fuel, n < fuel → f fuel s = some t := by
  induction n using Nat.strongRecOn with
  | ind n ih =>
      intro s hs
      rcases hRound s n hs with ⟨t, ht, hDone⟩ | ⟨s', n', hs', hLess, hNext⟩
      · refine ⟨t, ht, fun fuel hFuel => ?_⟩
        obtain ⟨fuel, rfl⟩ := Nat.exists_eq_succ_of_ne_zero (Nat.ne_zero_of_lt hFuel)
        exact hDone fuel
      · obtain ⟨t, ht, hRest⟩ := ih n' hLess s' hs'
        refine ⟨t, ht, fun fuel hFuel => ?_⟩
        obtain ⟨fuel, rfl⟩ := Nat.exists_eq_succ_of_ne_zero (Nat.ne_zero_of_lt hFuel)
        exact (hNext fuel).trans (hRest fuel (by omega))

/-- One party has moved on: it is where it went, and the others are where they were. -/
theorem update_cases {ι β : Type*} [DecidableEq ι] {f : ι → β} {i j : ι} {b c : β}
    (h : Function.update f i b j = c) : (j = i ∧ c = b) ∨ (j ≠ i ∧ f j = c) := by
  by_cases hEq : j = i
  · subst hEq
    exact Or.inl ⟨rfl, by simpa using h.symm⟩
  · exact Or.inr ⟨hEq, by simpa [hEq] using h⟩

/-- A party that is not where the one that moved went has not moved. -/
theorem update_elsewhere {ι β : Type*} [DecidableEq ι] {f : ι → β} {i j : ι} {b c : β}
    (h : Function.update f i b j = c) (hne : c ≠ b) : j ≠ i ∧ f j = c := by
  rcases update_cases h with ⟨_, hEq⟩ | hOld
  · exact absurd hEq hne
  · exact hOld

/-! ## Claims of the parties

`g` is what a party claims where it is.  One party moves, and keeps its claim, makes one or
gives it up. -/

section Claims

variable {ι α β : Type*} [DecidableEq ι] {f : ι → α} {g : α → Option β} {i : ι} {a : α} {b : β}

/-- A party with a claim keeps it while another one moves. -/
theorem exists_update (h : ∃ j, g (f j) = some b) (hi : g (f i) ≠ some b) :
    ∃ j, g (Function.update f i a j) = some b := by
  obtain ⟨j, hj⟩ := h
  have hne : j ≠ i := by
    rintro rfl
    exact hi hj
  refine ⟨j, ?_⟩
  rw [Function.update_of_ne hne]
  exact hj

/-- A claim that stays with its party. -/
theorem exists_kept (hSame : g a = g (f i)) (h : ∃ j, g (f j) = some b) :
    ∃ j, g (Function.update f i a j) = some b := by
  obtain ⟨j, hj⟩ := h
  refine ⟨j, ?_⟩
  by_cases hEq : j = i
  · subst hEq
    rw [Function.update_self, hSame]
    exact hj
  · rw [Function.update_of_ne hEq]
    exact hj

/-- A claim is the one of the party that has moved, or an old one. -/
theorem of_update {j : ι} (h : g (Function.update f i a j) = some b) :
    (j = i ∧ g a = some b) ∨ (j ≠ i ∧ g (f j) = some b) := by
  rcases update_cases (c := Function.update f i a j) rfl with ⟨hEq, hMoved⟩ | ⟨hne, hOld⟩
  · exact Or.inl ⟨hEq, hMoved ▸ h⟩
  · exact Or.inr ⟨hne, hOld ▸ h⟩

/-- No two parties have the same claim. -/
theorem inj_update (hInj : ∀ j k b, g (f j) = some b → g (f k) = some b → j = k)
    (hNew : ∀ b, g a = some b → ∀ j, g (f j) = some b → j = i) (j k : ι) (b : β)
    (hj : g (Function.update f i a j) = some b) (hk : g (Function.update f i a k) = some b) :
    j = k := by
  rcases of_update hj with ⟨rfl, hb⟩ | ⟨-, hb⟩ <;> rcases of_update hk with ⟨rfl, hb'⟩ | ⟨-, hb'⟩
  · rfl
  · exact (hNew b hb k hb').symm
  · exact hNew b hb' j hb
  · exact hInj j k b hb hb'

theorem inj_kept (hInj : ∀ j k b, g (f j) = some b → g (f k) = some b → j = k)
    (hSame : g a = g (f i)) (j k : ι) (b : β) (hj : g (Function.update f i a j) = some b)
    (hk : g (Function.update f i a k) = some b) : j = k :=
  inj_update hInj (fun b hb l hl => hInj l i b hl (hSame ▸ hb)) j k b hj hk

end Claims

end MxTasking.Verified
