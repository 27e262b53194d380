/-
What a budget does to a run.

A run with a budget makes the same steps as a run without one, as many as the budget still
allows.  So all that can be said about it is said by comparing two numbers: how many
steps the run without a budget needs to return, and how many the budget has left.  The
step that halts or faults is counted like any other; the test that finds the budget used
up is not a step and leaves the machine as it is.

`Steps` and `Returns` speak of a machine and its steps alone, without budget or counter.
`resume_steps` and `resume_returns` say that the loop makes these steps if the budget
allows them, and everything else is arithmetic on the counter.
-/
import RegisterMachine.Machine.Engine

namespace RegisterMachine

/-- How a run ends with a step; it goes on if the step does not end it. -/
def Ending.ofStep? : Except Fault Progress → Option Ending
  | .ok .continues => none
  | .ok .halted => some .halted
  | .error fault => some (.faulted fault)

theorem Ending.ofStep?_eq_none {result : Except Fault Progress} (h : ofStep? result = none) :
    result = .ok .continues := by
  unfold ofStep? at h
  split at h
  · rfl
  · contradiction
  · contradiction

theorem Ending.ofStep?_eq_halted {result : Except Fault Progress}
    (h : ofStep? result = some .halted) : result = .ok .halted := by
  unfold ofStep? at h
  split at h
  · contradiction
  · rfl
  · simp at h

theorem Ending.ofStep?_eq_faulted {result : Except Fault Progress} {fault : Fault}
    (h : ofStep? result = some (.faulted fault)) : result = .error fault := by
  unfold ofStep? at h
  split at h
  · contradiction
  · simp at h
  · rw [Ending.faulted.inj (Option.some.inj h)]

namespace Machine

variable {ω : Type} {env : Environment ω}

/-- So many steps lead from one machine to another, and none of them ends the run. -/
inductive Steps (env : Environment ω) : Nat → Machine ω → Machine ω → Prop
  | refl (m : Machine ω) : Steps env 0 m m
  | next {n : Nat} {m mid m' : Machine ω} (hstep : m.step env = (.ok .continues, mid))
      (hrest : Steps env n mid m') : Steps env (n + 1) m m'

/-- A run returns with its step of the given number, and this is how it ends. -/
inductive Returns (env : Environment ω) : Nat → Machine ω → Ending → Machine ω → Prop
  | last {m m' : Machine ω} {result : Except Fault Progress} {ending : Ending}
      (hstep : m.step env = (result, m')) (hend : Ending.ofStep? result = some ending) :
      Returns env 1 m ending m'
  | next {n : Nat} {m mid m' : Machine ω} {ending : Ending}
      (hstep : m.step env = (.ok .continues, mid)) (hrest : Returns env n mid ending m') :
      Returns env (n + 1) m ending m'

theorem Returns.ne_unfinished {n : Nat} {m m' : Machine ω} {ending : Ending}
    (h : Returns env n m ending m') : ending ≠ .unfinished := by
  induction h with
  | @last _ _ result ending _ hend =>
      rintro rfl
      unfold Ending.ofStep? at hend
      split at hend <;> simp at hend
  | next _ _ ih => exact ih

theorem returns_or_steps (env : Environment ω) (k : Nat) (m : Machine ω) :
    (∃ n ending m', n ≤ k ∧ Returns env n m ending m') ∨ ∃ m', Steps env k m m' := by
  induction k generalizing m with
  | zero => exact Or.inr ⟨m, .refl m⟩
  | succ k ih =>
      rcases hstep : m.step env with ⟨result, mid⟩
      cases hend : Ending.ofStep? result with
      | some ending => exact Or.inl ⟨1, ending, mid, by omega, .last hstep hend⟩
      | none =>
          obtain rfl := Ending.ofStep?_eq_none hend
          rcases ih mid with ⟨n, ending, m', hle, hreturns⟩ | ⟨m', hsteps⟩
          · exact Or.inl ⟨n + 1, ending, m', by omega, .next hstep hreturns⟩
          · exact Or.inr ⟨m', .next hstep hsteps⟩

end Machine

namespace Engine

open Machine

variable {ω : Type} {env : Environment ω}

/-- The engine with another budget, or with none. -/
def withBudget (e : Engine ω) (budget? : Option Nat) : Engine ω :=
  { e with config := { e.config with budget? } }

/-- The engine after so many counted steps. -/
def after (e : Engine ω) (m : Machine ω) (steps : Nat) : Engine ω :=
  { e with machine := m, executed := e.executed + steps }

/-- The budget, if there is one, has so many steps left. -/
def Allows (e : Engine ω) (steps : Nat) : Prop :=
  ∀ budget, e.config.budget? = some budget → steps ≤ budget - e.executed

theorem budgetFault?_of_allows {e : Engine ω} {n : Nat} (h : e.Allows (n + 1)) :
    e.budgetFault? = none := by
  unfold budgetFault?
  split
  · rename_i budget hbudget
    have := h budget hbudget
    rw [if_neg (by omega)]
  · rfl

theorem allows_one {e : Engine ω} (h : e.budgetFault? = none) : e.Allows 1 := by
  intro budget hbudget
  rw [budgetFault?, hbudget] at h
  dsimp only at h
  split at h
  · contradiction
  · omega

theorem allows_after {e : Engine ω} {m : Machine ω} {n : Nat} (h : e.Allows (n + 1)) :
    (e.after m 1).Allows n := by
  intro budget hbudget
  have := h budget hbudget
  show n ≤ budget - (e.executed + 1)
  omega

theorem after_after (e : Engine ω) (m m' : Machine ω) (k n : Nat) :
    (e.after m k).after m' n = e.after m' (n + k) := by
  show Engine.mk e.config m' (e.executed + k + n) = Engine.mk e.config m' (e.executed + (n + k))
  rw [Nat.add_assoc, Nat.add_comm k n]

/-- One round of the loop, if the budget allows it. -/
theorem resume_succ {e : Engine ω} {n fuel : Nat} (hallows : e.Allows (n + 1))
    {result : Except Fault Progress} {m : Machine ω} (hstep : e.machine.step env = (result, m)) :
    e.resume env (fuel + 1) = match Ending.ofStep? result with
      | some ending => (ending, e.after m 1)
      | none => (e.after m 1).resume env fuel := by
  have hcounted : e.countedStep env = (result, e.after m 1) := by
    show ((e.machine.step env).1, Engine.mk e.config (e.machine.step env).2 (e.executed + 1)) = _
    rw [hstep]
    rfl
  rw [resume, budgetFault?_of_allows hallows]
  simp only [hcounted]
  cases result with
  | error fault => rfl
  | ok progress => cases progress <;> rfl

/-- **The loop makes the steps that the budget allows.** -/
theorem resume_steps {n : Nat} {m m' : Machine ω} (h : Steps env n m m') :
    ∀ {e : Engine ω} (fuel : Nat), e.machine = m → e.Allows n →
      e.resume env (n + fuel) = (e.after m' n).resume env fuel := by
  induction h with
  | refl m =>
      intro e fuel hm _
      subst hm
      rw [Nat.zero_add]
      rfl
  | @next n m mid m' hstep _ ih =>
      intro e fuel hm hallows
      subst hm
      rw [Nat.add_right_comm, resume_succ hallows hstep]
      show (e.after mid 1).resume env (n + fuel) = _
      rw [ih fuel rfl (allows_after hallows), after_after]

/-- **The loop returns when the steps do, if the budget allows them.** -/
theorem resume_returns {n : Nat} {m m' : Machine ω} {ending : Ending}
    (h : Returns env n m ending m') :
    ∀ {e : Engine ω} (fuel : Nat), e.machine = m → e.Allows n → n ≤ fuel →
      e.resume env fuel = (ending, e.after m' n) := by
  induction h with
  | @last m m' result ending hstep hend =>
      intro e fuel hm hallows hle
      subst hm
      obtain ⟨fuel, rfl⟩ : ∃ k, fuel = k + 1 := ⟨fuel - 1, by omega⟩
      rw [resume_succ (n := 0) hallows hstep, hend]
  | @next n m mid m' ending hstep _ ih =>
      intro e fuel hm hallows hle
      subst hm
      obtain ⟨fuel, rfl⟩ : ∃ k, fuel = k + 1 := ⟨fuel - 1, by omega⟩
      rw [resume_succ hallows hstep]
      show (e.after mid 1).resume env fuel = _
      rw [ih fuel rfl (allows_after hallows) (by omega), after_after]

/-! ### Runs -/

/-- The machine with which a run starts: its environment has been told. -/
def started (env : Environment ω) (e : Engine ω) : Machine ω :=
  e.machine.tell env .start

theorem allows_none (e : Engine ω) (n : Nat) : (e.withBudget none).Allows n :=
  fun _ h => nomatch h

theorem allows_some {e : Engine ω} {budget n : Nat} (h : n ≤ budget - e.executed) :
    (e.withBudget (some budget)).Allows n := by
  rintro _ ⟨⟩
  exact h

theorem run_none_of_returns {e : Engine ω} {n : Nat} {m' : Machine ω} {ending : Ending}
    (h : Returns env n (e.started env) ending m') {patience : Nat} (hle : n ≤ patience) :
    (e.withBudget none).run env patience = (ending, (e.withBudget none).after m' n) :=
  resume_returns h patience rfl (allows_none _ n) hle

theorem run_none_of_steps {e : Engine ω} {n : Nat} {m' : Machine ω}
    (h : Steps env n (e.started env) m') :
    (e.withBudget none).run env n = (.unfinished, (e.withBudget none).after m' n) :=
  resume_steps h 0 rfl (allows_none _ n)

/-- A run that needs no more steps than its budget has left returns like one without. -/
theorem run_some_of_returns {e : Engine ω} {budget n : Nat} {m' : Machine ω} {ending : Ending}
    (h : Returns env n (e.started env) ending m') (hle : n ≤ budget - e.executed)
    (patience : Nat) :
    (e.withBudget (some budget)).run env patience
      = (ending, (e.withBudget (some budget)).after m' n) :=
  resume_returns h (budget - e.executed + 1) rfl (allows_some hle) (by omega)

/-- A run that goes on for as long as its budget lasts ends with the budget. -/
theorem run_some_of_steps {e : Engine ω} {budget : Nat} {m' : Machine ω}
    (h : Steps env (budget - e.executed) (e.started env) m') (patience : Nat) :
    (e.withBudget (some budget)).run env patience
      = (.faulted (.budgetExhausted budget),
        { e.withBudget (some budget) with machine := m', executed := max budget e.executed }) := by
  have hresume : (e.withBudget (some budget)).run env patience
      = ((e.withBudget (some budget)).after m' (budget - e.executed)).resume env 1 :=
    resume_steps h 1 rfl (allows_some (Nat.le_refl _))
  have hmax : e.executed + (budget - e.executed) = max budget e.executed := by omega
  have hused : budget ≤ max budget e.executed := Nat.le_max_left _ _
  rw [hresume]
  simp [resume, budgetFault?, after, withBudget, hmax, hused]

/-- **What a budget does to a run.**

If the run without a budget returns with its step `n`, and the budget has `n` steps left,
the run with the budget returns alike after the same steps, and so it does under every
larger budget.  Otherwise the run makes just the steps that the budget has left and ends
with the budget used up; the counter then stands at the budget, or where it stood if that
was already further.  In no case does a run with a budget stay unfinished.  A run without
one returns if and only if its steps do. -/
theorem run_under_budget (env : Environment ω) (e : Engine ω) (budget patience : Nat) :
    (∀ n ending m', Returns env n (e.started env) ending m' → n ≤ budget - e.executed →
      (∀ watched ≥ n,
        (e.withBudget none).run env watched = (ending, (e.withBudget none).after m' n)) ∧
      ∀ larger ≥ budget, (e.withBudget (some larger)).run env patience
        = (ending, (e.withBudget (some larger)).after m' n)) ∧
    ((∀ n ending m', Returns env n (e.started env) ending m' → budget - e.executed < n) →
      ∃ m', Steps env (budget - e.executed) (e.started env) m' ∧
        (e.withBudget none).run env (budget - e.executed)
          = (.unfinished, (e.withBudget none).after m' (budget - e.executed)) ∧
        (e.withBudget (some budget)).run env patience
          = (.faulted (.budgetExhausted budget),
            { e.withBudget (some budget) with
              machine := m', executed := max budget e.executed })) ∧
    ((e.withBudget (some budget)).run env patience).1 ≠ .unfinished ∧
    ∀ ending e', (e.withBudget none).run env patience = (ending, e') → ending ≠ .unfinished →
      ∃ n m', n ≤ patience ∧ Returns env n (e.started env) ending m' ∧
        e' = (e.withBudget none).after m' n := by
  refine ⟨?_, ?_, ?_, ?_⟩
  · intro n ending m' hreturns hle
    refine ⟨fun watched hwatched => run_none_of_returns hreturns hwatched,
      fun larger hlarger => ?_⟩
    exact run_some_of_returns hreturns (by omega) patience
  · intro hlate
    rcases returns_or_steps env (budget - e.executed) (e.started env) with
      ⟨n, ending, m', hle, hreturns⟩ | ⟨m', hsteps⟩
    · have := hlate n ending m' hreturns
      omega
    · exact ⟨m', hsteps, run_none_of_steps hsteps, run_some_of_steps hsteps patience⟩
  · rcases returns_or_steps env (budget - e.executed) (e.started env) with
      ⟨n, ending, m', hle, hreturns⟩ | ⟨m', hsteps⟩
    · rw [run_some_of_returns hreturns hle patience]
      exact hreturns.ne_unfinished
    · rw [run_some_of_steps hsteps patience]
      exact fun h => nomatch h
  · intro ending e' hrun hending
    rcases returns_or_steps env patience (e.started env) with
      ⟨n, ending', m', hle, hreturns⟩ | ⟨m', hsteps⟩
    · rw [run_none_of_returns hreturns hle] at hrun
      obtain ⟨rfl, rfl⟩ := Prod.mk.inj hrun
      exact ⟨n, m', hle, hreturns, rfl⟩
    · rw [run_none_of_steps hsteps] at hrun
      exact absurd (Prod.mk.inj hrun).1.symm hending

end Engine

end RegisterMachine
