/-
What the counter of an engine counts.

An engine may be initialised, loaded, stepped and run in any order, again and again, and each
time with another environment.  Beside it, `Fetches` keeps what the counter should count: every
step that has been made since the engine was last initialised, as an entry of its own and apart
from the counter.

The two agree for runs: a run adds to the counter as many fetches as it makes, and it makes no
more than the budget leaves it (`run_eq_after`).  A single step is a fetch as well, and it is not
counted, nor does the budget hold it up.  So the counter stays behind by the single steps, and
this is the only way in which it can.
-/
import RegisterMachine.Proofs.Machine.Reuse

namespace RegisterMachine

namespace Machine

variable {ω : Type} {env : Environment ω}

theorem length_transitions_le (env : Environment ω) (k : Nat) (m : Machine ω) :
    (m.transitions env k).length ≤ k := by
  induction k generalizing m with
  | zero => exact Nat.le_refl 0
  | succ k ih =>
      rcases hstep : m.step env with ⟨result, m'⟩
      cases hend : Ending.ofStep? result with
      | some ending =>
          rw [transitions_of_ends k hstep hend]
          exact Nat.le_add_left 1 k
      | none =>
          obtain rfl := Ending.ofStep?_eq_none hend
          rw [transitions_of_continues k hstep, List.length_cons]
          exact Nat.succ_le_succ (ih m')

theorem Steps.length_transitions {k : Nat} {m m' : Machine ω} (h : Steps env k m m') :
    (m.transitions env k).length = k := by
  induction h with
  | refl m => rfl
  | next hstep _ ih => rw [transitions_of_continues _ hstep, List.length_cons, ih]

theorem Returns.length_transitions {n : Nat} {m m' : Machine ω} {ending : Ending}
    (h : Returns env n m ending m') {k : Nat} (hle : n ≤ k) : (m.transitions env k).length = n := by
  induction h generalizing k with
  | last hstep hend =>
      obtain ⟨k, rfl⟩ : ∃ i, k = i + 1 := ⟨k - 1, by omega⟩
      rw [transitions_of_ends k hstep hend]
      rfl
  | next hstep _ ih =>
      obtain ⟨k, rfl⟩ : ∃ i, k = i + 1 := ⟨k - 1, by omega⟩
      rw [transitions_of_continues k hstep, List.length_cons, ih (by omega)]

theorem transitions_one (env : Environment ω) (m : Machine ω) :
    m.transitions env 1 = [⟨m.guest, (m.step env).1, (m.step env).2.guest⟩] := by
  rcases hstep : m.step env with ⟨result, m'⟩
  cases hend : Ending.ofStep? result with
  | some ending => exact transitions_of_ends 0 hstep hend
  | none =>
      obtain rfl := Ending.ofStep?_eq_none hend
      exact transitions_of_continues 0 hstep

end Machine

namespace Engine

open Machine

variable {ω : Type}

/-- The fetches of a run, at most as many as its budget has left. -/
def fetchesOfRun (env : Environment ω) (patience : Nat) (e : Engine ω) : List Transition :=
  (e.started env).transitions env (e.remaining?.getD patience)

section

variable {env : Environment ω} {e : Engine ω} {patience : Nat} {m' : Machine ω}

theorem run_of_returns {n : Nat} {ending : Ending}
    (h : Returns env n (e.started env) ending m') (hle : n ≤ e.remaining?.getD patience) :
    (e.run env patience).2 = e.after m' n := by
  have hsame : e = e.withBudget e.config.budget? := rfl
  rw [remaining?] at hle
  cases hbudget : e.config.budget? with
  | none =>
      rw [hbudget] at hsame
      rw [hbudget, Option.map_none, Option.getD_none] at hle
      have hrun := run_none_of_returns h hle
      rw [← hsame] at hrun
      rw [hrun]
  | some budget =>
      rw [hbudget] at hsame hle
      have hrun := run_some_of_returns h hle patience
      rw [← hsame] at hrun
      rw [hrun]

theorem run_of_steps (h : Steps env (e.remaining?.getD patience) (e.started env) m') :
    (e.run env patience).2 = e.after m' (e.remaining?.getD patience) := by
  have hsame : e = e.withBudget e.config.budget? := rfl
  rw [remaining?] at h ⊢
  cases hbudget : e.config.budget? with
  | none =>
      rw [hbudget] at hsame
      rw [hbudget, Option.map_none, Option.getD_none] at h
      have hrun := run_none_of_steps h
      rw [← hsame] at hrun
      rw [Option.map_none, Option.getD_none, hrun]
  | some budget =>
      rw [hbudget] at hsame h
      have hrun := run_some_of_steps h patience
      rw [← hsame] at hrun
      have hmax : max budget e.executed = e.executed + (budget - e.executed) := by omega
      rw [Option.map_some, Option.getD_some, hrun, hmax]
      rfl

end

/-- **A run counts its fetches**, and it leaves the machine where these lead. -/
theorem run_eq_after (env : Environment ω) (patience : Nat) (e : Engine ω) :
    let made := (e.fetchesOfRun env patience).length
    (e.run env patience).2 = e.after ((e.started env).later env made) made := by
  intro made
  rcases returns_or_steps env (e.remaining?.getD patience) (e.started env) with
    ⟨n, ending, m', hle, hreturns⟩ | ⟨m', hsteps⟩
  · have hmade : made = n := hreturns.length_transitions hle
    rw [hmade, hreturns.later_eq, run_of_returns hreturns hle]
  · have hmade : made = e.remaining?.getD patience := hsteps.length_transitions
    rw [hmade, hsteps.later_eq, run_of_steps hsteps]

/-! ### Calls in any order -/

/-- A call of one of the operations of an engine.  Each has an environment of its own, so the
handler and the observer may be others every time; a run that nobody observes is one of them. -/
inductive Call (ω : Type) where
  | init (env : Environment ω)
  | load (env : Environment ω) (image : List UInt8)
  | step (env : Environment ω)
  | run (env : Environment ω) (patience : Nat)

/-- The fetches that have been made since an engine was last initialised. -/
structure Fetches where
  ofRuns : List Transition
  ofSingleSteps : List Transition

namespace Fetches

def none : Fetches := ⟨[], []⟩

/-- How many fetches there have been in all. -/
def count (fetches : Fetches) : Nat :=
  fetches.ofRuns.length + fetches.ofSingleSteps.length

end Fetches

/-- An engine and its fetches behind a call.  The call may fail; what it has done then remains
done. -/
def Call.perform (before : Engine ω × Fetches) : Call ω → Engine ω × Fetches
  | init env => (before.1.init env, .none)
  | load env image => ((before.1.load env image).2, before.2)
  | step env =>
    ((before.1.step env).2, { before.2 with
      ofSingleSteps := before.2.ofSingleSteps ++ before.1.machine.transitions env 1 })
  | run env patience =>
    ((before.1.run env patience).2, { before.2 with
      ofRuns := before.2.ofRuns ++ before.1.fetchesOfRun env patience })

/-- A new engine and its fetches behind calls, one after another. -/
def driven (config : EngineConfig) (world : ω) (calls : List (Call ω)) : Engine ω × Fetches :=
  calls.foldl Call.perform (create config world, .none)

/-- The counter is right about runs, and these have kept to the budget. -/
structure Counted (config : EngineConfig) (state : Engine ω × Fetches) : Prop where
  config_eq : state.1.config = config
  executed_eq : state.1.executed = state.2.ofRuns.length
  le_budget (budget : Nat) (h : config.budget? = some budget) : state.1.executed ≤ budget

theorem counted_none {config : EngineConfig} {e : Engine ω} (hconfig : e.config = config)
    (hexecuted : e.executed = 0) : Counted config (e, .none) :=
  ⟨hconfig, hexecuted, fun budget _ => hexecuted ▸ Nat.zero_le budget⟩

theorem executed_load (env : Environment ω) (image : List UInt8) (e : Engine ω) :
    (e.load env image).2.executed = e.executed := by
  rw [load]
  split <;> rfl

/-- **Every call keeps the counter right about runs.** -/
theorem Counted.perform {config : EngineConfig} {before : Engine ω × Fetches}
    (h : Counted config before) (call : Call ω) : Counted config (call.perform before) := by
  cases call with
  | init env => exact counted_none h.config_eq rfl
  | load env image =>
      have hexecuted := executed_load env image before.1
      exact ⟨(config_load env before.1 image).trans h.config_eq, hexecuted.trans h.executed_eq,
        fun budget hbudget => hexecuted.symm ▸ h.le_budget budget hbudget⟩
  | step env => exact ⟨h.config_eq, h.executed_eq, h.le_budget⟩
  | run env patience =>
      have hrun := run_eq_after env patience before.1
      have hcounted : (before.1.run env patience).2.executed
          = before.1.executed + (before.1.fetchesOfRun env patience).length := by rw [hrun]; rfl
      refine ⟨(config_run env before.1 patience).trans h.config_eq, ?_, fun budget hbudget => ?_⟩
      · show (before.1.run env patience).2.executed = (_ ++ _ : List Transition).length
        rw [hcounted, h.executed_eq, List.length_append]
      · show (before.1.run env patience).2.executed ≤ budget
        have hleft : (before.1.fetchesOfRun env patience).length ≤ budget - before.1.executed := by
          have hremaining : before.1.remaining? = some (budget - before.1.executed) := by
            rw [remaining?, h.config_eq, hbudget]
            rfl
          rw [fetchesOfRun, hremaining]
          exact length_transitions_le env _ _
        have hbefore := h.le_budget budget hbudget
        omega

theorem counted_driven (config : EngineConfig) (world : ω) (calls : List (Call ω)) :
    Counted config (driven config world calls) := by
  have hfold : ∀ {state : Engine ω × Fetches}, Counted config state →
      Counted config (calls.foldl Call.perform state) := by
    induction calls with
    | nil => exact id
    | cons call rest ih => exact fun h => ih (h.perform call)
  exact hfold (counted_none rfl rfl)

/-- How many single steps there are behind a call, if so many were before it. -/
def Call.singleSteps (before : Nat) : Call ω → Nat
  | init _ => 0
  | step _ => before + 1
  | load _ _ | run _ _ => before

theorem length_ofSingleSteps (calls : List (Call ω)) (state : Engine ω × Fetches) :
    (calls.foldl Call.perform state).2.ofSingleSteps.length
      = calls.foldl Call.singleSteps state.2.ofSingleSteps.length := by
  induction calls generalizing state with
  | nil => rfl
  | cons call rest ih =>
      have hcall : (call.perform state).2.ofSingleSteps.length
          = call.singleSteps state.2.ofSingleSteps.length := by
        cases call with
        | step env =>
            show (_ ++ _ : List Transition).length = _
            rw [transitions_one, List.length_append]
            rfl
        | init _ | load _ _ | run _ _ => rfl
      rw [List.foldl_cons, List.foldl_cons, ih, hcall]

/-- **The counter is behind the fetches by the single steps.**

Whatever calls are made of a new engine, the counter stands at the number of the fetches that
runs have made since the engine was last initialised, and never above the budget.  All fetches
together are more than that by the single steps since then.  So the counter is right exactly as
long as no single step is made.

What counts as a fetch here can be seen from the engine: a single step is one, and a run has as
many as there are steps between the machine that it starts from and the one that it leaves. -/
theorem counter_counts_runs (config : EngineConfig) (world : ω) (calls : List (Call ω)) :
    let e := (driven config world calls).1
    let fetches := (driven config world calls).2
    e.executed = fetches.ofRuns.length ∧
      (∀ budget, config.budget? = some budget → e.executed ≤ budget) ∧
      fetches.count = e.executed + calls.foldl Call.singleSteps 0 ∧
      ∀ env : Environment ω,
        e.machine.transitions env 1
            = [⟨e.machine.guest, (e.step env).1, (e.step env).2.machine.guest⟩] ∧
          ∀ patience, (e.run env patience).2.machine
            = (e.started env).later env (e.fetchesOfRun env patience).length := by
  intro e fetches
  have hcounted := counted_driven config world calls
  refine ⟨hcounted.executed_eq, hcounted.le_budget, ?_, fun env => ⟨?_, fun patience => ?_⟩⟩
  · have hsteps : fetches.ofSingleSteps.length = calls.foldl Call.singleSteps 0 :=
      length_ofSingleSteps calls (create config world, .none)
    rw [Fetches.count, hsteps]
    exact congrArg (· + _) hcounted.executed_eq.symm
  · exact transitions_one env e.machine
  · exact congrArg Engine.machine (run_eq_after env patience e)

/-- A single step fetches under a budget of nothing, and the counter does not move. -/
theorem single_step_is_not_counted :
    let env := Environment.silent (noSyscalls Unit)
    let config : EngineConfig := ⟨4, some 0, by decide⟩
    let calls := [.init env, .load env pushesSeven, .step env]
    let e := (driven config () calls).1
    let fetches := (driven config () calls).2
    e.executed = 0 ∧ fetches.count = 1 ∧ (e.machine.guest.get .pc) = 11 := by
  decide +kernel

end Engine

end RegisterMachine
