/-
Runs, step by step.

`Proofs/Machine/Budget.lean` compares runs with and without a budget.  Here the loop is taken
apart for everything else that is to be said of runs: `resume_cases` names the steps that it
has made and why it stopped, so that a fact about every run follows from one about a single
step, carried along `Steps` by `Steps.keeps`.  `transitions` lists the steps themselves, for
what is to be said of all of them in order, and `visited` the machines from which they are
made, for what is to be asked of each of them.
-/
import RegisterMachine.Proofs.Machine.Access
import RegisterMachine.Proofs.Machine.Budget

namespace RegisterMachine

/-- A step as the guest goes through it: what it is before, how the step went, and what it is
then. -/
structure Transition where
  before : Guest
  result : Except Fault Progress
  after : Guest

namespace Machine

variable {ω : Type} {env : Environment ω}

theorem Steps.keeps {P : Machine ω → Prop}
    (hkeeps : ∀ m mid, P m → m.step env = (.ok .continues, mid) → P mid)
    {n : Nat} {m m' : Machine ω} (h : Steps env n m m') (hm : P m) : P m' := by
  induction h with
  | refl m => exact hm
  | next hstep _ ih => exact ih (hkeeps _ _ hm hstep)

theorem Steps.snoc {n : Nat} {m mid m' : Machine ω} (h : Steps env n m mid)
    (hstep : mid.step env = (.ok .continues, m')) : Steps env (n + 1) m m' := by
  induction h with
  | refl m => exact .next hstep (.refl m')
  | next hfirst _ ih => exact .next hfirst (ih hstep)

theorem Returns.exists_last {n : Nat} {m m' : Machine ω} {ending : Ending}
    (h : Returns env n m ending m') :
    ∃ k mid result, n = k + 1 ∧ Steps env k m mid ∧ mid.step env = (result, m') ∧
      Ending.ofStep? result = some ending := by
  induction h with
  | @last m m' result ending hstep hend => exact ⟨0, m, result, rfl, .refl m, hstep, hend⟩
  | @next n m mid m' ending hstep _ ih =>
      obtain ⟨k, mid', result, rfl, hsteps, hlast, hend⟩ := ih
      exact ⟨k + 1, mid', result, rfl, .next hstep hsteps, hlast, hend⟩

/-- The steps of a run in order, at most so many; one that ends the run is the last. -/
def transitions (env : Environment ω) : Nat → Machine ω → List Transition
  | 0, _ => []
  | n + 1, m =>
    let (result, m') := m.step env
    ⟨m.guest, result, m'.guest⟩ ::
      match Ending.ofStep? result with
      | none => transitions env n m'
      | some _ => []

theorem transitions_of_continues {m mid : Machine ω} (n : Nat)
    (h : m.step env = (.ok .continues, mid)) :
    m.transitions env (n + 1) = ⟨m.guest, .ok .continues, mid.guest⟩ :: mid.transitions env n := by
  rw [transitions, h]
  rfl

theorem transitions_of_ends {m m' : Machine ω} {result : Except Fault Progress} {ending : Ending}
    (n : Nat) (h : m.step env = (result, m')) (hend : Ending.ofStep? result = some ending) :
    m.transitions env (n + 1) = [⟨m.guest, result, m'.guest⟩] := by
  rw [transitions, h]
  simp only [hend]

/-! ### The machines of a run -/

/-- The machine after so many steps, however these go. -/
def later (env : Environment ω) : Nat → Machine ω → Machine ω
  | 0, m => m
  | n + 1, m => later env n (m.step env).2

/-- The machines from which so many steps are made, in order. -/
def visited (env : Environment ω) : Nat → Machine ω → List (Machine ω)
  | 0, _ => []
  | n + 1, m => m :: visited env n (m.step env).2

theorem later_mem_visited {k n : Nat} (h : k < n) (m : Machine ω) :
    m.later env k ∈ m.visited env n := by
  induction k generalizing n m with
  | zero =>
      obtain ⟨n, rfl⟩ : ∃ i, n = i + 1 := ⟨n - 1, by omega⟩
      exact List.mem_cons_self
  | succ k ih =>
      obtain ⟨n, rfl⟩ : ∃ i, n = i + 1 := ⟨n - 1, by omega⟩
      exact List.mem_cons_of_mem _ (ih (by omega) _)

theorem visited_subset {k n : Nat} (h : k ≤ n) (m : Machine ω) :
    m.visited env k ⊆ m.visited env n := by
  induction k generalizing n m with
  | zero => exact List.nil_subset _
  | succ k ih =>
      obtain ⟨n, rfl⟩ : ∃ i, n = i + 1 := ⟨n - 1, by omega⟩
      exact List.cons_subset_cons _ (ih (by omega) _)

theorem Steps.later_eq {n : Nat} {m m' : Machine ω} (h : Steps env n m m') :
    m.later env n = m' := by
  induction h with
  | refl m => rfl
  | next hstep _ ih =>
      rw [later, hstep]
      exact ih

theorem Returns.later_eq {n : Nat} {m m' : Machine ω} {ending : Ending}
    (h : Returns env n m ending m') : m.later env n = m' := by
  induction h with
  | last hstep _ =>
      rw [later, hstep]
      rfl
  | next hstep _ ih =>
      rw [later, hstep]
      exact ih

theorem Steps.of_step_error {n : Nat} {m m' mid : Machine ω} {fault : Fault}
    (h : Steps env n m m') (hmid : mid ∈ m.visited env n)
    (hfault : (mid.step env).1 = .error fault) : False := by
  induction h with
  | refl m => exact absurd hmid List.not_mem_nil
  | next hstep _ ih =>
      rw [visited, hstep] at hmid
      rcases List.mem_cons.mp hmid with rfl | hlater
      · rw [hstep] at hfault
        contradiction
      · exact ih hlater

theorem Returns.of_step_error {n : Nat} {m m' mid : Machine ω} {ending : Ending} {fault : Fault}
    (h : Returns env n m ending m') (hmid : mid ∈ m.visited env n)
    (hfault : (mid.step env).1 = .error fault) :
    ending = .faulted fault ∧ m' = (mid.step env).2 := by
  induction h with
  | last hstep hend =>
      obtain rfl := List.mem_singleton.mp hmid
      rw [hstep] at hfault
      obtain rfl : _ = Except.error fault := hfault
      exact ⟨(Option.some.inj hend).symm, by rw [hstep]⟩
  | next hstep _ ih =>
      rw [visited, hstep] at hmid
      rcases List.mem_cons.mp hmid with rfl | hlater
      · rw [hstep] at hfault
        contradiction
      · exact ih hlater

theorem steps_later {n : Nat} {m : Machine ω}
    (h : ∀ mid ∈ m.visited env n, Ending.ofStep? (mid.step env).1 = none) :
    Steps env n m (m.later env n) := by
  induction n generalizing m with
  | zero => exact .refl m
  | succ n ih =>
      have hfirst := Ending.ofStep?_eq_none (h m List.mem_cons_self)
      exact .next (Prod.ext hfirst rfl) (ih fun mid hmid => h mid (List.mem_cons_of_mem _ hmid))

/-- What a step keeps that is made from a machine as it is asked for, a run keeps that only
passes such machines. -/
theorem later_keeps {P Q : Machine ω → Prop} (hkeeps : ∀ m, Q m → P m → P (m.step env).2)
    {n : Nat} {m : Machine ω} (hvisited : ∀ mid ∈ m.visited env n, Q mid) (hm : P m) :
    P (m.later env n) := by
  induction n generalizing m with
  | zero => exact hm
  | succ n ih =>
      have hfirst : Q m := hvisited m List.mem_cons_self
      exact ih (fun mid hmid => hvisited mid (List.mem_cons_of_mem _ hmid))
        (hkeeps m hfirst hm)

end Machine

namespace Engine

open Machine

variable {ω : Type} {env : Environment ω}

theorem budgetFault?_eq_some {e : Engine ω} {fault : Fault} (h : e.budgetFault? = some fault) :
    ∃ budget, e.config.budget? = some budget ∧ budget ≤ e.executed ∧
      fault = .budgetExhausted budget := by
  unfold budgetFault? at h
  split at h
  · rename_i budget hbudget
    split at h
    · rename_i hused
      exact ⟨budget, hbudget, hused, (Option.some.inj h).symm⟩
    · contradiction
  · contradiction

/-- Why the loop has stopped after so many steps: one of them was the last, or it was told to
make no more, or the budget is used up. -/
inductive Stopped (env : Environment ω) (e : Engine ω) (k : Nat) (m' : Machine ω) :
    Ending → Prop
  | returned {ending : Ending} (h : Returns env k e.machine ending m') : Stopped env e k m' ending
  | paused (h : Steps env k e.machine m') : Stopped env e k m' .unfinished
  | exhausted {budget : Nat} (h : Steps env k e.machine m')
      (hbudget : e.config.budget? = some budget) (hused : budget ≤ e.executed + k) :
      Stopped env e k m' (.faulted (.budgetExhausted budget))

section

variable {e : Engine ω} {k : Nat} {m' : Machine ω} {ending : Ending}

theorem Stopped.later_eq (h : Stopped env e k m' ending) : e.machine.later env k = m' := by
  cases h with
  | returned h => exact h.later_eq
  | paused h => exact h.later_eq
  | exhausted h _ _ => exact h.later_eq

/-- A step that fails is the last one, and its fault is how the run ends. -/
theorem Stopped.of_step_error {m : Machine ω} {fault : Fault} (h : Stopped env e k m' ending)
    (hm : m ∈ e.machine.visited env k) (hfault : (m.step env).1 = .error fault) :
    ending = .faulted fault ∧ m' = (m.step env).2 := by
  cases h with
  | returned h => exact h.of_step_error hm hfault
  | paused h => exact (h.of_step_error hm hfault).elim
  | exhausted h _ _ => exact (h.of_step_error hm hfault).elim

end

/-- **The loop makes steps and counts them until it stops.** -/
theorem resume_cases (env : Environment ω) (fuel : Nat) (e : Engine ω) :
    ∃ k m', (e.resume env fuel).2 = e.after m' k ∧ Stopped env e k m' (e.resume env fuel).1 := by
  induction fuel generalizing e with
  | zero => exact ⟨0, e.machine, rfl, .paused (.refl _)⟩
  | succ fuel ih =>
      cases hfault : e.budgetFault? with
      | some fault =>
          obtain ⟨budget, hbudget, hused, rfl⟩ := budgetFault?_eq_some hfault
          refine ⟨0, e.machine, ?_, ?_⟩
          · rw [resume, hfault]
            rfl
          · rw [resume, hfault]
            exact .exhausted (.refl _) hbudget hused
      | none =>
          rcases hstep : e.machine.step env with ⟨result, mid⟩
          rw [resume_succ (allows_one hfault) hstep]
          cases hend : Ending.ofStep? result with
          | some ending => exact ⟨1, mid, rfl, .returned (.last hstep hend)⟩
          | none =>
              obtain rfl := Ending.ofStep?_eq_none hend
              obtain ⟨k, m', hafter, hstopped⟩ := ih (e.after mid 1)
              refine ⟨k + 1, m', by rw [hafter, after_after], ?_⟩
              generalize ((e.after mid 1).resume env fuel).1 = ending at hstopped ⊢
              cases hstopped with
              | returned h => exact .returned (.next hstep h)
              | paused h => exact .paused (.next hstep h)
              | exhausted h hbudget hused =>
                  refine .exhausted (.next hstep h) hbudget ?_
                  have hexecuted : (e.after mid 1).executed = e.executed + 1 := rfl
                  omega

theorem executed_le_resume (env : Environment ω) (fuel : Nat) (e : Engine ω) :
    e.executed ≤ (e.resume env fuel).2.executed := by
  obtain ⟨k, m', hafter, -⟩ := resume_cases env fuel e
  rw [hafter]
  exact Nat.le_add_right _ _

theorem run_faulted {e e' : Engine ω} {patience : Nat} {fault : Fault}
    (h : e.run env patience = (.faulted fault, e')) :
    (∃ budget, e.config.budget? = some budget ∧ budget ≤ e'.executed ∧
        fault = .budgetExhausted budget) ∨
      ∃ n m, Steps env n (e.started env) m ∧ m.step env = (.error fault, e'.machine) := by
  obtain ⟨k, m', hafter, hstopped⟩ := resume_cases env (e.stepBound patience) (e.tell env .start)
  have hresume : (e.tell env .start).resume env (e.stepBound patience) = (.faulted fault, e') := h
  rw [hresume] at hafter hstopped
  obtain rfl : e' = (e.tell env .start).after m' k := hafter
  cases hstopped with
  | returned hreturns =>
      obtain ⟨n, mid, result, -, hsteps, hstep, hend⟩ := hreturns.exists_last
      obtain rfl := Ending.ofStep?_eq_faulted hend
      exact Or.inr ⟨n, mid, hsteps, hstep⟩
  | exhausted _ hbudget hused => exact Or.inl ⟨_, hbudget, hused, rfl⟩

/-- **How the run of a fresh engine can end.**  Its steps return before the budget is used up,
or they go on for just as long as the budget lasts. -/
theorem exists_run_eq_iff {e : Engine ω} (hfresh : e.executed = 0) {ending : Ending}
    (hends : ending ≠ .unfinished) :
    (∃ patience, (e.run env patience).1 = ending) ↔
      (∃ n m', Returns env n (e.started env) ending m' ∧
        ∀ budget, e.config.budget? = some budget → n ≤ budget) ∨
      ∃ budget m', e.config.budget? = some budget ∧ Steps env budget (e.started env) m' ∧
        ending = .faulted (.budgetExhausted budget) := by
  have hsame : e = e.withBudget e.config.budget? := rfl
  cases hbudget : e.config.budget? with
  | none =>
      rw [hbudget] at hsame
      constructor
      · rintro ⟨patience, rfl⟩
        rcases returns_or_steps env patience (e.started env) with
          ⟨n, ending, m', hle, hreturns⟩ | ⟨m', hsteps⟩
        · rw [hsame, run_none_of_returns hreturns hle]
          exact Or.inl ⟨n, m', hreturns, fun _ h => nomatch h⟩
        · rw [hsame, run_none_of_steps hsteps] at hends
          exact absurd rfl hends
      · rintro (⟨n, m', hreturns, -⟩ | ⟨_, _, h, -⟩)
        · exact ⟨n, by rw [hsame, run_none_of_returns hreturns (Nat.le_refl n)]⟩
        · contradiction
  | some budget =>
      rw [hbudget] at hsame
      have hleft : budget - e.executed = budget := by rw [hfresh, Nat.sub_zero]
      constructor
      · rintro ⟨patience, rfl⟩
        rcases returns_or_steps env budget (e.started env) with
          ⟨n, ending, m', hle, hreturns⟩ | ⟨m', hsteps⟩
        · rw [hsame, run_some_of_returns hreturns (by rwa [hleft])]
          exact Or.inl ⟨n, m', hreturns, fun _ h => Option.some.inj h ▸ hle⟩
        · have hexhausts : Steps env (budget - e.executed) (e.started env) m' := by rwa [hleft]
          rw [hsame, run_some_of_steps hexhausts]
          exact Or.inr ⟨budget, m', rfl, hsteps, rfl⟩
      · rintro (⟨n, m', hreturns, hle⟩ | ⟨_, m', ⟨⟩, hsteps, rfl⟩)
        · have hle : n ≤ budget - e.executed := by rw [hleft]; exact hle budget rfl
          exact ⟨0, by rw [hsame, run_some_of_returns hreturns hle]⟩
        · have hexhausts : Steps env (budget - e.executed) (e.started env) m' := by rwa [hleft]
          exact ⟨0, by rw [hsame, run_some_of_steps hexhausts]⟩

theorem machine_run (env : Environment ω) (e : Engine ω) (patience : Nat) :
    (e.run env patience).2.machine
      = (e.started env).later env ((e.run env patience).2.executed - e.executed) := by
  obtain ⟨k, m', hafter, hstopped⟩ := resume_cases env (e.stepBound patience) (e.tell env .start)
  generalize ((e.tell env .start).resume env (e.stepBound patience)).1 = ending at hstopped
  have hrun : (e.run env patience).2 = (e.tell env .start).after m' k := hafter
  have hcounted : (e.run env patience).2.executed - e.executed = k := by
    rw [hrun]
    exact Nat.add_sub_cancel_left e.executed k
  have hlater : (e.started env).later env k = m' := hstopped.later_eq
  rw [hcounted, hlater, hrun]
  rfl

/-! ### From an image to a run -/

theorem load_init_of_le (env : Environment ω) (e : Engine ω) {image : List UInt8}
    (hfits : image.length ≤ e.config.ramBytes) :
    ∃ loaded, (e.init env).load env image = (.ok (), loaded) ∧ loaded.config = e.config ∧
      loaded.machine.guest.memory.length = e.config.ramBytes := by
  have hload := Memory.loadImage_of_le (m := .zeroed e.config.ramBytes) hfits
  have hmemory : (((e.init env).tell env (.loadProgram image.length)).machine.guest.memory.loadImage
      image) = .ok ((Memory.zeroed e.config.ramBytes).setBytes 0 image) := hload
  rw [load]
  simp only [hmemory]
  exact ⟨_, rfl, rfl, Memory.length_setBytes _ _ _⟩

/-- An engine that is set up for a program, just before its first step. -/
def atStart (env : Environment ω) (image : List UInt8) (e : Engine ω) : Engine ω :=
  (e.prepare env image).2.tell env .start

theorem world_atStart (env : Environment ω) (image : List UInt8) (e : Engine ω) :
    (e.atStart env image).machine.world
      = env.observe .start (env.observe (.loadProgram image.length)
        (env.observe (.initRegisters (.reset (UInt32.ofNat e.config.ramBytes)))
          (env.observe (.initMemory e.config.ramBytes)
            (env.observe (.configure e.kind image.length e.config.ramMib) e.machine.world)))) := by
  show env.observe .start (e.prepare env image).2.machine.world = _
  rw [prepare, load]
  split <;> rfl

theorem registers_atStart (env : Environment ω) (image : List UInt8) (e : Engine ω) :
    (e.atStart env image).machine.guest.registers = .reset (UInt32.ofNat e.config.ramBytes) := by
  show (e.prepare env image).2.machine.guest.registers = _
  rw [prepare, load]
  split <;> rfl

theorem executed_atStart (env : Environment ω) (image : List UInt8) (e : Engine ω) :
    (e.atStart env image).executed = 0 := by
  show (e.prepare env image).2.executed = _
  rw [prepare, load]
  split <;> rfl

/-- **A program that fits is executed as a run from its start.**  The run stops after so many
steps, which are those that it has counted. -/
theorem execute_cases (env : Environment ω) (e : Engine ω) (patience : Nat) {image : List UInt8}
    (hfits : image.length ≤ e.config.ramBytes) :
    ∃ k m' ending, Stopped env (e.atStart env image) k m' ending ∧
      e.execute env patience image = ((e.atStart env image).after m' k).conclude env ending ∧
      (e.execute env patience image).2.executed = k := by
  obtain ⟨loaded, hload, -, -⟩ :=
    load_init_of_le env (e.tell env (.configure e.kind image.length e.config.ramMib)) hfits
  have hprepare : e.prepare env image = (.ok (), loaded) := hload
  have hstart : e.atStart env image = loaded.tell env .start := by rw [atStart, hprepare]
  obtain ⟨k, m', hafter, hstopped⟩ :=
    resume_cases env (loaded.stepBound patience) (e.atStart env image)
  have hexecute : e.execute env patience image = ((e.atStart env image).after m' k).conclude env
      ((e.atStart env image).resume env (loaded.stepBound patience)).1 := by
    rw [execute, hprepare, ← hafter, hstart]
    rfl
  have hcounted : ((e.atStart env image).after m' k).executed = k := by
    show (e.atStart env image).executed + k = k
    rw [executed_atStart, Nat.zero_add]
  refine ⟨k, m', _, hstopped, hexecute, ?_⟩
  rw [hexecute]
  generalize ((e.atStart env image).resume env (loaded.stepBound patience)).1 = ending
  cases ending <;> exact hcounted

theorem returns_of_halted {e : Engine ω} {patience : Nat} {image : List UInt8}
    {registers : RegisterFile} (hfits : image.length ≤ e.config.ramBytes)
    (h : (e.execute env patience image).1 = .halted registers) :
    ∃ m', Returns env (e.execute env patience image).2.executed (e.atStart env image).machine
        .halted m' ∧ m'.guest.registers = registers := by
  obtain ⟨k, m', ending, hstopped, hexecute, hcounted⟩ := execute_cases env e patience hfits
  rw [hcounted]
  rw [hexecute] at h
  cases hstopped with
  | @returned ending hreturns =>
      cases ending with
      | halted => exact ⟨m', hreturns, RunResult.halted.inj h⟩
      | faulted _ | unfinished => contradiction
  | paused _ | exhausted _ _ _ => contradiction

end Engine

end RegisterMachine
