import CwBitcoin.Library.Outcome

/-!
# Machines driven by calls that may be reverted

A machine answers each call with a new state or a failure, and a failed call
leaves the state as it was.  An invariant of all runs follows from one fact
about the calls that succeed.
-/

/-- A state machine whose calls may fail. -/
structure CallMachine (State Call ε : Type) where
  call : State → Call → Outcome ε State

namespace CallMachine

variable {State Call ε Ghost : Type} (machine : CallMachine State Call ε)

/-- The state after one call, which is the old state when the call fails. -/
def next (state : State) (call : Call) : State :=
  match machine.call state call with
  | .ok after => after
  | .error _ => state

/-- The state after a list of calls. -/
def run (state : State) (calls : List Call) : State :=
  calls.foldl machine.next state

/-- Every call of the run is permitted in the state where it is made. -/
def Permitted (permit : State → Call → Prop) : State → List Call → Prop
  | _, [] => True
  | state, call :: calls =>
      permit state call ∧ Permitted permit (machine.next state call) calls

instance Permitted.decidable (permit : State → Call → Prop)
    [∀ state call, Decidable (permit state call)] :
    (state : State) → (calls : List Call) →
      Decidable (machine.Permitted permit state calls)
  | _, [] => .isTrue trivial
  | state, call :: calls =>
      have := Permitted.decidable permit (machine.next state call) calls
      inferInstanceAs (Decidable (permit state call ∧ _))

/-- The requirement is on the calls that succeed, since others change nothing. -/
def OnSuccess (permit : State → Call → Prop) (state : State) (call : Call) : Prop :=
  Outcome.Ensures (machine.call state call) fun _ => permit state call

instance (permit : State → Call → Prop) [∀ state call, Decidable (permit state call)]
    (state : State) (call : Call) : Decidable (machine.OnSuccess permit state call) :=
  inferInstanceAs (Decidable (Outcome.Ensures _ _))

variable {machine}

@[simp]
theorem run_nil (state : State) : machine.run state [] = state :=
  rfl

@[simp]
theorem run_cons (state : State) (call : Call) (calls : List Call) :
    machine.run state (call :: calls) = machine.run (machine.next state call) calls :=
  rfl

theorem run_append (state : State) (first second : List Call) :
    machine.run state (first ++ second) = machine.run (machine.run state first) second :=
  List.foldl_append

/-- A property that every successful permitted call preserves is preserved by
one call, since a failed call changes nothing. -/
theorem next_invariant (Inv : State → Prop) {state : State} {call : Call}
    (preserve : ∀ after, machine.call state call = .ok after → Inv after)
    (holds : Inv state) : Inv (machine.next state call) := by
  unfold next
  split
  · exact preserve _ ‹_›
  · exact holds

/-- The invariant rule: what holds at the start and survives every successful
permitted call holds after every permitted run. -/
theorem run_invariant (Inv : State → Prop) {permit : State → Call → Prop}
    (preserve : ∀ state call after, Inv state → permit state call →
      machine.call state call = .ok after → Inv after)
    {start : State} (holds : Inv start) {calls : List Call}
    (permitted : machine.Permitted permit start calls) :
    Inv (machine.run start calls) := by
  induction calls generalizing start with
  | nil => exact holds
  | cons call calls ih =>
      obtain ⟨allowed, rest⟩ := permitted
      exact ih (next_invariant Inv (preserve start call · holds allowed) holds) rest

theorem permitted_of_forall {permit : Call → Prop} {calls : List Call}
    (allowed : ∀ call ∈ calls, permit call) (start : State) :
    machine.Permitted (fun _ => permit) start calls := by
  induction calls generalizing start with
  | nil => trivial
  | cons call calls ih =>
      exact ⟨allowed call (by simp), ih (fun other member => allowed other (by simp [member])) _⟩

theorem permitted_append {permit : State → Call → Prop} {state : State} {first second : List Call} :
    machine.Permitted permit state (first ++ second) ↔
      machine.Permitted permit state first ∧
        machine.Permitted permit (machine.run state first) second := by
  induction first generalizing state with
  | nil => simp [Permitted]
  | cons call first ih => simp only [List.cons_append, Permitted, run_cons, ih, and_assoc]

theorem permitted_all (start : State) (calls : List Call) :
    machine.Permitted (fun _ _ => True) start calls :=
  permitted_of_forall (fun _ _ => trivial) start

/-- What holds in every state that a run reaches holds wherever it makes a call. -/
theorem permitted_of_reachable {P : State → Prop} {start : State}
    (reachable : ∀ earlier, P (machine.run start earlier)) (calls : List Call) :
    machine.Permitted (fun state _ => P state) start calls := by
  induction calls generalizing start with
  | nil => trivial
  | cons call calls ih => exact ⟨reachable [], ih fun earlier => reachable (call :: earlier)⟩

theorem Permitted.onSuccess {permit : State → Call → Prop} {start : State} {calls : List Call}
    (permitted : machine.Permitted permit start calls) :
    machine.Permitted (machine.OnSuccess permit) start calls := by
  induction calls generalizing start with
  | nil => trivial
  | cons call calls ih => exact ⟨fun _ _ => permitted.1, ih permitted.2⟩

theorem Permitted.imp {permit other : State → Call → Prop} {start : State} {calls : List Call}
    (permitted : machine.Permitted permit start calls)
    (implies : ∀ state call, permit state call → other state call) :
    machine.Permitted other start calls := by
  induction calls generalizing start with
  | nil => trivial
  | cons call calls ih => exact ⟨implies start call permitted.1, ih permitted.2⟩

theorem Permitted.and {permit other : State → Call → Prop} {start : State} {calls : List Call}
    (first : machine.Permitted permit start calls) (second : machine.Permitted other start calls) :
    machine.Permitted (fun state call => permit state call ∧ other state call) start calls := by
  induction calls generalizing start with
  | nil => trivial
  | cons call calls ih => exact ⟨⟨first.1, second.1⟩, ih first.2 second.2⟩

/-- When a call preserves an invariant exactly if it is permitted, the invariant always
holds exactly in the runs whose successful calls are permitted. -/
theorem always_iff_permitted (Inv : State → Prop) {permit : State → Call → Prop}
    (preserve_iff : ∀ state call after, Inv state → machine.call state call = .ok after →
      (Inv after ↔ permit state call))
    {start : State} (holds : Inv start) {calls : List Call} :
    (∀ earlier, earlier <+: calls → Inv (machine.run start earlier)) ↔
      machine.Permitted (machine.OnSuccess permit) start calls := by
  induction calls generalizing start with
  | nil => exact ⟨fun _ => trivial, fun _ earlier isPrefix => by
      rw [List.prefix_nil.mp isPrefix]
      exact holds⟩
  | cons call calls ih =>
      have next_iff : Inv (machine.next start call) ↔ machine.OnSuccess permit start call := by
        unfold next OnSuccess Outcome.Ensures
        cases called : machine.call start call with
        | error fault => simpa using holds
        | ok after => simpa using preserve_iff start call after holds called
      constructor
      · intro always
        have nextHolds : Inv (machine.next start call) := by
          have one := always [call] (List.prefix_append [call] calls)
          rwa [run_cons, run_nil] at one
        refine ⟨next_iff.mp nextHolds, (ih nextHolds).mp fun earlier isPrefix => ?_⟩
        exact always (call :: earlier) ((List.cons_prefix_cons).mpr ⟨rfl, isPrefix⟩)
      · rintro ⟨allowed, rest⟩ earlier isPrefix
        cases earlier with
        | nil => exact holds
        | cons first others =>
            obtain ⟨rfl, othersPrefix⟩ := List.cons_prefix_cons.mp isPrefix
            exact (ih (next_iff.mpr allowed)).mpr rest others othersPrefix

/-- The invariant rule for runs without restriction on their calls. -/
theorem run_invariant_all (Inv : State → Prop)
    (preserve : ∀ state call after, Inv state →
      machine.call state call = .ok after → Inv after)
    {start : State} (holds : Inv start) (calls : List Call) :
    Inv (machine.run start calls) :=
  run_invariant Inv (fun state call after inv _ called => preserve state call after inv called)
    holds (machine.permitted_all start calls)

/-- What holds after a run but not at its start was brought about by a successful call. -/
theorem run_origin (P : State → Prop) {start : State} (before : ¬ P start) {calls : List Call}
    (holds : P (machine.run start calls)) :
    ∃ earlier call later after, calls = earlier ++ call :: later ∧
      ¬ P (machine.run start earlier) ∧
      machine.call (machine.run start earlier) call = .ok after ∧ P after := by
  induction calls generalizing start with
  | nil => exact absurd holds before
  | cons call calls ih =>
      by_cases now : P (machine.next start call)
      · cases called : machine.call start call with
        | error fault =>
            simp only [next, called] at now
            exact absurd now before
        | ok after =>
            simp only [next, called] at now
            exact ⟨[], call, calls, after, rfl, before, called, now⟩
      · obtain ⟨earlier, cause, later, after, rfl, notYet, called, thenHolds⟩ := ih now holds
        exact ⟨call :: earlier, cause, later, after, rfl, notYet, called, thenHolds⟩

/-- The simulation rule: a relation to an abstract state that every permitted
call maintains also relates the ends of the two runs. -/
theorem run_simulation (machine : CallMachine State Call ε) {Abstract : Type}
    (Rel : State → Abstract → Prop) (abstractNext : Abstract → Call → Abstract)
    {permit : State → Call → Prop}
    (simulate : ∀ state abstract call, Rel state abstract → permit state call →
      Rel (machine.next state call) (abstractNext abstract call))
    {start : State} {abstract : Abstract} (related : Rel start abstract) {calls : List Call}
    (permitted : machine.Permitted permit start calls) :
    Rel (machine.run start calls) (calls.foldl abstractNext abstract) := by
  induction calls generalizing start abstract with
  | nil => exact related
  | cons call calls ih =>
      obtain ⟨allowed, rest⟩ := permitted
      exact ih (simulate start abstract call related allowed) rest

/-- The rule for two machines that answer every permitted call alike in the states with the
invariant.  They run alike, and what one of them requires of its calls holds in the other. -/
theorem run_congr {other : CallMachine State Call ε} (Inv : State → Prop)
    {permit : State → Call → Prop}
    (same : ∀ state call, Inv state → permit state call →
      other.call state call = machine.call state call)
    (preserve : ∀ state call after, Inv state → permit state call →
      machine.call state call = .ok after → Inv after)
    {start : State} (holds : Inv start) {calls : List Call}
    (permitted : other.Permitted permit start calls) :
    other.run start calls = machine.run start calls ∧
      ∀ need : State → Call → Prop, other.Permitted need start calls →
        machine.Permitted (fun state call => need state call ∧
          other.call state call = machine.call state call) start calls := by
  induction calls generalizing start with
  | nil => exact ⟨rfl, fun _ _ => trivial⟩
  | cons call calls ih =>
      obtain ⟨allowed, rest⟩ := permitted
      have sameCall := same start call holds allowed
      have sameNext : other.next start call = machine.next start call := by
        rw [next, next, sameCall]
      have nextHolds : Inv (machine.next start call) :=
        next_invariant Inv (preserve start call · holds allowed) holds
      rw [sameNext] at rest
      obtain ⟨sameRun, transport⟩ := ih nextHolds rest
      refine ⟨by rw [run_cons, run_cons, sameNext, sameRun], fun need needed => ?_⟩
      obtain ⟨neededNow, neededLater⟩ := needed
      rw [sameNext] at neededLater
      exact ⟨⟨neededNow, sameCall⟩, transport need neededLater⟩

section Ghost

/-- The machine together with a ghost value that the successful calls update. -/
def observed (machine : CallMachine State Call ε)
    (observe : State → Call → State → Ghost → Ghost) : CallMachine (State × Ghost) Call ε where
  call state call := do
    let after ← machine.call state.1 call
    pure (after, observe state.1 call after state.2)

variable {observe : State → Call → State → Ghost → Ghost}

theorem observed_next_fst (state : State × Ghost) (call : Call) :
    ((machine.observed observe).next state call).1 = machine.next state.1 call := by
  cases called : machine.call state.1 call <;>
    simp [next, observed, called, bind, Except.bind, pure, Except.pure]

theorem observed_run_fst (state : State × Ghost) (calls : List Call) :
    ((machine.observed observe).run state calls).1 = machine.run state.1 calls := by
  induction calls generalizing state with
  | nil => rfl
  | cons call calls ih => rw [run_cons, run_cons, ih, observed_next_fst]

/-- The invariant rule for a state and the ghost value that observes it. -/
theorem observed_invariant (Inv : State → Ghost → Prop) {permit : State → Call → Prop}
    (preserve : ∀ state ghost call after, Inv state ghost → permit state call →
      machine.call state call = .ok after → Inv after (observe state call after ghost))
    {start : State} {ghost : Ghost} (holds : Inv start ghost) {calls : List Call}
    (permitted : machine.Permitted permit start calls) :
    Inv (machine.run start calls) ((machine.observed observe).run (start, ghost) calls).2 := by
  induction calls generalizing start ghost with
  | nil => exact holds
  | cons call calls ih =>
      obtain ⟨allowed, rest⟩ := permitted
      have stepped : Inv (machine.next start call)
          ((machine.observed observe).next (start, ghost) call).2 := by
        cases called : machine.call start call with
        | error fault => simpa [next, observed, called, bind, Except.bind] using holds
        | ok after =>
            have kept := preserve start ghost call after holds allowed called
            simpa [next, observed, called, bind, Except.bind, pure, Except.pure] using kept
      have sameState : ((machine.observed observe).next (start, ghost) call).1 =
          machine.next start call := observed_next_fst _ _
      rw [run_cons, run_cons]
      have later := ih stepped rest
      rw [← sameState] at later ⊢
      exact later

/-- Two ghost values that observe the same run. -/
theorem observed_run_prod {Other : Type} {other : State → Call → State → Other → Other}
    (state : State) (ghost : Ghost) (value : Other) (calls : List Call) :
    ((machine.observed fun before call after (pair : Ghost × Other) =>
        (observe before call after pair.1, other before call after pair.2)).run
      (state, ghost, value) calls).2 =
        (((machine.observed observe).run (state, ghost) calls).2,
          ((machine.observed other).run (state, value) calls).2) := by
  induction calls generalizing state ghost value with
  | nil => rfl
  | cons call calls ih =>
      simp only [run_cons]
      cases called : machine.call state call with
      | error fault => simpa [next, observed, called, bind, Except.bind] using ih state ghost value
      | ok after =>
          simpa [next, observed, called, bind, Except.bind, pure, Except.pure] using ih after _ _

/-- The invariant rule for a state and two ghost values that observe it. -/
theorem observed_invariant_pair {Other : Type} {other : State → Call → State → Other → Other}
    (Inv : State → Ghost → Other → Prop) {permit : State → Call → Prop}
    (preserve : ∀ state ghost value call after, Inv state ghost value → permit state call →
      machine.call state call = .ok after →
        Inv after (observe state call after ghost) (other state call after value))
    {start : State} {ghost : Ghost} {value : Other} (holds : Inv start ghost value)
    {calls : List Call} (permitted : machine.Permitted permit start calls) :
    Inv (machine.run start calls) ((machine.observed observe).run (start, ghost) calls).2
      ((machine.observed other).run (start, value) calls).2 := by
  have both : Inv (machine.run start calls)
      ((machine.observed fun before call after (pair : Ghost × Other) =>
        (observe before call after pair.1, other before call after pair.2)).run
          (start, ghost, value) calls).2.1
      ((machine.observed fun before call after (pair : Ghost × Other) =>
        (observe before call after pair.1, other before call after pair.2)).run
          (start, ghost, value) calls).2.2 :=
    observed_invariant (fun state (pair : Ghost × Other) => Inv state pair.1 pair.2)
      (fun state pair call after => preserve state pair.1 pair.2 call after) holds permitted
  rwa [observed_run_prod] at both

end Ghost

end CallMachine
