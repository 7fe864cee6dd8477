import CwBitcoin.Library.Script
import Mathlib.Tactic.IntervalCases

/-!
# Executing Bitcoin scripts

A stack machine for the opcodes of `Script` under the consensus rules for
version 0 witness scripts: the limits on script size, element size, opcode
count and stack height, conditional branches, and four-byte arithmetic
operands.  Opcodes without a definition here fail.  Signature checking is a
parameter, which receives the signature and the public key.
-/

namespace ScriptMachine

open Script

structure State where
  /-- The stack, topmost element first. -/
  stack : List Bytes
  /-- For each open `OP_IF`, innermost first, whether its branch is taken. -/
  conditions : List Bool
  /-- The number of opcodes so far, pushes not counted. -/
  opCount : Nat
  deriving DecidableEq, Repr

def maxScriptSize : Nat := 10000
def maxElementSize : Nat := 520
def maxOpCount : Nat := 201
def maxStackSize : Nat := 1000

/-- The stack element for a truth value. -/
def truth (value : Bool) : Bytes := if value then [1] else []

/-- Whether instructions at this point are executed rather than skipped. -/
def State.executing (state : State) : Bool := state.conditions.all id

section Step

variable (checkSig : Bytes → Bytes → Bool)

/-- The effect of an opcode other than the conditionals on the stack. -/
def onStack (code : UInt8) (stack : List Bytes) : Option (List Bytes) :=
  if code = OP_DROP then
    match stack with
    | _ :: rest => some rest
    | [] => none
  else if code = OP_SWAP then
    match stack with
    | first :: second :: rest => some (second :: first :: rest)
    | _ => none
  else if code = OP_ADD then
    match stack with
    | first :: second :: rest => do
        let right ← ScriptNumber.read first
        let left ← ScriptNumber.read second
        return ScriptNumber.encode (left + right) :: rest
    | _ => none
  else if code = OP_GREATERTHAN then
    match stack with
    | first :: second :: rest => do
        let right ← ScriptNumber.read first
        let left ← ScriptNumber.read second
        return truth (right < left) :: rest
    | _ => none
  else if code = OP_CHECKSIG then
    match stack with
    | pubkey :: signature :: rest => some (truth (checkSig signature pubkey) :: rest)
    | _ => none
  else if code = 0x4f ∨ (0x51 ≤ code ∧ code ≤ 0x60) then
    some (ScriptNumber.encode (code.toNat - 0x50) :: stack)
  else none

/-- The effect of an opcode, including the conditionals. -/
def operate (code : UInt8) (state : State) : Option State :=
  if code = OP_IF then
    if state.executing then
      match state.stack with
      | top :: rest =>
          some { state with stack := rest, conditions := ScriptNumber.isTrue top :: state.conditions }
      | [] => none
    else some { state with conditions := false :: state.conditions }
  else if code = OP_ELSE then
    match state.conditions with
    | taken :: outer => some { state with conditions := (!taken) :: outer }
    | [] => none
  else if code = OP_ENDIF then
    match state.conditions with
    | _ :: outer => some { state with conditions := outer }
    | [] => none
  else if state.executing then do
    let stack ← onStack checkSig code state.stack
    return { state with stack := stack }
  else some state

/-- Execute one instruction before the stack height is checked. -/
def perform (state : State) : Instruction → Option State
  | .pushBytes data =>
      if maxElementSize < data.length then none
      else if state.executing then some { state with stack := data :: state.stack }
      else some state
  | .op code =>
      if 0x60 < code then
        if maxOpCount < state.opCount + 1 then none
        else operate checkSig code { state with opCount := state.opCount + 1 }
      else operate checkSig code state

def step (state : State) (instruction : Instruction) : Option State := do
  let next ← perform checkSig state instruction
  if maxStackSize < next.stack.length then none else some next

def run (state : State) (is : List Instruction) : Option State :=
  is.foldlM (step checkSig) state

/-- The stack that a script leaves when started on the given stack. -/
def evaluate (script : Script) (stack : List Bytes) : Option (List Bytes) := do
  if maxScriptSize < script.length then none else
  let is ← instructions script
  let final ← run checkSig ⟨stack, [], 0⟩ is
  if final.conditions = [] then some final.stack else none

end Step

/-- The evaluation ended with a true element on top of the stack. -/
def EndsTrue (result : Option (List Bytes)) : Prop :=
  ∃ top rest, result = some (top :: rest) ∧ ScriptNumber.isTrue top = true

theorem endsTrue_iff (result : Option (List Bytes)) :
    EndsTrue result ↔ (result.bind List.head?).any ScriptNumber.isTrue = true := by
  rcases result with _ | _ | ⟨top, rest⟩ <;> simp [EndsTrue]

instance (result : Option (List Bytes)) : Decidable (EndsTrue result) :=
  decidable_of_iff' _ (endsTrue_iff result)

/-- The instruction pushes at most as much as a stack element may hold. -/
def Pushable : Instruction → Prop
  | .pushBytes data => data.length ≤ maxElementSize
  | .op _ => True

instance : DecidablePred Pushable
  | .pushBytes data => inferInstanceAs (Decidable (data.length ≤ maxElementSize))
  | .op _ => .isTrue trivial

/-- Neither the script nor an element that it pushes is too large. -/
def WithinLimits (script : Script) : Prop :=
  script.length ≤ maxScriptSize ∧ ∃ is ∈ instructions script, ∀ i ∈ is, Pushable i

instance (script : Script) : Decidable (WithinLimits script) :=
  inferInstanceAs (Decidable (_ ∧ ∃ is ∈ instructions script, ∀ i ∈ is, Pushable i))

section Rules

variable {checkSig : Bytes → Bytes → Bool} {stack rest : List Bytes} {conditions : List Bool}
  {count : Nat}

@[simp]
theorem run_nil (state : State) : run checkSig state [] = some state :=
  rfl

theorem run_cons {state next : State} {first : Instruction} {is : List Instruction}
    (stepped : step checkSig state first = some next) :
    run checkSig state (first :: is) = run checkSig next is := by
  simp [run, stepped]

@[simp]
theorem isTrue_truth (value : Bool) : ScriptNumber.isTrue (truth value) = value := by
  cases value <;> rfl

theorem endsTrue_truth (value : Bool) : EndsTrue (some [truth value]) ↔ value = true := by
  constructor
  · rintro ⟨top, rest, shape, top_true⟩
    simp only [Option.some.injEq, List.cons.injEq] at shape
    rwa [← shape.1, isTrue_truth] at top_true
  · rintro rfl
    exact ⟨truth true, [], rfl, rfl⟩

theorem not_endsTrue_none : ¬ EndsTrue none := by
  rintro ⟨_, _, shape, _⟩
  cases shape

/-- A push that is executed. -/
theorem step_pushBytes {data : Bytes} (taken : conditions.all id = true)
    (small : data.length ≤ maxElementSize) (height : stack.length + 1 ≤ maxStackSize) :
    step checkSig ⟨stack, conditions, count⟩ (.pushBytes data) =
      some ⟨data :: stack, conditions, count⟩ := by
  simp [step, perform, State.executing, taken, Nat.not_lt.mpr small]
  omega

/-- A push of too much data fails, executed or not. -/
theorem step_pushBytes_large {data : Bytes} (large : maxElementSize < data.length)
    (state : State) : step checkSig state (.pushBytes data) = none := by
  simp [step, perform, large]

theorem pushable_ofInt {number : Int} (bound : number.natAbs < 2 ^ 64) :
    Pushable (.ofInt number) := by
  unfold Instruction.ofInt
  split
  · trivial
  · have short : (ScriptNumber.encode number).length ≤ 8 + 1 :=
      ScriptNumber.length_encode_le (by omega)
    simp only [Pushable, maxElementSize]
    omega

theorem run_eq_none {is : List Instruction} (large : ∃ i ∈ is, ¬ Pushable i) (state : State) :
    run checkSig state is = none := by
  induction is generalizing state with
  | nil =>
      obtain ⟨_, member, -⟩ := large
      cases member
  | cons first rest ih =>
      obtain ⟨i, member, notPushable⟩ := large
      rcases List.mem_cons.mp member with rfl | later
      · cases i with
        | pushBytes data => simp [run, step_pushBytes_large (Nat.lt_of_not_le notPushable)]
        | op code => exact absurd trivial notPushable
      · cases stepped : step checkSig state first with
        | none => simp [run, stepped]
        | some next =>
            rw [run_cons stepped]
            exact ih ⟨i, later, notPushable⟩ next

/-- A script beyond the limits cannot be executed on any stack. -/
theorem evaluate_eq_none {script : Script} (beyond : ¬ WithinLimits script)
    (stack : List Bytes) : evaluate checkSig script stack = none := by
  unfold evaluate
  split
  · rfl
  · rename_i small
    cases read : instructions script with
    | none => rfl
    | some is =>
        have large : ∃ i ∈ is, ¬ Pushable i := by
          by_contra allPushable
          push Not at allPushable
          exact beyond ⟨Nat.le_of_not_lt small, is, read, allPushable⟩
        simp [run_eq_none large]

theorem length_encode_le_maxElementSize {number : Int} (bound : number.natAbs < 2 ^ 31) :
    (ScriptNumber.encode number).length ≤ maxElementSize := by
  have short : (ScriptNumber.encode number).length ≤ 3 + 1 :=
    ScriptNumber.length_encode_le (by omega)
  simp only [maxElementSize]
  omega

/-- Pushing an integer leaves its encoding, whichever instruction pushes it. -/
theorem perform_ofInt {number : Int} (bound : number.natAbs < 2 ^ 31) (state : State) :
    perform checkSig state (.ofInt number) =
      if state.executing then some { state with stack := ScriptNumber.encode number :: state.stack }
      else some state := by
  have small := length_encode_le_maxElementSize bound
  unfold Instruction.ofInt
  split
  · rename_i special
    rcases special with rfl | ⟨low, high⟩
    · rfl
    · interval_cases number <;> rfl
  · simp [perform, Nat.not_lt.mpr small]

theorem step_ofInt {number : Int} (bound : number.natAbs < 2 ^ 31)
    (taken : conditions.all id = true) (height : stack.length + 1 ≤ maxStackSize) :
    step checkSig ⟨stack, conditions, count⟩ (.ofInt number) =
      some ⟨ScriptNumber.encode number :: stack, conditions, count⟩ := by
  simp [step, perform_ofInt bound, State.executing, taken]
  omega

theorem step_ofInt_skipped {number : Int} (bound : number.natAbs < 2 ^ 31)
    (skipped : conditions.all id = false) (height : stack.length ≤ maxStackSize) :
    step checkSig ⟨stack, conditions, count⟩ (.ofInt number) =
      some ⟨stack, conditions, count⟩ := by
  simp [step, perform_ofInt bound, State.executing, skipped]
  omega

/-- An opcode acts through `operate`, as long as the limits are kept. -/
theorem step_op {code : UInt8} (counted : 0x60 < code) (room : count + 1 ≤ maxOpCount)
    {after : State} (operated : operate checkSig code ⟨stack, conditions, count + 1⟩ = some after)
    (height : after.stack.length ≤ maxStackSize) :
    step checkSig ⟨stack, conditions, count⟩ (.op code) = some after := by
  simp [step, perform, counted, Nat.not_lt.mpr room, operated]
  omega

theorem step_if {top : Bytes} (taken : conditions.all id = true)
    (room : count + 1 ≤ maxOpCount) (height : rest.length ≤ maxStackSize) :
    step checkSig ⟨top :: rest, conditions, count⟩ (.op OP_IF) =
      some ⟨rest, ScriptNumber.isTrue top :: conditions, count + 1⟩ :=
  step_op (by decide) room (by simp [operate, State.executing, taken]) height

theorem step_else {taken : Bool} (room : count + 1 ≤ maxOpCount)
    (height : stack.length ≤ maxStackSize) :
    step checkSig ⟨stack, taken :: conditions, count⟩ (.op OP_ELSE) =
      some ⟨stack, (!taken) :: conditions, count + 1⟩ :=
  step_op (by decide) room (by simp [operate, OP_IF, OP_ELSE]) height

theorem step_endif {taken : Bool} (room : count + 1 ≤ maxOpCount)
    (height : stack.length ≤ maxStackSize) :
    step checkSig ⟨stack, taken :: conditions, count⟩ (.op OP_ENDIF) =
      some ⟨stack, conditions, count + 1⟩ :=
  step_op (by decide) room (by simp [operate, OP_IF, OP_ELSE, OP_ENDIF]) height

/-- An opcode other than the conditionals, in an executed branch. -/
theorem step_onStack {code : UInt8} (counted : 0x60 < code)
    (plain : code ≠ OP_IF ∧ code ≠ OP_ELSE ∧ code ≠ OP_ENDIF)
    (taken : conditions.all id = true) (room : count + 1 ≤ maxOpCount) {after : List Bytes}
    (effect : onStack checkSig code stack = some after) (height : after.length ≤ maxStackSize) :
    step checkSig ⟨stack, conditions, count⟩ (.op code) = some ⟨after, conditions, count + 1⟩ :=
  step_op counted room
    (by simp [operate, plain.1, plain.2.1, plain.2.2, State.executing, taken, effect]) height

theorem step_op_skipped {code : UInt8} (counted : 0x60 < code)
    (plain : code ≠ OP_IF ∧ code ≠ OP_ELSE ∧ code ≠ OP_ENDIF)
    (skipped : conditions.all id = false) (room : count + 1 ≤ maxOpCount)
    (height : stack.length ≤ maxStackSize) :
    step checkSig ⟨stack, conditions, count⟩ (.op code) = some ⟨stack, conditions, count + 1⟩ :=
  step_op counted room
    (by simp [operate, plain.1, plain.2.1, plain.2.2, State.executing, skipped]) height

@[simp]
theorem onStack_drop (top : Bytes) : onStack checkSig OP_DROP (top :: rest) = some rest :=
  rfl

@[simp]
theorem onStack_swap (first second : Bytes) :
    onStack checkSig OP_SWAP (first :: second :: rest) = some (second :: first :: rest) :=
  rfl

@[simp]
theorem onStack_checksig (pubkey signature : Bytes) :
    onStack checkSig OP_CHECKSIG (pubkey :: signature :: rest) =
      some (truth (checkSig signature pubkey) :: rest) :=
  rfl

theorem onStack_add {left right : Int} (leftBound : left.natAbs < 2 ^ 31)
    (rightBound : right.natAbs < 2 ^ 31) :
    onStack checkSig OP_ADD (ScriptNumber.encode right :: ScriptNumber.encode left :: rest) =
      some (ScriptNumber.encode (left + right) :: rest) := by
  simp [onStack, OP_DROP, OP_SWAP, OP_ADD, ScriptNumber.read_encode leftBound,
    ScriptNumber.read_encode rightBound]

theorem onStack_greaterthan {left right : Int} (leftBound : left.natAbs < 2 ^ 31)
    (rightBound : right.natAbs < 2 ^ 31) :
    onStack checkSig OP_GREATERTHAN
        (ScriptNumber.encode right :: ScriptNumber.encode left :: rest) =
      some (truth (right < left) :: rest) := by
  simp [onStack, OP_DROP, OP_SWAP, OP_ADD, OP_GREATERTHAN, ScriptNumber.read_encode leftBound,
    ScriptNumber.read_encode rightBound]

end Rules

end ScriptMachine
