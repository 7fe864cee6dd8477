import CwBitcoin.CheckpointSteps

/-!
# The size of a transaction

The size in virtual bytes is a quarter of the weight, rounded up.  A byte of a
witness weighs one unit and any other byte four, so the size splits into the size
without witnesses and a quarter of the witnesses.
-/

namespace CwBitcoin

/-- The number of bytes of a variable-length integer. -/
def varIntLength (number : Nat) : Nat :=
  if number < 0xfd then 1
  else if number < 0x10000 then 3
  else if number < 0x100000000 then 5
  else 9

theorem varIntLength_of_lt {number : Nat} (small : number < 0xfd) : varIntLength number = 1 :=
  if_pos small

theorem varIntLength_mono {first second : Nat} (le : first ≤ second) :
    varIntLength first ≤ varIntLength second := by
  unfold varIntLength
  split_ifs <;> omega

/-- The size of a byte string with its length in front. -/
def sizedLength (data : Bytes) : Nat := varIntLength data.length + data.length

def TxOut.size (output : TxOut) : Nat := 8 + sizedLength output.scriptPubkey

namespace TxIn

/-- The size without the witness. -/
def baseSize (input : TxIn) : Nat := 40 + sizedLength input.scriptSig

def witnessSize (input : TxIn) : Nat :=
  varIntLength input.witness.length + (input.witness.map sizedLength).sum

end TxIn

/-- The size of outputs with their number in front. -/
def outputsSize (outputs : List TxOut) : Nat :=
  varIntLength outputs.length + (outputs.map TxOut.size).sum

/-- The size of the witnesses and of the marker that announces them, which a
transaction without witnesses does not have. -/
def witnessesSize (inputs : List TxIn) : Nat :=
  if ∀ input ∈ inputs, input.witness = [] then 0
  else 2 + (inputs.map TxIn.witnessSize).sum

namespace Transaction

/-- The size without witnesses: version, inputs, outputs and lock time. -/
def baseSize (tx : Transaction) : Nat :=
  4 + (varIntLength tx.input.length + (tx.input.map TxIn.baseSize).sum) +
    outputsSize tx.output + 4

def weight (tx : Transaction) : Nat := 4 * tx.baseSize + witnessesSize tx.input

def vsize (tx : Transaction) : Nat := (tx.weight + 3) / 4

theorem vsize_eq (tx : Transaction) :
    tx.vsize = tx.baseSize + (witnessesSize tx.input + 3) / 4 := by
  unfold vsize weight
  omega

end Transaction

/-- Sizes are measured by weight. -/
def Host.MeasuresWeight (host : Host) : Prop := ∀ tx, host.vsize tx = tx.vsize

/-- The size of inputs with their number in front and with the estimated sizes
of their witnesses. -/
def estInputsSize (inputs : List Input) : Nat :=
  varIntLength inputs.length + (inputs.map fun input => 41 + input.estWitnessVsize).sum

theorem outputsSize_congr {outputs others : List TxOut}
    (same : others.map TxOut.scriptPubkey = outputs.map TxOut.scriptPubkey) :
    outputsSize others = outputsSize outputs := by
  have sameLength : others.length = outputs.length := by
    simpa using congrArg List.length same
  have viaScripts (list : List TxOut) :
      list.map TxOut.size = (list.map TxOut.scriptPubkey).map fun script =>
        8 + sizedLength script := by
    rw [List.map_map]
    rfl
  rw [outputsSize, outputsSize, viaScripts, viaScripts, same, sameLength]

theorem estInputsSize_unsigned (inputs : List Input) :
    estInputsSize (inputs.map Input.unsigned) = estInputsSize inputs := by
  rw [estInputsSize, estInputsSize, List.length_map, List.map_map]
  rfl

theorem estInputsSize_congr {inputs others : List Input}
    (same : others.map Input.unsigned = inputs.map Input.unsigned) :
    estInputsSize others = estInputsSize inputs := by
  rw [← estInputsSize_unsigned, same, estInputsSize_unsigned]

section Converted

variable {host : Host} {inputs : List Input} {txins : List TxIn}

/-- An input without its witness always has the same size. -/
theorem baseSize_of_toTxin {input : Input} {txin : TxIn} (converted : input.toTxin host = .ok txin) :
    txin.baseSize = 41 := by
  obtain ⟨witness, -, rfl⟩ := Input.toTxin_eq_ok.mp converted
  rfl

theorem baseSize_of_converted
    (converted : List.Forall₂ (fun input txin => input.toTxin host = .ok txin) inputs txins) :
    (txins.map TxIn.baseSize).sum = 41 * inputs.length := by
  induction converted with
  | nil => rfl
  | cons head _ ih =>
      rw [List.map_cons, List.sum_cons, List.length_cons, baseSize_of_toTxin head, ih]
      omega

theorem estInputsSize_eq (inputs : List Input) : estInputsSize inputs =
    varIntLength inputs.length + 41 * inputs.length + (inputs.map Input.estWitnessVsize).sum := by
  have summed : (inputs.map fun input => 41 + input.estWitnessVsize).sum =
      41 * inputs.length + (inputs.map Input.estWitnessVsize).sum := by
    induction inputs with
    | nil => rfl
    | cons input inputs ih =>
        simp only [List.map_cons, List.sum_cons, List.length_cons, ih]
        omega
  rw [estInputsSize, summed, Nat.add_assoc]

/-- No input has a witness before its signatures suffice. -/
theorem witnessesSize_of_not_signed
    (converted : List.Forall₂ (fun input txin => input.toTxin host = .ok txin) inputs txins)
    (notSigned : ∀ input ∈ inputs, input.signatures.signed = false) : witnessesSize txins = 0 := by
  apply if_pos
  induction converted with
  | nil => exact nofun
  | cons head _ ih =>
      rw [List.forall_mem_cons] at notSigned ⊢
      refine ⟨?_, ih notSigned.2⟩
      obtain ⟨witness, made, rfl⟩ := Input.toTxin_eq_ok.mp head
      rw [ThresholdSig.toWitness, notSigned.1] at made
      rw [notSigned.1]
      exact (Except.ok.inj made).symm

end Converted

namespace Checkpoint

variable {host : Host} {checkpoint : Checkpoint} {config : CheckpointConfig} {commitment : Bytes}

/-- The inputs that a size estimate counts. -/
def countedInputs (checkpoint : Checkpoint) (config : CheckpointConfig) : List Input :=
  checkpoint.mainTx.input.take (asUsize config.maxInputs)

/-- The outputs that a size estimate counts, with the additional ones in front. -/
def countedOutputs (checkpoint : Checkpoint) (config : CheckpointConfig) (outs : List TxOut) :
    List TxOut :=
  (outs ++ checkpoint.mainTx.output).take (asUsize config.maxOutputs)

/-- The size of the witnesses that the counted inputs have already. -/
def countedWitnesses (host : Host) (checkpoint : Checkpoint) (config : CheckpointConfig) : Nat :=
  match checkpoint.mainTx.toBitcoinTx host with
  | .ok tx => (witnessesSize (tx.input.take (asUsize config.maxInputs)) + 3) / 4
  | .error _ => 0

/-- An estimate counts the inputs with the estimates of their witnesses, the
outputs, and any witnesses that are there already. -/
theorem estVsize_measured (measures : host.MeasuresWeight) {vsize : Nat}
    (estimated : checkpoint.estVsize host config commitment = .ok vsize) :
    ∃ outs, checkpoint.additionalOutputs host config commitment = .ok outs ∧
      vsize = 8 + estInputsSize (checkpoint.countedInputs config) +
        outputsSize (checkpoint.countedOutputs config outs) +
        checkpoint.countedWitnesses host config := by
  simp only [estVsize, BitcoinTx.witnessVsize, Outcome.bind_eq_ok, Outcome.checkedAdd_eq_ok]
    at estimated
  obtain ⟨tx, first, bitcoinTx, converted, outs, added, witnesses, summed, -, rfl⟩ := estimated
  obtain rfl := mainTx_of_firstTx first
  refine ⟨outs, added, ?_⟩
  have witnessesEq := Outcome.checkedSum_eq_ok summed
  rw [countedWitnesses, converted]
  obtain ⟨txins, eachConverted, rfl⟩ := BitcoinTx.toBitcoinTx_eq_ok.mp converted
  have kept := List.forall₂_take (asUsize config.maxInputs) eachConverted
  rw [measures, Transaction.vsize_eq, Transaction.baseSize, baseSize_of_converted kept,
    ← kept.length_eq, estInputsSize_eq, countedInputs, witnessesEq]
  simp only [countedOutputs]
  omega

/-- A transaction has no witnesses before its inputs are signed. -/
theorem countedWitnesses_of_not_signed
    (notSigned : ∀ input ∈ checkpoint.mainTx.input, input.signatures.signed = false) :
    checkpoint.countedWitnesses host config = 0 := by
  unfold countedWitnesses
  split
  · rename_i converted
    obtain ⟨txins, eachConverted, rfl⟩ := BitcoinTx.toBitcoinTx_eq_ok.mp converted
    have kept := List.forall₂_take (asUsize config.maxInputs) eachConverted
    rw [witnessesSize_of_not_signed kept]
    intro input member
    exact notSigned input (List.mem_of_mem_take member)
  · rfl

end Checkpoint

end CwBitcoin
