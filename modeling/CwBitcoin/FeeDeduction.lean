import CwBitcoin.Checkpoint

/-!
# Deducting a fee from several outputs

Outputs that cannot pay an equal share of the fee are removed round after round, and
each removal raises the share of the others.  The thresholds of the rounds never
decrease, so what is left in the end are the outputs that can pay the last one.
-/

namespace CwBitcoin

/-- What an output has to spare above its dust limit. -/
def TxOut.spare (host : Host) (out : TxOut) : Nat := out.value - host.dustValue out.scriptPubkey

namespace BitcoinTx

variable {host : Host} {fee : Nat}

/-- The outputs that can pay a share of the fee. -/
def payers (host : Host) (share : Nat) (output : List TxOut) : List TxOut :=
  output.filter fun out => share < out.spare host

theorem mem_payers {share : Nat} {output : List TxOut} {out : TxOut} :
    out ∈ payers host share output ↔ out ∈ output ∧ share < out.spare host := by
  simp [payers]

/-- A higher share is paid by outputs that can pay a lower one. -/
theorem payers_payers {low high : Nat} (le : low ≤ high) (output : List TxOut) :
    payers host high (payers host low output) = payers host high output := by
  unfold payers
  rw [List.filter_filter]
  apply List.filter_congr
  intro out _
  rw [← Bool.decide_and, decide_eq_decide]
  omega

/-- Either every output can pay the share, or fewer are left. -/
theorem payers_eq_or_length_lt (host : Host) (share : Nat) (output : List TxOut) :
    payers host share output = output ∨ (payers host share output).length < output.length := by
  by_cases all : ∀ out ∈ output, share < out.spare host
  · left
    exact List.filter_eq_self.mpr fun out member => decide_eq_true (all out member)
  · right
    push Not at all
    obtain ⟨out, member, cannot⟩ := all
    apply List.length_filter_lt_length_iff_exists.mpr
    exact ⟨out, member, by simpa using cannot⟩

/-- The least that any output has to spare. -/
def leastSpare (host : Host) (output : List TxOut) : Nat :=
  (output.map (TxOut.spare host)).foldl min (2 ^ 64 - 1)

theorem le_leastSpare_iff {bound : Nat} {output : List TxOut} :
    bound ≤ leastSpare host output ↔ bound < 2 ^ 64 ∧ ∀ out ∈ output, bound ≤ out.spare host := by
  have least : ((2 ^ 64 - 1) :: output.map (TxOut.spare host)).min? =
      some (leastSpare host output) := List.min?_cons'
  rw [List.le_min?_iff least, List.forall_mem_cons, List.forall_mem_map]
  have rangeIff : bound ≤ 2 ^ 64 - 1 ↔ bound < 2 ^ 64 := by omega
  rw [rangeIff]

/-- One round: the loop ends with the payers of this round, or goes on with them and
the share that they would have to pay. -/
theorem deductLoop_succ {rounds : Nat} {output : List TxOut} (nonempty : output ≠ []) :
    deductLoop host fee (rounds + 1) output =
      let kept := payers host (fee / output.length) output
      if kept = [] then .ok (kept, fee / output.length)
      else if fee / kept.length ≤ leastSpare host output then .ok (kept, fee / kept.length)
      else deductLoop host fee rounds kept := by
  have lengthNe : output.length ≠ 0 := by simpa using nonempty
  have divided : (Outcome.checkedDiv fee output.length : ContractResult Nat) =
      .ok (fee / output.length) := Outcome.checkedDiv_eq_ok.mpr ⟨lengthNe, rfl⟩
  rw [deductLoop, divided, Outcome.ok_bind]
  simp only [List.length_eq_zero_iff]
  rfl

/-- With at least one round for each output, the loop ends.  What is left are the
outputs that can pay the last share, and that is the fee divided among them. -/
theorem deductLoop_eq_payers (host : Host) (inRange : fee < 2 ^ 64) {rounds : Nat}
    {output : List TxOut} (nonempty : output ≠ []) (enough : output.length ≤ rounds) :
    ∃ share, deductLoop host fee rounds output = .ok (payers host share output, share) ∧
      fee / output.length ≤ share ∧
      (payers host share output ≠ [] → share = fee / (payers host share output).length) := by
  induction rounds generalizing output with
  | zero => exact absurd (List.length_eq_zero_iff.mp (Nat.le_zero.mp enough)) nonempty
  | succ rounds ih =>
      rw [deductLoop_succ nonempty]
      set share := fee / output.length with shareEq
      set kept := payers host share output with keptEq
      dsimp only
      by_cases none : kept = []
      · exact ⟨share, by rw [if_pos none], le_rfl, fun some => absurd none some⟩
      · rw [if_neg none]
        have keptPos : 0 < kept.length := List.length_pos_iff.mpr none
        have keptLe : kept.length ≤ output.length := List.length_filter_le _ _
        have shareLe : share ≤ fee / kept.length := Nat.div_le_div_left keptLe keptPos
        have nextInRange : fee / kept.length < 2 ^ 64 :=
          lt_of_le_of_lt (Nat.div_le_self _ _) inRange
        by_cases stops : fee / kept.length ≤ leastSpare host output
        · -- An output that was removed cannot spare more than this round's share, so the
          -- share can only be the same for those that are left.
          have sameShare : fee / kept.length = share := by
            rcases payers_eq_or_length_lt host share output with all | fewer
            · rw [keptEq, all]
            · obtain ⟨out, member, cannot⟩ := List.length_filter_lt_length_iff_exists.mp fewer
              have spareLe : out.spare host ≤ share := by simpa using cannot
              have leSpare := (le_leastSpare_iff.mp stops).2 out member
              omega
          rw [if_pos stops, sameShare]
          exact ⟨share, rfl, le_rfl, fun _ => sameShare.symm⟩
        · rw [if_neg stops]
          have fewer : kept.length < output.length := by
            rcases payers_eq_or_length_lt host share output with all | fewer
            · refine absurd (le_leastSpare_iff.mpr ⟨nextInRange, ?_⟩) stops
              intro out member
              have paid := (mem_payers.mp (all.symm ▸ member : out ∈ payers host share output)).2
              rw [keptEq, all, ← shareEq]
              exact paid.le
            · exact fewer
          obtain ⟨last, looped, lastGe, lastEq⟩ := ih none (by omega)
          have payersEq : payers host last kept = payers host last output :=
            payers_payers (by omega) output
          rw [payersEq] at looped lastEq
          exact ⟨last, looped, by omega, lastEq⟩

/-- Taking the share from outputs that can pay it never underflows. -/
theorem mapM_deduct {share : Nat} {outputs : List TxOut}
    (pay : ∀ out ∈ outputs, share ≤ out.value) :
    outputs.mapM (fun out => do
      let value ← Outcome.checkedSub out.value share
      return { out with value }) =
      (.ok (outputs.map fun out => { out with value := out.value - share }) :
        ContractResult (List TxOut)) := by
  apply Outcome.mapM_eq_ok.mpr
  rw [List.forall₂_map_right_iff, List.forall₂_same]
  intro out member
  simp [pay out member]

/-- The fee is shared evenly among the outputs that can pay more than the share above
their dust limit, and the others are removed. -/
structure SharesFee (host : Host) (fee : Nat) (output survivors : List TxOut) (share : Nat) :
    Prop where
  sublist : survivors.Sublist output
  survivors_eq : survivors = output.filter fun out =>
    share < out.value - host.dustValue out.scriptPubkey
  share_eq : survivors ≠ [] → share = fee / survivors.length
  pays : ∀ out ∈ survivors, share ≤ out.value
  aboveDust : ∀ out ∈ survivors, host.dustValue out.scriptPubkey ≤ out.value - share

theorem sharesFee_payers {output : List TxOut} {share : Nat}
    (shareEq : payers host share output ≠ [] →
      share = fee / (payers host share output).length) :
    SharesFee host fee output (payers host share output) share where
  sublist := List.filter_sublist
  survivors_eq := rfl
  share_eq := shareEq
  pays out member := by
    have paid := (mem_payers.mp member).2
    unfold TxOut.spare at paid
    omega
  aboveDust out member := by
    have paid := (mem_payers.mp member).2
    unfold TxOut.spare at paid
    omega

/-- Deducting a fee from a transaction with outputs never fails.  It keeps the outputs
that can pay their share above the dust limit, in order, and takes the share from each
of them. -/
theorem deductFee_sharesFee (host : Host) {tx : BitcoinTx} {fee : Nat} (nonempty : tx.output ≠ [])
    (charged : 0 < fee) (inRange : fee < 2 ^ 64) :
    ∃ survivors share, SharesFee host fee tx.output survivors share ∧
      tx.deductFee host fee = .ok { tx with
        output := survivors.map fun out => { out with value := out.value - share } } := by
  obtain ⟨share, looped, -, shareEq⟩ :=
    deductLoop_eq_payers host inRange nonempty (Nat.le_succ tx.output.length)
  have shares := sharesFee_payers shareEq
  refine ⟨payers host share tx.output, share, shares, ?_⟩
  rw [deductFee, if_neg charged.ne', looped, Outcome.require, if_pos nonempty, Outcome.ok_bind,
    Outcome.ok_bind]
  dsimp only
  rw [mapM_deduct shares.pays]
  rfl

end BitcoinTx

namespace Sample

/-- Three outputs, of which the last cannot pay a third of 600 above the dust limit. -/
def unevenTx : BitcoinTx :=
  { BitcoinTx.default with output := [⟨1200, [0x51]⟩, ⟨900, [0x52]⟩, ⟨600, [0x53]⟩] }

end Sample

theorem BitcoinTx.deductFee_sharesFee_uneven :
    ∃ survivors share,
      BitcoinTx.SharesFee Sample.host 600 Sample.unevenTx.output survivors share ∧
      Sample.unevenTx.deductFee Sample.host 600 = .ok { Sample.unevenTx with
        output := survivors.map fun out => { out with value := out.value - share } } :=
  BitcoinTx.deductFee_sharesFee Sample.host (by decide) (by decide) (by decide)

example : Sample.unevenTx.deductFee Sample.host 600 =
    .ok { Sample.unevenTx with output := [⟨900, [0x51]⟩, ⟨600, [0x52]⟩] } := by decide +kernel

end CwBitcoin
