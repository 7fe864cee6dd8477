import CwBitcoin.ContractSteps
import CwBitcoin.Library.ExpiringSet
import Mathlib.Data.Prod.Lex
import Mathlib.Data.String.Basic

/-!
# The stored set of outpoints

An outpoint is stored under its text, once in a map of all outpoints and once in a queue
that is sorted by expiration.  Removing what has expired reads the queue from its front
and parses the texts again.  The set holds what the operations on it say, and the map and
the queue list the same outpoints.
-/

namespace CwBitcoin

/-- The text form that the Bitcoin library gives to outpoints. -/
structure OutPointText where
  toString : OutPoint → String
  /-- Parsing, with the message of its error. -/
  fromStr : String → Except String OutPoint

/-- What is parsed from the text of an outpoint is the outpoint. -/
def OutPointText.RoundTrips (text : OutPointText) : Prop :=
  ∀ outpoint, text.fromStr (text.toString outpoint) = .ok outpoint

/-- The two maps of the set. -/
structure OutpointStorage where
  outpoints : StorageMap String Unit
  expirationQueue : StorageMap (Nat ×ₗ String) Unit
  deriving DecidableEq

/-- The operations on the set. -/
abbrev OutpointOp := ExpiringOp OutPoint Nat

namespace OutpointSet

/-- Clear the set. -/
def reset (_storage : OutpointStorage) : OutpointStorage where
  outpoints := []
  expirationQueue := []

section Operations

variable (text : OutPointText) (storage : OutpointStorage)

def contains (outpoint : OutPoint) : Bool := storage.outpoints.has (text.toString outpoint)

def insert (outpoint : OutPoint) (expiration : Nat) : OutpointStorage :=
  let outpointKey := text.toString outpoint
  { outpoints := storage.outpoints.save outpointKey ()
    expirationQueue := storage.expirationQueue.save (toLex (expiration, outpointKey)) () }

def parseOutPoint (outpointStr : String) : ContractResult OutPoint :=
  match text.fromStr outpointStr with
  | .ok outpoint => .ok outpoint
  | .error message => Outcome.fail (.parseOutPoint message)

/-- The entries of the queue up to the first that expires after `now`. -/
def collectExpired (now : Nat) : List (Nat ×ₗ String) → ContractResult (List (Nat × OutPoint))
  | [] => .ok []
  | entry :: rest =>
      let (expiration, outpointStr) := ofLex entry
      if now < expiration then .ok []
      else do
        let outpoint ← parseOutPoint text outpointStr
        let expired ← collectExpired now rest
        return (expiration, outpoint) :: expired

def removeEntry (entry : Nat × OutPoint) : OutpointStorage :=
  let outpointKey := text.toString entry.2
  { outpoints := storage.outpoints.remove outpointKey
    expirationQueue := storage.expirationQueue.remove (toLex (entry.1, outpointKey)) }

def removeExpired (now : Nat) : ContractResult OutpointStorage := do
  let expired ← collectExpired text now storage.expirationQueue.keys
  return expired.foldl (removeEntry text) storage

/-- The set under its operations. -/
def machine : CallMachine OutpointStorage OutpointOp ContractError where
  call storage
    | .contains _ => .ok storage
    | .insert outpoint expiration => .ok (insert text storage outpoint expiration)
    | .removeExpired now => removeExpired text storage now

/-- Only outpoints that the set does not contain are inserted. -/
def InsertsAbsent : OutpointOp → Prop
  | .insert outpoint _ => contains text storage outpoint = false
  | _ => True

instance (op : OutpointOp) : Decidable (InsertsAbsent text storage op) := by
  unfold InsertsAbsent
  split <;> infer_instance

end Operations

section RemoveExpired

variable {text : OutPointText} {storage : OutpointStorage}

theorem toString_injective (roundTrips : text.RoundTrips) : Function.Injective text.toString := by
  intro first second same
  have parsed := roundTrips first
  rw [same, roundTrips second] at parsed
  exact (Except.ok.inj parsed).symm

/-- The text under which an entry is in the queue. -/
def queueKey (text : OutPointText) (entry : Nat × OutPoint) : Nat ×ₗ String :=
  toLex (entry.1, text.toString entry.2)

/-- In a sorted queue of written outpoints, the entries up to the first later one are all
entries that have expired. -/
theorem collectExpired_eq (roundTrips : text.RoundTrips) (now : Nat) {keys : List (Nat ×ₗ String)}
    (ascending : keys.Pairwise (· < ·))
    (written : ∀ entry ∈ keys, ∃ outpoint, text.toString outpoint = (ofLex entry).2) :
    ∃ expired, collectExpired text now keys = .ok expired ∧
      expired.map (queueKey text) = keys.filter fun entry => (ofLex entry).1 ≤ now := by
  induction keys with
  | nil => exact ⟨[], rfl, rfl⟩
  | cons first rest ih =>
      obtain ⟨firstLt, restAscending⟩ := List.pairwise_cons.mp ascending
      obtain ⟨⟨outpoint, isText⟩, restWritten⟩ := List.forall_mem_cons.mp written
      by_cases later : now < (ofLex first).1
      · -- Everything behind a later entry is later as well.
        have allLater : ∀ entry ∈ first :: rest, ¬ (ofLex entry).1 ≤ now := by
          intro entry member
          rcases List.mem_cons.mp member with rfl | behind
          · omega
          · have ordered := Prod.Lex.monotone_fst _ _ (firstLt entry behind).le
            omega
        refine ⟨[], by rw [collectExpired]; exact if_pos later, ?_⟩
        rw [List.filter_eq_nil_iff.mpr (by simpa using allLater)]
        rfl
      · obtain ⟨expired, collected, expiredEq⟩ := ih restAscending restWritten
        have parsed : parseOutPoint text (ofLex first).2 = .ok outpoint := by
          rw [parseOutPoint, ← isText, roundTrips outpoint]
        refine ⟨((ofLex first).1, outpoint) :: expired, ?_, ?_⟩
        · rw [collectExpired]
          simp only [if_neg later, parsed, collected, Outcome.bind_eq_ok, Outcome.pure_eq_ok]
          exact ⟨outpoint, rfl, expired, rfl, rfl⟩
        · rw [List.map_cons, expiredEq, List.filter_cons_of_pos (by simpa using later), queueKey, isText]
          rfl

theorem outpoints_removeEntries (expired : List (Nat × OutPoint)) (storage : OutpointStorage) :
    (expired.foldl (removeEntry text) storage).outpoints =
      (expired.map fun entry => text.toString entry.2).foldl StorageMap.remove
        storage.outpoints := by
  rw [List.foldl_map]
  exact (List.foldl_hom OutpointStorage.outpoints fun _ _ => rfl).symm

theorem expirationQueue_removeEntries (expired : List (Nat × OutPoint))
    (storage : OutpointStorage) :
    (expired.foldl (removeEntry text) storage).expirationQueue =
      (expired.map (queueKey text)).foldl StorageMap.remove storage.expirationQueue := by
  rw [List.foldl_map]
  exact (List.foldl_hom OutpointStorage.expirationQueue fun _ _ => rfl).symm

end RemoveExpired

section Follows

variable (text : OutPointText)

/-- The storage holds what the operations say, every outpoint under its text. -/
structure Follows (ops : List OutpointOp) (storage : OutpointStorage) : Prop where
  outpoints_nodup : storage.outpoints.keys.Nodup
  queue_ascending : storage.expirationQueue.Ascending
  outpoints_written : ∀ key ∈ storage.outpoints.keys, ∃ outpoint, text.toString outpoint = key
  queue_written : ∀ entry ∈ storage.expirationQueue.keys,
    ∃ outpoint, text.toString outpoint = (ofLex entry).2
  tracks : ExpiringOp.Tracks ops
    (fun outpoint => text.toString outpoint ∈ storage.outpoints.keys)
    (fun outpoint expiration => queueKey text (expiration, outpoint) ∈ storage.expirationQueue.keys)

variable {text} {ops : List OutpointOp} {storage : OutpointStorage}

theorem contains_iff {outpoint : OutPoint} :
    contains text storage outpoint = true ↔ text.toString outpoint ∈ storage.outpoints.keys :=
  StorageMap.has_iff_mem_keys

theorem contains_insert (roundTrips : text.RoundTrips) {outpoint other : OutPoint}
    {expiration : Nat} : contains text (insert text storage outpoint expiration) other = true ↔
      other = outpoint ∨ contains text storage other = true := by
  rw [contains_iff, contains_iff, insert, StorageMap.mem_keys_save,
    (toString_injective roundTrips).eq_iff]

theorem follows_reset (storage : OutpointStorage) : Follows text [] (reset storage) where
  outpoints_nodup := List.nodup_nil
  queue_ascending := List.Pairwise.nil
  outpoints_written := fun _ member => absurd member List.not_mem_nil
  queue_written := fun _ member => absurd member List.not_mem_nil
  tracks := ExpiringOp.Tracks.empty.congr (fun _ => by simp [reset, StorageMap.keys])
    (fun _ _ => by simp [reset, StorageMap.keys])

namespace Follows

variable (follows : Follows text ops storage)

include follows

theorem contains_step (outpoint : OutPoint) :
    Follows text (ops ++ [.contains outpoint]) storage :=
  { follows with tracks := follows.tracks.contains outpoint }

theorem insert_step (roundTrips : text.RoundTrips) {outpoint : OutPoint}
    (absent : contains text storage outpoint = false) (expiration : Nat) :
    Follows text (ops ++ [.insert outpoint expiration]) (insert text storage outpoint expiration) where
  outpoints_nodup := StorageMap.nodup_keys_save follows.outpoints_nodup
  queue_ascending := follows.queue_ascending.save _ _
  outpoints_written := by
    intro key member
    rcases StorageMap.mem_keys_save.mp member with rfl | before
    · exact ⟨outpoint, rfl⟩
    · exact follows.outpoints_written key before
  queue_written := by
    intro entry member
    rcases StorageMap.mem_keys_save.mp member with rfl | before
    · exact ⟨outpoint, rfl⟩
    · exact follows.queue_written entry before
  tracks := by
    have notMember : ¬ text.toString outpoint ∈ storage.outpoints.keys := by
      rw [← contains_iff, absent]
      exact Bool.false_ne_true
    refine (follows.tracks.insert notMember expiration).congr ?_ ?_
    · intro other
      rw [← contains_iff, ← contains_iff]
      exact contains_insert roundTrips
    · intro other time
      rw [insert, StorageMap.mem_keys_save]
      refine or_congr_left ?_
      simp only [queueKey, toLex_inj, Prod.mk.injEq, (toString_injective roundTrips).eq_iff]
      exact and_comm

/-- Removing what has expired succeeds, and removes just that from both maps. -/
theorem exists_removeExpired (roundTrips : text.RoundTrips) (now : Nat) :
    ∃ after, removeExpired text storage now = .ok after ∧
      after.outpoints.Sublist storage.outpoints ∧
      after.expirationQueue.Sublist storage.expirationQueue ∧
      (∀ outpoint, text.toString outpoint ∈ after.outpoints.keys ↔
        text.toString outpoint ∈ storage.outpoints.keys ∧
          ∀ time, queueKey text (time, outpoint) ∈ storage.expirationQueue.keys → now < time) ∧
      ∀ outpoint time, queueKey text (time, outpoint) ∈ after.expirationQueue.keys ↔
        queueKey text (time, outpoint) ∈ storage.expirationQueue.keys ∧ now < time := by
  obtain ⟨expired, collected, expiredEq⟩ :=
    collectExpired_eq roundTrips now follows.queue_ascending follows.queue_written
  have isExpired_iff (outpoint : OutPoint) (time : Nat) :
      queueKey text (time, outpoint) ∈ expired.map (queueKey text) ↔
        queueKey text (time, outpoint) ∈ storage.expirationQueue.keys ∧ time ≤ now := by
    rw [expiredEq, List.mem_filter, decide_eq_true_iff]
    rfl
  have textExpired_iff (outpoint : OutPoint) :
      text.toString outpoint ∈ (expired.map fun entry => text.toString entry.2) ↔
        ∃ time, queueKey text (time, outpoint) ∈ expired.map (queueKey text) := by
    constructor
    · intro member
      obtain ⟨⟨time, other⟩, isEntry, same⟩ := List.mem_map.mp member
      obtain rfl := toString_injective roundTrips same
      exact ⟨time, List.mem_map_of_mem isEntry⟩
    · rintro ⟨time, member⟩
      obtain ⟨⟨otherTime, other⟩, isEntry, same⟩ := List.mem_map.mp member
      have sameText : text.toString other = text.toString outpoint := congrArg Prod.snd same
      rw [← sameText]
      exact List.mem_map_of_mem isEntry
  refine ⟨expired.foldl (removeEntry text) storage, ?_, ?_, ?_, ?_, ?_⟩
  · rw [removeExpired, collected]
    rfl
  · rw [outpoints_removeEntries]
    exact StorageMap.foldl_remove_sublist _ _
  · rw [expirationQueue_removeEntries]
    exact StorageMap.foldl_remove_sublist _ _
  · intro outpoint
    rw [outpoints_removeEntries, StorageMap.mem_keys_foldl_remove, textExpired_iff]
    simp only [isExpired_iff, not_exists, not_and, not_le]
  · intro outpoint time
    rw [expirationQueue_removeEntries, StorageMap.mem_keys_foldl_remove, isExpired_iff]
    constructor
    · rintro ⟨isQueued, kept⟩
      exact ⟨isQueued, not_le.mp fun due => kept ⟨isQueued, due⟩⟩
    · rintro ⟨isQueued, later⟩
      exact ⟨isQueued, fun due => not_le.mpr later due.2⟩

theorem removeExpired_step (roundTrips : text.RoundTrips) {now : Nat} {after : OutpointStorage}
    (removed : removeExpired text storage now = .ok after) :
    Follows text (ops ++ [.removeExpired now]) after := by
  obtain ⟨same, removedSame, fewer, shorter, member_iff, queued_iff⟩ :=
    follows.exists_removeExpired roundTrips now
  obtain rfl := Except.ok.inj (removed.symm.trans removedSame)
  exact {
    outpoints_nodup := follows.outpoints_nodup.sublist (fewer.map Prod.fst)
    queue_ascending := follows.queue_ascending.of_sublist shorter
    outpoints_written := fun key member =>
      follows.outpoints_written key ((fewer.map Prod.fst).subset member)
    queue_written := fun entry member =>
      follows.queue_written entry ((shorter.map Prod.fst).subset member)
    tracks := (follows.tracks.removeExpired now).congr member_iff queued_iff }

/-- The texts in the queue are those in the map, in another order. -/
theorem queue_perm :
    storage.outpoints.keys.Perm
      (storage.expirationQueue.keys.map fun entry => (ofLex entry).2) := by
  have queueNodup : (storage.expirationQueue.keys.map fun entry => (ofLex entry).2).Nodup := by
    refine List.Nodup.map_on ?_ follows.queue_ascending.nodup_keys
    intro first firstQueued second secondQueued same
    obtain ⟨outpoint, isText⟩ := follows.queue_written first firstQueued
    have firstEq : queueKey text ((ofLex first).1, outpoint) = first := by
      rw [queueKey, isText]
      rfl
    have secondEq : queueKey text ((ofLex second).1, outpoint) = second := by
      rw [queueKey, isText, same]
      rfl
    rw [← firstEq] at firstQueued
    rw [← secondEq] at secondQueued
    rw [← firstEq, ← secondEq, follows.tracks.unique firstQueued secondQueued]
  apply (List.perm_ext_iff_of_nodup follows.outpoints_nodup queueNodup).mpr
  intro key
  constructor
  · intro member
    obtain ⟨outpoint, rfl⟩ := follows.outpoints_written key member
    obtain ⟨expiration, isQueued⟩ := follows.tracks.member_iff.mp member
    exact List.mem_map.mpr ⟨_, isQueued, rfl⟩
  · intro member
    obtain ⟨entry, isQueued, rfl⟩ := List.mem_map.mp member
    obtain ⟨outpoint, isText⟩ := follows.queue_written entry isQueued
    have entryEq : queueKey text ((ofLex entry).1, outpoint) = entry := by
      rw [queueKey, isText]
      rfl
    rw [← isText]
    exact follows.tracks.member_iff.mpr ⟨_, entryEq ▸ isQueued⟩

end Follows

end Follows

/-- After all permitted operations the storage holds what they say. -/
theorem follows_run {text : OutPointText} (roundTrips : text.RoundTrips)
    (storage : OutpointStorage) {ops : List OutpointOp}
    (permitted : (machine text).Permitted (InsertsAbsent text) (reset storage) ops) :
    Follows text ops ((machine text).run (reset storage) ops) := by
  induction ops using List.reverseRecOn with
  | nil => exact follows_reset storage
  | append_singleton ops op ih =>
      obtain ⟨permittedOps, ⟨permittedOp, -⟩⟩ := CallMachine.permitted_append.mp permitted
      have follows := ih permittedOps
      rw [CallMachine.run_append, CallMachine.run_cons, CallMachine.run_nil]
      cases op with
      | contains outpoint => exact follows.contains_step outpoint
      | insert outpoint expiration => exact follows.insert_step roundTrips permittedOp expiration
      | removeExpired now =>
          obtain ⟨after, removed, -⟩ := follows.exists_removeExpired roundTrips now
          have nextEq : (machine text).next ((machine text).run (reset storage) ops)
              (.removeExpired now) = after := by
            simp only [CallMachine.next, machine] at removed ⊢
            rw [removed]
          rw [nextEq]
          exact follows.removeExpired_step roundTrips removed

/-- After all operations that insert no outpoint twice, an outpoint is contained exactly
when it was inserted with an expiration that no removal since then has reached.  The map
and the queue list the same outpoints, each once, and removing what has expired never
fails. -/
theorem run_contains_iff (text : OutPointText) (roundTrips : text.RoundTrips)
    (storage : OutpointStorage) (ops : List OutpointOp)
    (permitted : (machine text).Permitted (InsertsAbsent text) (reset storage) ops) :
    let after := (machine text).run (reset storage) ops
    (∀ outpoint, contains text after outpoint = true ↔
      ∃ earlier expiration later, ops = earlier ++ .insert outpoint expiration :: later ∧
        ∀ now, .removeExpired now ∈ later → now < expiration) ∧
    after.outpoints.keys.Nodup ∧
    after.outpoints.keys.Perm (after.expirationQueue.keys.map fun entry => (ofLex entry).2) ∧
    ∀ now, ∃ removed, removeExpired text after now = .ok removed := by
  intro after
  have follows : Follows text ops after := follows_run roundTrips storage permitted
  refine ⟨fun outpoint => ?_, follows.outpoints_nodup, follows.queue_perm, fun now => ?_⟩
  · rw [contains_iff, follows.tracks.member_iff_live]
    constructor
    · rintro ⟨expiration, earlier, later, split, kept⟩
      exact ⟨earlier, expiration, later, split, kept⟩
    · rintro ⟨earlier, expiration, later, split, kept⟩
      exact ⟨expiration, earlier, later, split, kept⟩
  · obtain ⟨removed, removedOk, -⟩ := follows.exists_removeExpired roundTrips now
    exact ⟨removed, removedOk⟩

end OutpointSet

section Contract

variable {host : Host} {env : Env} {store after : Store}

/-- A relayed deposit adds its outpoint, which is a new one. -/
theorem Store.outpoints_relayDeposit {btcTx : Transaction} {btcHeight btcVout sigsetIndex : Nat}
    {btcProof : PartialMerkleTree} {dest : Dest}
    (relayed : store.relayDeposit host env btcTx btcHeight btcProof btcVout sigsetIndex dest =
      .ok after) :
    ⟨btcTx.txid host, btcVout⟩ ∉ store.outpoints ∧
      after.outpoints = ⟨btcTx.txid host, btcVout⟩ :: store.outpoints := by
  obtain ⟨_, _, _, timeout, -, -, -, -, fresh, ⟨recoveryTxs, rfl⟩ | ⟨input, -, credited⟩⟩ :=
    Store.relayDeposit_eq_ok relayed
  · exact ⟨fresh, rfl⟩
  · obtain ⟨older, building, fee, coin, -, -, -, -, -, rfl⟩ := Store.creditDeposit_eq_ok credited
    exact ⟨fresh, rfl⟩

/-- A call adds a new outpoint, or leaves the outpoints alone. -/
theorem Contract.Effect.outpoints {call : Contract.Call}
    (effect : Contract.Effect host store call after) :
    (∃ outpoint, outpoint ∉ store.outpoints ∧ after.outpoints = outpoint :: store.outpoints) ∨
      after.outpoints = store.outpoints := by
  cases effect with
  | deposit _ _ _ btcTx _ _ btcVout _ _ relayed =>
      exact Or.inl ⟨_, Store.outpoints_relayDeposit relayed⟩
  | withdrawal _ _ _ _ _ added =>
      refine Or.inr (Contract.addWithdrawals_invariant
        (fun current => current.outpoints = store.outpoints) ?_ rfl added)
      intro current amount next same addedOne
      obtain ⟨older, building, fee, -, -, -, -, -, -, rfl⟩ := Store.addWithdrawal_eq_ok addedOne
      exact same
  | signature => exact Or.inr rfl
  | confirmation _ _ _ _ _ relayed =>
      obtain ⟨-, -, rfl⟩ := Store.relayCheckpoint_eq_ok relayed
      exact Or.inr rfl
  | configuration => exact Or.inr rfl
  | endBlock _ _ _ _ _ _ _ _ steppedOk same =>
      refine Or.inr (same.outpoints_eq.trans ?_)
      rcases Store.maybeStep_eq_ok steppedOk with ⟨rfl, -⟩ | ⟨⟨first⟩⟩ | ⟨rollover, -⟩
      · rfl
      · rw [first.after_eq]
      · exact rollover.outpoints_after
  | other _ _ same => exact Or.inr same.outpoints_eq

/-- The outpoints of a run of the contract are those of a stored set after insertions of
new ones. -/
theorem Contract.run_outpoints_stored (host : Host) (info : MessageInfo) (msg : InstantiateMsg)
    (calls : List Contract.Call) (text : OutPointText) (roundTrips : text.RoundTrips)
    (storage : OutpointStorage) :
    ∃ ops, (OutpointSet.machine text).Permitted (OutpointSet.InsertsAbsent text)
        (OutpointSet.reset storage) ops ∧
      ∀ outpoint, outpoint ∈ ((machine host).run (instantiate host info msg) calls).outpoints ↔
        OutpointSet.contains text
          ((OutpointSet.machine text).run (OutpointSet.reset storage) ops) outpoint = true := by
  refine CallMachine.run_invariant_all (fun store : Store => ∃ ops,
    (OutpointSet.machine text).Permitted (OutpointSet.InsertsAbsent text)
        (OutpointSet.reset storage) ops ∧
      ∀ outpoint, outpoint ∈ store.outpoints ↔ OutpointSet.contains text
        ((OutpointSet.machine text).run (OutpointSet.reset storage) ops) outpoint = true) ?_ ?_ calls
  · rintro store call after ⟨ops, permitted, stored⟩ called
    rcases (effect_of_call called).outpoints with ⟨outpoint, fresh, afterEq⟩ | same
    · have absent : OutpointSet.contains text
          ((OutpointSet.machine text).run (OutpointSet.reset storage) ops) outpoint = false := by
        rw [← Bool.not_eq_true, ← stored]
        exact fresh
      have permittedInsert : (OutpointSet.machine text).Permitted (OutpointSet.InsertsAbsent text)
          ((OutpointSet.machine text).run (OutpointSet.reset storage) ops)
          [.insert outpoint 0] := ⟨absent, trivial⟩
      refine ⟨ops ++ [.insert outpoint 0],
        CallMachine.permitted_append.mpr ⟨permitted, permittedInsert⟩, fun other => ?_⟩
      rw [CallMachine.run_append, afterEq, List.mem_cons, stored]
      exact (OutpointSet.contains_insert roundTrips).symm
    · rw [same]
      exact ⟨ops, permitted, stored⟩
  · exact ⟨[], trivial, fun outpoint => by simp [instantiate, OutpointSet.contains_iff,
      OutpointSet.reset, StorageMap.keys]⟩

end Contract

namespace Sample

/-! The text of an outpoint: the bytes of the transaction identifier in reverse as
hexadecimal digits, a colon, and the number of the output. -/

def hexByte (byte : UInt8) : List Char :=
  [(byte.toNat / 16).digitChar, (byte.toNat % 16).digitChar]

def hexValue (digit : Char) : Nat :=
  if digit.isDigit then digit.toNat - '0'.toNat else digit.toNat - 'a'.toNat + 10

/-- The bytes before a colon, and what follows it. -/
def readHex : List Char → Option (Bytes × List Char)
  | ':' :: rest => some ([], rest)
  | high :: low :: rest => do
      let (bytes, rest) ← readHex rest
      return (UInt8.ofNat (16 * hexValue high + hexValue low) :: bytes, rest)
  | _ => none

def outPointText : OutPointText where
  toString outpoint :=
    String.ofList (outpoint.txid.reverse.flatMap hexByte ++ ':' :: Nat.toDigits 10 outpoint.vout)
  fromStr written :=
    match readHex written.toList with
    | some (bytes, rest) => .ok ⟨bytes.reverse, Nat.ofDigitChars 10 rest 0⟩
    | none => .error "OutPoint not in <txid>:<vout> format"

theorem hexValue_digitChar : ∀ value < 16, hexValue value.digitChar = value := by
  decide

theorem digitChar_ne_colon : ∀ value < 16, value.digitChar ≠ ':' := by
  decide

theorem readHex_flatMap (bytes : Bytes) (rest : List Char) :
    readHex (bytes.flatMap hexByte ++ ':' :: rest) = some (bytes, rest) := by
  induction bytes with
  | nil => rfl
  | cons byte bytes ih =>
      have high : byte.toNat / 16 < 16 := by
        have := byte.toNat_lt
        omega
      have low : byte.toNat % 16 < 16 := Nat.mod_lt _ (by decide)
      have restored : 16 * (byte.toNat / 16) + byte.toNat % 16 = byte.toNat := Nat.div_add_mod _ _
      rw [List.flatMap_cons, hexByte, List.append_assoc, List.cons_append, List.cons_append,
        List.nil_append, readHex, ih]
      · simp [hexValue_digitChar _ high, hexValue_digitChar _ low, restored]
      · exact fun isColon => digitChar_ne_colon _ high isColon

theorem outPointText_roundTrips : outPointText.RoundTrips := by
  intro outpoint
  simp [outPointText, readHex_flatMap]

def outpoint (tag : UInt8) : OutPoint := ⟨List.replicate 32 tag, 1⟩

/-- An outpoint is inserted again after it has expired, before another one expires. -/
def outpointOps : List OutpointOp := [
  .insert (outpoint 1) 5,
  .insert (outpoint 2) 9,
  .removeExpired 4,
  .contains (outpoint 1),
  .removeExpired 5,
  .insert (outpoint 1) 7,
  .removeExpired 6]

end Sample

/-- The outpoint is contained after its second insertion. -/
theorem OutpointSet.run_contains_iff_sample :
    contains Sample.outPointText ((machine Sample.outPointText).run (reset ⟨[], []⟩)
      Sample.outpointOps) (Sample.outpoint 1) = true := by
  refine ((run_contains_iff Sample.outPointText Sample.outPointText_roundTrips ⟨[], []⟩
    Sample.outpointOps (by decide +kernel)).1 (Sample.outpoint 1)).mpr ?_
  refine ⟨Sample.outpointOps.take 5, 7, [.removeExpired 6], by decide +kernel, ?_⟩
  intro now member
  cases List.mem_singleton.mp member
  decide

end CwBitcoin
