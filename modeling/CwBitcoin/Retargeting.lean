import CwBitcoin.HeaderChain

/-!
# The target after a retargeting period

The new target is the last one, scaled by the time that the period took.  The
code subtracts the times of the first and the last header of the period as
unsigned numbers, although the last one may be the earlier of the two.
-/

namespace CwBitcoin

namespace HeaderQueue

variable {host : Host}

/-- The time from the first to the last header of a period, which may be
negative, brought within a factor of four of the intended one. -/
def clampedTimespan (targetTimespan firstTime lastTime : Nat) : Nat :=
  (max ((targetTimespan / 4 : Nat) : Int)
    (min ((targetTimespan * 4 : Nat) : Int) ((lastTime : Int) - (firstTime : Int)))).toNat

/-- The target after a period with the given first and last headers, in a form
that compact bits can express. -/
def retargeted (host : Host) (config : HeaderConfig) (first last : WorkHeader) : Uint256 :=
  let timespan := clampedTimespan config.targetTimespan first.time last.time
  let exact := (host.u256FromCompactTarget last.header.header.bits).toNat * timespan /
    config.targetTimespan
  let rounded := host.u256FromCompactTarget (host.compactTargetFromU256 (BitVec.ofNat 256 exact))
  let maxTarget := host.u256FromCompactTarget config.maxTarget
  if rounded ≤ maxTarget then rounded else maxTarget

theorem clampedTimespan_of_le {targetTimespan firstTime lastTime : Nat}
    (inOrder : firstTime ≤ lastTime) :
    clampedTimespan targetTimespan firstTime lastTime =
      min (max (lastTime - firstTime) (targetTimespan / 4)) (targetTimespan * 4) := by
  unfold clampedTimespan
  omega

theorem clampedTimespan_le (targetTimespan firstTime lastTime : Nat) :
    clampedTimespan targetTimespan firstTime lastTime ≤ targetTimespan * 4 := by
  unfold clampedTimespan
  omega

/-- A header of a chain is found under its height. -/
theorem Chain.getByHeight_of_mem {store : HeaderStore} {header : WorkHeader}
    (chain : Chain host store.headers) (member : header ∈ store.headers) :
    getByHeight store header.height none = .ok (some header) := by
  obtain ⟨first, rest, shape⟩ := List.exists_cons_of_ne_nil (List.ne_nil_of_mem member)
  obtain ⟨index, found⟩ := List.getElem?_of_mem member
  have heightEq : header.height = first.height + index := by
    rw [shape] at chain found
    exact chain.height_eq found
  simp only [getByHeight, getInitialHeight, shape, List.head?_cons, Outcome.bind_eq_ok,
    Outcome.require_eq_ok, Outcome.pure_eq_ok]
  refine ⟨first.height, rfl, (), by omega, ?_⟩
  rw [← shape, heightEq, Nat.add_sub_cancel_left, found]

theorem toNat_mul_div {target timespan divisor : Nat} {word : Uint256}
    (isTarget : word.toNat = target) (fits : target * timespan < 2 ^ 256)
    (divisorLt : divisor < 2 ^ 256) (timespanLt : timespan < 2 ^ 256) :
    word * BitVec.ofNat 256 timespan / BitVec.ofNat 256 divisor =
      BitVec.ofNat 256 (target * timespan / divisor) := by
  apply BitVec.eq_of_toNat_eq
  rw [BitVec.toNat_udiv, BitVec.toNat_mul, BitVec.toNat_ofNat, BitVec.toNat_ofNat,
    BitVec.toNat_ofNat, isTarget, Nat.mod_eq_of_lt timespanLt, Nat.mod_eq_of_lt fits,
    Nat.mod_eq_of_lt divisorLt, Nat.mod_eq_of_lt]
  exact Nat.lt_of_le_of_lt (Nat.div_le_self _ _) fits

/-- The target is computed exactly when no unsigned number gets out of range:
the last time is not before the first one, and the timespan is positive and has
room to be multiplied; and when the previous header is past the first interval. -/
theorem calculateNextTarget_eq_ok_iff {store : HeaderStore} {first last : WorkHeader}
    (chain : Chain host store.headers) (retargeting : store.config.retargeting = true)
    (member : first ∈ store.headers)
    (fits : (host.u256FromCompactTarget last.header.header.bits).toNat *
      clampedTimespan store.config.targetTimespan first.time last.time < 2 ^ 256) :
    calculateNextTarget host store last.header first.height =
        .ok (retargeted host store.config first last) ↔
      first.time ≤ last.time ∧ store.config.targetTimespan * 4 < 2 ^ 32 ∧
        store.config.targetTimespan ≠ 0 ∧ store.config.retargetInterval ≤ last.height := by
  have notFixed : ¬ store.config.retargeting = false := by simp [retargeting]
  simp only [calculateNextTarget, if_neg notFixed, chain.getByHeight_of_mem member,
    Outcome.bind_eq_ok, Outcome.require_eq_ok, Outcome.checkedSub_eq_ok, Outcome.checkedMul_eq_ok,
    Outcome.assert_eq_ok, Outcome.pure_eq_ok, Outcome.getOr_fail_eq_ok]
  constructor
  · rintro ⟨-, enough, found, foundEq, firstTime, timeEq, elapsed, ⟨inOrder, rfl⟩, longest,
      ⟨room, rfl⟩, -, positive, -⟩
    rw [← Except.ok.inj foundEq] at timeEq
    obtain rfl : first.time = firstTime := Option.some.inj timeEq
    exact ⟨inOrder, room, positive, enough⟩
  · rintro ⟨inOrder, room, positive, enough⟩
    refine ⟨(), enough, _, rfl, first.time, rfl, _, ⟨inOrder, rfl⟩, _, ⟨room, rfl⟩, (), positive, ?_⟩
    have timespanEq : clampedTimespan store.config.targetTimespan first.time last.time =
        min (max (last.time - first.time) (store.config.targetTimespan / 4))
          (store.config.targetTimespan * 4) := clampedTimespan_of_le inOrder
    have timespanLe := clampedTimespan_le store.config.targetTimespan first.time last.time
    have exactEq : host.u256FromCompactTarget last.header.header.bits *
          BitVec.ofNat 256 (clampedTimespan store.config.targetTimespan first.time last.time) /
            BitVec.ofNat 256 store.config.targetTimespan =
        BitVec.ofNat 256 ((host.u256FromCompactTarget last.header.header.bits).toNat *
          clampedTimespan store.config.targetTimespan first.time last.time /
            store.config.targetTimespan) :=
      toNat_mul_div rfl fits (by omega) (by omega)
    unfold retargeted
    dsimp only
    rw [← exactEq, timespanEq]
    rfl

/-- The target of the first header of a period is the scaled one exactly when
the last header of the period before it is not earlier than the first one, the
intended timespan is in range, and there is a whole interval below the previous
header. -/
theorem run_target_retargeted_iff (host : Host) (config : HeaderConfig) (calls : List Call)
    {first last : WorkHeader} {header : WrappedHeader} (initial : Nat)
    (cache : Nat → Option Nat) :
    let store := (machine host).run (configure host config) calls
    store.config.retargeting = true → store.config.minDifficultyBlocks = false →
    store.headers.getLast? = some last → header.height = last.height + 1 →
    header.height % store.config.retargetInterval = 0 → first ∈ store.headers →
    first.height + store.config.retargetInterval = header.height →
    (host.u256FromCompactTarget last.header.header.bits).toNat *
      clampedTimespan store.config.targetTimespan first.time last.time < 2 ^ 256 →
      (getNextTarget host store header last.header initial cache =
          .ok (retargeted host store.config first last, cache) ↔
        first.time ≤ last.time ∧ store.config.targetTimespan * 4 < 2 ^ 32 ∧
          store.config.targetTimespan ≠ 0 ∧ store.config.retargetInterval < header.height) := by
  intro store retargeting _ isLast heightEq starts member isFirst fits
  have chain : Chain host store.headers := run_chain host config calls
  have positive : store.config.retargetInterval ≠ 0 := by
    intro zero
    rw [zero, Nat.mod_zero] at starts
    omega
  have calculated := calculateNextTarget_eq_ok_iff chain retargeting member fits
  have firstHeight : header.height - store.config.retargetInterval = first.height := by omega
  have intervalLe : store.config.retargetInterval ≤ header.height := by omega
  have below : store.config.retargetInterval ≤ last.height ↔
      store.config.retargetInterval < header.height := by omega
  rw [below] at calculated
  rw [← calculated]
  simp only [getNextTarget, Outcome.checkedMod, if_neg positive, Outcome.ok_bind, if_pos starts,
    Outcome.checkedSub, if_pos intervalLe, firstHeight, Outcome.bind_eq_ok, Outcome.pure_eq_ok,
    Prod.mk.injEq]
  constructor
  · rintro ⟨target, targetOk, rfl, -⟩
    exact targetOk
  · intro targetOk
    exact ⟨_, targetOk, rfl, trivial⟩

end HeaderQueue

namespace Sample

/-- A configuration whose periods are twelve headers long and start with the
trusted header. -/
def shortPeriodConfig : HeaderConfig where
  maxLength := 100
  maxTimeIncrease := 7200
  trustedHeight := 12
  retargetInterval := 12
  targetSpacing := 1
  targetTimespan := 11
  maxTarget := 1000
  retargeting := true
  minDifficultyBlocks := false
  trustedHeader :=
    { version := 1, prevBlockhash := [], merkleRoot := [], time := 1, bits := 1000, nonce := 0 }

/-- A header of the chain with the given time. -/
def timedHeader (nonce time : Nat) : WrappedHeader where
  height := 12 + nonce
  header :=
    { version := 1, prevBlockhash := Bytes.le 4 (nonce - 1), merkleRoot := [], time, bits := 1000,
      nonce }

/-- The rest of the first period, one second apart. -/
def firstPeriod : List WrappedHeader := (List.range 11).map fun nonce =>
  timedHeader (nonce + 1) (nonce + 2)

/-- A second period, which starts with a time far ahead of the ones after it. -/
def secondPeriod : List WrappedHeader := timedHeader 12 2000 :: (List.range 11).map fun nonce =>
  timedHeader (nonce + 13) (nonce + 13)

/-- The header queue after the given calls. -/
def retargetedQueue (calls : List HeaderQueue.Call) : HeaderStore :=
  (HeaderQueue.machine host).run (HeaderQueue.configure host shortPeriodConfig) calls

/-- The header of the queue at an index. -/
def queuedHeader (store : HeaderStore) (index : Nat) : WorkHeader :=
  store.headers.getD index ⟨0, timedHeader 0 0⟩

end Sample

namespace HeaderQueue

theorem run_target_retargeted_iff_in_order :
    getNextTarget Sample.host (Sample.retargetedQueue [.add Sample.firstPeriod])
        (Sample.timedHeader 12 2000)
        (Sample.queuedHeader (Sample.retargetedQueue [.add Sample.firstPeriod]) 11).header 12
        (fun _ => none) =
      .ok (retargeted Sample.host Sample.shortPeriodConfig
        (Sample.queuedHeader (Sample.retargetedQueue [.add Sample.firstPeriod]) 0)
        (Sample.queuedHeader (Sample.retargetedQueue [.add Sample.firstPeriod]) 11),
        fun _ => none) :=
  (run_target_retargeted_iff Sample.host Sample.shortPeriodConfig [.add Sample.firstPeriod] 12
    (fun _ => none) (by decide +kernel) (by decide +kernel) (by decide +kernel) (by decide +kernel)
    (by decide +kernel) (by decide +kernel) (by decide +kernel) (by decide +kernel)).mpr
    (by decide +kernel)

/-- When the first header of a period has a later time than the last one, no
header can follow the period. -/
theorem target_aborts_out_of_order :
    let store := Sample.retargetedQueue [.add Sample.firstPeriod, .add Sample.secondPeriod]
    let first := Sample.queuedHeader store 12
    let last := Sample.queuedHeader store 23
    (store.config.retargeting = true ∧ store.config.minDifficultyBlocks = false ∧
        store.headers.getLast? = some last ∧ first ∈ store.headers ∧
        (Sample.timedHeader 24 24).height % store.config.retargetInterval = 0 ∧
        first.height + store.config.retargetInterval = (Sample.timedHeader 24 24).height ∧
        last.height + 1 = (Sample.timedHeader 24 24).height ∧
        (Sample.host.u256FromCompactTarget last.header.header.bits).toNat *
          clampedTimespan store.config.targetTimespan first.time last.time < 2 ^ 256) ∧
      retargeted Sample.host store.config first last = 181 ∧
      getNextTarget Sample.host store (Sample.timedHeader 24 24) last.header 12 (fun _ => none) =
        Outcome.abort := by
  refine ⟨by decide +kernel, by decide +kernel, ?_⟩
  rfl

end HeaderQueue

end CwBitcoin
