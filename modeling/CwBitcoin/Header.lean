import CwBitcoin.Interface
import CwBitcoin.Library.CallMachine
import Mathlib.Data.List.Sort

/-!
# The header queue

A light client of the Bitcoin blockchain: a queue of headers with consecutive
heights, which new headers extend or reorganize and which is pruned to a
configured length.
-/

namespace CwBitcoin

/-- A block header with its height. -/
structure WrappedHeader where
  height : Nat
  header : BlockHeader
  deriving DecidableEq, Repr

/-- A header with the work of the chain up to it. -/
structure WorkHeader where
  chainWork : Uint256
  header : WrappedHeader
  deriving DecidableEq, Repr

namespace WorkHeader

def height (workHeader : WorkHeader) : Nat := workHeader.header.height
def time (workHeader : WorkHeader) : Nat := workHeader.header.header.time
def merkleRoot (workHeader : WorkHeader) : Bytes := workHeader.header.header.merkleRoot

def blockHash (host : Host) (workHeader : WorkHeader) : Bytes :=
  host.blockHash workHeader.header.header

/-- The work of the header alone. -/
def work (host : Host) (workHeader : WorkHeader) : Uint256 := host.work workHeader.header.header

end WorkHeader

/-- The items of the header queue.  `configure` saves all of them before
anything reads them. -/
structure HeaderStore where
  headers : List WorkHeader
  currentWork : Uint256
  config : HeaderConfig
  deriving DecidableEq, Repr

namespace HeaderQueue

/-- The height of the last header. -/
def height (store : HeaderStore) : Nat :=
  match store.headers.getLast? with
  | some last => last.height
  | none => 0

def getInitialHeight (store : HeaderStore) : ContractResult Nat :=
  match store.headers.head? with
  | some first => .ok first.height
  | none => Outcome.fail (.header "Queue does not contain any headers")

def getByHeight (store : HeaderStore) (height : Nat) (initialHeight : Option Nat) :
    ContractResult (Option WorkHeader) := do
  let initialHeight ← match initialHeight with
    | some initialHeight => pure initialHeight
    | none => getInitialHeight store
  Outcome.require (initialHeight ≤ height) (.header
    "Passed index is greater than initial height. Referenced header does not exist on the Header Queue")
  return store.headers[height - initialHeight]?

/-- Clear the queue and start it with the trusted header. -/
def configure (host : Host) (config : HeaderConfig) : HeaderStore :=
  let header : WrappedHeader := ⟨config.trustedHeight, config.trustedHeader⟩
  let work := host.work config.trustedHeader
  { headers := [⟨work, header⟩], currentWork := work, config }

/-- Pop headers from the back, newest first, until the last one is below the
given height, and add up their work. -/
def popBackLoop (host : Host) (height : Nat) :
    List WorkHeader → Uint256 → ContractResult (List WorkHeader × Uint256)
  | [], work =>
      if height = 0 then Outcome.fail (.header "Removed all headers") else .ok ([], work)
  | last :: older, work =>
      if height ≤ last.height then popBackLoop host height older (work + last.work host)
      else .ok (last :: older, work)

def popBackTo (host : Host) (store : HeaderStore) (height : Nat) :
    ContractResult (HeaderStore × Uint256) := do
  let (newestFirst, work) ← popBackLoop host height store.headers.reverse 0
  return ({ store with headers := newestFirst.reverse }, work)

/-- The middle one of eleven timestamps. -/
def medianStamp (stamps : List Nat) : Option Nat := (stamps.insertionSort (· ≤ ·))[5]?

/-- The time of a header must lie after the median of the last eleven. -/
def validateTime (store : HeaderStore) (currentHeader : WrappedHeader) :
    ContractResult Unit := do
  let initialHeight ← getInitialHeight store
  let start ← Outcome.checkedSub (height store) 10
  let prevStamps ← (List.range 11).mapM fun offset => do
    let item ← getByHeight store (start + offset) (some initialHeight)
    match item with
    | some inner => pure inner.time
    | none => Outcome.fail (.header "Deque does not contain any elements")
  let median ← Outcome.getOr (Outcome.fail (.header "Median timestamp does not exist"))
    (medianStamp prevStamps)
  Outcome.require (median < currentHeader.header.time)
    (.header "Header contains an invalid timestamp")

/-- The target after a retargeting period. -/
def calculateNextTarget (host : Host) (store : HeaderStore) (header : WrappedHeader)
    (firstReorgHeight : Nat) : ContractResult Uint256 := do
  let config := store.config
  if config.retargeting = false then return host.u256FromCompactTarget header.header.bits
  Outcome.require (config.retargetInterval ≤ header.height) (.header
    "Invalid trusted header. Trusted header have height which is a multiple of the retarget interval")
  let prevRetarget ← Outcome.getOr (Outcome.fail (.header "No previous retargeting header exists"))
    ((← getByHeight store firstReorgHeight none).map WorkHeader.time)
  let elapsed ← Outcome.checkedSub header.header.time prevRetarget
  let longest ← Outcome.checkedMul 32 config.targetTimespan 4
  let timespan := min (max elapsed (config.targetTimespan / 4)) longest
  Outcome.assert (config.targetTimespan ≠ 0)
  let target := host.u256FromCompactTarget header.header.bits * BitVec.ofNat 256 timespan /
    BitVec.ofNat 256 config.targetTimespan
  let target := host.u256FromCompactTarget (host.compactTargetFromU256 target)
  let maxTarget := host.u256FromCompactTarget config.maxTarget
  return if target ≤ maxTarget then target else maxTarget

/-- Go back over headers of minimum difficulty.  The cache remembers, for a
height read before, the bits found above it. -/
def skipMinDifficulty (store : HeaderStore) (initialHeight : Nat) :
    (currentHeight bits : Nat) → (cache : Nat → Option Nat) →
      ContractResult (Nat × (Nat → Option Nat))
  | 0, bits, cache => .ok (bits, cache)
  | height + 1, bits, cache =>
      if (height + 1) % store.config.retargetInterval ≠ 0 ∧ bits = store.config.maxTarget then
        match cache height with
        | some cached => skipMinDifficulty store initialHeight height cached cache
        | none => do
            let index ← Outcome.checkedSub height initialHeight
            let found ← Outcome.getOr (Outcome.fail (.header "No previous header exists"))
              store.headers[index]?
            skipMinDifficulty store initialHeight height found.header.header.bits
              (Function.update cache height (some bits))
      else .ok (bits, cache)

/-- The target that the next header must have. -/
def getNextTarget (host : Host) (store : HeaderStore) (header previousHeader : WrappedHeader)
    (initialHeight : Nat) (cache : Nat → Option Nat) :
    ContractResult (Uint256 × (Nat → Option Nat)) := do
  let config := store.config
  let phase ← Outcome.checkedMod header.height config.retargetInterval
  if phase = 0 then
    let firstReorgHeight ← Outcome.checkedSub header.height config.retargetInterval
    let target ← calculateNextTarget host store previousHeader firstReorgHeight
    return (target, cache)
  if config.minDifficultyBlocks = false then
    return (host.u256FromCompactTarget previousHeader.header.bits, cache)
  let spacing ← Outcome.checkedMul 32 config.targetSpacing 2
  let latest ← Outcome.checkedAdd 32 previousHeader.header.time spacing
  if latest < header.header.time then
    return (host.u256FromCompactTarget config.maxTarget, cache)
  let (bits, cache) ← skipMinDifficulty store initialHeight previousHeader.height
    previousHeader.header.bits cache
  return (host.u256FromCompactTarget bits, cache)

/-- Verify one header against its predecessor and push it. -/
def verifyAndAddHeader (host : Host) (store : HeaderStore) (prevHeader header : WrappedHeader)
    (cache : Nat → Option Nat) : ContractResult (HeaderStore × (Nat → Option Nat)) := do
  let nextHeight ← Outcome.checkedAdd 32 prevHeader.height 1
  Outcome.require (header.height = nextHeight) (.header "Non-consecutive headers passed")
  Outcome.require (header.header.prevBlockhash = host.blockHash prevHeader.header)
    (.header "Passed header references incorrect previous block hash")
  if 11 ≤ store.headers.length then validateTime store header
  let initialHeight ← getInitialHeight store
  let (target, cache) ← getNextTarget host store header prevHeader initialHeight cache
  let _ ← host.validatePow header.header target
  let chainWork := store.currentWork + host.work header.header
  return ({ store with headers := store.headers ++ [⟨chainWork, header⟩], currentWork := chainWork },
    cache)

/-- Verify and push headers one after the other, adding up their work. -/
def verifyAndAddLoop (host : Host) : (store : HeaderStore) → (prevHeader : WrappedHeader) →
    (cache : Nat → Option Nat) → (work : Uint256) → List WrappedHeader →
      ContractResult (HeaderStore × Uint256)
  | store, _, _, work, [] => .ok (store, work)
  | store, prevHeader, cache, work, header :: rest => do
      let (store, cache) ← verifyAndAddHeader host store prevHeader header cache
      verifyAndAddLoop host store header cache (work + host.work header.header) rest

def verifyAndAddHeaders (host : Host) (store : HeaderStore) (headers : List WrappedHeader) :
    ContractResult (HeaderStore × Uint256) := do
  let first ← Outcome.getOr (Outcome.fail (.header "Passed header list is empty")) headers.head?
  Outcome.require (first.height ≠ 0) (.header "Headers must start after height 0")
  let prevHeader ← Outcome.getOr (Outcome.fail (.header "Headers not connect to chain"))
    (← getByHeight store (first.height - 1) none)
  verifyAndAddLoop host store prevHeader.header (fun _ => none) 0 headers

/-- Pop headers from the front until the queue has its maximum length, and
subtract their work. -/
def pruneLoop (host : Host) (maxLength : Nat) :
    List WorkHeader → Uint256 → List WorkHeader × Uint256
  | [], currentWork => ([], currentWork)
  | first :: rest, currentWork =>
      if maxLength < rest.length + 1 then pruneLoop host maxLength rest (currentWork - first.work host)
      else (first :: rest, currentWork)

/-- Remove the headers that new ones starting at the given height replace. -/
def removeReplaced (host : Host) (store : HeaderStore) (first : WrappedHeader) :
    ContractResult (HeaderStore × Uint256) := do
  if first.height ≤ height store then
    let firstReplaced ← Outcome.getOr (Outcome.fail (.header "Header not found"))
      (← getByHeight store first.height none)
    Outcome.require (firstReplaced.blockHash host ≠ host.blockHash first.header)
      (.header "Provided redundant header.")
    popBackTo host store first.height
  else return (store, 0)

/-- Verify and add headers, replacing the end of the queue if they start at or
below its height. -/
def addIntoIter (host : Host) (store : HeaderStore) (headers : List WrappedHeader) :
    ContractResult HeaderStore := do
  let first ← Outcome.getOr (Outcome.fail (.header "Passed header list empty")) headers.head?
  let (store, removedWork) ← removeReplaced host store first
  let (store, addedWork) ← verifyAndAddHeaders host store headers
  Outcome.require (removedWork < addedWork)
    (.header "New best chain must include more work than old best chain.")
  let (headers, currentWork) := pruneLoop host store.config.maxLength store.headers store.currentWork
  return { store with headers, currentWork }

def add (host : Host) (store : HeaderStore) (headers : List WrappedHeader) :
    ContractResult HeaderStore := do
  Outcome.require (headers.length ≤ MAX_HEADERS_RELAY_ONE_TIME)
    (.app "Exceeded maximum amount of relayed headers")
  Outcome.mapError (fun error => .app error.toString) (addIntoIter host store headers)

/-- The calls that change the header queue. -/
inductive Call where
  | configure (config : HeaderConfig)
  | add (headers : List WrappedHeader)
  deriving DecidableEq, Repr

/-- The header queue under its calls. -/
def machine (host : Host) : CallMachine HeaderStore Call ContractError where
  call store
    | .configure config => .ok (configure host config)
    | .add headers => add host store headers

end HeaderQueue

end CwBitcoin
