import CwBitcoin.HeaderSteps
import CwBitcoin.Library.History

/-!
# The header queue is a valid chain

Every header after the first is linked to its predecessor by height and hash
and meets its own target, and its time lies after the median of the eleven
headers before it.  Both are properties of a header and the headers before
it, so they survive reorganizations, which shorten the queue at its end, and
pruning, which shortens it at its front.
-/

namespace CwBitcoin

namespace HeaderQueue

variable {host : Host}

/-- A header follows the last of the older ones. -/
def Linked (host : Host) (older : List WorkHeader) (header : WorkHeader) : Prop :=
  ∀ previous, older.getLast? = some previous →
    header.height = previous.height + 1 ∧
    header.header.header.prevBlockhash = previous.blockHash host ∧
    host.hashValue (header.blockHash host) ≤
      host.u256FromCompactTarget header.header.header.bits

/-- The time of a header lies after the median of the last eleven before it. -/
def Timely (older : List WorkHeader) (header : WorkHeader) : Prop :=
  11 ≤ older.length →
    ∃ median, medianStamp ((older.drop (older.length - 11)).map WorkHeader.time) = some median ∧
      median < header.time

/-- The headers form a chain. -/
structure Chain (host : Host) (headers : List WorkHeader) : Prop where
  linked : EachAfter (Linked host) headers
  timely : EachAfter Timely headers

theorem Linked.hereditary (first : WorkHeader) (older : List WorkHeader) (header : WorkHeader)
    (linked : Linked host (first :: older) header) : Linked host older header := by
  intro previous last
  cases older with
  | nil => simp at last
  | cons second rest => exact linked previous (by rwa [List.getLast?_cons_cons])

theorem Timely.hereditary (first : WorkHeader) (older : List WorkHeader) (header : WorkHeader)
    (timely : Timely (first :: older) header) : Timely older header := by
  intro enough
  have dropped : (first :: older).drop ((first :: older).length - 11) =
      older.drop (older.length - 11) := by
    rw [List.length_cons, Nat.succ_sub enough, List.drop_succ_cons]
  rw [← dropped]
  exact timely (by rw [List.length_cons]; omega)

namespace Chain

variable {headers : List WorkHeader}

theorem of_prefix {newer : List WorkHeader} (chain : Chain host (headers ++ newer)) :
    Chain host headers :=
  ⟨chain.linked.of_prefix, chain.timely.of_prefix⟩

theorem drop (chain : Chain host headers) (count : Nat) : Chain host (headers.drop count) :=
  ⟨chain.linked.drop Linked.hereditary count, chain.timely.drop Timely.hereditary count⟩

/-- The heights of a chain are consecutive. -/
theorem height_eq {first : WorkHeader} (chain : Chain host (first :: headers)) {index : Nat}
    {header : WorkHeader} (found : (first :: headers)[index]? = some header) :
    header.height = first.height + index := by
  induction index generalizing header with
  | zero =>
      obtain rfl : first = header := by simpa using found
      rfl
  | succ index ih =>
      obtain ⟨inRange, foundEq⟩ := List.getElem?_eq_some_iff.mp found
      have previousFound := List.getElem?_eq_getElem (Nat.lt_of_succ_lt inRange)
      have split : first :: headers = (first :: headers).take (index + 1) ++
          header :: (first :: headers).drop (index + 2) := by
        rw [← foundEq, List.getElem_cons_drop, List.take_append_drop]
      have last : ((first :: headers).take (index + 1)).getLast? =
          some (first :: headers)[index] := by
        rw [List.getLast?_take, if_neg (by omega), Nat.add_sub_cancel, previousFound,
          Option.some_or]
      have step := (chain.linked _ _ _ split _ last).1
      rw [step, ih previousFound]
      omega

/-- The last header of a chain sits at the end of its heights. -/
theorem height_last {store : HeaderStore} {first : WorkHeader} {rest : List WorkHeader}
    (chain : Chain host store.headers) (shape : store.headers = first :: rest) :
    height store + 1 = first.height + store.headers.length := by
  have lastFound : store.headers[store.headers.length - 1]? = store.headers.getLast? :=
    List.getLast?_eq_getElem?.symm
  cases last : store.headers.getLast? with
  | none => simp [shape] at last
  | some newest =>
      rw [last, shape] at lastFound
      rw [shape] at chain
      have heightEq := chain.height_eq lastFound
      rw [height_of_getLast? last, heightEq, shape, List.length_cons]
      omega

/-- A header found at or above the height of the queue is the last one. -/
theorem getByHeight_last {store : HeaderStore} {target : Nat} {found : WorkHeader}
    (chain : Chain host store.headers)
    (got : getByHeight store target none = .ok (some found)) (above : height store ≤ target) :
    store.headers.getLast? = some found := by
  obtain ⟨first, rest, shape, firstLe, foundEq⟩ := getByHeight_ok got
  have lastHeight := chain.height_last shape
  have inRange := (List.getElem?_eq_some_iff.mp foundEq.symm).1
  have index : target - first.height = store.headers.length - 1 := by omega
  rw [List.getLast?_eq_getElem?, ← index, ← foundEq]

/-- The timestamps that validation reads are those of the last eleven headers. -/
theorem timely_of_validateTime {store : HeaderStore} {header : WrappedHeader}
    {chainWork : Uint256} (chain : Chain host store.headers)
    (validated : 11 ≤ store.headers.length → validateTime store header = .ok ()) :
    Timely store.headers ⟨chainWork, header⟩ := by
  intro enough
  have valid := validated enough
  obtain ⟨first, rest, shape⟩ := List.exists_cons_of_length_pos (by omega : 0 < store.headers.length)
  have lastHeight := chain.height_last shape
  simp only [validateTime, getInitialHeight, shape, List.head?_cons, Outcome.bind_eq_ok,
    Outcome.checkedSub_eq_ok, Outcome.getOr_fail_eq_ok, Outcome.require_eq_ok] at valid
  obtain ⟨_, initial, start, ⟨_, startEq⟩, stamps, read, median, medianEq, later⟩ := valid
  obtain rfl : first.height = _ := Except.ok.inj initial
  refine ⟨median, ?_, later⟩
  rw [← medianEq]
  congr 1
  have reads := Outcome.mapM_eq_ok.mp read
  have stampsLength : stamps.length = 11 := by rw [← reads.length_eq, List.length_range]
  have droppedLength : (store.headers.drop (store.headers.length - 11)).length = 11 := by
    rw [List.length_drop]
    omega
  refine List.ext_getElem (by rw [List.length_map, droppedLength, stampsLength]) ?_
  intro offset inDropped inStamps
  have readOne := reads.get (by rw [List.length_range]; omega) inStamps
  simp only [List.get_eq_getElem, List.getElem_range, Outcome.bind_eq_ok] at readOne
  obtain ⟨item, got, itemTime⟩ := readOne
  simp only [getByHeight, Outcome.bind_eq_ok, Outcome.pure_eq_ok, Outcome.require_eq_ok] at got
  obtain ⟨_, rfl, _, _, rfl⟩ := got
  have index : start + offset - first.height = store.headers.length - 11 + offset := by omega
  have inRange : store.headers.length - 11 + offset < store.headers.length := by omega
  rw [index, List.getElem?_eq_getElem inRange] at itemTime
  simp only [List.getElem_map, List.getElem_drop]
  exact Outcome.pure_eq_ok.mp itemTime

/-- Verifying a header on top of a chain extends the chain. -/
theorem verifyAndAddHeader {store after : HeaderStore} {prevHeader header : WrappedHeader}
    {cache cache' : Nat → Option Nat} (chain : Chain host store.headers)
    (isLast : ∃ last, store.headers.getLast? = some last ∧ last.header = prevHeader)
    (added : verifyAndAddHeader host store prevHeader header cache = .ok (after, cache')) :
    Chain host after.headers ∧ ∃ last, after.headers.getLast? = some last ∧ last.header = header := by
  obtain ⟨heightEq, hashEq, validated, meets, rfl⟩ := verifyAndAddHeader_ok added
  obtain ⟨last, lastEq, rfl⟩ := isLast
  have linked : Linked host store.headers ⟨store.currentWork + host.work header.header, header⟩ := by
    intro previous previousEq
    obtain rfl : last = previous := Option.some.inj (lastEq.symm.trans previousEq)
    exact ⟨heightEq, hashEq, meets⟩
  exact ⟨⟨EachAfter.concat_iff.mpr ⟨chain.linked, linked⟩,
    EachAfter.concat_iff.mpr ⟨chain.timely, chain.timely_of_validateTime validated⟩⟩,
    _, List.getLast?_concat, rfl⟩

/-- Verifying headers on top of a chain extends the chain. -/
theorem verifyAndAddLoop {store final : HeaderStore} {prevHeader : WrappedHeader}
    {cache : Nat → Option Nat} {work total : Uint256} {newer : List WrappedHeader}
    (chain : Chain host store.headers)
    (isLast : ∃ last, store.headers.getLast? = some last ∧ last.header = prevHeader)
    (looped : verifyAndAddLoop host store prevHeader cache work newer = .ok (final, total)) :
    Chain host final.headers := by
  obtain ⟨_, holds⟩ := verifyAndAddLoop_invariant
    (fun current previous _ _ => Chain host current.headers ∧
      ∃ last, current.headers.getLast? = some last ∧ last.header = previous) []
    (fun _ _ _ _ _ _ _ _ holds stepped => holds.1.verifyAndAddHeader holds.2 stepped)
    ⟨chain, isLast⟩ looped
  exact holds.1

theorem add {store after : HeaderStore} {newer : List WrappedHeader}
    (chain : Chain host store.headers) (added : add host store newer = .ok after) :
    Chain host after.headers ∧ after.config = store.config := by
  obtain ⟨first, rest, kept, verified, _, _, rfl, removal, ⟨prevHeader, got, nonzero, looped⟩, _,
    rfl⟩ := add_ok added
  obtain ⟨removed, split, _, keptEq, below, _⟩ := removeReplaced_ok removal
  have keptChain : Chain host kept.headers := by
    rw [split] at chain
    exact chain.of_prefix
  -- The header before the new ones is the last one that is kept.
  have isLast := keptChain.getByHeight_last got (by omega)
  obtain ⟨_, _, _, _, configEq⟩ := verifyAndAddLoop_headers looped
  refine ⟨(keptChain.verifyAndAddLoop ⟨prevHeader, isLast, rfl⟩ looped).drop _, ?_⟩
  rw [keptEq] at configEq
  exact configEq

end Chain

/-- The state of a header queue that is always a valid chain. -/
structure ValidQueue (host : Host) (store : HeaderStore) : Prop where
  nonempty : store.headers ≠ []
  chain : Chain host store.headers
  length_le : store.headers.length ≤ store.config.maxLength

theorem chain_configure (config : HeaderConfig) : Chain host (configure host config).headers where
  linked := EachAfter.singleton fun _ last => by simp at last
  timely := EachAfter.singleton fun enough => by simp at enough

theorem validQueue_configure {config : HeaderConfig} (positive : 1 ≤ config.maxLength) :
    ValidQueue host (configure host config) where
  nonempty := by simp [configure]
  chain := chain_configure config
  length_le := by simpa [configure] using positive

/-- Adding headers keeps the queue a valid chain. -/
theorem ValidQueue.add {store after : HeaderStore} {headers : List WrappedHeader}
    (valid : ValidQueue host store) (positive : 1 ≤ store.config.maxLength)
    (added : HeaderQueue.add host store headers = .ok after) :
    ValidQueue host after ∧ after.config = store.config := by
  obtain ⟨afterChain, configEq⟩ := valid.chain.add added
  obtain ⟨first, rest, kept, verified, _, _, rfl, _, ⟨_, _, _, looped⟩, _, rfl⟩ := add_ok added
  obtain ⟨newHeaders, headersEq, newEq, _, _⟩ := verifyAndAddLoop_headers looped
  have newLength : newHeaders.length = rest.length + 1 := by
    rw [← List.length_cons, ← newEq, List.length_map]
  have lengthPos : 0 < verified.headers.length := by
    rw [headersEq, List.length_append]
    omega
  refine ⟨⟨?_, afterChain, ?_⟩, configEq⟩
  · rw [← List.length_pos_iff, List.length_drop]
    have : verified.config.maxLength = store.config.maxLength := by rw [← configEq]
    omega
  · simp only [List.length_drop]
    omega

/-- A call that configures the queue gives it room for a header. -/
def Call.HasRoom : Call → Prop
  | .configure config => 1 ≤ config.maxLength
  | .add _ => True

instance : DecidablePred Call.HasRoom
  | .configure config => inferInstanceAs (Decidable (1 ≤ config.maxLength))
  | .add _ => inferInstanceAs (Decidable True)

theorem run_validQueue {config : HeaderConfig} (positive : 1 ≤ config.maxLength)
    {calls : List Call} (roomy : ∀ call ∈ calls, call.HasRoom) :
    ValidQueue host ((machine host).run (configure host config) calls) := by
  refine (CallMachine.run_invariant
    (fun store => ValidQueue host store ∧ 1 ≤ store.config.maxLength) ?_
    ⟨validQueue_configure positive, positive⟩ (CallMachine.permitted_of_forall roomy _)).1
  rintro store call after ⟨valid, room⟩ callRoom called
  cases call with
  | configure config =>
      obtain rfl := Except.ok.inj called
      exact ⟨validQueue_configure callRoom, callRoom⟩
  | add headers =>
      obtain ⟨afterValid, configEq⟩ := valid.add room called
      exact ⟨afterValid, by rw [configEq]; exact room⟩

/-- The headers form a chain in every state, also where the queue has room for
none. -/
theorem run_chain (host : Host) (config : HeaderConfig) (calls : List Call) :
    Chain host ((machine host).run (configure host config) calls).headers := by
  refine CallMachine.run_invariant_all (fun store : HeaderStore => Chain host store.headers) ?_
    (chain_configure config) calls
  intro store call after chain called
  cases call with
  | configure config =>
      obtain rfl := Except.ok.inj called
      exact chain_configure config
  | add headers => exact (chain.add called).1

/-- Between the ends of the queue, looking up a height gives the only header
with that height. -/
theorem ValidQueue.getByHeight_eq {store : HeaderStore} (valid : ValidQueue host store)
    {initial target : Nat} (isInitial : getInitialHeight store = .ok initial)
    (initialLe : initial ≤ target) (leHeight : target ≤ height store) :
    ∃ header, getByHeight store target none = .ok (some header) ∧ header ∈ store.headers ∧
      header.height = target ∧ ∀ other ∈ store.headers, other.height = target → other = header := by
  obtain ⟨first, rest, shape⟩ := List.exists_cons_of_ne_nil valid.nonempty
  have lastHeight := valid.chain.height_last shape
  obtain rfl : first.height = initial := by simpa [getInitialHeight, shape] using isInitial
  have inRange : target - first.height < store.headers.length := by omega
  have heights : ∀ {index : Nat} {header : WorkHeader}, store.headers[index]? = some header →
      header.height = first.height + index := by
    intro index header found
    have chain := valid.chain
    rw [shape] at chain found
    exact chain.height_eq found
  refine ⟨store.headers[target - first.height], ?_, List.getElem_mem _, ?_, ?_⟩
  · simp [getByHeight, isInitial, initialLe, List.getElem?_eq_getElem inRange,
      Outcome.require, bind, Except.bind, pure, Except.pure]
  · rw [heights (List.getElem?_eq_getElem inRange)]
    omega
  · intro other member sameHeight
    obtain ⟨index, found⟩ := List.getElem?_of_mem member
    have indexEq : index = target - first.height := by
      have otherHeight := heights found
      omega
    subst indexEq
    rw [List.getElem?_eq_getElem inRange] at found
    exact (Option.some.inj found).symm

/-- Header chain validity, after any sequence of calls that leave room for a
header. -/
theorem run_headers_valid (host : Host) {config : HeaderConfig} (positive : 1 ≤ config.maxLength)
    {calls : List Call} (roomy : ∀ call ∈ calls, call.HasRoom) :
    let store := (machine host).run (configure host config) calls
    store.headers ≠ [] ∧
      (∀ older previous header newer, store.headers = older ++ previous :: header :: newer →
        header.height = previous.height + 1 ∧
        header.header.header.prevBlockhash = previous.blockHash host ∧
        host.hashValue (header.blockHash host) ≤
          host.u256FromCompactTarget header.header.header.bits) ∧
      (∀ older header newer, store.headers = older ++ header :: newer → 11 ≤ older.length →
        ∃ median, medianStamp ((older.drop (older.length - 11)).map WorkHeader.time) =
          some median ∧ median < header.time) ∧
      store.headers.length ≤ store.config.maxLength ∧
      ∀ initial target, getInitialHeight store = .ok initial → initial ≤ target →
        target ≤ height store →
          ∃ header, getByHeight store target none = .ok (some header) ∧ header ∈ store.headers ∧
            header.height = target ∧
            ∀ other ∈ store.headers, other.height = target → other = header := by
  have valid : ValidQueue host ((machine host).run (configure host config) calls) :=
    run_validQueue positive roomy
  refine ⟨valid.nonempty, ?_, valid.chain.timely, valid.length_le,
    fun _ _ isInitial => valid.getByHeight_eq isInitial⟩
  intro older previous header newer split
  exact valid.chain.linked (older ++ [previous]) header newer (by simpa using split) previous
    List.getLast?_concat

end HeaderQueue

namespace Sample

/-- A configuration without retargeting, whose trusted header is at height 7. -/
def headerConfig (maxLength : Nat) : HeaderConfig where
  maxLength := maxLength
  maxTimeIncrease := 7200
  trustedHeight := 7
  retargetInterval := 2016
  targetSpacing := 600
  targetTimespan := 1209600
  maxTarget := 1000
  retargeting := false
  minDifficultyBlocks := false
  trustedHeader :=
    { version := 1, prevBlockhash := [], merkleRoot := [], time := 0, bits := 1000, nonce := 0 }

/-- A header that follows the one with nonce `previous`. -/
def header (height previous nonce : Nat) : WrappedHeader where
  height := height
  header :=
    { version := 1, prevBlockhash := Bytes.le 4 previous, merkleRoot := [], time := height,
      bits := 1000, nonce }

/-- Two headers, of which the second is replaced by a longer branch. -/
def reorgCalls : List HeaderQueue.Call :=
  [.add [header 8 0 1, header 9 1 2], .add [header 9 1 3, header 10 3 4]]

end Sample

theorem HeaderQueue.run_headers_valid_reorg :
    let store := (machine Sample.host).run (configure Sample.host (Sample.headerConfig 3))
      Sample.reorgCalls
    store.headers.map WorkHeader.height = [8, 9, 10] ∧ store.headers ≠ [] := by
  refine ⟨by decide +kernel, ?_⟩
  exact (run_headers_valid Sample.host (by decide) (by decide)).1

end CwBitcoin
