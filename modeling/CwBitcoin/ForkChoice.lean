import CwBitcoin.HeaderWork

/-!
# Fork choice between two branches

Verifying headers reads the headers below them and the configuration, but
neither the chain works nor the stored total.  A branch that was popped
therefore leaves no trace in what the queue accepts, and of two branches the
one with more work ends up in the queue in whatever order they are submitted.
-/

namespace CwBitcoin

namespace HeaderQueue

variable {host : Host}

/-- Two queues hold the same headers, each with chain works of its own. -/
structure SameHeaders (store other : HeaderStore) : Prop where
  headers_eq : store.headers.map WorkHeader.header = other.headers.map WorkHeader.header
  config_eq : store.config = other.config

/-- A computation does not read the chain work of an optional header. -/
def HeaderOnly {γ : Type} (read : Option WorkHeader → γ) : Prop :=
  ∀ first second, first.map WorkHeader.header = second.map WorkHeader.header →
    read first = read second

theorem HeaderOnly.of_some {γ : Type} {read : Option WorkHeader → γ}
    (present : ∀ first second : WorkHeader, first.header = second.header →
      read (some first) = read (some second)) : HeaderOnly read := by
  rintro (_ | first) (_ | second) equal
  · rfl
  · cases equal
  · cases equal
  · exact present first second (Option.some.inj equal)

namespace SameHeaders

variable {store other : HeaderStore} (same : SameHeaders store other)

include same in
theorem length_eq : store.headers.length = other.headers.length := by
  have lengths := congrArg List.length same.headers_eq
  rwa [List.length_map, List.length_map] at lengths

include same in
theorem getElem?_eq (index : Nat) :
    store.headers[index]?.map WorkHeader.header = other.headers[index]?.map WorkHeader.header := by
  rw [← List.getElem?_map, same.headers_eq, List.getElem?_map]

include same in
theorem height_eq : height store = height other := by
  have last : store.headers.getLast?.map WorkHeader.header =
      other.headers.getLast?.map WorkHeader.header := by
    rw [← List.getLast?_map, same.headers_eq, List.getLast?_map]
  unfold height
  cases own : store.headers.getLast? with
  | none =>
      rw [own, Option.map_none] at last
      rw [Option.map_eq_none_iff.mp last.symm]
  | some ownLast =>
      rw [own, Option.map_some] at last
      obtain ⟨otherLast, isLast, equal⟩ := Option.map_eq_some_iff.mp last.symm
      rw [isLast]
      exact congrArg WrappedHeader.height equal.symm

include same in
theorem getInitialHeight_eq : getInitialHeight store = getInitialHeight other := by
  have first : store.headers.head?.map WorkHeader.header =
      other.headers.head?.map WorkHeader.header := by
    rw [← List.head?_map, same.headers_eq, List.head?_map]
  unfold getInitialHeight
  cases own : store.headers.head? with
  | none =>
      rw [own, Option.map_none] at first
      rw [Option.map_eq_none_iff.mp first.symm]
  | some ownFirst =>
      rw [own, Option.map_some] at first
      obtain ⟨otherFirst, isFirst, equal⟩ := Option.map_eq_some_iff.mp first.symm
      rw [isFirst]
      exact congrArg (fun header => Except.ok (WrappedHeader.height header)) equal.symm

include same in
/-- What is computed from the header at a height is the same. -/
theorem bind_getByHeight {γ : Type} {read : Option WorkHeader → ContractResult γ}
    (headerOnly : HeaderOnly read) (target : Nat) (initialHeight : Option Nat) :
    getByHeight store target initialHeight >>= read =
      getByHeight other target initialHeight >>= read := by
  have lookup (initial : Nat) : getByHeight store target (some initial) >>= read =
      getByHeight other target (some initial) >>= read := by
    simp only [getByHeight, Outcome.require, pure_bind]
    split
    · exact headerOnly _ _ (same.getElem?_eq _)
    · rfl
  cases initialHeight with
  | some initial => exact lookup initial
  | none =>
      unfold getByHeight
      rw [same.getInitialHeight_eq]
      cases getInitialHeight other with
      | error fault => rfl
      | ok initial => exact lookup initial

include same in
theorem validateTime_eq (header : WrappedHeader) :
    validateTime store header = validateTime other header := by
  unfold validateTime
  rw [same.getInitialHeight_eq, same.height_eq]
  congr 1
  funext initialHeight
  congr 1
  funext start
  congr 2
  funext offset
  apply same.bind_getByHeight
  apply HeaderOnly.of_some
  intro first second equal
  simp only [WorkHeader.time, equal]

include same in
theorem calculateNextTarget_eq (header : WrappedHeader) (firstReorgHeight : Nat) :
    calculateNextTarget host store header firstReorgHeight =
      calculateNextTarget host other header firstReorgHeight := by
  simp only [calculateNextTarget, same.config_eq]
  split
  · rfl
  · congr 1
    funext _
    apply same.bind_getByHeight
    apply HeaderOnly.of_some
    intro first second equal
    simp only [WorkHeader.time, Option.map_some, equal]

include same in
theorem skipMinDifficulty_eq (initialHeight currentHeight bits : Nat) (cache : Nat → Option Nat) :
    skipMinDifficulty store initialHeight currentHeight bits cache =
      skipMinDifficulty other initialHeight currentHeight bits cache := by
  induction currentHeight generalizing bits cache with
  | zero => rfl
  | succ height ih =>
      simp only [skipMinDifficulty, same.config_eq, ih]
      split
      · cases cache height with
        | some cached => rfl
        | none =>
            dsimp only
            congr 1
            funext index
            have found := same.getElem?_eq index
            cases ofStore : store.headers[index]? <;> cases ofOther : other.headers[index]?
            · rfl
            · simp [ofStore, ofOther] at found
            · simp [ofStore, ofOther] at found
            · rw [ofStore, ofOther] at found
              have headers := Option.some.inj found
              simp only [Outcome.getOr, Outcome.ok_bind, headers]
      · rfl

include same in
theorem getNextTarget_eq (header previousHeader : WrappedHeader) (initialHeight : Nat)
    (cache : Nat → Option Nat) :
    getNextTarget host store header previousHeader initialHeight cache =
      getNextTarget host other header previousHeader initialHeight cache := by
  simp only [getNextTarget, same.config_eq, same.calculateNextTarget_eq, same.skipMinDifficulty_eq]

include same in
/-- A header that one queue accepts is accepted by the other. -/
theorem verifyAndAddHeader {after : HeaderStore} {prevHeader header : WrappedHeader}
    {cache cache' : Nat → Option Nat}
    (added : verifyAndAddHeader host store prevHeader header cache = .ok (after, cache')) :
    ∃ otherAfter, HeaderQueue.verifyAndAddHeader host other prevHeader header cache =
      .ok (otherAfter, cache') ∧ SameHeaders after otherAfter := by
  let pushed (queue : HeaderStore) : HeaderStore := { queue with
    headers := queue.headers ++ [⟨queue.currentWork + host.work header.header, header⟩]
    currentWork := queue.currentWork + host.work header.header }
  have otherEq : HeaderQueue.verifyAndAddHeader host other prevHeader header cache =
      (fun result => (pushed other, result.2)) <$>
        HeaderQueue.verifyAndAddHeader host store prevHeader header cache := by
    simp only [HeaderQueue.verifyAndAddHeader, same.length_eq, same.validateTime_eq,
      same.getInitialHeight_eq, same.getNextTarget_eq, map_bind]
    congr 1
    funext _
    congr 1
    funext _
    congr 1
    funext _
    split
    · simp only [map_bind, map_pure, pushed]
    · simp only [map_bind, map_pure, pushed]
  obtain ⟨-, -, -, -, rfl⟩ := verifyAndAddHeader_ok added
  refine ⟨pushed other, ?_, ?_, same.config_eq⟩
  · rw [otherEq, added]
    rfl
  · simp only [pushed, List.map_append, same.headers_eq, List.map_singleton]

include same in
theorem verifyAndAddLoop {final : HeaderStore} {prevHeader : WrappedHeader}
    {cache : Nat → Option Nat} {work total : Uint256} {headers : List WrappedHeader}
    (looped : verifyAndAddLoop host store prevHeader cache work headers = .ok (final, total)) :
    ∃ otherFinal, HeaderQueue.verifyAndAddLoop host other prevHeader cache work headers =
      .ok (otherFinal, total) ∧ SameHeaders final otherFinal := by
  induction headers generalizing store other prevHeader cache work with
  | nil =>
      obtain ⟨rfl, rfl⟩ := Prod.mk.inj (Except.ok.inj looped)
      exact ⟨other, rfl, same⟩
  | cons header rest ih =>
      simp only [HeaderQueue.verifyAndAddLoop, Outcome.bind_eq_ok, Prod.exists] at looped ⊢
      obtain ⟨after, cache', added, restLooped⟩ := looped
      obtain ⟨otherAfter, otherAdded, sameAfter⟩ := same.verifyAndAddHeader added
      obtain ⟨otherFinal, otherLooped, sameFinal⟩ := ih sameAfter restLooped
      exact ⟨otherFinal, ⟨otherAfter, cache', otherAdded, otherLooped⟩, sameFinal⟩

include same in
/-- Headers that follow the one queue follow the other, with the same work. -/
theorem verifyAndAddHeaders {final : HeaderStore} {total : Uint256} {headers : List WrappedHeader}
    (verified : verifyAndAddHeaders host store headers = .ok (final, total)) :
    ∃ otherFinal, HeaderQueue.verifyAndAddHeaders host other headers =
      .ok (otherFinal, total) ∧ SameHeaders final otherFinal := by
  have previous (target : Nat) : (do
      let found ← getByHeight store target none
      Outcome.getOr (Outcome.fail (.header "Headers not connect to chain"))
        (found.map WorkHeader.header) : ContractResult WrappedHeader) = (do
      let found ← getByHeight other target none
      Outcome.getOr (Outcome.fail (.header "Headers not connect to chain"))
        (found.map WorkHeader.header)) := by
    apply same.bind_getByHeight
    intro first second equal
    simp only [equal]
  simp only [HeaderQueue.verifyAndAddHeaders, Outcome.bind_eq_ok, Outcome.getOr_fail_eq_ok,
    Outcome.require_eq_ok] at verified ⊢
  obtain ⟨first, isFirst, _, nonzero, _, got, prevHeader, rfl, looped⟩ := verified
  have known := previous (first.height - 1)
  rw [got] at known
  have otherKnown := Outcome.bind_eq_ok.mp known.symm
  obtain ⟨otherFound, otherGot, otherEq⟩ := otherKnown
  rw [Outcome.getOr_fail_eq_ok, Option.map_eq_some_iff] at otherEq
  obtain ⟨otherPrev, rfl, headerEq⟩ := otherEq
  obtain ⟨otherFinal, otherLooped, sameFinal⟩ := same.verifyAndAddLoop looped
  exact ⟨otherFinal, ⟨first, isFirst, (), nonzero, _, otherGot, otherPrev, rfl,
    headerEq ▸ otherLooped⟩, sameFinal⟩

end SameHeaders

/-- The total work of headers that are not in the queue yet. -/
def totalWork (host : Host) (headers : List WrappedHeader) : Uint256 :=
  (headers.map fun header => host.work header.header).sum

/-- The headers of the queue below a height. -/
def below (store : HeaderStore) (bound : Nat) : List WorkHeader :=
  store.headers.filter fun header => header.height < bound

/-- Putting the headers in place of those at and above their first height does
not make the queue longer than configured. -/
def Unpruned (store : HeaderStore) (headers : List WrappedHeader) : Prop :=
  ∀ first ∈ headers.head?,
    (below store first.height).length + headers.length ≤ store.config.maxLength

instance (store : HeaderStore) (headers : List WrappedHeader) :
    Decidable (Unpruned store headers) :=
  inferInstanceAs (Decidable (∀ first ∈ headers.head?, _))

theorem workSum_eq_totalWork (headers : List WorkHeader) :
    workSum host headers = totalWork host (headers.map WorkHeader.header) := by
  rw [workSum, totalWork, List.map_map]
  rfl

/-- Popping back stops at the newest header below the height. -/
theorem popBackLoop_append {bound : Nat} {removed rest : List WorkHeader} {last : WorkHeader}
    (above : ∀ header ∈ removed, bound ≤ header.height) (isLast : rest.head? = some last)
    (lastBelow : last.height < bound) (work : Uint256) :
    popBackLoop host bound (removed ++ rest) work = .ok (rest, work + workSum host removed) := by
  induction removed generalizing work with
  | nil =>
      cases rest with
      | nil => cases isLast
      | cons first older =>
          obtain rfl : first = last := Option.some.inj isLast
          rw [List.nil_append, popBackLoop, if_neg (by omega), workSum_nil, add_zero]
  | cons newest removed ih =>
      rw [List.forall_mem_cons] at above
      rw [List.cons_append, popBackLoop, if_pos above.1, ih above.2, workSum_cons, add_assoc]

namespace Chain

variable {base newer : List WorkHeader} {previous : WorkHeader}

/-- The heights of a chain rise by one from a header on. -/
theorem height_of_split (chain : Chain host (base ++ newer))
    (isLast : base.getLast? = some previous) :
    (∀ header ∈ base, header.height ≤ previous.height) ∧
      (∀ (index : Nat) (header : WorkHeader), newer[index]? = some header →
        header.height = previous.height + 1 + index) := by
  obtain ⟨first, rest, rfl⟩ := List.exists_cons_of_ne_nil (l := base) (by
    rintro rfl
    cases isLast)
  have heights (index : Nat) (header : WorkHeader)
      (found : (first :: rest ++ newer)[index]? = some header) :
      header.height = first.height + index := chain.height_eq found
  have lastAt : (first :: rest)[rest.length]? = some previous := by
    rw [← isLast, List.getLast?_eq_getElem?]
    rfl
  have lastHeight : previous.height = first.height + rest.length := by
    apply heights
    rw [List.getElem?_append_left (by simp), lastAt]
  constructor
  · intro header member
    obtain ⟨index, found⟩ := List.getElem?_of_mem member
    have inRange := (List.getElem?_eq_some_iff.mp found).1
    have heightEq := heights index header (by rw [List.getElem?_append_left inRange, found])
    rw [List.length_cons] at inRange
    omega
  · intro index header found
    have heightEq := heights (rest.length + 1 + index) header (by
      rw [List.getElem?_append_right (by simp)]
      simpa using found)
    omega

/-- Cutting a chain above a header leaves what is up to it. -/
theorem below_eq {store : HeaderStore} (chain : Chain host store.headers)
    (split : store.headers = base ++ newer) (isLast : base.getLast? = some previous) :
    below store (previous.height + 1) = base := by
  rw [split] at chain
  obtain ⟨baseHeights, newerHeights⟩ := chain.height_of_split isLast
  rw [below, split, List.filter_append]
  have all : base.filter (fun header => header.height < previous.height + 1) = base := by
    rw [List.filter_eq_self]
    intro header member
    have := baseHeights header member
    simp only [decide_eq_true_eq]
    omega
  have none : newer.filter (fun header => header.height < previous.height + 1) = [] := by
    rw [List.filter_eq_nil_iff]
    intro header member
    obtain ⟨index, found⟩ := List.getElem?_of_mem member
    have := newerHeights index header found
    simp only [decide_eq_true_eq]
    omega
  rw [all, none, List.append_nil]

end Chain

/-- Headers that `add` puts on top of the headers below them. -/
structure Branch (host : Host) (store : HeaderStore) (first : WrappedHeader)
    (rest : List WrappedHeader) (after : HeaderStore) where
  previous : WorkHeader
  isLast : (below store first.height).getLast? = some previous
  height_eq : first.height = previous.height + 1
  few : (first :: rest).length ≤ MAX_HEADERS_RELAY_ONE_TIME
  verified : HeaderStore
  verified_eq : verifyAndAddHeaders host { store with headers := below store first.height }
    (first :: rest) = .ok (verified, totalWork host (first :: rest))
  newer : List WorkHeader
  newer_eq : newer.map WorkHeader.header = first :: rest
  verified_headers : verified.headers = below store first.height ++ newer
  verified_config : verified.config = store.config
  after_headers : after.headers = below store first.height ++ newer
  config_eq : after.config = store.config

variable {store after : HeaderStore} {first : WrappedHeader} {rest : List WrappedHeader}

theorem Branch.exists_first (branch : Branch host store first rest after) :
    ∃ header, branch.newer.head? = some header ∧
      header.blockHash host = host.blockHash first.header := by
  have newerEq := branch.newer_eq
  obtain ⟨header, others, shape, headerEq, -⟩ := List.map_eq_cons_iff.mp newerEq
  exact ⟨header, by rw [shape]; rfl, by rw [WorkHeader.blockHash, headerEq]⟩

theorem Branch.work_newer (branch : Branch host store first rest after) :
    workSum host branch.newer = totalWork host (first :: rest) := by
  rw [workSum_eq_totalWork, branch.newer_eq]

/-- Accepted headers that prune nothing are a branch. -/
theorem branch_of_add (chain : Chain host store.headers)
    (added : add host store (first :: rest) = .ok after)
    (unpruned : Unpruned store (first :: rest)) :
    Nonempty (Branch host store first rest after) := by
  have few : (first :: rest).length ≤ MAX_HEADERS_RELAY_ONE_TIME := by
    simp only [add, Outcome.bind_eq_ok, Outcome.require_eq_ok] at added
    obtain ⟨_, few, -⟩ := added
    exact few
  obtain ⟨head, _, kept, verified, removedWork, addedWork, headersEq, removal,
    ⟨previous, got, nonzero, looped⟩, _, rfl⟩ := add_ok added
  obtain ⟨rfl, rfl⟩ := List.cons.inj headersEq
  obtain ⟨removed, split, _, keptEq, keptBelow, _⟩ := removeReplaced_ok removal
  have keptChain : Chain host kept.headers := Chain.of_prefix (split ▸ chain)
  have isLast := keptChain.getByHeight_last got (by omega)
  have previousBelow : previous.height < first.height := by
    rwa [← height_of_getLast? isLast]
  obtain ⟨newer, verifiedHeaders, newerEq, workEq, configEq⟩ := verifyAndAddLoop_headers looped
  -- The new headers fit on the last one that is kept, which fixes what is kept.
  have heightEq : first.height = previous.height + 1 := by
    simp only [verifyAndAddLoop, Outcome.bind_eq_ok, Prod.exists] at looped
    obtain ⟨next, cache, stepped, -⟩ := looped
    exact (verifyAndAddHeader_ok stepped).1
  have belowEq : below store first.height = kept.headers := by
    rw [heightEq]
    exact chain.below_eq split isLast
  have keptConfig : kept.config = store.config := by rw [keptEq]
  have fits := unpruned first rfl
  have newerLength := congrArg List.length newerEq
  rw [List.length_map] at newerLength
  have nothingPruned : verified.headers.length - verified.config.maxLength = 0 := by
    rw [belowEq] at fits
    rw [verifiedHeaders, List.length_append, newerLength, configEq, keptConfig]
    omega
  rw [← belowEq] at keptEq isLast verifiedHeaders
  refine ⟨{
    previous, isLast, few, verified, newer
    height_eq := heightEq
    verified_eq := ?_
    newer_eq := newerEq
    verified_headers := verifiedHeaders
    verified_config := configEq.trans keptConfig
    after_headers := by rw [nothingPruned, List.drop_zero, verifiedHeaders]
    config_eq := configEq.trans keptConfig }⟩
  rw [workSum_eq_totalWork, newerEq, zero_add] at workEq
  rw [← keptEq, ← workEq]
  simp only [verifyAndAddHeaders, List.head?_cons, Outcome.bind_eq_ok, Outcome.getOr_fail_eq_ok,
    Outcome.require_eq_ok]
  exact ⟨first, rfl, (), nonzero, some previous, got, previous, rfl, looped⟩

/-- The header right after a base is found under its height. -/
theorem Chain.getByHeight_next {base others : List WorkHeader} {previous next : WorkHeader}
    (chain : Chain host store.headers) (split : store.headers = base ++ next :: others)
    (isLast : base.getLast? = some previous) :
    previous.height + 1 ≤ height store ∧
      getByHeight store (previous.height + 1) none = .ok (some next) := by
  obtain ⟨oldest, older, rfl⟩ := List.exists_cons_of_ne_nil (l := base) (by
    rintro rfl
    cases isLast)
  have splitChain := chain
  rw [split] at splitChain
  have nextHeight := (splitChain.height_of_split isLast).2 0 next rfl
  have nextAt : store.headers[(oldest :: older).length]? = some next := by
    rw [split, List.getElem?_append_right le_rfl, Nat.sub_self]
    rfl
  have indexHeight : next.height = oldest.height + (oldest :: older).length := by
    rw [split] at nextAt
    exact splitChain.height_eq nextAt
  constructor
  · have lastHeight := chain.height_last split
    simp only [split, List.length_append, List.length_cons] at lastHeight indexHeight
    omega
  · have initial : getInitialHeight store = .ok oldest.height := by
      simp [getInitialHeight, split]
    have index : previous.height + 1 - oldest.height = (oldest :: older).length := by omega
    have inRange : oldest.height ≤ previous.height + 1 := by omega
    rw [getByHeight, initial]
    simp only [Outcome.require, Outcome.ok_bind, if_pos inRange, index, nextAt]
    rfl

/-- A branch is removed as a whole by headers that start at its height with
another hash. -/
theorem removeReplaced_branch {base newer : List WorkHeader} {previous replaced : WorkHeader}
    (chain : Chain host store.headers) (split : store.headers = base ++ newer)
    (isLast : base.getLast? = some previous) (isFirst : newer.head? = some replaced)
    (heightEq : first.height = previous.height + 1)
    (different : replaced.blockHash host ≠ host.blockHash first.header) :
    removeReplaced host store first = .ok ({ store with headers := base }, workSum host newer) := by
  obtain ⟨others, rfl⟩ : ∃ others, newer = replaced :: others := by
    cases newer with
    | nil => cases isFirst
    | cons newest others => exact ⟨others, by rw [Option.some.inj isFirst]⟩
  obtain ⟨reaches, found⟩ := chain.getByHeight_next split isLast
  rw [← heightEq] at reaches found
  have popped : popBackLoop host first.height store.headers.reverse 0 =
      .ok (base.reverse, workSum host (replaced :: others)) := by
    rw [split] at chain
    have above : ∀ header ∈ (replaced :: others).reverse, first.height ≤ header.height := by
      intro header member
      obtain ⟨index, foundAt⟩ := List.getElem?_of_mem (List.mem_reverse.mp member)
      have := (chain.height_of_split isLast).2 index header foundAt
      omega
    have lastIs : base.reverse.head? = some previous := by
      rw [List.head?_reverse, isLast]
    rw [split, List.reverse_append, popBackLoop_append above lastIs (by omega), workSum_reverse,
      zero_add]
  rw [removeReplaced, if_pos reaches, found]
  simp only [Outcome.ok_bind, Outcome.getOr, Outcome.require, if_pos different, popBackTo, popped,
    List.reverse_reverse]
  rfl

/-- A branch in place of another: it is accepted if it has more work. -/
theorem Branch.add_replacing {current : HeaderStore} {newer : List WorkHeader}
    {replaced : WorkHeader} (branch : Branch host store first rest after)
    (chain : Chain host current.headers) (config_eq : current.config = store.config)
    (split : current.headers = below store first.height ++ newer)
    (isFirst : newer.head? = some replaced)
    (different : replaced.blockHash host ≠ host.blockHash first.header)
    (unpruned : Unpruned store (first :: rest)) :
    (workSum host newer < totalWork host (first :: rest) → ∃ final,
      add host current (first :: rest) = .ok final ∧
        final.headers.map WorkHeader.header = after.headers.map WorkHeader.header) ∧
    (¬ workSum host newer < totalWork host (first :: rest) →
      ∀ final, add host current (first :: rest) ≠ .ok final) := by
  have removal := removeReplaced_branch chain split branch.isLast isFirst branch.height_eq different
  have same : SameHeaders { store with headers := below store first.height }
      { current with headers := below store first.height } := ⟨rfl, config_eq.symm⟩
  obtain ⟨verified, verifiedEq, sameVerified⟩ := same.verifyAndAddHeaders branch.verified_eq
  have addEq : add host current (first :: rest) =
      Outcome.mapError (fun error => .app error.toString) (do
        Outcome.require (workSum host newer < totalWork host (first :: rest))
          (.header "New best chain must include more work than old best chain.")
        let pruned := pruneLoop host verified.config.maxLength verified.headers verified.currentWork
        return { verified with headers := pruned.1, currentWork := pruned.2 }) := by
    rw [add, Outcome.require, if_pos branch.few, Outcome.ok_bind, addIntoIter, List.head?_cons,
      Outcome.getOr, Outcome.ok_bind, removal, Outcome.ok_bind]
    dsimp only
    rw [verifiedEq, Outcome.ok_bind]
  constructor
  · intro moreWork
    have verifiedHeaders : verified.headers.map WorkHeader.header =
        after.headers.map WorkHeader.header := by
      rw [← sameVerified.headers_eq, branch.verified_headers, branch.after_headers]
    have nothingPruned : verified.headers.length - verified.config.maxLength = 0 := by
      have fits := unpruned first rfl
      have lengths := congrArg List.length verifiedHeaders
      have newerLength := congrArg List.length branch.newer_eq
      rw [List.length_map, List.length_map, branch.after_headers, List.length_append] at lengths
      rw [List.length_map] at newerLength
      rw [← sameVerified.config_eq, branch.verified_config]
      omega
    refine ⟨{ verified with
      headers := verified.headers.drop (verified.headers.length - verified.config.maxLength)
      currentWork := verified.currentWork - workSum host
        (verified.headers.take (verified.headers.length - verified.config.maxLength)) }, ?_, ?_⟩
    · rw [addEq, Outcome.require, if_pos moreWork, pruneLoop_eq]
      rfl
    · rw [nothingPruned]
      exact verifiedHeaders
  · intro notMore final
    rw [addEq, Outcome.require, if_neg notMore]
    intro failed
    cases failed

/-- Of two branches that start at the same height with different headers and
prune nothing, the one with more work replaces the other and is not replaced by
it, so that the queue ends up with the same headers in both orders. -/
theorem run_fork_choice (host : Host) (config : HeaderConfig) (calls : List Call)
    {first second : WrappedHeader} {firstRest secondRest : List WrappedHeader}
    {afterFirst afterSecond : HeaderStore}
    (sameHeight : first.height = second.height)
    (different : host.blockHash first.header ≠ host.blockHash second.header) :
    let store := (machine host).run (configure host config) calls
    add host store (first :: firstRest) = .ok afterFirst →
    add host store (second :: secondRest) = .ok afterSecond →
    Unpruned store (first :: firstRest) → Unpruned store (second :: secondRest) →
    totalWork host (first :: firstRest) < totalWork host (second :: secondRest) →
      (∃ final, add host afterFirst (second :: secondRest) = .ok final ∧
        final.headers.map WorkHeader.header = afterSecond.headers.map WorkHeader.header) ∧
      (∀ final, add host afterSecond (first :: firstRest) ≠ .ok final) ∧
      afterSecond.headers.map WorkHeader.header =
        (below store second.height).map WorkHeader.header ++ second :: secondRest := by
  intro store addedFirst addedSecond unprunedFirst unprunedSecond lessWork
  have chain : Chain host store.headers := run_chain host config calls
  obtain ⟨firstBranch⟩ := branch_of_add chain addedFirst unprunedFirst
  obtain ⟨secondBranch⟩ := branch_of_add chain addedSecond unprunedSecond
  have firstChain : Chain host afterFirst.headers := (chain.add addedFirst).1
  have secondChain : Chain host afterSecond.headers := (chain.add addedSecond).1
  have sameBelow : below store first.height = below store second.height := by rw [sameHeight]
  have firstHeaders := firstBranch.after_headers
  rw [sameBelow] at firstHeaders
  have secondHeaders := secondBranch.after_headers
  rw [← sameBelow] at secondHeaders
  obtain ⟨firstReplaced, firstIs, firstHash⟩ := firstBranch.exists_first
  obtain ⟨secondReplaced, secondIs, secondHash⟩ := secondBranch.exists_first
  have replaces := (secondBranch.add_replacing firstChain firstBranch.config_eq firstHeaders firstIs
    (by rwa [firstHash]) unprunedSecond).1
  have kept := (firstBranch.add_replacing secondChain secondBranch.config_eq secondHeaders secondIs
    (by rw [secondHash]; exact different.symm) unprunedFirst).2
  rw [firstBranch.work_newer] at replaces
  rw [secondBranch.work_newer] at kept
  refine ⟨replaces lessWork, kept (BitVec.not_lt.mpr (BitVec.le_of_lt lessWork)), ?_⟩
  rw [secondBranch.after_headers, List.map_append, secondBranch.newer_eq]

theorem run_fork_choice_reorg :
    let store := (machine Sample.host).run (configure Sample.host (Sample.headerConfig 100))
      [.add [Sample.header 8 0 1]]
    let shorter := [Sample.header 8 0 2, Sample.header 9 2 3]
    let longer := [Sample.header 8 0 4, Sample.header 9 4 5, Sample.header 10 5 6]
    (∃ final, add Sample.host ((machine Sample.host).next store (.add shorter)) longer = .ok final ∧
        final.headers.map WorkHeader.header =
          ((machine Sample.host).next store (.add longer)).headers.map WorkHeader.header) ∧
      ∀ final, add Sample.host ((machine Sample.host).next store (.add longer)) shorter ≠
        .ok final := by
  intro store shorter longer
  have choice := run_fork_choice Sample.host (Sample.headerConfig 100) [.add [Sample.header 8 0 1]]
    (by decide : (Sample.header 8 0 2).height = (Sample.header 8 0 4).height) (by decide +kernel)
    (by decide +kernel : add Sample.host store shorter =
      .ok ((machine Sample.host).next store (.add shorter)))
    (by decide +kernel : add Sample.host store longer =
      .ok ((machine Sample.host).next store (.add longer)))
    (by decide +kernel) (by decide +kernel) (by decide +kernel)
  exact ⟨choice.1, choice.2.1⟩

end HeaderQueue

end CwBitcoin
