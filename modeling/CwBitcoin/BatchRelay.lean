import CwBitcoin.ForkChoice

/-!
# Relaying headers in one call or one by one

Under the rule for blocks of minimum difficulty, the target of a header may be
that of a header further back.  Within one call, headers that were read on the
way back are remembered, but with the bits of the header above them.  The
memory is only wrong about the header at which a walk ended, so it does no harm
unless a later walk of the same call gets there.
-/

namespace CwBitcoin

namespace HeaderQueue

variable {host : Host}

/-- Relay headers in one call each. -/
def addEach (host : Host) (store : HeaderStore) (headers : List WrappedHeader) :
    ContractResult HeaderStore :=
  headers.foldlM (fun store header => add host store [header]) store

/-- The targets that headers have to meet one after the other, where `carry`
is what the next header gets of the memory that one leaves behind. -/
def demandedTargets (host : Host) (carry : (Nat → Option Nat) → Nat → Option Nat) :
    HeaderStore → WrappedHeader → (Nat → Option Nat) → List WrappedHeader →
      ContractResult (List Uint256)
  | _, _, _, [] => .ok []
  | store, prevHeader, cache, header :: rest => do
      let initialHeight ← getInitialHeight store
      let (target, _) ← getNextTarget host store header prevHeader initialHeight cache
      let (store, cache) ← verifyAndAddHeader host store prevHeader header cache
      let targets ← demandedTargets host carry store header (carry cache) rest
      return target :: targets

/-- The headers continue the queue height by height. -/
def ExtendsTip (store : HeaderStore) (headers : List WrappedHeader) : Prop :=
  ∀ index header, headers[index]? = some header → header.height = height store + 1 + index

instance (store : HeaderStore) (headers : List WrappedHeader) :
    Decidable (ExtendsTip store headers) :=
  decidable_of_iff (∀ index (inRange : index < headers.length),
    headers[index].height = height store + 1 + index) <| by
      constructor
      · intro heights index header found
        obtain ⟨inRange, rfl⟩ := List.getElem?_eq_some_iff.mp found
        exact heights index inRange
      · intro heights index inRange
        exact heights index _ (List.getElem?_eq_getElem inRange)

/-- The target of a header is looked for further back than at its predecessor,
and all headers in between are of minimum difficulty and inside a period. -/
structure StepsBackTo (config : HeaderConfig) (chain : List WrappedHeader)
    (header source : WrappedHeader) : Prop where
  inside : header.height % config.retargetInterval ≠ 0
  prompt : ∀ previous ∈ chain, previous.height + 1 = header.height →
    header.header.time ≤ previous.header.time + config.targetSpacing * 2
  before : source.height + 1 < header.height
  skipped : ∀ other ∈ chain, source.height < other.height → other.height < header.height →
    other.height % config.retargetInterval ≠ 0 ∧ other.header.bits = config.maxTarget

instance (config : HeaderConfig) (chain : List WrappedHeader) (header source : WrappedHeader) :
    Decidable (StepsBackTo config chain header source) :=
  decidable_of_iff (header.height % config.retargetInterval ≠ 0 ∧
    (∀ previous ∈ chain, previous.height + 1 = header.height →
      header.header.time ≤ previous.header.time + config.targetSpacing * 2) ∧
    source.height + 1 < header.height ∧
    ∀ other ∈ chain, source.height < other.height → other.height < header.height →
      other.height % config.retargetInterval ≠ 0 ∧ other.header.bits = config.maxTarget)
    ⟨fun ⟨inside, prompt, before, skipped⟩ => ⟨inside, prompt, before, skipped⟩,
      fun ⟨inside, prompt, before, skipped⟩ => ⟨inside, prompt, before, skipped⟩⟩

/-- No two of the headers step back to the same header, unless that starts a
period or is itself of minimum difficulty. -/
def SourcesDiffer (config : HeaderConfig) (chain headers : List WrappedHeader) : Prop :=
  ∀ first ∈ headers, ∀ second ∈ headers, first.height < second.height → ∀ source ∈ chain,
    StepsBackTo config chain first source → StepsBackTo config chain second source →
      source.height % config.retargetInterval = 0 ∨ source.header.bits = config.maxTarget

instance (config : HeaderConfig) (chain headers : List WrappedHeader) :
    Decidable (SourcesDiffer config chain headers) :=
  inferInstanceAs (Decidable (∀ first ∈ headers, ∀ second ∈ headers, _))

section Walk

variable {store : HeaderStore} {initial height bits source result : Nat}
  {cache : Nat → Option Nat}

/-- The way back over headers of minimum difficulty, without a memory: from a
height and its bits to the height where it ends, and the bits there. -/
inductive Walk (store : HeaderStore) (initial : Nat) : (height bits source result : Nat) → Prop
  | stop {height bits : Nat}
      (ends : height % store.config.retargetInterval = 0 ∨ bits ≠ store.config.maxTarget) :
      Walk store initial height bits height bits
  | back {height source result : Nat} {found : WorkHeader}
      (inside : (height + 1) % store.config.retargetInterval ≠ 0) (initialLe : initial ≤ height)
      (read : store.headers[height - initial]? = some found)
      (rest : Walk store initial height found.header.header.bits source result) :
      Walk store initial (height + 1) store.config.maxTarget source result

theorem Walk.source_le (walk : Walk store initial height bits source result) : source ≤ height := by
  induction walk with
  | stop => exact le_rfl
  | back _ _ _ _ ih => exact Nat.le_succ_of_le ih

theorem Walk.result_eq (walk : Walk store initial height bits source result)
    (stays : source = height) : result = bits := by
  cases walk with
  | stop => rfl
  | back _ _ _ rest =>
      have := rest.source_le
      omega

/-- Without memory of lower headers, the code takes the walk. -/
theorem walk_of_skipMinDifficulty {cache' : Nat → Option Nat}
    (unread : ∀ lower, lower < height → cache lower = none)
    (skipped : skipMinDifficulty store initial height bits cache = .ok (result, cache')) :
    ∃ source, Walk store initial height bits source result := by
  induction height generalizing bits cache with
  | zero =>
      obtain ⟨rfl, -⟩ := Prod.mk.inj (Except.ok.inj skipped)
      exact ⟨0, .stop (Or.inl (Nat.zero_mod _))⟩
  | succ height ih =>
      unfold skipMinDifficulty at skipped
      split at skipped
      · rename_i continues
        obtain ⟨inside, rfl⟩ := continues
        rw [unread height (Nat.lt_succ_self height)] at skipped
        simp only [Outcome.bind_eq_ok, Outcome.checkedSub_eq_ok, Outcome.getOr_fail_eq_ok] at skipped
        obtain ⟨index, ⟨initialLe, rfl⟩, found, read, skipped⟩ := skipped
        obtain ⟨source, walk⟩ := ih (fun lower below => by
          rw [Function.update_of_ne (by omega)]
          exact unread lower (by omega)) skipped
        exact ⟨source, .back inside initialLe read walk⟩
      · rename_i ends
        obtain ⟨rfl, -⟩ := Prod.mk.inj (Except.ok.inj skipped)
        refine ⟨height + 1, .stop ?_⟩
        by_contra continues
        push Not at continues
        exact ends continues

/-- A way back ends at a height that starts a period or has other bits. -/
theorem skipMinDifficulty_of_stop
    (ends : height % store.config.retargetInterval = 0 ∨ bits ≠ store.config.maxTarget) :
    skipMinDifficulty store initial height bits cache = .ok (bits, cache) := by
  cases height with
  | zero => rfl
  | succ height =>
      unfold skipMinDifficulty
      rw [if_neg]
      rintro ⟨inside, isMax⟩
      exact ends.elim inside fun notMax => notMax isMax

/-- A header that is remembered is not read. -/
theorem skipMinDifficulty_of_known {value : Nat}
    (inside : (height + 1) % store.config.retargetInterval ≠ 0)
    (known : cache height = some value) :
    skipMinDifficulty store initial (height + 1) store.config.maxTarget cache =
      skipMinDifficulty store initial height value cache := by
  conv_lhs => unfold skipMinDifficulty
  rw [if_pos ⟨inside, rfl⟩, known]

/-- A header that is read is remembered with the bits above it. -/
theorem skipMinDifficulty_of_read {found : WorkHeader}
    (inside : (height + 1) % store.config.retargetInterval ≠ 0) (initialLe : initial ≤ height)
    (read : store.headers[height - initial]? = some found) (unknown : cache height = none) :
    skipMinDifficulty store initial (height + 1) store.config.maxTarget cache =
      skipMinDifficulty store initial height found.header.header.bits
        (Function.update cache height (some store.config.maxTarget)) := by
  have indexed : (Outcome.checkedSub height initial : ContractResult Nat) =
      .ok (height - initial) := Outcome.checkedSub_eq_ok.mpr ⟨initialLe, rfl⟩
  conv_lhs => unfold skipMinDifficulty
  rw [if_pos ⟨inside, rfl⟩, unknown]
  simp only [indexed, Outcome.ok_bind, read, Outcome.getOr]

/-- The later memory also has the headers on the way back from below a height, with the
maximum target. -/
def FillsWay (store : HeaderStore) (source height : Nat) (cache cache' : Nat → Option Nat) : Prop :=
  ∀ lower, cache' lower = if source ≤ lower ∧ lower < height ∧ cache lower = none then
    some store.config.maxTarget else cache lower

theorem fillsWay_refl : FillsWay store height height cache cache := by
  intro lower
  rw [if_neg (by omega)]

theorem FillsWay.of_known {cache' : Nat → Option Nat} {value : Nat}
    (fills : FillsWay store source height cache cache') (known : cache height = some value) :
    FillsWay store source (height + 1) cache cache' := by
  intro lower
  rw [fills lower]
  by_cases same : lower = height
  · rw [same, if_neg (by omega), if_neg (by simp [known])]
  · have sameRange : lower < height ↔ lower < height + 1 := by omega
    simp only [sameRange]

theorem FillsWay.of_read {cache' : Nat → Option Nat}
    (fills : FillsWay store source height
      (Function.update cache height (some store.config.maxTarget)) cache')
    (sourceLe : source ≤ height) (unknown : cache height = none) :
    FillsWay store source (height + 1) cache cache' := by
  intro lower
  rw [fills lower]
  by_cases same : lower = height
  · rw [same, Function.update_self, if_neg (by omega),
      if_pos ⟨sourceLe, Nat.lt_succ_self height, unknown⟩]
  · rw [Function.update_of_ne same]
    have sameRange : lower < height ↔ lower < height + 1 := by omega
    simp only [sameRange]

/-- The memory is right about all headers on the way back, except perhaps about the one
where it ends if that starts a period. -/
def RightOnWay (store : HeaderStore) (initial source height : Nat) (cache : Nat → Option Nat) :
    Prop :=
  ∀ lower value, source ≤ lower → lower < height → cache lower = some value →
    (∀ found, store.headers[lower - initial]? = some found →
      value = found.header.header.bits) ∨
        (lower = source ∧ source % store.config.retargetInterval = 0)

theorem RightOnWay.update (right : RightOnWay store initial source (height + 1) cache)
    (value : Option Nat) :
    RightOnWay store initial source height (Function.update cache height value) := by
  intro lower known lowerGe below isKnown
  rw [Function.update_of_ne (by omega)] at isKnown
  exact right lower known lowerGe (by omega) isKnown

theorem RightOnWay.below (right : RightOnWay store initial source (height + 1) cache) :
    RightOnWay store initial source height cache :=
  fun lower value lowerGe below => right lower value lowerGe (by omega)

/-- With a memory that is right on the way, the code ends where the walk does, or takes what
the memory has about the start of the period there, and remembers the way. -/
theorem Walk.skipMinDifficulty (walk : Walk store initial height bits source result)
    (right : RightOnWay store initial source height cache) :
    ∃ value cache', HeaderQueue.skipMinDifficulty store initial height bits cache =
        .ok (value, cache') ∧
      (value = result ∨ (source < height ∧ cache source = some value ∧
        source % store.config.retargetInterval = 0)) ∧
      FillsWay store source height cache cache' := by
  induction walk generalizing cache with
  | stop ends => exact ⟨_, cache, skipMinDifficulty_of_stop ends, Or.inl rfl, fillsWay_refl⟩
  | @back height source result found inside initialLe read rest ih =>
      have sourceLe := rest.source_le
      cases known : cache height with
      | none =>
          obtain ⟨value, cache', skipped, valueEq, fills⟩ := ih (right.update _)
          refine ⟨value, cache', ?_, ?_, fills.of_read sourceLe known⟩
          · rw [skipMinDifficulty_of_read inside initialLe read known, skipped]
          · apply valueEq.imp_right
            rintro ⟨below, isKnown, starts⟩
            rw [Function.update_of_ne (by omega)] at isKnown
            exact ⟨by omega, isKnown, starts⟩
      | some value =>
          rw [skipMinDifficulty_of_known inside known]
          rcases right height value sourceLe (Nat.lt_succ_self height) known with
            isRight | ⟨rfl, starts⟩
          · -- The memory is right, and the walk goes on from there.
            obtain rfl := isRight found read
            obtain ⟨last, cache', skipped, lastEq, fills⟩ := ih right.below
            refine ⟨last, cache', skipped, ?_, fills.of_known known⟩
            apply lastEq.imp_right
            rintro ⟨below, isKnown, starts⟩
            exact ⟨by omega, isKnown, starts⟩
          · -- The period starts here, whatever the memory says.
            exact ⟨value, cache, skipMinDifficulty_of_stop (Or.inl starts),
              Or.inr ⟨Nat.lt_succ_self _, known, starts⟩, fillsWay_refl.of_known known⟩

/-- All headers between the two ends of a walk are of minimum difficulty. -/
theorem Walk.skipped (walk : Walk store initial height bits source result) :
    (source < height → height % store.config.retargetInterval ≠ 0 ∧
      bits = store.config.maxTarget) ∧
    ∀ lower, source < lower → lower < height → lower % store.config.retargetInterval ≠ 0 ∧
      ∀ found, store.headers[lower - initial]? = some found →
        found.header.header.bits = store.config.maxTarget := by
  induction walk with
  | stop => exact ⟨fun below => absurd below (Nat.lt_irrefl _), fun lower above below => by omega⟩
  | @back height source result found inside initialLe read rest ih =>
      refine ⟨fun _ => ⟨inside, rfl⟩, ?_⟩
      intro lower above below
      rcases Nat.lt_succ_iff_lt_or_eq.mp below with earlier | rfl
      · exact ih.2 lower above earlier
      · obtain ⟨insideLower, isMax⟩ := ih.1 above
        refine ⟨insideLower, fun other otherRead => ?_⟩
        rwa [← Option.some.inj (read.symm.trans otherRead)]

/-- A walk that goes back ends at a header of the queue with the result. -/
theorem Walk.source_read (walk : Walk store initial height bits source result)
    (back : source < height) : initial ≤ source ∧
      ∃ found, store.headers[source - initial]? = some found ∧ found.header.header.bits = result := by
  induction walk with
  | stop => exact absurd back (Nat.lt_irrefl _)
  | @back height source result found inside initialLe read rest ih =>
      by_cases further : source < height
      · exact ih further
      · have isHere : source = height := le_antisymm rest.source_le (Nat.not_lt.mp further)
        rw [isHere]
        exact ⟨initialLe, found, read, (rest.result_eq isHere).symm⟩

end Walk

/-- The parts of the verification of a header. -/
theorem verifyAndAddHeader_eq_ok {store after : HeaderStore} {prevHeader header : WrappedHeader}
    {cache cache' : Nat → Option Nat} :
    verifyAndAddHeader host store prevHeader header cache = .ok (after, cache') ↔
      ∃ initialHeight target, prevHeader.height + 1 < 2 ^ 32 ∧
        header.height = prevHeader.height + 1 ∧
        header.header.prevBlockhash = host.blockHash prevHeader.header ∧
        (11 ≤ store.headers.length → validateTime store header = .ok ()) ∧
        getInitialHeight store = .ok initialHeight ∧
        getNextTarget host store header prevHeader initialHeight cache = .ok (target, cache') ∧
        (∃ hash, host.validatePow header.header target = .ok hash) ∧
        after = { store with
          headers := store.headers ++ [⟨store.currentWork + host.work header.header, header⟩]
          currentWork := store.currentWork + host.work header.header } := by
  by_cases enough : 11 ≤ store.headers.length
  · simp only [verifyAndAddHeader, if_pos enough, Outcome.bind_eq_ok, Outcome.checkedAdd_eq_ok,
      Outcome.require_eq_ok, Outcome.pure_eq_ok, Prod.exists, Prod.mk.injEq]
    constructor
    · rintro ⟨_, ⟨fits, rfl⟩, -, heightEq, -, hashEq, _, timely, initialHeight, initial, target, _,
        next, hash, valid, rfl, rfl⟩
      exact ⟨initialHeight, target, fits, heightEq, hashEq, fun _ => timely, initial, next,
        ⟨hash, valid⟩, rfl⟩
    · rintro ⟨initialHeight, target, fits, heightEq, hashEq, timely, initial, next, ⟨hash, valid⟩,
        rfl⟩
      exact ⟨_, ⟨fits, rfl⟩, (), heightEq, (), hashEq, (), timely enough, initialHeight, initial,
        target, _, next, hash, valid, rfl, rfl⟩
  · simp only [verifyAndAddHeader, if_neg enough, Outcome.bind_eq_ok, Outcome.checkedAdd_eq_ok,
      Outcome.require_eq_ok, Outcome.pure_eq_ok, Prod.exists, Prod.mk.injEq]
    constructor
    · rintro ⟨_, ⟨fits, rfl⟩, -, heightEq, -, hashEq, initialHeight, initial, target, _, next, hash,
        valid, rfl, rfl⟩
      exact ⟨initialHeight, target, fits, heightEq, hashEq, fun long => absurd long enough, initial,
        next, ⟨hash, valid⟩, rfl⟩
    · rintro ⟨initialHeight, target, fits, heightEq, hashEq, timely, initial, next, ⟨hash, valid⟩,
        rfl⟩
      exact ⟨_, ⟨fits, rfl⟩, (), heightEq, (), hashEq, initialHeight, initial, target, _, next, hash,
        valid, rfl, rfl⟩

/-- Either the target of a header does not depend on the memory, or it is that
of the bits where the way back ends. -/
theorem getNextTarget_cases {store : HeaderStore} {header previousHeader : WrappedHeader}
    {initial : Nat} {target : Uint256} {cache cache' : Nat → Option Nat}
    (next : getNextTarget host store header previousHeader initial cache = .ok (target, cache')) :
    (∀ other, getNextTarget host store header previousHeader initial other = .ok (target, other)) ∨
      (header.height % store.config.retargetInterval ≠ 0 ∧
        header.header.time ≤ previousHeader.header.time + store.config.targetSpacing * 2 ∧
        (∃ bits, target = host.u256FromCompactTarget bits ∧
          skipMinDifficulty store initial previousHeader.height previousHeader.header.bits cache =
            .ok (bits, cache')) ∧
        ∀ other bits other', skipMinDifficulty store initial previousHeader.height
            previousHeader.header.bits other = .ok (bits, other') →
          getNextTarget host store header previousHeader initial other =
            .ok (host.u256FromCompactTarget bits, other')) := by
  have phase : (Outcome.checkedMod header.height store.config.retargetInterval :
      ContractResult Nat) = .ok (header.height % store.config.retargetInterval) := by
    unfold Outcome.checkedMod
    split
    · rename_i zero
      simp [getNextTarget, Outcome.checkedMod, zero] at next
    · rfl
  simp only [getNextTarget, phase, Outcome.ok_bind] at next ⊢
  by_cases starts : header.height % store.config.retargetInterval = 0
  · left
    intro other
    simp only [if_pos starts, Outcome.bind_eq_ok, Outcome.pure_eq_ok, Prod.mk.injEq] at next ⊢
    obtain ⟨first, firstEq, retarget, calculated, rfl, -⟩ := next
    exact ⟨first, firstEq, retarget, calculated, rfl, trivial⟩
  simp only [if_neg starts] at next ⊢
  by_cases isFixed : store.config.minDifficultyBlocks = false
  · left
    intro other
    simp only [if_pos isFixed, Outcome.pure_eq_ok, Prod.mk.injEq] at next ⊢
    exact ⟨next.1, trivial⟩
  simp only [if_neg isFixed, Outcome.bind_eq_ok, Outcome.checkedMul_eq_ok,
    Outcome.checkedAdd_eq_ok] at next ⊢
  obtain ⟨_, ⟨fitsSpacing, rfl⟩, _, ⟨fitsLatest, rfl⟩, next⟩ := next
  by_cases late : previousHeader.header.time + store.config.targetSpacing * 2 < header.header.time
  · left
    intro other
    simp only [if_pos late, Outcome.pure_eq_ok, Prod.mk.injEq] at next
    refine ⟨_, ⟨fitsSpacing, rfl⟩, _, ⟨fitsLatest, rfl⟩, ?_⟩
    rw [if_pos late, next.1]
    rfl
  · right
    simp only [if_neg late, Outcome.bind_eq_ok, Outcome.pure_eq_ok, Prod.exists,
      Prod.mk.injEq] at next
    obtain ⟨bits, _, skipped, rfl, rfl⟩ := next
    refine ⟨starts, Nat.not_lt.mp late, ⟨bits, rfl, skipped⟩, ?_⟩
    intro other bits other' otherSkipped
    refine ⟨_, ⟨fitsSpacing, rfl⟩, _, ⟨fitsLatest, rfl⟩, ?_⟩
    rw [if_neg late, otherSkipped]
    rfl

section Memory

variable {store next : HeaderStore} {chain passed : List WrappedHeader} {initial : Nat}
  {header prevHeader : WrappedHeader} {cache : Nat → Option Nat}

/-- The headers of the queue are the first ones of a chain with consecutive
heights. -/
structure Along (chain : List WrappedHeader) (initial : Nat) (store : HeaderStore) : Prop where
  initial_eq : getInitialHeight store = .ok initial
  heights : ∀ index header, chain[index]? = some header → header.height = initial + index
  isPrefix : store.headers.map WorkHeader.header <+: chain

theorem Along.mem (along : Along chain initial store) {index : Nat} {found : WorkHeader}
    (read : store.headers[index]? = some found) :
    found.header ∈ chain ∧ found.header.height = initial + index := by
  have readHeader : (store.headers.map WorkHeader.header)[index]? = some found.header := by
    rw [List.getElem?_map, read]
    rfl
  have inChain : chain[index]? = some found.header := by
    obtain ⟨rest, rfl⟩ := along.isPrefix
    exact List.getElem?_append_left (List.getElem?_eq_some_iff.mp readHeader).1 ▸ readHeader
  exact ⟨List.mem_of_getElem? inChain, along.heights index _ inChain⟩

/-- Below the end of the queue, the chain is what the queue reads. -/
theorem Along.read (along : Along chain initial store) {other : WrappedHeader}
    (member : other ∈ chain) (before : other.height < initial + store.headers.length) :
    initial ≤ other.height ∧
      ∃ found, store.headers[other.height - initial]? = some found ∧ found.header = other := by
  obtain ⟨index, inChain⟩ := List.getElem?_of_mem member
  have heightEq := along.heights index other inChain
  have inRange : index < store.headers.length := by omega
  have sameIndex : other.height - initial = index := by omega
  refine ⟨by omega, store.headers[index], ?_, ?_⟩
  · rw [sameIndex]
    exact List.getElem?_eq_getElem inRange
  · have inQueue := (along.mem (List.getElem?_eq_getElem inRange))
    obtain ⟨rest, rfl⟩ := along.isPrefix
    rw [List.getElem?_append_left (by simpa using inRange), List.getElem?_map,
      List.getElem?_eq_getElem inRange] at inChain
    exact Option.some.inj inChain

/-- What the memory holds is the maximum target, and only wrong for headers to
which an earlier one stepped back. -/
def Remembers (host : Host) (config : HeaderConfig) (chain passed : List WrappedHeader)
    (cache : Nat → Option Nat) : Prop :=
  ∀ lower value, cache lower = some value → value = config.maxTarget ∧
    ∃ found ∈ chain, found.height = lower ∧ (found.header.bits = config.maxTarget ∨
      ∃ header ∈ passed, StepsBackTo config chain header found ∧
        host.u256FromCompactTarget header.header.bits =
          host.u256FromCompactTarget found.header.bits)

theorem Along.unique (along : Along chain initial store) {first second : WrappedHeader}
    (firstMember : first ∈ chain) (secondMember : second ∈ chain)
    (sameHeight : first.height = second.height) : first = second := by
  obtain ⟨index, firstAt⟩ := List.getElem?_of_mem firstMember
  obtain ⟨other, secondAt⟩ := List.getElem?_of_mem secondMember
  have firstHeight := along.heights index first firstAt
  have secondHeight := along.heights other second secondAt
  obtain rfl : index = other := by omega
  exact Option.some.inj (firstAt.symm.trans secondAt)

theorem Remembers.mono {config : HeaderConfig} (remembers : Remembers host config chain passed cache)
    (header : WrappedHeader) : Remembers host config chain (passed ++ [header]) cache := by
  intro lower value known
  obtain ⟨isMax, found, member, heightEq, reason⟩ := remembers lower value known
  refine ⟨isMax, found, member, heightEq, reason.imp_right ?_⟩
  rintro ⟨earlier, isPassed, steps, sameTarget⟩
  exact ⟨earlier, List.mem_append_left _ isPassed, steps, sameTarget⟩

/-- The next header after the queue. -/
structure Next (chain passed : List WrappedHeader) (initial : Nat) (store : HeaderStore)
    (prevHeader header : WrappedHeader) : Prop where
  previous_mem : prevHeader ∈ chain
  previous_height : prevHeader.height + 1 = initial + store.headers.length
  height_eq : header.height = prevHeader.height + 1
  passed_mem : ∀ earlier ∈ passed, earlier ∈ chain
  passed_le : ∀ earlier ∈ passed, earlier.height ≤ prevHeader.height

variable {bits source : Nat}

/-- A header whose walk goes back steps back to its end. -/
theorem Next.stepsBackTo (following : Next chain passed initial store prevHeader header)
    (along : Along chain initial store)
    (inside : header.height % store.config.retargetInterval ≠ 0)
    (prompt : header.header.time ≤ prevHeader.header.time + store.config.targetSpacing * 2)
    (walk : Walk store initial prevHeader.height prevHeader.header.bits source bits)
    (back : source < prevHeader.height) {found : WrappedHeader} (isSource : found.height = source) :
    StepsBackTo store.config chain header found where
  inside := inside
  prompt := by
    intro previous member isPrevious
    have heightEq := following.height_eq
    rwa [along.unique member following.previous_mem (by omega)]
  before := by
    have heightEq := following.height_eq
    omega
  skipped := by
    intro other member above below
    have heightEq := following.height_eq
    rcases Nat.lt_succ_iff_lt_or_eq.mp (heightEq ▸ below) with earlier | isPrevious
    · obtain ⟨insideOther, isMax⟩ := walk.skipped.2 other.height (by omega) earlier
      have lastHeight := following.previous_height
      obtain ⟨-, read, readEq, rfl⟩ := along.read member (by omega)
      exact ⟨insideOther, isMax read readEq⟩
    · rw [along.unique member following.previous_mem isPrevious]
      exact walk.skipped.1 back

/-- The memory is right about the headers on the way back, except perhaps about
one that starts a period. -/
theorem Remembers.right_or_starts (remembers : Remembers host store.config chain passed cache)
    (following : Next chain passed initial store prevHeader header)
    (along : Along chain initial store)
    (sources : ∀ earlier ∈ passed, ∀ found ∈ chain,
      StepsBackTo store.config chain earlier found → StepsBackTo store.config chain header found →
        found.height % store.config.retargetInterval = 0 ∨
          found.header.bits = store.config.maxTarget)
    (inside : header.height % store.config.retargetInterval ≠ 0)
    (prompt : header.header.time ≤ prevHeader.header.time + store.config.targetSpacing * 2)
    (walk : Walk store initial prevHeader.height prevHeader.header.bits source bits) :
    RightOnWay store initial source prevHeader.height cache := by
  intro lower value sourceLe below known
  obtain ⟨rfl, found, member, rfl, reason⟩ := remembers lower value known
  have lastHeight := following.previous_height
  obtain ⟨-, found, foundRead, rfl⟩ := along.read member (by omega)
  have right (isMax : found.header.header.bits = store.config.maxTarget) (read : WorkHeader)
      (isRead : store.headers[found.header.height - initial]? = some read) :
      store.config.maxTarget = read.header.header.bits := by
    rw [← Option.some.inj (foundRead.symm.trans isRead), isMax]
  rcases reason with isMax | ⟨earlier, isPassed, steps, -⟩
  · exact Or.inl (right isMax)
  · rcases Nat.lt_or_eq_of_le sourceLe with above | isSource
    · exact Or.inl (right ((walk.skipped.2 _ above below).2 found foundRead))
    · have headerSteps := following.stepsBackTo along inside prompt walk (by omega) isSource.symm
      rcases sources earlier isPassed found.header member steps headerSteps with starts | isMax
      · exact Or.inr ⟨isSource.symm, by rw [isSource]; exact starts⟩
      · exact Or.inl (right isMax)

/-- What the memory holds about the start of a period has the target of the
header there. -/
theorem Remembers.target_eq (remembers : Remembers host store.config chain passed cache)
    (following : Next chain passed initial store prevHeader header)
    (along : Along chain initial store)
    (walk : Walk store initial prevHeader.height prevHeader.header.bits source bits)
    (back : source < prevHeader.height) {value : Nat} (known : cache source = some value) :
    host.u256FromCompactTarget value = host.u256FromCompactTarget bits := by
  obtain ⟨rfl, found, member, rfl, reason⟩ := remembers source value known
  have lastHeight := following.previous_height
  obtain ⟨-, read, readEq, rfl⟩ := along.read member (by omega)
  obtain ⟨-, ended, endedRead, rfl⟩ := walk.source_read back
  obtain rfl := Option.some.inj (readEq.symm.trans endedRead)
  rcases reason with isMax | ⟨earlier, isPassed, steps, sameTarget⟩
  · rw [isMax]
  · -- The earlier header lies on the way back, so it is of minimum difficulty.
    have earlierMax : earlier.header.bits = store.config.maxTarget := by
      have before := steps.before
      rcases Nat.lt_or_eq_of_le (following.passed_le earlier isPassed) with older | isPrevious
      · obtain ⟨-, isMax⟩ := walk.skipped.2 earlier.height (by omega) older
        obtain ⟨-, earlierFound, earlierRead, rfl⟩ :=
          along.read (following.passed_mem earlier isPassed) (by omega)
        exact isMax earlierFound earlierRead
      · rw [along.unique (following.passed_mem earlier isPassed) following.previous_mem isPrevious]
        exact (walk.skipped.1 back).2
    rw [← sameTarget, earlierMax]

/-- A header that is accepted without a memory is accepted with one, at the same
target. -/
theorem Remembers.verifyAndAddHeader {cache₀ : Nat → Option Nat}
    (remembers : Remembers host store.config chain passed cache)
    (following : Next chain passed initial store prevHeader header)
    (along : Along chain initial store)
    (sources : ∀ earlier ∈ passed, ∀ found ∈ chain,
      StepsBackTo store.config chain earlier found → StepsBackTo store.config chain header found →
        found.height % store.config.retargetInterval = 0 ∨
          found.header.bits = store.config.maxTarget)
    (single : verifyAndAddHeader host store prevHeader header (fun _ => none) =
      .ok (next, cache₀)) :
    ∃ target cache', getNextTarget host store header prevHeader initial (fun _ => none) =
        .ok (target, cache₀) ∧
      getNextTarget host store header prevHeader initial cache = .ok (target, cache') ∧
      verifyAndAddHeader host store prevHeader header cache = .ok (next, cache') ∧
      Remembers host store.config chain (passed ++ [header]) cache' := by
  obtain ⟨initial', target, fits, heightEq, hashEq, timely, initialEq, demanded, ⟨hash, valid⟩,
    nextEq⟩ := verifyAndAddHeader_eq_ok.mp single
  obtain rfl := Except.ok.inj (along.initial_eq.symm.trans initialEq)
  have accept (cache' : Nat → Option Nat)
      (demandedToo : getNextTarget host store header prevHeader initial cache =
        .ok (target, cache')) :
      HeaderQueue.verifyAndAddHeader host store prevHeader header cache = .ok (next, cache') :=
    verifyAndAddHeader_eq_ok.mpr ⟨initial, target, fits, heightEq, hashEq, timely, initialEq,
      demandedToo, ⟨hash, valid⟩, nextEq⟩
  rcases getNextTarget_cases demanded with same | ⟨inside, prompt, ⟨bits, rfl, skipped⟩, walks⟩
  · exact ⟨target, cache, demanded, same cache, accept cache (same cache), remembers.mono header⟩
  · obtain ⟨source, walk⟩ := walk_of_skipMinDifficulty (fun _ _ => rfl) skipped
    obtain ⟨value, cache', skippedToo, valueEq, fills⟩ := walk.skipMinDifficulty
      (remembers.right_or_starts following along sources inside prompt walk)
    have sameTarget : host.u256FromCompactTarget value = host.u256FromCompactTarget bits := by
      rcases valueEq with rfl | ⟨back, known, -⟩
      · rfl
      · exact remembers.target_eq following along walk back known
    have demandedToo := walks cache value cache' skippedToo
    rw [sameTarget] at demandedToo
    refine ⟨_, cache', demanded, demandedToo, accept cache' demandedToo, ?_⟩
    intro lower known isKnown
    rw [fills lower] at isKnown
    split at isKnown
    · rename_i range
      obtain ⟨sourceLe, below, -⟩ := range
      obtain rfl := Option.some.inj isKnown
      obtain ⟨initialLe, ended, endedRead, endedBits⟩ := walk.source_read (by omega)
      have lastHeight := following.previous_height
      have inRange : lower - initial < store.headers.length := by omega
      obtain ⟨member, foundHeight⟩ := along.mem (List.getElem?_eq_getElem inRange)
      refine ⟨rfl, _, member, by omega, ?_⟩
      rcases Nat.lt_or_eq_of_le sourceLe with above | isSource
      · exact Or.inl ((walk.skipped.2 lower above below).2 _ (List.getElem?_eq_getElem inRange))
      · right
        subst isSource
        have endedEq : store.headers[source - initial] = ended :=
          Option.some.inj ((List.getElem?_eq_getElem inRange).symm.trans endedRead)
        refine ⟨header, by simp, ?_, ?_⟩
        · exact following.stepsBackTo along inside prompt walk below (by omega)
        · obtain ⟨-, targetEq, -⟩ := host.validatePow_ok _ _ _ valid
          rw [endedEq, endedBits, targetEq]
    · exact remembers.mono header lower known isKnown

/-- The header after the queue has the next height. -/
theorem Along.heights_next {last : WorkHeader} {rest : List WrappedHeader}
    (along : Along chain initial store) (valid : Chain host store.headers)
    (isLast : store.headers.getLast? = some last)
    (split : chain = store.headers.map WorkHeader.header ++ header :: rest) :
    last.header.height + 1 = initial + store.headers.length ∧
      header.height = height store + 1 := by
  obtain ⟨first, others, shape⟩ := List.exists_cons_of_ne_nil (l := store.headers) (by
    intro empty
    simp [empty] at isLast)
  have isInitial : first.height = initial := by
    have initialEq := along.initial_eq
    simpa [getInitialHeight, shape] using initialEq
  have lastHeight := valid.height_last shape
  have sameHeight : height store = last.header.height := height_of_getLast? isLast
  have headerAt : chain[store.headers.length]? = some header := by
    rw [split, List.getElem?_append_right (by simp), List.length_map, Nat.sub_self]
    rfl
  have headerHeight := along.heights _ header headerAt
  omega

end Memory

section Add

variable {store next final : HeaderStore} {header : WrappedHeader}

/-- A header that extends the queue is verified on top of the last one. -/
theorem verifyAndAddHeader_of_add {last : WorkHeader} (chain : Chain host store.headers)
    (isLast : store.headers.getLast? = some last) (extends_eq : header.height = height store + 1)
    (unpruned : store.headers.length + 1 ≤ store.config.maxLength)
    (added : add host store [header] = .ok next) :
    getByHeight store (header.height - 1) none = .ok (some last) ∧
      0 < host.work header.header ∧
      ∃ cache, verifyAndAddHeader host store last.header header (fun _ => none) =
        .ok (next, cache) := by
  obtain ⟨first, rest, kept, verified, removedWork, addedWork, headersEq, removal,
    ⟨prevHeader, got, -, looped⟩, moreWork, rfl⟩ := add_ok added
  obtain ⟨rfl, rfl⟩ := List.cons.inj headersEq
  obtain ⟨rfl, rfl⟩ : kept = store ∧ removedWork = 0 := by
    rw [removeReplaced, if_neg (by omega)] at removal
    obtain ⟨rfl, rfl⟩ := Prod.mk.inj (Outcome.pure_eq_ok.mp removal)
    exact ⟨rfl, rfl⟩
  obtain rfl := Option.some.inj (isLast.symm.trans (chain.getByHeight_last got (by omega)))
  simp only [verifyAndAddLoop, Outcome.bind_eq_ok, Prod.exists, Except.ok.injEq,
    Prod.mk.injEq] at looped
  obtain ⟨_, cache, verifiedOk, sameVerified, rfl⟩ := looped
  rw [sameVerified] at verifiedOk
  obtain ⟨-, -, -, -, verifiedEq⟩ := verifyAndAddHeader_ok verifiedOk
  have nothingPruned : verified.headers.length - verified.config.maxLength = 0 := by
    rw [verifiedEq]
    simp only [List.length_append, List.length_singleton]
    omega
  refine ⟨got, by simpa using moreWork, cache, ?_⟩
  rw [verifiedOk, nothingPruned, List.drop_zero, List.take_zero, workSum_nil, sub_zero]

/-- Headers that extend the queue in one call are verified on top of the last
one. -/
theorem add_of_verifyAndAddLoop {first : WrappedHeader} {rest : List WrappedHeader}
    {last : WorkHeader} {total : Uint256} (extends_eq : first.height = height store + 1)
    (got : getByHeight store (first.height - 1) none = .ok (some last))
    (few : (first :: rest).length ≤ MAX_HEADERS_RELAY_ONE_TIME) (worthwhile : 0 < total)
    (looped : verifyAndAddLoop host store last.header (fun _ => none) 0 (first :: rest) =
      .ok (final, total))
    (unpruned : final.headers.length ≤ final.config.maxLength) :
    add host store (first :: rest) = .ok final := by
  have kept : removeReplaced host store first = .ok (store, 0) := by
    rw [removeReplaced, if_neg (by omega)]
    rfl
  have verified : verifyAndAddHeaders host store (first :: rest) = .ok (final, total) := by
    simp only [verifyAndAddHeaders, List.head?_cons, Outcome.bind_eq_ok, Outcome.getOr_fail_eq_ok,
      Outcome.require_eq_ok]
    exact ⟨first, rfl, (), by omega, some last, got, last, rfl, looped⟩
  simp only [add, addIntoIter, Outcome.bind_eq_ok, Outcome.require_eq_ok, Outcome.mapError_eq_ok,
    List.head?_cons, Outcome.getOr_fail_eq_ok, Outcome.pure_eq_ok, Prod.exists, pruneLoop_eq]
  refine ⟨(), few, first, rfl, store, 0, kept, final, total, verified, (), worthwhile, ?_⟩
  rw [Nat.sub_eq_zero_of_le unpruned, List.drop_zero, List.take_zero, workSum_nil, sub_zero]

/-- A queue in the middle of a batch along a chain: `passed` are the headers of the batch
that it has, `rest` are those that it does not have yet. -/
structure Midway (host : Host) (chain passed rest : List WrappedHeader) (initial : Nat)
    (store : HeaderStore) (last : WorkHeader) (cache : Nat → Option Nat) : Prop where
  valid : Chain host store.headers
  along : Along chain initial store
  isLast : store.headers.getLast? = some last
  split : chain = store.headers.map WorkHeader.header ++ rest
  passed_mem : ∀ earlier ∈ passed, earlier ∈ store.headers.map WorkHeader.header
  sources : SourcesDiffer store.config chain (passed ++ rest)
  unpruned : store.headers.length + rest.length ≤ store.config.maxLength
  remembers : Remembers host store.config chain passed cache

section Midway

variable {chain passed rest : List WrappedHeader} {initial : Nat} {last : WorkHeader}
  {cache cache' : Nat → Option Nat}

/-- The first header that is left is the next one after the queue. -/
theorem Midway.following (midway : Midway host chain passed (header :: rest) initial store last cache) :
    Next chain passed initial store last.header header := by
  have split := midway.split
  obtain ⟨lastHeight, headerHeight⟩ :=
    midway.along.heights_next midway.valid midway.isLast split
  have sameHeight : height store = last.header.height := height_of_getLast? midway.isLast
  refine ⟨?_, lastHeight, by omega, ?_, ?_⟩
  · rw [split]
    exact List.mem_append_left _ (List.mem_map_of_mem (List.mem_of_getLast? midway.isLast))
  · intro earlier isPassed
    rw [split]
    exact List.mem_append_left _ (midway.passed_mem earlier isPassed)
  · intro earlier isPassed
    obtain ⟨found, foundMember, rfl⟩ := List.mem_map.mp (midway.passed_mem earlier isPassed)
    obtain ⟨index, foundAt⟩ := List.getElem?_of_mem foundMember
    have inRange := (List.getElem?_eq_some_iff.mp foundAt).1
    have foundHeight := (midway.along.mem foundAt).2
    omega

/-- A queue that is longer by the next header of the chain is along the chain. -/
theorem Along.concat {added : WorkHeader} (along : Along chain initial store)
    (nonempty : store.headers ≠ []) (headersEq : next.headers = store.headers ++ [added])
    (split : chain = store.headers.map WorkHeader.header ++ added.header :: rest) :
    Along chain initial next := by
  refine ⟨?_, along.heights, ?_⟩
  · have initialEq := along.initial_eq
    obtain ⟨first, others, shape⟩ := List.exists_cons_of_ne_nil nonempty
    simp only [getInitialHeight, headersEq, shape] at initialEq ⊢
    exact initialEq
  · rw [headersEq, split]
    exact ⟨rest, by simp⟩

/-- The batch goes on behind the next header. -/
theorem Midway.step {cache₀ : Nat → Option Nat}
    (midway : Midway host chain passed (header :: rest) initial store last cache)
    (single : verifyAndAddHeader host store last.header header (fun _ => none) =
      .ok (next, cache₀))
    (remembers : Remembers host store.config chain (passed ++ [header]) cache') :
    Midway host chain (passed ++ [header]) rest initial next
      ⟨store.currentWork + host.work header.header, header⟩ cache' := by
  obtain ⟨-, -, -, -, nextEq⟩ := verifyAndAddHeader_ok single
  have headersEq : next.headers = store.headers ++
      [⟨store.currentWork + host.work header.header, header⟩] := by rw [nextEq]
  have configEq : next.config = store.config := by rw [nextEq]
  have nonempty : store.headers ≠ [] := by
    intro empty
    simpa [empty] using midway.isLast
  have mapEq : next.headers.map WorkHeader.header =
      store.headers.map WorkHeader.header ++ [header] := by
    rw [headersEq, List.map_append]
    rfl
  refine ⟨(midway.valid.verifyAndAddHeader ⟨last, midway.isLast, rfl⟩ single).1,
    midway.along.concat nonempty headersEq midway.split, ?_, ?_, ?_, ?_, ?_, ?_⟩
  · rw [headersEq]
    exact List.getLast?_concat
  · rw [mapEq, midway.split, List.append_assoc]
    rfl
  · intro earlier isPassed
    rw [mapEq]
    rcases List.mem_append.mp isPassed with older | isHeader
    · exact List.mem_append_left _ (midway.passed_mem earlier older)
    · exact List.mem_append_right _ isHeader
  · rw [configEq, List.append_assoc]
    exact midway.sources
  · have unpruned := midway.unpruned
    rw [List.length_cons] at unpruned
    rw [configEq, headersEq, List.length_append, List.length_singleton]
    omega
  · rwa [configEq]

/-- The next header has the same target with the memory as without it. -/
theorem Midway.verifyAndAddHeader {cache₀ : Nat → Option Nat}
    (midway : Midway host chain passed (header :: rest) initial store last cache)
    (single : HeaderQueue.verifyAndAddHeader host store last.header header (fun _ => none) =
      .ok (next, cache₀)) :
    ∃ target cache', getNextTarget host store header last.header initial (fun _ => none) =
        .ok (target, cache₀) ∧
      getNextTarget host store header last.header initial cache = .ok (target, cache') ∧
      HeaderQueue.verifyAndAddHeader host store last.header header cache = .ok (next, cache') ∧
      Remembers host store.config chain (passed ++ [header]) cache' := by
  have following := midway.following
  apply midway.remembers.verifyAndAddHeader following midway.along _ single
  intro earlier isPassed found member
  have before := following.passed_le earlier isPassed
  have heightEq := following.height_eq
  exact midway.sources earlier (by simp [isPassed]) header (by simp) (by omega) found member

end Midway

/-- What the loop makes of headers that are accepted in one call each. -/
theorem verifyAndAddLoop_of_addEach {chain passed headers : List WrappedHeader} {initial : Nat}
    {last : WorkHeader} {cache : Nat → Option Nat}
    (midway : Midway host chain passed headers initial store last cache)
    (accepted : addEach host store headers = .ok final) (work : Uint256) :
    verifyAndAddLoop host store last.header cache work headers =
        .ok (final, work + totalWork host headers) ∧
      final.headers.length = store.headers.length + headers.length ∧
      final.config = store.config ∧
      ∃ targets, demandedTargets host id store last.header cache headers = .ok targets ∧
        demandedTargets host (fun _ _ => none) store last.header (fun _ => none) headers =
          .ok targets := by
  induction headers generalizing store last cache passed work with
  | nil =>
      obtain rfl := Except.ok.inj accepted
      exact ⟨by simp [verifyAndAddLoop, totalWork], by simp, rfl, [], rfl, rfl⟩
  | cons header rest ih =>
      simp only [addEach, List.foldlM_cons, Outcome.bind_eq_ok] at accepted
      obtain ⟨next, added, accepted⟩ := accepted
      have headerHeight :=
        (midway.along.heights_next midway.valid midway.isLast midway.split).2
      have unpruned := midway.unpruned
      rw [List.length_cons] at unpruned
      obtain ⟨-, -, cache₀, single⟩ :=
        verifyAndAddHeader_of_add midway.valid midway.isLast headerHeight (by omega) added
      obtain ⟨target, cache', demanded, demandedToo, verified, remembers⟩ :=
        midway.verifyAndAddHeader single
      obtain ⟨looped, lengthEq, configEq, targets, batch, each⟩ :=
        ih (midway.step single remembers) accepted (work + host.work header.header)
      obtain ⟨-, -, -, -, nextEq⟩ := verifyAndAddHeader_ok single
      have initialEq := midway.along.initial_eq
      refine ⟨?_, ?_, by rw [configEq, nextEq], target :: targets, ?_, ?_⟩
      · rw [verifyAndAddLoop, verified, Outcome.ok_bind]
        dsimp only
        rw [looped, totalWork, totalWork, List.map_cons, List.sum_cons, add_assoc]
      · rw [lengthEq, nextEq, List.length_append, List.length_singleton, List.length_cons]
        omega
      · simp only [demandedTargets, initialEq, demandedToo, verified, Outcome.ok_bind]
        rw [id, batch]
        rfl
      · simp only [demandedTargets, initialEq, demanded, single, Outcome.ok_bind]
        rw [each]
        rfl

end Add

/-- A queue without headers accepts none. -/
theorem exists_headers_of_add {store next : HeaderStore} {header : WrappedHeader}
    (added : add host store [header] = .ok next) :
    ∃ oldest others, store.headers = oldest :: others := by
  obtain ⟨_, _, kept, _, _, _, headersEq, removal, ⟨prevHeader, got, -, -⟩, -, -⟩ := add_ok added
  obtain ⟨rfl, rfl⟩ := List.cons.inj headersEq
  obtain ⟨oldest, others, keptEq, -, -⟩ := getByHeight_ok got
  obtain ⟨removed, split, -, -, -, -⟩ := removeReplaced_ok removal
  exact ⟨oldest, others ++ removed, by rw [split, keptEq]; rfl⟩

/-- The headers of a queue and those that extend its tip have consecutive heights. -/
theorem along_of_extendsTip {store : HeaderStore} {oldest : WorkHeader} {others : List WorkHeader}
    {headers : List WrappedHeader} (valid : Chain host store.headers)
    (shape : store.headers = oldest :: others) (extendsTip : ExtendsTip store headers) :
    Along (store.headers.map WorkHeader.header ++ headers) oldest.height store := by
  have lastHeight := valid.height_last shape
  refine ⟨by simp [getInitialHeight, shape], ?_, List.prefix_append _ _⟩
  intro index header found
  rcases Nat.lt_or_ge index store.headers.length with inQueue | beyond
  · rw [List.getElem?_append_left (by simpa using inQueue), List.getElem?_map,
      Option.map_eq_some_iff] at found
    obtain ⟨queued, queuedAt, rfl⟩ := found
    rw [shape] at valid queuedAt
    exact valid.height_eq queuedAt
  · rw [List.getElem?_append_right (by simpa using beyond), List.length_map] at found
    have extendsBy := extendsTip _ header found
    omega

/-- Headers that extend the queue and are accepted in one call each are accepted
in one call, at the same targets and with the same queue, if a call takes that
many, they are work in total, and no two of them step back to the same header
inside a period. -/
theorem run_add_of_addEach (host : Host) (config : HeaderConfig) (calls : List Call)
    {headers : List WrappedHeader} {final : HeaderStore} :
    let store := (machine host).run (configure host config) calls
    ExtendsTip store headers → addEach host store headers = .ok final →
    store.headers.length + headers.length ≤ store.config.maxLength →
    headers ≠ [] → headers.length ≤ MAX_HEADERS_RELAY_ONE_TIME → totalWork host headers ≠ 0 →
    SourcesDiffer store.config (store.headers.map WorkHeader.header ++ headers) headers →
      add host store headers = .ok final ∧
        ∃ last targets, store.headers.getLast? = some last ∧
          demandedTargets host id store last.header (fun _ => none) headers = .ok targets ∧
          demandedTargets host (fun _ _ => none) store last.header (fun _ => none) headers =
            .ok targets := by
  intro store extendsTip accepted unpruned nonempty few worthwhile sources
  have valid : Chain host store.headers := run_chain host config calls
  obtain ⟨first, rest, rfl⟩ := List.exists_cons_of_ne_nil nonempty
  have firstHeight : first.height = height store + 1 := by simpa using extendsTip 0 first rfl
  have firstAdded : ∃ next, add host store [first] = .ok next := by
    simp only [addEach, List.foldlM_cons, Outcome.bind_eq_ok] at accepted
    obtain ⟨next, added, -⟩ := accepted
    exact ⟨next, added⟩
  obtain ⟨next, added⟩ := firstAdded
  obtain ⟨oldest, others, shape⟩ := exists_headers_of_add added
  have isLast : store.headers.getLast? = some ((oldest :: others).getLast (List.cons_ne_nil _ _)) := by
    rw [shape]
    exact List.getLast?_eq_some_getLast (List.cons_ne_nil _ _)
  have along := along_of_extendsTip valid shape extendsTip
  have nothingRemembered : Remembers host store.config
      (store.headers.map WorkHeader.header ++ first :: rest) [] (fun _ => none) := by
    rintro _ _ ⟨⟩
  obtain ⟨looped, lengthEq, configEq, targets, batch, each⟩ :=
    verifyAndAddLoop_of_addEach
      ⟨valid, along, isLast, rfl, by simp, sources, unpruned, nothingRemembered⟩ accepted 0
  rw [List.length_cons] at unpruned lengthEq
  obtain ⟨got, -, -⟩ := verifyAndAddHeader_of_add valid isLast firstHeight (by omega) added
  refine ⟨?_, _, targets, isLast, batch, each⟩
  apply add_of_verifyAndAddLoop firstHeight got few _ looped
  · rw [configEq]
    omega
  · rw [zero_add]
    exact (BitVec.pos_iff_ne_zero _).mpr worthwhile

end HeaderQueue

namespace Sample

/-- The target that a compact form denotes. -/
def compactTarget (bits : Nat) : Uint256 :=
  let exponent := bits / 2 ^ 24
  let mantissa := if exponent ≤ 3 then bits % 2 ^ 24 / 256 ^ (3 - exponent) else bits % 2 ^ 24
  if 0x7fffff < mantissa then 0 else BitVec.ofNat 256 (mantissa * 256 ^ (exponent - 3))

/-- A host that reads compact targets. -/
def compactHost : Host :=
  { host with
    u256FromCompactTarget := compactTarget
    validatePow := validatePow compactTarget
    validatePow_ok := validatePow_ok compactTarget }

/-- A configuration whose maximum target has a second compact form, with a
trusted header inside a period. -/
def minDifficultyConfig : HeaderConfig where
  maxLength := 100
  maxTimeIncrease := 7200
  trustedHeight := 101
  retargetInterval := 100
  targetSpacing := 600
  targetTimespan := 60000
  maxTarget := 0x1d00ff00
  retargeting := true
  minDifficultyBlocks := true
  trustedHeader :=
    { version := 1, prevBlockhash := [], merkleRoot := [], time := 0, bits := 0x1c00ff00, nonce := 0 }

/-- The header after the one whose nonce is lower by one. -/
def spacedHeader (nonce time bits : Nat) : WrappedHeader where
  height := 101 + nonce
  header :=
    { version := 1, prevBlockhash := Bytes.le 4 (nonce - 1), merkleRoot := [], time, bits, nonce }

/-- A header of minimum difficulty after a long pause, and promptly the next
ones.  The bits of the pause are given. -/
def pauseHeaders (pauseBits : Nat) : List WrappedHeader :=
  [spacedHeader 1 2000 pauseBits, spacedHeader 2 2600 0x1d00ff00, spacedHeader 3 3200 0x1d00ff00,
    spacedHeader 4 3800 0x1d00ff00]

/-- A header of minimum difficulty after a long pause, and then one that takes
its target from the trusted header. -/
def returnHeaders : List WrappedHeader :=
  [spacedHeader 1 2000 0x1d00ff00, spacedHeader 2 2600 0x1c00ff00, spacedHeader 3 4000 0x1d00ff00,
    spacedHeader 4 4600 0x1c00ff00]

def minDifficultyQueue : HeaderStore := HeaderQueue.configure compactHost minDifficultyConfig

/-- The queue after the headers have been relayed one by one. -/
def relayedEach (headers : List WrappedHeader) : HeaderStore :=
  match HeaderQueue.addEach compactHost minDifficultyQueue headers with
  | .ok final => final
  | .error _ => minDifficultyQueue

end Sample

namespace HeaderQueue

theorem run_add_of_addEach_return :
    (Sample.relayedEach Sample.returnHeaders).headers.length = 5 ∧
      add Sample.compactHost Sample.minDifficultyQueue Sample.returnHeaders =
        .ok (Sample.relayedEach Sample.returnHeaders) := by
  have added := run_add_of_addEach Sample.compactHost Sample.minDifficultyConfig []
    (by decide +kernel : ExtendsTip Sample.minDifficultyQueue Sample.returnHeaders)
    (by decide +kernel : addEach Sample.compactHost Sample.minDifficultyQueue Sample.returnHeaders =
      .ok (Sample.relayedEach Sample.returnHeaders))
    (by decide +kernel) (by decide) (by decide) (by decide +kernel) (by decide +kernel)
  exact ⟨by decide +kernel, added.1⟩

/-- With a maximum target of two compact forms, headers that are accepted in
one call each are rejected in one call. -/
theorem addEach_ok_add_fails :
    Sample.minDifficultyConfig.minDifficultyBlocks = true ∧
      ExtendsTip Sample.minDifficultyQueue (Sample.pauseHeaders 0x1e0000ff) ∧
      addEach Sample.compactHost Sample.minDifficultyQueue (Sample.pauseHeaders 0x1e0000ff) =
        .ok (Sample.relayedEach (Sample.pauseHeaders 0x1e0000ff)) ∧
      (Sample.relayedEach (Sample.pauseHeaders 0x1e0000ff)).headers.length = 5 ∧
      add Sample.compactHost Sample.minDifficultyQueue (Sample.pauseHeaders 0x1e0000ff) =
        Outcome.fail (.app "block target correct") := by
  refine ⟨by decide, by decide +kernel, by decide +kernel, by decide +kernel, by decide +kernel⟩

end HeaderQueue

end CwBitcoin
