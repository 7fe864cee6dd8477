import CwBitcoin.Header
import Mathlib.Data.BitVec

/-!
# What the operations of the header queue do

One lemma for each operation of the header queue, which says everything that
a successful call checks and changes.
-/

namespace CwBitcoin

namespace HeaderQueue

variable {host : Host}

/-- The total work of a list of headers. -/
def workSum (host : Host) (headers : List WorkHeader) : Uint256 :=
  (headers.map (WorkHeader.work host)).sum

@[simp]
theorem workSum_nil : workSum host [] = 0 :=
  rfl

@[simp]
theorem workSum_cons (header : WorkHeader) (headers : List WorkHeader) :
    workSum host (header :: headers) = header.work host + workSum host headers := by
  simp [workSum]

@[simp]
theorem workSum_append (first second : List WorkHeader) :
    workSum host (first ++ second) = workSum host first + workSum host second := by
  induction first with
  | nil => simp
  | cons header headers ih => rw [List.cons_append, workSum_cons, ih, workSum_cons, add_assoc]

theorem workSum_reverse (headers : List WorkHeader) :
    workSum host headers.reverse = workSum host headers := by
  induction headers with
  | nil => rfl
  | cons header headers ih =>
      rw [List.reverse_cons, workSum_append, ih, workSum_cons, workSum_cons, workSum_nil,
        add_zero, add_comm]

theorem height_of_getLast? {store : HeaderStore} {last : WorkHeader}
    (isLast : store.headers.getLast? = some last) : height store = last.height := by
  simp [height, isLast]

theorem popBackLoop_ok {bound : Nat} {newestFirst rest : List WorkHeader} {work total : Uint256}
    (popped : popBackLoop host bound newestFirst work = .ok (rest, total)) :
    ∃ removed, newestFirst = removed ++ rest ∧ total = work + workSum host removed ∧
      (∀ last, rest.head? = some last → last.height < bound) ∧ bound ≠ 0 := by
  induction newestFirst generalizing work with
  | nil =>
      unfold popBackLoop at popped
      split at popped <;> rename_i zero
      · simp at popped
      · obtain ⟨rfl, rfl⟩ := Prod.mk.inj (Except.ok.inj popped)
        exact ⟨[], by simp, by simp, by simp, zero⟩
  | cons last older ih =>
      unfold popBackLoop at popped
      split at popped <;> rename_i above
      · obtain ⟨removed, rfl, rfl, below, nonzero⟩ := ih popped
        exact ⟨last :: removed, rfl, by rw [workSum_cons, add_assoc], below, nonzero⟩
      · obtain ⟨rfl, rfl⟩ := Prod.mk.inj (Except.ok.inj popped)
        refine ⟨[], rfl, by simp, fun newest isNewest => ?_, by omega⟩
        obtain rfl : last = newest := by simpa using isNewest
        omega

/-- Popping back keeps a prefix of the queue that ends below the given height. -/
theorem popBackTo_ok {store after : HeaderStore} {bound : Nat} {work : Uint256}
    (popped : popBackTo host store bound = .ok (after, work)) :
    ∃ removed, store.headers = after.headers ++ removed ∧ work = workSum host removed ∧
      after = { store with headers := after.headers } ∧ height after < bound := by
  simp only [popBackTo, Outcome.bind_eq_ok, Outcome.pure_eq_ok, Prod.mk.injEq, Prod.exists] at popped
  obtain ⟨rest, total, looped, rfl, rfl⟩ := popped
  obtain ⟨removed, split, totalEq, below, nonzero⟩ := popBackLoop_ok looped
  refine ⟨removed.reverse, ?_, ?_, rfl, ?_⟩
  · rw [← List.reverse_append, ← split, List.reverse_reverse]
  · rw [totalEq, zero_add, workSum_reverse]
  · cases newest : rest.head? with
    | none => simp [height, newest]; omega
    | some last =>
        rw [height_of_getLast? (by simpa using newest)]
        exact below last newest

/-- Only headers that start at or below the height of the queue replace
others. -/
theorem removeReplaced_ok {store after : HeaderStore} {first : WrappedHeader} {work : Uint256}
    (removal : removeReplaced host store first = .ok (after, work)) :
    ∃ removed, store.headers = after.headers ++ removed ∧ work = workSum host removed ∧
      after = { store with headers := after.headers } ∧ height after < first.height ∧
      (height store < first.height → removed = []) := by
  unfold removeReplaced at removal
  split at removal <;> rename_i replaces
  · simp only [Outcome.bind_eq_ok] at removal
    obtain ⟨_, _, _, _, _, _, popped⟩ := removal
    obtain ⟨removed, split, workEq, afterEq, below⟩ := popBackTo_ok popped
    exact ⟨removed, split, workEq, afterEq, below, fun above => absurd replaces (by omega)⟩
  · obtain ⟨rfl, rfl⟩ := Prod.mk.inj (Outcome.pure_eq_ok.mp removal)
    exact ⟨[], by simp, rfl, rfl, by omega, fun _ => rfl⟩

/-- Everything that the verification of one header establishes. -/
theorem verifyAndAddHeader_ok {store after : HeaderStore} {prevHeader header : WrappedHeader}
    {cache cache' : Nat → Option Nat}
    (added : verifyAndAddHeader host store prevHeader header cache = .ok (after, cache')) :
    header.height = prevHeader.height + 1 ∧
      header.header.prevBlockhash = host.blockHash prevHeader.header ∧
      (11 ≤ store.headers.length → validateTime store header = .ok ()) ∧
      host.hashValue (host.blockHash header.header) ≤
        host.u256FromCompactTarget header.header.bits ∧
      after = { store with
        headers := store.headers ++ [⟨store.currentWork + host.work header.header, header⟩]
        currentWork := store.currentWork + host.work header.header } := by
  simp only [verifyAndAddHeader, Outcome.bind_eq_ok, Outcome.checkedAdd_eq_ok,
    Outcome.require_eq_ok] at added
  obtain ⟨_, ⟨_, rfl⟩, _, heightEq, _, hashEq, rest⟩ := added
  have timeAndRest : (11 ≤ store.headers.length → validateTime store header = .ok ()) ∧
      ∃ initialHeight target cache'', getInitialHeight store = .ok initialHeight ∧
        getNextTarget host store header prevHeader initialHeight cache = .ok (target, cache'') ∧
        ∃ hash, host.validatePow header.header target = .ok hash ∧
          ({ store with
            headers := store.headers ++ [⟨store.currentWork + host.work header.header, header⟩]
            currentWork := store.currentWork + host.work header.header }, cache'') =
              (after, cache') := by
    split at rest <;> rename_i enough
    · simp only [Outcome.bind_eq_ok, Outcome.pure_eq_ok, Prod.exists] at rest
      obtain ⟨_, timely, initialHeight, initial, target, cache'', next, hash, valid, result⟩ := rest
      exact ⟨fun _ => timely, initialHeight, target, cache'', initial, next, hash, valid, result⟩
    · simp only [Outcome.bind_eq_ok, Outcome.pure_eq_ok, Prod.exists] at rest
      obtain ⟨initialHeight, initial, target, cache'', next, hash, valid, result⟩ := rest
      exact ⟨fun long => absurd long enough, initialHeight, target, cache'', initial, next, hash,
        valid, result⟩
  obtain ⟨timely, _, _, _, _, _, hash, valid, result⟩ := timeAndRest
  obtain ⟨rfl, rfl, meets⟩ := host.validatePow_ok _ _ _ valid
  exact ⟨heightEq, hashEq, timely, meets, (Prod.mk.inj result).1.symm⟩

/-- What every verified header preserves, given the headers verified so far,
holds at the end of the loop. -/
theorem verifyAndAddLoop_invariant
    (Inv : HeaderStore → WrappedHeader → Uint256 → List WrappedHeader → Prop)
    (verified : List WrappedHeader)
    (preserve : ∀ store prevHeader work verified header cache after cache',
      Inv store prevHeader work verified →
      verifyAndAddHeader host store prevHeader header cache = .ok (after, cache') →
        Inv after header (work + host.work header.header) (verified ++ [header]))
    {store final : HeaderStore} {prevHeader : WrappedHeader} {cache : Nat → Option Nat}
    {work total : Uint256} {headers : List WrappedHeader}
    (holds : Inv store prevHeader work verified)
    (looped : verifyAndAddLoop host store prevHeader cache work headers = .ok (final, total)) :
    ∃ last, Inv final last total (verified ++ headers) := by
  induction headers generalizing store prevHeader cache work verified with
  | nil =>
      obtain ⟨rfl, rfl⟩ := Prod.mk.inj (Except.ok.inj looped)
      exact ⟨prevHeader, by simpa using holds⟩
  | cons header rest ih =>
      simp only [verifyAndAddLoop, Outcome.bind_eq_ok, Prod.exists] at looped
      obtain ⟨after, cache', added, restLooped⟩ := looped
      obtain ⟨last, inv⟩ := ih _ (preserve _ _ _ _ _ _ _ _ holds added) restLooped
      exact ⟨last, by simpa using inv⟩

/-- The loop pushes all headers and adds up their work. -/
theorem verifyAndAddLoop_headers {store final : HeaderStore} {prevHeader : WrappedHeader}
    {cache : Nat → Option Nat} {work total : Uint256} {headers : List WrappedHeader}
    (looped : verifyAndAddLoop host store prevHeader cache work headers = .ok (final, total)) :
    ∃ added, final.headers = store.headers ++ added ∧ added.map WorkHeader.header = headers ∧
      total = work + workSum host added ∧ final.config = store.config := by
  obtain ⟨_, holds⟩ := verifyAndAddLoop_invariant
    (fun current _ currentWork verified => ∃ added, current.headers = store.headers ++ added ∧
      added.map WorkHeader.header = verified ∧ currentWork = work + workSum host added ∧
      current.config = store.config) []
    (by
      rintro current _ _ _ header _ _ _ ⟨added, headersEq, rfl, rfl, configEq⟩ stepped
      obtain ⟨_, _, _, _, rfl⟩ := verifyAndAddHeader_ok stepped
      refine ⟨added ++ [⟨current.currentWork + host.work header.header, header⟩], ?_, ?_, ?_,
        configEq⟩
      · simp only [headersEq, List.append_assoc]
      · rw [List.map_append, List.map_singleton]
      · simp [WorkHeader.work, add_assoc])
    ⟨[], by simp, rfl, by simp, rfl⟩ looped
  simpa using holds

/-- The header at a height sits at its distance from the first one. -/
theorem getByHeight_ok {store : HeaderStore} {target : Nat} {found : Option WorkHeader}
    (got : getByHeight store target none = .ok found) :
    ∃ first rest, store.headers = first :: rest ∧ first.height ≤ target ∧
      found = store.headers[target - first.height]? := by
  simp only [getByHeight, getInitialHeight, Outcome.bind_eq_ok, Outcome.require_eq_ok,
    Outcome.pure_eq_ok] at got
  obtain ⟨_, initial, _, inRange, rfl⟩ := got
  cases shape : store.headers with
  | nil => simp [shape] at initial
  | cons first rest =>
      obtain rfl : first.height = _ := by simpa [shape] using initial
      exact ⟨first, rest, rfl, inRange, rfl⟩

theorem pruneLoop_eq (maxLength : Nat) (headers : List WorkHeader) (currentWork : Uint256) :
    pruneLoop host maxLength headers currentWork =
      (headers.drop (headers.length - maxLength),
        currentWork - workSum host (headers.take (headers.length - maxLength))) := by
  induction headers generalizing currentWork with
  | nil => simp [pruneLoop]
  | cons first rest ih =>
      unfold pruneLoop
      split <;> rename_i tooLong
      · have excess : (first :: rest).length - maxLength = rest.length - maxLength + 1 := by
          rw [List.length_cons]
          omega
        rw [ih, excess, List.drop_succ_cons, List.take_succ_cons, workSum_cons, sub_sub]
      · have noExcess : (first :: rest).length - maxLength = 0 := by
          rw [List.length_cons]
          omega
        rw [noExcess]
        simp

/-- A successful call removes the replaced headers, verifies the new ones and
prunes. -/
theorem add_ok {store after : HeaderStore} {headers : List WrappedHeader}
    (added : add host store headers = .ok after) :
    ∃ first rest kept verified removedWork addedWork, headers = first :: rest ∧
      removeReplaced host store first = .ok (kept, removedWork) ∧
      (∃ prevHeader, getByHeight kept (first.height - 1) none = .ok (some prevHeader) ∧
        first.height ≠ 0 ∧
        verifyAndAddLoop host kept prevHeader.header (fun _ => none) 0 headers =
          .ok (verified, addedWork)) ∧
      removedWork < addedWork ∧
      after =
        { verified with
          headers := verified.headers.drop (verified.headers.length - verified.config.maxLength)
          currentWork := verified.currentWork - workSum host
            (verified.headers.take (verified.headers.length - verified.config.maxLength)) } := by
  simp only [add, addIntoIter, verifyAndAddHeaders, Outcome.bind_eq_ok, Outcome.require_eq_ok,
    Outcome.mapError_eq_ok, Outcome.getOr_fail_eq_ok, Outcome.pure_eq_ok, Prod.exists,
    pruneLoop_eq] at added
  obtain ⟨_, _, first, isFirst, kept, removedWork, removal, verified, addedWork,
    ⟨_, isFirst', _, nonzero, found, got, prevHeader, foundEq, looped⟩, _, moreWork, rfl⟩ := added
  obtain ⟨rest, rfl⟩ : ∃ rest, headers = first :: rest := by
    cases headers with
    | nil => simp at isFirst
    | cons header rest => exact ⟨rest, by rw [Option.some.inj isFirst]⟩
  obtain rfl : first = _ := Option.some.inj isFirst'
  exact ⟨first, rest, kept, verified, removedWork, addedWork, rfl, removal,
    ⟨prevHeader, by rw [got, foundEq], nonzero, looped⟩, moreWork, rfl⟩

end HeaderQueue

end CwBitcoin
