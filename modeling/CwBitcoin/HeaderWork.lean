import CwBitcoin.HeaderChain

/-!
# The stored total of work

`CURRENT_WORK` is meant to be the work of the headers in the queue.  Adding
and pruning keep it so, but a reorganization removes headers without
subtracting their work, which then stays in the total.
-/

namespace CwBitcoin

namespace HeaderQueue

variable {host : Host}

/-- The stored total is the work of the headers in the queue. -/
def WorkMatches (host : Host) (store : HeaderStore) : Prop :=
  store.currentWork = workSum host store.headers

/-- The headers verified so far, on top of a base, with the total of their
work and what the stored total exceeds the work of the queue by. -/
structure Verified (host : Host) (base : List WorkHeader) (surplus : Uint256)
    (store : HeaderStore) (work : Uint256) (verified : List WrappedHeader) : Prop where
  split : ∃ added, store.headers = base ++ added ∧ added.map WorkHeader.header = verified ∧
    work = workSum host added ∧
    EachAfter (fun older header =>
      header.chainWork = workSum host (base ++ older ++ [header]) + surplus) added
  currentWork_eq : store.currentWork = workSum host store.headers + surplus

theorem Verified.verifyAndAddHeader {base : List WorkHeader} {surplus work : Uint256}
    {store after : HeaderStore} {verified : List WrappedHeader}
    (holds : Verified host base surplus store work verified)
    {prevHeader header : WrappedHeader} {cache cache' : Nat → Option Nat}
    (added : verifyAndAddHeader host store prevHeader header cache = .ok (after, cache')) :
    Verified host base surplus after (work + host.work header.header) (verified ++ [header]) := by
  obtain ⟨_, _, _, _, rfl⟩ := verifyAndAddHeader_ok added
  obtain ⟨before, headersEq, headerEq, workEq, chainWorks⟩ := holds.split
  have pushed : store.currentWork + host.work header.header =
      workSum host (store.headers ++ [⟨store.currentWork + host.work header.header, header⟩]) +
        surplus := by
    rw [workSum_append, holds.currentWork_eq]
    simp only [workSum_cons, workSum_nil, WorkHeader.work]
    ring
  refine ⟨⟨before ++ [⟨store.currentWork + host.work header.header, header⟩], ?_, ?_, ?_, ?_⟩,
    pushed⟩
  · simp only [headersEq, List.append_assoc]
  · rw [List.map_append, headerEq]
    rfl
  · rw [workSum_append, workEq]
    simp [WorkHeader.work]
  · refine EachAfter.concat_iff.mpr ⟨chainWorks, ?_⟩
    rw [← headersEq]
    exact pushed

/-- A successful call leaves the stored total too large by the work of the
headers it replaced. -/
theorem add_currentWork {store after : HeaderStore} {headers : List WrappedHeader}
    (added : add host store headers = .ok after) (matchesBefore : WorkMatches host store) :
    ∃ kept removed newHeaders pruned,
      store.headers = kept ++ removed ∧
      ((∀ first, headers.head? = some first → height store < first.height) → removed = []) ∧
      kept ++ newHeaders = pruned ++ after.headers ∧
      newHeaders.map WorkHeader.header = headers ∧
      EachAfter (fun older header =>
        header.chainWork = workSum host (kept ++ older ++ [header]) + workSum host removed)
        newHeaders ∧
      after.currentWork = workSum host after.headers + workSum host removed := by
  obtain ⟨first, rest, kept, verified, _, _, rfl, removal, ⟨prevHeader, _, _, looped⟩, _, rfl⟩ :=
    add_ok added
  obtain ⟨removed, split, _, keptEq, _, noneRemoved⟩ := removeReplaced_ok removal
  have start : Verified host kept.headers (workSum host removed) kept 0 [] := by
    refine ⟨⟨[], by simp, rfl, rfl, EachAfter.nil⟩, ?_⟩
    rw [keptEq]
    simp only
    rw [← workSum_append, ← split]
    exact matchesBefore
  obtain ⟨_, holds⟩ := verifyAndAddLoop_invariant
    (fun current _ work verified =>
      Verified host kept.headers (workSum host removed) current work verified) []
    (fun _ _ _ _ _ _ _ _ holds stepped => holds.verifyAndAddHeader stepped) start looped
  obtain ⟨newHeaders, headersEq, headerEq, _, chainWorks⟩ := holds.split
  refine ⟨kept.headers, removed, newHeaders,
    verified.headers.take (verified.headers.length - verified.config.maxLength), split,
    fun above => noneRemoved (above first rfl), ?_, headerEq, chainWorks, ?_⟩
  · rw [← headersEq, List.take_append_drop]
  · have total := holds.currentWork_eq
    rw [← List.take_append_drop (verified.headers.length - verified.config.maxLength)
      verified.headers, workSum_append] at total
    simp only [total]
    ring

/-- One call keeps the total right exactly when the replaced headers carried no
work. -/
theorem workMatches_add_iff {store after : HeaderStore} {headers : List WrappedHeader}
    (added : add host store headers = .ok after) (matchesBefore : WorkMatches host store) :
    ∃ kept removed, store.headers = kept ++ removed ∧
      ((∀ first, headers.head? = some first → height store < first.height) → removed = []) ∧
      (WorkMatches host after ↔ workSum host removed = 0) := by
  obtain ⟨kept, removed, _, _, split, noneRemoved, _, _, _, total⟩ :=
    add_currentWork added matchesBefore
  refine ⟨kept, removed, split, noneRemoved, ?_⟩
  rw [WorkMatches, total, add_eq_left]

/-- A call that fails or whose headers all lie above the queue, so that it does
not reorganize. -/
def ExtendsOnly (host : Host) (store : HeaderStore) : Call → Prop
  | .configure _ => True
  | .add headers => (∃ after, add host store headers = .ok after) →
      ∀ first, headers.head? = some first → height store < first.height

theorem workMatches_configure (config : HeaderConfig) :
    WorkMatches host (configure host config) := by
  simp [WorkMatches, configure, WorkHeader.work]

/-- Without reorganizations the stored total is right after every run, and so
is the chain work of each header that a further call adds. -/
theorem run_work_matches (host : Host) {config : HeaderConfig} {calls : List Call}
    (extending : (machine host).Permitted (ExtendsOnly host) (configure host config) calls) :
    let store := (machine host).run (configure host config) calls
    store.currentWork = workSum host store.headers ∧
      ∀ headers after, ExtendsOnly host store (.add headers) →
        add host store headers = .ok after →
        ∃ newHeaders pruned, store.headers ++ newHeaders = pruned ++ after.headers ∧
          newHeaders.map WorkHeader.header = headers ∧
          ∀ older header newer, newHeaders = older ++ header :: newer →
            header.chainWork = workSum host (store.headers ++ older ++ [header]) := by
  have matchesAfter : WorkMatches host ((machine host).run (configure host config) calls) := by
    refine CallMachine.run_invariant (WorkMatches host) ?_ (workMatches_configure config) extending
    intro store call after matchesBefore extendsOnly called
    cases call with
    | configure config =>
        obtain rfl := Except.ok.inj called
        exact workMatches_configure config
    | add headers =>
        obtain ⟨_, removed, _, _, _, noneRemoved, _, _, _, total⟩ :=
          add_currentWork called matchesBefore
        rw [WorkMatches, total, noneRemoved (extendsOnly ⟨after, called⟩), workSum_nil, add_zero]
  refine ⟨matchesAfter, fun headers after extendsOnly added => ?_⟩
  obtain ⟨kept, removed, newHeaders, pruned, split, noneRemoved, result, headersEq, chainWorks, _⟩ :=
    add_currentWork added matchesAfter
  obtain rfl := noneRemoved (extendsOnly ⟨after, added⟩)
  rw [List.append_nil] at split
  refine ⟨newHeaders, pruned, by rw [split, result], headersEq, fun older header newer shape => ?_⟩
  rw [chainWorks older header newer shape, split, workSum_nil, add_zero]

theorem run_work_matches_extension :
    let store := (machine Sample.host).run (configure Sample.host (Sample.headerConfig 2))
      [.add [Sample.header 8 0 1, Sample.header 9 1 2]]
    store.currentWork = 2000 ∧ store.currentWork = workSum Sample.host store.headers := by
  have extending : (machine Sample.host).Permitted (ExtendsOnly Sample.host)
      (configure Sample.host (Sample.headerConfig 2))
      [.add [Sample.header 8 0 1, Sample.header 9 1 2]] := by
    refine ⟨fun _ first isFirst => ?_, trivial⟩
    obtain rfl : Sample.header 8 0 1 = first := Option.some.inj isFirst
    decide
  exact ⟨by decide +kernel, (run_work_matches Sample.host extending).1⟩

/-- After a reorganization the stored total still contains the work of the
replaced header. -/
theorem run_work_differs :
    ¬ ∀ (host : Host) (config : HeaderConfig) (calls : List Call),
      let store := (machine host).run (configure host config) calls
      store.currentWork = workSum host store.headers := by
  intro workMatches
  have equal := workMatches Sample.host (Sample.headerConfig 100) Sample.reorgCalls
  revert equal
  decide +kernel

end HeaderQueue

end CwBitcoin
