import CwBitcoin.HeaderChain
import Mathlib.Data.List.Chain

/-!
# The queue is the end of one chain from the trusted header

A client with unlimited memory keeps the whole chain from the trusted header on and
replaces its end by what is relayed.  The queue is always the end of that chain, and
every change gives the chain more work.
-/

namespace CwBitcoin

namespace HeaderQueue

variable {host : Host}

/-- A header builds on another one and meets its own target. -/
structure BuildsOn (host : Host) (previous next : WrappedHeader) : Prop where
  height_eq : next.height = previous.height + 1
  prevBlockhash_eq : next.header.prevBlockhash = host.blockHash previous.header
  meets : host.hashValue (host.blockHash next.header) ≤
    host.u256FromCompactTarget next.header.bits

/-- The work of a chain, as a number of any size. -/
def chainWork (host : Host) (chain : List WrappedHeader) : Nat :=
  (chain.map fun header => (host.work header.header).toNat).sum

/-- What the client with unlimited memory does with relayed headers: they replace
everything from the height of the first one on. -/
def attach (chain headers : List WrappedHeader) : List WrappedHeader :=
  match headers.head? with
  | some first => chain.takeWhile (fun header => header.height < first.height) ++ headers
  | none => chain

/-- The chain of the client with unlimited memory. -/
def observeChain (_ : HeaderStore) (call : Call) (_ : HeaderStore) (chain : List WrappedHeader) :
    List WrappedHeader :=
  match call with
  | .configure config => [⟨config.trustedHeight, config.trustedHeader⟩]
  | .add headers => attach chain headers

/-- The queue is the end of a chain from the trusted header. -/
structure Descends (host : Host) (store : HeaderStore) (chain : List WrappedHeader) : Prop where
  trusted : chain.head? = some ⟨store.config.trustedHeight, store.config.trustedHeader⟩
  builds : chain.IsChain (BuildsOn host)
  suffix : store.headers.map WorkHeader.header <:+ chain

section Chain

variable {chain before rest headers : List WrappedHeader}

theorem Chain.builds {headers : List WorkHeader} (chain : Chain host headers) :
    (headers.map WorkHeader.header).IsChain (BuildsOn host) := by
  rw [List.isChain_map, List.isChain_iff_forall_rel_of_append_cons_cons]
  intro previous next older newer split
  obtain ⟨heightEq, hashEq, meets⟩ := chain.linked (older ++ [previous]) next newer
    (by simpa using split) previous List.getLast?_concat
  exact ⟨heightEq, hashEq, meets⟩

/-- Heights increase along a chain. -/
theorem heights_pairwise (builds : chain.IsChain (BuildsOn host)) :
    chain.Pairwise fun first second => first.height < second.height := by
  have increasing : (chain.map WrappedHeader.height).IsChain (· < ·) := by
    rw [List.isChain_map]
    exact builds.imp fun first second buildsOn => by rw [buildsOn.height_eq]; exact Nat.lt_succ_self _
  exact List.pairwise_map.mp (List.isChain_iff_pairwise.mp increasing)

/-- The headers below the first relayed one are those before the replaced ones. -/
theorem attach_eq {first : WrappedHeader} {previous : WrappedHeader}
    (builds : (before ++ rest).IsChain (BuildsOn host)) (last : before.getLast? = some previous)
    (heightEq : first.height = previous.height + 1) :
    attach (before ++ rest) (first :: headers) = before ++ first :: headers := by
  have increasing := heights_pairwise builds
  obtain ⟨older, rfl⟩ : ∃ older, before = older ++ [previous] := by
    rw [List.getLast?_eq_some_iff] at last
    exact last
  have below : ∀ header ∈ older ++ [previous], decide (header.height < first.height) = true := by
    intro header member
    rw [decide_eq_true_iff, heightEq, Nat.lt_succ_iff]
    rcases List.mem_append.mp member with isOlder | isLast
    · have beforeLast := (List.pairwise_append.mp (List.pairwise_append.mp increasing).1).2.2
        header isOlder previous (List.mem_singleton_self previous)
      exact beforeLast.le
    · rw [List.mem_singleton.mp isLast]
  have above : rest.takeWhile (fun header => header.height < first.height) = [] := by
    cases rest with
    | nil => rfl
    | cons next rest =>
        have next_eq := ((List.isChain_append.mp builds).2.2 previous List.getLast?_concat next
          rfl).height_eq
        rw [List.takeWhile_cons_of_neg]
        rw [decide_eq_true_iff]
        omega
  rw [attach, List.head?_cons]
  dsimp only
  rw [List.takeWhile_append_of_pos below, above, List.append_nil]

theorem chainWork_cons (header : WrappedHeader) (headers : List WrappedHeader) :
    chainWork host (header :: headers) =
      (host.work header.header).toNat + chainWork host headers := rfl

theorem chainWork_append (first second : List WrappedHeader) :
    chainWork host (first ++ second) = chainWork host first + chainWork host second := by
  simp [chainWork]

/-- A sum of work that does not overflow is exact. -/
theorem workSum_toNat {headers : List WorkHeader}
    (small : chainWork host (headers.map WorkHeader.header) < 2 ^ 256) :
    (workSum host headers).toNat = chainWork host (headers.map WorkHeader.header) := by
  induction headers with
  | nil => rfl
  | cons header headers ih =>
      rw [List.map_cons, chainWork_cons] at small ⊢
      rw [workSum_cons, BitVec.toNat_add, ih (by omega)]
      exact Nat.mod_eq_of_lt small

end Chain

/-- What relayed headers do to the chain: they replace its end, above a header that the
queue holds, and carry more work than what they replace. -/
structure Replaces (host : Host) (store : HeaderStore) (headers : List WrappedHeader)
    (chain after : List WrappedHeader) : Prop where
  split : ∃ kept removed, chain = kept ++ removed ∧ after = kept ++ headers ∧
    chain.length < store.headers.length + kept.length ∧
    (chainWork host removed < 2 ^ 256 → chainWork host headers < 2 ^ 256 →
      chainWork host chain < chainWork host after)

theorem Descends.add {store after : HeaderStore} {chain headers : List WrappedHeader}
    (descends : Descends host store chain) (valid : Chain host store.headers)
    (added : HeaderQueue.add host store headers = .ok after) :
    Descends host after (attach chain headers) ∧
      Replaces host store headers chain (attach chain headers) := by
  obtain ⟨first, rest, kept, verified, _, _, rfl, removal, ⟨prevHeader, got, nonzero, looped⟩,
    moreWork, rfl⟩ := add_ok added
  obtain ⟨removed, split, removedEq, keptEq, below, -⟩ := removeReplaced_ok removal
  have keptValid : Chain host kept.headers := by
    rw [split] at valid
    exact valid.of_prefix
  have keptLast := keptValid.getByHeight_last got (by omega)
  have verifiedValid := keptValid.verifyAndAddLoop ⟨prevHeader, keptLast, rfl⟩ looped
  obtain ⟨newHeaders, verifiedEq, newEq, addedEq, configEq⟩ := verifyAndAddLoop_headers looped
  have verifiedBuilds := verifiedValid.builds
  rw [verifiedEq, List.map_append, newEq] at verifiedBuilds
  obtain ⟨-, newBuilds, junction⟩ := List.isChain_append.mp verifiedBuilds
  -- The chain without what is replaced ends with the header that the new ones build on.
  obtain ⟨pruned, chainEq⟩ := descends.suffix
  rw [split, List.map_append, ← List.append_assoc] at chainEq
  have keptMapLast : (kept.headers.map WorkHeader.header).getLast? = some prevHeader.header := by
    rw [List.getLast?_map, keptLast, Option.map_some]
  have beforeLast : (pruned ++ kept.headers.map WorkHeader.header).getLast? =
      some prevHeader.header := by
    rw [List.getLast?_append, keptMapLast, Option.some_or]
  have buildsOn := junction prevHeader.header keptMapLast first rfl
  have chainBuilds := descends.builds
  rw [← chainEq] at chainBuilds
  have attached : attach chain (first :: rest) =
      pruned ++ kept.headers.map WorkHeader.header ++ first :: rest := by
    rw [← chainEq]
    exact attach_eq chainBuilds beforeLast buildsOn.height_eq
  have keptPositive : 0 < kept.headers.length :=
    List.length_pos_of_mem (List.mem_of_getLast? keptLast)
  rw [attached]
  refine ⟨⟨?_, ?_, ?_⟩, ⟨_, _, chainEq.symm, rfl, ?_, ?_⟩⟩
  · have sameConfig : verified.config = store.config := by rw [configEq, keptEq]
    have nonempty : pruned ++ kept.headers.map WorkHeader.header ≠ [] := by
      intro empty
      rw [empty] at beforeLast
      cases beforeLast
    have trusted := descends.trusted
    rw [← chainEq, List.head?_append_of_ne_nil _ nonempty] at trusted
    rw [List.head?_append_of_ne_nil _ nonempty, trusted, sameConfig]
  · refine (List.IsChain.left_of_append chainBuilds).append newBuilds ?_
    intro last isLast next isNext
    obtain rfl := Option.some.inj (beforeLast.symm.trans isLast)
    obtain rfl := Option.some.inj isNext
    exact buildsOn
  · rw [verifiedEq, List.map_drop, List.map_append, newEq, List.append_assoc]
    exact (List.drop_suffix _ _).trans (List.suffix_append _ _)
  · have lengthEq := congrArg List.length chainEq
    simp only [List.length_append, List.length_map] at lengthEq ⊢
    rw [split, List.length_append]
    omega
  · intro removedSmall addedSmall
    rw [← chainEq, chainWork_append _ (removed.map WorkHeader.header),
      chainWork_append _ (first :: rest)]
    apply Nat.add_lt_add_left
    rw [removedEq, addedEq, zero_add] at moreWork
    rw [← newEq] at addedSmall ⊢
    rw [← workSum_toNat removedSmall, ← workSum_toNat addedSmall]
    exact BitVec.lt_def.mp moreWork

/-- In every run the queue is the end of a chain of headers from the trusted one, and
every further call that succeeds replaces the end of that chain by one with more
work, above the oldest header of the queue. -/
theorem run_descends_from_trusted (host : Host) {config : HeaderConfig} {calls : List Call} :
    let store := (machine host).run (configure host config) calls
    let chain := (((machine host).observed observeChain).run
      (configure host config, [⟨config.trustedHeight, config.trustedHeader⟩]) calls).2
    Descends host store chain ∧
      ∀ headers after, HeaderQueue.add host store headers = .ok after →
        Descends host after (attach chain headers) ∧
          Replaces host store headers chain (attach chain headers) := by
  have preserve (store : HeaderStore) (chain : List WrappedHeader) (call : Call)
      (after : HeaderStore) (holds : Descends host store chain ∧ Chain host store.headers)
      (called : (machine host).call store call = .ok after) :
      Descends host after (observeChain store call after chain) ∧ Chain host after.headers := by
    cases call with
    | configure config =>
        obtain rfl := Except.ok.inj called
        exact ⟨⟨rfl, List.isChain_singleton _, List.suffix_refl _⟩, chain_configure config⟩
    | add headers => exact ⟨(holds.1.add holds.2 called).1, (holds.2.add called).1⟩
  have holds := CallMachine.observed_invariant
    (fun store chain => Descends host store chain ∧ Chain host store.headers)
    (fun store chain call after holds _ called => preserve store chain call after holds called)
    ⟨⟨rfl, List.isChain_singleton _, List.suffix_refl _⟩, chain_configure config⟩
    ((machine host).permitted_all (configure host config) calls)
  exact ⟨holds.1, fun headers after added => holds.1.add holds.2 added⟩

end HeaderQueue

end CwBitcoin
