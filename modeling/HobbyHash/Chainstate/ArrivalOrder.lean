import HobbyHash.Chainstate.Linking

/-! # The order in which block data arrives

A header tree whose blocks receive their data one after the other. The counts and
the pairs that wait are stated from the list of arrivals alone, so they cannot
depend on its order. `nChainTx` is an `unsigned int`: the counts are right exactly
as long as no complete branch holds 2 ^ 32 transactions or none at all.
-/

namespace HobbyHash

open CBlockIndex List

namespace ChainstateManager

/-- A call of `ReceivedBlockTransactions`. -/
structure DataArrival where
  block : CBlock
  pindex : CBlockIndex
  pos : FlatFilePos

variable {b tip : CBlockIndex} {rest : List DataArrival} {a : DataArrival}

/-- Headers without data: what `AddToBlockIndex` builds. -/
structure HeaderTree (s : ChainstateManager) : Prop where
  closed : ∀ p f, child p f ∈ s.blocks → p ∈ s.blocks
  valid : ∀ b ∈ s.blocks, (s.nStatus b).isValid .tree = true
  noData : ∀ b ∈ s.blocks, ¬ s.Received b ∧ (s.entry b).nTx = 0 ∧ ¬ s.Linked b
  noPairs : s.blocksUnlinked = []

def receiveAll (env : IndexEnv) (s : ChainstateManager) (arrivals : List DataArrival) :
    ChainstateManager :=
  arrivals.foldl (fun s a => s.receivedBlockTransactions env a.block a.pindex a.pos) s

variable (arrivals : List DataArrival)

def Arrived (b : CBlockIndex) : Prop :=
  ∃ a ∈ arrivals, a.pindex = b

def txCount (b : CBlockIndex) : Nat :=
  ((arrivals.filter (·.pindex = b)).map (·.block.vtx.length)).sum

/-- The number of transactions that arrived for a branch. -/
def pathTx (arrivals : List DataArrival) : CBlockIndex → Nat
  | .genesis f => txCount arrivals (.genesis f)
  | .child p f => pathTx arrivals p + txCount arrivals (.child p f)

def PathArrived (b : CBlockIndex) : Prop :=
  ∀ a, Ancestor a b → Arrived arrivals a

/-- The index is linked as the arrivals demand. -/
structure LinkedAs (s : ChainstateManager) (arrivals : List DataArrival) : Prop where
  nonzero : ∀ b ∈ s.blocks, (s.entry b).nChainTx ≠ 0 ↔ PathArrived arrivals b
  count : ∀ b ∈ s.blocks, PathArrived arrivals b → (s.entry b).nChainTx = pathTx arrivals b
  pairs : ∀ p b, (p, b) ∈ s.blocksUnlinked ↔
    Arrived arrivals b ∧ b.pprev = some p ∧ (s.entry p).nChainTx = 0
  once : s.blocksUnlinked.Nodup

theorem headerTree_addToBlockIndex {s : ChainstateManager} (tree : s.HeaderTree)
    (block : CBlockHeader) : (s.addToBlockIndex env block).1.HeaderTree := by
  simp only [addToBlockIndex]
  split
  · exact tree
  constructor
  case closed =>
    intro p f mem
    obtain old | new := (mem_blocks_addNew _).mp mem
    · exact known_addNew (tree.closed p f old)
    · exact known_addNew (newBlockIndex_pprev env s new.symm)
  case valid =>
    intro b mem
    by_cases same : b = s.newBlockIndex env block
    · rw [nStatus, same, entry_addNew_self]
      rfl
    · rw [nStatus, entry_addNew_of_ne _ same]
      exact tree.valid b (((mem_blocks_addNew _).mp mem).resolve_right same)
  case noData =>
    intro b mem
    by_cases same : b = s.newBlockIndex env block
    · rw [Received, Linked, nStatus, same, entry_addNew_self]
      exact ⟨by decide, rfl, by simp⟩
    · rw [Received, Linked, nStatus, entry_addNew_of_ne _ same]
      exact tree.noData b (((mem_blocks_addNew _).mp mem).resolve_right same)
  case noPairs => exact tree.noPairs

section Arrivals

variable {arrivals order : List DataArrival} {b : CBlockIndex}

theorem arrived_perm (same : order.Perm arrivals) : Arrived order b ↔ Arrived arrivals b := by
  simp only [Arrived, same.mem_iff]

theorem txCount_perm (same : order.Perm arrivals) : txCount order b = txCount arrivals b :=
  ((same.filter _).map _).sum_eq

theorem pathTx_perm (same : order.Perm arrivals) : pathTx order b = pathTx arrivals b := by
  induction b with
  | genesis f => exact txCount_perm same
  | child p f ih => rw [pathTx, pathTx, ih, txCount_perm same]

theorem txCount_append (done rest : List DataArrival) :
    txCount (done ++ rest) b = txCount done b + txCount rest b := by
  simp only [txCount, filter_append, map_append, sum_append]

theorem txCount_eq_zero (absent : ¬ Arrived arrivals b) : txCount arrivals b = 0 := by
  have none : arrivals.filter (·.pindex = b) = [] := by
    refine filter_eq_nil_iff.mpr fun a mem isB => absent ⟨a, mem, of_decide_eq_true isB⟩
  rw [txCount, none]
  rfl

theorem txCount_le_pathTx {a} (lt : Ancestor a b) :
    txCount arrivals a ≤ pathTx arrivals b := by
  induction lt with
  | refl => cases a <;> simp only [pathTx, le_refl, Nat.le_add_left]
  | step _ ih => exact ih.trans (Nat.le_add_right _ _)

end Arrivals

section Run

variable {env : IndexEnv} {s : ChainstateManager} {arrivals done : List DataArrival}

structure AfterArrivals (s : ChainstateManager) (done : List DataArrival) : Prop where
  link : LinkState s []
  valid : ∀ b ∈ s.blocks, (s.nStatus b).isValid .tree = true
  received : ∀ b ∈ s.blocks, s.Received b ↔ Arrived done b
  nTx : ∀ b ∈ s.blocks, (s.entry b).nTx = txCount done b % uintModulus

theorem AfterArrivals.start (tree : s.HeaderTree) : AfterArrivals s [] where
  link :=
    { closed := tree.closed
      counted := fun b known linked => absurd linked (tree.noData b known).2.2
      parent := fun p f known linked => absurd linked (tree.noData _ known).2.2
      ready := by rintro b ⟨⟩
      queueNodup := nodup_nil
      waits := by rw [tree.noPairs]; rintro p b ⟨⟩
      stored := fun b known received => absurd received (tree.noData b known).1
      unlinkedNodup := by rw [tree.noPairs]; exact nodup_nil }
  valid := tree.valid
  received := by
    intro b known
    refine iff_of_false (tree.noData b known).1 ?_
    rintro ⟨a, ⟨⟩, -⟩
  nTx := fun b known => (tree.noData b known).2.1

theorem totalTx_eq_pathTx (same : ∀ a, Ancestor a b → (s.entry a).nTx = txCount arrivals a) :
    s.totalTx b = pathTx arrivals b := by
  induction b with
  | genesis f => exact same _ .refl
  | child p f ih => rw [totalTx, pathTx, ih fun a lt => same a (.step lt), same _ .refl]

theorem pathArrived_append (rest : List DataArrival) (path : PathArrived done b) :
    PathArrived (done ++ rest) b := by
  intro a lt
  obtain ⟨arrival, mem, isA⟩ := path a lt
  exact ⟨arrival, mem_append_left _ mem, isA⟩

/-- Complete branches hold a number of transactions that an `unsigned int` can
    tell from none. -/
def Fitting (s : ChainstateManager) (arrivals : List DataArrival) : Prop :=
  ∀ b ∈ s.blocks, PathArrived arrivals b →
    0 < pathTx arrivals b ∧ pathTx arrivals b < uintModulus

theorem arrived_concat :
    Arrived (done ++ [a]) b ↔ b = a.pindex ∨ Arrived done b := by
  simp only [Arrived, mem_append, mem_singleton]
  constructor
  · rintro ⟨arrival, old | rfl, isB⟩
    · exact .inr ⟨arrival, old, isB⟩
    · exact .inl isB.symm
  · rintro (rfl | ⟨arrival, old, isB⟩)
    · exact ⟨a, .inr rfl, rfl⟩
    · exact ⟨arrival, .inl old, isB⟩

theorem txCount_singleton (a : DataArrival) (b : CBlockIndex) :
    txCount [a] b = if b = a.pindex then a.block.vtx.length else 0 := by
  by_cases same : a.pindex = b
  · simp [txCount, same]
  · simp [txCount, same, Ne.symm same]

theorem not_arrived_rest (ne : ((done ++ rest).map (·.pindex)).Nodup)
    (before : Arrived done b) :
    ¬ Arrived rest b := by
  rw [map_append] at ne
  rintro ⟨later, inRest, isB⟩
  obtain ⟨earlier, inDone, isB'⟩ := before
  exact (nodup_append.mp ne).2.2 _ (mem_map_of_mem inDone) _
    (mem_map_of_mem inRest) (isB'.trans isB.symm)

theorem AfterArrivals.step (after : AfterArrivals s done)
    (ne : ((done ++ a :: rest).map (·.pindex)).Nodup) (known : a.pindex ∈ s.blocks)
    (fits : s.Fitting (done ++ a :: rest)) :
    AfterArrivals (s.receivedBlockTransactions env a.block a.pindex a.pos) (done ++ [a]) := by
  have split : done ++ a :: rest = (done ++ [a]) ++ rest := append_cons ..
  have fresh : ¬ Arrived done a.pindex := fun before =>
    not_arrived_rest ne before ⟨a, mem_cons_self, rfl⟩
  have receivable : s.Receivable a.pindex :=
    { known := known
      fresh := fun received => fresh ((after.received _ known).mp received)
      parent := by
        intro p isParent
        refine .inr (after.valid p ?_)
        obtain ⟨f, same⟩ := pprev_eq_some.mp isParent
        exact after.link.closed p f (same ▸ known) }
  have received : ∀ b ∈ s.blocks,
      (s.storeData env a.block a.pindex a.pos).Received b ↔ Arrived (done ++ [a]) b := by
    intro b inIdx
    rw [received_storeData, arrived_concat, after.received b inIdx]
  have nTx : ∀ b ∈ s.blocks, ((s.storeData env a.block a.pindex a.pos).entry b).nTx =
      txCount (done ++ [a]) b % uintModulus := by
    intro b inIdx
    rw [txCount_append, txCount_singleton]
    by_cases same : b = a.pindex
    · rw [same, nTx_storeData_self, txCount_eq_zero fresh, if_pos rfl, Nat.zero_add]
    · rw [entry_storeData_of_ne same, after.nTx b inIdx, if_neg same, Nat.add_zero]
  have countable : (s.storeData env a.block a.pindex a.pos).Countable := by
    intro b inIdx complete
    have arrived : PathArrived (done ++ [a]) b := fun x lt =>
      (received x (mem_blocks_of_ancestor after.link.closed inIdx lt)).mp (complete x lt)
    obtain ⟨pos, small⟩ := fits b inIdx (split ▸ pathArrived_append rest arrived)
    have total : (s.storeData env a.block a.pindex a.pos).totalTx b =
        pathTx (done ++ a :: rest) b := by
      refine totalTx_eq_pathTx fun x lt => ?_
      have later : ¬ Arrived rest x := not_arrived_rest (split ▸ ne) (arrived x lt)
      have all : txCount (done ++ a :: rest) x = txCount (done ++ [a]) x := by
        rw [split, txCount_append _ rest, txCount_eq_zero later, Nat.add_zero]
      rw [nTx x (mem_blocks_of_ancestor after.link.closed inIdx lt), ← all]
      exact Nat.mod_eq_of_lt ((txCount_le_pathTx lt).trans_lt small)
    rw [total, Nat.mod_eq_of_lt small]
    omega
  have relinked := @relinked_received env s a.block a.pindex a.pos
  constructor
  case link => exact after.link.receivedBlockTransactions receivable countable
  case valid =>
    intro b inIdx
    rw [relinked.blocks] at inIdx
    rw [relinked.nStatus]
    exact isValid_storeData (after.valid b inIdx)
  case received =>
    intro b inIdx
    rw [relinked.blocks] at inIdx
    rw [relinked.received]
    exact received b inIdx
  case nTx =>
    intro b inIdx
    rw [relinked.blocks] at inIdx
    rw [relinked.nTx]
    exact nTx b inIdx

theorem blocks_receiveAll (s : ChainstateManager) (arrivals : List DataArrival) :
    (receiveAll env s arrivals).blocks = s.blocks := by
  induction arrivals generalizing s with
  | nil => rfl
  | cons a rest ih => exact (ih _).trans relinked_received.blocks

theorem AfterArrivals.run (after : AfterArrivals s done)
    (ne : ((done ++ rest).map (·.pindex)).Nodup) (known : ∀ a ∈ rest, a.pindex ∈ s.blocks)
    (fits : s.Fitting (done ++ rest)) : AfterArrivals (receiveAll env s rest) (done ++ rest) := by
  induction rest generalizing s done with
  | nil => rwa [append_nil]
  | cons a rest ih =>
    have split : done ++ a :: rest = (done ++ [a]) ++ rest := append_cons ..
    have next : AfterArrivals (s.receivedBlockTransactions env a.block a.pindex a.pos)
      (done ++ [a]) :=
      after.step ne (known a mem_cons_self) fits
    rw [split] at ne fits ⊢
    refine ih next ne ?_ ?_
    · intro b mem
      rw [relinked_received.blocks]
      exact known b (mem_cons_of_mem _ mem)
    · intro b mem
      rw [relinked_received.blocks] at mem
      exact fits b mem

theorem AfterArrivals.linkedAs (after : AfterArrivals s arrivals) (fits : s.Fitting arrivals)
    (known : ∀ a ∈ arrivals, a.pindex ∈ s.blocks) : LinkedAs s arrivals := by
  have complete : ∀ b ∈ s.blocks, s.Complete b ↔ PathArrived arrivals b := fun b inIdx =>
    forall₂_congr fun a lt => after.received a (mem_blocks_of_ancestor after.link.closed inIdx lt)
  constructor
  case nonzero =>
    intro b inIdx
    exact (after.link.linked_iff inIdx).trans (complete b inIdx)
  case count =>
    intro b inIdx arrived
    have linked := (after.link.linked_iff inIdx).mpr ((complete b inIdx).mpr arrived)
    obtain ⟨-, small⟩ := fits b inIdx arrived
    have total : s.totalTx b = pathTx arrivals b := by
      refine totalTx_eq_pathTx fun a lt => ?_
      rw [after.nTx a (mem_blocks_of_ancestor after.link.closed inIdx lt)]
      exact Nat.mod_eq_of_lt ((txCount_le_pathTx lt).trans_lt small)
    rw [(after.link.complete inIdx linked).2, total, Nat.mod_eq_of_lt small]
  case pairs =>
    intro p b
    rw [after.link.mem_blocksUnlinked]
    constructor
    · rintro ⟨inIdx, isParent, received, unlinked⟩
      exact ⟨(after.received b inIdx).mp received, isParent, not_not.mp unlinked⟩
    · rintro ⟨arrived, isParent, unlinked⟩
      obtain ⟨a, mem, rfl⟩ := arrived
      have inIdx := known a mem
      exact ⟨inIdx, isParent, (after.received _ inIdx).mpr ⟨a, mem, rfl⟩, not_not.mpr unlinked⟩
  case once => exact after.link.unlinkedNodup

variable (small : (s.entry b).nChainTx < uintModulus)
include small

theorem nChainTx_received_lt :
    ((s.receivedBlockTransactions env a.block a.pindex a.pos).entry b).nChainTx < uintModulus := by
  have lt : ((s.storeData env a.block a.pindex a.pos).entry b).nChainTx < uintModulus := by
    by_cases same : b = a.pindex
    · rw [same, nChainTx_storeData_self]
      exact Nat.two_pow_pos 32
    · rwa [entry_storeData_of_ne same]
  refine received_induction (fun after => (after.entry b).nChainTx < uintModulus)
    (fun after pindex kept => ?_) fun _ => lt
  change ((after.linkBlock env pindex).entry b).nChainTx < uintModulus
  by_cases same : b = pindex
  · rw [same, entry_linkBlock_self]
    exact Nat.mod_lt _ (Nat.two_pow_pos 32)
  · rwa [entry_linkBlock_of_ne _ _ _ same]

theorem nChainTx_receiveAll_lt :
    ((receiveAll env s arrivals).entry b).nChainTx < uintModulus := by
  induction arrivals generalizing s with
  | nil => exact small
  | cons a rest ih => exact ih (nChainTx_received_lt small)

end Run

/-- In whatever order the data arrives, the index is linked as the arrivals demand
    and all counts are the same. -/
def OrderIndependent (env : IndexEnv) (s : ChainstateManager)
    (arrivals : List DataArrival) : Prop :=
  ∀ order, order.Perm arrivals →
    LinkedAs (receiveAll env s order) arrivals ∧
    ∀ b ∈ s.blocks, ((receiveAll env s order).entry b).nChainTx =
      ((receiveAll env s arrivals).entry b).nChainTx

section Order

variable {env : IndexEnv} {s : ChainstateManager} {arrivals order : List DataArrival}

theorem linkedAs_receiveAll (tree : s.HeaderTree) (same : order.Perm arrivals)
    (ne : (arrivals.map (·.pindex)).Nodup) (known : ∀ a ∈ arrivals, a.pindex ∈ s.blocks)
    (fits : s.Fitting arrivals) : LinkedAs (receiveAll env s order) arrivals := by
  have distinctOrder : (([] ++ order).map DataArrival.pindex).Nodup :=
    (same.map _).nodup_iff.mpr ne
  have knownOrder : ∀ a ∈ order, a.pindex ∈ s.blocks := fun a mem =>
    known a (same.mem_iff.mp mem)
  have pathOrder (b : CBlockIndex) : PathArrived order b ↔ PathArrived arrivals b :=
    forall₂_congr fun a _ => arrived_perm same
  have fitsOrder : s.Fitting order := by
    intro b inIdx arrived
    rw [pathTx_perm same]
    exact fits b inIdx ((pathOrder b).mp arrived)
  have after : AfterArrivals (receiveAll env s order) order :=
    (AfterArrivals.start tree).run distinctOrder knownOrder fitsOrder
  have linked := after.linkedAs (by rw [Fitting, blocks_receiveAll]; exact fitsOrder)
    (by rw [blocks_receiveAll]; exact knownOrder)
  exact
    { nonzero := fun b inIdx => (linked.nonzero b inIdx).trans (pathOrder b)
      count := fun b inIdx arrived =>
        (linked.count b inIdx ((pathOrder b).mpr arrived)).trans (pathTx_perm same)
      pairs := fun p b => by rw [linked.pairs p b, arrived_perm same]
      once := linked.once }

/-- The order of arrival does not matter exactly when no complete branch holds
    2 ^ 32 transactions or more, or none. -/
theorem orderIndependent_iff (tree : s.HeaderTree) (distinct : (arrivals.map (·.pindex)).Nodup)
    (known : ∀ a ∈ arrivals, a.pindex ∈ s.blocks) :
    OrderIndependent env s arrivals ↔
      ∀ b ∈ s.blocks, PathArrived arrivals b →
        0 < pathTx arrivals b ∧ pathTx arrivals b < uintModulus := by
  constructor
  · intro independent b inIndex arrived
    obtain ⟨linked, -⟩ := independent arrivals (List.Perm.refl _)
    have inIndex' : b ∈ (receiveAll env s arrivals).blocks := by rwa [blocks_receiveAll]
    have nonzero := (linked.nonzero b inIndex').mpr arrived
    have start : (s.entry b).nChainTx < uintModulus := by
      rw [not_not.mp (tree.noData b inIndex).2.2]
      exact Nat.two_pow_pos 32
    have small : ((receiveAll env s arrivals).entry b).nChainTx < uintModulus :=
      nChainTx_receiveAll_lt start
    rw [linked.count b inIndex' arrived] at nonzero small
    exact ⟨Nat.pos_of_ne_zero nonzero, small⟩
  · intro fits reordered same
    have linked : LinkedAs (receiveAll env s reordered) arrivals :=
      linkedAs_receiveAll tree same distinct known fits
    have reference : LinkedAs (receiveAll env s arrivals) arrivals :=
      linkedAs_receiveAll tree (List.Perm.refl arrivals) distinct known fits
    refine ⟨linked, fun b inIndex => ?_⟩
    have inLinked : b ∈ (receiveAll env s reordered).blocks := by rwa [blocks_receiveAll]
    have inReference : b ∈ (receiveAll env s arrivals).blocks := by rwa [blocks_receiveAll]
    by_cases arrived : PathArrived arrivals b
    · rw [linked.count b inLinked arrived, reference.count b inReference arrived]
    · rw [not_not.mp (mt (linked.nonzero b inLinked).mp arrived),
        not_not.mp (mt (reference.nonzero b inReference).mp arrived)]

/-- A block and its child whose data arrives before that of the first block. -/
def exampleTree : ChainstateManager :=
  (((empty.addToBlockIndex exampleEnv (exampleHeader 1 0)).1.addToBlockIndex exampleEnv
    (exampleHeader 2 1)).1.addToBlockIndex exampleEnv (exampleHeader 3 2)).1

def exampleArrival (pindex : CBlockIndex) (count : Nat) : DataArrival :=
  ⟨{ exampleHeader 0 0 with vtx := List.replicate count ⟨[], [], 1, 0⟩ }, pindex, ⟨0, 8⟩⟩

def exampleArrivals : List DataArrival :=
  let first := CBlockIndex.genesis (exampleFields 1)
  let second := CBlockIndex.child first (exampleFields 2)
  [exampleArrival (.child second (exampleFields 3)) 2, exampleArrival second 1,
    exampleArrival first 4]

theorem headerTree_exampleTree : exampleTree.HeaderTree := by
  refine headerTree_addToBlockIndex (headerTree_addToBlockIndex (headerTree_addToBlockIndex ?_ _) _) _
  constructor
  · rintro p f ⟨⟩
  · rintro b ⟨⟩
  · rintro b ⟨⟩
  · rfl

theorem orderIndependent_exampleTree :
    OrderIndependent exampleEnv exampleTree exampleArrivals := by
  have fits : ∀ b ∈ exampleTree.blocks,
      0 < pathTx exampleArrivals b ∧ pathTx exampleArrivals b < uintModulus := by decide +kernel
  exact (orderIndependent_iff headerTree_exampleTree (by decide +kernel) (by decide +kernel)).mpr
    fun b inIndex _ => fits b inIndex

def uniformBranch : Nat → CBlockIndex
  | 0 => .genesis (exampleFields 1)
  | n + 1 => .child (uniformBranch n) (exampleFields 1)

theorem nHeight_uniformBranch (n : Nat) : (uniformBranch n).nHeight = n := by
  induction n with
  | zero => rfl
  | succ n ih => rw [uniformBranch, nHeight_child, ih]

theorem nodup_path (b : CBlockIndex) : b.path.Nodup := by
  induction b with
  | genesis f => exact nodup_singleton _
  | child p f ih =>
    refine nodup_append.mpr ⟨ih, nodup_singleton _, ?_⟩
    rintro a lt _ last rfl
    have height := (mem_path.mp lt).nHeight_le
    rw [mem_singleton.mp last, nHeight_child] at height
    omega

def uniformArrivals (tip : CBlockIndex) (count : Nat) : List DataArrival :=
  tip.path.map fun b => exampleArrival b count

theorem pindex_uniformArrivals (tip : CBlockIndex) (count : Nat) :
    (uniformArrivals tip count).map (·.pindex) = tip.path := by
  simp only [uniformArrivals, map_map]
  exact map_id _

theorem txCount_uniformArrivals (lt : Ancestor b tip) (count : Nat) :
    txCount (uniformArrivals tip count) b = count := by
  have only : (tip.path.filter fun a => decide (a = b)) = [b] := by
    have once := count_eq_one_of_mem (nodup_path tip) (mem_path.mpr lt)
    rw [← replicate_one, ← once, ← filter_eq]
  have lengths : (fun a => decide (a.pindex = b)) ∘ (fun a => exampleArrival a count) =
      fun a => decide (a = b) := rfl
  rw [txCount, uniformArrivals, filter_map, lengths, only]
  simp [exampleArrival]

theorem pathTx_uniformArrivals (lt : Ancestor b tip) (count : Nat) :
    pathTx (uniformArrivals tip count) b = (b.nHeight + 1) * count := by
  induction b with
  | genesis f => rw [pathTx, txCount_uniformArrivals lt, nHeight_genesis, Nat.zero_add, Nat.one_mul]
  | child p f ih =>
    rw [pathTx, txCount_uniformArrivals lt, ih (Ancestor.trans (.step .refl) lt), nHeight_child]
    ring

/-- 2 ^ 18 blocks of 2 ^ 14 transactions, which fit into blocks of the largest
    weight, are more than `nChainTx` of the last block can count. -/
theorem nChainTx_wraps :
    let tip := uniformBranch (2 ^ 18 - 1)
    let arrivals := uniformArrivals tip (2 ^ 14)
    let tree := { empty with
      blocks := tip.path, entry := fun _ => { nStatus := { validity := .tree } } }
    tree.HeaderTree ∧ (arrivals.map (·.pindex)).Nodup ∧
      PathArrived arrivals tip ∧ pathTx arrivals tip = 2 ^ 32 ∧
      ¬ LinkedAs (receiveAll exampleEnv tree arrivals) arrivals := by
  intro tip arrivals tree
  have isTree : tree.HeaderTree :=
    { closed := fun p f member => mem_path.mpr (Ancestor.trans (.step .refl) (mem_path.mp member))
      valid := fun _ _ => rfl
      noData := fun _ _ => ⟨Bool.false_ne_true, rfl, fun linked => linked rfl⟩
      noPairs := rfl }
  have distinct : (arrivals.map (·.pindex)).Nodup := by
    rw [show arrivals.map (·.pindex) = tip.path from pindex_uniformArrivals ..]
    exact nodup_path tip
  have arrived : PathArrived arrivals tip := fun a below =>
    ⟨exampleArrival a (2 ^ 14), mem_map_of_mem (mem_path.mpr below), rfl⟩
  have total : pathTx arrivals tip = 2 ^ 32 := by
    rw [pathTx_uniformArrivals .refl, nHeight_uniformBranch]
    rfl
  refine ⟨isTree, distinct, arrived, total, fun linked => ?_⟩
  have inIndex : tip ∈ (receiveAll exampleEnv tree arrivals).blocks := by
    rw [blocks_receiveAll]
    exact mem_path.mpr .refl
  have small : ((receiveAll exampleEnv tree arrivals).entry tip).nChainTx < uintModulus :=
    nChainTx_receiveAll_lt (Nat.two_pow_pos 32)
  rw [linked.count tip inIndex arrived, total, uintModulus] at small
  exact lt_irrefl _ small

end Order

end ChainstateManager

end HobbyHash
