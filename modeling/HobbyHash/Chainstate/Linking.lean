import HobbyHash.Chainstate.Index

/-! # Linking blocks to the first block

`ReceivedBlockTransactions` gives a block its `nChainTx` as soon as the data of the
whole branch below it has arrived. `LinkState` is what holds between two rounds
of its queue: it speaks about a block and its parent only, and the counts of
whole branches follow by induction on the branch when the queue is empty.
-/

namespace HobbyHash

open CBlockIndex List

variable {b a p : CBlockIndex} {s' : ChainstateManager}

namespace ChainstateManager

variable {env : IndexEnv} {s : ChainstateManager} {queue : List CBlockIndex}

def Received (s : ChainstateManager) (b : CBlockIndex) : Prop := (s.nStatus b).haveData = true

/-- `HaveNumChainTxs` as a proposition. -/
def Linked (s : ChainstateManager) (b : CBlockIndex) : Prop := (s.entry b).nChainTx ≠ 0

theorem haveNumChainTxs_iff : s.haveNumChainTxs b = true ↔ s.Linked b :=
  bne_iff_ne

/-- The data of a block and of all its ancestors has arrived. -/
def Complete (s : ChainstateManager) (b : CBlockIndex) : Prop := ∀ a, Ancestor a b → s.Received a

/-- The sum of `nTx` over the branch that ends in a block. -/
def totalTx (s : ChainstateManager) : CBlockIndex → Nat
  | .genesis f => (s.entry (.genesis f)).nTx
  | .child p f => s.totalTx p + (s.entry (.child p f)).nTx

theorem complete_child :
    s.Complete (child p f) ↔ s.Complete p ∧ s.Received (child p f) := by
  constructor
  · intro complete
    exact ⟨fun a lt => complete a (.step lt), complete _ .refl⟩
  · rintro ⟨parent, here⟩ a lt
    cases lt with
    | refl => exact here
    | step lt => exact parent a lt

theorem pprev_eq_some : b.pprev = some p ↔ ∃ f, b = child p f := by
  cases b <;> simp [CBlockIndex.pprev]

theorem prevChainTx_congr
    (same : ∀ p, b.pprev = some p → (s'.entry p).nChainTx = (s.entry p).nChainTx) :
    s'.prevChainTx b = s.prevChainTx b := by
  simp only [prevChainTx]
  cases isParent : b.pprev with
  | none => rfl
  | some p => exact same p isParent

theorem complete_of_parent (recv : s.Received b)
    (parent : ∀ p, b.pprev = some p → s.Complete p ∧
      (s.entry p).nChainTx = s.totalTx p % uintModulus) :
    s.Complete b ∧
      (s.prevChainTx b + (s.entry b).nTx) % uintModulus = s.totalTx b % uintModulus := by
  cases b with
  | genesis f =>
    refine ⟨?_, by rw [prevChainTx, CBlockIndex.pprev, totalTx, Nat.zero_add]⟩
    intro a lt
    cases lt with
    | refl => exact recv
  | child p f =>
    obtain ⟨complete, count⟩ := parent p rfl
    refine ⟨complete_child.mpr ⟨complete, recv⟩, ?_⟩
    rw [prevChainTx, CBlockIndex.pprev, totalTx]
    simp only [count, Nat.mod_add_mod]

theorem totalTx_congr (same : ∀ a, (s'.entry a).nTx = (s.entry a).nTx) (b : CBlockIndex) :
    s'.totalTx b = s.totalTx b := by
  induction b with
  | genesis f => exact same _
  | child p f ih => rw [totalTx, totalTx, ih, same]

theorem mem_blocks_of_ancestor (closed : ∀ p f, child p f ∈ s.blocks → p ∈ s.blocks)
    (mem : b ∈ s.blocks) (lt : Ancestor a b) : a ∈ s.blocks := by
  induction lt with
  | refl => exact mem
  | step _ ih => exact ih (closed _ _ mem)

/-- What the queue of `ReceivedBlockTransactions` keeps: linked blocks are counted
    on top of their parents, the queue holds blocks that can be linked now, and
    every other received block waits for its parent. -/
structure LinkState (s : ChainstateManager) (queue : List CBlockIndex) : Prop where
  closed : ∀ p f, child p f ∈ s.blocks → p ∈ s.blocks
  counted : ∀ b ∈ s.blocks, s.Linked b →
    s.Received b ∧ (s.entry b).nChainTx = (s.prevChainTx b + (s.entry b).nTx) % uintModulus
  parent : ∀ p f, child p f ∈ s.blocks → s.Linked (child p f) → s.Linked p
  ready : ∀ b ∈ queue, b ∈ s.blocks ∧ s.Received b ∧ ¬ s.Linked b ∧
    ∀ p, b.pprev = some p → s.Linked p
  queueNodup : queue.Nodup
  waits : ∀ p b, (p, b) ∈ s.blocksUnlinked →
    b ∈ s.blocks ∧ b.pprev = some p ∧ s.Received b ∧ ¬ s.Linked p
  stored : ∀ b ∈ s.blocks, s.Received b → s.Linked b ∨ b ∈ queue ∨
    ∃ p, b.pprev = some p ∧ (p, b) ∈ s.blocksUnlinked
  unlinkedNodup : s.blocksUnlinked.Nodup

/-- No complete branch has a number of transactions that is zero as an
    `unsigned int`. -/
def Countable (s : ChainstateManager) : Prop :=
  ∀ b ∈ s.blocks, s.Complete b → s.totalTx b % uintModulus ≠ 0

namespace LinkState

theorem complete (state : LinkState s queue) (mem : b ∈ s.blocks) (linked : s.Linked b) :
    s.Complete b ∧ (s.entry b).nChainTx = s.totalTx b % uintModulus := by
  obtain ⟨recv, count⟩ := state.counted _ mem linked
  rw [count]
  induction b with
  | genesis f => exact complete_of_parent recv nofun
  | child p f ih =>
    refine complete_of_parent recv fun q isParent => ?_
    cases isParent
    have lt := state.closed p f mem
    have parentLinked := state.parent p f mem linked
    obtain ⟨parentReceived, parentCount⟩ := state.counted p lt parentLinked
    rw [parentCount]
    exact ih lt parentLinked parentReceived parentCount

theorem linked_iff (state : LinkState s []) (mem : b ∈ s.blocks) :
    s.Linked b ↔ s.Complete b := by
  constructor
  · exact fun linked => (state.complete mem linked).1
  · intro complete
    induction b with
    | genesis f =>
      obtain linked | impossible | ⟨p, absent, -⟩ := state.stored _ mem (complete _ .refl)
      · exact linked
      · cases impossible
      · cases absent
    | child p f ih =>
      obtain ⟨parentComplete, here⟩ := complete_child.mp complete
      obtain linked | impossible | ⟨q, isParent, pair⟩ := state.stored _ mem here
      · exact linked
      · cases impossible
      · cases isParent
        exact absurd (ih (state.closed p f mem) parentComplete) (state.waits _ _ pair).2.2.2

/-- With an empty queue exactly the received blocks on top of blocks that are not
    linked wait, once each. -/
theorem mem_blocksUnlinked (state : LinkState s []) :
    (p, b) ∈ s.blocksUnlinked ↔
      b ∈ s.blocks ∧ b.pprev = some p ∧ s.Received b ∧ ¬ s.Linked p := by
  constructor
  · exact state.waits p b
  · rintro ⟨known, isParent, recv, unlinked⟩
    obtain linked | impossible | ⟨q, isParent', pair⟩ := state.stored b known recv
    · obtain ⟨f, rfl⟩ := pprev_eq_some.mp isParent
      exact absurd (state.parent p f known linked) unlinked
    · cases impossible
    · cases isParent.symm.trans isParent'
      exact pair

end LinkState

/-- Linking blocks writes their counts, their order of arrival and what waits. -/
structure Relinked (s s' : ChainstateManager) : Prop where
  entry : ∀ b, ∃ nChainTx nSequenceId, s'.entry b = { s.entry b with nChainTx, nSequenceId }
  blocks : s'.blocks = s.blocks
  tip : s'.tip = s.tip
  failedBlocks : s'.failedBlocks = s.failedBlocks

namespace Relinked

theorem trans (first : Relinked s s') (second : Relinked s' s'') : Relinked s s'' where
  entry b := by
    obtain ⟨_, _, first⟩ := first.entry b
    obtain ⟨count, order, second⟩ := second.entry b
    exact ⟨count, order, by rw [second, first]⟩
  blocks := second.blocks.trans first.blocks
  tip := second.tip.trans first.tip
  failedBlocks := second.failedBlocks.trans first.failedBlocks

variable (relinked : Relinked s s')
include relinked

theorem nTx (b : CBlockIndex) : (s'.entry b).nTx = (s.entry b).nTx := by
  obtain ⟨_, _, same⟩ := relinked.entry b
  rw [same]

theorem nStatus (b : CBlockIndex) : s'.nStatus b = s.nStatus b := by
  obtain ⟨_, _, same⟩ := relinked.entry b
  rw [ChainstateManager.nStatus, same, ChainstateManager.nStatus]

theorem received : s'.Received b ↔ s.Received b := by
  rw [Received, relinked.nStatus, Received]

theorem countable (countable : s.Countable) : s'.Countable := by
  intro b known complete
  rw [totalTx_congr relinked.nTx]
  exact countable b (relinked.blocks ▸ known) fun a lt => relinked.received.mp (complete a lt)

end Relinked

section LinkBlock

variable (env) (s) (pindex : CBlockIndex)

@[simp] theorem entry_tryAddBlockIndexCandidate :
    (s.tryAddBlockIndexCandidate env pindex).entry = s.entry := by
  simp only [tryAddBlockIndexCandidate]
  split
  · split <;> rfl
  · rfl

theorem entry_linkBlock_self : (s.linkBlock env pindex).entry pindex =
    { s.entry pindex with
      nChainTx := (s.prevChainTx pindex + (s.entry pindex).nTx) % uintModulus
      nSequenceId := s.nBlockSequenceId } := by
  rw [linkBlock, entry_tryAddBlockIndexCandidate]
  exact Function.update_self pindex _ s.entry

theorem entry_linkBlock_of_ne (ne : b ≠ pindex) :
    (s.linkBlock env pindex).entry b = s.entry b := by
  rw [linkBlock, entry_tryAddBlockIndexCandidate]
  exact Function.update_of_ne ne _ s.entry

theorem relinked_linkBlock : Relinked s ((s.linkBlock env pindex).dropWaiting pindex) := by
  have others : (s.linkBlock env pindex).blocks = s.blocks ∧ (s.linkBlock env pindex).tip = s.tip ∧
      (s.linkBlock env pindex).failedBlocks = s.failedBlocks := by
    simp only [linkBlock, tryAddBlockIndexCandidate]
    split
    · split <;> exact ⟨rfl, rfl, rfl⟩
    · exact ⟨rfl, rfl, rfl⟩
  refine ⟨fun b => ?_, others.1, others.2.1, others.2.2⟩
  by_cases same : b = pindex
  · subst same
    exact ⟨_, _, entry_linkBlock_self env s b⟩
  · exact ⟨_, _, entry_linkBlock_of_ne env s pindex same⟩

theorem prevChainTx_linkBlock (other : b.pprev ≠ some pindex) :
    (s.linkBlock env pindex).prevChainTx b = s.prevChainTx b := by
  refine prevChainTx_congr fun p isParent => ?_
  have ne : p ≠ pindex := by
    rintro rfl
    exact other isParent
  rw [entry_linkBlock_of_ne _ _ _ ne]

end LinkBlock

theorem mem_waiting : b ∈ s.waiting p ↔ (p, b) ∈ s.blocksUnlinked := by
  simp only [waiting, mem_map, mem_filter, decide_eq_true_eq, Prod.exists,
    exists_eq_right]

theorem mem_dropWaiting :
    (q, b) ∈ (s.dropWaiting p).blocksUnlinked ↔ (q, b) ∈ s.blocksUnlinked ∧ q ≠ p := by
  simp only [dropWaiting, mem_filter, Bool.not_eq_true', decide_eq_false_iff_not, ne_eq]

theorem pprev_ne_self (isParent : b.pprev = some p) : b ≠ p := by
  obtain ⟨f, rfl⟩ := pprev_eq_some.mp isParent
  intro same
  have height := congrArg CBlockIndex.nHeight same
  rw [nHeight_child] at height
  omega

namespace LinkState

variable {pindex : CBlockIndex}

theorem next_count (state : LinkState s (pindex :: queue)) :
    s.Complete pindex ∧
      (s.prevChainTx pindex + (s.entry pindex).nTx) % uintModulus
      = s.totalTx pindex % uintModulus := by
  obtain ⟨known, recv, -, parents⟩ := state.ready pindex mem_cons_self
  refine complete_of_parent recv fun p isParent => ?_
  obtain ⟨f, rfl⟩ := pprev_eq_some.mp isParent
  exact state.complete (state.closed p f known) (parents p rfl)

theorem linked_linkBlock (env : IndexEnv) (state : LinkState s (pindex :: queue))
    (countable : s.Countable) : (s.linkBlock env pindex).Linked b ↔ b = pindex ∨ s.Linked b := by
  by_cases same : b = pindex
  · subst same
    obtain ⟨complete, count⟩ := state.next_count
    have known := (state.ready b mem_cons_self).1
    have ne := countable b known complete
    simp only [true_or, iff_true, Linked, entry_linkBlock_self, count]
    exact ne
  · simp only [same, false_or, Linked, entry_linkBlock_of_ne _ _ _ same]

section Round

variable (state : LinkState s (pindex :: queue))
include state

theorem unlinked_child (known : b ∈ s.blocks) (isParent : b.pprev = some pindex) :
    ¬ s.Linked b := by
  obtain ⟨f, rfl⟩ := pprev_eq_some.mp isParent
  exact fun linked => (state.ready pindex mem_cons_self).2.2.1 (state.parent _ f known linked)

theorem counted_linkBlock (env : IndexEnv) (known : b ∈ s.blocks)
    (linked : b = pindex ∨ s.Linked b) :
    s.Received b ∧ ((s.linkBlock env pindex).entry b).nChainTx =
      ((s.linkBlock env pindex).prevChainTx b + ((s.linkBlock env pindex).entry b).nTx) %
        uintModulus := by
  by_cases same : b = pindex
  · subst same
    have apart : b.pprev ≠ some b := fun isParent => pprev_ne_self isParent rfl
    rw [prevChainTx_linkBlock env s b apart, entry_linkBlock_self]
    exact ⟨(state.ready b mem_cons_self).2.1, rfl⟩
  · have before := linked.resolve_left same
    obtain ⟨recv, count⟩ := state.counted b known before
    have apart : b.pprev ≠ some pindex :=
      fun isParent => state.unlinked_child known isParent before
    rw [prevChainTx_linkBlock env s pindex apart, entry_linkBlock_of_ne _ _ _ same, count]
    exact ⟨recv, rfl⟩

theorem ready_waiting (mem : b ∈ queue ++ s.waiting pindex) :
    b ∈ s.blocks ∧ s.Received b ∧ ¬ (b = pindex ∨ s.Linked b) ∧
      ∀ p, b.pprev = some p → p = pindex ∨ s.Linked p := by
  obtain queued | waits := mem_append.mp mem
  · obtain ⟨known, recv, unlinked, parents⟩ := state.ready b (mem_cons_of_mem _ queued)
    refine ⟨known, recv, ?_, fun p isParent => .inr (parents p isParent)⟩
    rintro (rfl | linked)
    · exact (nodup_cons.mp state.queueNodup).1 queued
    · exact unlinked linked
  · obtain ⟨known, isParent, recv, -⟩ := state.waits pindex b (mem_waiting.mp waits)
    refine ⟨known, recv, ?_, fun p isParent' => ?_⟩
    · rintro (rfl | linked)
      · exact pprev_ne_self isParent rfl
      · exact state.unlinked_child known isParent linked
    · exact .inl (Option.some.inj (isParent'.symm.trans isParent))

theorem nodup_waiting : (queue ++ s.waiting pindex).Nodup := by
  refine nodup_append.mpr ⟨(nodup_cons.mp state.queueNodup).2, ?_, ?_⟩
  · refine (state.unlinkedNodup.filter _).map_on fun x inX y inY same => ?_
    have fstX := of_decide_eq_true (mem_filter.mp inX).2
    have fstY := of_decide_eq_true (mem_filter.mp inY).2
    exact Prod.ext (fstX.trans fstY.symm) same
  · rintro b queued _ waits rfl
    obtain ⟨-, isParent, -, -⟩ := state.waits pindex b (mem_waiting.mp waits)
    obtain ⟨-, -, unlinked, -⟩ := state.ready pindex mem_cons_self
    exact unlinked ((state.ready b (mem_cons_of_mem _ queued)).2.2.2 pindex isParent)

theorem round (countable : s.Countable) :
    LinkState ((s.linkBlock env pindex).dropWaiting pindex)
      (queue ++ (s.linkBlock env pindex).waiting pindex) := by
  have linked {b : CBlockIndex} :
      ((s.linkBlock env pindex).dropWaiting pindex).Linked b ↔ b = pindex ∨ s.Linked b :=
    state.linked_linkBlock env countable
  have relinked := relinked_linkBlock env s pindex
  have recv {b : CBlockIndex} := relinked.received (b := b)
  have known {b : CBlockIndex} :
      b ∈ ((s.linkBlock env pindex).dropWaiting pindex).blocks ↔ b ∈ s.blocks := by
    rw [relinked.blocks]
  have waiting : (s.linkBlock env pindex).waiting pindex = s.waiting pindex := by
    rw [ChainstateManager.waiting, blocksUnlinked_linkBlock, ChainstateManager.waiting]
  have rest {p b : CBlockIndex} :
      (p, b) ∈ ((s.linkBlock env pindex).dropWaiting pindex).blocksUnlinked ↔
        (p, b) ∈ s.blocksUnlinked ∧ p ≠ pindex := by
    rw [mem_dropWaiting, blocksUnlinked_linkBlock]
  rw [waiting]
  constructor
  case closed =>
    intro p f mem
    exact known.mpr (state.closed p f (known.mp mem))
  case counted =>
    intro b mem isLinked
    obtain ⟨here, count⟩ := state.counted_linkBlock env (known.mp mem) (linked.mp isLinked)
    exact ⟨recv.mpr here, count⟩
  case parent =>
    intro p f mem isLinked
    obtain same | before := linked.mp isLinked
    · exact linked.mpr (.inr ((state.ready pindex mem_cons_self).2.2.2 p (same ▸ rfl)))
    · exact linked.mpr (.inr (state.parent p f (known.mp mem) before))
  case ready =>
    intro b mem
    obtain ⟨inIdx, here, unlinked, parents⟩ := state.ready_waiting mem
    exact ⟨known.mpr inIdx, recv.mpr here, unlinked ∘ linked.mp,
      fun p isParent => linked.mpr (parents p isParent)⟩
  case queueNodup => exact state.nodup_waiting
  case waits =>
    intro p b pair
    obtain ⟨pair, apart⟩ := rest.mp pair
    obtain ⟨inIdx, isParent, here, notLinked⟩ := state.waits p b pair
    refine ⟨known.mpr inIdx, isParent, recv.mpr here, ?_⟩
    intro isLinked
    exact notLinked ((linked.mp isLinked).resolve_left apart)
  case stored =>
    intro b mem here
    obtain before | queued | ⟨p, isParent, pair⟩ := state.stored b (known.mp mem) (recv.mp here)
    · exact .inl (linked.mpr (.inr before))
    · obtain rfl | queued := mem_cons.mp queued
      · exact .inl (linked.mpr (.inl rfl))
      · exact .inr (.inl (mem_append_left _ queued))
    · by_cases apart : p = pindex
      · subst apart
        exact .inr (.inl (mem_append_right _ (mem_waiting.mpr pair)))
      · exact .inr (.inr ⟨p, isParent, rest.mpr ⟨pair, apart⟩⟩)
  case unlinkedNodup =>
    change (filter _ (s.linkBlock env pindex).blocksUnlinked).Nodup
    rw [blocksUnlinked_linkBlock]
    exact state.unlinkedNodup.filter _

end Round

end LinkState

theorem linkQueue_cons (s : ChainstateManager) (pindex : CBlockIndex) :
    s.linkQueue env (pindex :: queue) =
      linkQueue env ((s.linkBlock env pindex).dropWaiting pindex)
        (queue ++ (s.linkBlock env pindex).waiting pindex) := by
  rw [linkQueue]

theorem linkQueue_induction (inv : ChainstateManager → List CBlockIndex → Prop)
    (each : ∀ s pindex queue, inv s (pindex :: queue) →
      inv ((s.linkBlock env pindex).dropWaiting pindex)
        (queue ++ (s.linkBlock env pindex).waiting pindex)) (start : inv s queue) :
    inv (s.linkQueue env queue) [] := by
  induction s, queue using linkQueue.induct env with
  | case1 s =>
    rw [linkQueue]
    exact start
  | case2 s pindex queue ih =>
    rw [linkQueue_cons]
    exact ih (each s pindex queue start)

/-- What the rounds keep when the counts are right holds at the end, where every
    block that can be linked is. -/
theorem LinkState.linkQueue_induction (state : LinkState s queue) (countable : s.Countable)
    (inv : ChainstateManager → Prop)
    (each : ∀ after pindex queue, LinkState after (pindex :: queue) → after.Countable → inv after →
      inv ((after.linkBlock env pindex).dropWaiting pindex)) (start : inv s) :
    LinkState (s.linkQueue env queue) [] ∧ inv (s.linkQueue env queue) := by
  have round : ∀ after pindex queue,
      (LinkState after (pindex :: queue) ∧ after.Countable ∧ inv after) →
      LinkState ((after.linkBlock env pindex).dropWaiting pindex)
          (queue ++ (after.linkBlock env pindex).waiting pindex) ∧
        ((after.linkBlock env pindex).dropWaiting pindex).Countable ∧
        inv ((after.linkBlock env pindex).dropWaiting pindex) := by
    rintro after pindex queue ⟨state, countable, holds⟩
    exact ⟨state.round countable, (relinked_linkBlock env after pindex).countable countable,
      each after pindex queue state countable holds⟩
  obtain ⟨state, -, holds⟩ := ChainstateManager.linkQueue_induction
    (fun after queue => LinkState after queue ∧ after.Countable ∧ inv after) round
    ⟨state, countable, start⟩
  exact ⟨state, holds⟩

theorem LinkState.linkQueue (state : LinkState s queue) (countable : s.Countable) :
    LinkState (s.linkQueue env queue) [] :=
  (state.linkQueue_induction countable (fun _ => True) (fun _ _ _ _ _ _ => trivial) trivial).1

section Receive

variable {block : CBlock} {b : CBlockIndex} {pos : FlatFilePos}

theorem entry_storeData_of_ne (ne : a ≠ b) :
    (s.storeData env block b pos).entry a = s.entry a :=
  entry_modify_of_ne s ne _

theorem nTx_storeData_self :
    ((s.storeData env block b pos).entry b).nTx = block.vtx.length % uintModulus := by
  rw [storeData, entry_modify_self]

theorem nChainTx_storeData_self : ((s.storeData env block b pos).entry b).nChainTx = 0 := by
  rw [storeData, entry_modify_self]

theorem nStatus_storeData_self :
    ∃ validity optWitness, (s.storeData env block b pos).nStatus b =
        { s.nStatus b with validity, haveData := true, optWitness } ∧
      (s.nStatus b).validity.level ≤ validity.level ∧
      ((s.nStatus b).failed = false → BlockValidity.transactions.level ≤ validity.level) := by
  obtain ⟨validity, raised, higher, enough⟩ := BlockStatus.raiseValidity_eq
    { s.nStatus b with
      haveData := true
      optWitness := (s.nStatus b).optWitness ||
        decide ((b.nHeight : Int) ≥ env.params.segwitHeight) } .transactions
  refine ⟨validity, ?witness, ?stored, higher, enough⟩
  case stored =>
    rw [nStatus, storeData, entry_modify_self]
    exact raised

theorem haveData_storeData_self : ((s.storeData env block b pos).nStatus b).haveData = true := by
  obtain ⟨validity, optWitness, stored, -⟩ := nStatus_storeData_self (s := s)
  rw [stored]

theorem isValid_storeData {nUpTo} (valid : (s.nStatus a).isValid nUpTo = true) :
    ((s.storeData env block b pos).nStatus a).isValid nUpTo = true := by
  obtain ⟨unfailed, level⟩ := BlockStatus.isValid_iff.mp valid
  by_cases same : a = b
  · subst same
    obtain ⟨validity, optWitness, stored, higher, -⟩ := nStatus_storeData_self (s := s)
    rw [stored]
    exact BlockStatus.isValid_iff.mpr ⟨unfailed, level.trans higher⟩
  · rw [nStatus, entry_storeData_of_ne same]
    exact valid

/-- What `ReceivedBlockTransactions` needs to place a block: its data is new, and
    the parent is linked or has not failed. -/
structure Receivable (s : ChainstateManager) (b : CBlockIndex) : Prop where
  known : b ∈ s.blocks
  fresh : ¬ s.Received b
  parent : ∀ p, b.pprev = some p → s.Linked p ∨ (s.nStatus p).isValid .tree = true

theorem received_storeData :
    (s.storeData env block b pos).Received a ↔ a = b ∨ s.Received a := by
  by_cases same : a = b
  · subst same
    simp only [Received, haveData_storeData_self, true_or]
  · simp only [Received, nStatus, entry_storeData_of_ne same, same, false_or]

theorem linked_storeData (state : LinkState s []) (receivable : s.Receivable b) :
    (s.storeData env block b pos).Linked a ↔ s.Linked a := by
  by_cases same : a = b
  · subst same
    simp only [Linked, nChainTx_storeData_self, ne_eq, not_true_eq_false, false_iff, not_not]
    by_contra linked
    exact receivable.fresh (state.counted a receivable.known linked).1
  · simp only [Linked, entry_storeData_of_ne same]

theorem prevChainTx_storeData (other : a.pprev ≠ some b) :
    (s.storeData env block b pos).prevChainTx a = s.prevChainTx a := by
  refine prevChainTx_congr fun p isParent => ?_
  have ne : p ≠ b := by
    rintro rfl
    exact other isParent
  rw [entry_storeData_of_ne ne]

theorem LinkState.storeData (state : LinkState s []) (receivable : s.Receivable b)
    (extra : List (CBlockIndex × CBlockIndex)) (queueNodup : queue.Nodup)
    (queued : ∀ a ∈ queue, a = b ∧ ∀ p, b.pprev = some p → s.Linked p) (extraNodup : extra.Nodup)
    (waits : ∀ p a, (p, a) ∈ extra → a = b ∧ b.pprev = some p ∧ ¬ s.Linked p)
    (placed : b ∈ queue ∨ ∃ p, b.pprev = some p ∧ (p, b) ∈ extra) :
    LinkState { s.storeData env block b pos with blocksUnlinked := s.blocksUnlinked ++ extra }
      queue := by
  have linked {a : CBlockIndex} :
      { s.storeData env block b pos with blocksUnlinked := s.blocksUnlinked ++ extra }.Linked a ↔
        s.Linked a := linked_storeData state receivable
  have recv {a : CBlockIndex} :
      { s.storeData env block b pos with blocksUnlinked := s.blocksUnlinked ++ extra }.Received a ↔
        a = b ∨ s.Received a := received_storeData
  have unlinked : ¬ s.Linked b := fun isLinked =>
    receivable.fresh (state.counted b receivable.known isLinked).1
  constructor
  case closed => exact state.closed
  case counted =>
    intro a known isLinked
    obtain ⟨here, count⟩ := state.counted a known (linked.mp isLinked)
    have other : a ≠ b := by
      rintro rfl
      exact unlinked (linked.mp isLinked)
    have ne : a.pprev ≠ some b := by
      intro isParent
      obtain ⟨f, rfl⟩ := pprev_eq_some.mp isParent
      exact unlinked (state.parent _ f known (linked.mp isLinked))
    refine ⟨recv.mpr (.inr here), ?_⟩
    change ((s.storeData env block b pos).entry a).nChainTx =
      ((s.storeData env block b pos).prevChainTx a + ((s.storeData env block b pos).entry a).nTx) %
        uintModulus
    rw [prevChainTx_storeData ne, entry_storeData_of_ne other, count]
  case parent =>
    intro p f known isLinked
    exact linked.mpr (state.parent p f known (linked.mp isLinked))
  case ready =>
    intro a mem
    obtain ⟨rfl, parents⟩ := queued a mem
    exact ⟨receivable.known, recv.mpr (.inl rfl), fun isLinked => unlinked (linked.mp isLinked),
      fun p isParent => linked.mpr (parents p isParent)⟩
  case queueNodup => exact queueNodup
  case waits =>
    intro p a pair
    obtain pair | pair := mem_append.mp pair
    · obtain ⟨known, isParent, here, notLinked⟩ := state.waits p a pair
      exact ⟨known, isParent, recv.mpr (.inr here),
        fun isLinked => notLinked (linked.mp isLinked)⟩
    · obtain ⟨rfl, isParent, notLinked⟩ := waits p a pair
      exact ⟨receivable.known, isParent, recv.mpr (.inl rfl),
        fun isLinked => notLinked (linked.mp isLinked)⟩
  case stored =>
    intro a known here
    by_cases same : a = b
    · subst same
      obtain queued | ⟨p, isParent, pair⟩ := placed
      · exact .inr (.inl queued)
      · exact .inr (.inr ⟨p, isParent, mem_append_right _ pair⟩)
    obtain before | impossible | ⟨p, isParent, pair⟩ :=
      state.stored a known ((recv.mp here).resolve_left same)
    · exact .inl (linked.mpr before)
    · cases impossible
    · exact .inr (.inr ⟨p, isParent, mem_append_left _ pair⟩)
  case unlinkedNodup =>
    refine nodup_append.mpr ⟨state.unlinkedNodup, extraNodup, ?_⟩
    rintro ⟨p, a⟩ old _ new rfl
    obtain ⟨rfl, -, -⟩ := waits p a new
    exact receivable.fresh (state.waits p a old).2.2.1

theorem LinkState.receive_cases (state : LinkState s []) (receivable : s.Receivable b) :
    (LinkState (s.storeData env block b pos) [b] ∧ s.receivedBlockTransactions env block b pos =
      (s.storeData env block b pos).linkQueue env [b]) ∨
    ∃ pairs, LinkState { s.storeData env block b pos with blocksUnlinked := pairs } [] ∧
      s.receivedBlockTransactions env block b pos =
        { s.storeData env block b pos with blocksUnlinked := pairs } := by
  have toQueue (parents : ∀ p, b.pprev = some p → s.Linked p) :
      LinkState (s.storeData env block b pos) [b] := by
    have stored := @LinkState.storeData env s [b] block b pos state receivable []
      (nodup_singleton b) (fun a mem => ⟨mem_singleton.mp mem, parents⟩) nodup_nil
      (by rintro p a ⟨⟩) (.inl mem_cons_self)
    rw [append_nil] at stored
    exact stored
  simp only [ChainstateManager.receivedBlockTransactions]
  split
  · rename_i absent
    exact .inl ⟨toQueue fun p isParent => (by rw [absent] at isParent; cases isParent), rfl⟩
  rename_i p isParent
  split
  · rename_i parentLinked
    refine .inl ⟨toQueue fun q isParent' => ?_, rfl⟩
    cases isParent.symm.trans isParent'
    exact (linked_storeData state receivable).mp (haveNumChainTxs_iff.mp parentLinked)
  rename_i notLinked
  have unlinked : ¬ s.Linked p := fun linked =>
    notLinked (haveNumChainTxs_iff.mpr ((linked_storeData state receivable).mpr linked))
  have ne : p ≠ b := fun same => pprev_ne_self isParent same.symm
  have valid : ((s.storeData env block b pos).nStatus p).isValid .tree = true := by
    rw [nStatus, entry_storeData_of_ne ne]
    exact (receivable.parent p isParent).resolve_left unlinked
  rw [if_pos valid]
  refine .inr ⟨_, ?_, rfl⟩
  refine state.storeData receivable [(p, b)] nodup_nil ?_
    (nodup_singleton _) ?_ (.inr ⟨p, isParent, mem_cons_self⟩)
  · rintro a ⟨⟩
  · intro q a pair
    cases mem_singleton.mp pair
    exact ⟨rfl, isParent, unlinked⟩

theorem LinkState.receivedBlockTransactions (state : LinkState s [])
    (receivable : s.Receivable b) (countable : (s.storeData env block b pos).Countable) :
    LinkState (s.receivedBlockTransactions env block b pos) [] := by
  obtain ⟨queued, recv⟩ | ⟨pairs, waiting, recv⟩ :=
    @receive_cases env s block b pos state receivable
  · rw [recv]
    exact queued.linkQueue countable
  · rw [recv]
    exact waiting

theorem received_induction (inv : ChainstateManager → Prop)
    (each : ∀ after pindex, inv after → inv ((after.linkBlock env pindex).dropWaiting pindex))
    (start : ∀ pairs, inv { s.storeData env block b pos with blocksUnlinked := pairs }) :
    inv (s.receivedBlockTransactions env block b pos) := by
  have queued : inv ((s.storeData env block b pos).linkQueue env [b]) :=
    linkQueue_induction (fun after _ => inv after) (fun after pindex _ => each after pindex)
    (start _)
  simp only [ChainstateManager.receivedBlockTransactions]
  split
  · exact queued
  · split
    · exact queued
    · split <;> exact start _

theorem relinked_received :
    Relinked (s.storeData env block b pos) (s.receivedBlockTransactions env block b pos) :=
  received_induction (Relinked _)
    (fun after pindex relinked => relinked.trans (relinked_linkBlock env after pindex))
    fun _ => ⟨fun _ => ⟨_, _, rfl⟩, rfl, rfl, rfl⟩

end Receive

end ChainstateManager

end HobbyHash
