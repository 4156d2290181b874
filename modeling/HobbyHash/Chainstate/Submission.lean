import HobbyHash.Chainstate.Acceptance
import HobbyHash.Chainstate.Indexed

/-! # Submitting headers and blocks

`AcceptBlockHeader` adds a leaf to the index or marks blocks above a failed one,
and `AcceptBlock` stores data on top. Both keep the index settled as long as the
work of a branch and its number of transactions can be counted, and as long as
the data of a block does not arrive above a parent that has failed and is not
linked.
-/

namespace HobbyHash

open Machine CBlockIndex List ArithUint256

variable {result : Except HeaderRejection CBlockIndex} {minPowChecked : Bool} (a : CBlockIndex)
  {now : Int} {hash : Uint256} {failed : CBlockIndex} {arrival : BlockArrival}

namespace ChainstateManager

variable {env : IndexEnv} {connector : BlockConnector} {s s' : ChainstateManager}
  {tip b p : CBlockIndex} {f : HeaderFields}

section AddNew

theorem not_linked_addNew : ¬ (s.addNew b).Linked b := by
  rw [Linked, entry_addNew_self]
  simp

theorem not_received_addNew : ¬ (s.addNew b).Received b := by
  rw [Received, nStatus, entry_addNew_self]
  decide

theorem nStatus_addNew_self : (s.addNew b).nStatus b = { validity := .tree } := by
  rw [nStatus, entry_addNew_self]
  rfl

theorem closed_addNew (known : ∀ q, c.pprev = some q → q ∈ s.blocks)
    (closed : ∀ q g, child q g ∈ s.blocks → q ∈ s.blocks)
    (inIndex : child q g ∈ (s.addNew c).blocks) : q ∈ s.blocks := by
  obtain before | rfl := (mem_blocks_addNew s).mp inIndex
  · exact closed q g before
  · exact known q rfl

section Any

variable {a c : CBlockIndex} (fresh : c ∉ s.blocks)
include fresh

section

variable (inIndex : a ∈ s.blocks)
include inIndex

theorem entry_addNew_known :
    (s.addNew c).entry a = s.entry a := by
  refine entry_addNew_of_ne s ?_
  rintro rfl
  exact fresh inIndex

theorem linked_addNew :
    (s.addNew c).Linked a ↔ s.Linked a := by
  rw [Linked, Linked, entry_addNew_known fresh inIndex]

theorem received_addNew :
    (s.addNew c).Received a ↔ s.Received a := by
  rw [Received, Received, nStatus, nStatus, entry_addNew_known fresh inIndex]

theorem nStatus_addNew :
    (s.addNew c).nStatus a = s.nStatus a := by
  rw [nStatus, nStatus, entry_addNew_known fresh inIndex]

theorem upTo_addNew (nUpTo : BlockValidity) :
    (s.addNew c).UpTo nUpTo a ↔ s.UpTo nUpTo a := by
  rw [UpTo, UpTo, nStatus_addNew fresh inIndex]

end

theorem sound_addNew (closed : ∀ q g, child q g ∈ s.blocks → q ∈ s.blocks)
    (inIndex : a ∈ s.blocks) : (s.addNew c).Sound a ↔ s.Sound a := by
  refine forall₂_congr fun b lt => ?_
  rw [nStatus_addNew fresh (mem_blocks_of_ancestor closed inIndex lt)]

theorem rank_addNew (inIndex : a ∈ s.blocks) :
    (s.addNew c).rank env a = s.rank env a := by
  rw [rank, rank, entry_addNew_known fresh inIndex]

theorem LinkState.addNew (state : LinkState s []) (known : ∀ q, c.pprev = some q → q ∈ s.blocks) :
    LinkState (s.addNew c) [] where
  closed := by
    intro q g inIndex
    exact known_addNew (closed_addNew known state.closed inIndex)
  counted := by
    refine forall_addNew.mpr ⟨fun b before linked => ?_, not_linked_addNew.elim⟩
    obtain ⟨recv, count⟩ := state.counted b before ((linked_addNew fresh before).mp linked)
    refine ⟨(received_addNew fresh before).mpr recv, ?_⟩
    have parents : (s.addNew c).prevChainTx b = s.prevChainTx b := by
      refine prevChainTx_congr fun q isParent => ?_
      obtain ⟨g, rfl⟩ := pprev_eq_some.mp isParent
      rw [entry_addNew_known fresh (state.closed q g before)]
    rw [parents, entry_addNew_known fresh before, count]
  parent := by
    intro q g inIndex linked
    obtain before | new := (mem_blocks_addNew s).mp inIndex
    · exact (linked_addNew fresh (state.closed q g before)).mpr
        (state.parent q g before ((linked_addNew fresh before).mp linked))
    · rw [new] at linked
      exact absurd linked not_linked_addNew
  ready := by
    nofun
  queueNodup := List.nodup_nil
  waits := by
    intro q b pair
    obtain ⟨inIndex, isParent, recv, unlinked⟩ := state.waits q b pair
    obtain ⟨g, rfl⟩ := pprev_eq_some.mp isParent
    exact ⟨known_addNew inIndex, isParent,
      (received_addNew fresh inIndex).mpr recv,
      fun linked => unlinked ((linked_addNew fresh (state.closed q g inIndex)).mp linked)⟩
  stored := by
    refine forall_addNew.mpr ⟨fun b before recv => ?_, not_received_addNew.elim⟩
    rw [linked_addNew fresh before]
    exact state.stored b before ((received_addNew fresh before).mp recv)
  unlinkedNodup := state.unlinkedNodup

end Any

variable (known : p ∈ s.blocks) (fresh : child p f ∉ s.blocks)

include known fresh in
theorem IndexTree.addNew (tree : IndexTree env s)
    (hashes : ∀ a ∈ s.blocks, a.getBlockHash env.hash ≠ (child p f).getBlockHash env.hash)
    (lt : p.nChainWork < (child p f).nChainWork) : IndexTree env (s.addNew (child p f)) := by
  constructor
  case link =>
    refine tree.link.addNew fresh fun q isParent => ?_
    cases isParent
    exact known
  case nodup =>
    refine List.nodup_append.mpr ⟨tree.nodup, List.nodup_singleton _, ?_⟩
    rintro a inIndex _ new rfl
    exact fresh (List.mem_singleton.mp new ▸ inIndex)
  case root =>
    obtain ⟨g, rootKnown, rootLinked, rootHash, unique⟩ := tree.root
    refine ⟨g, known_addNew rootKnown, (linked_addNew fresh rootKnown).mpr rootLinked,
      rootHash, fun h inIndex => ?_⟩
    obtain before | new := (mem_blocks_addNew s).mp inIndex
    · exact unique h before
    · cases new
  case hashes => exact hashes_addNew _ tree.hashes hashes
  case rising =>
    intro q g inIndex
    obtain before | new := (mem_blocks_addNew s).mp inIndex
    · exact tree.rising q g before
    · cases new
      exact lt
  case sequence =>
    refine forall_addNew.mpr ⟨fun b before unlinked => ?_, fun _ => by rw [entry_addNew_self]⟩
    rw [entry_addNew_known fresh before]
    exact tree.sequence b before fun linked => unlinked ((linked_addNew fresh before).mpr linked)
  case reverse => exact tree.reverse
  case data =>
    refine forall_addNew.mpr ⟨fun b before => ?_, iff_of_false not_received_addNew ?_⟩
    · rw [received_addNew fresh before, entry_addNew_known fresh before]
      exact tree.data b before
    · rw [entry_addNew_self]
      exact not_not.mpr rfl

include known fresh in
theorem Settled.addNew (settled : Settled env connector s tip)
    (hashes : ∀ a ∈ s.blocks, a.getBlockHash env.hash ≠ (child p f).getBlockHash env.hash)
    (lt : p.nChainWork < (child p f).nChainWork) :
    Settled env connector (s.addNew (child p f)) tip := by
  obtain ⟨indexed, underway⟩ := settled
  have closed := indexed.link.closed
  have activeKnown : ∀ a, Ancestor a tip → a ∈ s.blocks := fun a below =>
    indexed.known underway.tipKnown below
  have indexed' : Indexed env (s.addNew (child p f)) := by
    refine indexed.change (b := child p f)
      (indexed.toIndexTree.addNew known fresh hashes lt)
      (fun a inIndex => ((mem_blocks_addNew s).mp inIndex).symm)
      (fun a apart => congrArg BlockEntry.nStatus (entry_addNew_of_ne s apart)) ?here ?unmarked ?below
      (fun inIndex => absurd inIndex fresh)
      (fun a before => (sound_addNew fresh closed before).mp) ?failedBlocks ?active
    case here =>
      rw [nStatus_addNew_self]
      exact ⟨nofun, by decide, le_rfl, by decide⟩
    case unmarked =>
      rw [nStatus_addNew_self]
      rfl
    case below =>
      intro q g h _ valid
      rw [UpTo, nStatus_addNew_self] at valid
      exact absurd valid (by decide)
    case failedBlocks =>
      intro b mem
      obtain ⟨before, marked⟩ := indexed.failedBlocks b mem
      refine ⟨known_addNew before, ?_⟩
      rw [nStatus_addNew fresh before]
      exact marked
    case active =>
      intro tip' isTip q g below
      cases underway.isTip.symm.trans isTip
      exact (upTo_addNew fresh (activeKnown _ below) _).mpr
        (indexed.active tip underway.isTip q g below)
  have ranks : (s.addNew (child p f)).rank env tip = s.rank env tip :=
    rank_addNew fresh underway.tipKnown
  refine .intro indexed' underway.isTip (known_addNew underway.tipKnown)
    ((linked_addNew fresh underway.tipKnown).mpr underway.tipLinked) ?_ underway.tipAccepted ?_ ?_
  · intro a below
    rw [nStatus_addNew fresh (activeKnown a below)]
    exact underway.tipUnmarked a below
  · intro c mem
    obtain ⟨before, linked, good⟩ := underway.candidates c mem
    rw [ranks, rank_addNew fresh before]
    exact ⟨known_addNew before, (linked_addNew fresh before).mpr linked, good⟩
  · refine forall_addNew.mpr ⟨fun b before linked sound good => ?_, not_linked_addNew.elim⟩
    rw [ranks, rank_addNew fresh before] at good
    exact underway.complete b before ((linked_addNew fresh before).mp linked)
      ((sound_addNew fresh closed before).mp sound) good

end AddNew

theorem Settled.markChild (settled : Settled env connector s tip) {a : CBlockIndex}
    (unsound : ¬ s.Sound a) (lt : Ancestor a b) : Settled env connector (s.markChild b) tip where
  indexed := settled.indexed.markChild unsound lt
  underway := settled.underway.markChild unsound lt fun active =>
    unsound (settled.underway.floorSound.ancestor active)

theorem Settled.markFailed (settled : Settled env connector s tip) (off : ¬ Ancestor b tip) :
    Settled env connector (s.markFailed b) tip where
  indexed := settled.indexed.markFailed b
  underway := settled.underway.markFailed off off

theorem ancestor_of_mem_drop_path {a : CBlockIndex} (lt : Ancestor a p)
    (mem : b ∈ p.path.drop (a.nHeight + 1)) : Ancestor a b := by
  induction lt with
  | refl =>
    rw [drop_eq_nil_of_le (length_path a).le] at mem
    cases mem
  | @step q g lt ih =>
    have := lt.nHeight_le
    rw [path, drop_append_of_le_length (by rw [length_path]; omega)] at mem
    obtain inside | last := mem_append.mp mem
    · exact ih inside
    · cases mem_singleton.mp last
      exact .step lt

theorem blocks_markFailedChildren :
    (s.markFailedChildren p failed).blocks = s.blocks := by
  rw [markFailedChildren]
  generalize p.path.drop (failed.nHeight + 1) = l
  induction l generalizing s with
  | nil => rfl
  | cons b rest ih => exact ih

theorem markFailedChildren_induction {motive : ChainstateManager → Prop} (lt : Ancestor failed p)
    (mark : ∀ s b, Ancestor failed b → motive s → motive (s.markChild b)) (start : motive s) :
    motive (s.markFailedChildren p failed) := by
  have above : ∀ b ∈ p.path.drop (failed.nHeight + 1), Ancestor failed b := fun b mem =>
    ancestor_of_mem_drop_path lt mem
  rw [markFailedChildren]
  generalize p.path.drop (failed.nHeight + 1) = blocks at above
  induction blocks generalizing s with
  | nil => exact start
  | cons b rest ih =>
    simp only [mem_cons, forall_eq_or_imp] at above
    exact ih (mark s b above.1 start) above.2

theorem Settled.markFailedChildren (settled : Settled env connector s tip)
    (unsound : ¬ s.Sound failed) (lt : Ancestor failed p) :
    Settled env connector (s.markFailedChildren p failed) tip :=
  (markFailedChildren_induction
    (motive := fun s => Settled env connector s tip ∧ ¬ s.Sound failed) lt
    (fun _ _ above kept => ⟨kept.1.markChild kept.2 above, mt sound_markChild.mp kept.2⟩)
    ⟨settled, unsound⟩).1

theorem tryAddBlockIndexCandidate_eq (isTip : s.tip = some tip) :
    ∃ cands, s.tryAddBlockIndexCandidate env b = { s with setBlockIndexCandidates := cands } ∧
      ∀ c, c ∈ cands ↔ c ∈ s.setBlockIndexCandidates ∨ c = b ∧ s.rank env tip ≤ s.rank env b := by
  have unfolded : s.tryAddBlockIndexCandidate env b =
      if s.worse env b tip then s else s.insertCandidate b := by
    rw [tryAddBlockIndexCandidate, isTip]
  rw [unfolded]
  split
  · rename_i worse
    have lower := worse_iff.mp worse
    refine ⟨s.setBlockIndexCandidates, rfl, fun c => ?_⟩
    rw [iff_self_or]
    rintro ⟨-, good⟩
    exact absurd lower (not_lt.mpr good)
  rename_i good
  rw [Bool.not_eq_true, not_worse_iff] at good
  refine ⟨_, rfl, fun c => ?_⟩
  rw [mem_insert_iff, or_comm]
  simp only [good, and_true]

/-- What the queue of `ReceivedBlockTransactions` keeps about the candidates, when
    it was entered with `s`. -/
structure Choosing (env : IndexEnv) (tip : CBlockIndex) (s s' : ChainstateManager) : Prop where
  isTip : s'.tip = some tip
  reverse : s'.nBlockReverseSequenceId = s.nBlockReverseSequenceId
  kept : ∀ b, s.Linked b → s'.entry b = s.entry b
  unlinked : ∀ b, ¬ s'.Linked b → s'.entry b = s.entry b
  candidates : ∀ c ∈ s'.setBlockIndexCandidates,
    c ∈ s'.blocks ∧ s'.Linked c ∧ s'.rank env tip ≤ s'.rank env c
  complete : ∀ b ∈ s'.blocks, s'.Linked b → s'.Sound b → s'.rank env tip ≤ s'.rank env b →
    b ∈ s'.setBlockIndexCandidates

theorem Choosing.round (choosing : Choosing env tip s s') (tipLinked : s.Linked tip)
    (state : LinkState s' (b :: queue)) (countable : s'.Countable) :
    Choosing env tip s ((s'.linkBlock env b).dropWaiting b) := by
  obtain ⟨inIndex, -, unlinked, -⟩ := state.ready b mem_cons_self
  obtain ⟨candidates, linkedBlock, mem⟩ := @tryAddBlockIndexCandidate_eq env
    { s'.modify b fun e =>
      { e with
        nChainTx := (s'.prevChainTx b + e.nTx) % uintModulus
        nSequenceId := s'.nBlockSequenceId } with nBlockSequenceId := s'.nBlockSequenceId + 1 }
    tip b choosing.isTip
  change s'.linkBlock env b = _ at linkedBlock
  have linked : ∀ a, ((s'.linkBlock env b).dropWaiting b).Linked a ↔ a = b ∨ s'.Linked a := fun a =>
    state.linked_linkBlock env countable
  have other : ∀ a, a ≠ b → ((s'.linkBlock env b).dropWaiting b).entry a = s'.entry a :=
    fun a apart =>
    entry_linkBlock_of_ne env s' b apart
  have sounds : ∀ a, ((s'.linkBlock env b).dropWaiting b).Sound a ↔ s'.Sound a := fun a =>
    forall₂_congr fun c _ => by
      rw [(relinked_linkBlock env s' b).nStatus]
  have blocks := (relinked_linkBlock env s' b).blocks
  have tipLinked' : s'.Linked tip := by
    rw [Linked, choosing.kept tip tipLinked]
    exact tipLinked
  have apart : ∀ a, s'.Linked a → a ≠ b := by
    rintro a isLinked rfl
    exact unlinked isLinked
  have rank : ∀ a, a ≠ b →
      ((s'.linkBlock env b).dropWaiting b).rank env a = s'.rank env a := fun a apart => by
    rw [rank, rank, other a apart]
  have member' : ∀ c, c ∈ ((s'.linkBlock env b).dropWaiting b).setBlockIndexCandidates ↔
      c ∈ s'.setBlockIndexCandidates ∨ c = b ∧
        ((s'.linkBlock env b).dropWaiting b).rank env tip ≤
          ((s'.linkBlock env b).dropWaiting b).rank env b := by
    rw [linkedBlock]
    exact mem
  constructor
  case isTip =>
    rw [linkedBlock]
    exact choosing.isTip
  case reverse =>
    rw [linkedBlock]
    exact choosing.reverse
  case kept =>
    intro a isLinked
    have same := choosing.kept a isLinked
    rw [other a (apart a (by rw [Linked, same]; exact isLinked)), same]
  case unlinked =>
    intro a notLinked
    rw [linked, not_or] at notLinked
    rw [other a notLinked.1, choosing.unlinked a notLinked.2]
  case candidates =>
    intro c isMember
    rw [blocks, linked]
    obtain before | ⟨rfl, good⟩ := (member' c).mp isMember
    · obtain ⟨known, isLinked, good⟩ := choosing.candidates c before
      rw [rank tip (apart tip tipLinked'), rank c (apart c isLinked)]
      exact ⟨known, .inr isLinked, good⟩
    · exact ⟨inIndex, .inl rfl, good⟩
  case complete =>
    intro a known isLinked sound good
    rw [member']
    obtain rfl | before := (linked a).mp isLinked
    · exact .inr ⟨rfl, good⟩
    · rw [rank tip (apart tip tipLinked'), rank a (apart a before)] at good
      exact .inl (choosing.complete a (blocks ▸ known) before ((sounds a).mp sound) good)

section Receive

variable {block : CBlock} {pos : FlatFilePos}

theorem nSequenceId_storeData :
    ((s.storeData env block b pos).entry a).nSequenceId = (s.entry a).nSequenceId := by
  by_cases same : a = b
  · rw [same, storeData, entry_modify_self]
  · rw [entry_storeData_of_ne same]

theorem rank_storeData :
    (s.storeData env block b pos).rank env a = s.rank env a := by
  rw [rank, rank, nSequenceId_storeData]

theorem validity_storeData_fresh (unmarked : (s.nStatus b).failed = false)
    (low : ¬ s.UpTo .transactions b) :
    ((s.storeData env block b pos).nStatus b).validity = .transactions := by
  have raised := @BlockStatus.raiseValidity_of_lower
    { s.nStatus b with
      haveData := true
      optWitness := (s.nStatus b).optWitness ||
        decide ((b.nHeight : Int) ≥ env.params.segwitHeight) }
    .transactions unmarked (Nat.not_le.mp low)
  rw [nStatus, storeData, entry_modify_self]
  exact congrArg BlockStatus.validity raised

theorem marks_storeData :
    ((s.storeData env block b pos).nStatus a).failedValid = (s.nStatus a).failedValid ∧
      ((s.storeData env block b pos).nStatus a).failed = (s.nStatus a).failed ∧
      ((s.storeData env block b pos).nStatus a).haveUndo = (s.nStatus a).haveUndo := by
  by_cases same : a = b
  · subst same
    obtain ⟨validity, optWitness, stored, -⟩ := @nStatus_storeData_self env s block a pos
    rw [stored]
    exact ⟨rfl, rfl, rfl⟩
  · rw [nStatus, entry_storeData_of_ne same]
    exact ⟨rfl, rfl, rfl⟩

theorem sound_storeData : (s.storeData env block b pos).Sound a ↔ s.Sound a :=
  forall₂_congr fun c _ => by rw [(marks_storeData c).1]

theorem Settled.choosing (settled : Settled env connector s tip) (receivable : s.Receivable b)
    (countable : (s.storeData env block b pos).Countable) :
    Choosing env tip (s.storeData env block b pos)
      (s.receivedBlockTransactions env block b pos) := by
  obtain ⟨indexed, underway⟩ := settled
  have linked := fun a => @linked_storeData a env s block b pos indexed.link receivable
  have start (pairs : List (CBlockIndex × CBlockIndex)) :
      Choosing env tip (s.storeData env block b pos)
        { s.storeData env block b pos with blocksUnlinked := pairs } := by
    constructor
    case isTip => exact underway.isTip
    case reverse => rfl
    case kept => exact fun _ _ => rfl
    case unlinked => exact fun _ _ => rfl
    case candidates =>
      intro c mem
      obtain ⟨known, isLinked, good⟩ := underway.candidates c mem
      refine ⟨known, (linked c).mpr isLinked, ?_⟩
      change (s.storeData env block b pos).rank env tip ≤ (s.storeData env block b pos).rank env c
      rw [rank_storeData, rank_storeData]
      exact good
    case complete =>
      intro a known isLinked sound good
      change (s.storeData env block b pos).rank env tip
        ≤ (s.storeData env block b pos).rank env a at good
      rw [rank_storeData, rank_storeData] at good
      exact underway.complete a known ((linked a).mp isLinked) ((sound_storeData a).mp sound) good
  obtain ⟨queued, recv⟩ | ⟨pairs, -, recv⟩ :=
    @LinkState.receive_cases env s block b pos indexed.link receivable
  · rw [recv]
    exact (queued.linkQueue_induction countable (Choosing env tip (s.storeData env block b pos))
      (fun after pindex queue state countable choosing =>
        choosing.round ((linked tip).mpr underway.tipLinked) state countable) (start _)).2
  · rw [recv]
    exact start pairs

theorem Settled.receivedBlockTransactions (settled : Settled env connector s tip)
    (receivable : s.Receivable b) (unmarked : (s.nStatus b).failed = false)
    (ne : block.vtx.length % uintModulus ≠ 0)
    (countable : (s.storeData env block b pos).Countable) :
    Settled env connector (s.receivedBlockTransactions env block b pos) tip := by
  obtain ⟨indexed, underway⟩ := settled
  have choosing : Choosing env tip (s.storeData env block b pos)
      (s.receivedBlockTransactions env block b pos) :=
    Settled.choosing ⟨indexed, underway⟩ receivable countable
  have link := @LinkState.receivedBlockTransactions env s block b pos indexed.link receivable countable
  have relinked := @relinked_received env s block b pos
  generalize s.receivedBlockTransactions env block b pos = s' at *
  have blocks : s'.blocks = s.blocks := relinked.blocks
  have status := relinked.nStatus
  have linked : ∀ a, s.Linked a → s'.Linked a := by
    intro a isLinked
    have before := (@linked_storeData a env s block b pos indexed.link receivable).mpr isLinked
    rw [Linked, choosing.kept a before]
    exact before
  have recv : ∀ a, s'.Received a ↔ a = b ∨ s.Received a := by
    intro a
    rw [relinked.received]
    exact received_storeData
  have low : ¬ s.UpTo .transactions b := fun valid =>
    receivable.fresh ((indexed.transactions b receivable.known).mp valid)
  have here : (s'.nStatus b).validity = .transactions := by
    rw [status]
    exact validity_storeData_fresh unmarked low
  have other : ∀ a, a ≠ b → s'.nStatus a = s.nStatus a := fun a apart => by
    rw [status, nStatus, entry_storeData_of_ne apart, nStatus]
  have notScripts : ∀ a, s.UpTo .scripts a → a ≠ b := by
    rintro a valid rfl
    exact low (le_trans (by decide) valid)
  have sounds : ∀ a, s'.Sound a ↔ s.Sound a := fun a => by
    have stored : s'.Sound a ↔ (s.storeData env block b pos).Sound a :=
      forall₂_congr fun c _ => by rw [status]
    exact stored.trans (sound_storeData a)
  have failed : ∀ a, (s'.nStatus a).failed = (s.nStatus a).failed := fun a => by
    rw [status]
    exact (marks_storeData a).2.1
  have indexed' : Indexed env s' := by
    refine indexed.change (b := b) ?tree (fun a inIndex => .inr (blocks ▸ inIndex)) other
      (.of_transactions here ((recv b).mpr (.inl rfl)))
      ((failed b).trans unmarked) ?below (fun _ valid => absurd rfl (notScripts b valid)) ?sound
      ?failedBlocks ?active
    case tree =>
      constructor
      case link => exact link
      case nodup => exact blocks ▸ indexed.nodup
      case root =>
        rw [blocks]
        obtain ⟨f, rootKnown, rootLinked, rest⟩ := indexed.root
        exact ⟨f, rootKnown, linked _ rootLinked, rest⟩
      case hashes => exact blocks ▸ indexed.hashes
      case rising => exact fun q g inIndex => indexed.rising q g (blocks ▸ inIndex)
      case sequence =>
        rw [blocks]
        intro a inIndex unlinked
        rw [choosing.unlinked a unlinked, nSequenceId_storeData]
        exact indexed.sequence a inIndex fun isLinked => unlinked (linked a isLinked)
      case reverse =>
        rw [choosing.reverse]
        exact indexed.reverse
      case data =>
        rw [blocks]
        intro a inIndex
        rw [recv, relinked.nTx]
        by_cases same : a = b
        · subst same
          exact iff_of_true (.inl rfl) (nTx_storeData_self ▸ ne)
        · rw [or_iff_right same, entry_storeData_of_ne same]
          exact indexed.data a inIndex
    case below =>
      intro q g h _ valid
      rw [UpTo, here] at valid
      exact absurd valid (by decide)
    case sound => exact fun a _ => (sounds a).mp
    case failedBlocks =>
      rw [blocks, relinked.failedBlocks]
      intro a mem
      obtain ⟨inIndex, marked⟩ := indexed.failedBlocks a mem
      refine ⟨inIndex, ?_⟩
      rw [status, (marks_storeData a).1]
      exact marked
    case active =>
      intro tip' isTip q g below
      cases choosing.isTip.symm.trans isTip
      have valid := indexed.active tip underway.isTip q g below
      rw [UpTo, other _ (notScripts _ valid)]
      exact valid
  refine .intro indexed' choosing.isTip (blocks ▸ underway.tipKnown)
    (linked tip underway.tipLinked) ?_
    underway.tipAccepted choosing.candidates choosing.complete
  exact fun a below => (failed a).trans (underway.tipUnmarked a below)

end Receive

theorem find_eq_some (found : s.find env hash = some b) :
    b ∈ s.blocks ∧ b.getBlockHash env.hash = hash := by
  have matched := find?_some found
  exact ⟨mem_of_find?_eq_some found, beq_iff_eq.mp matched⟩

theorem find_eq_none (absent : s.find env hash = none) :
    ∀ b ∈ s.blocks, b.getBlockHash env.hash ≠ hash := fun b inIndex same =>
  find?_eq_none.mp absent b inIndex (beq_iff_eq.mpr same)

theorem failedAncestor_spec (l : List CBlockIndex) :
    (failedAncestor env p l = none ∧ ∀ x ∈ l, ¬ Ancestor x p) ∨
    ∃ failed ∈ l, failedAncestor env p l = some failed ∧ Ancestor failed p := by
  induction l with
  | nil => exact .inl ⟨rfl, by simp⟩
  | cons x rest ih =>
    by_cases lt : Ancestor x p
    · right
      simp only [failedAncestor, if_pos (getAncestor_eq_some_iff.mpr lt)]
      obtain ⟨absent, -⟩ | ⟨failed, mem, found, lower⟩ := ih
      · rw [absent]
        exact ⟨x, mem_cons_self, rfl, lt⟩
      rw [found]
      dsimp only
      split
      · exact ⟨failed, mem_cons_of_mem x mem, rfl, lower⟩
      · exact ⟨x, mem_cons_self, rfl, lt⟩
    · simp only [failedAncestor, if_neg (fun found => lt (getAncestor_eq_some_iff.mp found))]
      obtain ⟨absent, none⟩ | ⟨failed, mem, found, lower⟩ := ih
      · exact .inl ⟨absent, by simp only [mem_cons, forall_eq_or_imp]; exact ⟨lt, none⟩⟩
      · exact .inr ⟨failed, mem_cons_of_mem x mem, found, lower⟩

/-- What `AcceptBlockHeader` does to a new header: the parent is known and not
    marked, and no failure is remembered below it. -/
structure NewHeader (env : IndexEnv) (s : ChainstateManager) (block : CBlockHeader)
    (p : CBlockIndex) : Prop where
  parent : s.find env block.hashPrevBlock = some p
  unknown : s.find env (env.hash block) = none
  work : Pow.checkProofOfWork (env.hash block) block.nBits env.params = true
  unmarked : (s.nStatus p).failed = false
  remembered : (s.nStatus p).isValid .scripts = true ∨ ∀ x ∈ s.failedBlocks, ¬ Ancestor x p

theorem NewHeader.getBlockHash {block} (isNew : NewHeader env s block p) :
    (child p block.toHeaderFields).getBlockHash env.hash = env.hash block := by
  rw [CBlockIndex.getBlockHash, getBlockHeader]
  change env.hash { block.toHeaderFields with hashPrevBlock := p.getBlockHash env.hash } = _
  rw [(find_eq_some isNew.parent).2]

theorem NewHeader.fresh {block} (isNew : NewHeader env s block p) :
    child p block.toHeaderFields ∉ s.blocks := by
  intro inIndex
  exact find_eq_none isNew.unknown _ inIndex isNew.getBlockHash

/-- What `AcceptBlockHeader` can do. -/
inductive HeaderOutcome (env : IndexEnv) (s : ChainstateManager) (block : CBlockHeader) :
    ChainstateManager → Except HeaderRejection CBlockIndex → Prop where
  | refused (rejection : HeaderRejection) : HeaderOutcome env s block s (.error rejection)
  | known {b : CBlockIndex} (found : s.find env (env.hash block) = some b)
    (clean : (s.nStatus b).failed = false ∨ env.hash block = env.params.hashGenesisBlock) :
    HeaderOutcome env s block s (.ok b)
  | marked {p failed : CBlockIndex} (known : p ∈ s.blocks) (mem : failed ∈ s.failedBlocks)
    (lt : Ancestor failed p) (rejection : HeaderRejection) :
    HeaderOutcome env s block (s.markFailedChildren p failed) (.error rejection)
  | added {p : CBlockIndex} (isNew : NewHeader env s block p) :
    HeaderOutcome env s block (s.addNew (child p block.toHeaderFields))
      (.ok (child p block.toHeaderFields))

theorem addHeader_outcome (isNew : NewHeader env s block p)
    (ran : s.addHeader env minPowChecked block = (s', result)) :
    HeaderOutcome env s block s' result := by
  rw [addHeader] at ran
  split at ran
  · rw [addToBlockIndex, isNew.unknown] at ran
    simp only [newBlockIndex, isNew.parent] at ran
    cases ran
    exact .added isNew
  · cases ran
    exact .refused _

theorem acceptAfter_outcome (known : p ∈ s.blocks)
    (isNew : ((s.nStatus p).isValid .scripts = true ∨ ∀ x ∈ s.failedBlocks, ¬ Ancestor x p) →
      NewHeader env s block p)
    (ran : s.acceptAfter env now minPowChecked block p = .ok (s', result)) :
    HeaderOutcome env s block s' result := by
  obtain ⟨checked, -, ran⟩ := bind_eq_ok.mp ran
  cases checked with
  | some rejection =>
    cases ran
    exact .refused _
  | none =>
    dsimp only at ran
    split at ran
    · rename_i valid
      exact addHeader_outcome (isNew (.inl valid)) (Except.ok.inj ran)
    obtain ⟨absent, none⟩ | ⟨failed, mem, found, lt⟩ :=
      @failedAncestor_spec env p s.failedBlocks
    · rw [absent] at ran
      exact addHeader_outcome (isNew (.inr none)) (Except.ok.inj ran)
    · rw [found] at ran
      obtain ⟨⟨⟩, -, ran⟩ := bind_eq_ok.mp ran
      cases ran
      exact .marked known mem lt _

theorem acceptBlockHeader_outcome
    (rooted : ∃ g ∈ s.blocks, g.getBlockHash env.hash = env.params.hashGenesisBlock)
    (ran : s.acceptBlockHeader env now minPowChecked block = .ok (s', result)) :
    HeaderOutcome env s block s' result := by
  rw [acceptBlockHeader] at ran
  split at ran
  · rename_i isRoot
    obtain ⟨g, inIndex, rootHash⟩ := rooted
    cases found : s.find env (env.hash block) with
    | none => exact absurd (rootHash.trans isRoot.symm) (find_eq_none found g inIndex)
    | some b =>
      simp only [addHeader, addToBlockIndex, found] at ran
      split at ran
      · cases ran
        exact .known found (.inr isRoot)
      · cases ran
        exact .refused _
  · split at ran
    · rename_i b found
      split at ran
      · cases ran
        exact .refused _
      · rename_i unmarked
        cases ran
        exact .known found (.inl (Bool.not_eq_true _ ▸ unmarked))
    rename_i unknown
    split at ran
    · cases ran
      exact .refused _
    rename_i work
    split at ran
    · cases ran
      exact .refused _
    rename_i p parent
    split at ran
    · cases ran
      exact .refused _
    rename_i unmarked
    exact acceptAfter_outcome (find_eq_some parent).1 (fun remembered => ⟨parent, unknown,
      by simpa using work, Bool.not_eq_true _ ▸ unmarked, remembered⟩) ran

theorem getBlockProof_pos {nBits} (work : Pow.checkProofOfWork hash nBits env.params = true) :
    0 < getBlockProof nBits := by
  rw [Pow.checkProofOfWork] at work
  split at work
  · cases work
  rename_i valid
  simp only [Bool.or_eq_true, decide_eq_true_eq, not_or, Bool.not_eq_true] at valid
  obtain ⟨⟨⟨pos, ne⟩, noOverflow⟩, -⟩ := valid
  simp only [getBlockProof, pos, noOverflow, ne, Bool.false_or, decide_false,
    Bool.false_eq_true, if_false]
  have quotient := Nat.div_le_self (modulus - 1 - setCompact nBits)
    ((setCompact nBits + 1) % modulus)
  have lt : 1 < modulus := by decide
  rw [Nat.mod_eq_of_lt (by omega)]
  exact Nat.succ_pos _

/-- The work of a new header can be added to that of its parent. -/
def WorkFits (env : IndexEnv) (s : ChainstateManager) (block : CBlockHeader) : Prop :=
  s.find env (env.hash block) = none → ∀ p, s.find env block.hashPrevBlock = some p →
    p.nChainWork + getBlockProof block.nBits < modulus

theorem Settled.newHeader (settled : Settled env connector s tip) (isNew : NewHeader env s block p)
    (fits : WorkFits env s block) :
    child p block.toHeaderFields ∉ s.blocks ∧
      Settled env connector (s.addNew (child p block.toHeaderFields)) tip := by
  have known := (find_eq_some isNew.parent).1
  have absent := find_eq_none isNew.unknown
  have pos := getBlockProof_pos isNew.work
  have small := fits isNew.unknown p isNew.parent
  refine ⟨isNew.fresh, settled.addNew known isNew.fresh
    (fun a inIndex => isNew.getBlockHash ▸ absent a inIndex) ?_⟩
  rw [nChainWork, Nat.mod_eq_of_lt small]
  exact Nat.lt_add_of_pos_right pos

/-- The transactions of a branch if a block is given the count `count`. -/
def totalTxWith (s : ChainstateManager) (b : CBlockIndex) (count : Nat) : CBlockIndex → Nat
  | .genesis f => if genesis f = b then count else (s.entry (genesis f)).nTx
  | .child p f =>
    s.totalTxWith b count p + if child p f = b then count else (s.entry (child p f)).nTx

theorem totalTx_eq_totalTxWith {count c}
    (same : ∀ a, Ancestor a c → (s'.entry a).nTx = if a = b then count else (s.entry a).nTx) :
    s'.totalTx c = s.totalTxWith b count c := by
  induction c with
  | genesis f => exact same _ .refl
  | child p f ih =>
    rw [totalTx, totalTxWith, ih fun a lt => same a (.step lt), same _ .refl]

theorem totalTxWith_congr {count c}
    (same : ∀ a, Ancestor a c → a ≠ b → (s'.entry a).nTx = (s.entry a).nTx) :
    s'.totalTxWith b count c = s.totalTxWith b count c := by
  have here : ∀ a, Ancestor a c → (if a = b then count else (s'.entry a).nTx) =
      if a = b then count else (s.entry a).nTx := by
    intro a lt
    split
    · rfl
    · rename_i apart
      exact same a lt apart
  induction c with
  | genesis f => exact here _ .refl
  | child p f ih =>
    rw [totalTxWith, totalTxWith, here _ .refl,
      ih (fun a lt => same a (.step lt)) fun a lt => here a (.step lt)]

/-- The data of a block can be stored: its parent is linked or not marked, and no
    branch that the data completes holds a number of transactions that is zero as
    an `unsigned int`. -/
structure Storable (s : ChainstateManager) (block : CBlock) (b : CBlockIndex) : Prop where
  parent : ∀ p, b.pprev = some p → s.Linked p ∨ (s.nStatus p).failed = false
  nonempty : block.vtx.length % uintModulus ≠ 0
  countable : ∀ c, c ∈ s.blocks ∨ c = b → Ancestor b c →
    (∀ a, Ancestor a c → a = b ∨ s.Received a) →
    s.totalTxWith b (block.vtx.length % uintModulus) c % uintModulus ≠ 0

section Store

variable {block : CBlock} {pos : FlatFilePos}

/-- What is storable for a new header is storable once the header was added. -/
theorem Storable.addNew (storable : Storable s block (child p f)) (indexed : Indexed env s)
    (known : p ∈ s.blocks) (fresh : child p f ∉ s.blocks) :
    Storable (s.addNew (child p f)) block (child p f) := by
  have other : ∀ a, Ancestor a (child p f) → a ≠ child p f → a ∈ s.blocks := fun a lt apart =>
    indexed.known known (lt.pprev apart)
  constructor
  case parent =>
    intro q isParent
    cases isParent
    rw [linked_addNew fresh known, nStatus_addNew fresh known]
    exact storable.parent p rfl
  case nonempty => exact storable.nonempty
  case countable =>
    intro c inIndex lt complete
    have same : c = child p f := by
      obtain inIndex | same := inIndex
      · obtain before | same := (mem_blocks_addNew s).mp inIndex
        · exact absurd (indexed.known before lt) fresh
        · exact same
      · exact same
    subst same
    have total : (s.addNew (child p f)).totalTxWith (child p f) (block.vtx.length % uintModulus)
        (child p f) = s.totalTxWith (child p f) (block.vtx.length % uintModulus) (child p f) :=
      totalTxWith_congr fun a lower apart => by rw [entry_addNew_known fresh (other a lower apart)]
    rw [total]
    refine storable.countable _ (.inr rfl) .refl fun a lower => ?_
    by_cases apart : a = child p f
    · exact .inl apart
    · exact .inr ((received_addNew fresh (other a lower apart)).mp
        ((complete a lower).resolve_left apart))

theorem Storable.isCountable (storable : Storable s block b) (link : LinkState s []) :
    (s.storeData env block b pos).Countable := by
  intro c inIndex complete
  have nTx : ∀ a, ((s.storeData env block b pos).entry a).nTx =
      if a = b then block.vtx.length % uintModulus else (s.entry a).nTx := by
    intro a
    split
    · rename_i same
      rw [same, nTx_storeData_self]
    · rename_i apart
      rw [entry_storeData_of_ne apart]
  rw [totalTx_eq_totalTxWith fun a _ => nTx a]
  by_cases lt : Ancestor b c
  · exact storable.countable c (.inl inIndex) lt fun a lower =>
      received_storeData.mp (complete a lower)
  have before : s.Complete c := by
    intro a lower
    obtain rfl | recv := received_storeData.mp (complete a lower)
    · exact absurd lower lt
    · exact recv
  have linked := (link.linked_iff inIndex).mpr before
  have count := (link.complete inIndex linked).2
  have total : s.totalTx c = s.totalTxWith b (block.vtx.length % uintModulus) c := by
    refine totalTx_eq_totalTxWith fun a lower => ?_
    rw [if_neg]
    rintro rfl
    exact lt lower
  rw [← total, ← count]
  exact linked

end Store

variable (settled : Settled env connector s tip)
include settled

theorem Settled.acceptData (known : b ∈ s.blocks) (unmarked : (s.nStatus b).failed = false)
    (storable : arrival.failure = none → ¬ s.Received b → Storable s arrival.block b) :
    Settled env connector (s.acceptData env arrival b).1 tip := by
  rw [ChainstateManager.acceptData]
  split
  · exact settled
  rename_i notSkipped
  have fresh : ¬ s.Received b := by
    intro received
    apply notSkipped
    rw [skipData, show (s.nStatus b).haveData = true from received]
    rfl
  split
  · exact settled
  · refine settled.markFailed fun active => fresh ?_
    have linked := settled.underway.grounded.linked settled.underway.tipKnown
      settled.underway.tipLinked active
    exact settled.underway.grounded.received b known linked
  rename_i passed
  have isStorable := storable passed fresh
  refine settled.receivedBlockTransactions ⟨known, fresh, ?_⟩ unmarked isStorable.nonempty
    (isStorable.isCountable settled.indexed.link)
  intro p isParent
  refine (isStorable.parent p isParent).imp id fun clean => ?_
  cases b with
  | genesis g => cases isParent
  | child q g =>
    cases isParent
    exact BlockStatus.isValid_iff.mpr
      ⟨clean, settled.indexed.tree _ (settled.indexed.link.closed _ _ known)⟩

theorem Settled.acceptBlockHeader {block} (fits : WorkFits env s block)
    (ran : s.acceptBlockHeader env now minPowChecked block = .ok (s', result)) :
    Settled env connector s' tip := by
  obtain ⟨f, rootKnown, -, rootHash, -⟩ := settled.indexed.root
  cases acceptBlockHeader_outcome ⟨_, rootKnown, rootHash⟩ ran with
  | refused | known => exact settled
  | marked known mem lt =>
    refine settled.markFailedChildren (fun sound => ?_) lt
    have marked := (settled.indexed.failedBlocks _ mem).2
    cases (sound _ .refl).symm.trans marked
  | added isNew => exact (settled.newHeader isNew fits).2

theorem Settled.acceptBlock {accepted} (fits : WorkFits env s arrival.block.toCBlockHeader)
    (storable : arrival.failure = none → ∀ b,
      (s.addToBlockIndex env arrival.block.toCBlockHeader).2 = b → (b ∈ s.blocks → ¬ s.Received b) →
      Storable s arrival.block b) (ran : s.acceptBlock env now arrival = .ok (s', accepted)) :
    Settled env connector s' tip := by
  obtain ⟨⟨s₁, result⟩, header, ran⟩ := bind_eq_ok.mp ran
  have settled₁ := settled.acceptBlockHeader fits header
  cases result with
  | error rejection =>
    cases ran
    exact settled₁
  | ok b =>
    obtain rfl : s' = (s₁.acceptData env arrival b).1 :=
      congrArg Prod.fst (Except.ok.inj ran).symm
    obtain ⟨f, rootKnown, -, rootHash, unique⟩ := settled.indexed.root
    cases acceptBlockHeader_outcome ⟨_, rootKnown, rootHash⟩ header with
    | known found clean =>
      obtain ⟨known, hash⟩ := find_eq_some found
      have entry : (s.addToBlockIndex env arrival.block.toCBlockHeader).2 = b := by
        rw [addToBlockIndex, found]
      refine settled₁.acceptData known ?_ fun passed fresh => storable passed b entry fun _ => fresh
      obtain clean | isRoot := clean
      · exact clean
      have eq : b = genesis f := settled.indexed.hashes b known _ rootKnown
        ((hash.trans isRoot).trans rootHash.symm)
      obtain ⟨g, active⟩ := exists_genesis tip
      rw [eq, ← unique g (settled.indexed.known settled.underway.tipKnown active)]
      exact settled.underway.tipUnmarked _ active
    | @added p isNew =>
      have known := (find_eq_some isNew.parent).1
      have fresh := (settled.newHeader isNew fits).1
      have entry : (s.addToBlockIndex env arrival.block.toCBlockHeader).2 =
          child p arrival.block.toHeaderFields := by
        rw [addToBlockIndex, isNew.unknown, newBlockIndex, isNew.parent]
      refine settled₁.acceptData ((mem_blocks_addNew s).mpr (.inr rfl)) ?_ fun passed _ => ?_
      · rw [nStatus_addNew_self]
        rfl
      · exact (storable passed _ entry fun inIndex => absurd inIndex fresh).addNew settled.indexed
          known fresh

end ChainstateManager

end HobbyHash
