import HobbyHash.Chainstate.Run

/-! # Headers on blocks that are known to be invalid

A failure is recorded in the status of a block and, for blocks that were
refused or invalidated, in `m_failed_blocks`; blocks above it get their marks
later. `AcceptBlockHeader` looks at the parent and, unless the parent has been
connected before, at that set. `Guarded` says that this is enough: a block without
a mark that lies above a marked one was never connected, and lies above a block of
the set.
-/

namespace HobbyHash

open Machine CBlockIndex List

variable {p : CBlockIndex} {f : HeaderFields} {done : Bool} {start : ChainstateManager}
  {arrival : BlockArrival} {block : CBlockHeader}

namespace ChainstateManager

variable {env : IndexEnv} {connector : BlockConnector} {s s' : ChainstateManager}
  {tip b : CBlockIndex}

/-- The blocks of the active chain have arrived and were connected. -/
structure ActiveTip (connector : BlockConnector) (s : ChainstateManager) (tip : CBlockIndex) :
    Prop where
  known : tip ∈ s.blocks
  unmarked : ∀ a, Ancestor a tip → (s.nStatus a).failed = false
  received : ∀ a, Ancestor a tip → s.Received a
  accepted : ∀ p f, Ancestor (child p f) tip → connector.accepts (child p f) = true

/-- What every submission and every attempt to connect a block keeps. -/
structure Guarded (env : IndexEnv) (connector : BlockConnector) (s : ChainstateManager) : Prop where
  closed : ∀ p f, child p f ∈ s.blocks → p ∈ s.blocks
  rooted : ∃ g ∈ s.blocks, g.getBlockHash env.hash = env.params.hashGenesisBlock
  marked : ∀ b ∈ s.failedBlocks, b ∈ s.blocks ∧ (s.nStatus b).failed = true
  visible : ∀ x ∈ s.blocks, (s.nStatus x).failed = false →
    ∀ a, Ancestor a x → (s.nStatus a).failed = true →
      ¬ s.UpTo .scripts x ∧ ∃ b ∈ s.failedBlocks, Ancestor b x
  accepted : ∀ x ∈ s.blocks, s.UpTo .scripts x →
    ∀ p f, Ancestor (child p f) x → connector.accepts (child p f) = true
  received : ∀ x ∈ s.blocks, s.Linked x → s.Received x
  waits : ∀ p x, (p, x) ∈ s.blocksUnlinked → x ∈ s.blocks ∧ s.Received x
  active : ∀ tip, s.tip = some tip → ActiveTip connector s tip

/-- A block of which a check fails is the end of every branch without marks. -/
def FailsLast (env : IndexEnv) (s : ChainstateManager) (arrival : BlockArrival) : Prop :=
  arrival.failure.isSome = true → arrival.failure ≠ some .blockMutated →
    ∀ x ∈ s.blocks, Ancestor (s.addToBlockIndex env arrival.block.toCBlockHeader).2 x →
      x = (s.addToBlockIndex env arrival.block.toCBlockHeader).2 ∨ (s.nStatus x).failed = true

/-- A block above which every block that was connected and carries no mark is
    active. -/
def Invalidable (s : ChainstateManager) (b : CBlockIndex) : Prop :=
  b ∈ s.blocks ∧ ∀ x ∈ s.blocks, Ancestor b x → x ≠ b →
    (s.nStatus x).isValid .scripts = true → s.contains x = true

structure Stocked (s : ChainstateManager) (queue : List CBlockIndex) : Prop where
  linked : ∀ x ∈ s.blocks, s.Linked x → s.Received x
  waits : ∀ p x, (p, x) ∈ s.blocksUnlinked → x ∈ s.blocks ∧ s.Received x
  queued : ∀ x ∈ queue, x ∈ s.blocks ∧ s.Received x

namespace Guarded

variable (guarded : Guarded env connector s)
include guarded

theorem stocked (frame : Frame s s') : Stocked s' [] where
  linked := by
    rw [frame.blocks]
    intro x inIdx linked
    exact frame.received.mpr (guarded.received x inIdx (frame.linked.mp linked))
  waits := by
    rw [frame.blocksUnlinked, frame.blocks]
    intro p x pair
    obtain ⟨inIdx, received⟩ := guarded.waits p x pair
    exact ⟨inIdx, frame.received.mpr received⟩
  queued := nofun

theorem lowered (frame : Frame s s') {tip'} (isTip : s.tip = some tip) (lower : Ancestor tip' tip)
    (clean : ∀ a, Ancestor a tip' → (s'.nStatus a).failed = false) : ActiveTip connector s' tip' :=
  have active := guarded.active tip isTip
  { known := frame.blocks ▸ mem_blocks_of_ancestor guarded.closed active.known lower
    unmarked := clean
    received := fun a lt => frame.received.mpr (active.received a (lt.trans lower))
    accepted := fun p f lt => active.accepted p f (lt.trans lower) }

section Step

variable (blocks : s'.blocks = s.blocks) (stocked : Stocked s' [])
  (scripts : ∀ x, s'.UpTo .scripts x → s.UpTo .scripts x ∨ s'.tip = some x)
include blocks stocked scripts

/-- An operation that adds no blocks: every block above a new mark is marked too, or was
    never connected and lies above a block of the set, and only active blocks are
    connected. -/
theorem step
    (grows : ∀ x, (s.nStatus x).failed = true → (s'.nStatus x).failed = true)
    (covered : ∀ a, (s.nStatus a).failed = false → (s'.nStatus a).failed = true →
      ∀ x ∈ s.blocks, Ancestor a x → (s'.nStatus x).failed = false →
        ¬ s.UpTo .scripts x ∧ ∃ b ∈ s'.failedBlocks, Ancestor b x)
    (remembers : ∀ b ∈ s.failedBlocks, b ∈ s'.failedBlocks)
    (marked : ∀ b ∈ s'.failedBlocks, b ∈ s.blocks ∧ (s'.nStatus b).failed = true)
    (active : ∀ tip', s'.tip = some tip' → ActiveTip connector s' tip') :
    Guarded env connector s' where
  closed := blocks ▸ guarded.closed
  rooted := blocks ▸ guarded.rooted
  marked := blocks ▸ marked
  visible := by
    rw [blocks]
    intro x inIdx clean a lt failed
    have hidden : ¬ s.UpTo .scripts x ∧ ∃ b ∈ s'.failedBlocks, Ancestor b x := by
      cases before : (s.nStatus a).failed with
      | false => exact covered a before failed x inIdx lt clean
      | true =>
        have wasClean : (s.nStatus x).failed = false := by
          rw [← Bool.not_eq_true] at clean ⊢
          exact mt (grows x) clean
        obtain ⟨notScripts, b, mem, lower⟩ := guarded.visible x inIdx wasClean a lt before
        exact ⟨notScripts, b, remembers b mem, lower⟩
    refine ⟨fun valid => ?_, hidden.2⟩
    obtain before | isTip := scripts x valid
    · exact hidden.1 before
    · cases ((active x isTip).unmarked a lt).symm.trans failed
  accepted := by
    rw [blocks]
    intro x inIdx valid
    obtain before | isTip := scripts x valid
    · exact guarded.accepted x inIdx before
    · exact (active x isTip).accepted
  received := stocked.linked
  waits := stocked.waits
  active := active

theorem unmarking
    (failed : ∀ x, (s'.nStatus x).failed = (s.nStatus x).failed)
    (failedBlocks : s'.failedBlocks = s.failedBlocks)
    (active : ∀ tip', s'.tip = some tip' → ActiveTip connector s' tip') :
    Guarded env connector s' := by
  apply guarded.step blocks stocked scripts
  case grows => exact fun x => (failed x).symm ▸ id
  case covered =>
    intro a before after
    rw [failed, before] at after
    cases after
  case remembers => exact failedBlocks.symm ▸ fun _ mem => mem
  case marked =>
    intro b mem
    rw [failed]
    exact guarded.marked b (failedBlocks ▸ mem)
  case active => exact active

end Step

theorem marking {new : CBlockIndex → Prop} (frame : Frame s s')
    (validity : ∀ x, (s'.nStatus x).validity = (s.nStatus x).validity)
    (failed : ∀ x, (s'.nStatus x).failed = true ↔ new x ∨ (s.nStatus x).failed = true)
    (remembers : ∀ c ∈ s.failedBlocks, c ∈ s'.failedBlocks)
    (only : ∀ c ∈ s'.failedBlocks, c ∈ s.blocks ∧ new c ∨ c ∈ s.failedBlocks)
    (covered : ∀ a, new a → ∀ x ∈ s.blocks, Ancestor a x → ¬ new x → (s.nStatus x).failed = false →
      ¬ s.UpTo .scripts x ∧ ∃ c ∈ s'.failedBlocks, Ancestor c x)
    (lower : ∀ tip', s'.tip = some tip' → ∃ tip, s.tip = some tip ∧ Ancestor tip' tip ∧
      ∀ a, Ancestor a tip' → ¬ new a) :
    Guarded env connector s' := by
  have clean (x : CBlockIndex) : (s'.nStatus x).failed = false ↔
      ¬ new x ∧ (s.nStatus x).failed = false := by
    rw [← Bool.not_eq_true, failed, not_or, Bool.not_eq_true]
  apply guarded.step frame.blocks (guarded.stocked frame)
  case scripts =>
    intro x valid
    rw [UpTo, validity] at valid
    exact .inl valid
  case grows => exact fun x before => (failed x).mpr (.inr before)
  case covered =>
    intro a before after x inIdx above isClean
    obtain isNew | already := (failed a).mp after
    · exact covered a isNew x inIdx above ((clean x).mp isClean).1 ((clean x).mp isClean).2
    · cases before.symm.trans already
  case remembers => exact remembers
  case marked =>
    intro c mem
    obtain ⟨inIdx, isNew⟩ | before := only c mem
    · exact ⟨inIdx, (failed c).mpr (.inl isNew)⟩
    · obtain ⟨inIdx, marked⟩ := guarded.marked c before
      exact ⟨inIdx, (failed c).mpr (.inr marked)⟩
  case active =>
    intro tip' isTip'
    obtain ⟨tip, isTip, lower, off⟩ := lower tip' isTip'
    exact guarded.lowered frame isTip lower fun a lt =>
      (clean a).mpr ⟨off a lt, (guarded.active tip isTip).unmarked a (lt.trans lower)⟩

theorem markChild (lt : Ancestor a b) (failed : (s.nStatus a).failed = true) :
    Guarded env connector (s.markChild b) := by
  apply guarded.marking frame_markChild (fun _ => validity_markChild) fun _ => failed_markChild
  case remembers => exact fun _ mem => mem
  case only => exact fun _ mem => .inr mem
  case covered =>
    rintro _ rfl x inIdx above - clean
    exact guarded.visible x inIdx clean a (lt.trans above) failed
  case lower =>
    refine fun tip' isTip => ⟨tip', isTip, .refl, ?_⟩
    rintro _ lower rfl
    cases ((guarded.active tip' isTip).unmarked a (lt.trans lower)).symm.trans failed

/-- A block that is not active can be marked if no block above it was connected and
    is not marked itself, and all of them lie above a block of the new set. -/
theorem markFailed (known : b ∈ s.blocks) {failedBlocks : List CBlockIndex}
    (remembers : ∀ c ∈ s.failedBlocks, c ∈ failedBlocks)
    (only : ∀ c ∈ failedBlocks, c = b ∨ c ∈ s.failedBlocks)
    (off : ∀ tip, s.tip = some tip → ¬ Ancestor b tip)
    (covered : ∀ x ∈ s.blocks, Ancestor b x → x ≠ b → (s.nStatus x).failed = false →
      ¬ s.UpTo .scripts x ∧ ∃ c ∈ failedBlocks, Ancestor c x) :
    Guarded env connector { s.markFailed b with failedBlocks } := by
  have frame : Frame s { s.markFailed b with failedBlocks } :=
    frame_markFailed.trans (.aside _ _ _ _ _ _)
  apply guarded.marking frame (fun _ => validity_markFailed) (fun _ => failed_markFailed) remembers
  case only =>
    intro c mem
    obtain rfl | before := only c mem
    · exact .inl ⟨known, rfl⟩
    · exact .inr before
  case covered =>
    rintro _ rfl
    exact covered
  case lower =>
    refine fun tip' isTip => ⟨tip', isTip, .refl, ?_⟩
    rintro _ lower rfl
    exact off tip' isTip lower

theorem aside (cands : List CBlockIndex) (bestInvalid bestHeader : Option CBlockIndex) :
    Guarded env connector
      { s with setBlockIndexCandidates := cands, bestInvalid, bestHeader } := by
  have frame : Frame s _ := .aside s cands s.failedBlocks s.tip bestInvalid bestHeader
  refine guarded.unmarking rfl (guarded.stocked frame) (fun _ => .inl) (fun _ => rfl) rfl
    fun tip' isTip => guarded.lowered frame isTip .refl (guarded.active tip' isTip).unmarked

theorem disconnect (isTip : s.tip = some (child p f)) :
    Guarded env connector { s with tip := some p } := by
  have frame : Frame s { s with tip := some p } := .aside s _ _ _ _ _
  refine guarded.unmarking rfl (guarded.stocked frame) (fun _ => .inl) (fun _ => rfl) rfl ?_
  rintro _ ⟨⟩
  exact guarded.lowered frame isTip (.step .refl) fun a lt =>
    (guarded.active _ isTip).unmarked a (.step lt)

/-- A block that is refused was never connected, and no block above it was. -/
theorem refuse (isTip : s.tip = some p) (known : child p f ∈ s.blocks)
    (refused : connector.accepts (child p f) = false) :
    Guarded env connector { s.markFailed (child p f) with
      failedBlocks := s.failedBlocks.insert (child p f) } := by
  apply guarded.markFailed known
  case remembers => exact fun _ mem => mem_insert_of_mem mem
  case only => exact fun _ mem => mem_insert_iff.mp mem
  case off =>
    intro tip isTip' active
    cases isTip.symm.trans isTip'
    exact not_ancestor_child active
  case covered =>
    intro x inIdx above _ _
    refine ⟨fun valid => ?_, child p f, mem_insert_self, above⟩
    cases (guarded.accepted x inIdx valid p f above).symm.trans refused

theorem connect (isTip : s.tip = some p) (mem : child p f ∈ s.blocks)
    (linked : s.Linked (child p f)) (unmarked : (s.nStatus (child p f)).failed = false)
    (accepts : connector.accepts (child p f) = true) :
    Guarded env connector { s.recordConnected env connector (child p f) with
      tip := some (child p f) } := by
  have frame : Frame s { s.recordConnected env connector (child p f) with
      tip := some (child p f) } := frame_recordConnected.trans (.aside _ _ _ _ _ _)
  apply guarded.unmarking frame.blocks (guarded.stocked frame)
  case scripts =>
    intro a valid
    by_cases same : a = child p f
    · rw [same]
      exact .inr rfl
    · rw [UpTo, nStatus, ← entry_recordConnected_of_ne same]
      exact .inl valid
  case failed => exact fun a => failed_recordConnected
  case failedBlocks =>
    obtain ⟨entry, only⟩ := @recordConnected_eq env connector s (child p f)
    rw [only]
  case active =>
    rintro _ ⟨⟩
    have active := guarded.active p isTip
    refine ⟨frame.blocks ▸ mem, fun a lt => failed_recordConnected.trans ?_,
      fun a lt => frame.received.mpr ?_, fun q g lt => ?_⟩
    all_goals cases lt with
    | refl => first | exact unmarked | exact guarded.received _ mem linked | exact accepts
    | step lower =>
      first | exact active.unmarked a lower | exact active.received a lower
            | exact active.accepted q g lower

theorem write (written : Write env connector s s') : Guarded env connector s' := by
  cases written with
  | aside cands bestInvalid bestHeader => exact guarded.aside cands bestInvalid bestHeader
  | inherit isTip known lt failed off => exact guarded.markChild lt failed
  | refuse isTip known refused => exact guarded.refuse isTip known refused
  | disconnect isTip => exact guarded.disconnect isTip
  | connect isTip known linked unmarked accepts =>
    exact guarded.connect isTip known linked unmarked accepts

theorem addNew (known : p ∈ s.blocks) (fresh : child p f ∉ s.blocks)
    (clean : ∀ a, Ancestor a p → (s.nStatus a).failed = false) :
    Guarded env connector (s.addNew (child p f)) := by
  have inIdx : ∀ x a, x ∈ s.blocks → Ancestor a x → a ∈ s.blocks := fun x a mem lt =>
    mem_blocks_of_ancestor guarded.closed mem lt
  have status : ∀ x a, x ∈ s.blocks → Ancestor a x →
      (s.addNew (child p f)).nStatus a = s.nStatus a := fun x a mem lt =>
    nStatus_addNew fresh (inIdx x a mem lt)
  have newStatus : (s.addNew (child p f)).nStatus (child p f) = { validity := .tree } := by
    rw [nStatus_addNew_self]
  constructor
  case closed =>
    intro q g mem
    refine known_addNew (closed_addNew (fun r isParent => ?_) guarded.closed mem)
    cases isParent
    exact known
  case rooted =>
    obtain ⟨g, mem, hash⟩ := guarded.rooted
    exact ⟨g, known_addNew mem, hash⟩
  case marked =>
    intro b mem
    obtain ⟨before, failed⟩ := guarded.marked b mem
    rw [nStatus_addNew fresh before]
    exact ⟨known_addNew before, failed⟩
  case visible =>
    refine forall_addNew.mpr ⟨fun x before unmarked a lt marked => ?_, fun _ a lt marked => ?_⟩
    · rw [status x x before .refl] at unmarked
      rw [status x a before lt] at marked
      rw [upTo_addNew fresh before]
      exact guarded.visible x before unmarked a lt marked
    · cases lt with
      | refl => cases (newStatus ▸ marked)
      | step lower => cases (status p a known lower ▸ clean a lower).symm.trans marked
  case accepted =>
    refine forall_addNew.mpr ⟨fun x before valid => ?_, fun valid => ?_⟩
    · exact guarded.accepted x before ((upTo_addNew fresh before _).mp valid)
    · rw [UpTo, newStatus] at valid
      exact absurd valid (by decide)
  case received =>
    refine forall_addNew.mpr ⟨fun x before linked => ?_, not_linked_addNew.elim⟩
    rw [linked_addNew fresh before] at linked
    exact (received_addNew fresh before).mpr (guarded.received x before linked)
  case waits =>
    intro q x pair
    obtain ⟨before, received⟩ := guarded.waits q x pair
    exact ⟨known_addNew before, (received_addNew fresh before).mpr received⟩
  case active =>
    intro tip isTip
    have active := guarded.active tip isTip
    refine ⟨known_addNew active.known, fun a lt => ?_, fun a lt => ?_, active.accepted⟩
    · rw [status tip a active.known lt]
      exact active.unmarked a lt
    · rw [received_addNew fresh (inIdx tip a active.known lt)]
      exact active.received a lt

theorem newHeader (isNew : NewHeader env s block p) :
    ∀ a, Ancestor a p → (s.nStatus a).failed = false := by
  intro a lt
  by_contra marked
  rw [Bool.not_eq_false] at marked
  have known := (find_eq_some isNew.parent).1
  obtain ⟨notScripts, b, mem, lower⟩ := guarded.visible p known isNew.unmarked a lt marked
  obtain valid | none := isNew.remembered
  · exact notScripts (BlockStatus.isValid_iff.mp valid).2
  · exact none b mem lower

theorem markFailedChildren {failed} (lt : Ancestor failed p)
    (marked : (s.nStatus failed).failed = true) :
    Guarded env connector (s.markFailedChildren p failed) :=
  (markFailedChildren_induction
    (motive := fun s => Guarded env connector s ∧ (s.nStatus failed).failed = true) lt
    (fun _ _ above kept => ⟨kept.1.markChild above kept.2, failed_markChild.mpr (.inr kept.2)⟩)
    ⟨guarded, marked⟩).1

theorem acceptBlockHeader {now minPowChecked res}
    (ran : s.acceptBlockHeader env now minPowChecked block = .ok (s', res)) :
    Guarded env connector s' := by
  cases acceptBlockHeader_outcome guarded.rooted ran with
  | refused | known => exact guarded
  | marked known mem lt => exact guarded.markFailedChildren lt (guarded.marked _ mem).2
  | added isNew =>
    exact guarded.addNew (find_eq_some isNew.parent).1 isNew.fresh (guarded.newHeader isNew)

end Guarded

section Data

variable {block : CBlock} {pos : FlatFilePos}

theorem upTo_scripts_storeData :
    (s.storeData env block b pos).UpTo .scripts a ↔ s.UpTo .scripts a := by
  by_cases same : a = b
  · subst same
    rw [UpTo, UpTo, nStatus, storeData, entry_modify_self, nStatus]
    rw [BlockStatus.raiseValidity]
    split
    · rfl
    split
    · rename_i lower
      have low : BlockValidity.transactions.level < BlockValidity.scripts.level := by decide
      dsimp only at lower ⊢
      omega
    · rfl
  · rw [UpTo, UpTo, nStatus, entry_storeData_of_ne same, nStatus]

theorem Stocked.round (stocked : Stocked s (pindex :: queue)) :
    Stocked ((s.linkBlock env pindex).dropWaiting pindex)
      (queue ++ (s.linkBlock env pindex).waiting pindex) := by
  have relinked := relinked_linkBlock env s pindex
  constructor
  case linked =>
    intro x inIdx linked
    rw [relinked.received]
    by_cases same : x = pindex
    · rw [same]
      exact (stocked.queued pindex mem_cons_self).2
    · change (s.linkBlock env pindex).Linked x at linked
      rw [Linked, entry_linkBlock_of_ne _ _ _ same] at linked
      exact stocked.linked x (relinked.blocks ▸ inIdx) linked
  case waits =>
    intro p x pair
    have before := (mem_dropWaiting.mp pair).1
    rw [blocksUnlinked_linkBlock] at before
    rw [relinked.received, relinked.blocks]
    exact stocked.waits p x before
  case queued =>
    intro x mem
    rw [relinked.received, relinked.blocks]
    obtain inQueue | waiting := mem_append.mp mem
    · exact stocked.queued x (mem_cons_of_mem _ inQueue)
    · have pair := mem_waiting.mp waiting
      rw [blocksUnlinked_linkBlock] at pair
      exact stocked.waits pindex x pair

theorem Stocked.receivedBlockTransactions (stocked : Stocked s []) (known : b ∈ s.blocks) :
    Stocked (s.receivedBlockTransactions env block b pos) [] := by
  have stored : Stocked (s.storeData env block b pos) [b] := by
    constructor
    case linked =>
      intro x inIdx linked
      rw [received_storeData]
      by_cases same : x = b
      · exact .inl same
      · rw [Linked, entry_storeData_of_ne same] at linked
        exact .inr (stocked.linked x inIdx linked)
    case waits =>
      intro p x pair
      obtain ⟨inIdx, recv⟩ := stocked.waits p x pair
      exact ⟨inIdx, received_storeData.mpr (.inr recv)⟩
    case queued =>
      intro x mem
      rw [mem_singleton.mp mem]
      exact ⟨known, received_storeData.mpr (.inl rfl)⟩
  have linked : Stocked ((s.storeData env block b pos).linkQueue env [b]) [] :=
    linkQueue_induction Stocked (fun _ _ _ before => before.round) stored
  rw [ChainstateManager.receivedBlockTransactions]
  split
  · exact linked
  split
  · exact linked
  split
  · refine { stored with waits := ?_, queued := by rintro _ ⟨⟩ }
    intro p x pair
    obtain before | new := mem_append.mp pair
    · exact stored.waits p x before
    · cases mem_singleton.mp new
      exact stored.queued b mem_cons_self
  · exact { stored with queued := by rintro _ ⟨⟩ }

end Data

namespace Guarded

variable (guarded : Guarded env connector s)
include guarded

theorem receivedBlockTransactions {block pos} (mem : b ∈ s.blocks) :
    Guarded env connector (s.receivedBlockTransactions env block b pos) := by
  have stocked : Stocked (s.receivedBlockTransactions env block b pos) [] :=
    Stocked.receivedBlockTransactions ⟨guarded.received, guarded.waits, nofun⟩
      mem
  have relinked := @relinked_received env s block b pos
  apply guarded.unmarking relinked.blocks stocked
  case scripts =>
    intro x valid
    rw [UpTo, relinked.nStatus] at valid
    exact .inl (upTo_scripts_storeData.mp valid)
  case failed =>
    intro x
    rw [relinked.nStatus]
    exact (marks_storeData x).2.1
  case failedBlocks => exact relinked.failedBlocks
  case active =>
    rw [relinked.tip]
    intro tip isTip
    have active := guarded.active tip isTip
    refine ⟨relinked.blocks ▸ active.known, fun a lt => ?_, fun a lt => ?_, active.accepted⟩
    · rw [relinked.nStatus, (marks_storeData a).2.1]
      exact active.unmarked a lt
    · exact relinked.received.mpr (received_storeData.mpr (.inr (active.received a lt)))

theorem acceptData (known : b ∈ s.blocks)
    (last : arrival.failure.isSome = true → arrival.failure ≠ some .blockMutated →
      ∀ x ∈ s.blocks, Ancestor b x → x = b ∨ (s.nStatus x).failed = true) :
    Guarded env connector (s.acceptData env arrival b).1 := by
  rw [ChainstateManager.acceptData]
  split
  · exact guarded
  rename_i notSkipped
  split
  · exact guarded
  · rename_i reason notMutated failure
    apply guarded.markFailed known
    case remembers => exact fun _ mem => mem
    case only => exact fun _ mem => .inr mem
    case off =>
      intro tip isTip active
      have recv : (s.nStatus b).haveData = true := (guarded.active tip isTip).received b active
      apply notSkipped
      rw [skipData, recv]
      rfl
    case covered =>
      intro x inIdx above other clean
      have isFailure : arrival.failure.isSome = true := by rw [failure]; rfl
      have ne : arrival.failure ≠ some .blockMutated := by
        rw [failure]
        exact fun same => notMutated (Option.some.inj same)
      obtain same | marked := last isFailure ne x inIdx above
      · exact absurd same other
      · cases clean.symm.trans marked
  · exact guarded.receivedBlockTransactions known

/-- `AcceptBlock` marks a block of which a check fails without entering it into the
    set, so no block without a mark may be known above it. -/
theorem acceptBlock {now accepted} (last : FailsLast env s arrival)
    (ran : s.acceptBlock env now arrival = .ok (s', accepted)) :
    Guarded env connector s' := by
  obtain ⟨⟨s₁, res⟩, header, ran⟩ := bind_eq_ok.mp ran
  have guarded₁ := guarded.acceptBlockHeader header
  cases res with
  | error rejection =>
    cases ran
    exact guarded₁
  | ok b =>
    obtain rfl : s' = (s₁.acceptData env arrival b).1 :=
      congrArg Prod.fst (Except.ok.inj ran).symm
    cases acceptBlockHeader_outcome guarded.rooted header with
    | known found =>
      have entry : (s.addToBlockIndex env arrival.block.toCBlockHeader).2 = b := by
        rw [addToBlockIndex, found]
      apply guarded₁.acceptData (find_eq_some found).1
      intro isFailure notMutated
      exact entry ▸ last isFailure notMutated
    | added isNew =>
      apply guarded₁.acceptData ((mem_blocks_addNew s).mpr (.inr rfl))
      intro _ _ x inIdx above
      obtain before | same := (mem_blocks_addNew s).mp inIdx
      · exact absurd (mem_blocks_of_ancestor guarded.closed before above) isNew.fresh
      · exact .inl same

end Guarded

/-- What the loop of `InvalidateBlock` has done: the active blocks from `b` on have been
    marked and disconnected down to `tip'`. -/
structure Withdrawn (b tip tip' : CBlockIndex) (s s' : ChainstateManager) : Prop where
  frame : Frame s s'
  validity : ∀ x, (s'.nStatus x).validity = (s.nStatus x).validity
  failed : ∀ x, (s'.nStatus x).failed = true ↔
    (Ancestor b x ∧ Ancestor x tip ∧ ¬ Ancestor x tip') ∨ (s.nStatus x).failed = true
  failedBlocks : s'.failedBlocks = s.failedBlocks
  isTip : s'.tip = some tip'
  lower : Ancestor tip' tip
  clean : ∀ a, Ancestor a tip' → (s'.nStatus a).failed = false

theorem Withdrawn.refl (isTip : s.tip = some tip)
    (clean : ∀ a, Ancestor a tip → (s.nStatus a).failed = false) : Withdrawn b tip tip s s where
  frame := .refl s
  validity _ := rfl
  failed _ := ⟨.inr, fun either => either.resolve_left fun both => both.2.2 both.2.1⟩
  failedBlocks := rfl
  isTip := isTip
  lower := .refl
  clean := clean

theorem Withdrawn.round (active : Ancestor b (child p f))
    (withdrawn : Withdrawn b tip (child p f) s v.manager) :
    Withdrawn b tip p s (invalidateTip env v (child p f) p).manager := by
  have other : v.toMarkFailed = p → (v.manager.nStatus p).failedValid = false := fun _ =>
    (Bool.or_eq_false_iff.mp (withdrawn.clean p (.step .refl))).1
  obtain ⟨cands, written, -⟩ := @invalidateTip_eq env v p f other
  have marked : ∀ x, ((invalidateTip env v (child p f) p).manager.nStatus x).failed = true ↔
      x = child p f ∨ (v.manager.nStatus x).failed = true := by
    intro x
    rw [written]
    exact failed_markFailed
  constructor
  case frame =>
    rw [written]
    exact withdrawn.frame.trans
      (((Frame.aside v.manager _ _ _ _ _).trans frame_markFailed).trans (.aside _ _ _ _ _ _))
  case validity =>
    intro x
    rw [← withdrawn.validity, written]
    exact validity_markFailed
  case failed =>
    intro x
    rw [marked, withdrawn.failed]
    constructor
    · rintro (rfl | ⟨fromB, upTo, off⟩ | before)
      · exact .inl ⟨active, withdrawn.lower, not_ancestor_child⟩
      · exact .inl ⟨fromB, upTo, fun lower => off (.step lower)⟩
      · exact .inr before
    · rintro (⟨fromB, upTo, off⟩ | before)
      · by_cases same : x = child p f
        · exact .inl same
        · exact .inr (.inl ⟨fromB, upTo, fun lower => off (lower.pprev same)⟩)
      · exact .inr (.inr before)
  case failedBlocks =>
    rw [← withdrawn.failedBlocks, written]
    rfl
  case isTip =>
    rw [written]
    rfl
  case lower => exact .trans (.step .refl) withdrawn.lower
  case clean =>
    intro a lt
    rw [← Bool.not_eq_true, marked, not_or, Bool.not_eq_true]
    refine ⟨?_, withdrawn.clean a (.step lt)⟩
    rintro rfl
    exact not_ancestor_child lt

theorem invalidateBlock_cases (isTip : s.tip = some tip)
    (clean : ∀ a, Ancestor a tip → (s.nStatus a).failed = false)
    (ran : s.invalidateBlock env b = .ok (s', done)) :
    s' = s ∨ ∃ mid tip' setBlockIndexCandidates bestInvalid bestHeader, Withdrawn b tip tip' s mid ∧
      ¬ Ancestor b tip' ∧ s' = { mid.withdrawn b with
        setBlockIndexCandidates, bestInvalid, bestHeader } := by
  by_cases notRoot : b.nHeight = 0
  · rw [invalidateBlock, if_pos notRoot] at ran
    cases ran
    exact .inl rfl
  obtain ⟨v, tip', withdrawn, -, off, finish⟩ := @invalidateBlock_eq env s tip b
    (fun tip' w => Withdrawn b tip tip' s w.manager) notRoot isTip (.refl isTip clean)
    (fun _ _ withdrawn => withdrawn.isTip) fun _ _ _ active withdrawn => withdrawn.round active
  obtain ⟨cands, inserted, -⟩ := @foldl_insertCandidate (v.manager.withdrawn b)
    ((v.manager.withdrawn b).blocks.filter ((v.manager.withdrawn b).missingCandidate env tip'))
  have isTip' : (v.manager.withdrawn b).tip = some tip' := withdrawn.isTip
  obtain ⟨bestInvalid, bestHeader, finished⟩ := finish cands
    ((foldl_addMissingCandidate isTip' _).trans inserted)
  cases finished.symm.trans ran
  exact .inr ⟨v.manager, tip', cands, bestInvalid, bestHeader, withdrawn, off, rfl⟩

theorem tip_foldl_addMissingCandidate (l : List CBlockIndex) :
    (l.foldl (addMissingCandidate env) s).tip = s.tip := by
  induction l generalizing s with
  | nil => rfl
  | cons c rest ih =>
    rw [foldl_cons, ih, addMissingCandidate]
    split
    · rfl
    · split
      · rfl
      · rfl

theorem invalidChainFound_none (absent : s.tip = none) : s.invalidChainFound b ≠ .ok s' := by
  intro found
  rw [invalidChainFound, absent] at found
  cases found

theorem invalidateBlock_none (isTip : s.tip = none)
    (ran : s.invalidateBlock env b = .ok (s', done)) :
    s' = s := by
  rw [invalidateBlock] at ran
  split at ran
  · cases ran
    rfl
  rw [isTip] at ran
  have inactive : ¬ s.contains b = true := by
    rw [contains, isTip]
    exact Bool.false_ne_true
  change (if s.contains b = true then _ else _) = _ at ran
  rw [if_neg inactive] at ran
  obtain ⟨last, found, -⟩ := bind_eq_ok.mp ran
  exact absurd found (invalidChainFound_none ((tip_foldl_addMissingCandidate _).trans isTip))

theorem Guarded.invalidateBlock (guarded : Guarded env connector s) (invalidable : s.Invalidable b)
    (ran : s.invalidateBlock env b = .ok (s', done)) :
    Guarded env connector s' := by
  cases isTip : s.tip with
  | none =>
    rw [invalidateBlock_none isTip ran]
    exact guarded
  | some tip =>
    obtain rfl | ⟨mid, tip', cands, bestInvalid, bestHeader, withdrawn, off, rfl⟩ :=
      invalidateBlock_cases isTip (guarded.active tip isTip).unmarked ran
    · exact guarded
    obtain ⟨known, conn⟩ := invalidable
    have above : ∀ x, x = b ∨ Ancestor b x ∧ Ancestor x tip ∧ ¬ Ancestor x tip' → Ancestor b x := by
      rintro x (rfl | ⟨above, -⟩)
      · exact .refl
      · exact above
    apply guarded.marking ((withdrawn.frame.trans frame_markFailed).trans (.aside _ _ _ _ _ _))
    case validity => exact fun x => validity_markFailed.trans (withdrawn.validity x)
    case failed =>
      intro x
      exact failed_markFailed.trans ((or_congr_right (withdrawn.failed x)).trans or_assoc.symm)
    case remembers =>
      exact fun c mem => mem_insert_of_mem (withdrawn.failedBlocks.symm ▸ mem)
    case only =>
      intro c mem
      obtain rfl | before := mem_insert_iff.mp mem
      · exact .inl ⟨known, .inl rfl⟩
      · exact .inr (withdrawn.failedBlocks ▸ before)
    case covered =>
      intro a isNew x inIdx aboveA stays clean
      have aboveB := (above a isNew).trans aboveA
      refine ⟨fun valid => ?_, b, mem_insert_self, aboveB⟩
      rw [not_or] at stays
      have active := conn x inIdx aboveB stays.1
        (BlockStatus.isValid_iff.mpr ⟨clean, valid⟩)
      exact stays.2 ⟨aboveB, (contains_iff isTip).mp active, fun lower => off (aboveB.trans lower)⟩
    case lower =>
      intro last isLast
      cases withdrawn.isTip.symm.trans isLast
      exact ⟨tip, isTip, withdrawn.lower, fun a lt isNew => off ((above a isNew).trans lt)⟩

/-- An index that was just loaded: the set is empty, and every block above a marked
    one is marked. -/
structure Fresh (env : IndexEnv) (connector : BlockConnector) (s : ChainstateManager) : Prop where
  closed : ∀ p f, child p f ∈ s.blocks → p ∈ s.blocks
  rooted : ∃ g ∈ s.blocks, g.getBlockHash env.hash = env.params.hashGenesisBlock
  failedBlocks : s.failedBlocks = []
  inherited : ∀ x ∈ s.blocks, ∀ a, Ancestor a x → (s.nStatus a).failed = true →
    (s.nStatus x).failed = true
  accepted : ∀ x ∈ s.blocks, s.UpTo .scripts x →
    ∀ p f, Ancestor (child p f) x → connector.accepts (child p f) = true
  received : ∀ x ∈ s.blocks, s.Linked x → s.Received x
  waits : ∀ p x, (p, x) ∈ s.blocksUnlinked → x ∈ s.blocks ∧ s.Received x
  tipKnown : ∀ tip, s.tip = some tip → tip ∈ s.blocks
  tipUnmarked : ∀ tip, s.tip = some tip → (s.nStatus tip).failed = false
  tipReceived : ∀ tip, s.tip = some tip → ∀ a, Ancestor a tip → s.Received a
  tipAccepted : ∀ tip, s.tip = some tip →
    ∀ p f, Ancestor (child p f) tip → connector.accepts (child p f) = true

theorem Fresh.guarded (fresh : Fresh env connector s) : Guarded env connector s := by
  refine { fresh with marked := ?_, visible := ?_, active := fun tip isTip =>
    ⟨fresh.tipKnown tip isTip, ?_, fresh.tipReceived tip isTip, fresh.tipAccepted tip isTip⟩ }
  · rw [fresh.failedBlocks]
    exact nofun
  · intro x inIdx clean a lt marked
    cases (fresh.inherited x inIdx a lt marked).symm.trans clean
  intro a lt
  by_contra marked
  rw [Bool.not_eq_false] at marked
  have tipMarked := fresh.inherited tip (fresh.tipKnown tip isTip) a lt marked
  rw [fresh.tipUnmarked tip isTip] at tipMarked
  cases tipMarked

/-- Headers and blocks are submitted, blocks are connected, refused and
    disconnected, and the user invalidates blocks. -/
inductive Submits (env : IndexEnv) (connector : BlockConnector) (start : ChainstateManager) :
    ChainstateManager → Prop where
  | start : Submits env connector start start
  | header {s s' : ChainstateManager} {now : Int} {minPowChecked : Bool} {block : CBlockHeader}
      {result : Except HeaderRejection CBlockIndex} (before : Submits env connector start s)
      (ran : s.acceptBlockHeader env now minPowChecked block = .ok (s', result)) :
      Submits env connector start s'
  | block {s s' : ChainstateManager} {now : Int} {arrival : BlockArrival} {accepted : Bool}
      (before : Submits env connector start s) (last : FailsLast env s arrival)
      (ran : s.acceptBlock env now arrival = .ok (s', accepted)) : Submits env connector start s'
  | attempt {s s' : ChainstateManager} (before : Submits env connector start s)
      (written : Write env connector s s') : Submits env connector start s'
  | invalidate {s s' : ChainstateManager} {b : CBlockIndex} {done : Bool}
      (before : Submits env connector start s) (invalidable : s.Invalidable b)
      (ran : s.invalidateBlock env b = .ok (s', done)) : Submits env connector start s'

theorem Submits.guarded (fresh : Fresh env connector start)
    (reached : Submits env connector start s) : Guarded env connector s := by
  induction reached with
  | start => exact fresh.guarded
  | header _ ran ih => exact ih.acceptBlockHeader ran
  | block _ last ran ih => exact ih.acceptBlock last ran
  | attempt _ written ih => exact ih.write written
  | invalidate _ invalidable ran ih => exact ih.invalidateBlock invalidable ran

/-- A call of `ActivateBestChain` on a settled index is a sequence of attempts. -/
theorem Submits.activateBestChain (reached : Submits env connector start s)
    (settled : Settled env connector s tip)
    (ran : s.activateBestChain env connector passes = .ok (some s')) :
    Submits env connector start s' := by
  obtain ⟨tip', floor, -, writes, -⟩ :=
    (activateBestChain_ensures settled.underway passes).of_eq_ok ran s' rfl
  clear ran
  induction writes with
  | refl => exact reached
  | tail _ written ih => exact ih.attempt written

/-- `AcceptBlockHeader` adds no header to a branch that carries a mark. -/
theorem newHeader_unmarked {start : ChainstateManager} {now : Int} {minPowChecked : Bool}
    {block : CBlockHeader} {result : Except HeaderRejection CBlockIndex}
    (fresh : Fresh env connector start) (reached : Submits env connector start s)
    (ran : s.acceptBlockHeader env now minPowChecked block = .ok (s', result)) :
    ∀ b ∈ s'.blocks, b ∉ s.blocks → ∀ a ∈ s.blocks, Ancestor a b →
      (s.nStatus a).failed = false := by
  have guarded := reached.guarded fresh
  intro b after new a inIndex below
  cases acceptBlockHeader_outcome guarded.rooted ran with
  | refused | known => exact absurd after new
  | marked =>
    rw [blocks_markFailedChildren] at after
    exact absurd after new
  | added isNew =>
    obtain before | rfl := (mem_blocks_addNew s).mp after
    · exact absurd before new
    · cases below with
      | refl => exact absurd inIndex new
      | step lower => exact guarded.newHeader isNew a lower

theorem GenesisBlock.fresh_started (g : GenesisBlock env) : Fresh env connector g.started := by
  have isTip : ∀ tip, g.started.tip = some tip → tip = g.index := fun tip same =>
    (Option.some.inj same).symm
  have only : ∀ a, Ancestor a g.index → a = g.index := fun a lt => by
    cases lt
    rfl
  constructor
  case closed => exact fun p f inIdx => absurd inIdx g.only_index
  case rooted => exact ⟨g.index, g.mem_started.mpr rfl, g.hash_index⟩
  case failedBlocks => rw [g.started_eq]; rfl
  case inherited =>
    intro x inIdx a lt marked
    rw [g.mem_started.mp inIdx] at lt ⊢
    rwa [only a lt] at marked
  case accepted =>
    intro x inIdx _ p f lt
    rw [g.mem_started.mp inIdx] at lt
    cases lt
  case received =>
    intro x inIdx _
    rw [g.mem_started.mp inIdx]
    exact g.received_started
  case waits =>
    rw [g.started_eq]
    exact nofun
  case tipKnown => exact fun tip same => g.mem_started.mpr (isTip tip same)
  case tipUnmarked =>
    intro tip same
    rw [isTip tip same, g.nStatus_started]
    rfl
  case tipReceived =>
    intro tip same a lt
    rw [isTip tip same] at lt
    rw [only a lt]
    exact g.received_started
  case tipAccepted =>
    intro tip same p f lt
    rw [isTip tip same] at lt
    cases lt

/-- The block with the given hash arrives, and one of its checks fails. -/
def failingArrival (hash : UInt32) (hashPrevBlock : Uint256) : BlockArrival where
  block := exampleBlock hash hashPrevBlock
  fRequested := true
  minPowChecked := true
  failure := some .blockConsensus
  blockPos := ⟨0, 8⟩

theorem failsLast_exampleLow :
    FailsLast exampleEnv exampleGenesis.started (failingArrival 4 1) := by
  have entry : (exampleGenesis.started.addToBlockIndex exampleEnv
      (failingArrival 4 1).block.toCBlockHeader).2 = exampleLow := by decide +kernel
  intro _ _ x inIdx above
  rw [entry, exampleGenesis.mem_started.mp inIdx] at above
  cases above

/-- A block without known children fails, and then a header arrives on its parent. -/
theorem newHeader_unmarked_sibling : ∃ (s s' : ChainstateManager)
    (result : Except HeaderRejection CBlockIndex),
    (s.nStatus exampleLow).failed = true ∧
    s.acceptBlockHeader exampleEnv (2 * 10 ^ 18) true (exampleHeader 2 1) = .ok (s', result) ∧
    exampleShort ∈ s'.blocks ∧ exampleShort ∉ s.blocks ∧
    ∀ a ∈ s.blocks, Ancestor a exampleShort → (s.nStatus a).failed = false := by
  have evaluated : ((exampleGenesis.started.acceptBlock exampleEnv (2 * 10 ^ 18)
      (failingArrival 4 1)).toOption.bind fun first =>
        (first.1.acceptBlockHeader exampleEnv (2 * 10 ^ 18) true (exampleHeader 2 1)).toOption.map
          fun second => decide ((first.1.nStatus exampleLow).failed = true ∧
            exampleShort ∈ second.1.blocks ∧ exampleShort ∉ first.1.blocks)) = some true := by
    decide +kernel
  obtain ⟨⟨s, accepted⟩, arrived, rest⟩ := Option.bind_eq_some_iff.mp evaluated
  obtain ⟨⟨s', result⟩, added, facts⟩ := Option.map_eq_some_iff.mp rest
  obtain ⟨failed, after, before⟩ := of_decide_eq_true facts
  have reached : Submits exampleEnv (refusing none) exampleGenesis.started s :=
    .block .start failsLast_exampleLow (toOption_eq_some.mp arrived)
  have ran := toOption_eq_some.mp added
  exact ⟨s, s', result, failed, ran, after, before,
    newHeader_unmarked exampleGenesis.fresh_started reached ran exampleShort after before⟩

/-- Whether a header with the given hash is added to a branch that carries a mark. -/
def addedOnFailed (s : ChainstateManager) (hash : UInt32) (hashPrevBlock : Uint256) : Bool :=
  match s.acceptBlockHeader exampleEnv (2 * 10 ^ 18) true (exampleHeader hash hashPrevBlock) with
  | .error _ => false
  | .ok (s', _) => s'.blocks.any fun b =>
    !s.blocks.contains b && b.path.any fun a => s.blocks.contains a && (s.nStatus a).failed

/-- Where a header is added to a branch that carries a mark: a check fails for a
    block with a known child; a block is invalidated that was connected before and
    is not active any more. -/
theorem newHeader_on_failed :
    (exampleRun (refusing none)
        [headerArrives 4 1, headerArrives 5 4, .acceptBlock (2 * 10 ^ 18) (failingArrival 4 1)]).map
      (addedOnFailed · 6 5) = some true ∧
    (exampleRun (refusing none)
        [dataArrives 4 1, dataArrives 5 4, .activateBestChain, dataArrives 2 1, dataArrives 3 2,
          dataArrives 7 3, .activateBestChain, .invalidateBlock exampleLow]).map
      (addedOnFailed · 6 5) = some true := by
  decide +kernel

end ChainstateManager

end HobbyHash
