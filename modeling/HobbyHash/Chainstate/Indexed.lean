import HobbyHash.Chainstate.BestChain

/-! # What every operation keeps about the index

`Indexed` is about the blocks and their marks; together with `Underway`, where
the floor is the tip itself, it gives the assertions of `CheckBlockIndex`. Its
parts about validity look one block down only, and those about whole branches
follow by induction. `Indexed.remark` is the rule for operations that only change
marks.
-/

namespace HobbyHash

open CBlockIndex List BlockValidity

variable {f : HeaderFields} {p : CBlockIndex}

namespace ChainstateManager

variable {env : IndexEnv} {connector : BlockConnector} {s s' : ChainstateManager}
  {tip b : CBlockIndex}

/-- What every operation keeps about the tree of blocks and its data. -/
structure IndexTree (env : IndexEnv) (s : ChainstateManager) : Prop where
  link : LinkState s []
  nodup : s.blocks.Nodup
  root : ∃ f, genesis f ∈ s.blocks ∧ s.Linked (genesis f) ∧
    (genesis f).getBlockHash env.hash = env.params.hashGenesisBlock ∧
    ∀ g, genesis g ∈ s.blocks → g = f
  hashes : ∀ a ∈ s.blocks, ∀ b ∈ s.blocks,
    a.getBlockHash env.hash = b.getBlockHash env.hash → a = b
  rising : s.Rising
  sequence : ∀ b ∈ s.blocks, ¬ s.Linked b → (s.entry b).nSequenceId ≤ 0
  reverse : s.nBlockReverseSequenceId < 0
  data : ∀ b ∈ s.blocks, s.Received b ↔ (s.entry b).nTx ≠ 0

theorem IndexTree.resequence (tree : IndexTree env s) (same : SameTree s s')
    (sequence : ∀ b ∈ s.blocks, ¬ s.Linked b → (s'.entry b).nSequenceId ≤ 0)
    (reverse : s'.nBlockReverseSequenceId < 0) : IndexTree env s' where
  link := same.linkState tree.link
  nodup := same.blocks ▸ tree.nodup
  root := by
    rw [same.blocks]
    obtain ⟨f, rootKnown, rootLinked, rest⟩ := tree.root
    exact ⟨f, rootKnown, same.linked.mpr rootLinked, rest⟩
  hashes := same.blocks ▸ tree.hashes
  rising := by
    intro p f inIdx
    exact tree.rising p f (same.blocks ▸ inIdx)
  sequence := by
    rw [same.blocks]
    exact fun b inIdx unlinked => sequence b inIdx fun linked => unlinked (same.linked.mpr linked)
  reverse := reverse
  data := by
    rw [same.blocks]
    intro b inIdx
    rw [same.received, same.nTx]
    exact tree.data b inIdx

theorem IndexTree.frame (tree : IndexTree env s) (frame : Frame s s') : IndexTree env s' := by
  refine tree.resequence frame.toSameTree (fun b inIdx unlinked => ?_) ?_
  · rw [frame.nSequenceId]
    exact tree.sequence b inIdx unlinked
  · rw [frame.nBlockReverseSequenceId]
    exact tree.reverse

theorem IndexTree.grounded (tree : IndexTree env s) : s.Grounded where
  closed := tree.link.closed
  rooted := by
    obtain ⟨f, -, -, -, unique⟩ := tree.root
    have lt : ∀ b ∈ s.blocks, Ancestor (genesis f) b := by
      intro b inIdx
      obtain ⟨g, lt⟩ := exists_genesis b
      rw [← unique g (mem_blocks_of_ancestor tree.link.closed inIdx lt)]
      exact lt
    exact fun a aKnown b bKnown => ⟨genesis f, lt a aKnown, lt b bKnown⟩
  parent := tree.link.parent
  received := fun b inIdx linked => (tree.link.counted b inIdx linked).1

/-- What every operation keeps about the blocks and their marks. -/
structure Indexed (env : IndexEnv) (s : ChainstateManager) : Prop extends IndexTree env s where
  undo : ∀ b ∈ s.blocks, (s.nStatus b).haveUndo = true → s.Received b
  transactions : ∀ b ∈ s.blocks, s.UpTo .transactions b ↔ s.Received b
  tree : ∀ b ∈ s.blocks, s.UpTo .tree b
  chain : ∀ b ∈ s.blocks, s.UpTo .chain b → s.UpTo .scripts b
  scripts : ∀ p f g, child (child p f) g ∈ s.blocks → s.UpTo .scripts (child (child p f) g) →
    s.UpTo .scripts (child p f)
  failed : ∀ b ∈ s.blocks, s.Sound b → (s.nStatus b).failed = false
  failedBlocks : ∀ b ∈ s.failedBlocks, b ∈ s.blocks ∧ (s.nStatus b).failedValid = true
  active : ∀ tip, s.tip = some tip → ∀ p f, Ancestor (child p f) tip → s.UpTo .scripts (child p f)

/-- The data and the validity that the marks of one block claim agree. -/
def Agrees (status : BlockStatus) : Prop :=
  (status.haveUndo = true → status.haveData = true) ∧
  (transactions.level ≤ status.validity.level ↔ status.haveData = true) ∧
  tree.level ≤ status.validity.level ∧
  (chain.level ≤ status.validity.level →
    scripts.level ≤ status.validity.level)

theorem Agrees.of_transactions (validity : status.validity = .transactions)
    (haveData : status.haveData = true) : Agrees status := by
  rw [Agrees, validity]
  exact ⟨fun _ => haveData, iff_of_true le_rfl haveData, by decide, by decide⟩

theorem Indexed.of_agrees (tree : IndexTree env s) (agrees : ∀ b ∈ s.blocks, Agrees (s.nStatus b))
    (scripts : ∀ p f g, child (child p f) g ∈ s.blocks → s.UpTo .scripts (child (child p f) g) →
      s.UpTo .scripts (child p f))
    (failed : ∀ b ∈ s.blocks, s.Sound b → (s.nStatus b).failed = false)
    (failedBlocks : ∀ b ∈ s.failedBlocks, b ∈ s.blocks ∧ (s.nStatus b).failedValid = true)
    (active : ∀ tip, s.tip = some tip → ∀ p f, Ancestor (child p f) tip →
      s.UpTo .scripts (child p f)) : Indexed env s :=
  ⟨tree, fun b known => (agrees b known).1, fun b known => (agrees b known).2.1,
    fun b known => (agrees b known).2.2.1, fun b known => (agrees b known).2.2.2, scripts, failed,
    failedBlocks, active⟩

theorem sameTip (s : ChainstateManager) (tip' : CBlockIndex) (isTip : s.tip = some tip') :
    ∃ tip, s.tip = some tip ∧ Ancestor tip' tip :=
  ⟨tip', isTip, .refl⟩

namespace Indexed

variable (indexed : Indexed env s)
include indexed

theorem known (mem : b ∈ s.blocks) (lt : Ancestor a b) : a ∈ s.blocks :=
  mem_blocks_of_ancestor indexed.link.closed mem lt

theorem agrees (mem : b ∈ s.blocks) : Agrees (s.nStatus b) :=
  ⟨indexed.undo b mem, indexed.transactions b mem, indexed.tree b mem,
    indexed.chain b mem⟩

theorem hash_ne (mem : child p f ∈ s.blocks) :
    (child p f).getBlockHash env.hash ≠ env.params.hashGenesisBlock := by
  obtain ⟨g, rootKnown, -, rootHash, -⟩ := indexed.root
  intro same
  cases indexed.hashes _ mem _ rootKnown (same.trans rootHash.symm)

theorem scripts_ancestor (mem : b ∈ s.blocks) (valid : s.UpTo .scripts b)
    (lt : Ancestor (child p f) b) : s.UpTo .scripts (child p f) := by
  induction b with
  | genesis g => cases lt
  | child q g ih =>
    cases lt with
    | refl => exact valid
    | step lt =>
      cases q with
      | genesis h => cases lt
      | child r h =>
        exact ih (indexed.link.closed _ _ mem) (indexed.scripts _ _ _ mem valid) lt

theorem oneRoot : (s.blocks.filter (·.pprev.isNone)).length = 1 := by
  obtain ⟨f, rootKnown, -, -, unique⟩ := indexed.root
  have only : ∀ b ∈ s.blocks.filter (·.pprev.isNone), b = genesis f := by
    intro b mem
    obtain ⟨inIdx, isRoot⟩ := mem_filter.mp mem
    cases b with
    | genesis g => rw [unique g inIdx]
    | child p g => cases isRoot
  have ne : (s.blocks.filter (·.pprev.isNone)).Nodup := indexed.nodup.filter _
  have mem : genesis f ∈ s.blocks.filter (·.pprev.isNone) :=
    mem_filter.mpr ⟨rootKnown, rfl⟩
  rw [eq_replicate_of_mem only] at ne
  have := nodup_replicate.mp ne
  have := length_pos_of_mem mem
  omega

/-- A block that is not linked has no data or waits for a parent that is not
    linked. -/
theorem counted (mem : b ∈ s.blocks) :
    (s.entry b).nChainTx = ((s.entry b).nTx + s.prevChainTx b) % uintModulus ∨
      ((s.entry b).nChainTx = 0 ∧ (s.entry b).nTx = 0) ∨
      ((s.entry b).nChainTx = 0 ∧ s.prevChainTx b = 0 ∧ b.pprev.isSome = true) := by
  by_cases linked : s.Linked b
  · left
    rw [Nat.add_comm]
    exact (indexed.link.counted b mem linked).2
  have zero : (s.entry b).nChainTx = 0 := not_not.mp linked
  by_cases recv : s.Received b
  · obtain isLinked | queued | ⟨p, isParent, pair⟩ := indexed.link.stored b mem recv
    · exact absurd isLinked linked
    · cases queued
    · refine .inr (.inr ⟨zero, ?_, by rw [isParent]; rfl⟩)
      rw [prevChainTx, isParent]
      exact not_not.mp (indexed.link.waits p b pair).2.2.2
  · exact .inr (.inl ⟨zero, not_not.mp fun ne => recv ((indexed.data b mem).mpr ne)⟩)

theorem consistent (underway : Underway env connector s tip tip) : s.Consistent env tip := by
  obtain ⟨f, rootKnown, rootLinked, rootHash, unique⟩ := indexed.root
  constructor
  case oneRoot => exact indexed.oneRoot
  case closed => exact indexed.link.closed
  case genesisHash =>
    intro g inIdx
    rw [unique g inIdx]
    exact rootHash
  case genesisActive =>
    intro g inIdx
    obtain ⟨h, lt⟩ := exists_genesis tip
    rw [unique g inIdx, ← unique h (indexed.known underway.tipKnown lt)]
    exact lt
  case genesisLinked =>
    intro g inIdx
    rw [unique g inIdx]
    exact rootLinked
  case sequence => exact indexed.sequence
  case data => exact indexed.data
  case undo => exact indexed.undo
  case transactions =>
    exact fun b inIdx => (indexed.transactions b inIdx).trans (indexed.data b inIdx)
  case linked => exact fun b inIdx => indexed.link.linked_iff inIdx
  case work => exact fun p g inIdx => (indexed.rising p g inIdx).le
  case tree => exact fun p g inIdx => indexed.tree _ inIdx
  case chain =>
    intro b inIdx valid p g lt
    exact le_trans (by decide)
      (indexed.scripts_ancestor inIdx (indexed.chain b inIdx valid) lt)
  case scripts => exact fun b inIdx valid p g lt => indexed.scripts_ancestor inIdx valid lt
  case failed => exact indexed.failed
  case counted => exact fun b inIdx => indexed.counted inIdx
  case candidate =>
    intro b inIdx good linked sound
    exact underway.complete b inIdx linked sound (not_worse_iff.mp good)
  case onlyCandidates =>
    intro b _ mem
    obtain ⟨-, linked, good⟩ := underway.candidates b mem
    exact ⟨not_worse_iff.mpr good, linked⟩
  case waits =>
    intro p g inIdx recv unlinked _
    obtain isLinked | queued | ⟨q, isParent, pair⟩ := indexed.link.stored _ inIdx recv
    · exact absurd isLinked unlinked
    · cases queued
    · cases isParent
      exact pair
  case pairs =>
    intro p g inIdx pair
    obtain ⟨-, -, recv, unlinked⟩ := indexed.link.waits _ _ pair
    exact ⟨recv, fun linked => unlinked (indexed.link.parent p g inIdx linked)⟩

/-- Operations that change marks, and possibly the order of arrival. -/
theorem restatus (tree : IndexTree env s') (same : SameTree s s')
    (validity : ∀ b, (s'.nStatus b).validity = (s.nStatus b).validity)
    (haveUndo : ∀ b, (s'.nStatus b).haveUndo = (s.nStatus b).haveUndo)
    (failed : ∀ b ∈ s.blocks, s'.Sound b → (s'.nStatus b).failed = false)
    (failedBlocks : ∀ b ∈ s'.failedBlocks, b ∈ s.blocks ∧ (s'.nStatus b).failedValid = true)
    (active : ∀ tip', s'.tip = some tip' → ∃ tip, s.tip = some tip ∧ Ancestor tip' tip) :
    Indexed env s' := by
  have upTo : ∀ nUpTo b, s'.UpTo nUpTo b ↔ s.UpTo nUpTo b := fun nUpTo b => by
    rw [UpTo, UpTo, validity]
  refine .of_agrees tree ?agrees ?scripts (same.blocks ▸ failed)
    (same.blocks ▸ failedBlocks) ?active
  case agrees =>
    rw [same.blocks]
    intro b inIdx
    rw [Agrees, validity, haveUndo, same.haveData]
    exact indexed.agrees inIdx
  case scripts =>
    rw [same.blocks]
    intro p f g inIdx
    rw [upTo, upTo]
    exact indexed.scripts p f g inIdx
  case active =>
    intro tip' isTip p f lt
    obtain ⟨tip, wasTip, lower⟩ := active tip' isTip
    exact (upTo _ _).mpr (indexed.active tip wasTip p f (lt.trans lower))

/-- Operations that change the status of one block, which is or becomes unmarked. -/
theorem change (tree : IndexTree env s') (blocks : ∀ a ∈ s'.blocks, a = b ∨ a ∈ s.blocks)
    (other : ∀ a, a ≠ b → s'.nStatus a = s.nStatus a) (here : Agrees (s'.nStatus b))
    (unmarked : (s'.nStatus b).failed = false)
    (lt : ∀ p f g, b = child (child p f) g → s'.UpTo .scripts b → s.UpTo .scripts (child p f))
    (kept : b ∈ s.blocks → s.UpTo .scripts b → s'.UpTo .scripts b)
    (sound : ∀ a ∈ s.blocks, s'.Sound a → s.Sound a)
    (failedBlocks : ∀ b ∈ s'.failedBlocks, b ∈ s'.blocks ∧ (s'.nStatus b).failedValid = true)
    (active : ∀ tip, s'.tip = some tip → ∀ p f, Ancestor (child p f) tip →
      s'.UpTo .scripts (child p f)) : Indexed env s' := by
  refine .of_agrees tree ?agrees ?scripts ?failed failedBlocks active
  case agrees =>
    intro a inIdx
    by_cases same : a = b
    · exact same ▸ here
    · rw [other a same]
      exact indexed.agrees ((blocks a inIdx).resolve_left same)
  case scripts =>
    intro p f g inIdx valid
    by_cases same : child (child p f) g = b
    · have ne : child p f ≠ b :=
        fun lower => pprev_ne_self (p := child p f) rfl (same.trans lower.symm)
      rw [UpTo, other _ ne]
      exact lt p f g same.symm (same ▸ valid)
    rw [UpTo, other _ same] at valid
    have before := (blocks _ inIdx).resolve_left same
    have lower := indexed.scripts p f g before valid
    by_cases isB : child p f = b
    · exact isB ▸ kept (isB ▸ indexed.link.closed _ _ before) (isB ▸ lower)
    · rw [UpTo, other _ isB]
      exact lower
  case failed =>
    intro a inIdx isSound
    by_cases same : a = b
    · exact same ▸ unmarked
    · rw [other a same]
      have before := (blocks a inIdx).resolve_left same
      exact indexed.failed a before (sound a before isSound)

theorem remark (frame : Frame s s')
    (validity : ∀ b, (s'.nStatus b).validity = (s.nStatus b).validity)
    (haveUndo : ∀ b, (s'.nStatus b).haveUndo = (s.nStatus b).haveUndo)
    (failed : ∀ b ∈ s.blocks, s'.Sound b → (s'.nStatus b).failed = false)
    (failedBlocks : ∀ b ∈ s'.failedBlocks, b ∈ s.blocks ∧ (s'.nStatus b).failedValid = true)
    (active : ∀ tip', s'.tip = some tip' → ∃ tip, s.tip = some tip ∧ Ancestor tip' tip) :
    Indexed env s' :=
  indexed.restatus (indexed.toIndexTree.frame frame) frame.toSameTree validity haveUndo failed
    failedBlocks active

theorem markChild {a} (unsound : ¬ s.Sound a) (lt : Ancestor a b) :
    Indexed env (s.markChild b) := by
  refine indexed.remark frame_markChild (fun _ => validity_markChild)
    (fun _ => kept_modifyStatus fun _ => rfl)
    (failed_modifyStatus (fun _ => kept_markChild unsound lt) indexed.failed) (fun c mem => ?_)
    s.sameTip
  rw [failedValid_markChild]
  exact indexed.failedBlocks c mem

theorem markFailed (b : CBlockIndex) : Indexed env (s.markFailed b) := by
  refine indexed.remark frame_markFailed (fun _ => validity_markFailed)
    (fun _ => kept_modifyStatus fun _ => rfl)
    (failed_modifyStatus (fun _ => kept_markFailed) indexed.failed) (fun c mem => ?_) s.sameTip
  obtain ⟨inIdx, marked⟩ := indexed.failedBlocks c mem
  exact ⟨inIdx, failedValid_markFailed.mpr (.inr marked)⟩

theorem aside {cands failedBlocks tip bestInvalid bestHeader}
    (marked : ∀ b ∈ failedBlocks, b ∈ s.blocks ∧ (s.nStatus b).failedValid = true)
    (active : ∀ tip', tip = some tip' → ∃ before, s.tip = some before ∧ Ancestor tip' before) :
    Indexed env { s with
      setBlockIndexCandidates := cands, failedBlocks, tip, bestInvalid, bestHeader } :=
  indexed.remark (.aside s _ _ _ _ _) (fun _ => rfl) (fun _ => rfl) indexed.failed marked active

theorem recordConnected (isTip : s.tip = some p) (inIdx : child p f ∈ s.blocks)
    (linked : s.Linked (child p f)) (unmarked : (s.nStatus (child p f)).failed = false) :
    Indexed env { s.recordConnected env connector (child p f) with tip := some (child p f) } := by
  obtain ⟨validity, status, higher, enough⟩ := @nStatus_recordConnected_self env connector s
    (child p f) unmarked (indexed.hash_ne inIdx)
  have recv : (s.nStatus (child p f)).haveData = true :=
    (indexed.link.counted _ inIdx linked).1
  have frame : Frame s { s.recordConnected env connector (child p f) with tip := some (child p f) } :=
    frame_recordConnected.trans (.aside _ _ _ _ _ _)
  have sounds : ∀ a, (s.recordConnected env connector (child p f)).Sound a → s.Sound a :=
    fun a sound c below => marks_recordConnected.1.symm.trans (sound c below)
  have other : ∀ a, a ≠ child p f →
      (s.recordConnected env connector (child p f)).nStatus a = s.nStatus a := fun a apart =>
    congrArg BlockEntry.nStatus (entry_recordConnected_of_ne apart)
  have scripts : (s.recordConnected env connector (child p f)).UpTo .scripts (child p f) := by
    rw [UpTo, status]
    exact enough
  refine indexed.change (b := child p f) (indexed.toIndexTree.frame frame)
    (fun a mem => .inr (frame.blocks ▸ mem)) other ?here
    (failed_recordConnected.trans unmarked) ?below (fun _ _ => scripts) (fun a _ => sounds a)
    ?failedBlocks ?active
  case here =>
    change Agrees ((s.recordConnected env connector (child p f)).nStatus (child p f))
    rw [status]
    exact ⟨fun _ => recv, iff_of_true (le_trans (by decide) enough) recv,
      le_trans (by decide) enough, fun _ => enough⟩
  case below =>
    rintro q g h same -
    cases same
    exact indexed.active _ isTip q g .refl
  case failedBlocks =>
    intro b mem
    obtain ⟨entry, only⟩ := @recordConnected_eq env connector s (child p f)
    rw [only] at mem
    obtain ⟨known, marked⟩ := indexed.failedBlocks b mem
    exact ⟨frame.blocks ▸ known, marks_recordConnected.1.trans marked⟩
  case active =>
    rintro _ ⟨⟩ q g below
    by_cases same : child q g = child p f
    · exact same ▸ scripts
    · change BlockValidity.scripts.level ≤
        ((s.recordConnected env connector (child p f)).nStatus (child q g)).validity.level
      rw [other _ same]
      exact indexed.active p isTip q g (below.pprev same)

end Indexed

theorem Write.indexed (write : Write env connector s s') (indexed : Indexed env s) :
    Indexed env s' := by
  cases write with
  | aside cands bestInvalid bestHeader => exact indexed.aside indexed.failedBlocks s.sameTip
  | inherit isTip known lt failed off =>
    refine indexed.markChild (fun sound => ?_) lt
    cases (indexed.failed _ (indexed.known known lt) sound).symm.trans failed
  | @refuse p f isTip known refused =>
    refine (indexed.markFailed (child p f)).aside (fun b mem => ?_) s.sameTip
    rw [failedValid_markFailed]
    obtain rfl | mem := mem_insert_iff.mp mem
    · exact ⟨known, .inl rfl⟩
    · obtain ⟨inIdx, marked⟩ := indexed.failedBlocks b mem
      exact ⟨inIdx, .inr marked⟩
  | disconnect isTip =>
    refine indexed.aside indexed.failedBlocks fun tip' isTip' => ?_
    cases isTip'
    exact ⟨_, isTip, .step .refl⟩
  | connect isTip known linked unmarked _ => exact indexed.recordConnected isTip known linked unmarked

theorem Writes.indexed (writes : Writes env connector s s') (indexed : Indexed env s) :
    Indexed env s' := by
  induction writes with
  | refl => exact indexed
  | tail _ write ih => exact write.indexed ih

/-- What every operation keeps. -/
structure Settled (env : IndexEnv) (connector : BlockConnector) (s : ChainstateManager)
    (tip : CBlockIndex) : Prop where
  indexed : Indexed env s
  underway : Underway env connector s tip tip

theorem Settled.intro (indexed : Indexed env s) (isTip : s.tip = some tip) (mem : tip ∈ s.blocks)
    (linked : s.Linked tip) (unmarked : ∀ a, Ancestor a tip → (s.nStatus a).failed = false)
    (accepted : ∀ p f, Ancestor (child p f) tip → connector.accepts (child p f) = true)
    (candidates : ∀ c ∈ s.setBlockIndexCandidates,
      c ∈ s.blocks ∧ s.Linked c ∧ s.rank env tip ≤ s.rank env c)
    (complete : ∀ b ∈ s.blocks, s.Linked b → s.Sound b → s.rank env tip ≤ s.rank env b →
      b ∈ s.setBlockIndexCandidates) : Settled env connector s tip := by
  have sound : s.Sound tip := .of_unmarked unmarked
  refine ⟨indexed, ?_⟩
  constructor
  case isTip => exact isTip
  case grounded => exact indexed.grounded
  case failed => exact indexed.failed
  case tipKnown => exact mem
  case tipLinked => exact linked
  case tipUnmarked => exact unmarked
  case tipAccepted => exact accepted
  case floorCandidate => exact complete tip mem linked sound le_rfl
  case floorSound => exact sound
  case floorAccepted => exact accepted
  case candidates => exact candidates
  case complete => exact complete
  case below => exact fun _ => le_rfl

theorem Settled.check (settled : Settled env connector s tip) : s.checkBlockIndex env = .ok () :=
  (settled.indexed.consistent settled.underway).check settled.underway.isTip

theorem Settled.activated (settled : Settled env connector s tip)
    (activated : Activated env connector s s') : ∃ tip', Settled env connector s' tip' := by
  obtain ⟨tip', floor, underway, writes, isTarget⟩ := activated
  have indexed := writes.indexed settled.indexed
  have eq : tip' = floor := rank_injective
    (le_antisymm (underway.below indexed.rising) (isTarget.best floor underway.floorCandidate))
  exact ⟨tip', indexed, eq ▸ underway⟩

end ChainstateManager

end HobbyHash
