import HobbyHash.Chainstate.Consistency
import HobbyHash.Chainstate.Selection

/-! # What choosing a chain writes

`Write` lists the single writes that `ActivateBestChain` is made of: marks on
blocks that were refused or that lie above a failed block, one block more or
less on the active chain, and changes to the candidates and to the best headers.
None of them touches the tree or the counts of its blocks, which is `Frame`. A
property that each write keeps is kept by the whole run.
-/

namespace HobbyHash

open CBlockIndex BlockStatus

variable {change : BlockStatus → BlockStatus}

namespace ChainstateManager

variable {env : IndexEnv} {connector : BlockConnector} {s s' s'' : ChainstateManager}
  {a b : CBlockIndex}

/-- The tree, its data and the counts of its blocks are the same. -/
structure SameTree (s s' : ChainstateManager) : Prop where
  blocks : s'.blocks = s.blocks
  blocksUnlinked : s'.blocksUnlinked = s.blocksUnlinked
  nTx : ∀ b, (s'.entry b).nTx = (s.entry b).nTx
  nChainTx : ∀ b, (s'.entry b).nChainTx = (s.entry b).nChainTx
  haveData : ∀ b, (s'.nStatus b).haveData = (s.nStatus b).haveData

/-- The order of the blocks is the same as well. -/
structure Frame (s s' : ChainstateManager) : Prop extends SameTree s s' where
  nSequenceId : ∀ b, (s'.entry b).nSequenceId = (s.entry b).nSequenceId
  nBlockReverseSequenceId : s'.nBlockReverseSequenceId = s.nBlockReverseSequenceId

namespace SameTree

theorem refl (s : ChainstateManager) : SameTree s s :=
  ⟨rfl, rfl, fun _ => rfl, fun _ => rfl, fun _ => rfl⟩

theorem trans (first : SameTree s s') (second : SameTree s' s'') : SameTree s s'' where
  blocks := second.blocks.trans first.blocks
  blocksUnlinked := second.blocksUnlinked.trans first.blocksUnlinked
  nTx b := (second.nTx b).trans (first.nTx b)
  nChainTx b := (second.nChainTx b).trans (first.nChainTx b)
  haveData b := (second.haveData b).trans (first.haveData b)

variable (same : SameTree s s')
include same

theorem linked : s'.Linked b ↔ s.Linked b := by
  rw [Linked, Linked, same.nChainTx]

theorem received : s'.Received b ↔ s.Received b := by
  rw [Received, Received, same.haveData]

theorem prevChainTx : s'.prevChainTx b = s.prevChainTx b :=
  prevChainTx_congr fun p _ => same.nChainTx p

theorem linkState (state : LinkState s queue) :
    LinkState s' queue where
  closed := by
    rw [same.blocks]
    exact state.closed
  counted := by
    rw [same.blocks]
    intro b known isLinked
    obtain ⟨received, count⟩ := state.counted b known (same.linked.mp isLinked)
    exact ⟨same.received.mpr received, by rw [same.nChainTx, same.prevChainTx, same.nTx, count]⟩
  parent := by
    rw [same.blocks]
    intro p f known isLinked
    exact same.linked.mpr (state.parent p f known (same.linked.mp isLinked))
  ready := by
    rw [same.blocks]
    intro b mem
    obtain ⟨known, received, unlinked, parents⟩ := state.ready b mem
    exact ⟨known, same.received.mpr received, fun isLinked => unlinked (same.linked.mp isLinked),
      fun p isParent => same.linked.mpr (parents p isParent)⟩
  queueNodup := state.queueNodup
  waits := by
    rw [same.blocks, same.blocksUnlinked]
    intro p b pair
    obtain ⟨known, isParent, received, unlinked⟩ := state.waits p b pair
    exact ⟨known, isParent, same.received.mpr received,
      fun isLinked => unlinked (same.linked.mp isLinked)⟩
  stored := by
    rw [same.blocks, same.blocksUnlinked]
    intro b known received
    rw [same.linked]
    exact state.stored b known (same.received.mp received)
  unlinkedNodup := by
    rw [same.blocksUnlinked]
    exact state.unlinkedNodup

end SameTree

namespace Frame

/-- Writes to the candidates, to the tip and to what is remembered of failures. -/
theorem aside (s : ChainstateManager) (cands failedBlocks : List CBlockIndex)
    (tip bestInvalid bestHeader : Option CBlockIndex) :
    Frame s { s with
      setBlockIndexCandidates := cands, failedBlocks, tip, bestInvalid, bestHeader } :=
  ⟨⟨rfl, rfl, fun _ => rfl, fun _ => rfl, fun _ => rfl⟩, fun _ => rfl, rfl⟩

theorem refl (s : ChainstateManager) : Frame s s :=
  aside s _ _ _ _ _

theorem trans (first : Frame s s') (second : Frame s' s'') : Frame s s'' where
  toSameTree := first.toSameTree.trans second.toSameTree
  nSequenceId b := (second.nSequenceId b).trans (first.nSequenceId b)
  nBlockReverseSequenceId := second.nBlockReverseSequenceId.trans first.nBlockReverseSequenceId

theorem rank (frame : Frame s s') : s'.rank env = s.rank env := by
  funext b
  rw [ChainstateManager.rank, ChainstateManager.rank, frame.nSequenceId]

end Frame

@[simp] theorem nStatus_modifyStatus_self (change : BlockStatus → BlockStatus) :
    (s.modifyStatus b change).nStatus b = change (s.nStatus b) := by
  rw [modifyStatus, nStatus, entry_modify_self]
  rfl

theorem nStatus_modifyStatus_of_ne (ne : a ≠ b) (change : BlockStatus → BlockStatus) :
    (s.modifyStatus b change).nStatus a = s.nStatus a := by
  rw [modifyStatus, nStatus, entry_modify_of_ne _ ne]
  rfl

theorem frame_modifyStatus (keeps : ∀ status, (change status).haveData = status.haveData) :
    Frame s (s.modifyStatus b change) := by
  have same : ∀ a, (s.modifyStatus b change).entry a =
      { s.entry a with nStatus := (s.modifyStatus b change).nStatus a } := by
    intro a
    by_cases here : a = b
    · subst here
      rw [nStatus_modifyStatus_self, modifyStatus, entry_modify_self]
      rfl
    · rw [nStatus_modifyStatus_of_ne here, modifyStatus, entry_modify_of_ne _ here]
      rfl
  refine ⟨⟨rfl, rfl, fun a => by rw [same], fun a => by rw [same], fun a => ?_⟩,
    fun a => by rw [same], rfl⟩
  by_cases here : a = b
  · subst here
    rw [nStatus_modifyStatus_self, keeps]
  · rw [nStatus_modifyStatus_of_ne here]

def markFailed (s : ChainstateManager) (b : CBlockIndex) : ChainstateManager :=
  s.modifyStatus b fun status => { status with failedValid := true }

def markChild (s : ChainstateManager) (b : CBlockIndex) : ChainstateManager :=
  s.modifyStatus b fun status => { status with failedChild := true }

theorem frame_markFailed : Frame s (s.markFailed b) := frame_modifyStatus fun _ => rfl

theorem frame_markChild : Frame s (s.markChild b) := frame_modifyStatus fun _ => rfl

theorem flag_modifyStatus {flag : BlockStatus → Bool}
    (sets : ∀ status, flag (change status) = true) :
    flag ((s.modifyStatus b change).nStatus a) = true ↔ a = b ∨ flag (s.nStatus a) = true := by
  by_cases here : a = b
  · subst here
    simp [sets]
  · simp [nStatus_modifyStatus_of_ne here, here]

theorem kept_modifyStatus {α : Type} {f : BlockStatus → α}
    (keeps : ∀ status, f (change status) = f status) :
    f ((s.modifyStatus b change).nStatus a) = f (s.nStatus a) := by
  by_cases here : a = b
  · subst here
    rw [nStatus_modifyStatus_self, keeps]
  · rw [nStatus_modifyStatus_of_ne here]

theorem failedValid_markFailed :
    ((s.markFailed b).nStatus a).failedValid = true ↔ a = b ∨ (s.nStatus a).failedValid = true :=
  flag_modifyStatus fun _ => rfl

theorem failed_markFailed :
    ((s.markFailed b).nStatus a).failed = true ↔ a = b ∨ (s.nStatus a).failed = true :=
  flag_modifyStatus fun _ => rfl

@[simp] theorem failedValid_markChild :
    ((s.markChild b).nStatus a).failedValid = (s.nStatus a).failedValid :=
  kept_modifyStatus fun _ => rfl

theorem failed_markChild :
    ((s.markChild b).nStatus a).failed = true ↔ a = b ∨ (s.nStatus a).failed = true :=
  flag_modifyStatus fun _ => Bool.or_true _

theorem validity_markFailed : ((s.markFailed b).nStatus a).validity = (s.nStatus a).validity :=
  kept_modifyStatus fun _ => rfl

theorem validity_markChild : ((s.markChild b).nStatus a).validity = (s.nStatus a).validity :=
  kept_modifyStatus fun _ => rfl

theorem Sound.ancestor (sound : s.Sound b) (lt : Ancestor a b) : s.Sound a :=
  fun c lower => sound c (lower.trans lt)

theorem sound_markChild : (s.markChild c).Sound b ↔ s.Sound b := by
  simp only [Sound, failedValid_markChild]

theorem sound_markFailed :
    (s.markFailed c).Sound b ↔ s.Sound b ∧ ¬ Ancestor c b := by
  simp only [Sound, ← Bool.not_eq_true, failedValid_markFailed, not_or]
  constructor
  · intro sound
    exact ⟨fun a lt => (sound a lt).2, fun lt => (sound c lt).1 rfl⟩
  · rintro ⟨sound, apart⟩ a lt
    exact ⟨fun same => apart (same ▸ lt), sound a lt⟩

theorem kept_markChild (unsound : ¬ s.Sound a) (lt : Ancestor a b)
    (sound : (s.markChild b).Sound c) :
    s.Sound c ∧ c ≠ b := by
  rw [sound_markChild] at sound
  exact ⟨sound, fun same => unsound (sound.ancestor (same ▸ lt))⟩

theorem kept_markFailed (sound : (s.markFailed b).Sound c) :
    s.Sound c ∧ c ≠ b := by
  obtain ⟨sound, apart⟩ := sound_markFailed.mp sound
  exact ⟨sound, fun same => apart (same ▸ .refl)⟩

theorem failed_modifyStatus (kept : ∀ c, (s.modifyStatus b change).Sound c → s.Sound c ∧ c ≠ b)
    (failed : ∀ c ∈ s.blocks, s.Sound c → (s.nStatus c).failed = false) :
    ∀ c ∈ s.blocks, (s.modifyStatus b change).Sound c →
      ((s.modifyStatus b change).nStatus c).failed = false := by
  intro c known sound
  obtain ⟨sound, ne⟩ := kept c sound
  rw [nStatus_modifyStatus_of_ne ne]
  exact failed c known sound

/-- The single writes of `ActivateBestChain`. -/
inductive Write (env : IndexEnv) (connector : BlockConnector) (s : ChainstateManager) :
    ChainstateManager → Prop where
  | aside (candidates : List CBlockIndex) (bestInvalid bestHeader : Option CBlockIndex) :
      Write env connector s
        { s with setBlockIndexCandidates := candidates, bestInvalid, bestHeader }
  | inherit {tip a b : CBlockIndex} (isTip : s.tip = some tip) (known : b ∈ s.blocks)
      (below : Ancestor a b) (failed : (s.nStatus a).failed = true) (off : ¬ Ancestor a tip) :
      Write env connector s (s.markChild b)
  | refuse {p : CBlockIndex} {f : HeaderFields} (isTip : s.tip = some p)
      (known : child p f ∈ s.blocks) (refused : connector.accepts (child p f) = false) :
      Write env connector s { s.markFailed (child p f) with
        failedBlocks := s.failedBlocks.insert (child p f) }
  | disconnect {p : CBlockIndex} {f : HeaderFields} (isTip : s.tip = some (child p f)) :
      Write env connector s { s with tip := some p }
  | connect {p : CBlockIndex} {f : HeaderFields} (isTip : s.tip = some p)
      (known : child p f ∈ s.blocks) (linked : s.Linked (child p f))
      (unmarked : (s.nStatus (child p f)).failed = false)
      (accepted : connector.accepts (child p f) = true) :
      Write env connector s { s.recordConnected env connector (child p f) with
        tip := some (child p f) }

abbrev Writes (env : IndexEnv) (connector : BlockConnector) :
    ChainstateManager → ChainstateManager → Prop :=
  Relation.ReflTransGen (Write env connector)

theorem nStatus_recordConnected_self (unmarked : (s.nStatus b).failed = false)
    (ne : b.getBlockHash env.hash ≠ env.params.hashGenesisBlock) :
    ∃ validity, (s.recordConnected env connector b).nStatus b =
        { s.nStatus b with haveUndo := true, validity } ∧
      (s.nStatus b).validity.level ≤ validity.level ∧
        BlockValidity.scripts.level ≤ validity.level := by
  rw [recordConnected, if_neg ne, nStatus, entry_modify_self]
  split
  · rename_i valid
    exact ⟨(s.nStatus b).validity, rfl, le_rfl, (isValid_iff.mp valid).2⟩
  · obtain ⟨validity, raised, above, reaches⟩ :=
      raiseValidity_eq { s.nStatus b with haveUndo := true } .scripts
    exact ⟨validity, raised, above, reaches unmarked⟩

theorem recordConnected_eq : ∃ entry, s.recordConnected env connector b = { s with entry } := by
  rw [recordConnected]
  split
  · exact ⟨_, rfl⟩
  · exact ⟨_, rfl⟩

theorem entry_recordConnected_of_ne (ne : a ≠ b) :
    (s.recordConnected env connector b).entry a = s.entry a := by
  rw [recordConnected]
  split
  · rfl
  · exact entry_modify_of_ne _ ne _

theorem marks_recordConnected :
    ((s.recordConnected env connector b).nStatus a).failedValid = (s.nStatus a).failedValid ∧
      ((s.recordConnected env connector b).nStatus a).failedChild = (s.nStatus a).failedChild := by
  by_cases here : a = b
  · subst here
    rw [recordConnected]
    split
    · exact ⟨rfl, rfl⟩
    rw [nStatus, entry_modify_self]
    split
    · exact ⟨rfl, rfl⟩
    · obtain ⟨validity, raised, -⟩ :=
        raiseValidity_eq { (s.entry a).nStatus with haveUndo := true } .scripts
      rw [raised]
      exact ⟨rfl, rfl⟩
  · rw [nStatus, entry_recordConnected_of_ne here]
    exact ⟨rfl, rfl⟩

theorem failed_recordConnected :
    ((s.recordConnected env connector b).nStatus a).failed = (s.nStatus a).failed := by
  obtain ⟨valid, child⟩ := @marks_recordConnected env connector s a b
  rw [failed, failed, valid, child]

theorem frame_recordConnected : Frame s (s.recordConnected env connector b) := by
  have same : ∀ a, ∃ nStatus nUndoPos, (s.recordConnected env connector b).entry a =
      { s.entry a with nStatus, nUndoPos } ∧ nStatus.haveData = (s.nStatus a).haveData := by
    intro a
    by_cases here : a = b
    · subst here
      rw [recordConnected]
      split
      · exact ⟨_, _, rfl, rfl⟩
      refine ⟨_, _, entry_modify_self .., ?_⟩
      split
      · rfl
      · obtain ⟨validity, raised, -⟩ :=
          raiseValidity_eq { (s.entry a).nStatus with haveUndo := true } .scripts
        rw [raised]
        rfl
    · exact ⟨_, _, entry_recordConnected_of_ne here, rfl⟩
  obtain ⟨entry, only⟩ := @recordConnected_eq env connector s b
  refine ⟨⟨by rw [only], by rw [only], fun a => ?_, fun a => ?_, fun a => ?_⟩, fun a => ?_,
    by rw [only]⟩
  all_goals obtain ⟨nStatus, nUndoPos, written, haveData⟩ := same a
  · rw [written]
  · rw [written]
  · rw [ChainstateManager.nStatus, written]
    exact haveData
  · rw [written]

theorem Write.frame (write : Write env connector s s') : Frame s s' := by
  cases write with
  | aside => exact .aside s _ _ _ _ _
  | inherit => exact frame_markChild
  | refuse => exact frame_markFailed.trans (.aside _ _ _ _ _ _)
  | disconnect => exact .aside s _ _ _ _ _
  | connect => exact frame_recordConnected.trans (.aside _ _ _ _ _ _)

/-- A mark appears only on a block that is refused, and stays. -/
theorem Write.failedValid (write : Write env connector s s') (b : CBlockIndex) :
    (s'.nStatus b).failedValid = (s.nStatus b).failedValid ∨
      (s'.nStatus b).failedValid = true ∧ connector.accepts b = false := by
  cases write with
  | aside => exact .inl rfl
  | inherit => exact .inl failedValid_markChild
  | @refuse p f isTip known refused =>
    by_cases here : b = child p f
    · subst here
      exact .inr ⟨failedValid_markFailed.mpr (.inl rfl), refused⟩
    · left
      change ((s.markFailed (child p f)).nStatus b).failedValid = _
      rw [markFailed, nStatus_modifyStatus_of_ne here]
  | disconnect => exact .inl rfl
  | connect => exact .inl marks_recordConnected.1

namespace Writes

variable (writes : Writes env connector s s')
include writes

theorem frame : Frame s s' := by
  induction writes with
  | refl => exact .refl s
  | tail _ write ih => exact ih.trans write.frame

theorem failedValid (b : CBlockIndex) :
    (s'.nStatus b).failedValid = (s.nStatus b).failedValid ∨
      (s'.nStatus b).failedValid = true ∧ connector.accepts b = false := by
  induction writes with
  | refl => exact .inl rfl
  | tail _ write ih =>
    obtain kept | refused := write.failedValid b
    · rw [kept]
      exact ih
    · exact .inr refused

/-- A branch of blocks that are accepted gets no mark. -/
theorem sound_after (sound : s.Sound b)
    (accepted : ∀ a, Ancestor a b → connector.accepts a = true) :
    s'.Sound b := by
  intro a lt
  obtain kept | ⟨-, refused⟩ := writes.failedValid a
  · rw [kept]
    exact sound a lt
  · cases (accepted a lt).symm.trans refused

end Writes

end ChainstateManager

end HobbyHash
