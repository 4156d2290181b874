import HobbyHash.Chainstate.Index
import HobbyHash.Library.Loop

/-! # Choosing the active chain

`FindMostWorkChain`, `ActivateBestChain` and the operations that mark blocks as
failed or as precious, from `validation.cpp`. What `ConnectBlock` says about a block is
given by a `BlockConnector`; it turns a mutated block into a fatal error, so a
block that it refuses is always marked. Reading and writing files does not fail
here, no shutdown is requested, and the mempool and the notifications are left out.
-/

namespace HobbyHash

open Machine

/-- What `ConnectBlock` answers, and where it would write the undo data. -/
structure BlockConnector where
  accepts : CBlockIndex → Bool
  undoPos : CBlockIndex → Nat

namespace ChainstateManager

variable (env : IndexEnv) (connector : BlockConnector)

variable (s : ChainstateManager)

def invalidChainFound (pindexNew : CBlockIndex) :
    Except Fault ChainstateManager := do
  let bestInvalid :=
    match s.bestInvalid with
    | none => some pindexNew
    | some best => if pindexNew.nChainWork > best.nChainWork then some pindexNew else some best
  let bestHeader :=
    match s.bestHeader with
    | none => none
    | some best => if best.getAncestor pindexNew.nHeight = some pindexNew then s.tip else some best
  assert s.tip.isSome "tip"
  return { s with bestInvalid, bestHeader }

variable (pindex : CBlockIndex)

def invalidBlockFound :
    Except Fault ChainstateManager :=
  let marked := (s.modifyStatus pindex fun status => { status with failedValid := true }
    ).eraseCandidate pindex
  { marked with failedBlocks := s.failedBlocks.insert pindex }.invalidChainFound pindex

/-- `*setBlockIndexCandidates.rbegin()` for the given elements. -/
def lastCandidate (s : ChainstateManager) : List CBlockIndex → Option CBlockIndex
  | [] => none
  | c :: rest =>
    match s.lastCandidate rest with
    | none => some c
    | some best => if s.worse env best c then some c else some best

/-- One block on the walk from a candidate to the active chain, and the rest of
    the walk. -/
def testUsable (above : List CBlockIndex) (pindexTest : CBlockIndex)
    (rest : Except Fault (Option (List CBlockIndex × CBlockIndex))) :
    Except Fault (Option (List CBlockIndex × CBlockIndex)) :=
  if s.contains pindexTest then .ok none
  else do
    assert (s.haveNumChainTxs pindexTest || pindexTest.nHeight == 0)
      "pindexTest->HaveNumChainTxs() || pindexTest->nHeight == 0"
    if (s.nStatus pindexTest).failed || !(s.nStatus pindexTest).haveData then
      return some (above, pindexTest)
    else rest

/-- The walk from a candidate to the active chain: the first block that has failed
    or has no data, and the blocks above it. -/
def findUnusable (s : ChainstateManager) (above : List CBlockIndex) :
    CBlockIndex → Except Fault (Option (List CBlockIndex × CBlockIndex))
  | .genesis f => s.testUsable above (.genesis f) (.ok none)
  | .child p f => s.testUsable above (.child p f) (s.findUnusable (above ++ [.child p f]) p)

def removeAbove (fFailedChain : Bool) (s : ChainstateManager) (pindexFailed : CBlockIndex) :
    ChainstateManager :=
  let noted :=
    if fFailedChain then
      s.modifyStatus pindexFailed fun status => { status with failedChild := true }
    else
      match pindexFailed.pprev with
      | some pprev => { s with blocksUnlinked := s.blocksUnlinked ++ [(pprev, pindexFailed)] }
      | none => s
  noted.eraseCandidate pindexFailed

def removeChain (pindexNew : CBlockIndex) (above : List CBlockIndex) (pindexTest : CBlockIndex) :
    ChainstateManager :=
  let fFailedChain := (s.nStatus pindexTest).failed
  let bestInvalid :=
    match s.bestInvalid with
    | none => if fFailedChain then some pindexNew else none
    | some best =>
      if fFailedChain && decide (pindexNew.nChainWork > best.nChainWork) then some pindexNew
      else some best
  (above.foldl (removeAbove fFailedChain) { s with bestInvalid }).eraseCandidate pindexTest

/-- The loop of `FindMostWorkChain`. Every pass but the last removes a candidate. -/
def findMostWork : Nat → ChainstateManager → Except Fault (ChainstateManager × Option CBlockIndex)
  | 0, s => .ok (s, none)
  | passes + 1, s =>
    match s.lastCandidate env s.setBlockIndexCandidates with
    | none => .ok (s, none)
    | some pindexNew => do
      match ← s.findUnusable [] pindexNew with
      | none => return (s, some pindexNew)
      | some (above, pindexTest) => findMostWork passes (s.removeChain pindexNew above pindexTest)

def findMostWorkChain :
    Except Fault (ChainstateManager × Option CBlockIndex) :=
  findMostWork env s.setBlockIndexCandidates.length s

def pruneBlockIndexCandidates : Except Fault ChainstateManager :=
  match s.tip with
  | none => .error (.exception "m_chain.Tip()")
  | some tip => do
    let kept := s.setBlockIndexCandidates.filter fun c => !s.worse env c tip
    assert (!kept.isEmpty) "!setBlockIndexCandidates.empty()"
    return { s with setBlockIndexCandidates := kept }

/-- `m_chain.FindFork`, from a block that is no higher than the tip. -/
def walkToChain (s : ChainstateManager) : CBlockIndex → Option CBlockIndex
  | .genesis f => if s.contains (.genesis f) then some (.genesis f) else none
  | .child p f => if s.contains (.child p f) then some (.child p f) else s.walkToChain p

def findFork : Option CBlockIndex :=
  match s.tip with
  | none => none
  | some tip =>
    if pindex.nHeight > tip.nHeight then (pindex.getAncestor tip.nHeight).bind s.walkToChain
    else s.walkToChain pindex

/-- The tip after `DisconnectTip` was called until the fork is reached. -/
def disconnectTo (pindexFork : Option CBlockIndex) : CBlockIndex → Except Fault CBlockIndex
  | .genesis f =>
    if pindexFork = some (.genesis f) then .ok (.genesis f)
    else .error (.assertion "pindexDelete->pprev")
  | .child p f =>
    if pindexFork = some (.child p f) then .ok (.child p f) else disconnectTo pindexFork p

/-- What `ConnectBlock` writes to the entry of a block that it accepts. -/
def recordConnected : ChainstateManager :=
  if pindex.getBlockHash env.hash = env.params.hashGenesisBlock then s
  else
    s.modify pindex fun e =>
      { e with
        nUndoPos := if e.nStatus.haveUndo then e.nUndoPos else connector.undoPos pindex
        nStatus :=
          if e.nStatus.isValid .scripts then { e.nStatus with haveUndo := true }
          else BlockStatus.raiseValidity { e.nStatus with haveUndo := true } .scripts }

def connectTip (pindexNew : CBlockIndex) :
    Except Fault (ChainstateManager × Bool) := do
  assert (pindexNew.pprev == s.tip) "pindexNew->pprev == m_chain.Tip()"
  if connector.accepts pindexNew then
    return ({ s.recordConnected env connector pindexNew with tip := some pindexNew }, true)
  else
    return (← s.invalidBlockFound pindexNew, false)

/-- How a batch of blocks to connect ended. -/
inductive Progress where
  | connectedAll
  | betterThanBefore
  | invalidFound
  deriving DecidableEq, Repr

/-- Connects the blocks of `vpindexToConnect`, given from the lowest to the
    highest. -/
def connectBlocks (pindexOldTip : Option CBlockIndex) (highest : CBlockIndex) :
    ChainstateManager → List CBlockIndex → Except Fault (ChainstateManager × Progress)
  | s, [] => .ok (s, .connectedAll)
  | s, pindexConnect :: rest => do
    match ← s.connectTip env connector pindexConnect with
    | (s, false) => return (← s.invalidChainFound highest, .invalidFound)
    | (s, true) => do
      let s ← s.pruneBlockIndexCandidates env
      if pindexOldTip.all fun old => decide (pindexConnect.nChainWork > old.nChainWork) then
        return (s, .betterThanBefore)
      else connectBlocks pindexOldTip highest s rest

/-- Connects towards `pindexMostWork` in batches of 32 blocks, of which the first
    has height `nHeight + 1`. The result says whether a block was invalid. -/
def connectTowards (pindexMostWork : CBlockIndex) (pindexOldTip : Option CBlockIndex)
    (s : ChainstateManager) (first : Nat) : Except Fault (ChainstateManager × Bool) :=
  if first ≤ pindexMostWork.nHeight then
    let nTargetHeight := min (first + 31) pindexMostWork.nHeight
    let highest := (pindexMostWork.ancestorAt nTargetHeight (Nat.min_le_right _ _)).1
    do
      match ← connectBlocks env connector pindexOldTip highest s (highest.path.drop first) with
      | (s, .connectedAll) => connectTowards pindexMostWork pindexOldTip s (nTargetHeight + 1)
      | (s, .betterThanBefore) => return (s, false)
      | (s, .invalidFound) => return (s, true)
  else .ok (s, false)
termination_by pindexMostWork.nHeight + 1 - first
decreasing_by omega

/-- `ActivateBestChainStep`. The result says whether a block was invalid. -/
def activateBestChainStep (pindexMostWork : CBlockIndex) :
    Except Fault (ChainstateManager × Bool) :=
  let pindexFork := s.findFork pindexMostWork
  match s.tip with
  | none => connectTowards env connector pindexMostWork none s 0
  | some tip => do
    let fork ← disconnectTo pindexFork tip
    connectTowards env connector pindexMostWork (some tip) { s with tip := some fork }
      (fork.nHeight + 1)

/-- The variables of the two nested loops of `ActivateBestChain`. -/
structure Activation where
  manager : ChainstateManager
  pindexMostWork : Option CBlockIndex
  pindexNewTip : Option CBlockIndex
  startingTip : Option CBlockIndex
  blocksConnected : Bool

variable (a : Activation)

/-- What follows the inner loop: return, or another pass of the outer loop. -/
def leaveInnerLoop : Activation ⊕ ChainstateManager :=
  if !a.blocksConnected || a.pindexNewTip == a.pindexMostWork then .inr a.manager
  else .inl { a with startingTip := a.manager.tip, blocksConnected := false }

/-- `pindexMostWork`, found again if it is null. -/
def mostWorkTarget : Except Fault (ChainstateManager × Option CBlockIndex) :=
  match a.pindexMostWork with
  | some target => .ok (a.manager, some target)
  | none => a.manager.findMostWorkChain env

/-- The condition under which the inner loop goes on. -/
def worseThanStart : Bool :=
  match a.manager.tip, a.startingTip with
  | none, _ => true
  | some _, none => false
  | some tip, some start => a.manager.worse env tip start

/-- The variables after `ActivateBestChainStep`. -/
def Activation.afterStep (s : ChainstateManager) (target : CBlockIndex) (fInvalidFound : Bool) :
    Activation :=
  { manager := s
    pindexMostWork := if fInvalidFound then none else some target
    pindexNewTip := s.tip
    startingTip := a.startingTip
    blocksConnected := true }

/-- One pass of the inner loop of `ActivateBestChain`. -/
def activationPass : Except Fault (Activation ⊕ ChainstateManager) := do
  match ← mostWorkTarget env a with
  | (s, none) => return leaveInnerLoop { a with manager := s, pindexMostWork := none }
  | (s, some target) =>
    if s.tip = some target then
      return leaveInnerLoop { a with manager := s, pindexMostWork := some target }
    else do
      let (s, fInvalidFound) ← s.activateBestChainStep env connector target
      let a := a.afterStep s target fInvalidFound
      if worseThanStart env a then return .inl a else return leaveInnerLoop a

/-- `ActivateBestChain`, or `none` if it takes more than the given passes. -/
def activateBestChain (passes : Nat) (s : ChainstateManager) :
    Except Fault (Option ChainstateManager) :=
  Library.loop (activationPass env connector) passes
    { manager := s
      pindexMostWork := none
      pindexNewTip := none
      startingTip := s.tip
      blocksConnected := false }

/-- `PreciousBlock` up to its call of `ActivateBestChain`, and whether that call is
    made. -/
def markPrecious :
    Except Fault (ChainstateManager × Bool) :=
  match s.tip with
  | none => .error (.exception "m_chain.Tip()")
  | some tip =>
    if pindex.nChainWork < tip.nChainWork then .ok (s, false)
    else
      let nSequenceId :=
        if tip.nChainWork > s.nLastPreciousChainwork then -1 else s.nBlockReverseSequenceId
      let marked := (s.eraseCandidate pindex).modify pindex fun e => { e with nSequenceId }
      let counted :=
        { marked with
          nLastPreciousChainwork := tip.nChainWork
          nBlockReverseSequenceId :=
            if nSequenceId > -2 ^ 31 then nSequenceId - 1 else nSequenceId }
      if (counted.nStatus pindex).isValid .transactions && counted.haveNumChainTxs pindex then do
        return (← (counted.insertCandidate pindex).pruneBlockIndexCandidates env, true)
      else .ok (counted, true)

def preciousBlock (passes : Nat) (s : ChainstateManager) (pindex : CBlockIndex) :
    Except Fault (Option ChainstateManager) := do
  match ← s.markPrecious env pindex with
  | (s, false) => return some s
  | (s, true) => s.activateBestChain env connector passes

/-- The variables of the loop of `InvalidateBlock`. -/
structure Invalidation where
  manager : ChainstateManager
  toMarkFailed : CBlockIndex
  candidateBlocks : List CBlockIndex

/-- The blocks off the active chain that may become candidates: the entries of
    `candidate_blocks_by_work`. -/
def candidateBlocksByWork : List CBlockIndex :=
  match pindex.pprev with
  | none => []
  | some pprev =>
    s.blocks.filter fun candidate =>
      !s.contains candidate && !s.worse env candidate pprev &&
        (s.nStatus candidate).isValid .transactions && s.haveNumChainTxs candidate

/-- The body of the loop of `InvalidateBlock`, for a tip and its parent. -/
def invalidateTip (v : Invalidation) (walkTip pprev : CBlockIndex) : Invalidation :=
  let s := ({ v.manager with tip := some pprev }.modifyStatus walkTip fun status =>
    { status with failedValid := true }).eraseCandidate walkTip |>.insertCandidate pprev
  let s :=
    if pprev = v.toMarkFailed && (s.nStatus v.toMarkFailed).failedValid then
      s.modifyStatus v.toMarkFailed fun status =>
        { status with failedValid := false, failedChild := true }
    else s
  let chosen := fun c : CBlockIndex =>
    decide (c.nChainWork ≥ pprev.nChainWork) && !s.worse env c pprev
  { manager := (v.candidateBlocks.filter chosen).foldl insertCandidate s
    toMarkFailed := walkTip
    candidateBlocks := v.candidateBlocks.filter fun c => !chosen c }

/-- The loop of `InvalidateBlock`, from the given tip on. -/
def invalidateTips (pindex : CBlockIndex) : Invalidation → CBlockIndex → Except Fault Invalidation
  | v, .genesis _ =>
    if v.manager.contains pindex then .error (.assertion "pindexDelete->pprev") else .ok v
  | v, .child p f =>
    if v.manager.contains pindex then
      invalidateTips pindex (invalidateTip env v (.child p f) p) p
    else .ok v

/-- The last loop of `InvalidateBlock`: one entry of the index. -/
def addMissingCandidate (b : CBlockIndex) : ChainstateManager :=
  match s.tip with
  | none => s
  | some tip =>
    if (s.nStatus b).isValid .transactions && s.haveNumChainTxs b && !s.worse env b tip then
      s.insertCandidate b
    else s

/-- `InvalidateBlock`. The result says whether it did its work. -/
def invalidateBlock :
    Except Fault (ChainstateManager × Bool) :=
  if pindex.nHeight = 0 then .ok (s, false)
  else
    let start : Invalidation := ⟨s, pindex, s.candidateBlocksByWork env pindex⟩
    do
      let v ←
        match s.tip with
        | none => Except.ok start
        | some tip => invalidateTips env pindex start tip
      if v.manager.contains v.toMarkFailed then return (v.manager, false)
      else
        let marked := (v.manager.modifyStatus v.toMarkFailed fun status =>
          { status with failedValid := true }).eraseCandidate v.toMarkFailed
        let failed := { marked with failedBlocks := marked.failedBlocks.insert v.toMarkFailed }
        let filled := failed.blocks.foldl (addMissingCandidate env) failed
        return (← filled.invalidChainFound v.toMarkFailed, true)

def clearFailure (b : CBlockIndex) : ChainstateManager :=
  { s.modifyStatus b fun status => { status with failedValid := false, failedChild := false } with
    failedBlocks := s.failedBlocks.filter (· ≠ b) }

/-- The first loop of `ResetBlockFailureFlags`: one entry of the index. -/
def resetDescendant (s : ChainstateManager) (b : CBlockIndex) :
    ChainstateManager :=
  if !(s.nStatus b).isValid .transactions && b.getAncestor pindex.nHeight == some pindex then
    let cleared := s.clearFailure b
    let added :=
      match s.tip with
      | none => cleared
      | some tip =>
        if (cleared.nStatus b).isValid .transactions && cleared.haveNumChainTxs b &&
            cleared.worse env tip b then
          cleared.insertCandidate b
        else cleared
    { added with bestInvalid := if s.bestInvalid = some b then none else s.bestInvalid }
  else s

/-- The body of the second loop of `ResetBlockFailureFlags`. -/
def resetAncestor : ChainstateManager :=
  if (s.nStatus pindex).failed then s.clearFailure pindex else s

/-- The second loop of `ResetBlockFailureFlags`, from a block down. -/
def resetAncestors (s : ChainstateManager) : CBlockIndex → ChainstateManager
  | .genesis f => s.resetAncestor (.genesis f)
  | .child p f => (s.resetAncestor (.child p f)).resetAncestors p

def resetBlockFailureFlags : ChainstateManager :=
  (s.blocks.foldl (resetDescendant env pindex) s).resetAncestors pindex

end ChainstateManager

end HobbyHash
