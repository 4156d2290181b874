import HobbyHash.Chainstate.Index

/-! # CheckBlockIndex

The consistency check of `ChainstateManager`. The source visits the tree depth
first and remembers, for the path to the block it is at, the oldest block with
each of several properties; here `first` finds that block on the branch. With one
chainstate, no snapshot and no pruning every assertion is read with
`m_have_pruned` false and `IsAssumedValid()` false.
-/

namespace HobbyHash

open Machine

/-- The oldest block of a branch that has a property. -/
def CBlockIndex.first (property : CBlockIndex → Bool) : CBlockIndex → Option CBlockIndex
  | .genesis f => if property (.genesis f) then some (.genesis f) else none
  | .child p f =>
    match p.first property with
    | some a => some a
    | none => if property (.child p f) then some (.child p f) else none

theorem CBlockIndex.first_eq_none :
    b.first property = none ↔ ∀ a, Ancestor a b → property a = false := by
  induction b with
  | genesis f =>
    simp only [first, ite_eq_right_iff, reduceCtorEq, imp_false, Bool.not_eq_true]
    constructor
    · intro absent a lt
      cases lt with
      | refl => exact absent
    · intro absent
      exact absent _ .refl
  | child p f ih =>
    simp only [first]
    constructor
    · intro absent a lt
      cases earlier : p.first property with
      | some c =>
        rw [earlier] at absent
        cases absent
      | none =>
        rw [earlier] at absent
        cases lt with
        | refl =>
          by_contra holds
          simp [holds] at absent
        | step lt => exact ih.mp earlier a lt
    · intro absent
      rw [ih.mpr fun a lt => absent a (.step lt)]
      simp [absent _ .refl]

theorem CBlockIndex.first_congr (same : ∀ a, Ancestor a b → property a = other a) :
    b.first property = b.first other := by
  induction b with
  | genesis f => simp only [first, same _ .refl]
  | child p f ih =>
    simp only [first, same _ .refl, ih fun a lt => same a (.step lt)]

namespace ChainstateManager

variable (env : IndexEnv) (s : ChainstateManager)

/-- Whether a block is found under its parent in `m_blocks_unlinked`. -/
def foundInUnlinked (b : CBlockIndex) : Bool :=
  match b.pprev with
  | none => false
  | some pprev => s.blocksUnlinked.contains (pprev, b)

/-- A block other than the first that is not valid up to a level. -/
def notValid (level : BlockValidity) (b : CBlockIndex) : Bool :=
  b.pprev.isSome && decide ((s.nStatus b).validity.level < level.level)

/-- The assertions of `CheckBlockIndex` about one block, with the text of each. -/
def assertions (tip b : CBlockIndex) : List (String × Bool) :=
  let e := s.entry b
  let firstInvalid := b.first fun a => (s.nStatus a).failedValid
  let firstMissing := b.first fun a => !(s.nStatus a).haveData
  let firstNeverProcessed := b.first fun a => (s.entry a).nTx == 0
  let eligible := !s.worse env b tip && firstNeverProcessed.isNone
  let isCandidate := s.setBlockIndexCandidates.contains b
  [("pindex->GetBlockHash() == GetConsensus().hashGenesisBlock",
      b.pprev.isSome || b.getBlockHash env.hash == env.params.hashGenesisBlock),
   ("pindex == c->m_chain.Genesis()", b.pprev.isSome || tip.path[0]? == some b),
   ("pindex->nSequenceId <= 0", s.haveNumChainTxs b || decide (e.nSequenceId ≤ 0)),
   ("!(pindex->nStatus & BLOCK_HAVE_DATA) == (pindex->nTx == 0)",
      (!e.nStatus.haveData) == (e.nTx == 0)),
   ("pindexFirstMissing == pindexFirstNeverProcessed", firstMissing == firstNeverProcessed),
   ("pindex->nStatus & BLOCK_HAVE_DATA", !e.nStatus.haveUndo || e.nStatus.haveData),
   ("((pindex->nStatus & BLOCK_VALID_MASK) >= BLOCK_VALID_TRANSACTIONS) == (pindex->nTx > 0)",
      decide (BlockValidity.transactions.level ≤ e.nStatus.validity.level) == decide (e.nTx > 0)),
   ("(pindexFirstNeverProcessed == nullptr) == pindex->HaveNumChainTxs()",
      firstNeverProcessed.isNone == s.haveNumChainTxs b),
   ("(pindexFirstNotTransactionsValid == nullptr) == pindex->HaveNumChainTxs()",
      (b.first (s.notValid .transactions)).isNone == s.haveNumChainTxs b),
   ("pindex->nHeight == nHeight", b.path.length == b.nHeight + 1),
   ("pindex->pprev == nullptr || pindex->nChainWork >= pindex->pprev->nChainWork",
      b.pprev.all fun pprev => decide (b.nChainWork ≥ pprev.nChainWork)),
   ("nHeight < 2 || (pindex->pskip && (pindex->pskip->nHeight < nHeight))",
      decide (b.nHeight < 2) || b.pskip.any fun pskip => decide (pskip.nHeight < b.nHeight)),
   ("pindexFirstNotTreeValid == nullptr", (b.first (s.notValid .tree)).isNone),
   ("pindexFirstNotChainValid == nullptr",
      decide (e.nStatus.validity.level < BlockValidity.chain.level) ||
        (b.first (s.notValid .chain)).isNone),
   ("pindexFirstNotScriptsValid == nullptr",
      decide (e.nStatus.validity.level < BlockValidity.scripts.level) ||
        (b.first (s.notValid .scripts)).isNone),
   ("(pindex->nStatus & BLOCK_FAILED_MASK) == 0", firstInvalid.isSome || !e.nStatus.failed),
   ("pindex->nChainTx == pindex->nTx + prev_chain_tx",
      e.nChainTx == (e.nTx + s.prevChainTx b) % uintModulus ||
        (e.nChainTx == 0 && e.nTx == 0) ||
        (e.nChainTx == 0 && s.prevChainTx b == 0 && b.pprev.isSome)),
   ("c->setBlockIndexCandidates.count(pindex)",
      !(eligible && firstInvalid.isNone && (firstMissing.isNone || b == tip)) || isCandidate),
   ("c->setBlockIndexCandidates.count(pindex) == 0", eligible || !isCandidate),
   ("foundInUnlinked",
      !(b.pprev.isSome && e.nStatus.haveData && firstNeverProcessed.isSome && firstInvalid.isNone) ||
        s.foundInUnlinked b),
   ("!foundInUnlinked", e.nStatus.haveData || !s.foundInUnlinked b),
   ("!foundInUnlinked", firstMissing.isSome || !s.foundInUnlinked b),
   ("m_blockman.m_have_pruned || pindexFirstAssumeValid != nullptr",
      !(b.pprev.isSome && e.nStatus.haveData && firstNeverProcessed.isNone && firstMissing.isSome))]

/-- `CheckBlockIndex`. A block is reached by the traversal if its branch lies in
    the index. -/
def checkBlockIndex : Except Fault Unit :=
  match s.tip with
  | none => assert (s.blocks.length ≤ 1) "m_blockman.m_block_index.size() <= 1"
  | some tip => do
    assert ((s.blocks.filter (·.pprev.isNone)).length == 1) "rangeGenesis.first == rangeGenesis.second"
    s.blocks.forM fun b => (s.assertions env tip b).forM fun a => assert a.2 a.1
    assert (s.blocks.all fun b => b.path.all fun a => s.blocks.contains a)
      "nNodes == forward.size()"

end ChainstateManager

end HobbyHash
