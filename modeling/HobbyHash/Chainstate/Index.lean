import HobbyHash.Primitives
import Mathlib.Data.Prod.Lex

/-! # The block index of a running node

What `BlockManager`, `ChainstateManager` and the one `Chainstate` keep about
blocks. A `CBlockIndex` stands for the branch it ends, so the members that are
written once, when the header is accepted, are functions of it; those that change
later are kept beside it in a `BlockEntry`. Maps and sets of pointers are lists that
are only read for membership, but for `m_blocks_unlinked`, which keeps the pairs of one
parent in the order they came; `m_chain` is given by its tip. There is no snapshot and
no pruning: `BLOCK_ASSUMED_VALID` and `m_have_pruned` are never set.
-/

namespace HobbyHash

open List Function

/-- The levels of `BLOCK_VALID_MASK`. -/
inductive BlockValidity where
  | unknown
  | reserved
  | tree
  | transactions
  | chain
  | scripts
  deriving DecidableEq, Repr

def BlockValidity.level : BlockValidity → Nat
  | .unknown => 0
  | .reserved => 1
  | .tree => 2
  | .transactions => 3
  | .chain => 4
  | .scripts => 5

/-- `nStatus`, one member for each bit and one for the level. -/
structure BlockStatus where
  validity : BlockValidity := .unknown
  haveData : Bool := false
  haveUndo : Bool := false
  failedValid : Bool := false
  failedChild : Bool := false
  optWitness : Bool := false
  deriving DecidableEq, Repr

namespace BlockStatus

variable (status : BlockStatus)

/-- `nStatus & BLOCK_FAILED_MASK`. -/
def failed : Bool :=
  status.failedValid || status.failedChild

def isValid (nUpTo : BlockValidity) : Bool :=
  !status.failed && decide (nUpTo.level ≤ status.validity.level)

def raiseValidity (nUpTo : BlockValidity) : BlockStatus :=
  if status.failed then status
  else if status.validity.level < nUpTo.level then { status with validity := nUpTo }
  else status

theorem isValid_iff {status : BlockStatus} :
    status.isValid nUpTo = true ↔
      status.failed = false ∧ nUpTo.level ≤ status.validity.level := by
  simp only [isValid, Bool.and_eq_true, Bool.not_eq_true', decide_eq_true_eq]

theorem raiseValidity_of_lower {status : BlockStatus} {nUpTo} (unmarked : status.failed = false)
    (lt : status.validity.level < nUpTo.level) :
    status.raiseValidity nUpTo = { status with validity := nUpTo } := by
  rw [raiseValidity, unmarked, if_neg Bool.false_ne_true, if_pos lt]

theorem raiseValidity_eq (nUpTo : BlockValidity) :
    ∃ validity, status.raiseValidity nUpTo = { status with validity } ∧
      status.validity.level ≤ validity.level ∧
      (status.failed = false → nUpTo.level ≤ validity.level) := by
  rw [raiseValidity]
  split
  · rename_i failed
    exact ⟨_, rfl, le_rfl, fun unfailed => by rw [unfailed] at failed; cases failed⟩
  split
  · rename_i lower
    exact ⟨nUpTo, rfl, lower.le, fun _ => le_rfl⟩
  · rename_i notLower
    exact ⟨_, rfl, le_rfl, fun _ => Nat.not_lt.mp notLower⟩

end BlockStatus

/-- The members of `CBlockIndex` that change after the header was accepted. The
    two counts are `unsigned int`. -/
structure BlockEntry where
  nStatus : BlockStatus := {}
  nTx : Nat := 0
  nChainTx : Nat := 0
  nSequenceId : Int := 0
  nFile : Nat := 0
  nDataPos : Nat := 0
  nUndoPos : Nat := 0
  deriving DecidableEq, Repr

def uintModulus : Nat := 2 ^ 32

namespace CBlockIndex

def nTimeMax : CBlockIndex → Nat
  | .genesis f => f.nTime.toNat
  | .child p f => max p.nTimeMax f.nTime.toNat

/-- `pskip`, as `BuildSkip` sets it. -/
def pskip : CBlockIndex → Option CBlockIndex
  | .genesis _ => none
  | .child p _ => p.getAncestor (getSkipHeight (p.nHeight + 1) : Nat)

/-- The blocks of a branch from the first one on: `vChain` after `SetTip`. -/
def path : CBlockIndex → List CBlockIndex
  | .genesis f => [.genesis f]
  | .child p f => p.path ++ [.child p f]

theorem length_path (b : CBlockIndex) : b.path.length = b.nHeight + 1 := by
  induction b with
  | genesis f => rfl
  | child p f ih => simp [path, ih]

theorem mem_path {a b : CBlockIndex} : a ∈ b.path ↔ Ancestor a b := by
  induction b with
  | genesis f =>
    simp only [path, mem_singleton]
    constructor
    · rintro rfl
      exact .refl
    · intro lt
      cases lt with
      | refl => rfl
  | child p f ih =>
    simp only [path, mem_append, mem_singleton, ih]
    constructor
    · rintro (lt | rfl)
      · exact .step lt
      · exact .refl
    · intro lt
      cases lt with
      | refl => exact .inr rfl
      | step lt => exact .inl lt

instance (a b : CBlockIndex) : Decidable (Ancestor a b) :=
  decidable_of_iff (a ∈ b.path) mem_path

theorem getAncestor_eq_some_iff {a b : CBlockIndex} :
    b.getAncestor a.nHeight = some a ↔ Ancestor a b :=
  getAncestor_eq_some.trans (and_iff_left rfl)

theorem Ancestor.pprev {a p f} (lt : Ancestor a (child p f)) (ne : a ≠ child p f) :
    Ancestor a p := by
  cases lt with
  | refl => exact absurd rfl ne
  | step lt => exact lt

end CBlockIndex

def HeaderFields.code (f : HeaderFields) : Nat :=
  (((f.nVersion.toUInt32.toNat * 2 ^ 256 + f.hashMerkleRoot.toNat) * 2 ^ 32 + f.nTime.toNat) *
    2 ^ 32 + f.nBits.toNat) * 2 ^ 32 + f.nNonce.toNat

theorem HeaderFields.code_lt (f : HeaderFields) : f.code < 2 ^ 384 := by
  have version := f.nVersion.toUInt32.toNat_lt
  have time := f.nTime.toNat_lt
  have bits := f.nBits.toNat_lt
  have nonce := f.nNonce.toNat_lt
  simp only [code]
  omega

theorem HeaderFields.code_injective : Function.Injective code := by
  intro f g same
  have timeF := f.nTime.toNat_lt
  have timeG := g.nTime.toNat_lt
  have bitsF := f.nBits.toNat_lt
  have bitsG := g.nBits.toNat_lt
  have nonceF := f.nNonce.toNat_lt
  have nonceG := g.nNonce.toNat_lt
  simp only [code] at same
  have version : f.nVersion.toUInt32.toNat = g.nVersion.toUInt32.toNat := by omega
  have root : f.hashMerkleRoot.toNat = g.hashMerkleRoot.toNat := by omega
  have time : f.nTime.toNat = g.nTime.toNat := by omega
  have bits : f.nBits.toNat = g.nBits.toNat := by omega
  have nonce : f.nNonce.toNat = g.nNonce.toNat := by omega
  cases f
  cases g
  simp only [HeaderFields.mk.injEq]
  exact ⟨congrArg Int32.ofUInt32 (UInt32.toNat_inj.mp version), BitVec.toNat_inj.mp root,
    UInt32.toNat_inj.mp time, UInt32.toNat_inj.mp bits, UInt32.toNat_inj.mp nonce⟩

/-- A number for every branch, so that addresses can be given. -/
def CBlockIndex.serial : CBlockIndex → Nat
  | .genesis f => f.code
  | .child p f => (p.serial + 1) * 2 ^ 384 + f.code

theorem CBlockIndex.serial_injective : Function.Injective serial := by
  intro a
  induction a with
  | genesis f =>
    intro b same
    cases b with
    | genesis g => rw [HeaderFields.code_injective same]
    | child q g =>
      have small := f.code_lt
      simp only [serial] at same
      omega
  | child p f ih =>
    intro b same
    have smallF := f.code_lt
    cases b with
    | genesis g =>
      have smallG := g.code_lt
      simp only [serial] at same
      omega
    | child q g =>
      have smallG := g.code_lt
      simp only [serial] at same
      have parents : p.serial = q.serial := by omega
      have fields : f.code = g.code := by omega
      rw [ih parents, HeaderFields.code_injective fields]

/-- What the index functions read and never write. -/
structure IndexEnv where
  /-- `CBlockHeader::GetHash`. -/
  hash : CBlockHeader → Uint256
  params : Consensus.Params
  minimumChainWork : Nat
  /-- `Checkpoints().mapCheckpoints`, from the highest to the lowest. -/
  checkpoints : List (Nat × Uint256)
  checkpointsEnabled : Bool
  /-- Where an entry of `m_block_index` is stored. -/
  address : CBlockIndex → Nat
  address_injective : Function.Injective address

structure ChainstateManager where
  /-- The entries of `m_block_index`. -/
  blocks : List CBlockIndex
  entry : CBlockIndex → BlockEntry
  /-- `m_blocks_unlinked`: pairs of a parent and a block. -/
  blocksUnlinked : List (CBlockIndex × CBlockIndex)
  setBlockIndexCandidates : List CBlockIndex
  tip : Option CBlockIndex
  failedBlocks : List CBlockIndex
  bestInvalid : Option CBlockIndex
  bestHeader : Option CBlockIndex
  nBlockSequenceId : Int
  nBlockReverseSequenceId : Int
  nLastPreciousChainwork : Nat

/-- An environment for small examples: the hash of a header is its nonce, and the
    target is so high that every header has enough work. -/
def exampleEnv : IndexEnv where
  hash header := BitVec.ofNat 256 header.nNonce.toNat
  params :=
    { Consensus.mainParams with
      hashGenesisBlock := 1
      powLimit := BitVec.ofNat 256 (2 ^ 255 - 1)
      fPowNoRetargeting := true }
  minimumChainWork := 0
  checkpoints := []
  checkpointsEnabled := false
  address := CBlockIndex.serial
  address_injective := CBlockIndex.serial_injective

def exampleFields (hash : UInt32) : HeaderFields :=
  ⟨4, 0, 1700000000 + 600 * hash, 0x207fffff, hash⟩

def exampleHeader (hash : UInt32) (hashPrevBlock : Uint256) : CBlockHeader :=
  { exampleFields hash with hashPrevBlock }

namespace ChainstateManager

/-- The index of a node that has not loaded anything. -/
def empty : ChainstateManager where
  blocks := []
  entry _ := {}
  blocksUnlinked := []
  setBlockIndexCandidates := []
  tip := none
  failedBlocks := []
  bestInvalid := none
  bestHeader := none
  nBlockSequenceId := 1
  nBlockReverseSequenceId := -1
  nLastPreciousChainwork := 0

variable (env : IndexEnv) (s : ChainstateManager)

def nStatus (b : CBlockIndex) : BlockStatus := (s.entry b).nStatus

variable (b : CBlockIndex)

def haveNumChainTxs : Bool := (s.entry b).nChainTx != 0

def modify (change : BlockEntry → BlockEntry) : ChainstateManager :=
  { s with entry := Function.update s.entry b (change (s.entry b)) }

def modifyStatus (change : BlockStatus → BlockStatus) : ChainstateManager :=
  s.modify b fun e => { e with nStatus := change e.nStatus }

def insertCandidate : ChainstateManager :=
  { s with setBlockIndexCandidates := s.setBlockIndexCandidates.insert b }

def eraseCandidate : ChainstateManager :=
  { s with setBlockIndexCandidates := s.setBlockIndexCandidates.filter (· ≠ b) }

@[simp] theorem entry_modify_self (change : BlockEntry → BlockEntry) :
    (s.modify b change).entry b = change (s.entry b) :=
  update_self ..

theorem entry_modify_of_ne {a b : CBlockIndex} (ne : a ≠ b) (change : BlockEntry → BlockEntry) :
    (s.modify b change).entry a = s.entry a :=
  update_of_ne ne ..

@[simp] theorem mem_insertCandidate {b c : CBlockIndex} :
    c ∈ (s.insertCandidate b).setBlockIndexCandidates ↔ c = b ∨ c ∈ s.setBlockIndexCandidates :=
  mem_insert_iff

@[simp] theorem mem_eraseCandidate {b c : CBlockIndex} :
    c ∈ (s.eraseCandidate b).setBlockIndexCandidates ↔ c ∈ s.setBlockIndexCandidates ∧ c ≠ b := by
  simp only [eraseCandidate, mem_filter, decide_eq_true_eq]

/-- `m_block_index.find(hash)`. -/
def find (hash : Uint256) : Option CBlockIndex :=
  s.blocks.find? fun b => b.getBlockHash env.hash == hash

/-- `m_chain.Contains`. -/
def contains : Bool :=
  match s.tip with
  | none => false
  | some tip => tip.path[b.nHeight]? == some b

/-- `CBlockIndexWorkComparator`: `pa` sorts before `pb`. -/
def worse (pa pb : CBlockIndex) : Bool :=
  if pa.nChainWork > pb.nChainWork then false
  else if pa.nChainWork < pb.nChainWork then true
  else if (s.entry pa).nSequenceId < (s.entry pb).nSequenceId then false
  else if (s.entry pa).nSequenceId > (s.entry pb).nSequenceId then true
  else if env.address pa < env.address pb then false
  else if env.address pa > env.address pb then true
  else false

/-- The object that `AddToBlockIndex` makes of a new header. -/
def newBlockIndex (block : CBlockHeader) : CBlockIndex :=
  match s.find env block.hashPrevBlock with
  | some pprev => .child pprev block.toHeaderFields
  | none => .genesis block.toHeaderFields

def addNew (pindexNew : CBlockIndex) : ChainstateManager :=
  { s with
    blocks := s.blocks ++ [pindexNew]
    entry := Function.update s.entry pindexNew { nStatus := BlockStatus.raiseValidity {} .tree }
    bestHeader :=
      match s.bestHeader with
      | none => some pindexNew
      | some best => if best.nChainWork < pindexNew.nChainWork then some pindexNew else some best }

/-- `AddToBlockIndex`: the entry of a header, which is added if it is new. -/
def addToBlockIndex (block : CBlockHeader) : ChainstateManager × CBlockIndex :=
  match s.find env (env.hash block) with
  | some pindex => (s, pindex)
  | none => (s.addNew (s.newBlockIndex env block), s.newBlockIndex env block)

theorem newBlockIndex_pprev (isNew : s.newBlockIndex env block = .child p f) : p ∈ s.blocks := by
  simp only [newBlockIndex] at isNew
  split at isNew
  · rename_i found
    cases isNew
    exact mem_of_find?_eq_some found
  · cases isNew

theorem entry_addNew_self :
    (s.addNew b).entry b = { nStatus := BlockStatus.raiseValidity {} .tree } :=
  update_self ..

theorem entry_addNew_of_ne {a b : CBlockIndex} (ne : a ≠ b) : (s.addNew b).entry a = s.entry a :=
  update_of_ne ne ..

theorem mem_blocks_addNew {a b : CBlockIndex} : a ∈ (s.addNew b).blocks ↔ a ∈ s.blocks ∨ a = b := by
  simp only [addNew, mem_append, mem_singleton]

variable {s} in
theorem known_addNew {a b : CBlockIndex} (mem : a ∈ s.blocks) : a ∈ (s.addNew b).blocks :=
  mem_append_left _ mem

variable {s} in
theorem forall_addNew {b : CBlockIndex} {P : CBlockIndex → Prop} :
    (∀ a ∈ (s.addNew b).blocks, P a) ↔ (∀ a ∈ s.blocks, P a) ∧ P b := by
  simp only [mem_blocks_addNew, or_imp, forall_and, forall_eq]

theorem hashes_addNew {hash : CBlockIndex → Uint256}
    (hashes : ∀ a ∈ s.blocks, ∀ b ∈ s.blocks, hash a = hash b → a = b)
    (apart : ∀ a ∈ s.blocks, hash a ≠ hash c) :
    ∀ a ∈ (s.addNew c).blocks, ∀ b ∈ (s.addNew c).blocks, hash a = hash b → a = b := by
  intro a isA b isB same
  rw [mem_blocks_addNew] at isA isB
  obtain oldA | rfl := isA <;> obtain oldB | rfl := isB
  · exact hashes a oldA b oldB same
  · exact absurd same (apart a oldA)
  · exact absurd same.symm (apart b oldB)
  · rfl

def tryAddBlockIndexCandidate (pindex : CBlockIndex) : ChainstateManager :=
  match s.tip with
  | some tip => if s.worse env pindex tip then s else s.insertCandidate pindex
  | none => s.insertCandidate pindex

/-- `nChainTx` of the parent, or zero. -/
def prevChainTx : Nat :=
  match b.pprev with
  | none => 0
  | some pprev => (s.entry pprev).nChainTx

/-- The body of the queue of `ReceivedBlockTransactions` for one block, up to the
    blocks that wait for it. -/
def linkBlock (pindex : CBlockIndex) : ChainstateManager :=
  let linked := { s.modify pindex fun e =>
    { e with
      nChainTx := (s.prevChainTx pindex + e.nTx) % uintModulus
      nSequenceId := s.nBlockSequenceId } with nBlockSequenceId := s.nBlockSequenceId + 1 }
  linked.tryAddBlockIndexCandidate env pindex

def waiting (pprev : CBlockIndex) : List CBlockIndex :=
  (s.blocksUnlinked.filter (·.1 = pprev)).map (·.2)

def dropWaiting (pprev : CBlockIndex) : ChainstateManager :=
  { s with blocksUnlinked := s.blocksUnlinked.filter fun pair => !decide (pair.1 = pprev) }

theorem length_waiting_add (pprev : CBlockIndex) :
    (s.waiting pprev).length + (s.dropWaiting pprev).blocksUnlinked.length =
      s.blocksUnlinked.length := by
  simp only [waiting, dropWaiting, length_map]
  exact (length_eq_length_filter_add _).symm

@[simp] theorem blocksUnlinked_linkBlock (pindex : CBlockIndex) :
    (s.linkBlock env pindex).blocksUnlinked = s.blocksUnlinked := by
  simp only [linkBlock, tryAddBlockIndexCandidate]
  split
  · split <;> rfl
  · rfl

/-- The queue of `ReceivedBlockTransactions`. -/
def linkQueue (s : ChainstateManager) : List CBlockIndex → ChainstateManager
  | [] => s
  | pindex :: queue =>
    linkQueue ((s.linkBlock env pindex).dropWaiting pindex)
      (queue ++ (s.linkBlock env pindex).waiting pindex)
termination_by queue => queue.length + s.blocksUnlinked.length
decreasing_by
  have moved := (s.linkBlock env pindex).length_waiting_add pindex
  rw [blocksUnlinked_linkBlock] at moved
  simp only [List.length_append, List.length_cons]
  omega

structure FlatFilePos where
  nFile : Nat
  nPos : Nat
  deriving DecidableEq, Repr

/-- The members that `ReceivedBlockTransactions` sets before it looks at the
    parent. -/
def storeData (block : CBlock) (pindexNew : CBlockIndex) (pos : FlatFilePos) : ChainstateManager :=
  s.modify pindexNew fun e =>
    { e with
      nTx := block.vtx.length % uintModulus
      nChainTx := 0
      nFile := pos.nFile
      nDataPos := pos.nPos
      nUndoPos := 0
      nStatus := BlockStatus.raiseValidity
        { e.nStatus with
          haveData := true
          optWitness := e.nStatus.optWitness ||
            decide ((pindexNew.nHeight : Int) ≥ env.params.segwitHeight) }
        .transactions }

def receivedBlockTransactions (block : CBlock) (pindexNew : CBlockIndex) (pos : FlatFilePos) :
    ChainstateManager :=
  let stored := s.storeData env block pindexNew pos
  match pindexNew.pprev with
  | none => stored.linkQueue env [pindexNew]
  | some pprev =>
    if stored.haveNumChainTxs pprev then stored.linkQueue env [pindexNew]
    else if (stored.nStatus pprev).isValid .tree then
      { stored with blocksUnlinked := stored.blocksUnlinked ++ [(pprev, pindexNew)] }
    else stored

end ChainstateManager

end HobbyHash
