import HobbyHash.Chainstate.DiskIndex
import HobbyHash.Pow

/-! # Loading the block index

`LoadBlockIndexGuts` and `LoadBlockIndex`. Here an entry is an object of
`m_block_index` whose pointers are not known to be right: a pointer is the hash
under which its object is stored, and the members that are only kept in memory are
computed again. The objects are visited in an order in which heights do not fall;
among objects of one height the order is open.
-/

namespace HobbyHash

open CBlockIndex

/-- A `CBlockIndex` in memory, with a pointer given by the hash of its object. -/
structure LoadedIndex where
  pprev : Option Uint256 := none
  pskip : Option Uint256 := none
  nHeight : Nat := 0
  nFile : Nat := 0
  nDataPos : Nat := 0
  nUndoPos : Nat := 0
  nChainWork : Nat := 0
  nTx : Nat := 0
  nChainTx : Nat := 0
  nStatus : BlockStatus := {}
  fields : HeaderFields := ⟨0, 0, 0, 0, 0⟩
  nTimeMax : Nat := 0
  deriving DecidableEq, Repr

/-- `m_block_index` and `m_blocks_unlinked` while they are loaded. -/
structure BlockManager where
  keys : List Uint256 := []
  node : Uint256 → LoadedIndex := fun _ => {}
  blocksUnlinked : List (Uint256 × Uint256) := []

namespace BlockManager

variable (env : IndexEnv) (m : BlockManager)

variable (pindex : Uint256)

def modify (change : LoadedIndex → LoadedIndex) : BlockManager :=
  { m with node := Function.update m.node pindex (change (m.node pindex)) }

/-- `InsertBlockIndex`: the object of a hash, which is made if there is none; null for
    the null hash. -/
def insertBlockIndex (hash : Uint256) : BlockManager × Option Uint256 :=
  if hash = 0 then (m, none)
  else if hash ∈ m.keys then (m, some hash)
  else ({ m with keys := m.keys ++ [hash], node := Function.update m.node hash {} }, some hash)

/-- The body of the loop of `LoadBlockIndexGuts`, for a record that was read. -/
def loadRecord (diskindex : CDiskBlockIndex) : Except String BlockManager :=
  match m.insertBlockIndex (diskindex.constructBlockHash env.hash) with
  | (_, none) => .error "pindexNew"
  | (inserted, some pindexNew) =>
    let parent := inserted.insertBlockIndex diskindex.hashPrev
    let written := parent.1.modify pindexNew fun e =>
      { e with
        pprev := parent.2
        nHeight := diskindex.nHeight
        nFile := diskindex.nFile
        nDataPos := diskindex.nDataPos
        nUndoPos := diskindex.nUndoPos
        fields := diskindex.toHeaderFields
        nStatus := diskindex.nStatus
        nTx := diskindex.nTx }
    if Pow.checkProofOfWork pindexNew diskindex.nBits env.params then .ok written
    else .error "CheckProofOfWork failed"

/-- `LoadBlockIndexGuts`, on the values of the database in the order of their
    keys. -/
def loadBlockIndexGuts (records : List (List UInt8)) : Except String BlockManager :=
  records.foldlM
    (fun m value =>
      match CDiskBlockIndex.unserialize value with
      | none => .error "failed to read value"
      | some (diskindex, _) => m.loadRecord env diskindex) m

/-- The loop of `GetAncestor` on objects in memory. -/
def walkToHeight (height : Nat) (pindexWalk : Uint256) (heightWalk : Nat) : Option Uint256 :=
  if low : heightWalk ≤ height then some pindexWalk
  else
    let heightSkip := getSkipHeight heightWalk
    let heightSkipPrev := getSkipHeight (heightWalk - 1)
    let follow := heightSkip = height ∨
      (heightSkip > height ∧ ¬ (heightSkipPrev < heightSkip - 2 ∧ heightSkipPrev ≥ height))
    match (m.node pindexWalk).pskip with
    | some pskip =>
      if follow then
        have : getSkipHeight heightWalk < heightWalk := getSkipHeight_lt (by omega)
        walkToHeight height pskip heightSkip
      else
        match (m.node pindexWalk).pprev with
        | none => none
        | some pprev => walkToHeight height pprev (heightWalk - 1)
    | none =>
      match (m.node pindexWalk).pprev with
      | none => none
      | some pprev => walkToHeight height pprev (heightWalk - 1)
termination_by heightWalk

def getAncestor (height : Nat) : Option Uint256 :=
  if height > (m.node pindex).nHeight then none
  else m.walkToHeight height pindex (m.node pindex).nHeight

def buildSkip : BlockManager :=
  match (m.node pindex).pprev with
  | none => m
  | some pprev =>
    m.modify pindex fun e => { e with pskip := m.getAncestor pprev (getSkipHeight e.nHeight) }

/-- The work and the largest time of a branch, from those of the parent. -/
def computeWork : BlockManager :=
  m.modify pindex fun e =>
    { e with
      nChainWork := (e.pprev.elim 0 (fun pprev => (m.node pprev).nChainWork) +
        getBlockProof e.fields.nBits) % ArithUint256.modulus
      nTimeMax := e.pprev.elim e.fields.nTime.toNat fun pprev =>
        max (m.node pprev).nTimeMax e.fields.nTime.toNat }

/-- Links an object to its parent if its data was received. -/
def computeChainTx : BlockManager :=
  let e := m.node pindex
  if e.nTx > 0 then
    match e.pprev with
    | none => m.modify pindex fun e => { e with nChainTx := e.nTx }
    | some pprev =>
      if (m.node pprev).nChainTx > 0 then
        m.modify pindex fun e =>
          { e with nChainTx := ((m.node pprev).nChainTx + e.nTx) % uintModulus }
      else
        { m.modify pindex fun e => { e with nChainTx := 0 } with
          blocksUnlinked := m.blocksUnlinked ++ [(pprev, pindex)] }
  else m

/-- Passes the failure of the parent on. -/
def inheritFailure : BlockManager :=
  let e := m.node pindex
  if !e.nStatus.failed && e.pprev.any fun pprev => (m.node pprev).nStatus.failed then
    m.modify pindex fun e => { e with nStatus := { e.nStatus with failedChild := true } }
  else m

/-- The body of the loop of `LoadBlockIndex`. -/
def loadEntry : BlockManager :=
  (((m.computeWork pindex).computeChainTx pindex).inheritFailure pindex).buildSkip pindex

/-- The loop of `LoadBlockIndex`, from the previous object on. -/
def loadEntries (m : BlockManager) (previous : Option Uint256) :
    List Uint256 → Except String BlockManager
  | [] => .ok m
  | pindex :: rest =>
    if previous.any fun previous => (m.node pindex).nHeight > (m.node previous).nHeight + 1 then
      .error "block index is non-contiguous"
    else loadEntries (m.loadEntry pindex) (some pindex) rest

/-- `LoadBlockIndex` without a snapshot, where `sort` is `std::sort` with
    `CBlockIndexHeightOnlyComparator`. -/
def loadBlockIndex (sort : (Uint256 → Nat) → List Uint256 → List Uint256)
    (records : List (List UInt8)) : Except String BlockManager := do
  let m ← loadBlockIndexGuts env {} records
  loadEntries m none (sort (fun pindex => (m.node pindex).nHeight) m.keys)

end BlockManager

/-- What is known about `std::sort`: the result is a rearrangement in which the
    heights do not fall. -/
def SortsByHeight (sort : (Uint256 → Nat) → List Uint256 → List Uint256) : Prop :=
  ∀ height keys, (sort height keys).Perm keys ∧
    (sort height keys).Pairwise fun a b => height a ≤ height b

end HobbyHash
