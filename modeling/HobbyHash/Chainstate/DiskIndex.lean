import HobbyHash.Chainstate.Index
import HobbyHash.Serialize

/-! # Entries of the block index on disk

`CDiskBlockIndex`: a record holds the members of an entry that are not computed
from others, with the hash of the parent in the place of the pointer. The file
number and the two positions are written only if the status says that there is
data; an entry whose other positions are zero can be read back from its record.
-/

namespace HobbyHash

open Library Serialize

namespace BlockStatus

def toUint32 (status : BlockStatus) : Nat :=
  status.validity.level + 8 * status.haveData.toNat + 16 * status.haveUndo.toNat +
    32 * status.failedValid.toNat + 64 * status.failedChild.toNat + 128 * status.optWitness.toNat

/-- The level of a number; the last two codes are never written. -/
def validityOf : Nat → BlockValidity
  | 1 => .reserved
  | 2 => .tree
  | 3 => .transactions
  | 4 => .chain
  | 5 => .scripts
  | _ => .unknown

def ofUint32 (n : Nat) : BlockStatus where
  validity := validityOf (n % 8)
  haveData := n.testBit 3
  haveUndo := n.testBit 4
  failedValid := n.testBit 5
  failedChild := n.testBit 6
  optWitness := n.testBit 7

theorem ofUint32_toUint32 (status : BlockStatus) : ofUint32 status.toUint32 = status := by
  obtain ⟨validity, haveData, haveUndo, failedValid, failedChild, optWitness⟩ := status
  cases validity <;> cases haveData <;> cases haveUndo <;> cases failedValid <;>
    cases failedChild <;> cases optWitness <;> rfl

theorem toUint32_lt (status : BlockStatus) : status.toUint32 < 256 := by
  have bit : ∀ b : Bool, b.toNat ≤ 1 := Bool.toNat_le
  have level : status.validity.level ≤ 5 := by cases status.validity <;> decide
  have := bit status.haveData
  have := bit status.haveUndo
  have := bit status.failedValid
  have := bit status.failedChild
  have := bit status.optWitness
  rw [toUint32]
  omega

end BlockStatus

structure CDiskBlockIndex extends HeaderFields where
  nHeight : Nat
  nStatus : BlockStatus
  nTx : Nat
  nFile : Nat
  nDataPos : Nat
  nUndoPos : Nat
  hashPrev : Uint256
  deriving DecidableEq, Repr

namespace CDiskBlockIndex

def dummyVersion : Nat := 259900

def serialize (obj : CDiskBlockIndex) : List UInt8 :=
  writeVarInt dummyVersion ++
  (writeVarInt obj.nHeight ++
  (writeVarInt obj.nStatus.toUint32 ++
  (writeVarInt obj.nTx ++
  ((if obj.nStatus.haveData || obj.nStatus.haveUndo then writeVarInt obj.nFile else []) ++
  ((if obj.nStatus.haveData then writeVarInt obj.nDataPos else []) ++
  ((if obj.nStatus.haveUndo then writeVarInt obj.nUndoPos else []) ++
  (writeInt32 obj.nVersion ++
  (writeUint256 obj.hashPrev ++
  (writeUint256 obj.hashMerkleRoot ++
  (writeUint32 obj.nTime ++
  (writeUint32 obj.nBits ++ writeUint32 obj.nNonce)))))))))))

/-- The record at the front of some bytes. Members that are not in the record keep
    their initial value. -/
def unserialize : Reader CDiskBlockIndex := do
  let _ ← readVarInt intMax
  let nHeight ← readVarInt intMax
  let nStatus ← BlockStatus.ofUint32 <$> readVarInt uintMax
  let nTx ← readVarInt uintMax
  let nFile ← (if nStatus.haveData || nStatus.haveUndo then readVarInt intMax else pure 0)
  let nDataPos ← (if nStatus.haveData then readVarInt uintMax else pure 0)
  let nUndoPos ← (if nStatus.haveUndo then readVarInt uintMax else pure 0)
  let nVersion ← readInt32
  let hashPrev ← readUint256
  let hashMerkleRoot ← readUint256
  let nTime ← readUint32
  let nBits ← readUint32
  (fun nNonce =>
    { nVersion, hashMerkleRoot, nTime, nBits, nNonce, nHeight, nStatus, nTx, nFile, nDataPos,
      nUndoPos, hashPrev }) <$> readUint32

def constructBlockHash (hash : CBlockHeader → Uint256) (obj : CDiskBlockIndex) : Uint256 :=
  hash { obj.toHeaderFields with hashPrevBlock := obj.hashPrev }

/-- The numbers fit into their types, and positions without data are zero. -/
structure Fits (obj : CDiskBlockIndex) : Prop where
  nHeight : obj.nHeight ≤ intMax
  nTx : obj.nTx ≤ uintMax
  nFile : obj.nFile ≤ intMax
  nDataPos : obj.nDataPos ≤ uintMax
  nUndoPos : obj.nUndoPos ≤ uintMax
  noFile : (obj.nStatus.haveData || obj.nStatus.haveUndo) = false → obj.nFile = 0
  noData : obj.nStatus.haveData = false → obj.nDataPos = 0
  noUndo : obj.nStatus.haveUndo = false → obj.nUndoPos = 0

theorem reads_serialize (fits : obj.Fits) :
    Reads unserialize obj.serialize obj := by
  have status : Reads (BlockStatus.ofUint32 <$> readVarInt uintMax)
      (writeVarInt obj.nStatus.toUint32) obj.nStatus := by
    have small := obj.nStatus.toUint32_lt
    have read := (@reads_varInt uintMax obj.nStatus.toUint32 (by unfold uintMax; omega)).map
      BlockStatus.ofUint32
    rwa [BlockStatus.ofUint32_toUint32] at read
  apply Reads.bind (reads_varInt (by decide))
  apply Reads.bind (reads_varInt fits.nHeight)
  apply Reads.bind status
  apply Reads.bind (reads_varInt fits.nTx)
  apply Reads.bind (.ite (fun _ => reads_varInt fits.nFile) fun absent => (fits.noFile absent).symm)
  apply Reads.bind (.ite (fun _ => reads_varInt fits.nDataPos) fun absent => (fits.noData absent).symm)
  apply Reads.bind (.ite (fun _ => reads_varInt fits.nUndoPos) fun absent => (fits.noUndo absent).symm)
  apply Reads.bind (reads_int32 _)
  apply Reads.bind (reads_uint256 _)
  apply Reads.bind (reads_uint256 _)
  apply Reads.bind (reads_uint32 _)
  apply Reads.bind (reads_uint32 _)
  exact (reads_uint32 obj.nNonce).map _

end CDiskBlockIndex

end HobbyHash
