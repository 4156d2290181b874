import HobbyHash.Chain
import HobbyHash.Consensus.Issuance
import Mathlib.Algebra.Order.BigOperators.Group.List

/-! # Transactions and blocks

The data of `primitives/transaction.h` and `primitives/block.h`. A transaction's
hash is not part of it: `Txid` values come from a function that the modelled code
is parametrized by, so nothing here depends on SHA-256. Output indexes are
natural numbers; the size limit of `CheckTransaction` keeps them far below the
`uint32_t` of the source.
-/

namespace HobbyHash

open Consensus Machine

abbrev CScript := List UInt8

def opReturn : UInt8 := 0x6a

def maxScriptSize : Nat := 10000

def isUnspendable (script : CScript) : Bool :=
  (script.head? == some opReturn) || decide (script.length > maxScriptSize)

structure COutPoint where
  hash : Uint256
  n : Nat
  deriving DecidableEq, Repr

namespace COutPoint

def nullIndex : Nat := 0xffffffff

def isNull (o : COutPoint) : Bool :=
  o.hash == 0 && o.n == nullIndex

end COutPoint

structure CTxIn where
  prevout : COutPoint
  scriptSig : CScript
  nSequence : UInt32
  scriptWitness : List CScript
  deriving DecidableEq, Repr

structure CTxOut where
  nValue : Int
  scriptPubKey : CScript
  deriving DecidableEq, Repr

namespace CTxOut

def null : CTxOut := ⟨-1, []⟩

def isNull (out : CTxOut) : Bool :=
  out.nValue == -1

end CTxOut

structure CTransaction where
  vin : List CTxIn
  vout : List CTxOut
  nVersion : Int32
  nLockTime : UInt32
  deriving DecidableEq, Repr

/-- `CBlock`, without the flags in which earlier checks are remembered. -/
structure CBlock extends CBlockHeader where
  vtx : List CTransaction
  deriving DecidableEq, Repr

def getSizeOfCompactSize (size : Nat) : Nat :=
  if size < 253 then 1 else if size ≤ 0xffff then 3 else if size ≤ 0xffffffff then 5 else 9

/-- Serialized bytes of a vector whose elements take the given bytes. -/
def vectorSize (elements : List Nat) : Nat :=
  getSizeOfCompactSize elements.length + elements.sum

def scriptSize (script : CScript) : Nat :=
  getSizeOfCompactSize script.length + script.length

variable (tx : CTransaction)

/-- `GetSerializeSize(TX_NO_WITNESS(tx))`. -/
def CTransaction.strippedSize : Nat :=
  4 + vectorSize (tx.vin.map (fun txin => 36 + scriptSize txin.scriptSig + 4)) +
    vectorSize (tx.vout.map (fun txout => 8 + scriptSize txout.scriptPubKey)) + 4

/-- `GetSerializeSize(TX_NO_WITNESS(block))`. -/
def CBlock.strippedSize (block : CBlock) : Nat :=
  80 + vectorSize (block.vtx.map CTransaction.strippedSize)

theorem mul_length_le_vectorSize (atLeast : ∀ e ∈ elems, least ≤ e) :
    least * elems.length ≤ vectorSize elems := by
  have le : elems.length * least ≤ elems.sum :=
    List.card_nsmul_le_sum elems least atLeast
  rw [Nat.mul_comm]
  exact le.trans (Nat.le_add_left _ _)

theorem vin_length_le : 40 * tx.vin.length ≤ tx.strippedSize := by
  have each : ∀ e ∈ tx.vin.map (fun txin => 36 + scriptSize txin.scriptSig + 4), 40 ≤ e := by
    intro e mem
    obtain ⟨txin, -, rfl⟩ := List.mem_map.mp mem
    omega
  have inputs := mul_length_le_vectorSize each
  rw [List.length_map] at inputs
  simp only [CTransaction.strippedSize]
  omega

namespace CTransaction

def isCoinBase : Bool :=
  match tx.vin with
  | [txin] => txin.prevout.isNull
  | _ => false

def addValueOut (nValueOut : Int) (out : CTxOut) : Except Fault Int := do
  if ¬ moneyRange out.nValue then
    throw (.exception "GetValueOut: value out of range")
  let sum ← int64 (nValueOut + out.nValue)
  if ¬ moneyRange sum then
    throw (.exception "GetValueOut: value out of range")
  return sum

def getValueOut : Except Fault Int := do
  let nValueOut ← tx.vout.foldlM addValueOut 0
  assert (decide (moneyRange nValueOut)) "MoneyRange(nValueOut)"
  return nValueOut

end CTransaction

end HobbyHash
