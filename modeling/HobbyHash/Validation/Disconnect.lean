import HobbyHash.Validation.Block

/-! # Disconnecting a block

`DisconnectBlock` takes the coins of a block out again and puts back those it
spent, from the undo data that `ConnectBlock` has written. It works on whatever
view it is given: an output that is missing or does not match and an input that is
there already make the result unclean, but do not stop it.
-/

namespace HobbyHash.Validation

open Machine

inductive DisconnectResult where
  | ok
  | unclean
  | failed
  deriving DecidableEq, Repr

def DisconnectResult.ofClean (fClean : Bool) : DisconnectResult :=
  if fClean then .ok else .unclean

/-- `MAX_OUTPUTS_PER_BLOCK`. An empty output takes 9 bytes. -/
def maxOutputsPerBlock : Nat := maxBlockWeight / (witnessScaleFactor * 9)

/-- The loop of `AccessByTxid`, with the indexes that are left. -/
def accessByTxidFrom (txid : Uint256) : List Nat → CCoinsViewCache → Coin × CCoinsViewCache
  | [], view => (.empty, view)
  | n :: rest, view =>
    match view.accessCoin ⟨txid, n⟩ with
    | (alternate, view) =>
      if !alternate.isSpent then (alternate, view) else accessByTxidFrom txid rest view

def accessByTxid (view : CCoinsViewCache) (txid : Uint256) : Coin × CCoinsViewCache :=
  accessByTxidFrom txid (List.range maxOutputsPerBlock) view

/-- The metadata of a coin to be restored; old undo records may lack it. -/
def undoMetadata (undo : Coin) (view : CCoinsViewCache) (out : COutPoint) :
    Option Coin × CCoinsViewCache :=
  if undo.nHeight = 0 then
    match accessByTxid view out.hash with
    | (alternate, view) =>
      if !alternate.isSpent then
        (some { undo with nHeight := alternate.nHeight, fCoinBase := alternate.fCoinBase }, view)
      else (none, view)
  else (some undo, view)

def applyTxInUndo (undo : Coin) (view : CCoinsViewCache) (out : COutPoint) :
    Except Fault (DisconnectResult × CCoinsViewCache) :=
  match view.haveCoin out with
  | (overwrites, view) =>
    match undoMetadata undo view out with
    | (none, view) => .ok (.failed, view)
    | (some undo, view) => do
      return (.ofClean (!overwrites), ← view.addCoin out undo overwrites)

/-- The loop of `DisconnectBlock` over the outputs of a transaction: whether it
    was clean so far, and the view. -/
def takeOutput (nHeight : Nat) (is_coinbase is_bip30_exception : Bool)
    (st : Bool × CCoinsViewCache) (output : COutPoint × CTxOut) : Bool × CCoinsViewCache :=
  if isUnspendable output.2.scriptPubKey then st
  else
    match st.2.spendCoin output.1 with
    | (coin, view) =>
      let is_match := coin.any fun coin =>
        output.2 == coin.out && nHeight == coin.nHeight && is_coinbase == coin.fCoinBase
      (st.1 && (is_match || is_bip30_exception), view)

/-- The loop of `DisconnectBlock` over the inputs of a transaction, the last one
    first, with the coins to be restored. -/
def restoreInputs : List (CTxIn × Coin) → Bool → CCoinsViewCache →
    Except Fault (DisconnectResult × CCoinsViewCache)
  | [], fClean, view => .ok (.ofClean fClean, view)
  | (txin, undo) :: rest, fClean, view => do
    match ← applyTxInUndo undo view txin.prevout with
    | (.failed, view) => return (.failed, view)
    | (res, view) => restoreInputs rest (fClean && res != .unclean) view

/-- One round of `DisconnectBlock`. The first transaction has no undo data. -/
def disconnectTx (env : Env) (nHeight : Nat) (fEnforceBIP30 : Bool) (tx : CTransaction)
    (txundo : Option (List Coin)) (fClean : Bool) (view : CCoinsViewCache) :
    Except Fault (DisconnectResult × CCoinsViewCache) :=
  match (outputs env tx).foldl
      (takeOutput nHeight tx.isCoinBase (tx.isCoinBase && !fEnforceBIP30)) (fClean, view) with
  | (fClean, view) =>
    match txundo with
    | none => .ok (.ofClean fClean, view)
    | some vprevout =>
      if vprevout.length ≠ tx.vin.length then .ok (.failed, view)
      else restoreInputs (tx.vin.zip vprevout).reverse fClean view

/-- The loop of `DisconnectBlock` over the transactions, the last one first. -/
def disconnectTxs (env : Env) (nHeight : Nat) (fEnforceBIP30 : Bool) :
    List (CTransaction × Option (List Coin)) → Bool → CCoinsViewCache →
    Except Fault (DisconnectResult × CCoinsViewCache)
  | [], fClean, view => .ok (.ofClean fClean, view)
  | (tx, txundo) :: rest, fClean, view => do
    match ← disconnectTx env nHeight fEnforceBIP30 tx txundo fClean view with
    | (.failed, view) => return (.failed, view)
    | (res, view) => disconnectTxs env nHeight fEnforceBIP30 rest (res != .unclean) view

/-- Whether `DisconnectBlock` expects the coinbase of a block to be unspent. -/
def disconnectEnforcesBIP30 (env : Env) (pindex : CBlockIndex) : Bool :=
  !((pindex.nHeight == 91722 && pindex.getBlockHash env.hash ==
      0x00000000000271a2dc26e7667f8419f2e15416dc6955e5a6c6cdf3f2574dd08e) ||
    (pindex.nHeight == 91812 && pindex.getBlockHash env.hash ==
      0x00000000000af0aed4792b1acee3d966af36cf5def14935db8de83d6f9306f2f))

/-- The transactions of a block with their undo data, in the order in which
    `DisconnectBlock` visits them. -/
def undoOrder (vtx : List CTransaction) (vtxundo : List (List Coin)) :
    List (CTransaction × Option (List Coin)) :=
  (vtx.zip (none :: vtxundo.map some)).reverse

/-- `DisconnectBlock`, with what was read from the undo file. -/
def disconnectBlock (env : Env) (block : CBlock) (pindex : CBlockIndex)
    (blockUndo : Option (List (List Coin))) (view : CCoinsViewCache) :
    Except Fault (DisconnectResult × CCoinsViewCache) :=
  match blockUndo with
  | none => .ok (.failed, view)
  | some vtxundo =>
    if vtxundo.length + 1 ≠ block.vtx.length then .ok (.failed, view)
    else do
      match ← disconnectTxs env pindex.nHeight (disconnectEnforcesBIP30 env pindex)
          (undoOrder block.vtx vtxundo) true view with
      | (.failed, view) => return (.failed, view)
      | (res, view) =>
        match pindex.pprev with
        | none => .error (.exception "pindex->pprev")
        | some pprev => return (res, view.setBestBlock (pprev.getBlockHash env.hash))

end HobbyHash.Validation
