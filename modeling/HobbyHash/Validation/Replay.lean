import HobbyHash.TxDb
import HobbyHash.Validation.Reorg

/-! # Replaying blocks after a crash

`ReplayBlocks` finds the marker of an interrupted write, disconnects the old
branch down to the last common ancestor, applies the new branch without asking
whether its blocks have been applied before, and writes the result. Like the
writes of a disconnected block, those of `RollforwardBlock` do not depend on the
view.
-/

namespace HobbyHash.Validation

open Machine Consensus Library WriteLog CCoinsViewCache List

/-- What `ReplayBlocks` reads besides the coins database. -/
structure BlockManager where
  /-- `m_block_index`. -/
  index : Uint256 → Option CBlockIndex
  /-- `ReadBlockFromDisk`. -/
  readBlock : CBlockIndex → Option CBlock
  /-- `UndoReadFromDisk`. -/
  readUndo : CBlockIndex → Option (List (List Coin))

def spendAll (vin : List CTxIn) (inputs : CCoinsViewCache) : CCoinsViewCache :=
  vin.foldl (fun inputs txin => (inputs.spendCoin txin.prevout).2) inputs

/-- The loop of `RollforwardBlock`. -/
def rollforwardTx (env : Env) (nHeight : Nat) (inputs : CCoinsViewCache) (tx : CTransaction) :
    Except Fault CCoinsViewCache :=
  addCoins env (if tx.isCoinBase then inputs else spendAll tx.vin inputs) tx nHeight true

def rollforwardBlock (env : Env) (blockman : BlockManager) (pindex : CBlockIndex)
    (inputs : CCoinsViewCache) : Except (Failure Unit) CCoinsViewCache :=
  match blockman.readBlock pindex with
  | none => .error (.error "ReplayBlock(): ReadBlockFromDisk failed")
  | some block => lift (block.vtx.foldlM (rollforwardTx env pindex.nHeight) inputs)

/-- The first loop of `ReplayBlocks`, from the old tip. The genesis block is not
    disconnected, and nothing is under it. -/
def rollback (env : Env) (blockman : BlockManager) (pindexFork : CBlockIndex) :
    CBlockIndex → CCoinsViewCache → Except (Failure Unit) CCoinsViewCache
  | .genesis fields, cache =>
    if .genesis fields = pindexFork then .ok cache
    else .error (.fault (.exception "pindexOld->nHeight"))
  | .child pprev fields, cache =>
    if .child pprev fields = pindexFork then .ok cache
    else
      match blockman.readBlock (.child pprev fields) with
      | none => .error (.error "RollbackBlock(): ReadBlockFromDisk() failed")
      | some block => do
        match ← lift (disconnectBlock env block (.child pprev fields)
            (blockman.readUndo (.child pprev fields)) cache) with
        | (.failed, _) => .error (.error "RollbackBlock(): DisconnectBlock failed")
        | (_, cache) => rollback env blockman pindexFork pprev cache

/-- The body of the second loop of `ReplayBlocks`. -/
def rollforwardAt (env : Env) (blockman : BlockManager) (pindexNew : CBlockIndex)
    (cache : CCoinsViewCache) (nHeight : Nat) : Except (Failure Unit) CCoinsViewCache :=
  match pindexNew.getAncestor nHeight with
  | none => .error (.fault (.assertion "pindexNew->GetAncestor(nHeight)"))
  | some pindex => rollforwardBlock env blockman pindex cache

/-- The second loop of `ReplayBlocks`, from the height of the fork. -/
def rollforward (env : Env) (blockman : BlockManager) (pindexNew : CBlockIndex) (nForkHeight : Nat)
    (cache : CCoinsViewCache) : Except (Failure Unit) CCoinsViewCache :=
  (List.range' (nForkHeight + 1) (pindexNew.nHeight - nForkHeight)).foldlM
    (rollforwardAt env blockman pindexNew) cache

/-- Both loops of `ReplayBlocks`. A null old tip stands for the first write ever. -/
def replayTo (env : Env) (blockman : BlockManager) (pindexNew : CBlockIndex) (oldHead : Uint256)
    (cache : CCoinsViewCache) : Except (Failure Unit) CCoinsViewCache :=
  if oldHead = 0 then rollforward env blockman pindexNew 0 cache
  else
    match blockman.index oldHead with
    | none => .error (.error "ReplayBlocks(): reorganization from unknown block requested")
    | some pindexOld =>
      match CBlockIndex.lastCommonAncestor pindexOld pindexNew with
      | none => .error (.fault (.assertion "pindexFork != nullptr"))
      | some pindexFork => do
        let cache ← rollback env blockman pindexFork pindexOld cache
        rollforward env blockman pindexNew pindexFork.nHeight cache

/-- `ReplayBlocks` between two tips, up to the write: the cache to be flushed. -/
def replayBetween (env : Env) (blockman : BlockManager) (newHead oldHead : Uint256)
    (cache : CCoinsViewCache) : Except (Failure Unit) CCoinsViewCache :=
  match blockman.index newHead with
  | none => .error (.error "ReplayBlocks(): reorganization to unknown block requested")
  | some pindexNew => do
    let cache ← replayTo env blockman pindexNew oldHead cache
    return cache.setBestBlock (pindexNew.getBlockHash env.hash)

/-- `ReplayBlocks`: the batches that its `Flush` writes to the database. -/
def replayBlocks (full : List DbOp → Bool) (env : Env) (blockman : BlockManager)
    (db : CCoinsViewDB) : Except (Failure Unit) (List (List DbOp)) :=
  match db.headBlocks with
  | [] => .ok []
  | [newHead, oldHead] => do
    let cache ← replayBetween env blockman newHead oldHead (.onto db.toBase)
    lift (db.batchWrite full cache.top.cacheCoins cache.top.hashBlock)
  | _ => .error (.error "ReplayBlocks(): unknown inconsistent state")

variable {env : Env} {nHeight : Nat} {tx : CTransaction} {v : CCoinsViewCache}

theorem spendAll_spec (valid : v.Valid True) (vin : List CTxIn) :
    Shows True v (replay (spendLog vin) v.view) (spendAll vin v) := by
  induction vin generalizing v with
  | nil => exact .refl valid
  | cons txin rest ih =>
    obtain ⟨-, spends⟩ := spendCoin_spec trivial valid txin.prevout
    have shows := ih spends.valid
    rw [spends.view] at shows
    exact spends.trans shows

theorem addOutput_total (valid : v.Valid True)
    (unspent : Coin.isSpent ⟨output.2, fCoinbase, nHeight⟩ = false) :
    ∃ v', addOutput true fCoinbase nHeight v output = .ok v' ∧
      Shows True v (replay (addLog fCoinbase nHeight [output]) v.view) v' := by
  obtain ⟨found, reads⟩ := haveCoin_spec valid output.1
  simp only [addOutput, if_true]
  cases answer : v.haveCoin output.1 with
  | mk overwrite next =>
    rw [answer] at found reads
    have legal : overwrite = false → next.view output.1 = none := by
      intro absent
      rw [reads.view]
      exact Option.isNone_iff_eq_none.mp (by simpa [absent] using found.symm)
    obtain ⟨v', added, shows⟩ := addCoin_spec reads.valid unspent legal
    rw [reads.view] at shows
    refine ⟨v', added, ?_⟩
    rw [replay_addLog_one]
    exact reads.toShows.trans shows

theorem addOutputs_total (valid : v.Valid True) {fCoinbase outs}
    (unspent : ∀ output ∈ outs, Coin.isSpent ⟨output.2, fCoinbase, nHeight⟩ = false) :
    ∃ v', outs.foldlM (addOutput true fCoinbase nHeight) v = .ok v' ∧
      Shows True v (replay (addLog fCoinbase nHeight outs) v.view) v' := by
  induction outs generalizing v with
  | nil => exact ⟨v, rfl, .refl valid⟩
  | cons output rest ih =>
    obtain ⟨here, later⟩ := forall_mem_cons.mp unspent
    obtain ⟨next, added, shows⟩ := addOutput_total valid here
    obtain ⟨v', addedRest, showsRest⟩ := ih shows.valid later
    rw [shows.view] at showsRest
    refine ⟨v', ?_, ?_⟩
    · rw [foldlM_cons, added]
      exact addedRest
    · rw [addLog_cons, replay_append]
      exact shows.trans showsRest

theorem rollforwardTx_spec (env : Env) (nHeight : Nat) (valid : v.Valid True)
    (values : ∀ out ∈ tx.vout, moneyRange out.nValue) :
    ∃ v', rollforwardTx env nHeight v tx = .ok v' ∧
      Shows True v (replay (txLog env nHeight tx) v.view) v' := by
  have spends : Shows True v (replay (spendLog (spentInputs tx)) v.view)
      (if tx.isCoinBase then v else spendAll tx.vin v) := by
    rw [spentInputs]
    split
    · exact .refl valid
    · exact spendAll_spec valid tx.vin
  obtain ⟨v', added, shows⟩ := @addOutputs_total nHeight _ spends.valid tx.isCoinBase
    (outputs env tx) fun output mem => not_isSpent_of_range
      (values output.2 (mem_vout_of_mem_outputs mem))
  rw [spends.view] at shows
  refine ⟨v', added, ?_⟩
  rw [txLog, replay_append]
  exact spends.trans shows

theorem rollforwardTxs_spec (env : Env) (nHeight : Nat) (valid : v.Valid True)
    (values : ∀ tx ∈ vtx, ∀ out ∈ tx.vout, moneyRange out.nValue) :
    ∃ v', vtx.foldlM (rollforwardTx env nHeight) v = .ok v' ∧
      Shows True v (replay (blockLog env nHeight vtx) v.view) v' := by
  induction vtx generalizing v with
  | nil => exact ⟨v, rfl, .refl valid⟩
  | cons tx rest ih =>
    obtain ⟨here, later⟩ := forall_mem_cons.mp values
    obtain ⟨next, rolled, shows⟩ := rollforwardTx_spec env nHeight valid here
    obtain ⟨v', rolledRest, showsRest⟩ := ih shows.valid later
    rw [shows.view] at showsRest
    refine ⟨v', ?_, ?_⟩
    · rw [foldlM_cons, rolled]
      exact rolledRest
    · rw [replay_blockLog_cons]
      exact shows.trans showsRest

end HobbyHash.Validation
