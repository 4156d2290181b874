import HobbyHash.Validation.Replay

/-! # Recovery from an interrupted write

The UTXO set of a block is what connecting its branch leaves. As long as no block
overwrites a coin, the writes of the old branch taken back and those of the new
branch lead from the old set to the new one, and by the rule for mixed maps they
also lead there from anything that an interrupted write may have left, the write
at the end of the replay included.
-/

namespace HobbyHash.Validation

open Machine Consensus Library WriteLog CCoinsViewCache CBlockIndex List

/-- The UTXO set of a block: its branch was connected to the set of the genesis
    block, in which there are no coins. `guard` is what is known of every block
    and the set that it was connected to. -/
inductive UtxoSet (env : Env) (blockman : BlockManager)
    (guard : CBlockIndex → CBlock → CoinsView → Prop) : CBlockIndex → CoinsView → Prop where
  | genesis (fields : HeaderFields) : UtxoSet env blockman guard (.genesis fields) fun _ => none
  | connect {pprev : CBlockIndex} {fields : HeaderFields} {block : CBlock}
      {vtxundo : List (List Coin)} {v v' : CCoinsViewCache}
      (before : UtxoSet env blockman guard pprev v.view) (view : UtxoView v)
      (read : blockman.readBlock (.child pprev fields) = some block)
      (undo : blockman.readUndo (.child pprev fields) = some vtxundo)
      (notGenesis : env.hash block.toCBlockHeader ≠ env.params.hashGenesisBlock)
      (guarded : guard (.child pprev fields) block v.view)
      (connected : connectBlock env block (.child pprev fields) v false = .ok (v', vtxundo)) :
      UtxoSet env blockman guard (.child pprev fields) v'.view

/-- Blocks are connected to the tip and disconnected from it, in any order. -/
inductive Moves (env : Env) (blockman : BlockManager) : CBlockIndex → CCoinsViewCache → Prop where
  | genesis {v : CCoinsViewCache} (fields : HeaderFields) (valid : v.Valid True)
      (empty : v.view = fun _ => none) : Moves env blockman (.genesis fields) v
  | connect {pprev : CBlockIndex} {fields : HeaderFields} (before : Moves env blockman pprev v)
      (read : blockman.readBlock (.child pprev fields) = some block)
      (undo : blockman.readUndo (.child pprev fields) = some vtxundo)
      (ne : env.hash block.toCBlockHeader ≠ env.params.hashGenesisBlock)
      (guarded : Guarded env (.child pprev fields) block v.view)
      (connected : connectBlock env block (.child pprev fields) v false = .ok (v', vtxundo)) :
      Moves env blockman (.child pprev fields) v'
  | disconnect {pprev : CBlockIndex} {fields : HeaderFields}
      (before : Moves env blockman (.child pprev fields) v)
      (read : blockman.readBlock (.child pprev fields) = some block)
      (undone : disconnectBlock env block (.child pprev fields)
        (blockman.readUndo (.child pprev fields)) v = .ok (result, v')) :
      Moves env blockman pprev v'

/-- The writes of the blocks above a fork, from the lowest up. -/
def forwardLog (env : Env) (blockman : BlockManager) (fork : CBlockIndex) : CBlockIndex → CoinLog
  | .genesis _ => []
  | .child pprev fields =>
    if .child pprev fields = fork then []
    else forwardLog env blockman fork pprev ++ blockLog env (pprev.nHeight + 1)
      ((blockman.readBlock (.child pprev fields)).elim [] (·.vtx))

/-- The writes that take the blocks above a fork back, from the tip down. -/
def backwardLog (env : Env) (blockman : BlockManager) (fork : CBlockIndex) : CBlockIndex → CoinLog
  | .genesis _ => []
  | .child pprev fields =>
    if .child pprev fields = fork then []
    else undoLog env (undoOrder ((blockman.readBlock (.child pprev fields)).elim [] (·.vtx))
        ((blockman.readUndo (.child pprev fields)).getD [])) ++
      backwardLog env blockman fork pprev

variable {env : Env} {blockman : BlockManager} {fork tip pprev : CBlockIndex}
  {fields : HeaderFields} {u : CoinsView} {v : CCoinsViewCache}

theorem child_ne (lt : Ancestor fork pprev) : CBlockIndex.child pprev fields ≠ fork := by
  rintro rfl
  have le := lt.nHeight_le
  simp only [nHeight_child] at le
  omega

theorem logs_self (fork : CBlockIndex) :
    forwardLog env blockman fork fork = [] ∧ backwardLog env blockman fork fork = [] := by
  cases fork with
  | genesis fields => exact ⟨rfl, rfl⟩
  | child pprev fields => exact ⟨if_pos rfl, if_pos rfl⟩

theorem rollback_self (fork : CBlockIndex) (v : CCoinsViewCache) :
    rollback env blockman fork fork v = .ok v := by
  cases fork with
  | genesis fields => exact if_pos rfl
  | child pprev fields => exact if_pos rfl

/-- What is known of the branch between a fork and a tip. -/
structure Branch (env : Env) (blockman : BlockManager) (fork tip : CBlockIndex)
    (uFork uTip : CoinsView) : Prop where
  forward : replay (forwardLog env blockman fork tip) uFork = uTip
  backward : replay (backwardLog env blockman fork tip) uTip = uFork
  rollback : ∀ v : CCoinsViewCache, v.Valid True →
    ∃ v', rollback env blockman fork tip v = .ok v' ∧
      Shows True v (replay (backwardLog env blockman fork tip) v.view) v'
  rollforward : ∀ new, Ancestor tip new → ∀ v : CCoinsViewCache, v.Valid True →
    ∃ v', (List.range' (fork.nHeight + 1) (tip.nHeight - fork.nHeight)).foldlM
        (rollforwardAt env blockman new) v = .ok v' ∧
      Shows True v (replay (forwardLog env blockman fork tip) v.view) v'

theorem Branch.refl (fork : CBlockIndex) (u : CoinsView) : Branch env blockman fork fork u u := by
  obtain ⟨forward, backward⟩ := @logs_self env blockman fork
  refine ⟨by rw [forward]; rfl, by rw [backward]; rfl, fun v valid => ?_, fun new _ v valid => ?_⟩
  · rw [backward]
    exact ⟨v, rollback_self fork v, .refl valid⟩
  · rw [forward, Nat.sub_self]
    exact ⟨v, rfl, .refl valid⟩

theorem Branch.connect {uFork v v' block vtxundo}
    (branch : Branch env blockman fork pprev uFork v.view) (lt : Ancestor fork pprev)
    (read : blockman.readBlock (.child pprev fields) = some block)
    (undo : blockman.readUndo (.child pprev fields) = some vtxundo)
    (applied : Applied env block (.child pprev fields) vtxundo v v') :
    Branch env blockman fork (.child pprev fields) uFork v'.view := by
  have ne : CBlockIndex.child pprev fields ≠ fork := child_ne lt
  have forwardStep : forwardLog env blockman fork (.child pprev fields) =
      forwardLog env blockman fork pprev ++ blockLog env (pprev.nHeight + 1) block.vtx := by
    rw [forwardLog, if_neg ne, read]
    rfl
  have backwardStep : backwardLog env blockman fork (.child pprev fields) =
      undoLog env (undoOrder block.vtx vtxundo) ++ backwardLog env blockman fork pprev := by
    rw [backwardLog, if_neg ne, read, undo]
    rfl
  refine ⟨?_, ?_, fun w valid => ?_, fun new above w valid => ?_⟩
  · rw [forwardStep, replay_append, branch.forward]
    exact applied.shows.view.symm
  · rw [backwardStep, replay_append, applied.undone.1]
    exact branch.backward
  · have parent : (CBlockIndex.child pprev fields).pprev = some pprev := rfl
    obtain ⟨stays, next, disconnected, shows, -, -⟩ :=
      disconnectBlock_spec env valid parent applied.size applied.undoable
    obtain ⟨w', rolled, showsRest⟩ := branch.rollback next shows.valid
    rw [shows.view] at showsRest
    refine ⟨w', ?_, ?_⟩
    · simp only [Validation.rollback, ne, if_false, read, undo, disconnected]
      cases stays with
      | true => exact rolled
      | false => exact rolled
    · rw [backwardStep, replay_append]
      exact shows.trans showsRest
  · obtain ⟨next, rolled, shows⟩ :=
      branch.rollforward new ((Ancestor.step .refl).trans above) w valid
    obtain ⟨w', rolledHere, showsHere⟩ :=
      rollforwardTxs_spec env (pprev.nHeight + 1) shows.valid applied.values
    rw [shows.view] at showsHere
    have le := lt.nHeight_le
    have heights :
        range' (fork.nHeight + 1) ((CBlockIndex.child pprev fields).nHeight - fork.nHeight) =
        range' (fork.nHeight + 1) (pprev.nHeight - fork.nHeight) ++ [pprev.nHeight + 1] := by
      rw [nHeight_child,
        show pprev.nHeight + 1 - fork.nHeight = pprev.nHeight - fork.nHeight + 1 by omega,
        range'_concat]
      congr 2
      omega
    have here : rollforwardAt env blockman new next (pprev.nHeight + 1) = .ok w' := by
      have found := getAncestor_of_ancestor above
      rw [nHeight_child] at found
      rw [rollforwardAt, found]
      simp only [rollforwardBlock, read, nHeight_child, rolledHere]
      rfl
    refine ⟨w', ?_, ?_⟩
    · rw [heights, foldlM_append, rolled]
      simp only [ok_bind, foldlM_cons, foldlM_nil, here]
      rfl
    · rw [forwardStep, replay_append]
      exact shows.trans showsHere

section

variable (set : UtxoSet env blockman (Guarded env) tip u)
include set

theorem UtxoSet.branch (lt : Ancestor fork tip) :
    ∃ uFork, UtxoSet env blockman (Guarded env) fork uFork ∧
      Branch env blockman fork tip uFork u := by
  induction lt generalizing u with
  | refl => exact ⟨u, set, .refl fork u⟩
  | step lt ih =>
    cases set with
    | connect before view read undo notGenesis guarded conn =>
      obtain ⟨uFork, forkSet, branch⟩ := ih before
      exact ⟨uFork, forkSet, branch.connect lt read undo
        (connectBlock_applied view notGenesis guarded conn)⟩

theorem UtxoSet.root :
    ∃ root, Ancestor root tip ∧ root.nHeight = 0 ∧
      Branch env blockman root tip (fun _ => none) u := by
  obtain ⟨root, -, onBranch, height⟩ :=
    getAncestor_isSome (le_refl 0) (b := tip) (Int.natCast_nonneg _)
  obtain ⟨uRoot, rootSet, branch⟩ := set.branch onBranch
  cases rootSet with
  | genesis fields => exact ⟨_, onBranch, rfl, branch⟩
  | connect => exact absurd height (by simp only [nHeight_child]; omega)

theorem UtxoSet.unique (set' : UtxoSet env blockman (Guarded env) tip u') :
    u = u' := by
  obtain ⟨root, onBranch, height, branch⟩ := set.root
  obtain ⟨root', onBranch', height', branch'⟩ := set'.root
  obtain rfl := onBranch.unique onBranch' (height.trans height'.symm)
  exact branch.forward.symm.trans branch'.forward

end

/-- The tip and the UTXO set that a write moves away from: none before the first
    write, and otherwise those of a block in the tree of the new tip. -/
inductive OldTip (env : Env) (blockman : BlockManager)
    (guard : CBlockIndex → CBlock → CoinsView → Prop)
    (pindexNew : CBlockIndex) : Uint256 → CoinsView → Prop where
  | first : OldTip env blockman guard pindexNew 0 fun _ => none
  | block {pindexOld g : CBlockIndex} {u : CoinsView} (set : UtxoSet env blockman guard pindexOld u)
      (known : blockman.index (pindexOld.getBlockHash env.hash) = some pindexOld)
      (nonnull : pindexOld.getBlockHash env.hash ≠ 0) (below : Ancestor g pindexOld)
      (belowNew : Ancestor g pindexNew) :
      OldTip env blockman guard pindexNew (pindexOld.getBlockHash env.hash) u

variable {pindexNew : CBlockIndex} {oldHash : Uint256} {uOld uNew : CoinsView}

theorem replayTo_spec (newSet : UtxoSet env blockman (Guarded env) pindexNew uNew)
    (old : OldTip env blockman (Guarded env) pindexNew oldHash uOld) :
    ∃ log, replay log uOld = uNew ∧ ∀ v : CCoinsViewCache, v.Valid True →
      ∃ v', replayTo env blockman pindexNew oldHash v = .ok v' ∧
        Shows True v (replay log v.view) v' := by
  cases old with
  | first =>
    obtain ⟨root, onBranch, height, branch⟩ := newSet.root
    refine ⟨_, branch.forward, fun v valid => ?_⟩
    obtain ⟨v', rolled, shows⟩ := branch.rollforward pindexNew .refl v valid
    rw [height] at rolled
    exact ⟨v', (if_pos rfl).trans rolled, shows⟩
  | @block pindexOld g u set known nonnull lt belowNew =>
    obtain ⟨pindexFork, found⟩ := lastCommonAncestor_isSome lt belowNew
    obtain ⟨onOld, onNew⟩ := (lastCommonAncestor_iff found _).mp .refl
    obtain ⟨uFork, forkSet, oldBranch⟩ := set.branch onOld
    obtain ⟨uFork', forkSet', newBranch⟩ := newSet.branch onNew
    obtain rfl := forkSet.unique forkSet'
    refine ⟨backwardLog env blockman pindexFork pindexOld ++
      forwardLog env blockman pindexFork pindexNew, ?_, fun v valid => ?_⟩
    · rw [replay_append, oldBranch.backward]
      exact newBranch.forward
    obtain ⟨next, back, shows⟩ := oldBranch.rollback v valid
    obtain ⟨v', forth, showsRest⟩ := newBranch.rollforward pindexNew .refl next shows.valid
    rw [shows.view] at showsRest
    refine ⟨v', ?_, ?_⟩
    · rw [replayTo, if_neg nonnull, known]
      simp only [found, back, ok_bind]
      exact forth
    · rw [replay_append]
      exact shows.trans showsRest

open CCoinsViewDB

variable {newHash : Uint256} {db : CCoinsViewDB}

/-- What crashes leave of a write from one tip to another: some of its batches,
    or any other mixture behind the marker, or what was left of the write of a
    replay. -/
inductive Interrupted (env : Env) (blockman : BlockManager) (oldHash newHash : Uint256)
    (uOld uNew : CoinsView) : CCoinsViewDB → Prop where
  | write {full : List DbOp → Bool} {db : CCoinsViewDB} {l : Layer} {batches : List (List DbOp)}
      {k : Nat} (atOld : AtTip oldHash uOld db) (valid : l.Valid True db.view)
      (shown : l.view db.view = uNew)
      (written : db.batchWrite full l.cacheCoins newHash = .ok batches) (begun : 0 < k) :
      Interrupted env blockman oldHash newHash uOld uNew (db.writeBatches (batches.take k))
  | mixed {db : CCoinsViewDB} (recovering : Recovering oldHash newHash uOld uNew db) :
      Interrupted env blockman oldHash newHash uOld uNew db
  | replay {full : List DbOp → Bool} {db : CCoinsViewDB} {batches : List (List DbOp)} {k : Nat}
      (before : Interrupted env blockman oldHash newHash uOld uNew db)
      (replayed : replayBlocks full env blockman db = .ok batches) :
      Interrupted env blockman oldHash newHash uOld uNew (db.writeBatches (batches.take k))

theorem AtTip.oldTip {hash} (atTip : AtTip hash u db) (hashBlock : Uint256) :
    db.oldTip hashBlock = .ok hash := by
  rw [CCoinsViewDB.oldTip, atTip.headBlocks, atTip.bestBlock]
  split
  · rename_i zero
    rw [zero]
  · rfl

theorem AtTip.replayBlocks {hash} (atTip : AtTip hash u db) (full : List DbOp → Bool) :
    replayBlocks full env blockman db = .ok [] := by
  rw [Validation.replayBlocks, atTip.headBlocks]

section Replaying

variable (newSet : UtxoSet env blockman (Guarded env) pindexNew uNew)
  (isHash : pindexNew.getBlockHash env.hash = newHash)
  (known : blockman.index newHash = some pindexNew) (nonnull : newHash ≠ 0)
  (old : OldTip env blockman (Guarded env) pindexNew oldHash uOld)
include newSet isHash known nonnull old

/-- The replay of a marked database, and what its own write leaves when it is
    interrupted. -/
theorem replayBlocks_spec (full : List DbOp → Bool)
    (recovering : Recovering oldHash newHash uOld uNew db) :
    ∃ batches, replayBlocks full env blockman db = .ok batches ∧
      AtTip newHash uNew (db.writeBatches batches) ∧
      ∀ k, 0 < k → Recovering oldHash newHash uOld uNew
          (db.writeBatches (batches.take k)) ∨
        AtTip newHash uNew (db.writeBatches (batches.take k)) := by
  obtain ⟨log, leads, run⟩ := replayTo_spec newSet old
  obtain ⟨cache, replayed, shows⟩ := run (.onto db.toBase) ⟨Layer.valid_new _, trivial⟩
  have single := shows.below_eq_nil rfl
  have base : cache.base = db.toBase := shows.base
  have under : viewBelow cache.base cache.below = db.view := by
    rw [single, base]
    rfl
  have valid : cache.top.Valid True db.view := under ▸ shows.valid.1
  have shown : cache.top.view db.view = uNew := by
    have repaired : replay log db.view = uNew := replay_mixed leads recovering.mixture
    have visible : cache.view = replay log db.view := shows.view
    rw [← under, ← repaired, ← visible]
    rfl
  have tip : db.oldTip newHash = .ok oldHash := by
    rw [oldTip, if_pos recovering.bestBlock, recovering.headBlocks]
    exact if_pos rfl
  obtain ⟨batches, written⟩ : ∃ batches, db.batchWrite full cache.top.cacheCoins
      newHash = .ok batches := by
    have isSet : (newHash != 0) = true := by simpa using nonnull
    simp only [batchWrite, isSet, assert, if_true, tip, ok_bind]
    exact ⟨_, rfl⟩
  refine ⟨batches, ?_, batchWrite_complete valid shown tip written, fun k begun =>
    batchWrite_interrupted valid recovering.mixture shown tip written begun⟩
  simp only [replayBlocks, recovering.headBlocks, replayBetween, known, replayed, isHash, bind,
    Except.bind]
  exact congrArg lift written

theorem Interrupted.cases_tip
    (interrupted : Interrupted env blockman oldHash newHash uOld uNew db) :
    Recovering oldHash newHash uOld uNew db ∨
      AtTip newHash uNew db := by
  induction interrupted with
  | write atOld valid shown written begun =>
    exact batchWrite_interrupted valid (fun o => .inl (congrFun atOld.view o)) shown
      (AtTip.oldTip atOld _) written begun
  | mixed recovering => exact .inl recovering
  | @replay full db batches k before replayed ih =>
    obtain recovering | atTip := ih
    · obtain ⟨again, ret, -, parts⟩ :=
        replayBlocks_spec newSet isHash known nonnull old full recovering
      obtain rfl := Except.ok.inj (replayed.symm.trans ret)
      obtain rfl | begun := Nat.eq_zero_or_pos k
      · exact .inl recovering
      · exact parts k begun
    · rw [AtTip.replayBlocks atTip full] at replayed
      obtain rfl := Except.ok.inj replayed
      rw [take_nil]
      exact .inr atTip

end Replaying

/-- After any crashes `ReplayBlocks` succeeds and leaves the UTXO set of the new
    tip, with the marker removed. -/
theorem crash_recovery (full : List DbOp → Bool) (env : Env) (blockman : BlockManager)
    {pindexNew : CBlockIndex} {oldHash : Uint256} {uOld uNew : CoinsView} {db : CCoinsViewDB}
    (newSet : UtxoSet env blockman (Guarded env) pindexNew uNew)
    (known : blockman.index (pindexNew.getBlockHash env.hash) = some pindexNew)
    (nonnull : pindexNew.getBlockHash env.hash ≠ 0)
    (old : OldTip env blockman (Guarded env) pindexNew oldHash uOld)
    (interrupted : Interrupted env blockman oldHash (pindexNew.getBlockHash env.hash) uOld uNew db) :
    ∃ batches, replayBlocks full env blockman db = .ok batches ∧
      AtTip (pindexNew.getBlockHash env.hash) uNew (db.writeBatches batches) := by
  obtain recovering | atTip := interrupted.cases_tip newSet rfl known nonnull old
  · obtain ⟨batches, replayed, atTip, -⟩ :=
      replayBlocks_spec newSet rfl known nonnull old full recovering
    exact ⟨batches, replayed, atTip⟩
  · exact ⟨[], AtTip.replayBlocks atTip full, atTip⟩

/-- The block of height 2 has the hash that lets later blocks skip the search for
    overwritten coins. Transactions are identified by the first byte that a
    coinbase carries. -/
def dupEnv : Env where
  params := { mainParams with bip34Height := 2, bip34Hash := 2 }
  hash := fun header => header.nNonce.toNat
  txid := fun tx => (tx.vin.head?.bind (·.scriptSig.head?)).elim 0 (·.toNat)
  hashPair := fun left right => left + right
  getSigOpCount := fun _ _ => 0
  getP2SHSigOps := fun _ _ => 0
  countWitnessSigOps := fun _ _ _ => 0
  fScriptChecks := fun _ => true
  checkInputScripts := fun _ _ _ => none

def dupFields (height : UInt8) (nNonce : UInt32) : HeaderFields :=
  ⟨1, height.toNat, 0, 0x1d00ffff, nNonce⟩

def dupGenesis : CBlockIndex := .genesis (dupFields 0 4)
def dupFirst : CBlockIndex := .child dupGenesis (dupFields 0x53 1)
def dupSecond : CBlockIndex := .child dupFirst (dupFields 0x52 2)
def dupThird : CBlockIndex := .child dupSecond (dupFields 0x53 3)

def dupBlock (height : UInt8) (nNonce : UInt32) (hashPrevBlock : Uint256) : CBlock where
  toCBlockHeader := ⟨dupFields height nNonce, hashPrevBlock⟩
  vtx := [⟨[⟨⟨0, COutPoint.nullIndex⟩, [height, 0], 0xffffffff, []⟩], [⟨1, [0x51]⟩], 1, 0⟩]

/-- The first block names height 3 ahead of time, and the third repeats it. -/
def dupManager : BlockManager where
  index := fun hash => [dupFirst, dupSecond, dupThird].find? (·.getBlockHash dupEnv.hash == hash)
  readBlock := fun pindex =>
    if pindex = dupFirst then some (dupBlock 0x53 1 4)
    else if pindex = dupSecond then some (dupBlock 0x52 2 1)
    else if pindex = dupThird then some (dupBlock 0x53 3 2)
    else none
  readUndo := fun _ => some []

def dupCoin (nHeight : Nat) : Coin := ⟨⟨1, [0x51]⟩, true, nHeight⟩

def dupView (coins : List (Uint256 × Nat)) (hashBlock : Uint256) : CCoinsViewCache :=
  .onto ⟨coins.foldl (fun coins entry => coins.insert ⟨entry.1, 0⟩ (dupCoin entry.2)) ∅, hashBlock⟩

theorem UtxoSet.connect_computed {guard : CBlockIndex → CBlock → CoinsView → Prop}
    {v w : CCoinsViewCache}
    (before : UtxoSet env blockman guard pprev v.view) (view : UtxoView v)
    (read : blockman.readBlock (.child pprev fields) = some block)
    (undo : blockman.readUndo (.child pprev fields) = some [])
    (ne : env.hash block.toCBlockHeader ≠ env.params.hashGenesisBlock)
    (guarded : guard (.child pprev fields) block v.view)
    (conn : (connectBlock env block (.child pprev fields) v false).toOption.any (fun r =>
      r.2.isEmpty && decide (∀ o ∈ r.1.outpoints ∪ w.outpoints, r.1.view o = w.view o)) = true) :
    UtxoSet env blockman guard (.child pprev fields) w.view := by
  cases ret : connectBlock env block (.child pprev fields) v false with
  | error failure =>
    rw [ret] at conn
    cases conn
  | ok res =>
    obtain ⟨v', vtxundo⟩ := res
    rw [ret] at conn
    change (vtxundo.isEmpty && decide (∀ o ∈ v'.outpoints ∪ w.outpoints, v'.view o = w.view o)) =
      true at conn
    rw [Bool.and_eq_true, List.isEmpty_iff, decide_eq_true_iff] at conn
    obtain ⟨rfl, same⟩ := conn
    rw [← view_ext same]
    exact .connect before view read undo ne guarded ret

theorem UtxoSet.weaken {guard weaker}
    (le : ∀ pindex block m, guard pindex block m → weaker pindex block m)
    (set : UtxoSet env blockman guard tip u) :
    UtxoSet env blockman weaker tip u := by
  induction set with
  | genesis fields => exact .genesis fields
  | connect before view read undo notGenesis guarded conn ih =>
    exact .connect ih view read undo notGenesis (le _ _ _ guarded) conn

theorem dupFirst_set : UtxoSet dupEnv dupManager (Guarded dupEnv) dupFirst
    (dupView [(0x53, 1)] 1).view := by
  exact .connect_computed (v := dupView [] 4) (.genesis _) (.onto (by decide +kernel)) rfl rfl
    (by decide) (.inr ⟨_, rfl, by decide⟩) (by decide +kernel)

theorem dupSecond_set : UtxoSet dupEnv dupManager (Guarded dupEnv) dupSecond
    (dupView [(0x53, 1), (0x52, 2)] 2).view := by
  exact .connect_computed dupFirst_set (.onto (by decide +kernel)) rfl rfl (by decide)
    (.inr ⟨_, rfl, by decide⟩) (by decide +kernel)

theorem UtxoSet.disconnect (valid : v.Valid True)
    (set : UtxoSet env blockman (Guarded env) (.child pprev fields) v.view) :
    ∃ block v', blockman.readBlock (.child pprev fields) = some block ∧
      disconnectBlock env block (.child pprev fields) (blockman.readUndo (.child pprev fields)) v =
        .ok (.ok, v') ∧ UtxoView v' ∧ UtxoSet env blockman (Guarded env) pprev v'.view := by
  generalize shown : v.view = u at set
  cases set with
  | @connect _ _ block _ w w' before view read undo ne guarded conn =>
    obtain ⟨v', undone, shows, -⟩ :=
      (connectBlock_applied view ne guarded conn).disconnect valid shown
    have same : v'.view = w.view := shows.view
    rw [← undo] at undone
    exact ⟨block, v', read, undone, .of_utxo shows.valid (same ▸ view.utxo), same ▸ before⟩

theorem Moves.set (moves : Moves env blockman tip v) :
    UtxoView v ∧ UtxoSet env blockman (Guarded env) tip v.view := by
  induction moves with
  | genesis fields valid empty =>
    exact ⟨.of_utxo valid (by rw [empty]; rintro _ _ ⟨⟩), empty ▸ .genesis fields⟩
  | connect _ read undo ne guarded conn ih =>
    exact ⟨(connectBlock_applied ih.1 ne guarded conn).view,
      .connect ih.2 ih.1 read undo ne guarded conn⟩
  | disconnect _ read undone ih =>
    obtain ⟨block, v', same, clean, kept⟩ := ih.2.disconnect ih.1.valid
    obtain rfl := Option.some.inj (same.symm.trans read)
    obtain ⟨-, rfl⟩ := Prod.mk.inj (Except.ok.inj (clean.symm.trans undone))
    exact kept

/-- The coins depend on the tip alone, whatever branches were connected and taken
    back before. -/
theorem coins_depend_on_tip (moves : Moves env blockman tip v)
    (others : Moves env blockman tip w) : v.view = w.view :=
  moves.set.2.unique others.set.2

/-- The first block is connected and taken back. -/
theorem coins_depend_on_tip_back : ∃ block v v',
    disconnectBlock dupEnv block dupFirst (some []) v = .ok (.ok, v') ∧
      v'.view = (dupView [] 4).view := by
  have start : Moves dupEnv dupManager dupGenesis (dupView [] 4) :=
    .genesis _ ⟨Layer.valid_new _, trivial⟩ rfl
  have connects : (connectBlock dupEnv (dupBlock 0x53 1 4) dupFirst (dupView [] 4)
      false).toOption.any (·.2.isEmpty) = true := by
    decide +kernel
  obtain ⟨⟨v, undo⟩, ran, none⟩ := (Option.any_eq_true _ _).mp connects
  obtain rfl := List.isEmpty_iff.mp none
  have first : Moves dupEnv dupManager dupFirst v :=
    start.connect rfl rfl (by decide) (.inr ⟨_, rfl, by decide⟩) (toOption_eq_some.mp ran)
  obtain ⟨block, v', read, clean, -⟩ := first.set.2.disconnect first.set.1.valid
  exact ⟨block, v, v', clean, coins_depend_on_tip (first.disconnect read clean) start⟩

def dupDb (coins : List (Uint256 × Nat)) (bestBlock : Uint256) (headBlocks : List Uint256) :
    CCoinsViewDB :=
  ⟨(dupView coins bestBlock).base.coins, bestBlock, headBlocks⟩

/-- A write from the second block back to the first was interrupted before the
    only coin that it erases was gone. -/
theorem crash_recovery_back : ∃ batches,
    replayBlocks (fun _ => false) dupEnv dupManager (dupDb [(0x53, 1), (0x52, 2)] 0 [1, 2]) =
        .ok batches ∧
      AtTip 1 (dupView [(0x53, 1)] 1).view
        ((dupDb [(0x53, 1), (0x52, 2)] 0 [1, 2]).writeBatches batches) :=
  crash_recovery (fun _ => false) dupEnv dupManager dupFirst_set (by decide +kernel) (by decide)
    (.block dupSecond_set (by decide +kernel) (by decide) (.refl : Ancestor dupFirst dupFirst).step
      .refl)
    (.mixed ⟨rfl, rfl, fun _ => .inl rfl⟩)

/-- The third block overwrites the coin of the first one. After a crash on the
    way back to the second block the coin is lost. -/
theorem crash_loses_overwritten : ∃ (uOld uNew : CoinsView) (db : CCoinsViewDB)
    (batches : List (List DbOp)),
    UtxoSet dupEnv dupManager (fun _ _ _ => True) dupSecond uNew ∧
      OldTip dupEnv dupManager (fun _ _ _ => True) dupSecond 3 uOld ∧
      dupManager.index 2 = some dupSecond ∧ dupSecond.getBlockHash dupEnv.hash = 2 ∧
      Interrupted dupEnv dupManager 3 2 uOld uNew db ∧
      replayBlocks (fun _ => true) dupEnv dupManager db = .ok batches ∧
      ¬ AtTip 2 uNew (db.writeBatches batches) := by
  let start := dupDb [(0x53, 3), (0x52, 2)] 3 []
  let l : Layer := ⟨2, (∅ : CCoinsMap).insert ⟨0x53, 0⟩ ⟨dupCoin 1, true, false⟩⟩
  let first : List DbOp :=
    [.eraseBestBlock, .writeHeadBlocks [2, 3], .writeCoin ⟨0x53, 0⟩ (dupCoin 1)]
  have newSet : UtxoSet dupEnv dupManager (fun _ _ _ => True) dupSecond
      (dupView [(0x53, 1), (0x52, 2)] 2).view := dupSecond_set.weaken fun _ _ _ _ => trivial
  have oldSet : UtxoSet dupEnv dupManager (fun _ _ _ => True) dupThird
      (dupView [(0x53, 3), (0x52, 2)] 3).view :=
    .connect_computed newSet (.onto (by decide +kernel)) rfl rfl (by decide) trivial
      (by decide +kernel)
  have valid : l.Valid True start.view := by
    intro o entry located
    by_cases here : o = ⟨0x53, 0⟩
    · subst here
      obtain rfl := Option.some.inj ((AList.lookup_insert _).symm.trans located)
      exact .of_dirty rfl (by decide) (nofun)
    · rw [show l.cacheCoins.lookup o = none from AList.lookup_insert_ne here] at located
      cases located
  have shown : l.view start.view = (dupView [(0x53, 1), (0x52, 2)] 2).view :=
    @view_ext ⟨l, [], start.toBase⟩ (dupView [(0x53, 1), (0x52, 2)] 2) (by decide +kernel)
  have interrupted : Interrupted dupEnv dupManager 3 2 (dupView [(0x53, 3), (0x52, 2)] 3).view
      (dupView [(0x53, 1), (0x52, 2)] 2).view (start.writeBatches [first]) :=
    @Interrupted.write dupEnv dupManager 3 2 _ _ (fun _ => true) start l
      [first, [.eraseHeadBlocks, .writeBestBlock 2]] 1 ⟨rfl, rfl, rfl⟩ valid shown rfl Nat.one_pos
  have lost : (replayBlocks (fun _ => true) dupEnv dupManager
      (start.writeBatches [first])).toOption.map
        (fun batches => ((start.writeBatches [first]).writeBatches batches).view ⟨0x53, 0⟩) =
      some none := by
    decide +kernel
  obtain ⟨batches, returned, gone⟩ := Option.map_eq_some_iff.mp lost
  refine ⟨_, _, _, batches, newSet, .block oldSet (by decide +kernel) (by decide)
    (.refl : Ancestor dupSecond dupSecond).step .refl, by decide +kernel, rfl, interrupted,
    toOption_eq_some.mp returned, fun atTip => ?_⟩
  rw [atTip.view] at gone
  cases gone

end HobbyHash.Validation
