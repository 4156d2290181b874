import HobbyHash.Coins.View
import HobbyHash.Library.WriteLog
import HobbyHash.Validation.Disconnect

/-! # Blocks as logs of writes

What connecting or disconnecting a block does to the visible coins is a list of
writes that depends on the block and its undo data only: spent inputs and taken
outputs become nothing, added outputs and restored inputs become a coin. The view
decides whether the run is clean, not what it writes.
-/

namespace HobbyHash.Validation

open Machine Library WriteLog CCoinsViewCache List Function

variable {output : COutPoint × CTxOut} {rest : List (COutPoint × CTxOut)} (fCoinbase : Bool)

abbrev CoinLog := List (COutPoint × Option Coin)

def spendLog (vin : List CTxIn) : CoinLog :=
  vin.map fun txin => (txin.prevout, none)

variable (outs : List (COutPoint × CTxOut))

/-- The outputs that `AddCoin` stores. -/
def spendable : List (COutPoint × CTxOut) :=
  outs.filter fun output => !isUnspendable output.2.scriptPubKey

def addLog (fCoinbase : Bool) (nHeight : Nat) (outs : List (COutPoint × CTxOut)) : CoinLog :=
  (spendable outs).map fun output => (output.1, some ⟨output.2, fCoinbase, nHeight⟩)

def takeLog : CoinLog :=
  (spendable outs).map fun output => (output.1, none)

def restoreLog (inputs : List (CTxIn × Coin)) : CoinLog :=
  inputs.map fun input => (input.1.prevout, some input.2)

/-- The inputs that `UpdateCoins` spends. -/
def spentInputs (tx : CTransaction) : List CTxIn :=
  if tx.isCoinBase then [] else tx.vin

/-- The writes of `UpdateCoins`. -/
def txLog (env : Env) (nHeight : Nat) (tx : CTransaction) : CoinLog :=
  spendLog (spentInputs tx) ++ addLog tx.isCoinBase nHeight (outputs env tx)

/-- The inputs of a transaction with the coins to be restored, the last first. -/
def undoInputs (tx : CTransaction) (txundo : Option (List Coin)) : List (CTxIn × Coin) :=
  (tx.vin.zip (txundo.getD [])).reverse

/-- The writes of one round of `DisconnectBlock`. -/
def txUndoLog (env : Env) (tx : CTransaction) (txundo : Option (List Coin)) : CoinLog :=
  takeLog (outputs env tx) ++ restoreLog (undoInputs tx txundo)

theorem spendable_cons_unspendable (unspendable : isUnspendable output.2.scriptPubKey = true) :
    spendable (output :: rest) = spendable rest := by
  simp only [spendable, filter_cons, unspendable, Bool.not_true, Bool.false_eq_true, if_false]

theorem spendable_cons (kept : isUnspendable output.2.scriptPubKey = false) :
    spendable (output :: rest) = output :: spendable rest := by
  simp only [spendable, filter_cons, kept, Bool.not_false, if_true]

theorem addLog_cons (nHeight : Nat) (output : COutPoint × CTxOut)
    (rest : List (COutPoint × CTxOut)) :
    addLog fCoinbase nHeight (output :: rest) =
      addLog fCoinbase nHeight [output] ++ addLog fCoinbase nHeight rest := by
  have split : spendable (output :: rest) = spendable [output] ++ spendable rest :=
    filter_append [output] rest
  simp only [addLog, split, map_append]

theorem replay_addLog_one (nHeight : Nat) (output : COutPoint × CTxOut) (m : CoinsView) :
    replay (addLog fCoinbase nHeight [output]) m =
      m.addCoin output.1 ⟨output.2, fCoinbase, nHeight⟩ := by
  rw [addLog, CoinsView.addCoin]
  cases unspendable : isUnspendable output.2.scriptPubKey with
  | true =>
    rw [spendable_cons_unspendable unspendable, if_pos rfl]
    rfl
  | false =>
    rw [spendable_cons unspendable, if_neg Bool.false_ne_true]
    rfl

theorem spendable_sublist : (spendable outs).Sublist outs :=
  filter_sublist

theorem hash_of_mem_outputsFrom (mem : output ∈ outputsFrom txid i vout) :
    output.1.hash = txid ∧ i ≤ output.1.n := by
  induction vout generalizing i with
  | nil => cases mem
  | cons out rest ih =>
    obtain rfl | inRest := mem_cons.mp mem
    · exact ⟨rfl, le_rfl⟩
    · obtain ⟨hash, later⟩ := ih inRest
      exact ⟨hash, by omega⟩

theorem outputsFrom_distinct (txid : Uint256) (i : Nat) (vout : List CTxOut) :
    ((outputsFrom txid i vout).map Prod.fst).Nodup := by
  induction vout generalizing i with
  | nil => exact nodup_nil
  | cons out rest ih =>
    refine nodup_cons.mpr ⟨fun mem => ?_, ih (i + 1)⟩
    obtain ⟨output, inRest, same⟩ := mem_map.mp mem
    have later := (hash_of_mem_outputsFrom inRest).2
    rw [same] at later
    exact absurd later (by simp)

theorem outputs_distinct (env : Env) (tx : CTransaction) : ((outputs env tx).map Prod.fst).Nodup :=
  outputsFrom_distinct _ _ _

variable {v : CCoinsViewCache} {nHeight : Nat} {is_coinbase : Bool}

/-- The outputs that a transaction has added are there as it added them. -/
def Added (is_coinbase : Bool) (nHeight : Nat) (outs : List (COutPoint × CTxOut)) (m : CoinsView) :
    Prop :=
  ∀ output ∈ spendable outs, m output.1 = some ⟨output.2, is_coinbase, nHeight⟩

theorem takeOutputs_spec (valid : v.Valid True) (is_bip30_exception fClean : Bool)
    (outs : List (COutPoint × CTxOut)) :
    Shows True v (replay (takeLog outs) v.view)
        (outs.foldl (takeOutput nHeight is_coinbase is_bip30_exception) (fClean, v)).2 ∧
      ((outs.map Prod.fst).Nodup → Added is_coinbase nHeight outs v.view →
        (outs.foldl (takeOutput nHeight is_coinbase is_bip30_exception) (fClean, v)).1
        = fClean) := by
  induction outs generalizing v fClean with
  | nil => exact ⟨.refl valid, fun _ _ => rfl⟩
  | cons output rest ih =>
    rw [foldl_cons, takeOutput]
    cases unspendable : isUnspendable output.2.scriptPubKey with
    | true =>
      obtain ⟨shows, clean⟩ := ih valid fClean
      rw [if_pos rfl, takeLog, spendable_cons_unspendable unspendable]
      refine ⟨shows, fun distinct added => clean (nodup_cons.mp distinct).2 ?_⟩
      rwa [Added, spendable_cons_unspendable unspendable] at added
    | false =>
      obtain ⟨found, spends⟩ := spendCoin_spec trivial valid output.1
      rw [if_neg Bool.false_ne_true, takeLog, spendable_cons unspendable, map_cons, replay_cons]
      cases answer : v.spendCoin output.1 with
      | mk coin next =>
        rw [answer] at found spends
        obtain ⟨shows, clean⟩ := ih spends.valid (fClean && (coin.any (fun coin =>
          output.2 == coin.out && nHeight == coin.nHeight && is_coinbase == coin.fCoinBase) ||
            is_bip30_exception))
        have view : next.view = update v.view output.1 none := spends.view
        rw [view] at shows clean
        refine ⟨spends.trans shows, fun distinct added => ?_⟩
        obtain ⟨apart, distinctRest⟩ := nodup_cons.mp distinct
        rw [Added, spendable_cons unspendable, forall_mem_cons] at added
        rw [added.1] at found
        obtain ⟨taken, rfl, unspent⟩ := Option.bind_eq_some_iff.mp found
        obtain ⟨rfl, -⟩ := Coin.unspent_eq_some.mp unspent
        refine (clean distinctRest fun later mem => ?_).trans (by simp)
        have ne : later.1 ≠ output.1 := by
          intro same
          refine apart (same ▸ mem_map_of_mem ?_)
          exact (spendable_sublist rest).subset mem
        rw [update_of_ne ne]
        exact added.2 later mem

/-- A coin as `AddCoin` stores it, with its metadata. -/
structure Restorable (coin : Coin) : Prop where
  unspent : coin.isSpent = false
  spendable : isUnspendable coin.out.scriptPubKey = false
  height : coin.nHeight ≠ 0

theorem applyTxInUndo_spec (valid : v.Valid True) (restorable : Restorable undo) (out : COutPoint) :
    ∃ v', applyTxInUndo undo v out = .ok (.ofClean (v.view out).isNone, v') ∧
      Shows True v (Function.update v.view out (some undo)) v' := by
  obtain ⟨found, reads⟩ := haveCoin_spec valid out
  simp only [applyTxInUndo, undoMetadata, if_neg restorable.height]
  cases answer : v.haveCoin out with
  | mk overwrites next =>
    rw [answer] at found reads
    have view : next.view = v.view := reads.view
    have legal : overwrites = false → next.view out = none := by
      intro absent
      rw [view]
      exact Option.isNone_iff_eq_none.mp (by simpa [absent] using found.symm)
    obtain ⟨v', added, shows⟩ := addCoin_spec reads.valid restorable.unspent legal
    rw [CoinsView.addCoin, restorable.spendable, if_neg Bool.false_ne_true, view] at shows
    have clean : (v.view out).isNone = !overwrites := by
      rw [show overwrites = (v.view out).isSome from found, Option.not_isSome]
    refine ⟨v', ?_, reads.toShows.trans shows⟩
    simp only [added, clean, ok_bind, pure, Except.pure]

theorem restoreInputs_spec (valid : v.Valid True)
    (restorable : ∀ input ∈ inputs, Restorable input.2) (fClean : Bool) :
    ∃ stays v', restoreInputs inputs fClean v = .ok (.ofClean stays, v') ∧
      Shows True v (replay (restoreLog inputs) v.view) v' ∧
      ((inputs.map (·.1.prevout)).Nodup → (∀ input ∈ inputs, v.view input.1.prevout = none) →
        stays = fClean) := by
  induction inputs generalizing v fClean with
  | nil => exact ⟨fClean, v, rfl, .refl valid, fun _ _ => rfl⟩
  | cons input rest ih =>
    obtain ⟨txin, undo⟩ := input
    obtain ⟨here, later⟩ := forall_mem_cons.mp restorable
    obtain ⟨next, applied, adds⟩ := applyTxInUndo_spec valid here txin.prevout
    have view : next.view = update v.view txin.prevout (some undo) := adds.view
    obtain ⟨stays, v', restored, shows, clean⟩ :=
      ih adds.valid later (fClean && (v.view txin.prevout).isNone)
    rw [view] at shows clean
    refine ⟨stays, v', ?_, adds.trans shows, fun distinct absent => ?_⟩
    · rw [restoreInputs, applied]
      generalize (v.view txin.prevout).isNone = free at restored
      cases free with
      | true => exact restored
      | false => exact restored
    obtain ⟨apart, distinctRest⟩ := nodup_cons.mp distinct
    obtain ⟨absentHere, absentLater⟩ := forall_mem_cons.mp absent
    refine (clean distinctRest fun other mem => ?_).trans ?_
    · have ne : other.1.prevout ≠ txin.prevout := by
        intro same
        exact apart (mem_map.mpr ⟨other, mem, same⟩)
      rw [update_of_ne ne]
      exact absentLater other mem
    · rw [absentHere, Option.isNone_none, Bool.and_true]

/-- Undo data that `DisconnectBlock` can use for a transaction. -/
structure Undoable (tx : CTransaction) (txundo : Option (List Coin)) : Prop where
  size : ∀ vprevout, txundo = some vprevout → vprevout.length = tx.vin.length
  coins : ∀ vprevout, txundo = some vprevout → ∀ coin ∈ vprevout, Restorable coin

theorem Undoable.restorable {tx txundo} (undoable : Undoable tx txundo) :
    ∀ input ∈ undoInputs tx txundo, Restorable input.2 := by
  intro input mem
  have paired := mem_reverse.mp mem
  cases txundo with
  | none => simp at paired
  | some vprevout => exact undoable.coins vprevout rfl input.2 (of_mem_zip paired).2

/-- The view right after a transaction was connected: its outputs are there, and
    its inputs are gone. -/
structure JustConnected (env : Env) (nHeight : Nat) (tx : CTransaction)
    (txundo : Option (List Coin)) (m : CoinsView) : Prop where
  added : Added tx.isCoinBase nHeight (outputs env tx) m
  distinct : ((undoInputs tx txundo).map (·.1.prevout)).Nodup
  gone : ∀ input ∈ undoInputs tx txundo,
    replay (takeLog (outputs env tx)) m input.1.prevout = none

theorem disconnectTx_spec (env : Env) (valid : v.Valid True) {tx txundo}
    (undoable : Undoable tx txundo) (fEnforceBIP30 fClean : Bool) :
    ∃ stays v', disconnectTx env nHeight fEnforceBIP30 tx txundo fClean v
      = .ok (.ofClean stays, v') ∧
      Shows True v (replay (txUndoLog env tx txundo) v.view) v' ∧
      (JustConnected env nHeight tx txundo v.view → stays = fClean) := by
  obtain ⟨takes, cleanTakes⟩ := @takeOutputs_spec v nHeight tx.isCoinBase valid
    (tx.isCoinBase && !fEnforceBIP30) fClean (outputs env tx)
  simp only [disconnectTx]
  cases answer : (outputs env tx).foldl
      (takeOutput nHeight tx.isCoinBase (tx.isCoinBase && !fEnforceBIP30)) (fClean, v) with
  | mk clean next =>
    rw [answer] at takes cleanTakes
    have view : next.view = replay (takeLog (outputs env tx)) v.view := takes.view
    obtain ⟨stays, v', restored, shows, cleanRestores⟩ :=
      restoreInputs_spec takes.valid undoable.restorable clean
    rw [view] at shows cleanRestores
    refine ⟨stays, v', ?_, ?_, fun conn => ?_⟩
    · cases txundo with
      | none =>
        rw [undoInputs, Option.getD_none, zip_nil_right] at restored
        exact restored
      | some vprevout =>
        rw [undoInputs, Option.getD_some] at restored
        simp only [undoable.size vprevout rfl, ne_eq, not_true, if_false, restored]
    · rw [txUndoLog, replay_append]
      exact takes.trans shows
    · rw [cleanRestores conn.distinct conn.gone]
      exact cleanTakes (outputs_distinct env tx) conn.added

def undoLog (env : Env) (order : List (CTransaction × Option (List Coin))) : CoinLog :=
  order.flatMap fun round => txUndoLog env round.1 round.2

/-- Every transaction is undone in the view right after it was connected. -/
def CleanOrder (env : Env) (nHeight : Nat) :
    List (CTransaction × Option (List Coin)) → CoinsView → Prop
  | [], _ => True
  | (tx, txundo) :: rest, m => JustConnected env nHeight tx txundo m ∧
      CleanOrder env nHeight rest (replay (txUndoLog env tx txundo) m)

theorem disconnectTxs_spec (env : Env) (valid : v.Valid True)
    {order : List (CTransaction × Option (List Coin))}
    (undoable : ∀ round ∈ order, Undoable round.1 round.2) (fEnforceBIP30 fClean : Bool) :
    ∃ stays v', disconnectTxs env nHeight fEnforceBIP30 order fClean v = .ok (.ofClean stays, v') ∧
      Shows True v (replay (undoLog env order) v.view) v' ∧
      (CleanOrder env nHeight order v.view → stays = fClean) := by
  induction order generalizing v fClean with
  | nil => exact ⟨fClean, v, rfl, .refl valid, fun _ => rfl⟩
  | cons round rest ih =>
    obtain ⟨tx, txundo⟩ := round
    obtain ⟨here, later⟩ := forall_mem_cons.mp undoable
    obtain ⟨between, next, undone, shows, clean⟩ :=
      @disconnectTx_spec v nHeight env valid tx txundo here fEnforceBIP30 fClean
    have view : next.view = replay (txUndoLog env tx txundo) v.view := shows.view
    obtain ⟨stays, v', undoneRest, showsRest, cleanRest⟩ := ih shows.valid later between
    rw [view] at showsRest cleanRest
    refine ⟨stays, v', ?_, ?_, fun order => ?_⟩
    · rw [disconnectTxs, undone]
      cases between with
      | true => exact undoneRest
      | false => exact undoneRest
    · rw [undoLog, flatMap_cons, replay_append]
      exact shows.trans showsRest
    · rw [cleanRest order.2, clean order.1]

theorem disconnectBlock_spec (env : Env) (valid : v.Valid True) {block pindex pprev}
    (parent : pindex.pprev = some pprev) {vtxundo} (size : vtxundo.length + 1 = block.vtx.length)
    (undoable : ∀ round ∈ undoOrder block.vtx vtxundo, Undoable round.1 round.2) :
    ∃ stays v', disconnectBlock env block pindex (some vtxundo) v = .ok (.ofClean stays, v') ∧
      Shows True v (replay (undoLog env (undoOrder block.vtx vtxundo)) v.view) v' ∧
      v'.top.hashBlock = pprev.getBlockHash env.hash ∧
      (CleanOrder env pindex.nHeight (undoOrder block.vtx vtxundo) v.view → stays = true) := by
  obtain ⟨stays, next, undone, shows, clean⟩ := @disconnectTxs_spec v pindex.nHeight env valid
    (undoOrder block.vtx vtxundo) undoable (disconnectEnforcesBIP30 env pindex) true
  have moved := shows_setBestBlock shows.valid (pprev.getBlockHash env.hash)
  rw [shows.view] at moved
  refine ⟨stays, next.setBestBlock (pprev.getBlockHash env.hash), ?_, shows.trans moved, rfl, clean⟩
  simp only [disconnectBlock, size, ne_eq, not_true, if_false, undone, parent, ok_bind]
  cases stays with
  | true => rfl
  | false => rfl

end HobbyHash.Validation
