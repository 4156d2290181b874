import HobbyHash.Validation.Undo

/-! # Sequences of blocks

A block that was connected without overwriting a coin has a known effect on the
view, and its undo data fits any view that shows the same coins. Blocks that are
connected one after the other can therefore be disconnected in reverse order, and
leave what was there before.
-/

namespace HobbyHash.Validation

open Machine Consensus Library WriteLog CCoinsViewCache List

variable {env : Env} {nHeight : Nat} {tx : CTransaction} {txundo : Option (List Coin)}
  {m : CoinsView} {v v' w : CCoinsViewCache} {block : CBlock} {pindex : CBlockIndex}
  {vtxundo : List (List Coin)}

/-- Every coin can be restored from undo data. -/
def Utxo (m : CoinsView) : Prop :=
  ∀ o c, m o = some c → Restorable c

theorem viewBelow_unspent {base layers o c} (shown : viewBelow base layers o = some c) :
    c.isSpent = false := by
  induction layers with
  | nil =>
    obtain ⟨stored, -, unspent⟩ := Option.bind_eq_some_iff.mp shown
    obtain ⟨rfl, isUnspent⟩ := Coin.unspent_eq_some.mp unspent
    exact isUnspent
  | cons l rest ih =>
    cases located : l.cacheCoins.lookup o with
    | none =>
      rw [viewBelow, Layer.view_of_absent located] at shown
      exact ih shown
    | some entry =>
      rw [viewBelow, Layer.view_of_lookup located] at shown
      obtain ⟨rfl, isUnspent⟩ := Coin.unspent_eq_some.mp shown
      exact isUnspent

/-- A view as `AddCoin` builds it: truthful flags, no unspendable output, and the
    height of a block after the genesis block with every coin. -/
structure UtxoView (v : CCoinsViewCache) : Prop where
  valid : v.Valid True
  spendable : ∀ o c, v.view o = some c → isUnspendable c.out.scriptPubKey = false
  height : ∀ o c, v.view o = some c → c.nHeight ≠ 0

theorem UtxoView.utxo (view : UtxoView v) : Utxo v.view :=
  fun o c shown => ⟨viewBelow_unspent shown, view.spendable o c shown, view.height o c shown⟩

theorem UtxoView.of_utxo (valid : v.Valid True) (utxo : Utxo v.view) : UtxoView v :=
  ⟨valid, fun o c shown => (utxo o c shown).spendable, fun o c shown => (utxo o c shown).height⟩

theorem UtxoView.onto {base} (coins : ∀ o ∈ (CCoinsViewCache.onto base).outpoints,
    ∀ c ∈ (CCoinsViewCache.onto base).view o,
      isUnspendable c.out.scriptPubKey = false ∧ c.nHeight ≠ 0) : UtxoView (.onto base) := by
  have each (o : COutPoint) (c : Coin) (shown : (CCoinsViewCache.onto base).view o = some c) :=
    coins o (mem_outpoints (by rw [shown]; exact Option.some_ne_none c)) c shown
  exact ⟨⟨Layer.valid_new _, trivial⟩, fun o c shown => (each o c shown).1,
    fun o c shown => (each o c shown).2⟩

theorem Utxo.restorable (utxo : Utxo m) {vin : List CTxIn}
    (spent : List.Forall₂ (fun txin coin => m txin.prevout = some coin) vin coins) :
    ∀ coin ∈ coins, Restorable coin := by
  induction spent with
  | nil => exact fun coin mem => (not_mem_nil mem).elim
  | cons shown rest ih => exact forall_mem_cons.mpr ⟨utxo _ _ shown, ih⟩

theorem Connects.undoable (connects : Connects env tx txundo m) (utxo : Utxo m) :
    Undoable tx txundo := by
  have spent := connects.spent
  have kind := connects.coinbase
  constructor
  · rintro vprevout rfl
    rw [Option.isNone_some] at kind
    rw [spentInputs, kind, if_neg Bool.false_ne_true] at spent
    exact spent.length_eq.symm
  · rintro vprevout rfl
    exact utxo.restorable spent

theorem not_isSpent_of_range (range : moneyRange out.nValue) :
    Coin.isSpent ⟨out, fCoinbase, nHeight⟩ = false := by
  have nonneg := (moneyRange_iff.mp range).1
  simp only [Coin.isSpent, CTxOut.isNull, beq_eq_false_iff_ne]
  omega

theorem Utxo.txLog (utxo : Utxo m) (values : ∀ out ∈ tx.vout, moneyRange out.nValue)
    (ne : nHeight ≠ 0) : Utxo (replay (txLog env nHeight tx) m) := by
  intro o c shown
  rw [replay_apply] at shown
  cases written : last (Validation.txLog env nHeight tx) o with
  | none =>
    rw [written] at shown
    exact utxo o c shown
  | some b =>
    rw [written, Option.getD_some] at shown
    subst shown
    obtain spends | adds := mem_append.mp (mem_of_last written)
    · obtain ⟨txin, -, same⟩ := mem_map.mp spends
      cases same
    obtain ⟨output, mem, same⟩ := mem_map.mp adds
    cases same
    obtain ⟨listed, kept⟩ := mem_filter.mp mem
    exact ⟨not_isSpent_of_range (values output.2 (mem_vout_of_mem_outputs listed)),
      by simpa using kept, ne⟩

theorem ConnectsAll.undoable {rounds} (connects : ConnectsAll env nHeight rounds m) (utxo : Utxo m)
    (ne : nHeight ≠ 0)
    (values : ∀ tx ∈ rounds.map Prod.fst, ∀ out ∈ tx.vout, moneyRange out.nValue) :
    (∀ round ∈ rounds, Undoable round.1 round.2) ∧
      Utxo (replay (blockLog env nHeight (rounds.map Prod.fst)) m) := by
  induction rounds generalizing m with
  | nil => exact ⟨fun round mem => (not_mem_nil mem).elim, utxo⟩
  | cons round rest ih =>
    obtain ⟨first, others⟩ := connects
    obtain ⟨valuesHere, valuesRest⟩ := forall_mem_cons.mp values
    obtain ⟨undoable, utxoRest⟩ := ih others (utxo.txLog valuesHere ne) valuesRest
    rw [map_cons, replay_blockLog_cons]
    exact ⟨forall_mem_cons.mpr ⟨first.undoable utxo, undoable⟩, utxoRest⟩

/-- No output of the block has the outpoint of an unspent coin. -/
def NoOverwrite (env : Env) (block : CBlock) (m : CoinsView) : Prop :=
  ∀ output ∈ block.vtx.flatMap (outputs env), m output.1 = none

/-- The block overwrites no coin, or `ConnectBlock` rejects it if it does. -/
def Guarded (env : Env) (pindex : CBlockIndex) (block : CBlock) (m : CoinsView) : Prop :=
  NoOverwrite env block m ∨ ∃ pprev, pindex.pprev = some pprev ∧
  enforceBIP30 env pprev pindex = true

structure Applied (env : Env) (block : CBlock) (pindex : CBlockIndex) (vtxundo : List (List Coin))
    (v v' : CCoinsViewCache) : Prop where
  parent : ∃ pprev, pindex.pprev = some pprev ∧ pprev.getBlockHash env.hash = v.bestBlock
  size : vtxundo.length + 1 = block.vtx.length
  connects : ConnectsAll env pindex.nHeight (block.vtx.zip (none :: vtxundo.map some)) v.view
  undoable : ∀ round ∈ undoOrder block.vtx vtxundo, Undoable round.1 round.2
  shows : Shows True v (replay (blockLog env pindex.nHeight block.vtx) v.view) v'
  view : UtxoView v'
  values : ∀ tx ∈ block.vtx, ∀ out ∈ tx.vout, moneyRange out.nValue

theorem connectBlock_applied (view : UtxoView v)
    (ne : env.hash block.toCBlockHeader ≠ env.params.hashGenesisBlock)
    (guarded : Guarded env pindex block v.view)
    (conn : connectBlock env block pindex v false = .ok (v', vtxundo)) :
    Applied env block pindex vtxundo v v' := by
  have established : Ensures (Overflows False) (connectBlock env block pindex v false) (fun r =>
      Applied env block pindex r.2 v r.1) := by
    refine ensures_connectBlock_of view.valid (fun _ isGenesis => absurd isGenesis ne) ?_
    intro coinbase rest pprev v₁ ready
    have reads := ready.reads.view
    have absent : ∀ output ∈ block.vtx.flatMap (outputs env), v₁.view output.1 = none := by
      rw [reads]
      obtain noOverwrite | ⟨other, parent, enforced⟩ := guarded
      · exact noOverwrite
      · obtain rfl := Option.some.inj (ready.parent.symm.trans parent)
        exact ready.absent enforced
    refine (connectTransactions_spec ready.reads.valid ready.listed ready.checked absent).mono ?_
    intro st progress
    have connects := progress.connects
    have shows := progress.shows
    rw [reads] at connects shows
    have firsts : (block.vtx.zip (none :: st.vtxundo.map some)).map Prod.fst = block.vtx :=
      map_fst_zip (by simp [progress.size])
    have height : pindex.nHeight ≠ 0 := by
      cases pindex with
      | genesis fields => exact absurd ready.parent (by simp [CBlockIndex.pprev])
      | child before fields => exact Nat.succ_ne_zero _
    have values : ∀ tx ∈ block.vtx, ∀ out ∈ tx.vout, moneyRange out.nValue := by
      rw [ready.listed]
      exact fun tx mem => (ready.checked.checked tx mem).values
    obtain ⟨undoable, utxo⟩ := connects.undoable view.utxo height (firsts.symm ▸ values)
    rw [firsts, ← shows.view] at utxo
    have settled := shows_setBestBlock shows.valid (pindex.getBlockHash env.hash)
    rw [shows.view] at settled
    exact ⟨⟨pprev, ready.parent, ready.best⟩, progress.size, connects,
      fun round mem => undoable round (mem_reverse.mp mem),
      (ready.reads.toShows.trans shows).trans settled, .of_utxo shows.valid utxo, values⟩
  exact established.of_eq_ok conn

theorem Applied.undone (applied : Applied env block pindex vtxundo v v') :
    replay (undoLog env (undoOrder block.vtx vtxundo)) v'.view = v.view ∧
      CleanOrder env pindex.nHeight (undoOrder block.vtx vtxundo) v'.view := by
  have firsts : (block.vtx.zip (none :: vtxundo.map some)).map Prod.fst = block.vtx :=
    map_fst_zip (by simp [applied.size])
  have undone := applied.connects.undone
  rw [firsts, ← applied.shows.view] at undone
  exact undone

theorem Applied.disconnect (applied : Applied env block pindex vtxundo v v') (valid : w.Valid True)
    (eq : w.view = v'.view) :
    ∃ w', disconnectBlock env block pindex (some vtxundo) w = .ok (.ok, w') ∧
      Shows True w v.view w' ∧ w'.top.hashBlock = v.bestBlock := by
  obtain ⟨pprev, parent, best⟩ := applied.parent
  obtain ⟨stays, w', disconnected, shows, hash, clean⟩ :=
    disconnectBlock_spec env valid parent applied.size applied.undoable
  obtain ⟨undone, order⟩ := applied.undone
  rw [← eq] at undone order
  rw [undone] at shows
  obtain rfl := clean order
  exact ⟨w', disconnected, shows, hash.trans best⟩

def connectBlocks (env : Env) : List (CBlock × CBlockIndex) → CCoinsViewCache →
    Except (Failure BlockValidationResult) (CCoinsViewCache × List (List (List Coin)))
  | [], view => .ok (view, [])
  | (block, pindex) :: rest, view => do
    let (view, vtxundo) ← connectBlock env block pindex view false
    let (view, undos) ← connectBlocks env rest view
    return (view, vtxundo :: undos)

def disconnectBlocks (env : Env) : List ((CBlock × CBlockIndex) × List (List Coin)) →
    CCoinsViewCache → Except Fault (List DisconnectResult × CCoinsViewCache)
  | [], view => .ok ([], view)
  | ((block, pindex), vtxundo) :: rest, view => do
    let (result, view) ← disconnectBlock env block pindex (some vtxundo) view
    let (results, view) ← disconnectBlocks env rest view
    return (result :: results, view)

/-- `ConnectBlock` searches the view for coins that the block would overwrite. -/
def ChecksOverwrite (env : Env) (block : CBlock) (pindex : CBlockIndex) : Prop :=
  env.hash block.toCBlockHeader ≠ env.params.hashGenesisBlock ∧
    ∃ pprev, pindex.pprev = some pprev ∧ enforceBIP30 env pprev pindex = true

theorem disconnectBlocks_append (first : disconnectBlocks env blocks w = .ok (results, w'))
    (second : disconnectBlocks env later w' = .ok (results', w'')) :
    disconnectBlocks env (blocks ++ later) w = .ok (results ++ results', w'') := by
  induction blocks generalizing w results with
  | nil =>
    cases first
    exact second
  | cons entry rest ih =>
    rw [disconnectBlocks, bind_eq_ok] at first
    obtain ⟨⟨res, next⟩, disconnected, first⟩ := first
    obtain ⟨⟨others, final⟩, rested, first⟩ := bind_eq_ok.mp first
    cases first
    rw [cons_append, disconnectBlocks, disconnected]
    simp only [ok_bind, ih rested]
    rfl

/-- The run lemma: undoing works from any view with the coins of the last one. -/
theorem connectBlocks_undone (view : UtxoView v)
    (checks : ∀ entry ∈ blocks, ChecksOverwrite env entry.1 entry.2)
    (conn : connectBlocks env blocks v = .ok (v', undos)) :
    (∃ shown, Shows True v shown v') ∧ ∀ w, w.Valid True → w.view = v'.view →
      ∃ w', disconnectBlocks env (blocks.zip undos).reverse w =
          .ok (List.replicate blocks.length .ok, w') ∧
        Shows True w v.view w' ∧ (blocks ≠ [] → w'.top.hashBlock = v.bestBlock) := by
  induction blocks generalizing v undos with
  | nil =>
    cases conn
    refine ⟨⟨_, .refl view.valid⟩, fun w valid same => ⟨w, rfl, same ▸ .refl valid, ?_⟩⟩
    exact fun ne => absurd rfl ne
  | cons entry rest ih =>
    obtain ⟨block, pindex⟩ := entry
    obtain ⟨⟨notGenesis, enforced⟩, checksRest⟩ := forall_mem_cons.mp checks
    rw [connectBlocks, bind_eq_ok] at conn
    obtain ⟨⟨next, vtxundo⟩, connectedHere, conn⟩ := conn
    obtain ⟨⟨final, others⟩, connectedRest, conn⟩ := bind_eq_ok.mp conn
    cases conn
    have applied := connectBlock_applied view notGenesis (.inr enforced) connectedHere
    obtain ⟨⟨shown, shows⟩, undo⟩ := ih applied.view checksRest connectedRest
    refine ⟨⟨shown, applied.shows.trans shows⟩, fun w valid same => ?_⟩
    obtain ⟨w₁, disconnectedRest, showsRest, -⟩ := undo w valid same
    obtain ⟨w₂, disconnected, showsHere, hash⟩ :=
      applied.disconnect showsRest.valid showsRest.view
    have last : disconnectBlocks env [((block, pindex), vtxundo)] w₁ = .ok ([.ok], w₂) := by
      rw [disconnectBlocks, disconnected]
      rfl
    refine ⟨w₂, ?_, showsRest.trans showsHere, fun _ => hash⟩
    rw [zip_cons_cons, reverse_cons, length_cons, replicate_succ']
    exact disconnectBlocks_append disconnectedRest last

/-- Connecting blocks and disconnecting them in reverse order is clean and leaves
    the coins and the best block as they were. -/
theorem disconnect_undoes_connect (env : Env) (blocks : List (CBlock × CBlockIndex))
    {v v' : CCoinsViewCache} {undos : List (List (List Coin))} (view : UtxoView v)
    (checks : ∀ entry ∈ blocks, ChecksOverwrite env entry.1 entry.2)
    (connected : connectBlocks env blocks v = .ok (v', undos)) :
    ∃ v'', disconnectBlocks env (blocks.zip undos).reverse v' =
        .ok (List.replicate blocks.length .ok, v'') ∧
      v''.view = v.view ∧ v''.bestBlock = v.bestBlock := by
  obtain ⟨⟨shown, shows⟩, undo⟩ := connectBlocks_undone view checks connected
  obtain ⟨v'', disconnected, back, hash⟩ := undo v' shows.valid rfl
  refine ⟨v'', disconnected, back.view, ?_⟩
  cases blocks with
  | nil =>
    cases connected
    cases disconnected
    rfl
  | cons entry rest =>
    change (if v''.top.hashBlock = 0 then bestBlockBelow v''.base v''.below else v''.top.hashBlock) =
      v.bestBlock
    rw [hash (cons_ne_nil _ _), (shows.trans back).bestBelow]
    split
    · rename_i zero
      change (if v.top.hashBlock = 0 then bestBlockBelow v.base v.below else v.top.hashBlock) = 0
        at zero
      rw [show v.bestBlock = 0 from zero]
      split at zero
      · exact zero
      · contradiction
    · rfl

/-- Coinbases have the transaction id 1 here, other transactions the id that they
    carry as their lock time. -/
def reorgEnv : Env where
  params := mainParams
  hash := fun header => header.nNonce.toNat
  txid := fun tx => if tx.isCoinBase then 1 else tx.nLockTime.toNat
  hashPair := fun left right => left + right
  getSigOpCount := fun _ _ => 0
  getP2SHSigOps := fun _ _ => 0
  countWitnessSigOps := fun _ _ _ => 0
  fScriptChecks := fun _ => true
  checkInputScripts := fun _ _ _ => none

def reorgFields (nNonce : UInt32) : HeaderFields := ⟨1, 9, 0, 0x1d00ffff, nNonce⟩

def reorgIndex : CBlockIndex := .child (.genesis (reorgFields 1)) (reorgFields 2)

def reorgView : CCoinsViewCache :=
  .onto ⟨(∅ : CoinMap).insert ⟨7, 0⟩ ⟨⟨50, [0x51]⟩, false, 1⟩, 1⟩

/-- The second transaction spends the coin, the third an output of the second;
    one output cannot be spent. -/
def reorgBlock : CBlock where
  toCBlockHeader := ⟨reorgFields 2, 1⟩
  vtx :=
    [⟨[⟨⟨0, COutPoint.nullIndex⟩, [1, 1], 0xffffffff, []⟩], [⟨1, [0x51]⟩], 1, 0⟩,
     ⟨[⟨⟨7, 0⟩, [], 0xffffffff, []⟩], [⟨50, [0x51]⟩], 1, 2⟩,
     ⟨[⟨⟨2, 0⟩, [], 0xffffffff, []⟩], [⟨20, [0x51]⟩, ⟨30, [0x6a]⟩], 1, 3⟩]

/-- A block with a chain of spends is connected and disconnected. -/
theorem disconnect_undoes_spends : ∃ v' undos v'',
    connectBlocks reorgEnv [(reorgBlock, reorgIndex)] reorgView = .ok (v', undos) ∧
      disconnectBlocks reorgEnv ([(reorgBlock, reorgIndex)].zip undos).reverse v'
      = .ok ([.ok], v'') ∧
      v''.view = reorgView.view ∧ v''.bestBlock = reorgView.bestBlock := by
  have accepted :
      (connectBlocks reorgEnv [(reorgBlock, reorgIndex)] reorgView).toOption.isSome := by
    decide +kernel
  obtain ⟨⟨v', undos⟩, returned⟩ := Option.isSome_iff_exists.mp accepted
  have connected := toOption_eq_some.mp returned
  have checks : ∀ entry ∈ [(reorgBlock, reorgIndex)], ChecksOverwrite reorgEnv entry.1 entry.2 := by
    intro entry member
    obtain rfl := mem_singleton.mp member
    exact ⟨by decide, .genesis (reorgFields 1), rfl, by decide +kernel⟩
  obtain ⟨v'', disconnected, view, best⟩ :=
    disconnect_undoes_connect reorgEnv _ (.onto (by decide +kernel)) checks connected
  exact ⟨v', undos, v'', connected, disconnected, view, best⟩

end HobbyHash.Validation
