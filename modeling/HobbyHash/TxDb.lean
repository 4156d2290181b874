import HobbyHash.Coins.View
import HobbyHash.Library.WriteLog

/-! # The coins database

`CCoinsViewDB` writes a cache in batches, each of which reaches the disk as a
whole or not at all. The first batch replaces the best block by a marker with the
new and the old tip, the last one does the opposite, and the coins go in between
in whatever order the cache lists them. A crash leaves some of the batches.
-/

namespace HobbyHash

open Machine Library WriteLog List Function

/-- One operation of a `CDBBatch`. -/
inductive DbOp where
  | writeCoin (outpoint : COutPoint) (coin : Coin)
  | eraseCoin (outpoint : COutPoint)
  | writeBestBlock (hash : Uint256)
  | eraseBestBlock
  | writeHeadBlocks (hashes : List Uint256)
  | eraseHeadBlocks

/-- `CCoinsViewDB`. A best block that is not stored is null, and head blocks that
    are not stored are none. -/
structure CCoinsViewDB where
  coins : CoinMap
  bestBlock : Uint256
  headBlocks : List Uint256

namespace CCoinsViewDB

def apply (db : CCoinsViewDB) : DbOp → CCoinsViewDB
  | .writeCoin outpoint coin => { db with coins := db.coins.insert outpoint coin }
  | .eraseCoin outpoint => { db with coins := db.coins.erase outpoint }
  | .writeBestBlock hash => { db with bestBlock := hash }
  | .eraseBestBlock => { db with bestBlock := 0 }
  | .writeHeadBlocks hashes => { db with headBlocks := hashes }
  | .eraseHeadBlocks => { db with headBlocks := [] }

def applyAll (db : CCoinsViewDB) (ops : List DbOp) : CCoinsViewDB :=
  ops.foldl apply db

/-- `CDBWrapper::WriteBatch`, for one batch after the other. -/
def writeBatches (db : CCoinsViewDB) (batches : List (List DbOp)) : CCoinsViewDB :=
  batches.foldl applyAll db

/-- What the loop of `BatchWrite` adds to the batch for one entry. -/
def entryOps (entry : (_ : COutPoint) × CCoinsCacheEntry) : List DbOp :=
  if entry.2.dirty then
    if entry.2.coin.isSpent then [.eraseCoin entry.1] else [.writeCoin entry.1 entry.2.coin]
  else []

/-- The loop of `BatchWrite`: the batches it writes, given the one at hand and
    what goes into the last. `full` stands for the comparison of the batch's size
    with `batch_write_bytes`. -/
def partialBatches (full : List DbOp → Bool) (final : List DbOp) :
    List ((_ : COutPoint) × CCoinsCacheEntry) → List DbOp → List (List DbOp)
  | [], batch => [batch ++ final]
  | entry :: rest, batch =>
    if full (batch ++ entryOps entry) then
      (batch ++ entryOps entry) :: partialBatches full final rest []
    else partialBatches full final rest (batch ++ entryOps entry)

/-- The tip that `BatchWrite` moves away from. -/
def oldTip (db : CCoinsViewDB) (hashBlock : Uint256) : Except Fault Uint256 :=
  if db.bestBlock = 0 then
    match db.headBlocks with
    | [newHead, oldHead] =>
      if newHead = hashBlock then .ok oldHead
      else .error (.assertion "old_heads[0] == hashBlock")
    | _ => .ok 0
  else .ok db.bestBlock

/-- `BatchWrite`: the batches that it writes to the disk. -/
def batchWrite (full : List DbOp → Bool) (db : CCoinsViewDB) (mapCoins : CCoinsMap)
    (hashBlock : Uint256) : Except Fault (List (List DbOp)) := do
  assert (hashBlock != 0) "!hashBlock.IsNull()"
  let old_tip ← db.oldTip hashBlock
  return partialBatches full [.eraseHeadBlocks, .writeBestBlock hashBlock] mapCoins.entries
    [.eraseBestBlock, .writeHeadBlocks [hashBlock, old_tip]]

def toBase (db : CCoinsViewDB) : CoinsBase := ⟨db.coins, db.bestBlock⟩

def view (db : CCoinsViewDB) : CoinsView := db.toBase.view

variable {db : CCoinsViewDB} {full : List DbOp → Bool} {final batch : List DbOp}
  {entries : List ((_ : COutPoint) × CCoinsCacheEntry)}

def entryLog (entry : (_ : COutPoint) × CCoinsCacheEntry) : List (COutPoint × Option Coin) :=
  if entry.2.dirty then [(entry.1, entry.2.coin.unspent)] else []

theorem applyAll_append (db : CCoinsViewDB) (ops later : List DbOp) :
    db.applyAll (ops ++ later) = (db.applyAll ops).applyAll later :=
  foldl_append

theorem writeBatches_eq (db : CCoinsViewDB) (batches : List (List DbOp)) :
    db.writeBatches batches = db.applyAll batches.flatten := by
  induction batches generalizing db with
  | nil => rfl
  | cons batch rest ih =>
    rw [flatten_cons, applyAll_append]
    exact ih (db.applyAll batch)

theorem applyAll_entryOps (db : CCoinsViewDB) (entry : (_ : COutPoint) × CCoinsCacheEntry) :
    (db.applyAll (entryOps entry)).view = replay (entryLog entry) db.view ∧
      (db.applyAll (entryOps entry)).bestBlock = db.bestBlock ∧
      (db.applyAll (entryOps entry)).headBlocks = db.headBlocks := by
  simp only [entryOps, entryLog]
  cases entry.2.dirty with
  | false => exact ⟨rfl, rfl, rfl⟩
  | true =>
    cases spent : entry.2.coin.isSpent with
    | true =>
      refine ⟨?_, rfl, rfl⟩
      funext o
      change ((db.coins.erase entry.1).lookup o).bind Coin.unspent =
        update db.view entry.1 entry.2.coin.unspent o
      by_cases here : o = entry.1
      · subst here
        rw [AList.lookup_erase, update_self, Coin.unspent_eq_none.mpr spent]
        rfl
      · rw [AList.lookup_erase_ne here, update_of_ne here]
        rfl
    | false =>
      refine ⟨?_, rfl, rfl⟩
      funext o
      change ((db.coins.insert entry.1 entry.2.coin).lookup o).bind Coin.unspent =
        update db.view entry.1 entry.2.coin.unspent o
      by_cases here : o = entry.1
      · subst here
        rw [AList.lookup_insert, update_self]
        rfl
      · rw [AList.lookup_insert_ne here, update_of_ne here]
        rfl

theorem applyAll_entries (db : CCoinsViewDB) (entries : List ((_ : COutPoint) × CCoinsCacheEntry)) :
    (db.applyAll (entries.flatMap entryOps)).view = replay (entries.flatMap entryLog) db.view ∧
      (db.applyAll (entries.flatMap entryOps)).bestBlock = db.bestBlock ∧
      (db.applyAll (entries.flatMap entryOps)).headBlocks = db.headBlocks := by
  induction entries generalizing db with
  | nil => exact ⟨rfl, rfl, rfl⟩
  | cons entry rest ih =>
    obtain ⟨view, best, heads⟩ := applyAll_entryOps db entry
    obtain ⟨viewRest, bestRest, headsRest⟩ := ih (db.applyAll (entryOps entry))
    rw [flatMap_cons, flatMap_cons, applyAll_append, replay_append, ← view]
    exact ⟨viewRest, bestRest.trans best, headsRest.trans heads⟩

theorem partialBatches_flatten (full : List DbOp → Bool) (final batch : List DbOp)
    (entries : List ((_ : COutPoint) × CCoinsCacheEntry)) :
    (partialBatches full final entries batch).flatten =
      batch ++ entries.flatMap entryOps ++ final := by
  induction entries generalizing batch with
  | nil => simp [partialBatches]
  | cons entry rest ih =>
    simp only [partialBatches]
    split
    · simp [ih]
    · simp [ih]

theorem partialBatches_take (begun : 0 < k)
    (lt : k < (partialBatches full final entries batch).length) :
    ∃ done rest, entries = done ++ rest ∧
      ((partialBatches full final entries batch).take k).flatten
      = batch ++ done.flatMap entryOps := by
  induction entries generalizing batch k with
  | nil =>
    simp only [partialBatches, length_singleton] at lt
    omega
  | cons entry rest ih =>
    simp only [partialBatches] at lt ⊢
    split at lt
    · rename_i isFull
      rw [if_pos isFull]
      obtain ⟨j, rfl⟩ : ∃ j, k = j + 1 := ⟨k - 1, by omega⟩
      obtain rfl | more := Nat.eq_zero_or_pos j
      · exact ⟨[entry], rest, rfl, by simp⟩
      · obtain ⟨done, left, split, taken⟩ := ih more (Nat.lt_of_succ_lt_succ lt)
        exact ⟨entry :: done, left, by rw [split]; rfl, by simp [taken]⟩
    · rename_i notFull
      rw [if_neg notFull]
      obtain ⟨done, left, split, taken⟩ := ih begun lt
      exact ⟨entry :: done, left, by rw [split]; rfl, by simp [taken]⟩

theorem entryLog_keys (entries : List ((_ : COutPoint) × CCoinsCacheEntry)) :
    ((entries.flatMap entryLog).map Prod.fst).Sublist entries.keys := by
  induction entries with
  | nil => exact .slnil
  | cons entry rest ih =>
    rw [flatMap_cons, map_append, keys_cons, entryLog]
    split
    · exact ih.cons_cons _
    · exact ih.cons _

theorem replay_entryLog {l : Layer} (valid : l.Valid True under) :
    replay (l.cacheCoins.entries.flatMap entryLog) under = l.view under := by
  have ne := (entryLog_keys l.cacheCoins.entries).nodup l.cacheCoins.nodupKeys
  funext o
  cases located : l.cacheCoins.lookup o with
  | none =>
    have nmem : o ∉ (l.cacheCoins.entries.flatMap entryLog).map Prod.fst := fun listed =>
      AList.lookup_eq_none.mp located ((entryLog_keys _).subset listed)
    rw [replay_of_notMem nmem, Layer.view_of_absent located]
  | some entry =>
    have mem : ⟨o, entry⟩ ∈ l.cacheCoins.entries := AList.mem_lookup_iff.mp located
    rw [Layer.view_of_lookup located]
    cases dirty : entry.dirty with
    | true =>
      refine replay_of_last (last_of_mem ne (mem_flatMap.mpr ⟨_, mem, ?_⟩)) _
      rw [entryLog, if_pos dirty]
      exact mem_singleton_self _
    | false =>
      have nmem : o ∉ (l.cacheCoins.entries.flatMap entryLog).map Prod.fst := by
        intro listed
        obtain ⟨write, written, same⟩ := mem_map.mp listed
        obtain ⟨other, inMap, fromOther⟩ := mem_flatMap.mp written
        rw [entryLog] at fromOther
        split at fromOther
        · rename_i otherDirty
          obtain rfl := mem_singleton.mp fromOther
          have again : l.cacheCoins.lookup o = some other.2 :=
            AList.mem_lookup_iff.mpr (same ▸ inMap)
          obtain rfl := Option.some.inj (located.symm.trans again)
          cases dirty.symm.trans otherDirty
        · cases fromOther
      rw [replay_of_notMem nmem]
      exact ((valid o entry located).clean dirty).symm

/-- The database between two tips: marked, with every coin in its old or in its
    new state. -/
structure Recovering (oldHash newHash : Uint256) (uOld uNew : CoinsView) (db : CCoinsViewDB) :
    Prop where
  bestBlock : db.bestBlock = 0
  headBlocks : db.headBlocks = [newHash, oldHash]
  mixture : ∀ o, db.view o = uOld o ∨ db.view o = uNew o

structure AtTip (hash : Uint256) (u : CoinsView) (db : CCoinsViewDB) : Prop where
  bestBlock : db.bestBlock = hash
  headBlocks : db.headBlocks = []
  view : db.view = u

variable {l : Layer} {oldHash newHash : Uint256} {uOld uNew : CoinsView}
  {batches : List (List DbOp)}

theorem batchWrite_eq (tip : db.oldTip newHash = .ok oldHash)
    (written : db.batchWrite full l.cacheCoins newHash = .ok batches) :
    batches = partialBatches full [.eraseHeadBlocks, .writeBestBlock newHash] l.cacheCoins.entries
      [.eraseBestBlock, .writeHeadBlocks [newHash, oldHash]] := by
  obtain ⟨-, -, written⟩ := bind_eq_ok.mp written
  rw [tip] at written
  exact (Except.ok.inj written).symm

theorem batchWrite_complete (valid : l.Valid True db.view) (shown : l.view db.view = uNew)
    (tip : db.oldTip newHash = .ok oldHash)
    (written : db.batchWrite full l.cacheCoins newHash = .ok batches) :
    AtTip newHash uNew (db.writeBatches batches) := by
  obtain ⟨view, -, -⟩ := applyAll_entries
    (db.applyAll [.eraseBestBlock, .writeHeadBlocks [newHash, oldHash]]) l.cacheCoins.entries
  rw [batchWrite_eq tip written, writeBatches_eq, partialBatches_flatten, applyAll_append,
    applyAll_append]
  exact ⟨rfl, rfl, view.trans ((replay_entryLog valid).trans shown)⟩

theorem batchWrite_interrupted (valid : l.Valid True db.view)
    (mixture : ∀ o, db.view o = uOld o ∨ db.view o = uNew o) (shown : l.view db.view = uNew)
    (tip : db.oldTip newHash = .ok oldHash)
    (written : db.batchWrite full l.cacheCoins newHash = .ok batches) (lt : 0 < k) :
    Recovering oldHash newHash uOld uNew (db.writeBatches (batches.take k)) ∨
      AtTip newHash uNew (db.writeBatches (batches.take k)) := by
  by_cases notAll : k < batches.length
  · rw [batchWrite_eq tip written] at notAll ⊢
    obtain ⟨done, rest, split, taken⟩ := partialBatches_take lt notAll
    rw [writeBatches_eq, taken, applyAll_append]
    obtain ⟨view, best, heads⟩ := applyAll_entries
      (db.applyAll [.eraseBestBlock, .writeHeadBlocks [newHash, oldHash]]) done
    have whole := replay_entryLog valid
    have ne := (entryLog_keys l.cacheCoins.entries).nodup l.cacheCoins.nodupKeys
    rw [split, flatMap_append] at whole ne
    refine .inl ⟨best, heads, fun o => ?_⟩
    rw [view]
    obtain same | changed := replay_prefix ne db.view o
    · obtain isOld | isNew := mixture o
      · exact .inl (same.trans isOld)
      · exact .inr (same.trans isNew)
    · rw [whole, shown] at changed
      exact .inr changed
  · rw [take_of_length_le (not_lt.mp notAll)]
    exact .inr (batchWrite_complete valid shown tip written)

end CCoinsViewDB

end HobbyHash
