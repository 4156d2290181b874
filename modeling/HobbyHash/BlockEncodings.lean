import HobbyHash.Validation.Transaction

/-! # Compact blocks

`CBlockHeaderAndShortTxIDs` and `PartiallyDownloadedBlock` of `blockencodings.cpp`. A
message holds some transactions of a block with their places, each counted from the
one before, and short ids for the others. `InitData` puts the former into their slots,
gives the short ids the slots that are left, in order, and looks for transactions with
these ids in the memory pool and among the extra transactions. Accesses out of range
are faults here. The hash functions, the order of the pool and the buckets of the hash
table are parameters.
-/

namespace HobbyHash.BlockEncodings

open Machine Validation Library List UInt16

inductive ReadStatus where
  | ok
  | invalid
  | failed
  | checkblockFailed
  deriving DecidableEq, Repr

structure PrefilledTransaction where
  index : UInt16
  tx : CTransaction
  deriving DecidableEq, Repr

structure CBlockHeaderAndShortTxIDs where
  header : CBlockHeader
  nonce : UInt64
  shorttxids : List UInt64
  prefilledtxn : List PrefilledTransaction
  deriving DecidableEq, Repr

structure PartiallyDownloadedBlock where
  header : CBlockHeader
  txnAvailable : List (Option CTransaction)
  prefilledCount : UInt64
  mempoolCount : UInt64
  extraCount : UInt64
  deriving DecidableEq, Repr

def nullHeader : CBlockHeader := ⟨⟨0, 0, 0, 0, 0⟩, 0⟩

def isNullHeader (header : CBlockHeader) : Bool := header.nBits == 0

def isNullTx (tx : CTransaction) : Bool := tx.vin.isEmpty && tx.vout.isEmpty

def minSerializableTransactionWeight : Nat := witnessScaleFactor * 10

def PartiallyDownloadedBlock.empty : PartiallyDownloadedBlock := ⟨nullHeader, [], 0, 0, 0⟩

def CBlockHeaderAndShortTxIDs.blockTxCount (cmpctblock : CBlockHeaderAndShortTxIDs) : Nat :=
  cmpctblock.shorttxids.length + cmpctblock.prefilledtxn.length

/-- The check that ends the deserialization of a message. -/
def CBlockHeaderAndShortTxIDs.Deserialized (cmpctblock : CBlockHeaderAndShortTxIDs) : Prop :=
  cmpctblock.blockTxCount ≤ 65535

section Slots

variable {α : Type}

def outOfRange : Fault := .exception "index out of range"

/-- A null pointer among the extra transactions that is followed. -/
def nullExtra : Fault := .exception "null extra_txn"

def readSlot (slots : List α) (i : Nat) : Except Fault α :=
  match slots[i]? with
  | some value => .ok value
  | none => .error outOfRange

def writeSlot (slots : List α) (i : Nat) (value : α) : Except Fault (List α) :=
  if i < slots.length then .ok (slots.set i value) else .error outOfRange

theorem ensures_readSlot (inside : i < slots.length) :
    Ensures bad (readSlot slots i) fun _ => True := by
  rw [readSlot, getElem?_eq_getElem inside]
  exact trivial

theorem writeSlot_of_lt (inside : i < slots.length) (value : α) :
    writeSlot slots i value = .ok (slots.set i value) :=
  if_pos inside

/-- The slots without a value, counted from `k` on. -/
def freeFrom (k : Nat) : List (Option α) → List Nat
  | [] => []
  | none :: slots => k :: freeFrom (k + 1) slots
  | some _ :: slots => freeFrom (k + 1) slots

def freeSlots (slots : List (Option α)) : List Nat := freeFrom 0 slots

theorem length_freeFrom (k : Nat) (slots : List (Option α)) :
    (freeFrom k slots).length = slots.countP Option.isNone := by
  induction slots generalizing k with
  | nil => rfl
  | cons slot slots ih => cases slot <;> simp [freeFrom, ih]

theorem mem_freeFrom {k slot : Nat} (mem : slot ∈ freeFrom k slots) :
    k ≤ slot ∧ slot < k + slots.length := by
  induction slots generalizing k with
  | nil => cases mem
  | cons value slots ih =>
    rw [length_cons]
    cases value with
    | none =>
      rcases mem_cons.mp mem with rfl | later
      · omega
      · have := ih later
        omega
    | some value =>
      have := ih mem
      omega

end Slots

section Message

/-- What the messages are hashed with: the keys that `FillShortTxIDSelector` takes from
    the header and the nonce, `SipHashUint256`, and `GetWitnessHash`. -/
structure Hashes where
  selector : CBlockHeader → UInt64 → UInt64 × UInt64
  sipHashUint256 : UInt64 → UInt64 → Uint256 → UInt64
  getWitnessHash : CTransaction → Uint256

variable (hashes : Hashes)

def getShortID (header : CBlockHeader) (nonce : UInt64) (txhash : Uint256) : UInt64 :=
  hashes.sipHashUint256 (hashes.selector header nonce).1 (hashes.selector header nonce).2 txhash &&&
    0xffffffffffff

/-- The constructor of `CBlockHeaderAndShortTxIDs` for a block and a nonce. -/
def ofBlock (block : CBlock) (nonce : UInt64) : Except Fault CBlockHeaderAndShortTxIDs :=
  match block.vtx with
  | [] => .error outOfRange
  | first :: rest =>
    .ok { header := block.toCBlockHeader
          nonce := nonce
          shorttxids := rest.map fun tx =>
            getShortID hashes block.toCBlockHeader nonce (hashes.getWitnessHash tx)
          prefilledtxn := [⟨0, first⟩] }

end Message

def placePrefilled (nShort : Nat) (i : Nat) (lastprefilledindex : Int)
    (txnAvailable : List (Option CTransaction)) :
    List PrefilledTransaction → Except Fault (ReadStatus × List (Option CTransaction))
  | [] => .ok (.ok, txnAvailable)
  | prefilled :: rest =>
    if isNullTx prefilled.tx then .ok (.invalid, txnAvailable)
    else
      let lastprefilledindex := lastprefilledindex + (prefilled.index.toNat + 1)
      if lastprefilledindex > 65535 then .ok (.invalid, txnAvailable)
      else if lastprefilledindex.toNat > nShort + i then .ok (.invalid, txnAvailable)
      else do
        let txnAvailable ← writeSlot txnAvailable lastprefilledindex.toNat (some prefilled.tx)
        placePrefilled nShort (i + 1) lastprefilledindex txnAvailable rest

/-- The loop that moves `index_offset` over slots that are taken. It is a `uint16_t`;
    where it would wrap the model stops. -/
def skipTaken (txnAvailable : List (Option CTransaction)) (i index_offset : Nat) :
    Except Fault Nat :=
  if i + index_offset < txnAvailable.length then
    match txnAvailable[i + index_offset]? with
    | some (some _) =>
      if index_offset < 65535 then skipTaken txnAvailable i (index_offset + 1)
      else .error (.exception "index_offset wraps")
    | _ => .ok index_offset
  else .error outOfRange
termination_by txnAvailable.length - (i + index_offset)

abbrev ShortIdMap := List (UInt64 × UInt16)

variable {slot : UInt16} {id : UInt64} {pairs : List (UInt64 × Nat)} {table : ShortIdMap}

def ShortIdMap.insert (shorttxids : ShortIdMap) (id : UInt64) (slot : UInt16) : ShortIdMap :=
  if shorttxids.any (·.1 = id) then shorttxids.map fun e => if e.1 = id then (id, slot) else e
  else shorttxids ++ [(id, slot)]

def ShortIdMap.find (shorttxids : ShortIdMap) (id : UInt64) : Option UInt16 :=
  (find? (·.1 = id) shorttxids).map (·.2)

/-- The loop that assigns slots to the short ids. The size of the bucket of an id
    depends on the ids in the table. -/
def assignSlots (bucketSize : List UInt64 → UInt64 → Nat)
    (txnAvailable : List (Option CTransaction))
    (i index_offset : Nat) (shorttxids : ShortIdMap) :
    List UInt64 → Except Fault (ReadStatus × ShortIdMap)
  | [] => .ok (.ok, shorttxids)
  | id :: ids => do
    let index_offset ← skipTaken txnAvailable i index_offset
    let shorttxids := shorttxids.insert id (ofNat (i + index_offset))
    if bucketSize (shorttxids.map (·.1)) id > 12 then return (.failed, shorttxids)
    assignSlots bucketSize txnAvailable (i + 1) index_offset shorttxids ids

structure Search where
  txnAvailable : List (Option CTransaction)
  haveTxn : List Bool
  mempoolCount : UInt64
  extraCount : UInt64

section Searches

variable (hashes : Hashes) (shortID : Uint256 → UInt64) (shorttxids : ShortIdMap)

/-- The body of the loop over the memory pool. -/
def matchPool (search : Search) (tx : CTransaction) : Except Fault Search :=
  match shorttxids.find (shortID (hashes.getWitnessHash tx)) with
  | none => .ok search
  | some slot => do
    if !(← readSlot search.haveTxn slot.toNat) then
      return { search with
        txnAvailable := ← writeSlot search.txnAvailable slot.toNat (some tx)
        haveTxn := ← writeSlot search.haveTxn slot.toNat true
        mempoolCount := search.mempoolCount + 1 }
    else
      match ← readSlot search.txnAvailable slot.toNat with
      | none => return search
      | some _ =>
        return { search with
          txnAvailable := ← writeSlot search.txnAvailable slot.toNat none
          mempoolCount := search.mempoolCount - 1 }

def searchPool (search : Search) : List CTransaction → Except Fault Search
  | [] => .ok search
  | tx :: pool => do
    let search ← matchPool hashes shortID shorttxids search tx
    if search.mempoolCount = UInt64.ofNat shorttxids.length then return search
    searchPool search pool

/-- The body of the loop over the extra transactions, which may be null. -/
def matchExtra (search : Search) (extra : Uint256 × Option CTransaction) : Except Fault Search :=
  match shorttxids.find (shortID extra.1) with
  | none => .ok search
  | some slot => do
    if !(← readSlot search.haveTxn slot.toNat) then
      return { txnAvailable := ← writeSlot search.txnAvailable slot.toNat extra.2
               haveTxn := ← writeSlot search.haveTxn slot.toNat true
               mempoolCount := search.mempoolCount + 1
               extraCount := search.extraCount + 1 }
    else
      match ← readSlot search.txnAvailable slot.toNat, extra.2 with
      | none, _ => return search
      | some _, none => throw nullExtra
      | some tx, some other =>
        if hashes.getWitnessHash tx ≠ hashes.getWitnessHash other then
          return { search with
            txnAvailable := ← writeSlot search.txnAvailable slot.toNat none
            mempoolCount := search.mempoolCount - 1
            extraCount := search.extraCount - 1 }
        else return search

def searchExtra (search : Search) : List (Uint256 × Option CTransaction) → Except Fault Search
  | [] => .ok search
  | extra :: extra_txn => do
    let search ← matchExtra hashes shortID shorttxids search extra
    if search.mempoolCount = UInt64.ofNat shorttxids.length then return search
    searchExtra search extra_txn

end Searches

section Download

variable (hashes : Hashes) (bucketSize : List UInt64 → UInt64 → Nat) (pool : List CTransaction)

/-- `InitData`: the status, and the object afterwards. -/
def initData (pdb : PartiallyDownloadedBlock) (cmpctblock : CBlockHeaderAndShortTxIDs)
    (extra_txn : List (Uint256 × Option CTransaction)) :
    Except Fault (ReadStatus × PartiallyDownloadedBlock) := do
  if isNullHeader cmpctblock.header ||
      (cmpctblock.shorttxids.isEmpty && cmpctblock.prefilledtxn.isEmpty) then
    return (.invalid, pdb)
  if cmpctblock.shorttxids.length + cmpctblock.prefilledtxn.length >
      maxBlockWeight / minSerializableTransactionWeight then
    return (.invalid, pdb)
  if !isNullHeader pdb.header || !pdb.txnAvailable.isEmpty then return (.invalid, pdb)
  let (status, txnAvailable) ← placePrefilled cmpctblock.shorttxids.length 0 (-1)
    (replicate cmpctblock.blockTxCount none) cmpctblock.prefilledtxn
  let pdb := { pdb with header := cmpctblock.header, txnAvailable := txnAvailable }
  if status ≠ .ok then return (status, pdb)
  let pdb := { pdb with prefilledCount := UInt64.ofNat cmpctblock.prefilledtxn.length }
  let (status, shorttxids) ← assignSlots bucketSize txnAvailable 0 0 [] cmpctblock.shorttxids
  if status ≠ .ok then return (status, pdb)
  if shorttxids.length ≠ cmpctblock.shorttxids.length then return (.failed, pdb)
  let shortID := getShortID hashes cmpctblock.header cmpctblock.nonce
  let search : Search :=
    ⟨txnAvailable, replicate txnAvailable.length false, pdb.mempoolCount, pdb.extraCount⟩
  let search ← searchPool hashes shortID shorttxids search pool
  let search ← searchExtra hashes shortID shorttxids search extra_txn
  return (.ok, { pdb with
    txnAvailable := search.txnAvailable
    mempoolCount := search.mempoolCount
    extraCount := search.extraCount })

/-- The loop of `FillBlock`: the transactions and the missing ones that are left. -/
def fillVtx : List (Option CTransaction) → List CTransaction →
    Option (List CTransaction × List CTransaction)
  | [], missing => some ([], missing)
  | none :: _, [] => none
  | none :: available, tx :: missing =>
    (fillVtx available missing).map fun (vtx, left) => (tx :: vtx, left)
  | some tx :: available, missing =>
    (fillVtx available missing).map fun (vtx, left) => (tx :: vtx, left)

/-- The slots that the loop of `FillBlock` leaves when the missing transactions run
    out: those before it were moved from. -/
def movedFrom : List (Option CTransaction) → List CTransaction → List (Option CTransaction)
  | [], _ => []
  | none :: available, [] => none :: available
  | none :: available, _ :: missing => none :: movedFrom available missing
  | some _ :: available, missing => none :: movedFrom available missing

/-- How `CheckBlock` ends. -/
inductive CheckedBlock where
  | valid
  | mutated
  | other

def CheckedBlock.status : CheckedBlock → ReadStatus
  | .valid => .ok
  | .mutated => .failed
  | .other => .checkblockFailed

/-- `FillBlock`: the status, the block where it was filled, and the object afterwards. -/
def fillBlock (checkBlock : CBlock → CheckedBlock) (pdb : PartiallyDownloadedBlock)
    (vtxMissing : List CTransaction) : ReadStatus × Option CBlock × PartiallyDownloadedBlock :=
  if isNullHeader pdb.header then (.invalid, none, pdb)
  else
    match fillVtx pdb.txnAvailable vtxMissing with
    | none =>
      (.invalid, none, { pdb with txnAvailable := movedFrom pdb.txnAvailable vtxMissing })
    | some (vtx, left) =>
      let block : CBlock := { pdb.header with vtx := vtx }
      let pdb := { pdb with header := nullHeader, txnAvailable := [] }
      if left ≠ [] then (.invalid, some block, pdb)
      else ((checkBlock block).status, some block, pdb)

end Download

/-- The slots while transactions are put into them: behind the last one all are free,
    and each took a slot of its own. -/
structure Placing (n placed : Nat) (last : Int) (available : List (Option CTransaction)) :
    Prop where
  length : available.length = n
  behind : ∀ j : Nat, last < j → j < n → available[j]? = some none
  count : available.countP Option.isNone + placed = n

theorem placing_start (n : Nat) : Placing n 0 (-1) (replicate n none) where
  length := by simp
  behind := by
    intro j _ inside
    simp [inside]
  count := by simp [countP_replicate]

theorem Placing.place {next} (placing : Placing n placed last available) (later : last < next)
    (le : 0 ≤ next) (inside : next.toNat < n) (tx : CTransaction) :
    Placing n (placed + 1) next (available.set next.toNat (some tx)) := by
  have free := placing.behind next.toNat (by omega) inside
  have bound : next.toNat < available.length := by
    rw [placing.length]
    exact inside
  constructor
  case length => rw [length_set, placing.length]
  case behind =>
    intro j after lt
    rw [getElem?_set_ne (by omega)]
    exact placing.behind j (by omega) lt
  case count =>
    have value : available[next.toNat] = none := by
      rw [getElem?_eq_getElem bound] at free
      exact Option.some.inj free
    have some' : 0 < available.countP Option.isNone :=
      countP_pos_iff.mpr ⟨none, value ▸ getElem_mem bound, rfl⟩
    have total := placing.count
    rw [countP_set bound, value]
    simp only [Option.isNone_none, Option.isNone_some, if_true, Bool.false_eq_true, if_false]
    omega

section Assignment

variable {bad : Fault → Prop}

/-- Prefilled transactions go into slots that exist and leave as many as there are
    short ids. -/
theorem placePrefilled_spec {nShort i last available prefilled} (low : -1 ≤ last)
    (placing : Placing (nShort + i + prefilled.length) i last available) :
    Ensures bad (placePrefilled nShort i last available prefilled) fun placed =>
      placed.1 = .ok → placed.2.length = nShort + i + prefilled.length ∧
        placed.2.countP Option.isNone = nShort := by
  induction prefilled generalizing i last available with
  | nil => exact .pure fun _ => ⟨placing.length, Nat.add_right_cancel placing.count⟩
  | cons first rest ih =>
    rw [placePrefilled]
    split
    · exact .pure nofun
    simp only
    split
    · exact .pure nofun
    split
    · exact .pure nofun
    rename_i near
    rw [length_cons] at placing ⊢
    have inside : (last + (first.index.toNat + 1)).toNat < nShort + i + (rest.length + 1) := by
      omega
    have next := placing.place (by omega) (by omega) inside first.tx
    have total : nShort + i + (rest.length + 1) = nShort + (i + 1) + rest.length := by omega
    rw [writeSlot_of_lt (by rw [placing.length]; exact inside)]
    rw [total] at next ⊢
    exact ih (by omega) next

variable {available : List (Option CTransaction)}

theorem drop_of_getElem? (found : available[k]? = some value) :
    available.drop k = value :: available.drop (k + 1) := by
  obtain ⟨inside, rfl⟩ := List.getElem?_eq_some_iff.mp found
  exact drop_eq_getElem_cons inside

theorem skipTaken_spec {i offset slot free} (few : available.length ≤ 65535)
    (ahead : freeFrom (i + offset) (available.drop (i + offset)) = slot :: free) :
    ∃ offset', skipTaken available i offset = .ok offset' ∧ i + offset' = slot ∧
      freeFrom (slot + 1) (available.drop (slot + 1)) = free := by
  induction offset using skipTaken.induct available i with
  | case1 offset inside tx taken small ih =>
    rw [drop_of_getElem? taken, freeFrom] at ahead
    rw [skipTaken, if_pos inside, taken]
    simp only [if_pos small]
    exact ih ahead
  | case2 offset inside tx taken large => omega
  | case3 offset inside notTaken =>
    rw [skipTaken, if_pos inside]
    split
    · rename_i tx taken
      exact absurd taken (notTaken tx)
    cases found : available[i + offset]? with
    | none => exact absurd (getElem?_eq_none_iff.mp found) (Nat.not_le.mpr inside)
    | some value =>
      cases value with
      | some tx => exact absurd found (notTaken tx)
      | none =>
        rw [drop_of_getElem? found, freeFrom] at ahead
        cases ahead
        exact ⟨offset, rfl, rfl, rfl⟩
  | case4 offset outside =>
    rw [drop_eq_nil_of_le (Nat.not_lt.mp outside)] at ahead
    cases ahead

def assigned (shorttxids : ShortIdMap) (pairs : List (UInt64 × Nat)) : ShortIdMap :=
  pairs.foldl (fun table pair => table.insert pair.1 (ofNat pair.2)) shorttxids

/-- No id comes into a bucket with more than twelve. -/
def BucketsFit (bucketSize : List UInt64 → UInt64 → Nat) (ids : List UInt64) : Prop :=
  ∀ front id back, ids = front ++ id :: back → bucketSize (front ++ [id]) id ≤ 12

theorem ShortIdMap.insert_fresh (slot : UInt16) (ne : (table.map (·.1) ++ id :: ids).Nodup) :
    table.insert id slot = table ++ [(id, slot)] := by
  rw [insert, if_neg]
  intro present
  obtain ⟨e, mem, same⟩ := any_eq_true.mp present
  exact (nodup_append.mp ne).2.2 e.1 (mem_map_of_mem mem) id mem_cons_self
    (of_decide_eq_true same)

/-- Each short id gets the next free slot, up to a bucket that is too large. -/
theorem assignSlots_spec {bucketSize : List UInt64 → UInt64 → Nat} {available i offset}
    {shorttxids : ShortIdMap} {ids free} (few : available.length ≤ 65535)
    (ahead : freeFrom (i + offset) (available.drop (i + offset)) = free)
    (le : ids.length ≤ free.length) :
    Ensures bad (assignSlots bucketSize available i offset shorttxids ids) fun res =>
      ∃ k, res.2 = assigned shorttxids ((ids.zip free).take k) ∧
        (res.1 = .ok → k = ids.length) ∧
        ((shorttxids.map (·.1) ++ ids).Nodup →
          BucketsFit bucketSize (shorttxids.map (·.1) ++ ids) → res.1 = .ok) := by
  induction ids generalizing i offset shorttxids free with
  | nil => exact ⟨0, rfl, fun _ => rfl, fun _ _ => rfl⟩
  | cons id ids ih =>
    cases free with
    | nil => simp at le
    | cons slot free =>
      obtain ⟨offset', skipped, isSlot, rest⟩ := skipTaken_spec few ahead
      have keys (ne : (shorttxids.map (·.1) ++ id :: ids).Nodup) :
          (shorttxids.insert id (ofNat slot)).map (·.1) = shorttxids.map (·.1) ++ [id] := by
        rw [ShortIdMap.insert_fresh _ ne, map_append]
        rfl
      simp only [assignSlots, skipped, ok_bind, isSlot]
      split
      · rename_i full
        refine ⟨1, rfl, nofun, fun ne fits => absurd full ?_⟩
        rw [keys ne]
        exact Nat.not_lt.mpr (fits _ id ids rfl)
      rw [← isSlot, show i + offset' + 1 = i + 1 + offset' by omega] at rest
      refine (@ih (i + 1) offset' (shorttxids.insert id (ofNat slot)) free rest
        (by simpa using le)).mono ?_
      rintro res ⟨k, ran, all, passes⟩
      refine ⟨k + 1, ran, fun ok => by rw [all ok, length_cons], fun ne fits => passes ?_ ?_⟩
      · rwa [keys ne, append_assoc]
      · rwa [keys ne, append_assoc]

theorem length_assigned (ne : (table.map (·.1) ++ pairs.map (·.1)).Nodup) :
    (assigned table pairs).length = table.length + pairs.length := by
  induction pairs generalizing table with
  | nil => rfl
  | cons pair pairs ih =>
    have inserted := ShortIdMap.insert_fresh (ofNat pair.2) ne
    have later := @ih (table.insert pair.1 (ofNat pair.2)) (by
      rw [inserted, map_append, append_assoc]
      exact ne)
    rw [inserted, length_append] at later
    rw [assigned, foldl_cons, inserted, length_cons]
    exact later.trans (by simp; omega)

end Assignment

/-- The lengths of the slots, and a property of the transactions in them. -/
structure Search.Sound (n : Nat) (good : Nat → CTransaction → Prop) (search : Search) : Prop where
  available : search.txnAvailable.length = n
  have_ : search.haveTxn.length = n
  good : ∀ i tx, search.txnAvailable[i]? = some (some tx) → good i tx

variable {hashes : Hashes} {shortID : Uint256 → UInt64} {shorttxids : ShortIdMap}
  {n : Nat} {good : Nat → CTransaction → Prop} {search : Search}

theorem Search.Sound.set (sound : search.Sound n good) (i : Nat) (value : Option CTransaction)
    (right : ∀ tx, value = some tx → good i tx) (eq : have'.length = n)
    (mempoolCount extraCount : UInt64) :
    Search.Sound n good ⟨search.txnAvailable.set i value, have', mempoolCount, extraCount⟩ where
  available := by rw [length_set, sound.available]
  have_ := eq
  good := by
    intro j tx found
    rw [getElem?_set] at found
    split at found
    · rename_i here
      subst here
      split at found
      · exact right tx (Option.some.inj found)
      · cases found
    · exact sound.good j tx found

section Access

variable {bad : Fault → Prop} (sound : search.Sound n good) {i : Nat} (inside : i < n)
include sound inside

theorem Search.Sound.readHave : Ensures bad (readSlot search.haveTxn i) fun _ => True :=
  ensures_readSlot (sound.have_.symm ▸ inside)

theorem Search.Sound.read : Ensures bad (readSlot search.txnAvailable i) fun _ => True :=
  ensures_readSlot (sound.available.symm ▸ inside)

theorem Search.Sound.write (value : Option CTransaction) :
    writeSlot search.txnAvailable i value = .ok (search.txnAvailable.set i value) :=
  writeSlot_of_lt (sound.available.symm ▸ inside) value

theorem Search.Sound.writeHave :
    writeSlot search.haveTxn i true = .ok (search.haveTxn.set i true) ∧
      (search.haveTxn.set i true).length = n :=
  ⟨writeSlot_of_lt (sound.have_.symm ▸ inside) true, length_set.trans sound.have_⟩

end Access

section Searching

variable {bad : Fault → Prop}

theorem matchPool_spec (sound : search.Sound n good)
    (hit : ∀ slot, shorttxids.find (shortID (hashes.getWitnessHash tx)) = some slot →
      slot.toNat < n ∧ good slot.toNat tx) :
    Ensures bad (matchPool hashes shortID shorttxids search tx) (Search.Sound n good) := by
  rw [matchPool]
  split
  · exact sound
  rename_i slot found
  obtain ⟨inside, right⟩ := hit slot found
  obtain ⟨writeHave, keep⟩ := sound.writeHave inside
  refine (sound.readHave inside).andThen fun taken => ?_
  split
  · rw [sound.write inside, writeHave]
    refine sound.set slot.toNat (some tx) ?_ keep _ _
    rintro t ⟨⟩
    exact right
  refine (sound.read inside).andThen fun value => ?_
  split
  · exact sound
  · rw [sound.write inside]
    exact sound.set slot.toNat none nofun sound.have_ _ _

theorem searchPool_spec (sound : search.Sound n good) {pool : List CTransaction}
    (hits : ∀ tx ∈ pool, ∀ slot, shorttxids.find (shortID (hashes.getWitnessHash tx)) = some slot →
      slot.toNat < n ∧ good slot.toNat tx) :
    Ensures bad (searchPool hashes shortID shorttxids search pool) (Search.Sound n good) := by
  induction pool generalizing search with
  | nil => exact sound
  | cons tx pool ih =>
    refine (matchPool_spec sound (hits tx mem_cons_self)).bind fun next soundNext => ?_
    split
    · exact soundNext
    · exact ih soundNext (forall_mem_cons.mp hits).2

/-- The slot of an extra transaction exists and is its own; an entry that is null and
    has a slot matters only where the fault does. -/
structure ExtraHit (bad : Fault → Prop) (n : Nat) (good : Nat → CTransaction → Prop)
    (extra : Uint256 × Option CTransaction) (slot : UInt16) : Prop where
  inside : slot.toNat < n
  right : ∀ tx, extra.2 = some tx → good slot.toNat tx
  null : extra.2 = none → ¬ bad nullExtra

theorem matchExtra_spec (sound : search.Sound n good)
    (hit : ∀ slot, shorttxids.find (shortID extra.1) = some slot → ExtraHit bad n good extra slot) :
    Ensures bad (matchExtra hashes shortID shorttxids search extra) (Search.Sound n good) := by
  rw [matchExtra]
  split
  · exact sound
  rename_i slot found
  obtain ⟨inside, right, null⟩ := hit slot found
  obtain ⟨writeHave, keep⟩ := sound.writeHave inside
  refine (sound.readHave inside).andThen fun taken => ?_
  split
  · rw [sound.write inside, writeHave]
    exact sound.set slot.toNat extra.2 right keep _ _
  refine (sound.read inside).andThen fun value => ?_
  split
  · exact sound
  · rename_i isNull
    exact .fail (null isNull)
  · split
    · rw [sound.write inside]
      exact sound.set slot.toNat none nofun sound.have_ _ _
    · exact sound

theorem searchExtra_spec (sound : search.Sound n good) {extra_txn}
    (hits : ∀ extra ∈ extra_txn, ∀ slot, shorttxids.find (shortID extra.1) = some slot →
      ExtraHit bad n good extra slot) :
    Ensures bad (searchExtra hashes shortID shorttxids search extra_txn) (Search.Sound n good) := by
  induction extra_txn generalizing search with
  | nil => exact sound
  | cons extra extra_txn ih =>
    refine (matchExtra_spec sound (hits extra mem_cons_self)).bind fun next soundNext => ?_
    split
    · exact soundNext
    · exact ih soundNext (forall_mem_cons.mp hits).2

end Searching

theorem mem_assigned (mem : e ∈ assigned table pairs) :
    e ∈ table ∨ ∃ pair ∈ pairs, e = (pair.1, ofNat pair.2) := by
  induction pairs generalizing table with
  | nil => exact .inl mem
  | cons pair pairs ih =>
    obtain earlier | ⟨later, inPairs, same⟩ := ih mem
    · simp only [ShortIdMap.insert] at earlier
      grind
    · exact .inr ⟨later, mem_cons_of_mem pair inPairs, same⟩

theorem find_assigned (found : (assigned [] pairs).find id = some slot) :
    ∃ pair ∈ pairs, pair.1 = id ∧ slot = ofNat pair.2 := by
  obtain ⟨e, first, rfl⟩ := Option.map_eq_some_iff.mp found
  obtain ⟨pair, mem, rfl⟩ := (mem_assigned (mem_of_find?_eq_some first)).resolve_left nofun
  exact ⟨pair, mem, by simpa using find?_some first, rfl⟩

section EveryMessage

variable {bucketSize : List UInt64 → UInt64 → Nat} {pool : List CTransaction}
  {pdb : PartiallyDownloadedBlock} {cmpctblock : CBlockHeaderAndShortTxIDs}
  {extra_txn : List (Uint256 × Option CTransaction)}

theorem placePrefilled_start (cmpctblock : CBlockHeaderAndShortTxIDs) :
    Ensures bad (placePrefilled cmpctblock.shorttxids.length 0 (-1)
        (replicate cmpctblock.blockTxCount none) cmpctblock.prefilledtxn) fun placed =>
      placed.1 = .ok → placed.2.length = cmpctblock.blockTxCount ∧
        (freeSlots placed.2).length = cmpctblock.shorttxids.length := by
  simp only [freeSlots, length_freeFrom]
  exact @placePrefilled_spec _ cmpctblock.shorttxids.length 0 (-1) _ cmpctblock.prefilledtxn le_rfl
    (placing_start _)

theorem initData_inRange (small : cmpctblock.Deserialized) :
    Ensures (· ≠ nullExtra) (initData hashes bucketSize pool pdb cmpctblock extra_txn)
      fun _ => True := by
  rw [initData]
  split
  · exact trivial
  split
  · exact trivial
  split
  · exact trivial
  refine (placePrefilled_start cmpctblock).bind fun ⟨status, available⟩ sizes => ?_
  simp only at sizes ⊢
  split
  · exact trivial
  rename_i succeeded
  obtain ⟨length, free⟩ := sizes (not_not.mp succeeded)
  have few : available.length ≤ 65535 := length ▸ small
  refine (@assignSlots_spec _ bucketSize available 0 0 [] _ (freeSlots available) few rfl
    free.ge).bind fun ⟨status', table⟩ ⟨k, isTable, _⟩ => ?_
  have inRange : ∀ id slot, table.find id = some slot → slot.toNat < available.length := by
    rw [show table = _ from isTable]
    intro id slot found
    obtain ⟨pair, mem, -, rfl⟩ := find_assigned found
    have inside := mem_freeFrom (of_mem_zip (mem_of_mem_take mem)).2
    rw [toNat_ofNat_of_lt' (by rw [size]; omega)]
    omega
  simp only
  split
  · exact trivial
  split
  · exact trivial
  have start : Search.Sound available.length (fun _ _ => True)
      ⟨available, replicate available.length false, pdb.mempoolCount, pdb.extraCount⟩ :=
    ⟨rfl, length_replicate .., fun _ _ _ => trivial⟩
  refine (searchPool_spec start fun tx _ slot found =>
    ⟨inRange _ slot found, trivial⟩).bind fun next soundNext => ?_
  refine (searchExtra_spec soundNext fun e _ slot found => ?_).bind fun last _ => trivial
  exact ⟨inRange _ slot found, fun _ _ => trivial, fun _ bad => bad rfl⟩

end EveryMessage

section OfBlock

def missing : List (Option CTransaction) → List CTransaction → List CTransaction
  | none :: available, tx :: vtx => tx :: missing available vtx
  | some _ :: available, _ :: vtx => missing available vtx
  | _, _ => []

theorem fillVtx_missing {vtx} (length : available.length = vtx.length)
    (right : ∀ (i : Nat) tx, available[i]? = some (some tx) → vtx[i]? = some tx) :
    fillVtx available (missing available vtx) = some (vtx, []) := by
  induction available generalizing vtx with
  | nil =>
    rw [length_nil] at length
    rw [length_eq_zero_iff.mp length.symm]
    rfl
  | cons slot available ih =>
    cases vtx with
    | nil => simp at length
    | cons tx vtx =>
      have rest := @ih vtx (by simpa using length) fun i t found => right (i + 1) t found
      cases slot with
      | none => simp [missing, fillVtx, rest]
      | some t =>
        have eq : tx = t := by simpa using right 0 t rfl
        subst eq
        simp [missing, fillVtx, rest]

theorem placePrefilled_first {m first} (notNull : isNullTx first = false) :
    placePrefilled m 0 (-1) (replicate (m + 1) none) [⟨0, first⟩] =
      .ok (.ok, some first :: replicate m none) := by
  simp [placePrefilled, notNull, writeSlot, replicate_succ, ok_bind]

theorem freeFrom_replicate (k m : Nat) :
    freeFrom k (replicate m (none : Option CTransaction)) = range' k m := by
  induction m generalizing k with
  | zero => rfl
  | succ m ih => rw [replicate_succ, freeFrom, ih, range'_succ]

theorem getElem?_of_mem_zip {ids : List UInt64} (mem : pair ∈ ids.zip (range' 1 ids.length)) :
    ∃ i, pair.2 = i + 1 ∧ ids[i]? = some pair.1 := by
  obtain ⟨i, bound, rfl⟩ := mem_iff_getElem.mp mem
  rw [length_zip, length_range', Nat.min_self] at bound
  simp only [getElem_zip, getElem_range']
  exact ⟨i, by omega, getElem?_eq_getElem bound⟩

variable (hashes) in
def comparedHashes (block : CBlock) (pool : List CTransaction)
    (extra_txn : List (Uint256 × Option CTransaction)) : List Uint256 :=
  block.vtx.map hashes.getWitnessHash ++ pool.map hashes.getWitnessHash ++ extra_txn.map (·.1)

variable (hashes) in
/-- A block that is sent as a compact block, and what the receiver has. -/
structure Sent (bucketSize : List UInt64 → UInt64 → Nat) (block : CBlock) (nonce : UInt64)
    (pool : List CTransaction) (extra_txn : List (Uint256 × Option CTransaction)) : Prop where
  /-- Different witness hashes have different short ids. -/
  shortIds : ∀ a ∈ comparedHashes hashes block pool extra_txn,
    ∀ b ∈ comparedHashes hashes block pool extra_txn,
      getShortID hashes block.toCBlockHeader nonce a =
        getShortID hashes block.toCBlockHeader nonce b → a = b
  /-- Different transactions have different witness hashes. -/
  witnessHashes : ∀ tx ∈ block.vtx, ∀ other, (other ∈ pool ∨ ∃ e ∈ extra_txn, e.2 = some other) →
    hashes.getWitnessHash tx = hashes.getWitnessHash other → tx = other
  /-- Extra transactions are listed with their witness hash. -/
  extraHashes : ∀ e ∈ extra_txn, ∀ tx, e.2 = some tx → e.1 = hashes.getWitnessHash tx
  /-- An entry without a transaction has the hash of none of the block. -/
  extraNull : ∀ e ∈ extra_txn, e.2 = none → e.1 ∉ block.vtx.map hashes.getWitnessHash
  buckets : BucketsFit bucketSize
    (block.vtx.tail.map fun tx =>
      getShortID hashes block.toCBlockHeader nonce (hashes.getWitnessHash tx))

/-- A block whose compact form is accepted: its header and first transaction are not
    null, a message can hold its transactions, and none but the first occurs twice. -/
structure Sendable (hashes : Hashes) (block : CBlock) : Prop where
  header : isNullHeader block.toCBlockHeader = false
  first : ∀ tx ∈ block.vtx.head?, isNullTx tx = false
  count : block.vtx.length ≤ 65535
  once : (block.vtx.tail.map hashes.getWitnessHash).Nodup

section Reconstruction

variable {bucketSize : List UInt64 → UInt64 → Nat} {pool : List CTransaction}
  {header : CBlockHeader}
  {first : CTransaction} {rest : List CTransaction}

/-- The short ids of a message, in the order of the block. -/
def sentIds (hashes : Hashes) (header : CBlockHeader) (nonce : UInt64) (rest : List CTransaction) :
    List UInt64 :=
  rest.map fun tx => getShortID hashes header nonce (hashes.getWitnessHash tx)

/-- Whatever has the short id of a slot is the block's transaction there. -/
def Identifies (hashes : Hashes) (shortID : Uint256 → UInt64) (vtx : List CTransaction)
    (compared : List Uint256) (table : ShortIdMap) : Prop :=
  ∀ hash ∈ compared, ∀ slot, table.find (shortID hash) = some slot →
    ∃ tx, vtx[slot.toNat]? = some tx ∧ hashes.getWitnessHash tx = hash

theorem mem_comparedHashes (mem : tx ∈ rest) :
    hashes.getWitnessHash tx ∈ comparedHashes hashes ⟨header, first :: rest⟩ pool extra_txn :=
  mem_append_left _ (mem_append_left _ (mem_map_of_mem (mem_cons_of_mem first mem)))

variable (sent : Sent hashes bucketSize ⟨header, first :: rest⟩ nonce pool extra_txn)
  (sendable : Sendable hashes ⟨header, first :: rest⟩)
include sent sendable

theorem Sent.nodup_sentIds : (sentIds hashes header nonce rest).Nodup := by
  have mapped : (rest.map hashes.getWitnessHash).map (getShortID hashes header nonce) =
      sentIds hashes header nonce rest := by
    rw [map_map]
    rfl
  rw [← mapped]
  refine List.Nodup.map_on ?_ sendable.once
  intro a memberA b memberB same
  obtain ⟨tx, inRest, rfl⟩ := mem_map.mp memberA
  obtain ⟨other, inRest', rfl⟩ := mem_map.mp memberB
  exact sent.shortIds _ (mem_comparedHashes inRest) _ (mem_comparedHashes inRest') same

theorem Sent.assignSlots_ok : ∃ table : ShortIdMap,
    assignSlots bucketSize (some first :: replicate rest.length none) 0 0 []
      (sentIds hashes header nonce rest) = .ok (.ok, table) ∧
    table.length = rest.length ∧
    Identifies hashes (getShortID hashes header nonce) (first :: rest)
      (comparedHashes hashes ⟨header, first :: rest⟩ pool extra_txn) table := by
  have ne := sent.nodup_sentIds sendable
  have count := sendable.count
  rw [length_cons] at count
  have length : (sentIds hashes header nonce rest).length = rest.length := length_map ..
  generalize isIds : sentIds hashes header nonce rest = ids at *
  have free : freeFrom 0 (some first :: replicate rest.length none) = range' 1 ids.length := by
    rw [freeFrom, freeFrom_replicate, length]
  have keys : (ids.zip (range' 1 ids.length)).map (·.1) = ids := map_fst_zip (by simp)
  obtain ⟨⟨status, table⟩, assigned, k, isTable, all, passes⟩ :=
    (@assignSlots_spec (fun _ => True) bucketSize _ 0 0 [] ids _ (by simpa using by omega) free
      (by simp)).exists_ok fun _ => trivial
  obtain rfl : status = .ok := passes ne (isIds ▸ sent.buckets)
  rw [all rfl, take_of_length_le (by simp)] at isTable
  obtain rfl : table = _ := isTable
  refine ⟨_, assigned, ?_, fun hash mem slot found => ?_⟩
  · rw [length_assigned (by rwa [keys])]
    simp [length]
  obtain ⟨pair, inZip, isId, isSlot⟩ := find_assigned found
  obtain ⟨i, place, here⟩ := getElem?_of_mem_zip inZip
  rw [isId, ← isIds, sentIds, getElem?_map, Option.map_eq_some_iff] at here
  obtain ⟨tx, isTx, same⟩ := here
  have inside := (List.getElem?_eq_some_iff.mp isTx).1
  rw [isSlot, place, toNat_ofNat_of_lt' (by rw [size]; omega)]
  refine ⟨tx, by rw [getElem?_cons_succ, isTx], ?_⟩
  exact sent.shortIds _ (mem_comparedHashes (mem_of_getElem? isTx)) _ mem same

omit sendable in
/-- The searches put transactions of the block into their slots, and nothing else. -/
theorem Sent.searches_ok {table : ShortIdMap}
    (hits : Identifies hashes (getShortID hashes header nonce) (first :: rest)
      (comparedHashes hashes ⟨header, first :: rest⟩ pool extra_txn) table) :
    ∃ next last, searchPool hashes (getShortID hashes header nonce) table
        ⟨some first :: replicate rest.length none, replicate (rest.length + 1) false, 0, 0⟩ pool =
          .ok next ∧
      searchExtra hashes (getShortID hashes header nonce) table next extra_txn = .ok last ∧
      last.Sound (rest.length + 1) fun i tx => (first :: rest)[i]? = some tx := by
  have start : Search.Sound (rest.length + 1) (fun i tx => (first :: rest)[i]? = some tx)
      ⟨some first :: replicate rest.length none, replicate (rest.length + 1) false, 0, 0⟩ := by
    refine ⟨by simp, by simp, fun i tx found => ?_⟩
    cases i with
    | zero => simpa using found
    | succ i => simp [getElem?_replicate] at found
  have poolHits : ∀ tx ∈ pool, ∀ slot,
      table.find (getShortID hashes header nonce (hashes.getWitnessHash tx)) = some slot →
        slot.toNat < rest.length + 1 ∧ (first :: rest)[slot.toNat]? = some tx := by
    intro tx mem slot found
    obtain ⟨own, isOwn, same⟩ := hits _ (mem_append_left _
      (mem_append_right _ (mem_map_of_mem mem))) slot found
    refine ⟨(List.getElem?_eq_some_iff.mp isOwn).1, ?_⟩
    rw [isOwn, sent.witnessHashes own (mem_of_getElem? isOwn) tx (.inl mem) same]
  obtain ⟨next, searched, soundNext⟩ := (searchPool_spec start poolHits).exists_ok
    fun _ => trivial
  obtain ⟨last, searchedExtra, soundLast⟩ :=
    (@searchExtra_spec hashes _ table _ _ _ _ soundNext extra_txn (by
      intro e mem slot found
      obtain ⟨own, isOwn, same⟩ :=
        hits e.1 (mem_append_right _ (mem_map_of_mem mem)) slot found
      have owned := mem_of_getElem? isOwn
      refine ⟨(List.getElem?_eq_some_iff.mp isOwn).1, fun tx isTx => ?_,
        fun null _ => sent.extraNull e mem null ?_⟩
      · rw [isOwn, sent.witnessHashes own owned tx (.inr ⟨e, mem, isTx⟩)
          (same.trans (sent.extraHashes e mem tx isTx))]
      · rw [← same]
        exact mem_map_of_mem owned)).exists_ok fun _ => trivial
  exact ⟨next, last, searched, searchedExtra, soundLast⟩

end Reconstruction

/-- The receiver of a compact block reconstructs the block. -/
theorem Sent.reconstructed {bucketSize : List UInt64 → UInt64 → Nat} {pool : List CTransaction}
    (sent : Sent hashes bucketSize block nonce pool extra_txn) (sendable : Sendable hashes block)
    (nonempty : block.vtx ≠ []) :
    ∃ cmpctblock pdb, ofBlock hashes block nonce = .ok cmpctblock ∧
      initData hashes bucketSize pool .empty cmpctblock extra_txn = .ok (.ok, pdb) ∧
      (∀ (i : Nat) tx, pdb.txnAvailable[i]? = some (some tx) → block.vtx[i]? = some tx) ∧
      ∀ checkBlock, ∃ pdb', fillBlock checkBlock pdb (missing pdb.txnAvailable block.vtx) =
        ((checkBlock block).status, some block, pdb') := by
  obtain ⟨header, vtx⟩ := block
  obtain ⟨first, rest, rfl⟩ := exists_cons_of_ne_nil nonempty
  obtain ⟨table, assigned, entries, hits⟩ := sent.assignSlots_ok sendable
  obtain ⟨next, last, searched, searchedExtra, sound⟩ := sent.searches_ok hits
  refine ⟨⟨header, nonce, sentIds hashes header nonce rest, [⟨0, first⟩]⟩, ⟨header,
    last.txnAvailable, 1, last.mempoolCount, last.extraCount⟩, rfl, ?_, sound.good, ?_⟩
  · have count := sendable.count
    have few : ¬ rest.length + 1 > maxBlockWeight / minSerializableTransactionWeight := by
      have : maxBlockWeight / minSerializableTransactionWeight = 100000 := by decide
      simp only [length_cons] at count
      omega
    have length : (sentIds hashes header nonce rest).length = rest.length := length_map ..
    have slots : (some first :: replicate rest.length none).length = rest.length + 1 := by simp
    have placed := placePrefilled_first (m := rest.length) (sendable.first first rfl)
    have emptyHeader : isNullHeader nullHeader = true := by decide
    simp only [initData, sendable.header, PartiallyDownloadedBlock.empty, emptyHeader, length,
      length_singleton, if_neg few, CBlockHeaderAndShortTxIDs.blockTxCount, placed, assigned,
      entries, slots, searched, searchedExtra, ok_bind]
    simp [pure, Except.pure]
  · intro checkBlock
    have filled := @fillVtx_missing last.txnAvailable (first :: rest)
      (by rw [sound.available, length_cons]) sound.good
    refine ⟨⟨nullHeader, [], 1, last.mempoolCount, last.extraCount⟩, ?_⟩
    simp only [fillBlock, sendable.header, filled]
    rfl

end OfBlock

/-- Compact blocks are reconstructed exactly, and no message makes `InitData` leave its
    slots or mix up those of the short ids. -/
theorem compactBlocks_exact (hashes : Hashes) (bucketSize : List UInt64 → UInt64 → Nat) :
    (∀ (block : CBlock) (nonce : UInt64) (pool : List CTransaction)
        (extra_txn : List (Uint256 × Option CTransaction)), block.vtx ≠ [] →
      Sendable hashes block → Sent hashes bucketSize block nonce pool extra_txn →
      ∃ cmpctblock pdb, ofBlock hashes block nonce = .ok cmpctblock ∧
        initData hashes bucketSize pool .empty cmpctblock extra_txn = .ok (.ok, pdb) ∧
        (∀ (i : Nat) tx, pdb.txnAvailable[i]? = some (some tx) → block.vtx[i]? = some tx) ∧
        ∀ checkBlock, ∃ pdb', fillBlock checkBlock pdb (missing pdb.txnAvailable block.vtx) =
          ((checkBlock block).status, some block, pdb')) ∧
    (∀ (cmpctblock : CBlockHeaderAndShortTxIDs) (pool : List CTransaction)
        (pdb : PartiallyDownloadedBlock) (extra_txn : List (Uint256 × Option CTransaction)),
      cmpctblock.Deserialized →
      (∀ fault, initData hashes bucketSize pool pdb cmpctblock extra_txn = .error fault →
        fault = nullExtra) ∧
      ∀ available, placePrefilled cmpctblock.shorttxids.length 0 (-1)
          (replicate cmpctblock.blockTxCount none) cmpctblock.prefilledtxn =
            .ok (.ok, available) →
        (freeSlots available).length = cmpctblock.shorttxids.length ∧
        ∃ status k, assignSlots bucketSize available 0 0 [] cmpctblock.shorttxids =
            .ok (status, assigned [] ((cmpctblock.shorttxids.zip (freeSlots available)).take k)) ∧
          (status = .ok → k = cmpctblock.shorttxids.length)) := by
  constructor
  · intro block nonce pool extra_txn nonempty sendable sent
    exact sent.reconstructed sendable nonempty
  · intro cmpctblock pool pdb extra_txn small
    refine ⟨fun fault faulted => ?_, fun available placed => ?_⟩
    · by_contra other
      exact (initData_inRange small).ne_error other faulted
    obtain ⟨length, free⟩ := (@placePrefilled_start (fun _ => True) cmpctblock).of_eq_ok placed rfl
    obtain ⟨⟨status, table⟩, ran, k, rfl, all, -⟩ :=
      (@assignSlots_spec _ bucketSize available 0 0 [] _ _ (length ▸ small) rfl free.ge).exists_ok
        fun _ => trivial
    exact ⟨free, status, k, ran, all⟩

/-- Hashes that tell transactions apart by their lock time. -/
def exampleHashes : Hashes where
  selector := fun _ _ => (0, 0)
  sipHashUint256 := fun _ _ txhash => UInt64.ofNat txhash.toNat
  getWitnessHash := fun tx => BitVec.ofNat 256 tx.nLockTime.toNat

def exampleTx (nLockTime : UInt32) : CTransaction := ⟨[], [⟨0, []⟩], 2, nLockTime⟩

def exampleHeader : CBlockHeader := ⟨⟨4, 0, 0, 0x207fffff, 0⟩, 0⟩

def exampleBlock (vtx : List CTransaction) : CBlock := { exampleHeader with vtx := vtx }

theorem shortIds_of_all {l : List Uint256} {shortID : Uint256 → UInt64}
    (tested : (l.all fun a => l.all fun b => decide (shortID a = shortID b → a = b)) = true) :
    ∀ a ∈ l, ∀ b ∈ l, shortID a = shortID b → a = b := by
  intro a inA b inB
  have row := all_eq_true.mp tested a inA
  exact of_decide_eq_true (all_eq_true.mp row b inB)

theorem compactBlocks_exact_example :
    ∃ cmpctblock pdb,
      ofBlock exampleHashes (exampleBlock [exampleTx 1, exampleTx 2, exampleTx 3]) 0 =
        .ok cmpctblock ∧
      initData exampleHashes (fun _ _ => 1) [exampleTx 5, exampleTx 3] .empty cmpctblock
        [(0, none)] = .ok (.ok, pdb) ∧
      (∀ (i : Nat) tx, pdb.txnAvailable[i]? = some (some tx) →
        [exampleTx 1, exampleTx 2, exampleTx 3][i]? = some tx) ∧
      ∀ checkBlock, ∃ pdb',
        fillBlock checkBlock pdb
            (missing pdb.txnAvailable [exampleTx 1, exampleTx 2, exampleTx 3]) =
          ((checkBlock (exampleBlock [exampleTx 1, exampleTx 2, exampleTx 3])).status,
            some (exampleBlock [exampleTx 1, exampleTx 2, exampleTx 3]), pdb') := by
  refine (compactBlocks_exact exampleHashes (fun _ _ => 1)).1 (exampleBlock _) 0 _ _ (by decide)
    ⟨by decide, by decide, by decide, by decide +kernel⟩ ?_
  constructor
  case shortIds => exact shortIds_of_all (by decide +kernel)
  case witnessHashes =>
    intro tx inBlock other among same
    have inPool : other ∈ [exampleTx 5, exampleTx 3] := by
      rcases among with member | ⟨e, member, isOther⟩
      · exact member
      · rw [mem_singleton.mp member] at isOther
        cases isOther
    have apart : ∀ t ∈ [exampleTx 1, exampleTx 2, exampleTx 3],
        ∀ o ∈ [exampleTx 5, exampleTx 3],
          exampleHashes.getWitnessHash t = exampleHashes.getWitnessHash o → t = o := by
      decide +kernel
    exact apart tx inBlock other inPool same
  case extraHashes =>
    intro e member tx isTx
    rw [mem_singleton.mp member] at isTx
    cases isTx
  case extraNull =>
    intro e member _
    rw [mem_singleton.mp member]
    decide +kernel
  case buckets => exact fun _ _ _ _ => by decide

/-- With different short ids for different witness hashes and small buckets, `InitData`
    fails for a block that holds a transaction twice, and refuses one whose header or
    whose first transaction is null. -/
theorem initData_refuses :
    ((ofBlock exampleHashes (exampleBlock [exampleTx 1, exampleTx 2, exampleTx 2]) 0).bind
      fun cmpctblock => (initData exampleHashes (fun _ _ => 1) [] .empty cmpctblock []).map (·.1)) =
        .ok .failed ∧
    ((ofBlock exampleHashes ⟨nullHeader, [exampleTx 1]⟩ 0).bind
      fun cmpctblock => (initData exampleHashes (fun _ _ => 1) [] .empty cmpctblock []).map (·.1)) =
        .ok .invalid ∧
    ((ofBlock exampleHashes (exampleBlock [⟨[], [], 2, 0⟩]) 0).bind
      fun cmpctblock => (initData exampleHashes (fun _ _ => 1) [] .empty cmpctblock []).map (·.1)) =
        .ok .invalid ∧
    Sent exampleHashes (fun _ _ => 1) (exampleBlock [exampleTx 1, exampleTx 2, exampleTx 2]) 0
      [] [] ∧
    Sent exampleHashes (fun _ _ => 1) ⟨nullHeader, [exampleTx 1]⟩ 0 [] [] ∧
    Sent exampleHashes (fun _ _ => 1) (exampleBlock [⟨[], [], 2, 0⟩]) 0 [] [] := by
  have sent : ∀ block nonce, (∀ a ∈ comparedHashes exampleHashes block [] [],
      ∀ b ∈ comparedHashes exampleHashes block [] [],
        getShortID exampleHashes block.toCBlockHeader nonce a =
          getShortID exampleHashes block.toCBlockHeader nonce b → a = b) →
      Sent exampleHashes (fun _ _ => 1) block nonce [] [] := by
    intro block nonce apart
    constructor
    case shortIds => exact apart
    case witnessHashes => simp
    case extraHashes => simp
    case extraNull => simp
    case buckets => exact fun _ _ _ _ => by decide
  exact ⟨by decide +kernel, by decide +kernel, by decide +kernel,
    sent _ _ (shortIds_of_all (by decide +kernel)), sent _ _ (shortIds_of_all (by decide +kernel)),
    sent _ _ (shortIds_of_all (by decide +kernel))⟩

end HobbyHash.BlockEncodings
