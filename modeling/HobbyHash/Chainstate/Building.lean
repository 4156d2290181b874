import HobbyHash.Chainstate.ArrivalOrder
import HobbyHash.Chainstate.Restart

/-! # Indexes that survive a restart

An index is built by `AddToBlockIndex` and `ReceivedBlockTransactions` in any
order; between them the status of a block and the position of its undo data are
written again. Each of these keeps what the records need, so every index that was
built can be loaded. Two calls are left out: data on top of a failed block that is
not linked, which gets no waiting pair although it gets one when it is loaded, and
data that makes a branch count 2 ^ 32 transactions, which is then taken for a
branch without data.
-/

namespace HobbyHash

open Machine Serialize List BlockManager

namespace ChainstateManager

variable {env : IndexEnv} {s : ChainstateManager} {b : CBlockIndex}

/-- A header that can be put into a tree: its parent is known or there is none, its
    hash is not the null hash and has the work it claims, and its height is an
    `int`. -/
structure Addable (env : IndexEnv) (s : ChainstateManager) (block : CBlockHeader) : Prop where
  parent : block.hashPrevBlock = 0 ∨ ∃ p, s.find env block.hashPrevBlock = some p
  nHeight : ∀ p, s.find env block.hashPrevBlock = some p → p.nHeight + 1 ≤ intMax
  notNull : env.hash block ≠ 0
  work : Pow.checkProofOfWork (env.hash block) block.nBits env.params = true

/-- Data that can be given to a block, with a position that fits its types. -/
structure Receives (s : ChainstateManager) (block : CBlock) (b : CBlockIndex)
    (pos : FlatFilePos) : Prop where
  known : b ∈ s.blocks
  fresh : ¬ s.Received b
  storable : Storable s block b
  nFile : pos.nFile ≤ intMax
  nPos : pos.nPos ≤ uintMax

/-- What may be written about a block later: a status that still says whether
    there is data and that the header is valid, and a position of undo data if there
    is some. -/
structure Rewrites (s : ChainstateManager) (b : CBlockIndex) (nStatus : BlockStatus)
    (nUndoPos : Nat) : Prop where
  haveData : nStatus.haveData = (s.nStatus b).haveData
  tree : BlockValidity.tree.level ≤ nStatus.validity.level
  undoPos : nUndoPos ≤ uintMax
  noUndo : nStatus.haveUndo = false → nUndoPos = 0

/-- The indexes that are built by adding headers and data in any order. -/
inductive Builds (env : IndexEnv) : ChainstateManager → Prop where
  | empty : Builds env .empty
  | header {s : ChainstateManager} (block : CBlockHeader) :
      Builds env s → Addable env s block → Builds env (s.addToBlockIndex env block).1
  | data {s : ChainstateManager} (block : CBlock) (b : CBlockIndex) (pos : FlatFilePos) :
      Builds env s → Receives s block b pos →
        Builds env (s.receivedBlockTransactions env block b pos)
  | record {s : ChainstateManager} (b : CBlockIndex) (nStatus : BlockStatus) (nUndoPos : Nat) :
      Builds env s → Rewrites s b nStatus nUndoPos →
      Builds env (s.modify b fun e => { e with nStatus, nUndoPos })

theorem recorded_empty : Recorded env .empty where
  link :=
    have tree : HeaderTree .empty :=
      { closed := nofun
        valid := nofun
        noData := nofun
        noPairs := rfl }
    (AfterArrivals.start tree).link
  nodup := nodup_nil
  hashes _ none := nomatch none
  notNull _ none := nomatch none
  work _ none := nomatch none
  data _ none := nomatch none
  noFile _ none := nomatch none
  tree _ none := nomatch none
  fits _ none := nomatch none

section Header

variable {block : CBlockHeader}

theorem Addable.getBlockHash (addable : Addable env s block) :
    (s.newBlockIndex env block).getBlockHash env.hash = env.hash block := by
  rw [newBlockIndex]
  cases found : s.find env block.hashPrevBlock with
  | some p =>
    rw [CBlockIndex.getBlockHash]
    change env.hash { block.toHeaderFields with hashPrevBlock := p.getBlockHash env.hash } = _
    rw [(find_eq_some found).2]
  | none =>
    have first : block.hashPrevBlock = 0 := by
      refine addable.parent.resolve_right ?_
      rintro ⟨p, isParent⟩
      cases found.symm.trans isParent
    rw [CBlockIndex.getBlockHash]
    change env.hash { block.toHeaderFields with hashPrevBlock := 0 } = _
    rw [← first]

theorem Addable.newBlockIndex_nHeight (addable : Addable env s block) :
    (s.newBlockIndex env block).nHeight ≤ intMax := by
  rw [newBlockIndex]
  cases found : s.find env block.hashPrevBlock with
  | some p => exact addable.nHeight p found
  | none => exact Nat.zero_le _

theorem fields_newBlockIndex : (s.newBlockIndex env block).fields = block.toHeaderFields := by
  rw [newBlockIndex]
  split <;> rfl

theorem Recorded.addToBlockIndex (recorded : Recorded env s) (addable : Addable env s block) :
    Recorded env (s.addToBlockIndex env block).1 := by
  rw [ChainstateManager.addToBlockIndex]
  split
  · exact recorded
  rename_i unknown
  have hash := addable.getBlockHash
  have height := addable.newBlockIndex_nHeight
  have nBits : (s.newBlockIndex env block).nBits = block.nBits :=
    congrArg HeaderFields.nBits fields_newBlockIndex
  have parents : ∀ q, (s.newBlockIndex env block).pprev = some q → q ∈ s.blocks := by
    intro q isParent
    obtain ⟨f, same⟩ := pprev_eq_some.mp isParent
    exact newBlockIndex_pprev env s same
  dsimp only
  generalize s.newBlockIndex env block = c at *
  have apart : ∀ a ∈ s.blocks, a.getBlockHash env.hash ≠ c.getBlockHash env.hash := by
    rw [hash]
    exact find_eq_none unknown
  have fresh : c ∉ s.blocks := fun mem => apart c mem rfl
  have status : (s.addNew c).nStatus c = { validity := .tree } := by
    rw [nStatus, entry_addNew_self]
    rfl
  constructor
  case link => exact recorded.link.addNew fresh parents
  case nodup => exact nodup_append'.mpr ⟨recorded.nodup, nodup_singleton c, by simpa using fresh⟩
  case hashes => exact hashes_addNew _ recorded.hashes apart
  case notNull => exact forall_addNew.mpr ⟨recorded.notNull, hash ▸ addable.notNull⟩
  case work =>
    refine forall_addNew.mpr ⟨recorded.work, ?_⟩
    rw [hash, nBits]
    exact addable.work
  case data =>
    refine forall_addNew.mpr ⟨fun a old => ?_, iff_of_false not_received_addNew ?_⟩
    · rw [received_addNew fresh old, entry_addNew_known fresh old]
      exact recorded.data a old
    · rw [entry_addNew_self]
      exact not_not.mpr rfl
  case noFile =>
    refine forall_addNew.mpr ⟨fun a old notReceived => ?_, fun _ => by rw [entry_addNew_self]⟩
    rw [received_addNew fresh old] at notReceived
    rw [entry_addNew_known fresh old]
    exact recorded.noFile a old notReceived
  case tree =>
    refine forall_addNew.mpr ⟨fun a old => ?_, by rw [UpTo, status]⟩
    rw [UpTo, nStatus, entry_addNew_known fresh old]
    exact recorded.tree a old
  case fits =>
    refine forall_addNew.mpr ⟨fun a old => ?_, ?_⟩
    · rw [diskBlockIndex, nStatus, entry_addNew_known fresh old]
      exact recorded.fits a old
    · constructor
      case nHeight => exact height
      all_goals simp [diskBlockIndex, entry_addNew_self s c]

end Header

section Data

variable {block : CBlock} {pos : FlatFilePos}

theorem Relinked.diskBlockIndex (relinked : Relinked s s') (a : CBlockIndex) :
    s'.diskBlockIndex env a = s.diskBlockIndex env a := by
  obtain ⟨_, _, entry⟩ := relinked.entry a
  rw [ChainstateManager.diskBlockIndex, relinked.nStatus, entry, ChainstateManager.diskBlockIndex]

theorem Receives.receivable (receives : Receives s block b pos) (recorded : Recorded env s) :
    s.Receivable b := by
  refine ⟨receives.known, receives.fresh, fun p isParent => ?_⟩
  refine (receives.storable.parent p isParent).imp id fun clean => ?_
  have known := receives.known
  obtain ⟨f, rfl⟩ := pprev_eq_some.mp isParent
  exact BlockStatus.isValid_iff.mpr ⟨clean, recorded.tree p (recorded.link.closed p f known)⟩

theorem Recorded.receivedBlockTransactions (recorded : Recorded env s)
    (receives : Receives s block b pos) :
    Recorded env (s.receivedBlockTransactions env block b pos) := by
  have link := @LinkState.receivedBlockTransactions env s block b pos recorded.link
    (receives.receivable recorded) (receives.storable.isCountable recorded.link)
  have relinked := @relinked_received env s block b pos
  have blocks : (s.receivedBlockTransactions env block b pos).blocks = s.blocks := relinked.blocks
  constructor
  case link => exact link
  case nodup => exact blocks ▸ recorded.nodup
  case hashes => exact blocks ▸ recorded.hashes
  case notNull => exact blocks ▸ recorded.notNull
  case work => exact blocks ▸ recorded.work
  case data =>
    intro a mem
    rw [blocks] at mem
    rw [relinked.received, relinked.nTx, received_storeData]
    by_cases same : a = b
    · rw [same, nTx_storeData_self]
      exact iff_of_true (.inl rfl) receives.storable.nonempty
    · rw [entry_storeData_of_ne same, or_iff_right same]
      exact recorded.data a mem
  case noFile =>
    intro a mem notReceived
    rw [blocks] at mem
    rw [relinked.received, received_storeData, not_or] at notReceived
    obtain ⟨_, _, entry⟩ := relinked.entry a
    rw [entry, entry_storeData_of_ne notReceived.1]
    exact recorded.noFile a mem notReceived.2
  case tree =>
    intro a mem
    rw [blocks] at mem
    rw [UpTo, relinked.nStatus]
    by_cases same : a = b
    · obtain ⟨validity, optWitness, stored, higher, -⟩ := @nStatus_storeData_self env s block b pos
      rw [same, stored]
      exact (recorded.tree b receives.known).trans higher
    · rw [nStatus, entry_storeData_of_ne same]
      exact recorded.tree a mem
  case fits =>
    intro a mem
    rw [blocks] at mem
    rw [relinked.diskBlockIndex]
    by_cases same : a = b
    · subst same
      have fits := recorded.fits a receives.known
      have haveData := @haveData_storeData_self env s block a pos
      constructor
      case nHeight => exact fits.nHeight
      case nTx =>
        change ((s.storeData env block a pos).entry a).nTx ≤ uintMax
        rw [nTx_storeData_self]
        exact Nat.le_pred_of_lt (Nat.mod_lt _ (Nat.two_pow_pos 32))
      case nFile =>
        change ((s.storeData env block a pos).entry a).nFile ≤ intMax
        rw [storeData, entry_modify_self]
        exact receives.nFile
      case nDataPos =>
        change ((s.storeData env block a pos).entry a).nDataPos ≤ uintMax
        rw [storeData, entry_modify_self]
        exact receives.nPos
      case nUndoPos =>
        change ((s.storeData env block a pos).entry a).nUndoPos ≤ uintMax
        rw [storeData, entry_modify_self]
        exact Nat.zero_le _
      case noFile =>
        exact fun absent => by cases haveData.symm.trans (Bool.or_eq_false_iff.mp absent).1
      case noData => exact fun absent => by cases haveData.symm.trans absent
      case noUndo =>
        intro _
        change ((s.storeData env block a pos).entry a).nUndoPos = 0
        rw [storeData, entry_modify_self]
    · have kept : (s.storeData env block b pos).diskBlockIndex env a = s.diskBlockIndex env a := by
        rw [diskBlockIndex, diskBlockIndex, nStatus, nStatus, entry_storeData_of_ne same]
      rw [kept]
      exact recorded.fits a mem

end Data

theorem Recorded.modify (recorded : Recorded env s) {nStatus nUndoPos}
    (rewrites : Rewrites s b nStatus nUndoPos) :
    Recorded env (s.modify b fun e => { e with nStatus, nUndoPos }) := by
  have entry : ∀ a, (s.modify b fun e => { e with nStatus, nUndoPos }).entry a =
      if a = b then { s.entry b with nStatus, nUndoPos } else s.entry a := by
    intro a
    split
    · rename_i same
      rw [same, entry_modify_self]
    · rename_i apart
      exact entry_modify_of_ne s apart _
  have same : SameTree s (s.modify b fun e => { e with nStatus, nUndoPos }) := by
    constructor
    case blocks => rfl
    case blocksUnlinked => rfl
    all_goals
      intro a
      by_cases here : a = b
      · simp [ChainstateManager.nStatus, here, rewrites.haveData]
      · simp [ChainstateManager.nStatus, entry, here]
  refine { recorded with
    link := same.linkState recorded.link
    data := ?data
    noFile := ?noFile
    tree := ?tree
    fits := ?fits }
  case data =>
    intro a mem
    rw [same.received, same.nTx]
    exact recorded.data a mem
  case noFile =>
    intro a mem notReceived
    rw [same.received] at notReceived
    rw [entry]
    split
    · rename_i here
      exact here ▸ recorded.noFile a mem notReceived
    · exact recorded.noFile a mem notReceived
  case tree =>
    intro a mem
    rw [UpTo, ChainstateManager.nStatus, entry]
    split
    · exact rewrites.tree
    · exact recorded.tree a mem
  case fits =>
    intro a mem
    have fits := recorded.fits a mem
    by_cases here : a = b
    · subst here
      have disk : (s.modify a fun e => { e with nStatus, nUndoPos }).diskBlockIndex env a =
          { s.diskBlockIndex env a with nStatus, nUndoPos } := by
        rw [diskBlockIndex, ChainstateManager.nStatus, entry, if_pos rfl]
        rfl
      rw [disk]
      refine { fits with
        nUndoPos := rewrites.undoPos
        noFile := fun absent => ?_
        noData := fun absent => fits.noData (rewrites.haveData ▸ absent)
        noUndo := rewrites.noUndo }
      refine recorded.noFile a mem fun received => ?_
      have haveData := rewrites.haveData.trans received
      cases haveData.symm.trans (Bool.or_eq_false_iff.mp absent).1
    · have kept : (s.modify b fun e => { e with nStatus, nUndoPos }).diskBlockIndex env a =
          s.diskBlockIndex env a := by
        rw [diskBlockIndex, diskBlockIndex, ChainstateManager.nStatus, entry, if_neg here]
        rfl
      rw [kept]
      exact fits

theorem Builds.recorded (built : Builds env s) : Recorded env s := by
  induction built with
  | empty => exact recorded_empty
  | header block _ addable ih => exact ih.addToBlockIndex addable
  | data block b pos _ receives ih => exact ih.receivedBlockTransactions receives
  | record b nStatus nUndoPos _ rewrites ih => exact ih.modify rewrites

/-- An index that was built is loaded from the records of its entries as it was. -/
theorem builds_loadBlockIndex (built : Builds env s)
    {sort : (Uint256 → Nat) → List Uint256 → List Uint256} (sorts : SortsByHeight sort)
    {records : List (List UInt8)} (written : records.Perm (s.diskRecords env)) :
    ∃ m, loadBlockIndex env sort records = .ok m ∧ BlockManager.Restored env s m :=
  BlockManager.Recorded.loadBlockIndex built.recorded sorts written

def sortByHeight (height : Uint256 → Nat) (keys : List Uint256) : List Uint256 :=
  keys.insertionSort fun a b => height a ≤ height b

theorem sortsByHeight_sortByHeight : SortsByHeight sortByHeight := by
  intro height keys
  have total : Std.Total fun a b => height a ≤ height b := ⟨fun a b => le_total _ _⟩
  have trans : IsTrans Uint256 fun a b => height a ≤ height b := ⟨fun a b c => le_trans⟩
  exact ⟨perm_insertionSort _ keys, pairwise_insertionSort _ keys⟩

def exampleBranch : Nat → CBlockIndex
  | 0 => .genesis (exampleFields 1)
  | n + 1 => .child (exampleBranch n) (exampleFields (UInt32.ofNat (n + 2)))

/-- The third block of `exampleTree` waits for the second one. -/
def exampleWaiting : ChainstateManager :=
  receiveAll exampleEnv exampleTree
    [exampleArrival (exampleBranch 0) 1, exampleArrival (exampleBranch 2) 1]

def exampleMarked : ChainstateManager :=
  exampleWaiting.modify (exampleBranch 1) fun e =>
    { e with nStatus := { validity := .tree, failedValid := true }, nUndoPos := 0 }

theorem Addable.child {block p} (found : s.find env block.hashPrevBlock = some p)
    (le : p.nHeight + 1 ≤ intMax) (notNull : env.hash block ≠ 0)
    (work : Pow.checkProofOfWork (env.hash block) block.nBits env.params = true) :
    Addable env s block where
  parent := .inr ⟨p, found⟩
  nHeight q isParent := by
    cases found.symm.trans isParent
    exact le
  notNull := notNull
  work := work

theorem Storable.of_blocks (mem : b ∈ s.blocks)
    (parent : ∀ p ∈ b.pprev, s.Linked p ∨ (s.nStatus p).failed = false)
    (nonempty : block.vtx.length % uintModulus ≠ 0) (countable : ∀ c ∈ s.blocks,
      s.totalTxWith b (block.vtx.length % uintModulus) c % uintModulus ≠ 0) :
    Storable s block b where
  parent := parent
  nonempty := nonempty
  countable c inIdx _ _ := by
    obtain inIdx | rfl := inIdx
    · exact countable c inIdx
    · exact countable c mem

theorem builds_exampleTree : Builds exampleEnv exampleTree := by
  have root : Addable exampleEnv .empty (exampleHeader 1 0) :=
    ⟨.inl rfl, fun _ none => (nomatch none), by decide +kernel, by decide +kernel⟩
  have first := Builds.header _ .empty root
  have second := Builds.header (exampleHeader 2 1) first
    (@Addable.child _ _ _ (exampleBranch 0) (by decide +kernel) (by decide) (by decide +kernel)
      (by decide +kernel))
  exact Builds.header (exampleHeader 3 2) second
    (@Addable.child _ _ _ (exampleBranch 1) (by decide +kernel) (by decide) (by decide +kernel)
      (by decide +kernel))

theorem builds_exampleMarked : Builds exampleEnv exampleMarked := by
  have root : Receives exampleTree (exampleArrival (exampleBranch 0) 1).block (exampleBranch 0) ⟨0, 8⟩ := by
    refine ⟨by decide +kernel, by unfold Received; decide +kernel, ?_, by decide, by decide⟩
    exact .of_blocks (by decide +kernel) (nofun) (by decide) (by decide +kernel)
  have first := Builds.data _ _ _ builds_exampleTree root
  have top : Receives (receiveAll exampleEnv exampleTree [exampleArrival (exampleBranch 0) 1])
      (exampleArrival (exampleBranch 2) 1).block (exampleBranch 2) ⟨0, 8⟩ := by
    refine ⟨by decide +kernel, by unfold Received; decide +kernel, ?_, by decide, by decide⟩
    refine .of_blocks (by decide +kernel) (fun p isParent => .inr ?_) (by decide)
      (by decide +kernel)
    cases isParent
    decide +kernel
  have waiting : Builds exampleEnv exampleWaiting := Builds.data _ _ _ first top
  refine .record _ _ _ waiting ⟨by decide +kernel, by decide, by decide, fun _ => rfl⟩

/-- A block that waits for a failed one is loaded as it was, with a new mark. -/
theorem builds_loadBlockIndex_exampleMarked : ∃ m,
    loadBlockIndex exampleEnv sortByHeight (exampleMarked.diskRecords exampleEnv).reverse =
      .ok m ∧ BlockManager.Restored exampleEnv exampleMarked m :=
  builds_loadBlockIndex builds_exampleMarked sortsByHeight_sortByHeight (reverse_perm _)

/-- The second block has so many transactions that its branch counts 2 ^ 32. -/
def exampleWrapped : ChainstateManager :=
  exampleWaiting.receivedBlockTransactions exampleEnv
    (exampleArrival (exampleBranch 1) (2 ^ 32 - 1)).block (exampleBranch 1) ⟨0, 8⟩

/-- The third block was marked before data for a child of it arrives. -/
def exampleOnFailed : ChainstateManager :=
  let added := (exampleWaiting.addToBlockIndex exampleEnv (exampleHeader 4 3)).1
  let marked :=
    added.modifyStatus (exampleBranch 2) fun status => { status with failedValid := true }
  marked.receivedBlockTransactions exampleEnv (exampleArrival (exampleBranch 3) 1).block
    (exampleBranch 3) ⟨0, 8⟩

theorem loaded_exampleWrapped : (exampleWrapped.entry (exampleBranch 2)).nChainTx = 1 ∧
    (loadBlockIndex exampleEnv sortByHeight
      (exampleWrapped.diskRecords exampleEnv)).toOption.map (fun m => (m.node 3).nChainTx)
      = some 0 := by
  have count : (exampleArrival (exampleBranch 1) (2 ^ 32 - 1)).block.vtx.length = 2 ^ 32 - 1 :=
    length_replicate
  rw [exampleWrapped, receivedBlockTransactions, storeData, count]
  decide +kernel

theorem loaded_exampleOnFailed :
    exampleOnFailed.blocksUnlinked = [(exampleBranch 1, exampleBranch 2)] ∧
    (loadBlockIndex exampleEnv sortByHeight
      (exampleOnFailed.diskRecords exampleEnv)).toOption.map (·.blocksUnlinked) =
        some [(2, 3), (3, 4)] := by
  decide +kernel

/-- Two indexes that a restart changes: a linked block is no longer linked, because
    its parent counts 2 ^ 32 transactions, and a block on top of a failed one gets a
    waiting pair. -/
theorem loadBlockIndex_not_restored :
    (∃ m, loadBlockIndex exampleEnv sortByHeight (exampleWrapped.diskRecords exampleEnv) =
        .ok m ∧ ¬ BlockManager.Restored exampleEnv exampleWrapped m) ∧
      ∃ m, loadBlockIndex exampleEnv sortByHeight (exampleOnFailed.diskRecords exampleEnv) =
        .ok m ∧ ¬ BlockManager.Restored exampleEnv exampleOnFailed m := by
  constructor
  · obtain ⟨before, loaded⟩ := loaded_exampleWrapped
    obtain ⟨m, isLoaded, after⟩ := Option.map_eq_some_iff.mp loaded
    refine ⟨m, toOption_eq_some.mp isLoaded, fun restored => ?_⟩
    have known : exampleBranch 2 ∈ exampleWrapped.blocks := by
      rw [exampleWrapped, relinked_received.blocks]
      decide +kernel
    have hash : (exampleBranch 2).key exampleEnv = 3 := by decide +kernel
    have count := restored.nChainTx known
    rw [hash, after, before] at count
    exact Nat.zero_ne_one count
  · obtain ⟨before, loaded⟩ := loaded_exampleOnFailed
    obtain ⟨m, isLoaded, after⟩ := Option.map_eq_some_iff.mp loaded
    refine ⟨m, toOption_eq_some.mp isLoaded, fun restored => ?_⟩
    have lengths := restored.pairs.length_eq
    rw [after, before] at lengths
    cases lengths

end ChainstateManager

end HobbyHash
