import HobbyHash.Chainstate.Control
import HobbyHash.Chainstate.Submission

/-! # Runs of a node

A run starts with the genesis block and takes any number of operations: headers
and blocks arrive, the best chain is activated, and the user invalidates,
reconsiders and prefers blocks. After every operation of a run that respects
`Admissible`, `CheckBlockIndex` passes. Where an operation is not admissible the
check can fail, as the examples at the end show.
-/

namespace HobbyHash

open Machine CBlockIndex Library List Function

variable {block : CBlockHeader} {now : Int} {minPowChecked : Bool}

namespace ChainstateManager

variable {env : IndexEnv} {connector : BlockConnector} {s s' : ChainstateManager}
  {tip b : CBlockIndex}

/-- `LoadGenesisBlock`, on an index that holds nothing. -/
def loadGenesisBlock (env : IndexEnv) (block : CBlock) (blockPos : FlatFilePos) :
    ChainstateManager :=
  let added := empty.addToBlockIndex env block.toCBlockHeader
  added.1.receivedBlockTransactions env block added.2 blockPos

/-- The genesis block of a network and the place its data is written to. -/
structure GenesisBlock (env : IndexEnv) where
  block : CBlock
  blockPos : FlatFilePos
  first : block.hashPrevBlock = 0
  hash : env.hash block.toCBlockHeader = env.params.hashGenesisBlock
  nonempty : block.vtx.length % uintModulus ≠ 0

theorem linkQueue_single (nothing : s.blocksUnlinked = []) :
    s.linkQueue env [b] = s.linkBlock env b := by
  have unlinked : (s.linkBlock env b).blocksUnlinked = [] :=
    (blocksUnlinked_linkBlock env s b).trans nothing
  have drop : (s.linkBlock env b).dropWaiting b = s.linkBlock env b := by
    generalize s.linkBlock env b = linked at *
    cases linked
    subst unlinked
    rfl
  rw [linkQueue, drop, waiting, unlinked]
  exact linkQueue.eq_1 env _

namespace GenesisBlock

variable (g : GenesisBlock env)

def index : CBlockIndex := .genesis g.block.toHeaderFields

def entry : BlockEntry where
  nStatus :=
    { validity := .transactions
      haveData := true
      optWitness := decide (env.params.segwitHeight ≤ 0) }
  nTx := g.block.vtx.length % uintModulus
  nChainTx := g.block.vtx.length % uintModulus
  nSequenceId := 1
  nFile := g.blockPos.nFile
  nDataPos := g.blockPos.nPos

/-- The index after the genesis block was loaded and connected. -/
def started : ChainstateManager :=
  { loadGenesisBlock env g.block g.blockPos with tip := some g.index }

theorem started_eq : g.started =
    { empty with
      blocks := [g.index]
      entry := update (fun _ => {}) g.index g.entry
      setBlockIndexCandidates := [g.index]
      tip := some g.index
      bestHeader := some g.index
      nBlockSequenceId := 2 } := by
  have loaded : loadGenesisBlock env g.block g.blockPos =
      ((empty.addNew g.index).storeData env g.block g.index g.blockPos).linkBlock env g.index :=
    linkQueue_single rfl
  rw [started, loaded]
  simp [linkBlock, tryAddBlockIndexCandidate, storeData, modify, addNew, prevChainTx, pprev,
    insertCandidate, empty, index, entry]
  rfl

theorem entry_started : g.started.entry g.index = g.entry := by
  rw [started_eq]
  change update (fun _ => ({} : BlockEntry)) g.index g.entry g.index = g.entry
  rw [update_self]

theorem mem_started : b ∈ g.started.blocks ↔ b = g.index := by
  rw [started_eq]
  exact mem_singleton

theorem hash_index : g.index.getBlockHash env.hash = env.params.hashGenesisBlock := by
  rw [← g.hash]
  change env.hash { g.block.toHeaderFields with hashPrevBlock := 0 } = _
  rw [← g.first]

theorem received_started : g.started.Received g.index := by
  rw [Received, nStatus, entry_started]
  rfl

theorem linked_started : g.started.Linked g.index := by
  rw [Linked, entry_started]
  exact g.nonempty

theorem only_index : child p f ∉ g.started.blocks :=
  fun inIdx => nomatch g.mem_started.mp inIdx

theorem linkState_started : LinkState g.started [] where
  closed := fun p f inIdx => absurd inIdx g.only_index
  counted := by
    intro b inIdx _
    rw [g.mem_started.mp inIdx]
    refine ⟨g.received_started, ?_⟩
    rw [entry_started]
    change _ = (0 + g.block.vtx.length % uintModulus) % uintModulus
    rw [Nat.zero_add, Nat.mod_mod]
    rfl
  parent := fun p f inIdx => absurd inIdx g.only_index
  ready := nofun
  queueNodup := .nil
  waits := by
    rw [started_eq]
    exact nofun
  stored := by
    intro b inIdx _
    rw [g.mem_started.mp inIdx]
    exact .inl g.linked_started
  unlinkedNodup := by
    rw [started_eq]
    exact .nil

theorem indexTree_started : IndexTree env g.started where
  link := g.linkState_started
  nodup := by
    rw [started_eq]
    exact nodup_singleton _
  root := by
    refine ⟨_, g.mem_started.mpr rfl, g.linked_started, g.hash_index, fun f inIdx => ?_⟩
    exact CBlockIndex.genesis.inj (g.mem_started.mp inIdx)
  hashes := by
    intro a aKnown b bKnown _
    rw [g.mem_started.mp aKnown, g.mem_started.mp bKnown]
  rising := fun p f inIdx => absurd inIdx g.only_index
  sequence := by
    intro b inIdx unlinked
    rw [g.mem_started.mp inIdx] at unlinked
    exact absurd g.linked_started unlinked
  reverse := by
    rw [started_eq]
    exact Int.negSucc_lt_zero 0
  data := by
    intro b inIdx
    rw [g.mem_started.mp inIdx, entry_started]
    exact iff_of_true g.received_started g.nonempty

theorem nStatus_started : g.started.nStatus g.index = g.entry.nStatus := by
  rw [nStatus, entry_started]

theorem indexed_started : Indexed env g.started := by
  refine .of_agrees g.indexTree_started ?agrees (fun p f h inIdx => absurd inIdx g.only_index)
    ?failed ?failedBlocks ?active
  case agrees =>
    intro b inIdx
    rw [g.mem_started.mp inIdx, nStatus_started]
    exact .of_transactions rfl rfl
  case failed =>
    intro b inIdx _
    rw [g.mem_started.mp inIdx, nStatus_started]
    rfl
  case failedBlocks =>
    rw [started_eq]
    exact nofun
  case active =>
    rw [started_eq]
    intro tip isTip p f lt
    cases isTip
    cases lt

theorem settled_started : Settled env connector g.started g.index := by
  have tip : g.started.tip = some g.index := rfl
  have cands : g.started.setBlockIndexCandidates = [g.index] := by rw [started_eq]
  refine .intro g.indexed_started tip (g.mem_started.mpr rfl) g.linked_started ?_ ?_ ?_ ?_
  · rintro a ⟨⟩
    exact congrArg BlockStatus.failed g.nStatus_started
  · rintro p f ⟨⟩
  · rw [cands]
    intro c mem
    rw [mem_singleton.mp mem]
    exact ⟨g.mem_started.mpr rfl, g.linked_started, le_rfl⟩
  · rw [cands]
    intro b inIdx _ _ _
    exact mem_singleton.mpr (g.mem_started.mp inIdx)

end GenesisBlock

/-- An operation of a node that has a single chainstate. -/
inductive Operation where
  | acceptBlockHeader (now : Int) (minPowChecked : Bool) (block : CBlockHeader)
  | acceptBlock (now : Int) (arrival : BlockArrival)
  | activateBestChain
  | invalidateBlock (pindex : CBlockIndex)
  | resetBlockFailureFlags (pindex : CBlockIndex)
  | preciousBlock (pindex : CBlockIndex)
  | pruneBlockIndexCandidates

/-- The index after an operation, or `none` if `ActivateBestChain` takes more than
    the given passes. -/
def Operation.run (env : IndexEnv) (connector : BlockConnector) (passes : Nat)
    (s : ChainstateManager) : Operation → Except Fault (Option ChainstateManager)
  | .acceptBlockHeader now minPowChecked block => do
    return some (← s.acceptBlockHeader env now minPowChecked block).1
  | .acceptBlock now arrival => do return some (← s.acceptBlock env now arrival).1
  | .activateBestChain => s.activateBestChain env connector passes
  | .invalidateBlock pindex => do return some (← s.invalidateBlock env pindex).1
  | .resetBlockFailureFlags pindex => .ok (some (s.resetBlockFailureFlags env pindex))
  | .preciousBlock pindex => s.preciousBlock env connector passes pindex
  | .pruneBlockIndexCandidates => do return some (← s.pruneBlockIndexCandidates env)

def Operation.header : Operation → Option CBlockHeader
  | .acceptBlockHeader _ _ block => some block
  | .acceptBlock _ arrival => some arrival.block.toCBlockHeader
  | _ => none

/-- What an operation needs of the index: work fits into its type, data that
    arrives is counted right, blocks named by the user are in the index, and the
    conditions of `ResetBlockFailureFlags` and of `PreciousBlock` on the tip. -/
def Operation.Admissible (env : IndexEnv) (s : ChainstateManager) : Operation → Prop
  | .acceptBlockHeader _ _ block => WorkFits env s block
  | .acceptBlock _ arrival =>
    WorkFits env s arrival.block.toCBlockHeader ∧
    (arrival.failure = none → ∀ b, (s.addToBlockIndex env arrival.block.toCBlockHeader).2 = b →
      (b ∈ s.blocks → ¬ s.Received b) → Storable s arrival.block b)
  | .activateBestChain => True
  | .invalidateBlock pindex => pindex ∈ s.blocks
  | .resetBlockFailureFlags pindex => Resettable env s pindex
  | .preciousBlock pindex =>
    pindex ∈ s.blocks ∧
    (s.tip = some pindex → s.preciousSequenceId pindex ≤ (s.entry pindex).nSequenceId)
  | .pruneBlockIndexCandidates => True

/-- The index can be reached by a run of admissible operations. -/
inductive Reaches (env : IndexEnv) (connector : BlockConnector) (g : GenesisBlock env) :
    ChainstateManager → Prop where
  | started : Reaches env connector g g.started
  | step {s s' : ChainstateManager} {passes : Nat} (operation : Operation)
      (reached : Reaches env connector g s) (admissible : operation.Admissible env s)
      (ran : operation.run env connector passes s = .ok (some s')) : Reaches env connector g s'

/-- The retarget rule has no answer for a header. -/
def RetargetFaults (env : IndexEnv) (s : ChainstateManager) (block : CBlockHeader) (fault : Fault) :
    Prop :=
  ∃ p, s.find env block.hashPrevBlock = some p ∧
    Pow.getNextWorkRequired p block.toHeaderFields env.params = .error fault

theorem contextualCheckBlockHeader_ensures (isParent : s.find env block.hashPrevBlock = some b) :
    Ensures (fun fault => ¬ RetargetFaults env s block fault)
      (s.contextualCheckBlockHeader env now block b) (fun _ => True) := by
  cases required : Pow.getNextWorkRequired b block.toHeaderFields env.params with
  | error fault =>
    rw [contextualCheckBlockHeader, required]
    exact not_not.mpr ⟨b, isParent, required⟩
  | ok nBits =>
    rw [contextualCheckBlockHeader, required]
    change Ensures _ (if _ then _ else _) _
    repeat' split
    all_goals trivial

theorem acceptBlockHeader_ensures (marked : ∀ b ∈ s.failedBlocks, (s.nStatus b).failedValid = true) :
    Ensures (fun fault => ¬ RetargetFaults env s block fault)
      (s.acceptBlockHeader env now minPowChecked block) (fun _ => True) := by
  rw [acceptBlockHeader]
  split
  · trivial
  split
  · split <;> trivial
  split
  · trivial
  split
  · trivial
  rename_i p isParent
  split
  · trivial
  refine (contextualCheckBlockHeader_ensures isParent).andThen fun rejection => ?_
  cases rejection with
  | some rejection => trivial
  | none =>
    dsimp only
    split
    · trivial
    split
    · trivial
    rename_i failed found
    have mem : failed ∈ s.failedBlocks := by
      obtain ⟨none, -⟩ | ⟨other, inList, isOther, -⟩ := @failedAncestor_spec env p s.failedBlocks
      · cases none.symm.trans found
      · cases isOther.symm.trans found
        exact inList
    rw [assert_eq_ok.mpr (marked failed mem)]
    trivial

theorem acceptBlock_ensures (marked : ∀ b ∈ s.failedBlocks, (s.nStatus b).failedValid = true) :
    Ensures (fun fault => ¬ RetargetFaults env s arrival.block.toCBlockHeader fault)
      (s.acceptBlock env now arrival) (fun _ => True) := by
  refine (acceptBlockHeader_ensures marked).andThen fun res => ?_
  obtain ⟨s', rejection | b⟩ := res
  · trivial
  · trivial

theorem activateBestChain_ensures (underway : Underway env connector s tip tip) (passes : Nat) :
    Ensures (fun _ => True) (s.activateBestChain env connector passes)
      (fun res => ∀ s', res = some s' → Activated env connector s s') := by
  apply Loop.ensures (Activating env connector s)
  · intro a activating
    obtain ⟨next, ret, holds⟩ := activationPass_spec activating
    rw [ret]
    cases next with
    | inl a' => exact holds.1
    | inr s' => exact holds
  · exact activating_start underway

theorem Settled.activateBestChain (settled : Settled env connector s tip) (passes : Nat) :
    Ensures (fun _ => True) (s.activateBestChain env connector passes)
      (fun res => ∀ s', res = some s' → ∃ tip', Settled env connector s' tip') := by
  apply (activateBestChain_ensures settled.underway passes).mono
  intro res activated s' isSome
  exact settled.activated (activated s' isSome)

theorem Settled.activateBestChain_ends (settled : Settled env connector s tip) :
    ∃ enough, ∀ passes, enough ≤ passes → s.activateBestChain env connector passes ≠ .ok none := by
  obtain ⟨enough, ends⟩ := activateBestChain_spec settled.underway
  refine ⟨enough, fun passes many none => ?_⟩
  obtain ⟨s', ret, -⟩ := ends passes many
  cases none.symm.trans ret

theorem Settled.rises (settled : Settled env connector s tip)
    (activated : Activated env connector s s') :
    ∃ tip', Settled env connector s' tip' ∧ Target env s' tip' ∧
      s.rank env tip ≤ s.rank env tip' ∧ (Target env s tip → tip' = tip) := by
  obtain ⟨tip', indexed, underway⟩ := settled.activated activated
  obtain ⟨now, floor, ⟨isTip, _⟩, writes, isTarget⟩ := activated
  obtain rfl := Option.some.inj (isTip.symm.trans underway.isTip)
  obtain ⟨-, before⟩ := settled
  have frame := writes.frame
  have known : tip ∈ s'.blocks := frame.blocks ▸ before.tipKnown
  have kept : s'.Sound tip := by
    intro a lt
    cases a with
    -- The root lies below the new tip too, which carries no mark.
    | genesis f =>
      have root := mem_blocks_of_ancestor underway.grounded.closed known lt
      exact underway.floorSound _ ((indexed.consistent underway).genesisActive f root)
    | child p f =>
      obtain same | ⟨-, refused⟩ := writes.failedValid (child p f)
      · exact same.trans (before.floorSound _ lt)
      · cases (before.tipAccepted p f lt).symm.trans refused
  have le : s.rank env tip ≤ s.rank env now := by
    rw [← frame.rank]
    refine (le_total _ _).elim id fun higher => isTarget.best tip ?_
    exact underway.complete tip known (frame.linked.mpr before.tipLinked) kept higher
  have sound : s.Sound now := by
    intro a lt
    have unmarked := underway.floorSound a lt
    obtain same | ⟨marked, -⟩ := writes.failedValid a
    · exact same.symm.trans unmarked
    · cases marked.symm.trans unmarked
  refine ⟨now, ⟨indexed, underway⟩, isTarget, le, fun best => rank_injective (le_antisymm ?_ le)⟩
  exact best.best now (before.complete now (frame.blocks ▸ underway.tipKnown)
    (frame.linked.mp underway.tipLinked) sound le)

theorem preciousBlock_eq (ran : s.markPrecious env b = .ok (s', active)) (passes : Nat) :
    s.preciousBlock env connector passes b =
      if active then s'.activateBestChain env connector passes else .ok (some s') := by
  rw [preciousBlock, ran]
  cases active with
  | false => rfl
  | true => rfl

theorem Settled.operation {operation : Operation} (settled : Settled env connector s tip)
    (admissible : operation.Admissible env s) (passes : Nat) :
    Ensures (fun fault => ¬ ∃ block, operation.header = some block ∧ RetargetFaults env s block fault)
      (operation.run env connector passes s)
      (fun res => ∀ s', res = some s' → ∃ tip', Settled env connector s' tip') := by
  have marked := fun b mem => (settled.indexed.failedBlocks b mem).2
  cases operation with
  | acceptBlockHeader now minPowChecked block =>
    cases ran : s.acceptBlockHeader env now minPowChecked block with
    | error fault =>
      rw [Operation.run, ran]
      refine Ensures.fail (not_not.mpr ⟨block, rfl, ?_⟩)
      exact not_not.mp ((acceptBlockHeader_ensures marked).ne_error · ran)
    | ok res =>
      rw [Operation.run, ran]
      rintro _ ⟨⟩
      exact ⟨tip, settled.acceptBlockHeader admissible ran⟩
  | acceptBlock now arrival =>
    cases ran : s.acceptBlock env now arrival with
    | error fault =>
      rw [Operation.run, ran]
      refine Ensures.fail (not_not.mpr ⟨arrival.block.toCBlockHeader, rfl, ?_⟩)
      exact not_not.mp ((acceptBlock_ensures marked).ne_error · ran)
    | ok res =>
      rw [Operation.run, ran]
      rintro _ ⟨⟩
      exact ⟨tip, settled.acceptBlock admissible.1 admissible.2 ran⟩
  | activateBestChain => exact (settled.activateBestChain passes).weaken fun _ _ => trivial
  | invalidateBlock pindex =>
    obtain ⟨s', done, tip', ran, settled'⟩ := settled.invalidateBlock admissible
    rw [Operation.run, ran]
    rintro _ ⟨⟩
    exact ⟨tip', settled'⟩
  | resetBlockFailureFlags pindex =>
    rintro _ ⟨⟩
    exact ⟨tip, settled.resetBlockFailureFlags admissible⟩
  | preciousBlock pindex =>
    obtain ⟨s', active, ran, settled'⟩ := settled.markPrecious admissible.1 fun isTip => by
      subst isTip
      exact admissible.2 settled.underway.isTip
    rw [Operation.run, preciousBlock_eq ran]
    cases active with
    | false =>
      rintro _ ⟨⟩
      exact ⟨tip, settled'⟩
    | true => exact (settled'.activateBestChain passes).weaken fun _ _ => trivial
  | pruneBlockIndexCandidates =>
    obtain ⟨s', ran, settled'⟩ := settled.pruneBlockIndexCandidates
    rw [Operation.run, ran]
    rintro _ ⟨⟩
    exact ⟨tip, settled'⟩

theorem bind_some_ne_none {α : Type} {x : Except Fault α} {next : α → ChainstateManager} :
    (x >>= fun a => Except.ok (some (next a))) ≠ .ok none := by
  intro ran
  obtain ⟨a, -, ret⟩ := bind_eq_ok.mp ran
  cases ret

theorem Settled.operation_ends {operation : Operation} (settled : Settled env connector s tip)
    (admissible : operation.Admissible env s) :
    ∃ enough, ∀ passes, enough ≤ passes → operation.run env connector passes s ≠ .ok none := by
  cases operation with
  | activateBestChain => exact settled.activateBestChain_ends
  | preciousBlock pindex =>
    obtain ⟨s', active, ran, settled'⟩ := settled.markPrecious admissible.1 fun isTip => by
      subst isTip
      exact admissible.2 settled.underway.isTip
    simp only [Operation.run, preciousBlock_eq ran]
    cases active with
    | false => exact ⟨0, fun _ _ => nofun⟩
    | true => exact settled'.activateBestChain_ends
  | acceptBlockHeader now minPowChecked block =>
    exact ⟨0, fun _ _ => bind_some_ne_none⟩
  | acceptBlock now arrival => exact ⟨0, fun _ _ => bind_some_ne_none⟩
  | invalidateBlock pindex => exact ⟨0, fun _ _ => bind_some_ne_none⟩
  | resetBlockFailureFlags pindex => exact ⟨0, fun _ _ => nofun⟩
  | pruneBlockIndexCandidates => exact ⟨0, fun _ _ => bind_some_ne_none⟩

theorem Reaches.settled {g : GenesisBlock env} (reached : Reaches env connector g s) :
    ∃ tip, Settled env connector s tip := by
  induction reached with
  | started => exact ⟨g.index, g.settled_started⟩
  | step operation _ admissible ran ih =>
    obtain ⟨tip, settled⟩ := ih
    exact (settled.operation admissible _).of_eq_ok ran _ rfl

/-- Every index that a run of admissible operations reaches passes
    `CheckBlockIndex`, and no assertion fails in the next operation. -/
theorem reaches_checkBlockIndex {g : GenesisBlock env} (reached : Reaches env connector g s) :
    s.checkBlockIndex env = .ok () ∧
    ∀ operation : Operation, operation.Admissible env s →
      (∀ passes fault, operation.run env connector passes s = .error fault →
        ∃ block, operation.header = some block ∧ RetargetFaults env s block fault) ∧
      ∃ enough, ∀ passes, enough ≤ passes → operation.run env connector passes s ≠ .ok none := by
  obtain ⟨tip, settled⟩ := reached.settled
  refine ⟨settled.check, fun operation admissible => ⟨fun passes fault failed => ?_,
    settled.operation_ends admissible⟩⟩
  by_contra other
  exact (settled.operation admissible passes).ne_error other failed

def exampleBlock (hash : UInt32) (hashPrevBlock : Uint256) : CBlock :=
  { exampleHeader hash hashPrevBlock with vtx := [⟨[], [], 2, 0⟩] }

def exampleGenesis : GenesisBlock exampleEnv where
  block := exampleBlock 1 0
  blockPos := ⟨0, 8⟩
  first := rfl
  hash := rfl
  nonempty := by decide

def headerArrives (hash : UInt32) (hashPrevBlock : Uint256) : Operation :=
  .acceptBlockHeader (2 * 10 ^ 18) true (exampleHeader hash hashPrevBlock)

/-- The block with the given hash arrives after it was asked for. -/
def dataArrives (hash : UInt32) (hashPrevBlock : Uint256) : Operation :=
  .acceptBlock (2 * 10 ^ 18)
    { block := exampleBlock hash hashPrevBlock
      fRequested := true
      minPowChecked := true
      failure := none
      blockPos := ⟨0, 8⟩ }

def exampleRun (connector : BlockConnector) (operations : List Operation) :
    Option ChainstateManager :=
  operations.foldlM (fun s operation => (operation.run exampleEnv connector 8 s).toOption.join)
    exampleGenesis.started

theorem dataArrives_admissible :
    (dataArrives 2 1).Admissible exampleEnv exampleGenesis.started := by
  have added : (exampleGenesis.started.addToBlockIndex exampleEnv (exampleHeader 2 1)).2 =
      exampleShort := by decide +kernel
  have lt : exampleRoot.nChainWork + getBlockProof (exampleHeader 2 1).nBits <
      ArithUint256.modulus := by decide +kernel
  have ne : exampleGenesis.started.totalTxWith exampleShort 1 exampleShort % uintModulus ≠ 0 := by
    decide +kernel
  constructor
  · intro _ p isParent
    rw [exampleGenesis.mem_started.mp (find_eq_some isParent).1]
    exact lt
  · intro _ b isNew _
    cases added.symm.trans isNew
    constructor
    case parent =>
      intro p isParent
      cases isParent
      exact .inl exampleGenesis.linked_started
    case nonempty => decide
    case countable =>
      intro c inIdx above _
      obtain inIdx | same := inIdx
      · rw [exampleGenesis.mem_started.mp inIdx] at above
        cases above
      · rw [same]
        exact ne

/-- A block arrives and is connected. -/
theorem reaches_exampleShort : ∃ s, Reaches exampleEnv (refusing none) exampleGenesis s ∧
    s.tip = some exampleShort := by
  have tip : (exampleRun (refusing none) [dataArrives 2 1, .activateBestChain]).map (·.tip) =
      some (some exampleShort) := by decide +kernel
  obtain ⟨s, ran, isTip⟩ := Option.map_eq_some_iff.mp tip
  obtain ⟨s₁, first, rest⟩ := Option.bind_eq_some_iff.mp ran
  obtain ⟨s₂, second, ret⟩ := Option.bind_eq_some_iff.mp rest
  cases ret
  have conn := toOption_eq_some.mp (Option.join_eq_some_iff.mp second)
  have arrived := toOption_eq_some.mp (Option.join_eq_some_iff.mp first)
  have reached := Reaches.step _ .started dataArrives_admissible arrived
  exact ⟨s, .step .activateBestChain reached trivial conn, isTip⟩

theorem reaches_checkBlockIndex_exampleShort : ∃ s, s.tip = some exampleShort ∧
    s.checkBlockIndex exampleEnv = .ok () ∧
    ∀ operation : Operation, operation.Admissible exampleEnv s →
      (∀ passes fault, operation.run exampleEnv (refusing none) passes s = .error fault →
        ∃ block, operation.header = some block ∧ RetargetFaults exampleEnv s block fault) ∧
      ∃ enough, ∀ passes, enough ≤ passes →
        operation.run exampleEnv (refusing none) passes s ≠ .ok none := by
  obtain ⟨s, reached, isTip⟩ := reaches_exampleShort
  exact ⟨s, isTip, reaches_checkBlockIndex reached⟩

/-- From every index that a run reaches, `ActivateBestChain` returns, never with a
    worse tip, and calling it again does not move the tip. -/
theorem activateBestChain_stable (reached : Reaches env connector g s) :
    ∃ enough, ∀ passes, enough ≤ passes → ∃ s' tip tip',
      s.activateBestChain env connector passes = .ok (some s') ∧ s.tip = some tip ∧
      s'.tip = some tip' ∧ s.worse env tip' tip = false ∧
      ∀ again s'', s'.activateBestChain env connector again = .ok (some s'') →
        s''.tip = some tip' := by
  obtain ⟨tip, settled⟩ := reached.settled
  obtain ⟨enough, ends⟩ := activateBestChain_spec settled.underway
  refine ⟨enough, fun passes many => ?_⟩
  obtain ⟨s', ret, activated⟩ := ends passes many
  obtain ⟨tip', settled', best, le, -⟩ := settled.rises activated
  refine ⟨s', tip, tip', ret, settled.underway.isTip, settled'.underway.isTip,
    not_worse_iff.mpr le, fun again s'' ran => ?_⟩
  obtain ⟨_, settled'', -, -, same⟩ :=
    settled'.rises ((activateBestChain_ensures settled'.underway again).of_eq_ok ran _ rfl)
  exact same best ▸ settled''.underway.isTip

theorem activateBestChain_stable_short : ∃ (s s' : ChainstateManager) (passes : Nat)
    (tip : CBlockIndex), s.tip = some exampleShort ∧
    s.activateBestChain exampleEnv (refusing none) passes = .ok (some s') ∧ s'.tip = some tip ∧
    s.worse exampleEnv tip exampleShort = false ∧
    ∀ again s'', s'.activateBestChain exampleEnv (refusing none) again = .ok (some s'') →
      s''.tip = some tip := by
  obtain ⟨s, reached, isTip⟩ := reaches_exampleShort
  obtain ⟨passes, ends⟩ := activateBestChain_stable reached
  obtain ⟨s', before, tip, ret, isBefore, after, notWorse, stays⟩ := ends passes le_rfl
  cases isTip.symm.trans isBefore
  exact ⟨s, s', passes, tip, isTip, ret, after, notWorse, stays⟩

def checkAfter (connector : BlockConnector) (operations : List Operation) :
    Option (Except Fault Unit) :=
  (exampleRun connector operations).map (·.checkBlockIndex exampleEnv)

/-- Where `CheckBlockIndex` fails: data arrives on top of a failed block that is not
    linked yet, and then the data it waits for; a block is reset whose sibling got
    its mark from the same ancestor; a block without data is reset whose ancestor
    has data; the tip is made precious after it was made precious on a lower tip. -/
theorem checkBlockIndex_fails :
    checkAfter (refusing none)
        [headerArrives 4 1, headerArrives 5 4, headerArrives 6 5, dataArrives 5 4,
          .invalidateBlock exampleLong, dataArrives 6 5, dataArrives 4 1] =
      some (.error (.assertion
        "(pindexFirstNeverProcessed == nullptr) == pindex->HaveNumChainTxs()")) ∧
    checkAfter (refusing (some exampleLow))
        [dataArrives 4 1, dataArrives 5 4, dataArrives 6 4, .activateBestChain, dataArrives 2 1,
          dataArrives 3 2, dataArrives 7 3, .activateBestChain,
          .resetBlockFailureFlags exampleLong] =
      some (.error (.assertion "(pindex->nStatus & BLOCK_FAILED_MASK) == 0")) ∧
    checkAfter (refusing (some exampleLow))
        [dataArrives 4 1, headerArrives 5 4, .activateBestChain,
          .resetBlockFailureFlags exampleLong] =
      some (.error (.assertion "c->setBlockIndexCandidates.count(pindex)")) ∧
    checkAfter (refusing none)
        [dataArrives 2 1, dataArrives 3 1, .invalidateBlock exampleShort,
          .invalidateBlock exampleOther, .preciousBlock exampleShort, .preciousBlock exampleOther,
          .resetBlockFailureFlags exampleShort, .resetBlockFailureFlags exampleOther,
          .activateBestChain, .preciousBlock exampleOther] =
      some (.error (.assertion "c->setBlockIndexCandidates.count(pindex)")) := by
  decide +kernel

end ChainstateManager

end HobbyHash
