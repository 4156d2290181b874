import HobbyHash.MedianTime
import HobbyHash.Validation.Reorg

/-! # Time locks

What the two lock time opcodes promise once a block is accepted. The opcodes compare
their operand with a field of the transaction only; that the field is due is left to
`IsFinalTx` in `ContextualCheckBlock` and to `SequenceLocks` in `ConnectBlock`. The
opcodes are modelled at the point where `EvalScript` executes them, with the stack they
find there.
-/

namespace HobbyHash.Validation

open Machine Consensus CBlockIndex Pow.Schedule List

def locktimeThreshold : Int := 500000000

def sequenceFinal : UInt32 := 0xffffffff

def isFinalTx (tx : CTransaction) (nBlockHeight nBlockTime : Int) : Bool :=
  let nLockTime : Int := tx.nLockTime.toNat
  if tx.nLockTime = 0 then true
  else if nLockTime < (if nLockTime < locktimeThreshold then nBlockHeight else nBlockTime) then true
  else tx.vin.all fun txin => txin.nSequence = sequenceFinal

/-- `ContextualCheckBlock`, up to the rule that all transactions are final. -/
def contextualCheckFinal (env : Env) (block : CBlock) (pindexPrev : Option CBlockIndex) :
    Except (Failure BlockValidationResult) Unit :=
  let nHeight : Int := match pindexPrev with
    | none => 0
    | some pindexPrev => pindexPrev.nHeight + 1
  -- `DeploymentActiveAfter(pindexPrev, chainman, Consensus::DEPLOYMENT_CSV)`
  let nLockTimeCutoff : Except Fault Int :=
    if nHeight ≥ env.params.csvHeight then
      match pindexPrev with
      | none => .error (.assertion "pindexPrev != nullptr")
      | some pindexPrev => .ok pindexPrev.getMedianTimePast
    else .ok block.nTime.toNat
  do
    let nLockTimeCutoff ← lift nLockTimeCutoff
    if block.vtx.all fun tx => isFinalTx tx nHeight nLockTimeCutoff then return ()
    else reject "bad-txns-nonfinal"

/-- `ScriptError_t`, as far as these opcodes set it. -/
inductive ScriptError where
  | unknownError
  | invalidStackOperation
  | negativeLocktime
  | unsatisfiedLocktime
  deriving DecidableEq, Repr

def setVch (vch : List UInt8) : Int :=
  match vch.getLast? with
  | none => 0
  | some last =>
    let result : Int := vch.foldr (fun byte above => byte.toNat + 256 * above) 0
    if last &&& 0x80 ≠ 0 then -(result - 0x80 * 256 ^ (vch.length - 1)) else result

/-- `CScriptNum` of a stack element; the exceptions end the script. -/
def scriptNum (vch : List UInt8) (fRequireMinimal : Bool) (nMaxNumSize : Nat) :
    Except ScriptError Int :=
  if vch.length > nMaxNumSize then .error .unknownError
  else if fRequireMinimal && vch.getLast?.any (fun last => last &&& 0x7f = 0) &&
      (vch.length ≤ 1 || (vch[vch.length - 2]?).any fun second => second &&& 0x80 = 0) then
    .error .unknownError
  else .ok (setVch vch)

section Opcodes

variable (tx : CTransaction) (nIn : Fin tx.vin.length)

def checkLockTime (nLockTime : Int) : Bool :=
  let txToLockTime : Int := tx.nLockTime.toNat
  if ¬ ((txToLockTime < locktimeThreshold ∧ nLockTime < locktimeThreshold) ∨
      (txToLockTime ≥ locktimeThreshold ∧ nLockTime ≥ locktimeThreshold)) then false
  else if nLockTime > txToLockTime then false
  else if sequenceFinal = (tx.vin.get nIn).nSequence then false
  else true

/-- `CheckSequence`. It is called with numbers that are not negative only. -/
def checkSequence (nSequence : Int) : Bool :=
  let txToSequence := (tx.vin.get nIn).nSequence
  if tx.nVersion.toUInt32 < 2 then false
  else if txToSequence &&& sequenceLocktimeDisableFlag ≠ 0 then false
  else
    let nLockTimeMask := sequenceLocktimeTypeFlag ||| sequenceLocktimeMask
    let txToSequenceMasked := (txToSequence &&& nLockTimeMask).toNat
    let nSequenceMasked := nSequence.toNat &&& nLockTimeMask.toNat
    let typeFlag := sequenceLocktimeTypeFlag.toNat
    if ¬ ((txToSequenceMasked < typeFlag ∧ nSequenceMasked < typeFlag) ∨
        (txToSequenceMasked ≥ typeFlag ∧ nSequenceMasked ≥ typeFlag)) then false
    else if nSequenceMasked > txToSequenceMasked then false
    else true

variable (flags : UInt32) (fRequireMinimal : Bool)

/-- `OP_CHECKLOCKTIMEVERIFY`. The top of the stack comes first. -/
def opCheckLockTimeVerify (stack : List (List UInt8)) : Except ScriptError Unit :=
  if flags &&& scriptVerifyCHECKLOCKTIMEVERIFY = 0 then .ok ()
  else
    match stack with
    | [] => .error .invalidStackOperation
    | top :: _ => do
      let nLockTime ← scriptNum top fRequireMinimal 5
      if nLockTime < 0 then .error .negativeLocktime
      else if checkLockTime tx nIn nLockTime then return ()
      else .error .unsatisfiedLocktime

def opCheckSequenceVerify (stack : List (List UInt8)) : Except ScriptError Unit :=
  if flags &&& scriptVerifyCHECKSEQUENCEVERIFY = 0 then .ok ()
  else
    match stack with
    | [] => .error .invalidStackOperation
    | top :: _ => do
      let nSequence ← scriptNum top fRequireMinimal 5
      if nSequence < 0 then .error .negativeLocktime
      else if nSequence.toNat &&& sequenceLocktimeDisableFlag.toNat ≠ 0 then return ()
      else if checkSequence tx nIn nSequence then return ()
      else .error .unsatisfiedLocktime

end Opcodes

variable {env : Env} {tx : CTransaction} {nIn : Fin tx.vin.length} {n : Int}

theorem isFinalTx_iff : isFinalTx tx height time = true ↔
    tx.nLockTime = 0 ∨
    (tx.nLockTime.toNat : Int) <
      (if (tx.nLockTime.toNat : Int) < locktimeThreshold then height else time) ∨
    ∀ txin ∈ tx.vin, txin.nSequence = sequenceFinal := by
  rw [isFinalTx]
  split
  · simp [*]
  · split <;> simp [*]

theorem checkLockTime_due {height time} (passed : checkLockTime tx nIn n = true)
    (final : isFinalTx tx height time = true) (pos : 0 < height) :
    (n < locktimeThreshold → n < height) ∧ (locktimeThreshold ≤ n → n < time) := by
  simp only [checkLockTime, not_not, Bool.if_false_left, Bool.and_true, Bool.and_eq_true,
    Bool.not_eq_true', decide_eq_false_iff_not] at passed
  obtain ⟨sameKind, le, notFinal⟩ := passed
  obtain zero | due | allFinal := isFinalTx_iff.mp final
  · rw [zero] at sameKind le
    have low : ((0 : UInt32).toNat : Int) < locktimeThreshold := by decide
    have none : ((0 : UInt32).toNat : Int) = 0 := rfl
    omega
  · split at due <;> omega
  · exact absurd (allFinal _ (get_mem tx.vin nIn)).symm notFinal

theorem and_lockTimeMask (x : Nat) :
    x &&& (sequenceLocktimeTypeFlag ||| sequenceLocktimeMask).toNat
      = (x &&& sequenceLocktimeTypeFlag.toNat) + (x &&& sequenceLocktimeMask.toNat) := by
  have flag : x &&& sequenceLocktimeTypeFlag.toNat = 2 ^ 22 * (x.testBit 22).toNat :=
    (Nat.and_two_pow x 22).trans (Nat.mul_comm _ _)
  have low : x &&& sequenceLocktimeMask.toNat < 2 ^ 22 :=
    Nat.and_le_right.trans_lt (by decide)
  have mask : (sequenceLocktimeTypeFlag ||| sequenceLocktimeMask).toNat
      = sequenceLocktimeTypeFlag.toNat ||| sequenceLocktimeMask.toNat := by decide
  rw [mask, Nat.and_or_distrib_left, flag, Nat.two_pow_add_eq_or_of_lt low]

theorem and_typeFlag (x : Nat) : x &&& sequenceLocktimeTypeFlag.toNat = 0 ∨
    x &&& sequenceLocktimeTypeFlag.toNat = sequenceLocktimeTypeFlag.toNat := by
  have flag : x &&& sequenceLocktimeTypeFlag.toNat = (x.testBit 22).toNat * 2 ^ 22 :=
    Nat.and_two_pow x 22
  rw [flag]
  cases x.testBit 22 with
  | false => exact .inl rfl
  | true => exact .inr rfl

theorem checkSequence_passed (passed : checkSequence tx nIn n = true) :
    ∃ s, s = (tx.vin.get nIn).nSequence ∧ 2 ≤ tx.nVersion.toUInt32 ∧
      s &&& sequenceLocktimeDisableFlag = 0 ∧
      (s &&& sequenceLocktimeTypeFlag = 0 ↔ n.toNat &&& sequenceLocktimeTypeFlag.toNat = 0) ∧
      n.toNat &&& sequenceLocktimeMask.toNat ≤ (s &&& sequenceLocktimeMask).toNat := by
  simp only [checkSequence, ne_eq, ite_not, Bool.if_false_left, Bool.if_false_right,
    Bool.and_true, Bool.and_eq_true, Bool.not_eq_true', decide_eq_false_iff_not,
    decide_eq_true_eq, UInt32.toNat_and, and_lockTimeMask] at passed
  obtain ⟨version, enabled, sameKind, le⟩ := passed
  have low : ∀ x : Nat, x &&& sequenceLocktimeMask.toNat < sequenceLocktimeTypeFlag.toNat :=
    fun x => Nat.and_le_right.trans_lt (by decide)
  have kind := and_typeFlag (tx.vin.get nIn).nSequence.toNat
  have kind' := and_typeFlag n.toNat
  have value := low (tx.vin.get nIn).nSequence.toNat
  have value' := low n.toNat
  refine ⟨_, rfl, UInt32.not_lt.mp version, enabled, ?_, ?_⟩
  · rw [← UInt32.toNat_inj, UInt32.toNat_and, UInt32.toNat_zero]
    omega
  · rw [UInt32.toNat_and]
    omega

/-- The locks are not before what the sequence number of an input demands. -/
def LockedBy (block : CBlockIndex) (lock : Int × Int) (input : CTxIn × Nat) : Prop :=
  input.1.nSequence &&& sequenceLocktimeDisableFlag = 0 →
    (input.1.nSequence &&& sequenceLocktimeTypeFlag = 0 →
      (input.2 : Int) + (input.1.nSequence &&& sequenceLocktimeMask).toNat - 1 ≤ lock.1) ∧
    (input.1.nSequence &&& sequenceLocktimeTypeFlag ≠ 0 →
      ∃ coinParent, block.getAncestor (max ((input.2 : Int) - 1) 0) = some coinParent ∧
        coinParent.getMedianTimePast + 512 * (input.1.nSequence &&& sequenceLocktimeMask).toNat - 1
          ≤ lock.2)

section SequenceLocks

variable {block : CBlockIndex} {lock lock' : Int × Int} {input : CTxIn × Nat}
  {inputs : List (CTxIn × Nat)}

theorem LockedBy.mono (locked : LockedBy block lock input) (height : lock.1 ≤ lock'.1)
    (time : lock.2 ≤ lock'.2) : LockedBy block lock' input := by
  intro enabled
  obtain ⟨byHeight, byTime⟩ := locked enabled
  refine ⟨fun isHeight => (byHeight isHeight).trans height, fun isTime => ?_⟩
  obtain ⟨coinParent, found, le⟩ := byTime isTime
  exact ⟨coinParent, found, le.trans time⟩

theorem sequenceLock_raises (run : sequenceLock block lock input = .ok lock') :
    lock.1 ≤ lock'.1 ∧ lock.2 ≤ lock'.2 ∧ LockedBy block lock' input := by
  simp only [sequenceLock] at run
  split at run
  · rename_i disabled
    cases run
    exact ⟨le_rfl, le_rfl, fun enabled => absurd enabled disabled⟩
  split at run
  · rename_i timed
    split at run
    · cases run
    rename_i coinParent found
    cases run
    refine ⟨le_rfl, le_max_left _ _, fun _ => ⟨fun byHeight => absurd byHeight timed, fun _ =>
      ⟨coinParent, found, ?_⟩⟩⟩
    simp only [sequenceLocktimeGranularity]
    omega
  · rename_i byHeight
    cases run
    exact ⟨le_max_left _ _, le_rfl, fun _ => ⟨fun _ => le_max_right _ _, fun timed =>
      absurd (not_not.mp byHeight) timed⟩⟩

theorem sequenceLocks_raise (run : inputs.foldlM (sequenceLock block) lock = .ok lock') :
    lock.1 ≤ lock'.1 ∧ lock.2 ≤ lock'.2 ∧ ∀ input ∈ inputs, LockedBy block lock' input := by
  induction inputs generalizing lock with
  | nil =>
    cases run
    exact ⟨le_rfl, le_rfl, nofun⟩
  | cons input rest ih =>
    obtain ⟨next, here, later⟩ := bind_eq_ok.mp run
    obtain ⟨height, time, locked⟩ := sequenceLock_raises here
    obtain ⟨laterHeight, laterTime, each⟩ := ih later
    exact ⟨height.trans laterHeight, time.trans laterTime,
      forall_mem_cons.mpr ⟨locked.mono laterHeight laterTime, each⟩⟩

theorem checkSequence_due {pprev} {flags : UInt32} {prevHeights height}
    (parent : block.pprev = some pprev) (ne : flags &&& locktimeVerifySequence ≠ 0)
    (locks : sequenceLocks tx flags prevHeights block = .ok true)
    (spent : prevHeights[nIn.val]? = some height) (passed : checkSequence tx nIn n = true) :
    (n.toNat &&& sequenceLocktimeTypeFlag.toNat = 0 →
      height + (n.toNat &&& sequenceLocktimeMask.toNat) ≤ block.nHeight) ∧
    (n.toNat &&& sequenceLocktimeTypeFlag.toNat ≠ 0 →
      ∃ coinParent, block.getAncestor (max ((height : Int) - 1) 0) = some coinParent ∧
        coinParent.getMedianTimePast + 512 * (n.toNat &&& sequenceLocktimeMask.toNat : Nat)
          ≤ pprev.getMedianTimePast) := by
  obtain ⟨s, isS, version, enabled, sameKind, le⟩ := checkSequence_passed passed
  obtain ⟨lock, calculated, evaluated⟩ := bind_eq_ok.mp locks
  obtain ⟨⟨⟩, -, calculated⟩ := bind_eq_ok.mp calculated
  rw [if_pos ⟨version, ne⟩] at calculated
  simp only [evaluateSequenceLocks, parent, Except.ok.injEq, Bool.not_eq_true',
    Bool.or_eq_false_iff,
    decide_eq_false_iff_not, ge_iff_le, not_le] at evaluated
  obtain ⟨-, -, each⟩ := sequenceLocks_raise calculated
  have mem : (tx.vin.get nIn, height) ∈ tx.vin.zip prevHeights := by
    refine mem_of_getElem? (i := nIn) ?_
    rw [getElem?_zip_eq_some]
    exact ⟨getElem?_eq_getElem nIn.isLt, spent⟩
  obtain ⟨byHeight, byTime⟩ := each _ mem (isS ▸ enabled)
  rw [← isS] at byHeight byTime
  constructor
  · intro isHeight
    have reached := byHeight (sameKind.mpr isHeight)
    omega
  · intro isTime
    obtain ⟨coinParent, found, reached⟩ := byTime fun none => isTime (sameKind.mp none)
    exact ⟨coinParent, found, by omega⟩

theorem ancestor_pprev {b b' p p'} (lt : Ancestor b b') (parent : b.pprev = some p)
    (parent' : b'.pprev = some p') : Ancestor p p' := by
  cases lt with
  | refl =>
    cases parent.symm.trans parent'
    exact .refl
  | step lt =>
    cases parent'
    cases b with
    | genesis f => cases parent
    | child q f =>
      cases parent
      exact (Ancestor.step .refl).trans lt

theorem isFinalTx_mono {height height' time time'} (final : isFinalTx tx height time = true)
    (later : height ≤ height') (le : time ≤ time') : isFinalTx tx height' time' = true := by
  rw [isFinalTx_iff] at final ⊢
  obtain zero | due | allFinal := final
  · exact .inl zero
  · refine .inr (.inl (due.trans_le ?_))
    split
    · exact later
    · exact le
  · exact .inr (.inr allFinal)

theorem sequenceLock_of_ancestor (lt : Ancestor block block')
    (run : sequenceLock block lock input = .ok lock') :
    sequenceLock block' lock input = .ok lock' := by
  simp only [sequenceLock] at run ⊢
  split at run
  · rename_i disabled
    rw [if_pos disabled, run]
  rename_i enabled
  split at run
  · rename_i timed
    split at run
    · cases run
    rename_i coinParent found
    obtain ⟨onBranch, atHeight⟩ := getAncestor_eq_some.mp found
    have eq : block'.getAncestor (max ((input.2 : Int) - 1) 0) = some coinParent :=
      getAncestor_eq_some.mpr ⟨onBranch.trans lt, atHeight⟩
    rw [if_neg enabled, if_pos timed, eq]
    exact run
  · rename_i byHeight
    rw [if_neg enabled, if_neg byHeight, run]

theorem sequenceLocks_of_ancestor {block' pprev pprev'} {flags : UInt32} {prevHeights}
    (lt : Ancestor block block') (parent : block.pprev = some pprev)
    (parent' : block'.pprev = some pprev') (le : pprev.getMedianTimePast ≤ pprev'.getMedianTimePast)
    (locks : sequenceLocks tx flags prevHeights block = .ok true) :
    sequenceLocks tx flags prevHeights block' = .ok true := by
  obtain ⟨lock, calculated, evaluated⟩ := bind_eq_ok.mp locks
  obtain ⟨⟨⟩, sized, calculated⟩ := bind_eq_ok.mp calculated
  have again : calculateSequenceLocks tx flags prevHeights block' = .ok lock := by
    refine bind_eq_ok.mpr ⟨(), sized, ?_⟩
    split at calculated
    · rename_i enforced
      rw [if_pos enforced]
      exact foldlM_mono (fun _ _ _ => sequenceLock_of_ancestor lt) calculated
    · rename_i ignored
      rw [if_neg ignored]
      exact calculated
  refine bind_eq_ok.mpr ⟨lock, again, ?_⟩
  have height := lt.nHeight_le
  simp only [evaluateSequenceLocks, parent, parent', Except.ok.injEq, Bool.not_eq_true',
    Bool.or_eq_false_iff, decide_eq_false_iff_not, ge_iff_le, not_le] at evaluated ⊢
  omega

end SequenceLocks

theorem flag_or {a b flag : UInt32} : (a ||| b) &&& flag = 0 ↔ a &&& flag = 0 ∧ b &&& flag = 0 := by
  simp only [← UInt32.toNat_inj, UInt32.toNat_and, UInt32.toNat_or, Nat.and_or_distrib_right,
    UInt32.toNat_zero]
  exact Nat.or_eq_zero_iff

/-- `nLockTimeFlags` of `ConnectBlock`. -/
def blockLockTimeFlags (env : Env) (pindex : CBlockIndex) : UInt32 :=
  if (pindex.nHeight : Int) ≥ env.params.csvHeight then locktimeVerifySequence else 0

/-- A block after the genesis block that `ContextualCheckBlock` and `ConnectBlock` let pass,
    on the view `v`, and the view `v'` in which its transactions are connected. -/
structure Accepted (env : Env) (block : CBlock) (pprev pindex : CBlockIndex)
    (v v' : CCoinsViewCache) : Prop where
  parent : pindex.pprev = some pprev
  notGenesis : env.hash block.toCBlockHeader ≠ env.params.hashGenesisBlock
  final : contextualCheckFinal env block (some pprev) = .ok ()
  connected : ∃ fJustCheck result, connectBlock env block pindex v fJustCheck = .ok result
  entered : checkBIP30 env block pprev pindex v.getBestBlock.2 = .ok v'

/-- The coins that `ConnectBlock` finds for the inputs of a transaction of the block. -/
def SpendsCoins (env : Env) (block : CBlock) (pindex : CBlockIndex) (v : CCoinsViewCache)
    (tx : CTransaction) (coins : List Coin) : Prop :=
  ∃ before after st txfee view, block.vtx = before ++ tx :: after ∧ tx.isCoinBase = false ∧
    before.zipIdx.foldlM (connectTx env pindex (blockLockTimeFlags env pindex)
      (getBlockScriptFlags env pindex)) ⟨v, 0, 0, []⟩ = .ok st ∧
    checkTxInputs tx st.view pindex.nHeight = .ok (txfee, view) ∧
    coins = (accessCoins tx.vin view).1

section Accepted

variable {block : CBlock} {pprev pindex : CBlockIndex} {v v' : CCoinsViewCache}

section

variable (accepted : Accepted env block pprev pindex v v')
include accepted

theorem Accepted.nHeight :
    (pindex.nHeight : Int) = pprev.nHeight + 1 := by
  have parent := accepted.parent
  cases pindex with
  | genesis f => cases parent
  | child p f =>
    cases parent
    rfl

theorem Accepted.isFinalTx (csv : env.params.csvHeight ≤ pindex.nHeight) (mem : tx ∈ block.vtx) :
    isFinalTx tx pindex.nHeight pprev.getMedianTimePast = true := by
  have final := accepted.final
  rw [accepted.nHeight] at csv ⊢
  obtain ⟨cutoff, isCutoff, final⟩ := bind_eq_ok.mp final
  simp only [ge_iff_le, csv, if_true, lift_eq_ok, Except.ok.injEq] at isCutoff
  subst isCutoff
  by_cases all : block.vtx.all fun tx =>
      Validation.isFinalTx tx (pprev.nHeight + 1) pprev.getMedianTimePast
  · exact all_eq_true.mp all tx mem
  · cases (if_neg all).symm.trans final

theorem Accepted.connectTransactions :
    ∃ st, connectTransactions env block pindex v' = .ok st := by
  obtain ⟨fJustCheck, res, connected⟩ := accepted.connected
  obtain ⟨⟨⟩, -, connected⟩ := bind_eq_ok.mp connected
  split at connected
  · cases connected
  · cases connected
  have entered := accepted.entered
  cases best : v.getBestBlock with
  | mk bestBlock v₁ =>
    rw [best] at connected entered
    obtain ⟨⟨⟩, -, connected⟩ := bind_eq_ok.mp connected
    rw [if_neg accepted.notGenesis, accepted.parent] at connected
    obtain ⟨v₂, isEntered, connected⟩ := bind_eq_ok.mp connected
    obtain ⟨st, ran, -⟩ := bind_eq_ok.mp connected
    cases entered.symm.trans isEntered
    exact ⟨st, ran⟩

end

theorem connectInputs_passed {nLockTimeFlags st next} (notCoinbase : tx.isCoinBase = false)
    (run : connectInputs pindex nLockTimeFlags tx st = .ok next) :
    ∃ txfee view, checkTxInputs tx st.view pindex.nHeight = .ok (txfee, view) ∧
      sequenceLocks tx nLockTimeFlags ((accessCoins tx.vin view).1.map (·.nHeight)) pindex
        = .ok true := by
  rw [connectInputs, if_neg (by simp [notCoinbase])] at run
  obtain ⟨⟨txfee, view⟩, checked, run⟩ := bind_eq_ok.mp run
  obtain ⟨nFees, -, run⟩ := bind_eq_ok.mp run
  refine ⟨txfee, view, ofTx_eq_ok.mp checked, ?_⟩
  split at run
  · cases run
  obtain ⟨locks, isLocks, run⟩ := bind_eq_ok.mp run
  cases locks with
  | false => cases run
  | true => exact lift_eq_ok.mp isLocks

variable (accepted : Accepted env block pprev pindex v v')
include accepted

theorem Accepted.connectInputs {before after} (listed : block.vtx = before ++ tx :: after) :
    ∃ st next, before.zipIdx.foldlM (connectTx env pindex (blockLockTimeFlags env pindex)
        (getBlockScriptFlags env pindex)) ⟨v', 0, 0, []⟩ = .ok st ∧
      connectInputs pindex (blockLockTimeFlags env pindex) tx st = .ok next := by
  obtain ⟨last, conn⟩ := accepted.connectTransactions
  obtain ⟨last, conn, -⟩ := bind_eq_ok.mp conn
  rw [listed, zipIdx_append, foldlM_append] at conn
  obtain ⟨st, reached, conn⟩ := bind_eq_ok.mp conn
  rw [zipIdx_cons, foldlM_cons] at conn
  obtain ⟨after, conn, -⟩ := bind_eq_ok.mp conn
  obtain ⟨checked, conn, -⟩ := bind_eq_ok.mp conn
  obtain ⟨next, conn, -⟩ := bind_eq_ok.mp conn
  exact ⟨st, next, reached, conn⟩

theorem Accepted.spendsCoins (mem : tx ∈ block.vtx) (notCoinbase : tx.isCoinBase = false) :
    ∃ coins, SpendsCoins env block pindex v' tx coins := by
  obtain ⟨before, after, listed⟩ := append_of_mem mem
  obtain ⟨st, next, reached, conn⟩ := accepted.connectInputs listed
  obtain ⟨txfee, view, checked, -⟩ := connectInputs_passed notCoinbase conn
  exact ⟨_, before, after, st, txfee, view, listed, notCoinbase, reached, checked, rfl⟩

theorem Accepted.sequenceLocks (spends : SpendsCoins env block pindex v' tx coins) :
    sequenceLocks tx (blockLockTimeFlags env pindex) (coins.map (·.nHeight)) pindex = .ok true := by
  obtain ⟨before, after, st, txfee, view, listed, notCoinbase, reached, checked, rfl⟩ := spends
  obtain ⟨st', next, reached', conn⟩ := accepted.connectInputs listed
  cases reached.symm.trans reached'
  obtain ⟨txfee', view', checked', locks⟩ := connectInputs_passed notCoinbase conn
  cases checked.symm.trans checked'
  exact locks

end Accepted

def lockEnv : Env :=
  { reorgEnv with
    params := { mainParams with csvHeight := 1, bip65Height := 1 }
    txid := fun tx => tx.nVersion.toNatClampNeg }

def lockTx : CTransaction := ⟨[⟨⟨7, 0⟩, [], 1, []⟩], [⟨50, [0x51]⟩], 2, 1⟩

def lockBlock : CBlock where
  toCBlockHeader := ⟨reorgFields 3, 2⟩
  vtx := reorgBlock.vtx.take 1 ++ [lockTx]

def lockIndex : CBlockIndex := .child reorgIndex (reorgFields 3)

def lockView : CCoinsViewCache :=
  .onto ⟨(∅ : CoinMap).insert ⟨7, 0⟩ ⟨⟨50, [0x51]⟩, false, 1⟩, 2⟩

end HobbyHash.Validation
