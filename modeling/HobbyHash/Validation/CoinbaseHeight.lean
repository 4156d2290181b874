import HobbyHash.Validation.Script

/-! # Coinbases commit to their height

`ContextualCheckBlock` compares the beginning of a coinbase script with the script that
pushes the block's height and looks no further. The commitment rests on the encoding of
script numbers: the first operation of a script that begins with a pushed number gives the
number back, whatever follows it, so a script begins with one pushed number at most.
-/

namespace HobbyHash.Validation

open List

/-- The number that the first operation of a script pushes, as a numeric opcode reads it. -/
def firstNumber (script : CScript) : Option Int :=
  match getScriptOp script with
  | none => none
  | some ((opcode, vch), _) =>
    if opcode = op1Negate ∨ (op1 ≤ opcode ∧ opcode ≤ op16) then
      some (opcode.toNat - (op1.toNat - 1))
    else if opcode ≤ opPushData4 then (scriptNum vch true 4).toOption
    else none

def heightAfter (pindexPrev : Option CBlockIndex) : Int :=
  match pindexPrev with
  | none => 0
  | some pindexPrev => pindexPrev.nHeight + 1

/-- `block.vtx[0]->vin[0].scriptSig`. -/
def coinbaseScript (block : CBlock) : Option CScript :=
  block.vtx.head?.bind fun tx => tx.vin.head?.map CTxIn.scriptSig

/-- The rule of `ContextualCheckBlock` that the coinbase starts with the height. -/
def contextualCheckHeight (env : Env) (block : CBlock) (pindexPrev : Option CBlockIndex) :
    Except (Failure BlockValidationResult) Unit :=
  let nHeight := heightAfter pindexPrev
  -- `DeploymentActiveAfter(pindexPrev, chainman, Consensus::DEPLOYMENT_HEIGHTINCB)`
  if nHeight ≥ env.params.bip34Height then
    match coinbaseScript block with
    | none => .error (.fault (.exception "vector index out of range"))
    | some scriptSig =>
      let expect := pushInt64 nHeight
      if scriptSig.length < expect.length ∨ scriptSig.take expect.length ≠ expect then
        reject "bad-cb-height"
      else .ok ()
  else .ok ()

theorem firstNumber_pushInt64 (nonneg : 0 ≤ h) (lt : h < 2 ^ 31) (tail : CScript) :
    firstNumber (pushInt64 h ++ tail) = some h := by
  obtain rfl | ⟨one, sixteen⟩ | large : h = 0 ∨ (1 ≤ h ∧ h ≤ 16) ∨ 16 < h := by omega
  · rfl
  · interval_cases h <;> rfl
  have le : (serialize h).length ≤ 4 := serialize_length (by omega)
  have push := reads_pushData (le.trans_lt (by decide)) tail
  rw [pushInt64, if_neg (by omega), if_neg (by omega), firstNumber, push]
  obtain ⟨notSmall, pushes⟩ := (by decide : ∀ k ≤ 4,
    ¬ (pushOpcode k = op1Negate ∨ (op1 ≤ pushOpcode k ∧ pushOpcode k ≤ op16)) ∧
      pushOpcode k ≤ opPushData4) _ le
  simp only [if_neg notSmall, if_pos pushes, scriptNum_serialize le]
  rfl

theorem firstNumber_of_begins (le : 0 ≤ h) (lt : h < 2 ^ 31) (starts : pushInt64 h <+: script) :
    firstNumber script = some h := by
  obtain ⟨tail, rfl⟩ := starts
  exact firstNumber_pushInt64 le lt tail

theorem pushInt64_prefix_of_checked (le : env.params.bip34Height ≤ heightAfter pindexPrev)
    (checked : contextualCheckHeight env block pindexPrev = .ok ()) :
    ∃ script, coinbaseScript block = some script ∧
      pushInt64 (heightAfter pindexPrev) <+: script := by
  simp only [contextualCheckHeight, ge_iff_le, le, if_true] at checked
  split at checked
  · cases checked
  rename_i script isScript
  split at checked
  · cases checked
  · rename_i starts
    refine ⟨script, isScript, prefix_iff_eq_take.mpr ?_⟩
    simpa using (not_not.mp (not_or.mp starts).2).symm

/-- Where the rule is in force, coinbases of blocks at different heights differ, on any
    branches, and so do their beginnings: no pushed height is the beginning of another, and
    each is read back. -/
theorem coinbase_height :
    (∀ (env : Env) (block block' : CBlock) (pindexPrev pindexPrev' : Option CBlockIndex),
      env.params.bip34Height ≤ heightAfter pindexPrev →
      env.params.bip34Height ≤ heightAfter pindexPrev' →
      heightAfter pindexPrev < 2 ^ 31 → heightAfter pindexPrev' < 2 ^ 31 →
      heightAfter pindexPrev ≠ heightAfter pindexPrev' →
      contextualCheckHeight env block pindexPrev = .ok () →
      contextualCheckHeight env block' pindexPrev' = .ok () →
      coinbaseScript block ≠ coinbaseScript block') ∧
    (∀ h h' : Int, 0 ≤ h → h < 2 ^ 31 → 0 ≤ h' → h' < 2 ^ 31 → h ≠ h' →
      ¬ pushInt64 h <+: pushInt64 h') ∧
    ∀ h : Int, 0 ≤ h → h < 2 ^ 31 → firstNumber (pushInt64 h) = some h := by
  refine ⟨fun env block block' prev prev' active active' small small' ne checked checked' same => ?_,
    fun h h' nonneg small nonneg' small' ne starts => ?_, fun h nonneg small => ?_⟩
  · have nonneg (prev : Option CBlockIndex) : 0 ≤ heightAfter prev := by
      cases prev <;> simp only [heightAfter] <;> omega
    obtain ⟨script, isScript, starts⟩ := pushInt64_prefix_of_checked active checked
    obtain ⟨script', isScript', starts'⟩ := pushInt64_prefix_of_checked active' checked'
    obtain rfl : script = script' :=
      Option.some.inj (isScript.symm.trans (same.trans isScript'))
    have read := firstNumber_of_begins (nonneg prev) small starts
    rw [firstNumber_of_begins (nonneg prev') small' starts'] at read
    exact ne (Option.some.inj read).symm
  · have read := firstNumber_of_begins nonneg small starts
    rw [firstNumber_of_begins nonneg' small' (prefix_refl _)] at read
    exact ne (Option.some.inj read).symm
  · exact firstNumber_of_begins nonneg small (prefix_refl _)

def heightEnv : Env :=
  { reorgEnv with params := { reorgEnv.params with bip34Height := 1 } }

def heightBlock (scriptSig : CScript) : CBlock :=
  { reorgBlock with vtx := [⟨[⟨⟨0, COutPoint.nullIndex⟩, scriptSig, 0, []⟩], [], 1, 0⟩] }

/-- A second block, and a third one of another branch. -/
theorem coinbase_height_branches :
    let second := heightBlock (pushInt64 1 ++ pushInt64 2)
    let third := heightBlock (pushInt64 2)
    contextualCheckHeight heightEnv second (some (.genesis (reorgFields 3))) = .ok () ∧
      contextualCheckHeight heightEnv third (some reorgIndex) = .ok () ∧
      coinbaseScript second ≠ coinbaseScript third :=
  ⟨by decide, by decide, coinbase_height.1 heightEnv _ _ (some (.genesis (reorgFields 3)))
    (some reorgIndex) (by decide) (by decide) (by decide) (by decide) (by decide) (by decide)
    (by decide)⟩

end HobbyHash.Validation
