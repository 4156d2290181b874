import HobbyHash.Coins
import HobbyHash.Library.Memo

/-! # The script execution cache

`CheckInputScripts` of `validation.cpp`. The cache is a set of keys, each the salted hash
of a witness hash and of script flags, that may lose elements but invents none.
`VerifyScript`, with the signature cache behind its checker, and the hashes are
parameters. A call that is given a vector for the checks queues them, so its verdict is
known when they have run.
-/

namespace HobbyHash.Validation.ScriptCache

open Machine Library Memo List

def scriptVerifySTRICTENC : UInt32 := (1 : UInt32) <<< (1 : UInt32)
def scriptVerifyLOWS : UInt32 := (1 : UInt32) <<< (3 : UInt32)
def scriptVerifyMINIMALDATA : UInt32 := (1 : UInt32) <<< (6 : UInt32)
def scriptVerifyDISCOURAGEUPGRADABLENOPS : UInt32 := (1 : UInt32) <<< (7 : UInt32)
def scriptVerifyCLEANSTACK : UInt32 := (1 : UInt32) <<< (8 : UInt32)
def scriptVerifyDISCOURAGEUPGRADABLEWITNESSPROGRAM : UInt32 := (1 : UInt32) <<< (12 : UInt32)
def scriptVerifyMINIMALIF : UInt32 := (1 : UInt32) <<< (13 : UInt32)
def scriptVerifyNULLFAIL : UInt32 := (1 : UInt32) <<< (14 : UInt32)
def scriptVerifyWITNESSPUBKEYTYPE : UInt32 := (1 : UInt32) <<< (15 : UInt32)
def scriptVerifyCONSTSCRIPTCODE : UInt32 := (1 : UInt32) <<< (16 : UInt32)
def scriptVerifyDISCOURAGEUPGRADABLETAPROOTVERSION : UInt32 := (1 : UInt32) <<< (18 : UInt32)
def scriptVerifyDISCOURAGEOPSUCCESS : UInt32 := (1 : UInt32) <<< (19 : UInt32)
def scriptVerifyDISCOURAGEUPGRADABLEPUBKEYTYPE : UInt32 := (1 : UInt32) <<< (20 : UInt32)

def mandatoryScriptVerifyFlags : UInt32 :=
  scriptVerifyP2SH ||| scriptVerifyDERSIG ||| scriptVerifyNULLDUMMY |||
    scriptVerifyCHECKLOCKTIMEVERIFY ||| scriptVerifyCHECKSEQUENCEVERIFY ||| scriptVerifyWITNESS |||
    scriptVerifyTAPROOT

def standardScriptVerifyFlags : UInt32 :=
  mandatoryScriptVerifyFlags ||| scriptVerifySTRICTENC ||| scriptVerifyMINIMALDATA |||
    scriptVerifyDISCOURAGEUPGRADABLENOPS ||| scriptVerifyCLEANSTACK ||| scriptVerifyMINIMALIF |||
    scriptVerifyNULLFAIL ||| scriptVerifyLOWS ||| scriptVerifyDISCOURAGEUPGRADABLEWITNESSPROGRAM |||
    scriptVerifyWITNESSPUBKEYTYPE ||| scriptVerifyCONSTSCRIPTCODE |||
    scriptVerifyDISCOURAGEUPGRADABLETAPROOTVERSION ||| scriptVerifyDISCOURAGEOPSUCCESS |||
    scriptVerifyDISCOURAGEUPGRADABLEPUBKEYTYPE

def standardNotMandatoryVerifyFlags : UInt32 :=
  standardScriptVerifyFlags &&& ~~~mandatoryScriptVerifyFlags

/-- `CScriptCheck`: the output that is spent, the input that spends it, and the spent
    outputs in the precomputed transaction data. -/
structure CScriptCheck where
  txOut : CTxOut
  txTo : CTransaction
  nIn : Fin txTo.vin.length
  nFlags : UInt32
  txdata : List CTxOut
  deriving DecidableEq

/-- What `CachingTransactionSignatureChecker` is constructed with. -/
structure SignatureChecker where
  txTo : CTransaction
  nIn : Nat
  amount : Int
  txdata : List CTxOut

structure ScriptEnv where
  getWitnessHash : CTransaction → Uint256
  /-- `g_scriptExecutionCacheHasher`, after a witness hash and flags were written. -/
  hasher : Uint256 → UInt32 → Uint256
  /-- `VerifyScript` of scriptSig, scriptPubKey, witness, flags and checker: the text of the
      script error, if there is one. -/
  verifyScript : CScript → CScript → List CScript → UInt32 → SignatureChecker → Option String

inductive ScriptFailure where
  | txNotStandard (rejectReason : String)
  | txConsensus (rejectReason : String)
  deriving DecidableEq, Repr

/-- The arguments of `CheckInputScripts`: `inputs` as `AccessCoin` answers, the spent outputs
    in `txdata` when they are ready, and whether `pvChecks` is given. -/
structure Call where
  tx : CTransaction
  inputs : COutPoint → Coin
  flags : UInt32
  cacheFullScriptStore : Bool
  txdata : Option (List CTxOut)
  pvChecks : Bool

/-- What a call leaves behind: its state, the checks it queued and `txdata`. -/
structure Outcome where
  state : Option ScriptFailure
  vChecks : List CScriptCheck
  txdata : Option (List CTxOut)

namespace ScriptEnv

variable (env : ScriptEnv)

/-- `CScriptCheck::operator()`, with `GetScriptError`. -/
def run (check : CScriptCheck) : Option String :=
  let txin := check.txTo.vin.get check.nIn
  env.verifyScript txin.scriptSig check.txOut.scriptPubKey txin.scriptWitness check.nFlags
    ⟨check.txTo, check.nIn, check.txOut.nValue, check.txdata⟩

def hashCacheEntry (call : Call) : Uint256 :=
  env.hasher (env.getWitnessHash call.tx) call.flags

/-- The loop over the inputs where the checks are executed. -/
def runChecks : List CScriptCheck → Option ScriptFailure
  | [] => none
  | check :: rest =>
    match env.run check with
    | none => runChecks rest
    | some error =>
      let check2 :=
        { check with nFlags := check.nFlags &&& ~~~standardNotMandatoryVerifyFlags }
      if check.nFlags &&& standardNotMandatoryVerifyFlags ≠ 0 ∧ env.run check2 = none then
        some (.txNotStandard ("non-mandatory-script-verify-flag (" ++ error ++ ")"))
      else some (.txConsensus ("mandatory-script-verify-flag-failed (" ++ error ++ ")"))

end ScriptEnv

def scriptChecks (tx : CTransaction) (flags : UInt32) (spent_outputs : List CTxOut) :
    List CScriptCheck :=
  (List.finRange tx.vin.length).map fun i : Fin tx.vin.length =>
    ⟨spent_outputs.getD i .null, tx, i, flags, spent_outputs⟩

/-- The outputs that `txdata` holds when the checks are made. -/
def Call.spentOutputs (call : Call) : Except Fault (List CTxOut) :=
  match call.txdata with
  | some spent_outputs => .ok spent_outputs
  | none => do
    let coins := call.tx.vin.map fun txin => call.inputs txin.prevout
    assert (coins.all (!·.isSpent)) "!coin.IsSpent()"
    return coins.map (·.out)

def checkInputScripts (env : ScriptEnv) (cache : LossySet Uint256) (call : Call)
    (stored : cache.State) : Except Fault (Outcome × cache.State) :=
  let hashCacheEntry := env.hashCacheEntry call
  if call.tx.isCoinBase then .ok (⟨none, [], call.txdata⟩, stored)
  else if cache.contains stored hashCacheEntry then
    .ok (⟨none, [], call.txdata⟩,
      if call.cacheFullScriptStore then stored else cache.release stored hashCacheEntry)
  else do
    let spent_outputs ← call.spentOutputs
    assert (spent_outputs.length == call.tx.vin.length)
      "txdata.m_spent_outputs.size() == tx.vin.size()"
    let checks := scriptChecks call.tx call.flags spent_outputs
    if call.pvChecks then return (⟨none, checks, some spent_outputs⟩, stored)
    else
      match env.runChecks checks with
      | some failure => return (⟨some failure, [], some spent_outputs⟩, stored)
      | none =>
        return (⟨none, [], some spent_outputs⟩,
          if call.cacheFullScriptStore then cache.insert stored hashCacheEntry else stored)

/-- The call returns true, and so do the checks it queued. -/
def Outcome.Passes (env : ScriptEnv) (outcome : Outcome) : Prop :=
  outcome.state = none ∧ ∀ check ∈ outcome.vChecks, env.run check = none

section Calls

variable (env : ScriptEnv) (out : COutPoint → CTxOut)

def spentBy (tx : CTransaction) : List CTxOut :=
  tx.vin.map fun txin => out txin.prevout

/-- `VerifyScript` succeeds on all inputs. -/
def Verified (tx : CTransaction) (flags : UInt32) : Prop :=
  tx.isCoinBase = true ∨ ∀ check ∈ scriptChecks tx flags (spentBy out tx), env.run check = none

/-- The inputs of a call are unspent coins with the outputs that belong to their outpoints. -/
structure Call.Sees (call : Call) : Prop where
  inputs : ∀ txin ∈ call.tx.vin, (call.inputs txin.prevout).isSpent = false ∧
    (call.inputs txin.prevout).out = out txin.prevout
  txdata : ∀ spent_outputs ∈ call.txdata, spent_outputs = spentBy out call.tx

/-- A call that stores its key: it executed all scripts, and none failed. -/
structure Call.Stores (call : Call) : Prop where
  told : call.cacheFullScriptStore = true
  executed : call.pvChecks = false
  verified : Verified env out call.tx call.flags

variable {env out} {call : Call} {cache : LossySet Uint256} {stored : cache.State}

theorem runChecks_eq_none :
    env.runChecks checks = none ↔ ∀ check ∈ checks, env.run check = none := by
  induction checks with
  | nil => simp [ScriptEnv.runChecks]
  | cons check rest ih =>
    rw [ScriptEnv.runChecks, forall_mem_cons]
    cases ran : env.run check with
    | none => simp [ih]
    | some error =>
      simp only [reduceCtorEq, false_and, iff_false]
      split <;> simp

theorem Call.Sees.spentOutputs (sees : call.Sees out) :
    call.spentOutputs = .ok (spentBy out call.tx) := by
  rw [Call.spentOutputs]
  cases ready : call.txdata with
  | some spent_outputs => rw [sees.txdata spent_outputs ready]
  | none =>
    have unspent : (call.tx.vin.map fun txin => call.inputs txin.prevout).all (!·.isSpent) := by
      simpa using fun txin mem => (sees.inputs txin mem).1
    have eq : (call.tx.vin.map fun txin => call.inputs txin.prevout).map (·.out)
        = spentBy out call.tx := by
      rw [map_map]
      exact map_congr_left fun txin mem => (sees.inputs txin mem).2
    simp only [unspent, eq, assert, if_true]
    rfl

/-- One call on a cache in which the key of the call stands only for valid scripts. -/
theorem checkInputScripts_spec (sees : call.Sees out)
    (honest : cache.contains stored (env.hashCacheEntry call) → Verified env out call.tx call.flags) :
    ∃ outcome stored', checkInputScripts env cache call stored = .ok (outcome, stored') ∧
      (outcome.Passes env ↔ Verified env out call.tx call.flags) ∧
      (∀ spent_outputs ∈ outcome.txdata, spent_outputs = spentBy out call.tx) ∧
      ∀ k, cache.contains stored' k → cache.contains stored k ∨
        k = env.hashCacheEntry call ∧ call.Stores env out := by
  have passed : Outcome.Passes env ⟨none, [], call.txdata⟩ := ⟨rfl, by simp⟩
  rw [checkInputScripts]
  by_cases coinbase : call.tx.isCoinBase = true
  · rw [if_pos coinbase]
    exact ⟨_, _, rfl, iff_of_true passed (.inl coinbase), sees.txdata, fun k found => .inl found⟩
  rw [if_neg coinbase]
  by_cases hit : cache.contains stored (env.hashCacheEntry call) = true
  · rw [if_pos hit]
    refine ⟨_, _, rfl, iff_of_true passed (honest hit), sees.txdata, fun k found => .inl ?_⟩
    split at found
    · exact found
    · exact cache.contains_release found
  have whole : Verified env out call.tx call.flags ↔
      ∀ check ∈ scriptChecks call.tx call.flags (spentBy out call.tx), env.run check = none :=
    or_iff_right coinbase
  have length : (spentBy out call.tx).length = call.tx.vin.length := length_map _
  simp only [if_neg hit, sees.spentOutputs, length, assert, BEq.rfl, if_true, ok_bind]
  by_cases queued : call.pvChecks = true
  · rw [if_pos queued]
    refine ⟨_, _, rfl, ?_, by simp, fun k found => .inl found⟩
    rw [whole]
    exact and_iff_right rfl
  rw [if_neg queued]
  cases ran : env.runChecks (scriptChecks call.tx call.flags (spentBy out call.tx)) with
  | some failure =>
    refine ⟨_, _, rfl, iff_of_false (fun passes => nomatch passes.1) ?_, by simp,
      fun k found => .inl found⟩
    rw [whole, ← runChecks_eq_none, ran]
    exact nofun
  | none =>
    have verified := whole.mpr (runChecks_eq_none.mp ran)
    refine ⟨_, _, rfl, iff_of_true ⟨rfl, by simp⟩ verified, by simp, fun k found => ?_⟩
    split at found
    · rename_i told
      obtain new | old := cache.contains_insert found
      · exact .inr ⟨new, told, by simpa using queued, verified⟩
      · exact .inl old
    · exact .inl found

/-- Neither the salted hash nor the witness hash has a collision among the calls. -/
structure CollisionFree (env : ScriptEnv) (history : List Call) : Prop where
  salted : ∀ a ∈ history, ∀ b ∈ history, env.hashCacheEntry a = env.hashCacheEntry b →
    env.getWitnessHash a.tx = env.getWitnessHash b.tx ∧ a.flags = b.flags
  witness : ∀ a ∈ history, ∀ b ∈ history, env.getWitnessHash a.tx = env.getWitnessHash b.tx →
    a.tx = b.tx

/-- Every key in the cache was stored by one of the calls. -/
def StoredBy (cache : LossySet Uint256) (env : ScriptEnv) (out : COutPoint → CTxOut)
    (history : List Call) (stored : cache.State) : Prop :=
  ∀ k, cache.contains stored k → ∃ call ∈ history, k = env.hashCacheEntry call ∧ call.Stores env out

theorem StoredBy.hit (storedBy : StoredBy cache env out history stored)
    (free : CollisionFree env calls) (among : ∀ a ∈ history, a ∈ calls) (mem : call ∈ calls)
    (found : cache.contains stored (env.hashCacheEntry call)) :
    ∃ earlier ∈ history, earlier.tx = call.tx ∧ earlier.flags = call.flags ∧
      earlier.Stores env out := by
  obtain ⟨earlier, before, key, stores⟩ := storedBy _ found
  obtain ⟨hashes, flags⟩ := free.salted call mem earlier (among earlier before) key
  exact ⟨earlier, before, (free.witness call mem earlier (among earlier before) hashes).symm,
    flags.symm, stores⟩

theorem answers_checkInputScripts (cache : LossySet Uint256) (free : CollisionFree env calls)
    (sees : ∀ call ∈ calls, call.Sees out) (among : ∀ call ∈ history, call ∈ calls) :
    ∃ outcomes stored,
      answers (checkInputScripts env cache) cache.empty history = .ok (outcomes, stored) ∧
      List.Forall₂ (fun call outcome =>
        outcome.Passes env ↔ Verified env out call.tx call.flags) history outcomes ∧
      StoredBy cache env out history stored := by
  apply answers_of_transparent
  case start =>
    intro k found
    rw [cache.contains_empty] at found
    cases found
  case each =>
    intro call mem stored storedBy
    have honest : cache.contains stored (env.hashCacheEntry call) →
        Verified env out call.tx call.flags := by
      intro found
      obtain ⟨earlier, -, sameTx, sameFlags, stores⟩ :=
        storedBy.hit free among (among call mem) found
      rw [← sameTx, ← sameFlags]
      exact stores.verified
    obtain ⟨outcome, stored', ran, verdict, -, keys⟩ :=
      checkInputScripts_spec (sees call (among call mem)) honest
    refine ⟨outcome, stored', ran, verdict, fun k found => ?_⟩
    obtain old | ⟨isKey, stores⟩ := keys k found
    · exact storedBy k old
    · exact ⟨call, mem, isKey, stores⟩

end Calls

end HobbyHash.Validation.ScriptCache
