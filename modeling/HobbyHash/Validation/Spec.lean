import HobbyHash.Coins.View
import HobbyHash.Validation.Block

/-! # What the checks guarantee

One statement for each check: what has been established when it passes, that it
only reads the coins, and that no 64-bit addition in it overflows. The last part
needs amounts in range among the coins; it is claimed where `strict` holds, so
that the rest can be used about views of which nothing is known.
-/

namespace HobbyHash.Validation

open Machine Consensus Library List Ensures

variable (tx : CTransaction) {st₁ : ConnectState}

variable {strict honest : Prop} {ρ α β : Type} {post : α → Prop}

def FaultOverflows (strict : Prop) (f : Fault) : Prop :=
  strict ∧ f = .signedOverflow

def Overflows (strict : Prop) (e : Failure ρ) : Prop :=
  strict ∧ e = .fault .signedOverflow

theorem ensures_lift {x} (h : Ensures (FaultOverflows strict) x post) :
    Ensures (Overflows strict) (lift x : Except (Failure ρ) α) post := by
  cases x with
  | ok a => exact h
  | error f =>
    rintro ⟨told, same⟩
    exact h ⟨told, Failure.fault.inj same⟩

theorem ensures_ofTx {x} (h : Ensures (Overflows strict) x post) :
    Ensures (Overflows strict) (ofTx x) post := by
  cases x with
  | ok a => exact h
  | error e =>
    rintro ⟨told, same⟩
    cases e with
    | fault f =>
      cases same
      exact h ⟨told, rfl⟩
    | invalid res reason => cases same
    | error message => cases same

theorem ensures_invalid {res reason} :
    Ensures (Overflows strict) (.error (.invalid res reason) : Except (Failure ρ) α) post := by
  rintro ⟨-, same⟩
  cases same

theorem ensures_reject {reason} :
    Ensures (Overflows strict) (reject reason : Except _ α) post :=
  ensures_invalid

theorem ensures_assert {cond text} :
    Ensures (FaultOverflows strict) (assert cond text) (fun _ => cond = true) := by
  cases cond with
  | true => exact .pure rfl
  | false =>
    rintro ⟨-, same⟩
    cases same

theorem ensures_assertion {text} :
    Ensures (FaultOverflows strict) (.error (.assertion text) : Except Fault α) post := by
  rintro ⟨-, same⟩
  cases same

theorem isInt64_add {a b} (ha : moneyRange a) (hb : moneyRange b) : IsInt64 (a + b) := by
  rw [moneyRange_iff] at ha hb
  constructor <;> omega

theorem isInt64_sub (ha : moneyRange a) (hb : moneyRange b) : IsInt64 (a - b) := by
  rw [moneyRange_iff] at ha hb
  constructor <;> omega

theorem moneyRange_zero : moneyRange 0 := by decide

def valueOut (vout : List CTxOut) : Int :=
  (vout.map (·.nValue)).sum

theorem valueOut_cons (out : CTxOut) (rest : List CTxOut) :
    valueOut (out :: rest) = out.nValue + valueOut rest := by
  simp only [valueOut, map_cons, sum_cons]

theorem ensures_getValueOut :
    Ensures (FaultOverflows strict) tx.getValueOut (fun sum =>
      sum = valueOut tx.vout ∧ moneyRange sum) := by
  have loop : Ensures (FaultOverflows strict) (tx.vout.foldlM CTransaction.addValueOut 0)
      (fun sum => moneyRange sum ∧ sum + valueOut [] = valueOut tx.vout) := by
    refine foldlM (fun rest sum =>
      moneyRange sum ∧ sum + valueOut rest = valueOut tx.vout)
      ⟨moneyRange_zero, Int.zero_add _⟩ ?_
    rintro out rest sum ⟨range, total⟩
    simp only [CTransaction.addValueOut]
    split
    · exact .fail fun overflow => by cases overflow.2
    rename_i inRange
    refine (ensures_int64 fun _ => isInt64_add range (not_not.mp inRange)).bind ?_
    rintro next rfl
    split
    · exact .fail fun overflow => by cases overflow.2
    · rename_i nextRange
      refine .pure ⟨not_not.mp nextRange, ?_⟩
      rw [← total, valueOut_cons]
      omega
  refine loop.bind ?_
  rintro sum ⟨range, total⟩
  refine ensures_assert.bind fun _ _ => .pure ⟨?_, range⟩
  simpa only [valueOut, map_nil, sum_nil, Int.add_zero] using total

structure CheckedTx (tx : CTransaction) : Prop where
  values : ∀ out ∈ tx.vout, moneyRange out.nValue
  distinct : (tx.vin.map (·.prevout)).Nodup
  size : tx.strippedSize * witnessScaleFactor ≤ maxBlockWeight

theorem CheckedTx.vin_length_le {tx : CTransaction} (checked : CheckedTx tx) :
    tx.vin.length ≤ 25000 := by
  have inputs := HobbyHash.vin_length_le tx
  have size := checked.size
  simp only [witnessScaleFactor, maxBlockWeight] at size
  omega

theorem ensures_checkOutputs (vout : List CTxOut) :
    Ensures (Overflows strict) (vout.foldlM checkOutput 0) (fun _ =>
      ∀ out ∈ vout, moneyRange out.nValue) := by
  have loop : Ensures (Overflows strict) (vout.foldlM checkOutput 0) (fun sum =>
      moneyRange sum ∧ ∀ out ∈ vout, out ∈ ([] : List CTxOut) ∨ moneyRange out.nValue) := by
    refine foldlM (fun rest sum =>
      moneyRange sum ∧ ∀ out ∈ vout, out ∈ rest ∨ moneyRange out.nValue)
      ⟨moneyRange_zero, fun _ => .inl⟩ ?_
    rintro txout rest sum ⟨range, done⟩
    simp only [checkOutput]
    split
    · exact ensures_invalid
    split
    · exact ensures_invalid
    rename_i notNegative notTooLarge
    have value : moneyRange txout.nValue := ⟨not_lt.mp notNegative, not_lt.mp notTooLarge⟩
    refine (ensures_lift (ensures_int64 fun _ => isInt64_add range value)).bind ?_
    rintro next rfl
    split
    · exact ensures_invalid
    rename_i nextRange
    refine .pure ⟨not_not.mp nextRange, fun out mem => ?_⟩
    obtain inRest | checked := done out mem
    · obtain rfl | later := mem_cons.mp inRest
      · exact .inr value
      · exact .inl later
    · exact .inr checked
  refine loop.mono fun sum kept out mem => ?_
  obtain impossible | checked := kept.2 out mem
  · cases impossible
  · exact checked

theorem ensures_insertInputs (vin : List CTxIn) :
    Ensures (Overflows strict) (vin.foldlM insertInput []) (fun _ =>
      (vin.map (·.prevout)).Nodup) := by
  have loop : Ensures (Overflows strict) (vin.foldlM insertInput []) (fun seen =>
      seen.Nodup ∧ seen.reverse ++ ([] : List CTxIn).map (·.prevout) = vin.map (·.prevout)) := by
    refine foldlM (fun (rest : List CTxIn) (seen : List COutPoint) =>
      seen.Nodup ∧ seen.reverse ++ rest.map (·.prevout) = vin.map (·.prevout))
      ⟨nodup_nil, rfl⟩ ?_
    rintro txin rest seen ⟨ne, inOrder⟩
    simp only [insertInput]
    split
    · exact ensures_invalid
    · rename_i new
      refine .pure ⟨nodup_cons.mpr ⟨new, ne⟩, ?_⟩
      rw [← inOrder, reverse_cons, append_assoc]
      rfl
  refine loop.mono fun seen kept => ?_
  rw [← kept.2, map_nil, append_nil]
  exact nodup_reverse.mpr kept.1

theorem ensures_checkTransaction :
    Ensures (Overflows strict) (checkTransaction tx) (fun _ => CheckedTx tx) := by
  simp only [checkTransaction]
  split
  · exact ensures_invalid
  split
  · exact ensures_invalid
  split
  · exact ensures_invalid
  rename_i size
  refine (ensures_checkOutputs tx.vout).bind fun _ values => ?_
  refine (ensures_insertInputs tx.vin).bind fun _ ne => ?_
  have established : CheckedTx tx := ⟨values, ne, not_lt.mp size⟩
  simp only [checkPrevouts]
  split
  · split
    · exact ensures_invalid
    · exact .pure established
  · split
    · exact ensures_invalid
    · exact .pure established

structure CheckedBlock (first : CTransaction) (rest : List CTransaction) : Prop where
  coinbase : first.isCoinBase = true
  others : ∀ tx ∈ rest, tx.isCoinBase = false
  checked : ∀ tx ∈ first :: rest, CheckedTx tx

theorem ensures_forM {established : α → Prop}
    (each : ∀ a, Ensures (Overflows strict) (check a) (fun _ => established a)) (l : List α) :
    Ensures (Overflows strict) (l.forM check) (fun _ => ∀ a ∈ l, established a) := by
  induction l with
  | nil => exact .pure nofun
  | cons a rest ih =>
    refine (each a).bind fun _ here => ?_
    refine mono ih fun _ later b mem => ?_
    obtain rfl | inRest := mem_cons.mp mem
    · exact here
    · exact later b inRest

theorem ensures_checkTransactions (env : Env) (block : CBlock) :
    Ensures (Overflows strict) (checkTransactions env block) (fun _ =>
      ∃ coinbase rest, block.vtx = coinbase :: rest ∧ CheckedBlock coinbase rest) := by
  simp only [checkTransactions]
  split
  · exact ensures_reject
  rename_i coinbase rest listed
  split
  · exact ensures_reject
  split
  · exact ensures_reject
  split
  · exact ensures_reject
  rename_i isCoinbase others
  refine (ensures_forM (fun tx => ensures_ofTx (ensures_checkTransaction tx)) _).bind ?_
  intro _ checked
  split
  · exact ensures_reject
  · refine .pure ⟨coinbase, rest, listed, ?_, ?_, listed ▸ checked⟩
    · simpa using isCoinbase
    · simpa using others

theorem ensures_checkBlock (env : Env) (block : CBlock) (fCheckPOW fCheckMerkleRoot : Bool) :
    Ensures (Overflows strict) (checkBlock env block fCheckPOW fCheckMerkleRoot) (fun _ =>
      ∃ coinbase rest, block.vtx = coinbase :: rest ∧ CheckedBlock coinbase rest) := by
  simp only [checkBlock]
  split
  · exact ensures_invalid
  split
  · refine andThen ?_ fun _ => ensures_checkTransactions env block
    simp only [checkMerkleRoot]
    split
    · exact ensures_invalid
    · split
      · exact ensures_invalid
      · exact .pure trivial
  · exact ensures_checkTransactions env block

def ValuesInRange (m : CoinsView) : Prop :=
  ∀ o c, m o = some c → moneyRange c.out.nValue

def valueAt (coin : Option Coin) : Int :=
  coin.elim 0 (·.out.nValue)

def inputValue (m : CoinsView) (vin : List CTxIn) : Int :=
  (vin.map fun txin => valueAt (m txin.prevout)).sum

theorem inputValue_cons (m : CoinsView) (txin : CTxIn) (rest : List CTxIn) :
    inputValue m (txin :: rest) = valueAt (m txin.prevout) + inputValue m rest := by
  simp only [inputValue, map_cons, sum_cons]

open CCoinsViewCache

variable {v : CCoinsViewCache}

section

variable (valid : v.Valid honest)
include valid

theorem haveAll_spec (vin : List CTxIn) :
    Reads honest v (haveAll vin v).2 ∧
      ((haveAll vin v).1 = true → ∀ txin ∈ vin, (v.view txin.prevout).isSome) := by
  induction vin generalizing v with
  | nil => exact ⟨.refl valid, nofun⟩
  | cons txin rest ih =>
    obtain ⟨found, reads⟩ := haveCoin_spec valid txin.prevout
    simp only [haveAll]
    cases answer : v.haveCoin txin.prevout with
    | mk have_ v' =>
      rw [answer] at found reads
      cases have_ with
      | false => exact ⟨reads, nofun⟩
      | true =>
        obtain ⟨readsRest, present⟩ := ih reads.valid
        refine ⟨reads.trans readsRest, fun passed other mem => ?_⟩
        obtain rfl | inRest := mem_cons.mp mem
        · exact found.symm
        · exact reads.view ▸ present passed other inRest

theorem accessCoins_spec (vin : List CTxIn) :
    Reads honest v (accessCoins vin v).2 ∧
      (accessCoins vin v).1.map Coin.unspent = vin.map (fun txin => v.view txin.prevout) := by
  induction vin generalizing v with
  | nil => exact ⟨.refl valid, rfl⟩
  | cons txin rest ih =>
    obtain ⟨found, reads⟩ := accessCoin_spec valid txin.prevout
    obtain ⟨readsRest, foundRest⟩ := ih reads.valid
    rw [reads.view] at foundRest
    simp only [accessCoins, map_cons, found, foundRest]
    exact ⟨reads.trans readsRest, trivial⟩

theorem ensures_accessUnspent (vin : List CTxIn) :
    Ensures (FaultOverflows strict) (accessUnspent vin v) (fun r => Reads honest v r.2 ∧
      r.1.length = vin.length) := by
  obtain ⟨reads, found⟩ := accessCoins_spec valid vin
  refine ensures_assert.bind fun _ _ => .pure ⟨reads, ?_⟩
  simpa only [length_map] using congrArg length found

theorem ensures_addInputs (values : strict → ValuesInRange v.view) (nSpendHeight : Int)
    (vin : List CTxIn) :
    Ensures (Overflows strict) (vin.foldlM (addInput nSpendHeight) (0, v)) (fun r =>
      Reads honest v r.2 ∧ moneyRange r.1 ∧ r.1 = inputValue v.view vin) := by
  have loop : Ensures (Overflows strict) (vin.foldlM (addInput nSpendHeight) (0, v)) (fun r =>
      Reads honest v r.2 ∧ moneyRange r.1 ∧
        r.1 + inputValue v.view [] = inputValue v.view vin) := by
    refine foldlM (fun rest (st : Int × CCoinsViewCache) => Reads honest v st.2 ∧
      moneyRange st.1 ∧ st.1 + inputValue v.view rest = inputValue v.view vin)
      ⟨.refl valid, moneyRange_zero, Int.zero_add _⟩ ?_
    rintro txin rest ⟨sum, v'⟩ ⟨reads, range, total⟩
    obtain ⟨found, readsCoin⟩ := accessCoin_spec reads.valid txin.prevout
    rw [show v'.view = v.view from reads.view] at found
    simp only [addInput]
    refine (ensures_lift ensures_assert).bind fun _ unspent => ?_
    have shown : v.view txin.prevout = some (v'.accessCoin txin.prevout).1 :=
      found.symm.trans (Coin.unspent_eq_some.mpr ⟨rfl, by simpa using unspent⟩)
    have worth := congrArg valueAt shown
    generalize (v'.accessCoin txin.prevout).1 = coin at shown worth
    split
    · exact ensures_invalid
    have inRange (told : strict) : IsInt64 (sum + coin.out.nValue) :=
      isInt64_add range (values told _ _ shown)
    refine (ensures_lift (ensures_int64 fun overflow => inRange overflow.1)).bind ?_
    rintro next rfl
    split
    · exact ensures_invalid
    rename_i bothInRange
    refine .pure ⟨reads.trans readsCoin, (not_or.mp bothInRange).2 |> not_not.mp, ?_⟩
    rw [inputValue_cons, worth] at total
    rw [← total]
    exact Int.add_assoc _ _ _
  refine loop.mono fun r kept => ⟨kept.1, kept.2.1, ?_⟩
  simpa only [inputValue, map_nil, sum_nil, Int.add_zero] using kept.2.2

theorem ensures_checkTxInputs {tx : CTransaction} (values : strict → ValuesInRange v.view)
    (spends : tx.isCoinBase = false) (nSpendHeight : Int) :
    Ensures (Overflows strict) (checkTxInputs tx v nSpendHeight) (fun r => Reads honest v r.2 ∧
      moneyRange r.1 ∧ r.1 = inputValue v.view tx.vin - valueOut tx.vout ∧
      ∀ txin ∈ tx.vin, (v.view txin.prevout).isSome) := by
  obtain ⟨reads, present⟩ := haveAll_spec valid tx.vin
  simp only [checkTxInputs, haveInputs, spends, Bool.false_eq_true, if_false]
  cases answer : haveAll tx.vin v with
  | mk passed v' =>
    rw [answer] at reads present
    cases passed with
    | false => exact ensures_invalid
    | true =>
      have values' : strict → ValuesInRange v'.view := fun told => reads.view ▸ values told
      refine (ensures_addInputs reads.valid values' nSpendHeight tx.vin).bind ?_
      rintro ⟨nValueIn, v''⟩ ⟨readsCoins, range, total⟩
      refine (ensures_lift (ensures_getValueOut tx)).bind ?_
      rintro out ⟨rfl, outRange⟩
      split
      · exact ensures_invalid
      refine (ensures_lift (ensures_int64 fun _ => isInt64_sub range outRange)).bind ?_
      rintro fee rfl
      split
      · exact ensures_invalid
      · rename_i feeRange
        refine .pure ⟨reads.trans readsCoins, not_not.mp feeRange, ?_, present rfl⟩
        rw [← show v'.view = v.view from reads.view, ← total]

end

/-- The running totals of `ConnectBlock` are within their limits. -/
structure Accounting (st : ConnectState) : Prop where
  fees : moneyRange st.nFees
  sigOps : 0 ≤ st.nSigOpsCost ∧ st.nSigOpsCost ≤ maxBlockSigopsCost

theorem ensures_sequenceLock (block : CBlockIndex) (lock : Int × Int) (input : CTxIn × Nat) :
    Ensures (FaultOverflows strict) (sequenceLock block lock input) (fun _ => True) := by
  simp only [sequenceLock]
  split
  · exact .pure trivial
  split
  · cases block.getAncestor (max ((input.2 : Int) - 1) 0) with
    | none => exact ensures_assertion
    | some coinParent => exact .pure trivial
  · exact .pure trivial

theorem ensures_sequenceLocks (flags : UInt32) (prevHeights : List Nat) (block : CBlockIndex) :
    Ensures (FaultOverflows strict) (sequenceLocks tx flags prevHeights block)
      (fun _ => True) := by
  have calculated : Ensures (FaultOverflows strict)
      (calculateSequenceLocks tx flags prevHeights block) (fun _ => True) := by
    refine (ensures_assert.mono fun _ _ => trivial).andThen fun _ => ?_
    split
    · exact foldlM (fun _ _ => True) trivial fun input rest lock _ =>
        ensures_sequenceLock block lock input
    · exact .pure trivial
  refine calculated.andThen fun lockPair => ?_
  simp only [evaluateSequenceLocks]
  cases block.pprev with
  | none => exact ensures_assertion
  | some pprev => exact .pure trivial

theorem getWitnessSigOpCount_le (env : Env) (flags : UInt32) (vin : List CTxIn)
    (coins : List Coin) :
    getWitnessSigOpCount env flags vin coins ≤ vin.length * 2 ^ 32 := by
  have bound := sum_le_card_nsmul ((vin.zip coins).map fun input =>
    (env.countWitnessSigOps input.1 input.2.out.scriptPubKey flags).toNat) (2 ^ 32) (by
      intro count mem
      obtain ⟨input, -, rfl⟩ := mem_map.mp mem
      exact (UInt32.toNat_lt _).le)
  rw [length_map, length_zip] at bound
  exact bound.trans (Nat.mul_le_mul_right _ (Nat.min_le_left _ _))

theorem ensures_getTransactionSigOpCost (env : Env) (valid : v.Valid honest) (tx : CTransaction)
    (flags : UInt32) :
    Ensures (FaultOverflows strict) (getTransactionSigOpCost env tx v flags) (fun r =>
      Reads honest v r.2 ∧ 0 ≤ r.1 ∧ r.1 ≤ (tx.vin.length + 2) * 2 ^ 32) := by
  have legacy := (getLegacySigOpCount env tx * 4).toNat_lt
  simp only [getTransactionSigOpCost]
  split
  · exact .pure ⟨.refl valid, by omega, by omega⟩
  refine (ensures_accessUnspent valid tx.vin).bind ?_
  rintro ⟨coins, v'⟩ ⟨reads, -⟩
  dsimp only
  have witness := getWitnessSigOpCount_le env flags tx.vin coins
  have p2sh := (getP2SHSigOpCount env tx.vin coins * 4).toNat_lt
  refine .pure ⟨reads, ?_, ?_⟩
  · split <;> omega
  · split <;> omega

variable {env : Env} {pindex : CBlockIndex} {nLockTimeFlags flags : UInt32} {tx : CTransaction}
  {st : ConnectState}

/-- What has been established about a transaction when its coins are updated. -/
structure TxChecked (honest : Prop) (tx : CTransaction) (st st' : ConnectState) : Prop where
  reads : Reads honest st.view st'.view
  accounting : Accounting st'
  vtxundo : st'.vtxundo = st.vtxundo
  coinbase : tx.isCoinBase = true → st'.nFees = st.nFees
  fee : tx.isCoinBase = false →
    st'.nFees = st.nFees + (inputValue st.view.view tx.vin - valueOut tx.vout)
  present : tx.isCoinBase = false → ∀ txin ∈ tx.vin, (st.view.view txin.prevout).isSome

theorem TxChecked.refl (valid : st.view.Valid honest) (accounting : Accounting st)
    (isCoinbase : tx.isCoinBase = true) : TxChecked honest tx st st :=
  ⟨.refl valid, accounting, rfl, fun _ => rfl, fun spends => by simp [isCoinbase] at spends,
    fun spends => by simp [isCoinbase] at spends⟩

theorem TxChecked.read {st₂} (before : TxChecked honest tx st st₁)
    (reads : Reads honest st₁.view st₂.view) (accounting : Accounting st₂)
    (vtxundo : st₂.vtxundo = st₁.vtxundo) (fees : st₂.nFees = st₁.nFees) :
    TxChecked honest tx st st₂ :=
  ⟨before.reads.trans reads, accounting, vtxundo.trans before.vtxundo,
    fun isCoinbase => fees.trans (before.coinbase isCoinbase),
    fun spends => fees.trans (before.fee spends), before.present⟩

theorem ensures_connectInputs (valid : st.view.Valid honest) (accounting : Accounting st)
    (values : strict → ValuesInRange st.view.view) :
    Ensures (Overflows strict) (connectInputs pindex nLockTimeFlags tx st)
      (TxChecked honest tx st) := by
  simp only [connectInputs]
  split
  · rename_i isCoinbase
    exact .pure (.refl valid accounting isCoinbase)
  rename_i notCoinbase
  have spends : tx.isCoinBase = false := by simpa using notCoinbase
  refine (ensures_ofTx (ensures_checkTxInputs valid values spends pindex.nHeight)).bind ?_
  rintro ⟨txfee, view⟩ ⟨reads, range, fee, present⟩
  refine (ensures_lift (ensures_int64 fun _ => isInt64_add accounting.fees range)).bind ?_
  rintro nFees rfl
  split
  · exact ensures_reject
  rename_i feesRange
  obtain ⟨readsCoins, -⟩ := accessCoins_spec reads.valid tx.vin
  refine (ensures_lift (ensures_sequenceLocks tx nLockTimeFlags _ pindex)).andThen ?_
  intro final
  split
  · refine .pure ⟨reads.trans readsCoins, ⟨not_not.mp feesRange, accounting.sigOps⟩, rfl,
      ?_, fun _ => congrArg (st.nFees + ·) fee, fun _ => present⟩
    intro isCoinbase
    cases spends.symm.trans isCoinbase
  · exact ensures_reject

theorem ensures_connectSigOps (checked : CheckedTx tx) (before : TxChecked honest tx st st₁) :
    Ensures (Overflows strict) (connectSigOps env flags tx st₁) (TxChecked honest tx st) := by
  refine (ensures_lift (ensures_getTransactionSigOpCost env before.reads.valid tx flags)).bind ?_
  rintro ⟨cost, view⟩ ⟨reads, nonneg, bound⟩
  obtain ⟨least, most⟩ := before.accounting.sigOps
  have inRange : IsInt64 (st₁.nSigOpsCost + cost) := by
    have inputs := checked.vin_length_le
    simp only [maxBlockSigopsCost] at most
    constructor <;> omega
  refine (ensures_lift (ensures_int64 fun _ => inRange)).bind ?_
  rintro nSigOpsCost rfl
  split
  · exact ensures_reject
  · rename_i within
    refine .pure (before.read reads ⟨before.accounting.fees, ?_, ?_⟩ rfl rfl)
    · exact Int.add_nonneg least nonneg
    · exact not_lt.mp within

theorem ensures_connectScripts (before : TxChecked honest tx st st₁) :
    Ensures (Overflows strict) (connectScripts env pindex flags tx st₁)
      (TxChecked honest tx st) := by
  simp only [connectScripts]
  split
  · exact .pure before
  refine (ensures_lift (ensures_accessUnspent before.reads.valid tx.vin)).bind ?_
  rintro ⟨coins, view⟩ ⟨reads, -⟩
  split
  · exact ensures_reject
  · exact .pure (before.read reads ⟨before.accounting.fees, before.accounting.sigOps⟩ rfl rfl)

theorem ensures_checkTx (valid : st.view.Valid honest) (accounting : Accounting st)
    (checked : CheckedTx tx) (values : strict → ValuesInRange st.view.view) :
    Ensures (Overflows strict) (checkTx env pindex nLockTimeFlags flags tx st)
      (TxChecked honest tx st) :=
  (ensures_connectInputs valid accounting values).bind fun _ inputs =>
    (ensures_connectSigOps checked inputs).bind fun _ => ensures_connectScripts

theorem ensures_checkBIP30 (env : Env) (block : CBlock) (pprev pindex : CBlockIndex)
    (valid : v.Valid honest) :
    Ensures (Overflows strict) (checkBIP30 env block pprev pindex v) (fun v' =>
      Reads honest v v' ∧ (enforceBIP30 env pprev pindex = true →
        ∀ output ∈ block.vtx.flatMap (outputs env), v.view output.1 = none)) := by
  simp only [checkBIP30]
  split
  · refine (foldlM (fun (rest : List (COutPoint × CTxOut)) (cache : CCoinsViewCache) =>
      Reads honest v cache ∧ ∀ output ∈ block.vtx.flatMap (outputs env),
        output ∈ rest ∨ v.view output.1 = none)
      ⟨.refl valid, fun _ mem => .inl mem⟩ ?_).mono ?_
    · rintro output rest cache ⟨reads, absent⟩
      obtain ⟨found, reads'⟩ := haveCoin_spec reads.valid output.1
      rw [reads.view] at found
      simp only [checkNoOverwrite]
      cases answer : cache.haveCoin output.1 with
      | mk have_ next =>
        rw [answer] at found reads'
        cases have_ with
        | true => exact ensures_reject
        | false =>
          refine .pure ⟨reads.trans reads', fun other mem => ?_⟩
          obtain inList | gone := absent other mem
          · obtain rfl | inRest := mem_cons.mp inList
            · exact .inr (Option.isNone_iff_eq_none.mp (by simpa using found.symm))
            · exact .inl inRest
          · exact .inr gone
    · rintro cache ⟨reads, absent⟩
      refine ⟨reads, fun _ output mem => ?_⟩
      obtain impossible | gone := absent output mem
      · cases impossible
      · exact gone
  · rename_i notEnforced
    exact .pure ⟨.refl valid, fun enforced => absurd enforced notEnforced⟩

/-- What `ConnectBlock` has established when it turns to the transactions. -/
structure Ready (honest : Prop) (env : Env) (block : CBlock) (pprev pindex : CBlockIndex)
    (coinbase : CTransaction) (rest : List CTransaction) (v v' : CCoinsViewCache) : Prop where
  parent : pindex.pprev = some pprev
  listed : block.vtx = coinbase :: rest
  checked : CheckedBlock coinbase rest
  reads : Reads honest v v'
  best : pprev.getBlockHash env.hash = v.bestBlock
  absent : enforceBIP30 env pprev pindex = true →
    ∀ output ∈ block.vtx.flatMap (outputs env), v.view output.1 = none

theorem ensures_connectBlock_of {block fJustCheck post} (valid : v.Valid honest)
    (genesis : ∀ v', env.hash block.toCBlockHeader = env.params.hashGenesisBlock → Reads honest v v' →
      post (if fJustCheck then v' else v'.setBestBlock (pindex.getBlockHash env.hash), []))
    (others : ∀ coinbase rest pprev v', Ready honest env block pprev pindex coinbase rest v v' →
      Ensures (Overflows strict) (connectTransactions env block pindex v') (fun st =>
        post (if fJustCheck then st.view else st.view.setBestBlock (pindex.getBlockHash env.hash),
          st.vtxundo))) :
    Ensures (Overflows strict) (connectBlock env block pindex v fJustCheck) post := by
  simp only [connectBlock]
  refine (ensures_lift ensures_assert).bind fun _ _ => ?_
  have checked := @ensures_checkBlock strict env block (!fJustCheck) (!fJustCheck)
  split
  · exact .fail fun overflow => by cases overflow.2
  · rename_i failure failed
    rw [failed] at checked
    exact checked
  rename_i passed
  rw [passed] at checked
  obtain ⟨coinbase, rest, listed, checked⟩ := checked
  obtain ⟨best, readsBest⟩ := getBestBlock_spec valid
  cases answer : v.getBestBlock with
  | mk bestBlock v₁ =>
    rw [answer] at best readsBest
    refine (ensures_lift ensures_assert).bind fun _ same => ?_
    split
    · rename_i isGenesis
      exact .pure (genesis v₁ isGenesis readsBest)
    cases parent : pindex.pprev with
    | none => exact .fail fun overflow => by cases overflow.2
    | some pprev =>
      rw [parent] at same
      refine (ensures_checkBIP30 env block pprev pindex readsBest.valid).bind ?_
      rintro v₂ ⟨readsOutputs, absent⟩
      rw [readsBest.view] at absent
      refine (others coinbase rest pprev v₂ ⟨parent, listed, checked,
        readsBest.trans readsOutputs, ?_, absent⟩).bind fun st conn => .pure conn
      exact (eq_of_beq same).trans best

end HobbyHash.Validation
