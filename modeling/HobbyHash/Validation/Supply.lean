import HobbyHash.Coins.Refinement
import HobbyHash.Library.Budget
import HobbyHash.Validation.Spec
import Mathlib.Data.Int.ConditionallyCompleteOrder

/-! # No block creates money

The coins of a view, together with the coins that a fresh flag hides and a spend
would reveal, stay within a budget. Reading leaves the budget alone, adding a coin
raises it by at most the coin's value, and spending one lowers it by exactly what
is moved out. Over a block the inputs pay for the outputs and the fees, the fees
and the subsidy pay for the coinbase, and the budget grows by the subsidy. Nothing
is assumed of transaction ids, and nothing of the check against overwriting.
-/

namespace HobbyHash.Validation

open Machine Consensus Library CCoinsViewCache List Function Option

theorem ValuesInRange.nonneg (values : ValuesInRange m) (o : COutPoint) :
    0 ≤ valueAt (m o) := by
  cases shown : m o with
  | none => exact le_refl 0
  | some coin => exact (moneyRange_iff.mp (values o coin shown)).1

theorem ValuesInRange.update {m} (values : ValuesInRange m) (o : COutPoint) {coin}
    (range : ∀ c, coin = some c → moneyRange c.out.nValue) :
    ValuesInRange (Function.update m o coin) := by
  intro other c shown
  by_cases same : other = o
  · subst same
    rw [update_self] at shown
    exact range c shown
  · rw [update_of_ne same] at shown
    exact values other c shown

/-- What is seen at an outpoint and what is hidden there. -/
def weight (v : CCoinsViewCache) (o : COutPoint) : Int :=
  valueAt (v.view o) + valueAt (v.hidden o)

/-- The coins of a view are worth at most `budget`. -/
structure Account (budget : Int) (v : CCoinsViewCache) : Prop where
  valid : v.Valid False
  values : ValuesInRange v.view
  under : ValuesInRange v.under
  total : Within (weight v) budget
  single : v.below = []

variable {budget : Int} {v v' : CCoinsViewCache} {o : COutPoint}

section

variable (account : Account budget v)
include account

theorem Account.hidden_nonneg (o : COutPoint) : 0 ≤ valueAt (v.hidden o) := by
  simp only [CCoinsViewCache.hidden]
  split
  · split
    · exact account.under.nonneg o
    · exact le_refl 0
  · exact le_refl 0

theorem Account.mono {larger} (le : budget ≤ larger) : Account larger v :=
  { account with total := account.total.mono le }

theorem Account.reads (reads : Reads False v v') :
    Account budget v' where
  valid := reads.valid
  values := reads.view ▸ account.values
  under := reads.under ▸ account.under
  total := by
    have eq : weight v' = weight v := by
      funext o
      simp only [weight, reads.view, reads.hidden]
    exact eq ▸ account.total
  single := reads.below_eq_nil account.single

theorem Account.change {shown hides} (shows : Shows False v (Function.update v.view o shown) v')
    (hidden : v'.hidden = Function.update v.hidden o hides)
    (range : ∀ c, shown = some c → moneyRange c.out.nValue)
      (le : 0 ≤ valueAt shown + valueAt hides) :
    Account (budget - weight v o + (valueAt shown + valueAt hides)) v' where
  valid := shows.valid
  values := shows.view ▸ account.values.update o range
  under := shows.under ▸ account.under
  total := by
    have eq : weight v' = update (weight v) o (valueAt shown + valueAt hides) := by
      funext other
      simp only [weight, shows.view, hidden]
      by_cases here : other = o
      · subst here
        simp only [update_self]
      · simp only [update_of_ne here, weight]
    rw [eq]
    exact account.total.update o le
  single := shows.below_eq_nil account.single

theorem Account.added_hides (o : COutPoint) (coin : Coin) (possibleOverwrite : Bool) :
    valueAt (if (v.addedEntry o coin possibleOverwrite).fresh then v.under o else none) ≤
      weight v o := by
  have seen := account.values.nonneg o
  have hides := account.hidden_nonneg o
  simp only [weight]
  split
  · rename_i fresh
    simp only [addedEntry, Bool.or_eq_true, Bool.and_eq_true, Bool.not_eq_true'] at fresh
    cases located : v.top.cacheCoins.lookup o with
    | none =>
      have eq : v.view o = v.under o := Layer.view_of_absent located
      rw [← eq]
      omega
    | some it =>
      rw [located, getD_some] at fresh
      obtain wasFresh | ⟨-, notDirty⟩ := fresh
      · have eq : v.hidden o = v.under o := by
          simp only [CCoinsViewCache.hidden, located, wasFresh, if_true]
        rw [← eq]
        omega
      · have clean := (account.valid.1 o it located).clean notDirty
        have eq : v.view o = v.under o := (Layer.view_of_lookup located).trans clean
        rw [← eq]
        omega
  · change (0 : Int) ≤ _
    omega

theorem Account.addCoin {coin possibleOverwrite} (range : moneyRange coin.out.nValue) :
    Ensures (FaultOverflows True) (v.addCoin o coin possibleOverwrite)
      (Account (budget + coin.out.nValue)) := by
  have nonneg := (moneyRange_iff.mp range).1
  cases spent : coin.isSpent with
  | true =>
    simp only [CCoinsViewCache.addCoin, spent]
    refine ensures_assert.bind ?_
    rintro _ ⟨⟩
  | false =>
    rw [addCoin_eq spent]
    split
    · exact .pure (account.mono (by omega))
    split
    · exact .fail fun overflow => by cases overflow.2
    have visible : (v.addedEntry o coin possibleOverwrite).coin.unspent = some coin :=
      Coin.unspent_eq_some.mpr ⟨rfl, spent⟩
    have hides := account.added_hides o coin possibleOverwrite
    have shows := shows_emplace account.valid
      (@addedEntry_valid possibleOverwrite coin False v o account.valid spent False.elim)
    rw [visible] at shows
    have le : 0 ≤ valueAt
        (if (v.addedEntry o coin possibleOverwrite).fresh then v.under o else none) := by
      split
      · exact account.under.nonneg o
      · exact le_refl 0
    refine .pure ((account.change shows (hidden_emplace v o _) ?_ ?_).mono ?_)
    · intro c same
      obtain rfl := some.inj same
      exact range
    · exact Int.add_nonneg nonneg le
    · simp only [valueAt, elim_some] at hides ⊢
      omega

theorem Account.spendCoin (o : COutPoint) :
    Account (budget - valueAt (v.view o)) (v.spendCoin o).2 ∧
      ∀ other, other ≠ o → (v.spendCoin o).2.view other = v.view other := by
  obtain ⟨reads, found, cached⟩ := fetchCoin_spec account.valid o
  have filled := account.reads reads
  rw [CCoinsViewCache.spendCoin, ← found]
  cases answer : v.fetchCoin o with
  | mk entry v' =>
    rw [answer] at reads found cached filled
    have view : v'.view = v.view := reads.view
    cases entry with
    | none =>
      refine ⟨?_, fun other _ => congrFun view other⟩
      exact filled.mono (Int.sub_zero budget).ge
    | some entry =>
      have seen : v'.view o = entry.coin.unspent := Layer.view_of_lookup cached
      have apart (shown : Option Coin) (other : COutPoint) (ne : other ≠ o) :
          update v'.view o shown other = v.view other := by
        rw [update_of_ne ne, view]
      cases fresh : entry.fresh with
      | true =>
        have hides : v'.hidden o = v'.under o := by
          simp only [CCoinsViewCache.hidden, cached, fresh, if_true]
        have shows := shows_erase (o := o) filled.valid
        have changed := filled.change shows (hidden_erase v' o)
          (fun c shown => filled.under o c shown)
          (Int.add_nonneg (filled.under.nonneg o) (le_refl 0))
        simp only [fresh, if_true, bind_some]
        refine ⟨changed.mono ?_, fun other ne => ?_⟩
        · simp only [weight, seen, hides, valueAt, elim_none]
          omega
        · rw [shows.view]
          exact apart _ other ne
      | false =>
        have hides : v'.hidden o = none := by
          simp only [CCoinsViewCache.hidden, cached, fresh, Bool.false_eq_true, if_false]
        have shows := shows_emplace (o := o) filled.valid (@spentEntry_valid False _)
        have changed := filled.change shows (hidden_emplace v' o _)
          (by rintro _ ⟨⟩) (le_refl 0)
        simp only [fresh, Bool.false_eq_true, if_false, bind_some]
        refine ⟨changed.mono ?_, fun other ne => ?_⟩
        · simp only [weight, seen, hides, valueAt, Coin.unspent_empty, Bool.false_eq_true,
            if_false, elim_none]
          omega
        · rw [shows.view]
          exact apart _ other ne

end

theorem ensures_spendInputs (account : Account budget v) (ne : (vin.map (·.prevout)).Nodup) :
    Ensures (FaultOverflows True) (vin.foldlM spendInput ([], v)) (fun r =>
      Account (budget - inputValue v.view vin) r.2) := by
  have loop : Ensures (FaultOverflows True) (vin.foldlM spendInput ([], v)) (fun r =>
      Account (budget - inputValue v.view vin + inputValue r.2.view []) r.2 ∧
        (([] : List CTxIn).map (·.prevout)).Nodup) := by
    refine Ensures.foldlM (fun (rest : List CTxIn) (st : List Coin × CCoinsViewCache) =>
      Account (budget - inputValue v.view vin + inputValue st.2.view rest) st.2 ∧
        (rest.map (·.prevout)).Nodup) ⟨account.mono (Int.sub_add_cancel _ _).ge, ne⟩ ?_
    rintro txin rest ⟨vprevout, current⟩ ⟨account, ne⟩
    dsimp only at account
    obtain ⟨fresh, distinctRest⟩ := nodup_cons.mp ne
    obtain ⟨spent, apart⟩ := account.spendCoin txin.prevout
    have later : inputValue (current.spendCoin txin.prevout).2.view rest =
        inputValue current.view rest := by
      refine congrArg sum (map_congr_left fun other mem => ?_)
      rw [apart _ fun same => fresh (mem_map.mpr ⟨other, mem, same⟩)]
    simp only [spendInput]
    cases answer : current.spendCoin txin.prevout with
    | mk coin next =>
      rw [answer] at spent later
      cases coin with
      | none => exact ensures_assertion
      | some coin =>
        refine .pure ⟨spent.mono ?_, distinctRest⟩
        rw [later, inputValue_cons]
        omega
  exact loop.mono fun r established => established.1.mono (by simp [inputValue])

theorem ensures_addCoins (env : Env) (account : Account budget v)
    (values : ∀ out ∈ tx.vout, moneyRange out.nValue) (nHeight : Nat) :
    Ensures (FaultOverflows True) (addCoins env v tx nHeight false)
      (Account (budget + valueOut tx.vout)) := by
  have listed := outputsFrom_map_snd (env.txid tx) 0 tx.vout
  have loop : Ensures (FaultOverflows True) (addCoins env v tx nHeight false) (fun cache =>
      Account (budget + valueOut tx.vout - valueOut []) cache ∧
        ∀ output ∈ ([] : List (COutPoint × CTxOut)), moneyRange output.2.nValue) := by
    refine Ensures.foldlM (fun (rest : List (COutPoint × CTxOut)) (cache : CCoinsViewCache) =>
      Account (budget + valueOut tx.vout - valueOut (rest.map Prod.snd)) cache ∧
        ∀ output ∈ rest, moneyRange output.2.nValue) ⟨account.mono ?_, ?_⟩ ?_
    · rw [outputs, listed]
      omega
    · intro output mem
      exact values output.2 (mem_vout_of_mem_outputs mem)
    rintro output rest cache ⟨account, range⟩
    have here := range output mem_cons_self
    refine (account.addCoin here).mono fun next added => ⟨added.mono ?_, fun other mem =>
      range other (mem_cons_of_mem _ mem)⟩
    rw [map_cons, valueOut_cons]
    dsimp only
    omega
  exact loop.mono fun cache established => established.1.mono (by simp [valueOut])

/-- The value that a transaction takes out of the view before it adds its own. -/
def spentValue (m : CoinsView) (tx : CTransaction) : Int :=
  if tx.isCoinBase then 0 else inputValue m tx.vin

theorem ensures_updateCoins (env : Env) (account : Account budget v) (checked : CheckedTx tx)
    (nHeight : Nat) :
    Ensures (FaultOverflows True) (updateCoins env tx v nHeight) (fun r =>
      Account (budget - spentValue v.view tx + valueOut tx.vout) r.2) := by
  have spends : Ensures (FaultOverflows True) (spendInputs tx v)
      (fun r => Account (budget - spentValue v.view tx) r.2) := by
    simp only [spentValue, spendInputs]
    split
    · exact .pure (account.mono (Int.sub_zero budget).ge)
    · exact ensures_spendInputs account checked.distinct
  refine spends.bind ?_
  rintro ⟨vprevout, inputs⟩ spent
  refine (ensures_addCoins env spent checked.values nHeight).bind fun cache added => ?_
  exact .pure added

variable {env : Env} {pindex : CBlockIndex} {nLockTimeFlags flags : UInt32} {st : ConnectState}

theorem ensures_connectTx (checked : CheckedTx input.1) (accounting : Accounting st)
    (account : Account budget st.view) :
    Ensures (Overflows True) (connectTx env pindex nLockTimeFlags flags st input) (fun st' =>
      Accounting st' ∧
        Account (budget - spentValue st.view.view input.1 + valueOut input.1.vout) st'.view ∧
        st'.nFees = st.nFees +
          if input.1.isCoinBase then 0
          else spentValue st.view.view input.1 - valueOut input.1.vout) := by
  refine (ensures_checkTx account.valid accounting checked fun _ => account.values).bind ?_
  intro st₁ passed
  refine (ensures_lift (ensures_updateCoins env (account.reads passed.reads) checked _)).bind ?_
  rintro ⟨vprevout, view⟩ updated
  rw [passed.reads.view] at updated
  refine .pure ⟨⟨passed.accounting.fees, passed.accounting.sigOps⟩, updated, ?_⟩
  simp only [spentValue]
  split
  · rename_i isCoinbase
    exact (passed.coinbase isCoinbase).trans (Int.add_zero _).symm
  · rename_i notCoinbase
    exact passed.fee (by simpa using notCoinbase)

theorem main_subsidy_range (nHeight : Nat) : moneyRange (getBlockSubsidy nHeight mainParams) := by
  obtain _ | _ | k := nHeight
  · decide
  · decide
  · rw [main_subsidy, moneyRange_iff]
    have most := subsidyAfter_le (k / 840000)
    simp only [coin] at most
    exact ⟨subsidyAfter_nonneg _, by omega⟩

theorem ensures_connectTransactions (main : env.params = mainParams)
    (listed : block.vtx = coinbase :: rest) (checked : CheckedBlock coinbase rest)
    (account : Account budget v) :
    Ensures (Overflows True) (connectTransactions env block pindex v) (fun st =>
      Account (budget + getBlockSubsidy pindex.nHeight mainParams) st.view) := by
  have start : Accounting ⟨v, 0, 0, []⟩ :=
    ⟨moneyRange_zero, le_refl 0, by simp [maxBlockSigopsCost]⟩
  have loop (nLockTimeFlags flags : UInt32) : Ensures (Overflows True)
      (block.vtx.zipIdx.foldlM (connectTx env pindex nLockTimeFlags flags) ⟨v, 0, 0, []⟩)
      (fun st => Accounting st ∧ Account (budget + valueOut coinbase.vout - st.nFees) st.view) := by
    rw [listed, zipIdx_cons, foldlM_cons]
    refine (ensures_connectTx (checked.checked _ mem_cons_self) start account).bind ?_
    rintro st ⟨accounting, account, fees⟩
    simp only [spentValue, checked.coinbase, if_true] at account fees
    refine (Ensures.foldlM (fun (todo : List (CTransaction × Nat)) (st : ConnectState) =>
      (∀ input ∈ todo, input.1 ∈ rest) ∧ Accounting st ∧
        Account (budget + valueOut coinbase.vout - st.nFees) st.view)
      ⟨fun input mem => fst_mem_of_mem_zipIdx mem, accounting, account.mono ?_⟩ ?_).mono
      fun st established => established.2
    · omega
    rintro input todo st ⟨listed, accounting, account⟩
    have mem := listed input mem_cons_self
    have spends := checked.others input.1 mem
    refine (ensures_connectTx (checked.checked _ (mem_cons_of_mem _ mem)) accounting
      account).mono ?_
    rintro st' ⟨accounting', account', fees'⟩
    refine ⟨(forall_mem_cons.mp listed).2,
      accounting', account'.mono ?_⟩
    simp only [spends, Bool.false_eq_true, if_false] at fees'
    omega
  simp only [connectTransactions]
  refine (loop _ _).bind ?_
  rintro st ⟨accounting, account⟩
  refine (ensures_lift (ensures_int64 fun _ => ?_)).bind ?_
  · rw [main]
    exact isInt64_add accounting.fees (main_subsidy_range _)
  rintro blockReward rfl
  rw [listed]
  refine (ensures_lift (ensures_getValueOut coinbase)).bind ?_
  rintro paid ⟨rfl, -⟩
  split
  · exact ensures_reject
  · rename_i within
    refine .pure (account.mono ?_)
    rw [main] at within
    omega

theorem Account.setBestBlock (account : Account budget v) (hash : Uint256) :
    Account budget (v.setBestBlock hash) :=
  ⟨account.valid, account.values, account.under, account.total, account.single⟩

theorem ensures_connectBlock (block : CBlock) (main : env.params = mainParams)
    (account : Account budget v) (fJustCheck : Bool) :
    Ensures (Overflows True) (connectBlock env block pindex v fJustCheck) (fun r =>
      Account (budget + getBlockSubsidy pindex.nHeight mainParams) r.1) := by
  have settled {budget : Int} {v : CCoinsViewCache} (account : Account budget v) :
      Account budget (if fJustCheck then v else v.setBestBlock (pindex.getBlockHash env.hash)) := by
    split
    · exact account
    · exact account.setBestBlock _
  have subsidy := (moneyRange_iff.mp (main_subsidy_range pindex.nHeight)).1
  refine ensures_connectBlock_of account.valid ?_ ?_
  · intro v' _ reads
    exact settled ((account.reads reads).mono (by omega))
  · intro coinbase rest pprev v' ready
    refine (ensures_connectTransactions main ready.listed ready.checked
      (account.reads ready.reads)).mono fun st conn => settled conn

theorem Account.flush (account : Account budget v) (flushed : v.flush 0 = .ok v') :
    Account budget v' := by
  obtain ⟨top, lt, base⟩ := v
  obtain rfl : lt = [] := account.single
  obtain ⟨written, wrote, shown⟩ :=
    @CoinsBase.batchWrite_spec False top base account.valid.1 top.hashBlock
  simp only [flush, write, layers, writeAt, batchWriteBelow, wrote, ok_bind,
    pure, Except.pure, Except.ok.injEq] at flushed
  subst flushed
  have view : CCoinsViewCache.view ⟨top.flushed, [], written⟩ = top.view base.view := shown
  have under : CCoinsViewCache.under ⟨top.flushed, [], written⟩ = top.view base.view := shown
  refine ⟨⟨Layer.valid_new _, trivial⟩, view ▸ account.values, under ▸ account.values,
    account.total.of_le fun o => ?_, rfl⟩
  have hides := account.hidden_nonneg o
  have nothing : hidden ⟨top.flushed, [], written⟩ o = none := rfl
  have seen : CCoinsViewCache.view ⟨top, [], base⟩ = top.view base.view := rfl
  simp only [weight, view, nothing, seen] at hides ⊢
  simp only [valueAt, elim_none] at hides ⊢
  omega

/-- The views of a chain: every block was accepted on top of the ones before, and
    the cache was written out at any time. -/
inductive Connected (env : Env) : CBlockIndex → CCoinsViewCache → Prop where
  | genesis (fields : HeaderFields) : Connected env (.genesis fields)
      (.onto ⟨∅, (CBlockIndex.genesis fields).getBlockHash env.hash⟩)
  | connect {tip : CBlockIndex} {v v' : CCoinsViewCache} {block : CBlock} {fields : HeaderFields}
      {vtxundo : List (List Coin)} (before : Connected env tip v)
      (checked : checkBlock env block true true = .ok ())
      (connected : connectBlock env block (.child tip fields) v false = .ok (v', vtxundo)) :
      Connected env (.child tip fields) v'
  | flush {tip : CBlockIndex} {v v' : CCoinsViewCache} (before : Connected env tip v)
      (flushed : v.flush 0 = .ok v') : Connected env tip v'

theorem Connected.account (main : env.params = mainParams) (chain : Connected env tip v) :
    Account (issued mainParams tip.nHeight) v := by
  induction chain with
  | genesis fields =>
    refine ⟨⟨Layer.valid_new _, trivial⟩, ?_, ?_, Within.zero, rfl⟩
    · nofun
    · nofun
  | connect before checked conn ih =>
    exact (ensures_connectBlock _ main ih false).of_eq_ok conn
  | flush before flushed ih => exact ih.flush flushed

/-- The sum of `nValue` over the unspent coins of a view. -/
def supply (v : CCoinsViewCache) : Int :=
  ∑ o ∈ v.outpoints, valueAt (v.view o)

theorem Account.supply_le (account : Account budget v) : supply v ≤ budget :=
  (account.total.of_le fun o => Int.le_add_of_nonneg_right (account.hidden_nonneg o)) v.outpoints

/-- The supply never exceeds what the schedule has paid, and no sum that the
    checks of a further block compute overflows. -/
theorem no_inflation (env : Env) (main : env.params = mainParams) {tip : CBlockIndex}
    {v : CCoinsViewCache} (chain : Connected env tip v) :
    supply v ≤ ∑ h ∈ Finset.Icc 1 tip.nHeight, getBlockSubsidy h mainParams ∧
      ∑ h ∈ Finset.Icc 1 tip.nHeight, getBlockSubsidy h mainParams < 84000000 * coin ∧
      ∀ block fields fCheckPOW fCheckMerkleRoot fJustCheck,
        checkBlock env block fCheckPOW fCheckMerkleRoot ≠ .error (.fault .signedOverflow) ∧
        connectBlock env block (.child tip fields) v fJustCheck ≠
          .error (.fault .signedOverflow) := by
  have account := chain.account main
  rw [← issued_eq_sum]
  refine ⟨account.supply_le, issued_lt _, ?_⟩
  intro block fields fCheckPOW fCheckMerkleRoot fJustCheck
  constructor
  · exact (ensures_checkBlock env block fCheckPOW fCheckMerkleRoot).ne_error ⟨trivial, rfl⟩
  · exact (ensures_connectBlock block main account fJustCheck).ne_error ⟨trivial, rfl⟩

/-- A block checked and connected on top of the last one. -/
def connectNext (env : Env) (last : CBlockIndex × CCoinsViewCache) (block : CBlock) :
    Option (CBlockIndex × CCoinsViewCache) :=
  if checkBlock env block true true = .ok () then
    (connectBlock env block (.child last.1 block.toHeaderFields) last.2 false).toOption.map
      fun result => (.child last.1 block.toHeaderFields, result.1)
  else none

theorem Connected.foldlM {blocks : List CBlock} {last next : CBlockIndex × CCoinsViewCache}
    (chain : Connected env last.1 last.2)
    (added : blocks.foldlM (connectNext env) last = some next) : Connected env next.1 next.2 := by
  induction blocks generalizing last with
  | nil => exact Option.some.inj added ▸ chain
  | cons block blocks ih =>
    obtain ⟨middle, one, rest⟩ := Option.bind_eq_some_iff.mp added
    obtain ⟨checked, connected⟩ := Option.ite_none_right_eq_some.mp one
    obtain ⟨result, returned, rfl⟩ := map_eq_some_iff.mp connected
    exact ih (.connect chain checked (toOption_eq_some.mp returned)) rest

/-- Every block has the hash 1 here, which meets any target, and the lock time of a
    transaction is its id. -/
def soleEnv : Env where
  params := mainParams
  hash := fun _ => 1
  txid := fun tx => tx.nLockTime.toNat
  hashPair := fun left _ => left
  getSigOpCount := fun _ _ => 0
  getP2SHSigOps := fun _ _ => 0
  countWitnessSigOps := fun _ _ _ => 0
  fScriptChecks := fun _ => true
  checkInputScripts := fun _ _ _ => none

/-- A block whose coinbase transaction has the given id and output. -/
def soleBlock (txid : UInt32) (out : CTxOut) (others : List CTransaction) : CBlock where
  toCBlockHeader := ⟨⟨1, txid.toNat, 0, 0x1d00ffff, 0⟩, 1⟩
  vtx := ⟨[⟨⟨0, COutPoint.nullIndex⟩, [1, 1], 0xffffffff, []⟩], [out], 1, txid⟩ :: others

/-- The first subsidy is spent as soon as it is mature. The spend leaves a fee of ten coins,
    which its block collects with the subsidy of 45. -/
def soleBlocks : List CBlock :=
  soleBlock 1 ⟨8400000 * coin, [0x51]⟩ [] :: replicate 100 (soleBlock 2 ⟨0, [0x6a]⟩ []) ++
    [soleBlock 2 ⟨55 * coin, [0x51]⟩
      [⟨[⟨⟨1, 0⟩, [], 0xffffffff, []⟩], [⟨8399990 * coin, [0x51]⟩], 1, 3⟩]]

theorem no_inflation_spent : ∃ tip v, Connected soleEnv tip v ∧ tip.nHeight = 102 ∧
    supply v = 8400045 * coin ∧
    supply v ≤ ∑ h ∈ Finset.Icc (1 : Nat) 102, getBlockSubsidy h mainParams := by
  have computed : (soleBlocks.foldlM (connectNext soleEnv)
      (.genesis ⟨1, 1, 0, 0x1d00ffff, 0⟩, .onto ⟨∅, 1⟩)).map
        (fun last => (last.1.nHeight, supply last.2)) = some (102, 8400045 * coin) := by
    decide +kernel
  obtain ⟨⟨tip, v⟩, connected, reached⟩ := map_eq_some_iff.mp computed
  obtain ⟨height, amount⟩ := Prod.mk.inj reached
  have chain := Connected.foldlM (.genesis ⟨1, 1, 0, 0x1d00ffff, 0⟩) connected
  exact ⟨tip, v, chain, height, amount, height ▸ (no_inflation soleEnv rfl chain).1⟩

end HobbyHash.Validation
