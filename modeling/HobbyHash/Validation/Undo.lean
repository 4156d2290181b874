import HobbyHash.Validation.Effect
import HobbyHash.Validation.Spec

/-! # Disconnecting undoes connecting

A transaction is connected to a view that shows every coin it spends and none of
the coins it adds. Under these conditions the writes of `DisconnectBlock` leave at
every outpoint what was there before, and none of its comparisons fails. That the
conditions hold for every transaction of an accepted block is a matter of the
checks, of the search for overwritten coins at the start of `ConnectBlock`, and of
`AddCoin`, which throws where a block would overwrite one of its own coins.
-/

namespace HobbyHash.Validation

open Machine Library WriteLog CCoinsViewCache List

variable {env : Env} {nHeight : Nat} {tx : CTransaction} {txundo : Option (List Coin)}
  {m : CoinsView}

/-- A transaction and its undo data fit the coins that it is connected to. -/
structure Connects (env : Env) (tx : CTransaction) (txundo : Option (List Coin)) (m : CoinsView) :
    Prop where
  coinbase : tx.isCoinBase = txundo.isNone
  distinct : ((spentInputs tx).map (·.prevout)).Nodup
  spent : List.Forall₂ (fun txin coin => m txin.prevout = some coin) (spentInputs tx)
    (txundo.getD [])
  absent : ∀ output ∈ spendable (outputs env tx),
    replay (spendLog (spentInputs tx)) m output.1 = none

namespace Connects

variable (connects : Connects env tx txundo m)
include connects

theorem undoInputs_eq : undoInputs tx txundo = ((spentInputs tx).zip (txundo.getD [])).reverse := by
  have kind := connects.coinbase
  cases txundo with
  | none => simp [undoInputs]
  | some vprevout =>
    simp only [Option.isNone_some] at kind
    simp only [undoInputs, spentInputs, kind, Bool.false_eq_true, if_false]

theorem prevouts_eq :
    (undoInputs tx txundo).map (·.1.prevout) = ((spentInputs tx).map (·.prevout)).reverse := by
  have firsts := map_fst_zip connects.spent.length_eq.le
  have split (inputs : List (CTxIn × Coin)) :
      inputs.map (·.1.prevout) = (inputs.map Prod.fst).map (·.prevout) := by
    rw [map_map]
    rfl
  rw [connects.undoInputs_eq, map_reverse, split, firsts]

theorem shown {input} (mem : input ∈ undoInputs tx txundo) :
    m input.1.prevout = some input.2 := by
  rw [connects.undoInputs_eq, mem_reverse] at mem
  exact (forall₂_iff_zip.mp connects.spent).2 mem

theorem undone (nHeight : Nat) :
    replay (txUndoLog env tx txundo) (replay (txLog env nHeight tx) m) = m := by
  have restored : (restoreLog (undoInputs tx txundo)).map Prod.fst =
      ((spentInputs tx).map (·.prevout)).reverse := by
    rw [← connects.prevouts_eq, restoreLog, map_map]
    rfl
  refine replay_undo (fun o written => ?_) (fun o b written => ?_)
  · rw [txUndoLog, map_append, restored]
    rw [txLog, map_append] at written
    obtain bySpend | byAdd := mem_append.mp written
    · refine mem_append_right _ (mem_reverse.mpr ?_)
      simpa [spendLog] using bySpend
    · refine mem_append_left _ ?_
      simpa [addLog, takeLog] using byAdd
  rw [txUndoLog, last_append] at written
  cases later : last (restoreLog (undoInputs tx txundo)) o with
  | some coin =>
    rw [later, Option.some_or] at written
    obtain rfl := Option.some.inj written
    obtain ⟨input, mem, same⟩ := mem_map.mp (mem_of_last later)
    cases same
    exact (connects.shown mem).symm
  | none =>
    rw [later, Option.none_or] at written
    obtain ⟨output, mem, same⟩ := mem_map.mp (mem_of_last written)
    cases same
    have apart : output.1 ∉ (spendLog (spentInputs tx)).map Prod.fst := by
      have untouched := last_eq_none.mp later
      rw [restored, mem_reverse] at untouched
      simpa [spendLog] using untouched
    have gone := connects.absent output mem
    rw [replay_of_notMem apart] at gone
    exact gone.symm

theorem justConnected (nHeight : Nat) :
    JustConnected env nHeight tx txundo (replay (txLog env nHeight tx) m) where
  added := by
    intro output mem
    have distinct : ((addLog tx.isCoinBase nHeight (outputs env tx)).map Prod.fst).Nodup := by
      rw [addLog, map_map]
      exact (outputs_distinct env tx).sublist ((spendable_sublist _).map _)
    have written : (output.1, some ⟨output.2, tx.isCoinBase, nHeight⟩) ∈
        addLog tx.isCoinBase nHeight (outputs env tx) := mem_map_of_mem mem
    rw [txLog, replay_append]
    exact replay_of_last (last_of_mem distinct written) _
  distinct := by
    rw [connects.prevouts_eq]
    exact nodup_reverse.mpr connects.distinct
  gone := by
    intro input mem
    by_cases taken : input.1.prevout ∈ (takeLog (outputs env tx)).map Prod.fst
    · obtain ⟨b, written⟩ := last_isSome taken
      obtain ⟨output, -, same⟩ := mem_map.mp (mem_of_last written)
      obtain ⟨-, rfl⟩ := Prod.mk.inj same
      exact replay_of_last written _
    have apart : input.1.prevout ∉ (addLog tx.isCoinBase nHeight (outputs env tx)).map Prod.fst := by
      simpa [addLog, takeLog] using taken
    rw [replay_of_notMem taken, txLog, replay_append, replay_of_notMem apart]
    have spends : input.1.prevout ∈ (spendLog (spentInputs tx)).map Prod.fst := by
      have listed : input.1.prevout ∈ (undoInputs tx txundo).map (·.1.prevout) :=
        mem_map_of_mem mem
      rw [connects.prevouts_eq, mem_reverse] at listed
      simpa [spendLog] using listed
    obtain ⟨b, written⟩ := last_isSome spends
    obtain ⟨txin, -, same⟩ := mem_map.mp (mem_of_last written)
    obtain ⟨-, rfl⟩ := Prod.mk.inj same
    exact replay_of_last written _

end Connects

def blockLog (env : Env) (nHeight : Nat) (vtx : List CTransaction) : CoinLog :=
  vtx.flatMap (txLog env nHeight)

theorem replay_blockLog_cons (tx : CTransaction) (rest : List CTransaction) (m : CoinsView) :
    replay (blockLog env nHeight (tx :: rest)) m =
      replay (blockLog env nHeight rest) (replay (txLog env nHeight tx) m) :=
  replay_append _ _ m

theorem replay_undoLog_cons (round : CTransaction × Option (List Coin))
    (rest : List (CTransaction × Option (List Coin))) (m : CoinsView) :
    replay (undoLog env (round :: rest)) m =
      replay (undoLog env rest) (replay (txUndoLog env round.1 round.2) m) :=
  replay_append _ _ m

/-- Transactions and their undo data that fit one after the other. -/
def ConnectsAll (env : Env) (nHeight : Nat) :
    List (CTransaction × Option (List Coin)) → CoinsView → Prop
  | [], _ => True
  | (tx, txundo) :: rest, m => Connects env tx txundo m ∧
      ConnectsAll env nHeight rest (replay (txLog env nHeight tx) m)

theorem connectsAll_append :
    ConnectsAll env nHeight (rounds ++ later) m ↔ ConnectsAll env nHeight rounds m ∧
      ConnectsAll env nHeight later (replay (blockLog env nHeight (rounds.map Prod.fst)) m) := by
  induction rounds generalizing m with
  | nil => exact (iff_of_eq (true_and _)).symm
  | cons round rest ih =>
    rw [cons_append, ConnectsAll, ConnectsAll, ih, map_cons, replay_blockLog_cons, and_assoc]

theorem cleanOrder_append :
    CleanOrder env nHeight (order ++ later) m ↔ CleanOrder env nHeight order m ∧
      CleanOrder env nHeight later (replay (undoLog env order) m) := by
  induction order generalizing m with
  | nil => exact (iff_of_eq (true_and _)).symm
  | cons round rest ih =>
    rw [cons_append, CleanOrder, CleanOrder, ih, replay_undoLog_cons, and_assoc]

theorem replay_undoLog_append (order later : List (CTransaction × Option (List Coin)))
    (m : CoinsView) : replay (undoLog env (order ++ later)) m =
      replay (undoLog env later) (replay (undoLog env order) m) := by
  rw [undoLog, flatMap_append, replay_append]
  rfl

theorem ConnectsAll.undone (connects : ConnectsAll env nHeight rounds m) :
    replay (undoLog env rounds.reverse)
    (replay (blockLog env nHeight (rounds.map Prod.fst)) m) = m ∧
      CleanOrder env nHeight rounds.reverse
        (replay (blockLog env nHeight (rounds.map Prod.fst)) m) := by
  induction rounds generalizing m with
  | nil => exact ⟨rfl, trivial⟩
  | cons round rest ih =>
    obtain ⟨first, others⟩ := connects
    obtain ⟨back, clean⟩ := ih others
    rw [map_cons, replay_blockLog_cons, reverse_cons, cleanOrder_append,
      replay_undoLog_append, back]
    refine ⟨?_, clean, first.justConnected nHeight, trivial⟩
    rw [replay_undoLog_cons]
    exact first.undone nHeight

variable {v v' : CCoinsViewCache}

/-- Where the top cache lists nothing there is nothing under it. -/
def Settled (v : CCoinsViewCache) (o : COutPoint) : Prop :=
  v.top.cacheCoins.lookup o = none → v.under o = none

theorem Settled.of_absent (absent : v.view o = none) : Settled v o :=
  fun notCached => (Layer.view_of_absent notCached).symm.trans absent

theorem Settled.reads {o} (settled : Settled v o) (reads : Reads True v v') :
    Settled v' o := by
  intro notCached
  rw [reads.under]
  exact settled (reads.cached o notCached)

theorem Settled.emplace {o other entry} (settled : Settled v other) :
    Settled { v with top := v.top.emplace o entry } other := by
  intro notCached
  by_cases same : other = o
  · subst same
    simp [Layer.emplace] at notCached
  · rw [show (v.top.emplace o entry).cacheCoins.lookup other = v.top.cacheCoins.lookup other from
      AList.lookup_insert_ne same] at notCached
    exact settled notCached

/-- A function of the top cache left `shown` visible and nothing unsettled. -/
structure Advances (v : CCoinsViewCache) (shown : CoinsView) (v' : CCoinsViewCache) : Prop
    extends Shows True v shown v' where
  settles : ∀ o, Settled v o → Settled v' o

theorem Advances.trans (first : Advances v shown v') (second : Advances v' shown' v'') :
    Advances v shown' v'' :=
  ⟨first.toShows.trans second.toShows, fun o settled => second.settles o (first.settles o settled)⟩

section

variable (valid : v.Valid True)
include valid

theorem Advances.refl : Advances v v.view v :=
  ⟨.refl valid, fun _ settled => settled⟩

theorem Settled.spendCoin {o other} (settled : Settled v other) :
    Settled (v.spendCoin o).2 other := by
  obtain ⟨reads, -, cached⟩ := fetchCoin_spec valid o
  have later := settled.reads reads
  rw [CCoinsViewCache.spendCoin]
  cases answer : v.fetchCoin o with
  | mk entry next =>
    rw [answer] at reads cached later
    cases entry with
    | none => exact later
    | some entry =>
      cases fresh : entry.fresh with
      | false =>
        simp only [fresh, Bool.false_eq_true, if_false]
        exact later.emplace
      | true =>
        simp only [fresh, if_true]
        intro notCached
        by_cases same : other = o
        · subst same
          exact (reads.valid.1 other entry cached).fresh trivial fresh
        · refine later ?_
          rw [← notCached]
          exact (AList.lookup_erase_ne same).symm

theorem spendInputs_spec (ne : (vin.map (·.prevout)).Nodup)
    (present : ∀ txin ∈ vin, (v.view txin.prevout).isSome) (before : List Coin) :
    ∃ coins v', vin.foldlM spendInput (before, v) = .ok (before ++ coins, v') ∧
      Advances v (replay (spendLog vin) v.view) v' ∧
      List.Forall₂ (fun txin coin => v.view txin.prevout = some coin) vin coins := by
  induction vin generalizing v before with
  | nil => exact ⟨[], v, by rw [append_nil]; rfl, .refl valid, .nil⟩
  | cons txin rest ih =>
    obtain ⟨apart, distinctRest⟩ := nodup_cons.mp ne
    obtain ⟨here, later⟩ := forall_mem_cons.mp present
    obtain ⟨shown, isShown⟩ := Option.isSome_iff_exists.mp here
    obtain ⟨found, shows⟩ := spendCoin_spec trivial valid txin.prevout
    have spends : Advances v _ _ := ⟨shows, fun _ settled => settled.spendCoin valid⟩
    rw [foldlM_cons, spendInput]
    cases answer : v.spendCoin txin.prevout with
    | mk coin next =>
      rw [answer] at found spends
      rw [isShown] at found
      obtain ⟨taken, rfl, unspent⟩ := Option.bind_eq_some_iff.mp found
      obtain ⟨rfl, -⟩ := Coin.unspent_eq_some.mp unspent
      have view : next.view = Function.update v.view txin.prevout none := spends.view
      have same (other : CTxIn) (mem : other ∈ rest) :
          next.view other.prevout = v.view other.prevout := by
        rw [view, Function.update_of_ne]
        intro equal
        exact apart (mem_map.mpr ⟨other, mem, equal⟩)
      obtain ⟨coins, v', ran, shows, spent⟩ := ih spends.valid distinctRest
        (fun other mem => by rw [same other mem]; exact later other mem)
        (before ++ [taken])
      refine ⟨taken :: coins, v', ?_, ?_, .cons isShown ?_⟩
      · rw [append_assoc] at ran
        exact ran
      · rw [view] at shows
        exact spends.trans shows
      · refine forall₂_iff_zip.mpr ⟨spent.length_eq, fun {other coin} mem => ?_⟩
        rw [← same other (of_mem_zip mem).1]
        exact (forall₂_iff_zip.mp spent).2 mem

/-- An output that was added has not overwritten anything: a coinbase by
    assumption, any other transaction because `AddCoin` throws. -/
theorem addOutput_spec (settled : Settled v output.1)
    (absent : fCoinbase = true → v.view output.1 = none)
    (added : addOutput false fCoinbase nHeight v output = .ok v') :
    Advances v (replay (addLog fCoinbase nHeight [output]) v.view) v' ∧
      (isUnspendable output.2.scriptPubKey = false → v.view output.1 = none) := by
  change v.addCoin output.1 ⟨output.2, fCoinbase, nHeight⟩ fCoinbase = .ok v' at added
  cases spent : Coin.isSpent ⟨output.2, fCoinbase, nHeight⟩ with
  | true =>
    simp only [CCoinsViewCache.addCoin, spent] at added
    cases added
  | false =>
    rw [addCoin_eq spent] at added
    cases unspendable : isUnspendable output.2.scriptPubKey with
    | true =>
      simp only [unspendable, if_true, Except.ok.injEq] at added
      subst added
      rw [addLog, spendable_cons_unspendable unspendable]
      exact ⟨.refl valid, fun kept => Bool.noConfusion kept⟩
    | false =>
      simp only [unspendable, Bool.false_eq_true, if_false] at added
      split at added
      · cases added
      rename_i quiet
      obtain rfl := Except.ok.inj added
      have nothing : v.view output.1 = none := by
        cases fCoinbase with
        | true => exact absent rfl
        | false =>
          cases located : v.top.cacheCoins.lookup output.1 with
          | none => exact (Layer.view_of_absent located).trans (settled located)
          | some it =>
            refine (Layer.view_of_lookup located).trans (Coin.unspent_eq_none.mpr ?_)
            simpa [located] using quiet
      have shows := shows_emplace valid (addedEntry_valid valid spent
        fun _ (_ : fCoinbase = false) => nothing)
      have visible : (v.addedEntry output.1 ⟨output.2, fCoinbase, nHeight⟩ fCoinbase).coin.unspent =
          some ⟨output.2, fCoinbase, nHeight⟩ := Coin.unspent_eq_some.mpr ⟨rfl, spent⟩
      rw [visible] at shows
      rw [addLog, spendable_cons unspendable]
      exact ⟨⟨shows, fun _ settled => settled.emplace⟩, fun _ => nothing⟩

theorem addOutputs_spec (distinct : (outs.map Prod.fst).Nodup)
    (settled : ∀ output ∈ outs, Settled v output.1)
    (absent : fCoinbase = true → ∀ output ∈ outs, v.view output.1 = none)
    (added : outs.foldlM (addOutput false fCoinbase nHeight) v = .ok v') :
    Advances v (replay (addLog fCoinbase nHeight outs) v.view) v' ∧
      ∀ output ∈ spendable outs, v.view output.1 = none := by
  induction outs generalizing v with
  | nil =>
    obtain rfl := Except.ok.inj added
    exact ⟨.refl valid, nofun⟩
  | cons output rest ih =>
    obtain ⟨apart, distinctRest⟩ := nodup_cons.mp distinct
    obtain ⟨settledHere, settledRest⟩ := forall_mem_cons.mp settled
    rw [foldlM_cons, bind_eq_ok] at added
    obtain ⟨next, addedHere, addedRest⟩ := added
    obtain ⟨shows, nothing⟩ := addOutput_spec valid settledHere
      (fun isCoinbase => absent isCoinbase output mem_cons_self) addedHere
    have same (other : COutPoint × CTxOut) (mem : other ∈ rest) :
        next.view other.1 = v.view other.1 := by
      have ne : other.1 ∉ (addLog fCoinbase nHeight [output]).map Prod.fst := by
        rw [addLog, map_map]
        intro written
        obtain ⟨kept, inOne, equal⟩ := mem_map.mp written
        obtain rfl := mem_singleton.mp ((spendable_sublist [output]).subset inOne)
        exact apart (mem_map.mpr ⟨other, mem, equal.symm⟩)
      rw [shows.view, replay_of_notMem ne]
    obtain ⟨showsRest, nothingRest⟩ := ih shows.valid distinctRest
      (fun other mem => shows.settles _ (settledRest other mem))
      (fun isCoinbase other mem => (same other mem).trans
        (absent isCoinbase other (mem_cons_of_mem _ mem))) addedRest
    refine ⟨?_, fun other mem => ?_⟩
    · rw [addLog_cons, replay_append]
      rw [shows.view] at showsRest
      exact shows.trans showsRest
    have kept := (mem_filter.mp mem).2
    obtain rfl | inRest := mem_cons.mp ((spendable_sublist _).subset mem)
    · exact nothing (by simpa using kept)
    · rw [← same other inRest]
      exact nothingRest other (mem_filter.mpr ⟨inRest, kept⟩)

theorem updateCoins_spec (checked : CheckedTx tx)
    (present : tx.isCoinBase = false → ∀ txin ∈ tx.vin, (v.view txin.prevout).isSome)
    (settled : ∀ output ∈ outputs env tx, Settled v output.1)
    (absent : tx.isCoinBase = true → ∀ output ∈ outputs env tx, v.view output.1 = none)
    (updated : updateCoins env tx v nHeight = .ok (vprevout, v')) :
    Advances v (replay (txLog env nHeight tx) v.view) v' ∧
      Connects env tx (if tx.isCoinBase then none else some vprevout) v.view := by
  have distinct : ((spentInputs tx).map (·.prevout)).Nodup := by
    rw [spentInputs]
    split
    · exact nodup_nil
    · exact checked.distinct
  have inputs : ∃ coins next, spendInputs tx v = .ok (coins, next) ∧
      Advances v (replay (spendLog (spentInputs tx)) v.view) next ∧
      List.Forall₂ (fun txin coin => v.view txin.prevout = some coin) (spentInputs tx) coins := by
    simp only [spendInputs, spentInputs]
    split
    · exact ⟨[], v, rfl, .refl valid, .nil⟩
    · rename_i notCoinbase
      exact spendInputs_spec valid checked.distinct (present (by simpa using notCoinbase)) []
  obtain ⟨coins, next, spends, shows, spent⟩ := inputs
  simp only [updateCoins, spends, ok_bind] at updated
  cases added : addCoins env next tx nHeight false with
  | error fault =>
    rw [added] at updated
    cases updated
  | ok final =>
    rw [added] at updated
    obtain ⟨rfl, rfl⟩ := Prod.mk.inj (Except.ok.inj updated)
    have untouched (isCoinbase : tx.isCoinBase = true) : next.view = v.view := by
      rw [shows.view, spentInputs, if_pos isCoinbase]
      rfl
    obtain ⟨adds, nothing⟩ := addOutputs_spec shows.valid (outputs_distinct env tx)
      (fun output mem => shows.settles _ (settled output mem))
      (fun isCoinbase output mem => by
        rw [untouched isCoinbase]
        exact absent isCoinbase output mem) added
    rw [shows.view] at adds nothing
    refine ⟨?_, ?_, distinct, ?_, nothing⟩
    · rw [txLog, replay_append]
      exact shows.trans adds
    · cases tx.isCoinBase <;> rfl
    cases isCoinbase : tx.isCoinBase with
    | false => exact spent
    | true =>
      rw [spentInputs, if_pos isCoinbase] at spent ⊢
      exact .nil

end

variable {pindex : CBlockIndex} {nLockTimeFlags flags : UInt32} {st : ConnectState}

theorem overflows_false {ρ : Type} (e : Failure ρ) : ¬ Overflows False e :=
  fun overflow => overflow.1

theorem connectTx_spec (valid : st.view.Valid True) (accounting : Accounting st)
    (checked : CheckedTx tx) (settled : ∀ output ∈ outputs env tx, Settled st.view output.1)
    (absent : tx.isCoinBase = true → ∀ output ∈ outputs env tx, st.view.view output.1 = none) :
    Ensures (Overflows False) (connectTx env pindex nLockTimeFlags flags st (tx, i)) (fun st' =>
      Accounting st' ∧ ∃ vprevout,
        st'.vtxundo = (if i > 0 then st.vtxundo ++ [vprevout] else st.vtxundo) ∧
        Advances st.view (replay (txLog env pindex.nHeight tx) st.view.view) st'.view ∧
        Connects env tx (if tx.isCoinBase then none else some vprevout) st.view.view) := by
  refine (ensures_checkTx valid accounting checked False.elim).bind fun st₁ passed => ?_
  have view := passed.reads.view
  refine .partially overflows_false fun st' conn => ?_
  cases updated : updateCoins env tx st₁.view pindex.nHeight with
  | error fault =>
    rw [updated] at conn
    cases conn
  | ok res =>
    obtain ⟨vprevout, final⟩ := res
    rw [updated] at conn
    obtain rfl := Except.ok.inj conn
    obtain ⟨shows, connects⟩ := updateCoins_spec passed.reads.valid checked
      (by rw [view]; exact passed.present)
      (fun output mem => (settled output mem).reads passed.reads)
      (by rw [view]; exact absent) updated
    rw [view] at shows connects
    have reads : Advances st.view _ _ :=
      ⟨passed.reads.toShows, fun _ settled => settled.reads passed.reads⟩
    refine ⟨⟨passed.accounting.fees, passed.accounting.sigOps⟩, vprevout, ?_, reads.trans shows,
      connects⟩
    rw [← passed.vtxundo]

/-- The state of the loop of `ConnectBlock` after some transactions. -/
structure Progress (env : Env) (nHeight : Nat) (vtx : List CTransaction) (v : CCoinsViewCache)
    (done : List CTransaction) (st : ConnectState) : Prop where
  accounting : Accounting st
  size : st.vtxundo.length + 1 = done.length
  connects : ConnectsAll env nHeight (done.zip (none :: st.vtxundo.map some)) v.view
  shows : Shows True v (replay (blockLog env nHeight done) v.view) st.view
  settled : ∀ output ∈ vtx.flatMap (outputs env), Settled st.view output.1

theorem Progress.step {vtx done i} (progress : Progress env pindex.nHeight vtx v done st)
    (mem : tx ∈ vtx) (spends : tx.isCoinBase = false) (checked : CheckedTx tx) (lt : 0 < i) :
    Ensures (Overflows False) (connectTx env pindex nLockTimeFlags flags st (tx, i))
      (Progress env pindex.nHeight vtx v (done ++ [tx])) := by
  have own (output : COutPoint × CTxOut) (inTx : output ∈ outputs env tx) :=
    progress.settled output (mem_flatMap.mpr ⟨tx, mem, inTx⟩)
  refine (connectTx_spec progress.shows.valid progress.accounting checked own ?_).mono ?_
  · intro isCoinbase
    cases spends.symm.trans isCoinbase
  rintro st' ⟨accounting, vprevout, undo, shows, connects⟩
  rw [if_pos lt] at undo
  rw [spends, if_neg Bool.false_ne_true] at connects
  have view := progress.shows.view
  rw [view] at shows connects
  have size := progress.size
  have zipped : (done ++ [tx]).zip (none :: st'.vtxundo.map some) =
      done.zip (none :: st.vtxundo.map some) ++ [(tx, some vprevout)] := by
    rw [undo, map_append, ← cons_append, zip_append (by simp; omega)]
    rfl
  refine ⟨accounting, ?_, ?_, ?_, fun output inBlock =>
    shows.settles _ (progress.settled output inBlock)⟩
  · rw [undo]
    simp only [length_append, length_singleton]
    omega
  · rw [zipped, connectsAll_append, map_fst_zip (by simp; omega)]
    exact ⟨progress.connects, connects, trivial⟩
  · rw [blockLog, flatMap_append, replay_append, flatMap_singleton]
    exact progress.shows.trans shows.toShows

theorem connectTransactions_spec (valid : v.Valid True) (listed : block.vtx = coinbase :: rest)
    (checked : CheckedBlock coinbase rest)
    (absent : ∀ output ∈ block.vtx.flatMap (outputs env), v.view output.1 = none) :
    Ensures (Overflows False) (connectTransactions env block pindex v)
      (Progress env pindex.nHeight block.vtx v block.vtx) := by
  have start : Accounting ⟨v, 0, 0, []⟩ :=
    ⟨moneyRange_zero, le_refl 0, by simp [maxBlockSigopsCost]⟩
  have loop (nLockTimeFlags flags : UInt32) : Ensures (Overflows False)
      (block.vtx.zipIdx.foldlM (connectTx env pindex nLockTimeFlags flags) ⟨v, 0, 0, []⟩)
      (Progress env pindex.nHeight block.vtx v block.vtx) := by
    rw [listed] at absent ⊢
    have own (output : COutPoint × CTxOut) (mem : output ∈ outputs env coinbase) :
        v.view output.1 = none :=
      absent output (mem_flatMap.mpr ⟨coinbase, mem_cons_self, mem⟩)
    refine (connectTx_spec valid start (checked.checked _ mem_cons_self)
      (fun output mem => .of_absent (own output mem)) fun _ => own).bind ?_
    rintro st ⟨accounting, vprevout, undo, shows, connects⟩
    rw [checked.coinbase, if_pos rfl] at connects
    have first : Progress env pindex.nHeight (coinbase :: rest) v [coinbase] st := by
      refine ⟨accounting, ?_, ?_, ?_, fun output mem =>
        shows.settles _ (.of_absent (absent output mem))⟩
      · rw [undo]
        rfl
      · exact ⟨connects, trivial⟩
      · rw [blockLog, flatMap_singleton]
        exact shows.toShows
    refine (Ensures.foldlM (fun (todo : List (CTransaction × Nat)) (st : ConnectState) =>
      ∃ done, done ++ todo.map Prod.fst = coinbase :: rest ∧
        (∀ input ∈ todo, input.1 ∈ rest ∧ 0 < input.2) ∧
        Progress env pindex.nHeight (coinbase :: rest) v done st)
      ⟨[coinbase], ?_, ?_, first⟩ ?_).mono ?_
    · rw [zipIdx_map_fst]
      rfl
    · rintro ⟨tx, i⟩ mem
      exact ⟨fst_mem_of_mem_zipIdx mem, (mem_zipIdx mem).1⟩
    · rintro ⟨tx, i⟩ todo st ⟨done, split, members, progress⟩
      obtain ⟨inRest, later⟩ := members _ mem_cons_self
      have inBlock := mem_cons_of_mem coinbase inRest
      refine (progress.step inBlock (checked.others tx inRest) (checked.checked tx inBlock) later).mono ?_
      intro st' progress'
      refine ⟨done ++ [tx], ?_, (forall_mem_cons.mp members).2,
        progress'⟩
      rw [← split, append_assoc]
      rfl
    · rintro st ⟨done, split, -, progress⟩
      rw [map_nil, append_nil] at split
      exact split ▸ progress
  simp only [connectTransactions]
  refine (loop _ _).bind fun st progress => .partially overflows_false fun st' conn => ?_
  obtain ⟨blockReward, -, conn⟩ := bind_eq_ok.mp conn
  rw [listed] at conn
  obtain ⟨paid, -, conn⟩ := bind_eq_ok.mp conn
  split at conn
  · cases conn
  · obtain rfl := Except.ok.inj conn
    exact progress

end HobbyHash.Validation
