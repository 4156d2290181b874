import HobbyHash.Coins.View

/-! # A stack of caches refines a stack of plain maps

Flushing a cache into its parent makes the parent show what the cache showed and
leaves every other level alone, whatever order the entries are written in. With
the specifications of the single functions this makes any sequence of calls on a
stack of caches the same sequence on a list of plain maps, one for each level.
-/

namespace HobbyHash

open Machine Library List Layer CCoinsViewCache

variable {honest : Prop} {entry : CCoinsCacheEntry} {leave : Layer → Layer} (positions : List Nat)

/-- The parent's entry after one entry of the child was merged into it. -/
def mergedEntry (entry : CCoinsCacheEntry) (us : Option CCoinsCacheEntry) :
    Option CCoinsCacheEntry :=
  if entry.dirty then
    match us with
    | none =>
      if entry.fresh && entry.coin.isSpent then none else some ⟨entry.coin, true, entry.fresh⟩
    | some itUs =>
      if itUs.fresh && entry.coin.isSpent then none else some ⟨entry.coin, true, itUs.fresh⟩
  else us

def Mergeable (entry : CCoinsCacheEntry) (us : Option CCoinsCacheEntry) : Prop :=
  entry.dirty = true → entry.fresh = true → ∀ itUs ∈ us, itUs.coin.isSpent = true

theorem writeEntry_local : KeyedFold.Local (fun (m : CCoinsMap) o => m.lookup o) writeEntry
    (fun _ => Mergeable) (fun _ => mergedEntry) := by
  intro cacheCoins o entry mergeable
  cases dirty : entry.dirty with
  | false =>
    refine ⟨cacheCoins, ?_, ?_, fun _ _ => rfl⟩ <;> simp [writeEntry, mergedEntry, dirty]
  | true =>
    cases located : cacheCoins.lookup o with
    | none =>
      cases ignored : entry.fresh && entry.coin.isSpent with
      | true =>
        refine ⟨cacheCoins, ?_, ?_, fun _ _ => rfl⟩ <;>
          simp [writeEntry, mergedEntry, dirty, located, ignored]
      | false =>
        refine ⟨cacheCoins.insert o ⟨entry.coin, true, entry.fresh⟩, ?_, ?_,
          fun _ ne => AList.lookup_insert_ne ne⟩ <;>
          simp [writeEntry, mergedEntry, dirty, located, ignored]
    | some itUs =>
      have noThrow : (entry.fresh && !itUs.coin.isSpent) = false := by
        cases fresh : entry.fresh with
        | false => rfl
        | true => simpa using mergeable dirty fresh itUs located
      cases erased : itUs.fresh && entry.coin.isSpent with
      | true =>
        refine ⟨cacheCoins.erase o, ?_, ?_, fun _ ne => AList.lookup_erase_ne ne⟩ <;>
          simp [writeEntry, mergedEntry, dirty, located, noThrow, erased]
      | false =>
        refine ⟨cacheCoins.insert o ⟨entry.coin, true, itUs.fresh⟩, ?_, ?_,
          fun _ ne => AList.lookup_insert_ne ne⟩ <;>
          simp [writeEntry, mergedEntry, dirty, located, noThrow, erased]

theorem mergedEntry_spec {us under} (child : entry.Valid True (us.elim under (·.coin.unspent)))
    (parent : ∀ itUs ∈ us, itUs.Valid True under) :
    (mergedEntry entry us).elim under (·.coin.unspent) = entry.coin.unspent ∧
      ∀ merged ∈ mergedEntry entry us, merged.Valid True under := by
  simp only [mergedEntry]
  cases dirty : entry.dirty with
  | false =>
    exact ⟨(child.clean dirty).symm, parent⟩
  | true =>
    have sane := (CCoinsCacheEntry.sane_iff _).mp child.sane
    rw [if_pos dirty] at sane
    cases us with
    | none =>
      have kept : (entry.fresh && entry.coin.isSpent) = false := by
        rw [Bool.eq_false_iff]
        simpa only [ne_eq, Bool.and_eq_true] using sane
      simp only [kept, Bool.false_eq_true, if_false]
      refine ⟨rfl, fun merged mem => ?_⟩
      obtain rfl := Option.mem_some.mp mem
      exact .of_dirty rfl sane child.fresh
    | some itUs =>
      have old := parent itUs rfl
      cases erased : itUs.fresh && entry.coin.isSpent with
      | true =>
        obtain ⟨fresh, spent⟩ := Bool.and_eq_true_iff.mp erased
        simp only [erased, if_true]
        refine ⟨?_, nofun⟩
        exact (old.fresh trivial fresh).trans (Coin.unspent_eq_none.mpr spent).symm
      | false =>
        simp only [erased, Bool.false_eq_true, if_false]
        refine ⟨rfl, fun merged mem => ?_⟩
        obtain rfl := Option.mem_some.mp mem
        refine .of_dirty rfl (fun both => ?_) old.fresh
        cases (Bool.and_eq_true_iff.mpr both).symm.trans erased

theorem Layer.view_eq_elim (l : Layer) (under : CoinsView) (o : COutPoint) :
    l.view under o = (l.cacheCoins.lookup o).elim (under o) (·.coin.unspent) := by
  simp only [view]
  cases l.cacheCoins.lookup o <;> rfl

theorem Layer.batchWrite_spec {child parent : Layer} {under : CoinsView}
    (validChild : child.Valid True (parent.view under)) (validParent : parent.Valid True under)
    (hash : Uint256) :
    ∃ written, parent.batchWrite child.cacheCoins hash = .ok written ∧
      written.view under = child.view (parent.view under) ∧ written.Valid True under := by
  have mergeable : ∀ o entry, child.cacheCoins.lookup o = some entry →
      Mergeable entry (parent.cacheCoins.lookup o) := by
    intro o entry located dirty fresh itUs mem
    have hidden := (validChild o entry located).fresh trivial fresh
    rw [view_of_lookup mem] at hidden
    exact Coin.unspent_eq_none.mp hidden
  obtain ⟨merged, folded, pointwise⟩ :=
    KeyedFold.foldlM_map writeEntry_local child.cacheCoins mergeable
  have each (o : COutPoint) :
      (merged.lookup o).elim (under o) (·.coin.unspent) = child.view (parent.view under) o ∧
        ∀ entry ∈ merged.lookup o, entry.Valid True (under o) := by
    rw [show merged.lookup o = _ from pointwise o, view_eq_elim]
    cases located : child.cacheCoins.lookup o with
    | none =>
      rw [Option.elim_none, view_eq_elim]
      exact ⟨rfl, validParent o⟩
    | some entry =>
      have valid := validChild o entry located
      rw [view_eq_elim] at valid
      exact mergedEntry_spec valid (validParent o)
  refine ⟨{ hashBlock := hash, cacheCoins := merged }, ?_, ?_, fun o => (each o).2⟩
  · rw [batchWrite, folded]
    rfl
  · funext o
    rw [view_eq_elim]
    exact (each o).1

theorem baseWriteEntry_local : KeyedFold.Local (fun (m : CoinMap) o => m.lookup o)
    CoinsBase.writeEntry (fun _ _ _ => True)
    (fun _ entry old => if entry.dirty then entry.coin.unspent else old) := by
  intro coins o entry _
  cases dirty : entry.dirty with
  | false => refine ⟨coins, ?_, ?_, fun _ _ => rfl⟩ <;> simp [CoinsBase.writeEntry, dirty]
  | true =>
    cases spent : entry.coin.isSpent with
    | true =>
      refine ⟨coins.erase o, ?_, ?_, fun _ ne => AList.lookup_erase_ne ne⟩ <;>
        simp [CoinsBase.writeEntry, Coin.unspent, dirty, spent]
    | false =>
      refine ⟨coins.insert o entry.coin, ?_, ?_,
        fun _ ne => AList.lookup_insert_ne ne⟩ <;>
        simp [CoinsBase.writeEntry, Coin.unspent, dirty, spent]

theorem CoinsBase.batchWrite_spec {child : Layer} {base : CoinsBase}
    (validChild : child.Valid honest base.view) (hash : Uint256) :
    ∃ written, base.batchWrite child.cacheCoins hash = .ok written ∧
      written.view = child.view base.view := by
  obtain ⟨coins, folded, pointwise⟩ :=
    KeyedFold.foldlM_map baseWriteEntry_local child.cacheCoins (s := base.coins)
      (fun _ _ _ => trivial)
  refine ⟨{ coins, hashBlock := hash }, ?_, ?_⟩
  · rw [CoinsBase.batchWrite, folded]
    rfl
  funext o
  have here : coins.lookup o = _ := pointwise o
  simp only [CoinsBase.view, here]
  cases located : child.cacheCoins.lookup o with
  | none =>
    change base.view o = _
    exact (view_of_absent located).symm
  | some entry =>
    rw [view_of_lookup located]
    cases dirty : entry.dirty with
    | true =>
      simp only [dirty, if_true]
      exact Coin.unspent_bind entry.coin
    | false =>
      simp only [dirty, Bool.false_eq_true, if_false]
      exact ((validChild o entry located).clean dirty).symm

variable (base : CoinsBase)

def lower : List Layer → List CoinsView
  | [] => []
  | _ :: rest => levels base rest

variable (layers : List Layer)

theorem levels_eq :
    levels base layers = viewBelow base layers :: lower base layers := by
  cases layers <;> rfl

theorem batchWriteBelow_spec {base : CoinsBase} (validTop : l.Valid True (viewBelow base rest))
    (valid : ValidBelow True base rest) :
    ∃ rest' base', batchWriteBelow l rest base = .ok (rest', base') ∧
      levels base' rest' = l.view (viewBelow base rest) :: lower base rest ∧
      ValidBelow True base' rest' ∧ rest'.length = rest.length := by
  cases rest with
  | nil =>
    obtain ⟨base', written, shown⟩ := CoinsBase.batchWrite_spec validTop l.hashBlock
    refine ⟨[], base', ?_, ?_, trivial, rfl⟩
    · rw [batchWriteBelow, written]
      rfl
    · exact congrArg (fun view => [view]) shown
  | cons parent rest =>
    obtain ⟨parent', written, shown, valid'⟩ :=
      batchWrite_spec validTop valid.1 l.hashBlock
    refine ⟨parent' :: rest, base, ?_, ?_, ⟨valid', valid.2⟩, rfl⟩
    · rw [batchWriteBelow, written]
      rfl
    · exact congrArg (fun view => view :: levels base rest) shown

/-- What a write leaves in the cache agrees with the view it was written to. -/
def Leaves (leave : Layer → Layer) : Prop :=
  ∀ l under, l.Valid True under →
    (leave l).view (l.view under) = l.view under ∧ (leave l).Valid True (l.view under)

theorem flushed_leaves : Leaves flushed := by
  intro l under _
  exact ⟨rfl, nofun⟩

private theorem dlookup_syncEntry {entries : List ((_ : COutPoint) × CCoinsCacheEntry)}
    (ne : entries.NodupKeys) (o : COutPoint) :
    (entries.filterMap syncEntry).dlookup o = (entries.dlookup o).bind
      (fun entry => if entry.coin.isSpent then none else some ⟨entry.coin, false, false⟩) := by
  induction entries with
  | nil => rfl
  | cons head rest ih =>
    obtain ⟨k, entry⟩ := head
    obtain ⟨absent, distinctRest⟩ := nodupKeys_cons.mp ne
    have here := ih distinctRest
    by_cases same : o = k
    · subst same
      rw [dlookup_eq_none.mpr absent] at here
      cases spent : entry.coin.isSpent <;> simp [syncEntry, spent, here]
    · rw [dlookup_cons_ne _ _ same, ← here]
      cases spent : entry.coin.isSpent <;> simp [syncEntry, spent, dlookup_cons_ne, same]

theorem lookup_synced (l : Layer) (o : COutPoint) :
    l.synced.cacheCoins.lookup o = (l.cacheCoins.lookup o).bind
      (fun entry => if entry.coin.isSpent then none else some ⟨entry.coin, false, false⟩) := by
  simp only [synced]
  rw [AList.lookup_to_alist]
  exact dlookup_syncEntry l.cacheCoins.nodupKeys o

theorem synced_leaves : Leaves synced := by
  intro l under _
  have each (o : COutPoint) (entry : CCoinsCacheEntry)
      (located : l.synced.cacheCoins.lookup o = some entry) :
      entry.coin.unspent = l.view under o ∧ entry.Valid True (l.view under o) := by
    rw [lookup_synced] at located
    obtain ⟨old, was, kept⟩ := Option.bind_eq_some_iff.mp located
    cases spent : old.coin.isSpent with
    | true => simp [spent] at kept
    | false =>
      simp only [spent, Bool.false_eq_true, if_false, Option.some.injEq] at kept
      subst kept
      have shown : old.coin.unspent = l.view under o := (view_of_lookup was).symm
      exact ⟨shown, ⟨(CCoinsCacheEntry.sane_iff _).mpr spent.symm, fun _ => shown,
        fun _ fresh => absurd fresh Bool.false_ne_true⟩⟩
  refine ⟨?_, fun o entry located => (each o entry located).2⟩
  funext o
  cases located : l.synced.cacheCoins.lookup o with
  | none => exact view_of_absent located
  | some entry => exact (view_of_lookup located).trans (each o entry located).1

/-- Copying one entry of a list over the next. -/
def copyDown {α : Type*} : Nat → List α → List α
  | 0, m :: _ :: rest => m :: m :: rest
  | i + 1, m :: rest => m :: copyDown i rest
  | _, rest => rest

theorem head_copyDown {α : Type*} (i : Nat) (ms : List α) : (copyDown i ms).head? = ms.head? := by
  cases i with
  | zero =>
    cases ms with
    | nil => rfl
    | cons m rest => cases rest <;> rfl
  | succ i => cases ms <;> rfl

theorem writeAt_spec (leaves : Leaves leave) {layers : List Layer} {base : CoinsBase}
    (valid : ValidBelow True base layers) (i : Nat) :
    ∃ layers' base', writeAt leave i layers base = .ok (layers', base') ∧
      levels base' layers' = copyDown i (levels base layers) ∧ ValidBelow True base' layers' ∧
      layers'.length = layers.length := by
  induction layers generalizing i with
  | nil =>
    refine ⟨[], base, by cases i <;> rfl, ?_, trivial, rfl⟩
    cases i with
    | zero => rfl
    | succ i => cases i <;> rfl
  | cons l rest ih =>
    cases i with
    | zero =>
      obtain ⟨rest', base', written, shown, valid', size⟩ := batchWriteBelow_spec valid.1 valid.2
      have eq : viewBelow base' rest' = l.view (viewBelow base rest) := by
        rw [levels_eq] at shown
        exact (cons.inj shown).1
      obtain ⟨sameView, validTop⟩ := leaves l _ valid.1
      refine ⟨leave l :: rest', base', ?_, ?_, ⟨eq ▸ validTop, valid'⟩,
        congrArg Nat.succ size⟩
      · rw [writeAt, written]
        rfl
      · simp only [levels, eq, sameView, shown]
        rw [levels_eq base rest]
        rfl
    | succ i =>
      obtain ⟨rest', base', written, shown, valid', size⟩ := ih valid.2 i
      have eq : viewBelow base' rest' = viewBelow base rest := by
        have heads := head_copyDown i (levels base rest)
        rw [← shown, levels_eq, levels_eq base rest] at heads
        exact Option.some.inj heads
      refine ⟨l :: rest', base', ?_, ?_, ⟨eq ▸ valid.1, valid'⟩, congrArg Nat.succ size⟩
      · rw [writeAt, written]
        rfl
      · simp only [levels, eq, shown, copyDown]

/-- A call on a stack of caches. -/
inductive CoinsOp where
  | addCoin (outpoint : COutPoint) (coin : Coin) (possibleOverwrite : Bool)
  | spendCoin (outpoint : COutPoint)
  | getCoin (outpoint : COutPoint)
  | haveCoin (outpoint : COutPoint)
  | accessCoin (outpoint : COutPoint)
  | uncache (outpoint : COutPoint)
  | flush (position : Nat)
  | sync (position : Nat)
  | push
  | popFlushed
  | popDiscarded

namespace CoinsOp

def step : CoinsOp → CCoinsViewCache → Except Fault CCoinsViewCache
  | addCoin o coin possibleOverwrite, v => v.addCoin o coin possibleOverwrite
  | spendCoin o, v => .ok (v.spendCoin o).2
  | getCoin o, v => .ok (v.getCoin o).2
  | haveCoin o, v => .ok (v.haveCoin o).2
  | accessCoin o, v => .ok (v.accessCoin o).2
  | uncache o, v => .ok (v.uncache o)
  | flush i, v => v.flush i
  | sync i, v => v.sync i
  | push, v => .ok v.push
  | popFlushed, v => do return (← v.flush 0).pop
  | popDiscarded, v => .ok v.pop

def dropFirst : List CoinsView → List CoinsView
  | _ :: next :: base :: rest => next :: base :: rest
  | maps => maps

/-- The same call on plain maps, one for each cache and one for the base. -/
def apply : CoinsOp → List CoinsView → List CoinsView
  | addCoin o coin _, m :: rest => m.addCoin o coin :: rest
  | spendCoin o, m :: rest => m.spendCoin o :: rest
  | flush i, maps => copyDown i maps
  | sync i, maps => copyDown i maps
  | push, m :: rest => m :: m :: rest
  | popFlushed, maps => dropFirst (copyDown 0 maps)
  | popDiscarded, maps => dropFirst maps
  | _, maps => maps

/-- `AddCoin` wants an unspent coin, and one that is not announced as an
    overwrite must not be one. -/
def Legal : CoinsOp → List CoinsView → Prop
  | addCoin o coin possibleOverwrite, m :: _ =>
    coin.isSpent = false ∧ (possibleOverwrite = false → m o = none)
  | _, _ => True

def run (ops : List CoinsOp) (v : CCoinsViewCache) : Except Fault CCoinsViewCache :=
  ops.foldlM (fun v op => op.step v) v

def applyAll (ops : List CoinsOp) (maps : List CoinsView) : List CoinsView :=
  ops.foldl (fun maps op => op.apply maps) maps

def LegalRun : List CoinsOp → List CoinsView → Prop
  | [], _ => True
  | op :: rest, maps => op.Legal maps ∧ LegalRun rest (op.apply maps)

end CoinsOp

namespace CCoinsViewCache

variable {v v' : CCoinsViewCache}

def levels (v : CCoinsViewCache) : List CoinsView :=
  HobbyHash.levels v.base v.layers

theorem levels_eq_view (v : CCoinsViewCache) :
    v.levels = v.view :: HobbyHash.levels v.base v.below :=
  rfl

theorem Shows.levels_eq (shows : Shows honest v shown v') :
    v'.levels = shown :: HobbyHash.levels v.base v.below := by
  rw [levels_eq_view, shows.view, shows.levels]

theorem write_spec (leaves : Leaves leave) (valid : v.Valid True) (i : Nat) :
    ∃ v', v.write leave i = .ok v' ∧ v'.levels = copyDown i v.levels ∧ v'.Valid True := by
  obtain ⟨layers, base, written, shown, valid', size⟩ := writeAt_spec leaves valid i
  cases layers with
  | nil => cases size
  | cons top below =>
    refine ⟨{ top, below, base }, ?_, shown, valid'⟩
    rw [write, written]
    rfl

theorem pop_spec (valid : v.Valid True) :
    v.pop.levels = CoinsOp.dropFirst v.levels ∧ v.pop.Valid True := by
  obtain ⟨top, lt, base⟩ := v
  cases lt with
  | nil => exact ⟨rfl, valid⟩
  | cons l rest =>
    refine ⟨?_, valid.2⟩
    cases rest <;> rfl

end CCoinsViewCache

namespace CoinsOp

variable {v : CCoinsViewCache}

theorem step_refines (valid : v.Valid True) {op : CoinsOp} (legal : op.Legal v.levels) :
    ∃ v', op.step v = .ok v' ∧ v'.levels = op.apply v.levels ∧ v'.Valid True := by
  cases op with
  | addCoin o coin possibleOverwrite =>
    obtain ⟨v', added, shows⟩ := CCoinsViewCache.addCoin_spec valid legal.1 legal.2
    exact ⟨v', added, shows.levels_eq, shows.valid⟩
  | spendCoin o =>
    obtain ⟨-, shows⟩ := CCoinsViewCache.spendCoin_spec trivial valid o
    exact ⟨_, rfl, shows.levels_eq, shows.valid⟩
  | getCoin o =>
    obtain ⟨-, reads⟩ := CCoinsViewCache.getCoin_spec valid o
    exact ⟨_, rfl, reads.levels_eq, reads.valid⟩
  | haveCoin o =>
    obtain ⟨-, reads⟩ := CCoinsViewCache.haveCoin_spec valid o
    exact ⟨_, rfl, reads.levels_eq, reads.valid⟩
  | accessCoin o =>
    obtain ⟨-, reads⟩ := CCoinsViewCache.accessCoin_spec valid o
    exact ⟨_, rfl, reads.levels_eq, reads.valid⟩
  | uncache o =>
    have shows := CCoinsViewCache.uncache_spec valid o
    exact ⟨_, rfl, shows.levels_eq, shows.valid⟩
  | flush i => exact CCoinsViewCache.write_spec flushed_leaves valid i
  | sync i => exact CCoinsViewCache.write_spec synced_leaves valid i
  | push => exact ⟨_, rfl, rfl, valid_new _, valid⟩
  | popFlushed =>
    obtain ⟨v', flushed, shown, valid'⟩ := CCoinsViewCache.write_spec flushed_leaves valid 0
    obtain ⟨dropped, valid''⟩ := CCoinsViewCache.pop_spec valid'
    refine ⟨v'.pop, ?_, dropped.trans (congrArg dropFirst shown), valid''⟩
    rw [step, CCoinsViewCache.flush, flushed]
    rfl
  | popDiscarded => exact ⟨_, rfl, CCoinsViewCache.pop_spec valid⟩

theorem run_refines (valid : v.Valid True) (legal : LegalRun ops v.levels) :
    ∃ v', run ops v = .ok v' ∧ v'.levels = applyAll ops v.levels ∧ v'.Valid True := by
  induction ops generalizing v with
  | nil => exact ⟨v, rfl, rfl, valid⟩
  | cons op rest ih =>
    obtain ⟨v₁, stepped, shown, valid₁⟩ := step_refines valid legal.1
    obtain ⟨v', ran, shown', valid'⟩ := ih valid₁ (shown ▸ legal.2)
    refine ⟨v', ?_, ?_, valid'⟩
    · rw [run, foldlM_cons, stepped]
      exact ran
    · rw [shown', shown]
      rfl

/-- Flushing every cache in turn, from the top down. -/
def flushAll (depth : Nat) : List CoinsOp :=
  (List.range depth).map flush

theorem flushAll_legal (maps : List CoinsView) :
    LegalRun (positions.map flush) maps := by
  induction positions generalizing maps with
  | nil => trivial
  | cons i rest ih => exact ⟨trivial, ih _⟩

private theorem applyAll_flush_succ (m : CoinsView) (rest : List CoinsView) :
    applyAll (positions.map (fun i => flush (i + 1))) (m :: rest) =
      m :: applyAll (positions.map flush) rest := by
  induction positions generalizing rest with
  | nil => rfl
  | cons i is ih => exact ih (copyDown i rest)

theorem flushAll_last (size : maps.length = depth + 1) :
    (applyAll (flushAll depth) maps).getLast? = maps.head? := by
  induction depth generalizing maps with
  | zero =>
    obtain ⟨m, rfl⟩ := length_eq_one_iff.mp size
    rfl
  | succ depth ih =>
    match maps, size with
    | m :: old :: rest, size =>
      have rest' : (m :: rest).length = depth + 1 := by simpa using size
      have deeper := ih rest'
      have unfolded : applyAll (flushAll (depth + 1)) (m :: old :: rest) =
          m :: applyAll (flushAll depth) (m :: rest) := by
        rw [flushAll, range_succ_eq_map, map_cons, map_map]
        exact applyAll_flush_succ (range depth) m (m :: rest)
      rw [unfolded, getLast?_cons, deeper]
      rfl

end CoinsOp

theorem getLast_levels :
    (levels base layers).getLast? = some base.view := by
  induction layers with
  | nil => rfl
  | cons l rest ih =>
    rw [levels, getLast?_cons, ih]
    rfl

theorem length_levels :
    (levels base layers).length = layers.length + 1 := by
  induction layers with
  | nil => rfl
  | cons l rest ih => rw [levels, length_cons, length_cons, ih]

theorem sane_of_valid {base : CoinsBase} {layers : List Layer}
    (valid : ValidBelow honest base layers) (mem : l ∈ layers)
    (located : l.cacheCoins.lookup o = some entry) :
    entry.sane = true := by
  induction layers with
  | nil => cases mem
  | cons head rest ih =>
    obtain rfl | deeper := mem_cons.mp mem
    · exact (valid.1 o entry located).sane
    · exact ih valid.2 deeper

namespace CoinsOp

/-- The plain map that the additions and spends of a run leave at the top. -/
def plainMap (ops : List CoinsOp) : CoinsView :=
  (applyAll ops [base.view, base.view]).headD base.view

/-- Whatever is called on a stack of caches over a base, nothing throws, what is
    read through the top cache is the plain map, flushing everything leaves that
    map in the base, and every entry is in a state `SanityCheck` allows. -/
theorem caches_refine_maps {base : CoinsBase} {ops : List CoinsOp}
    (legal : LegalRun ops [base.view, base.view]) :
    ∃ v, run ops (.onto base) = .ok v ∧
      (∀ o, (v.getCoin o).1 = plainMap base ops o ∧
        (v.haveCoin o).1 = (plainMap base ops o).isSome ∧
        (v.accessCoin o).1.unspent = plainMap base ops o) ∧
      (∃ w, run (flushAll v.layers.length) v = .ok w ∧ w.base.view = plainMap base ops) ∧
      ∀ l ∈ v.layers, ∀ o entry, l.cacheCoins.lookup o = some entry → entry.sane = true := by
  have start : (onto base).Valid True := ⟨valid_new _, trivial⟩
  obtain ⟨v, ran, shown, valid⟩ := run_refines start legal
  have top : v.view = plainMap base ops := by
    rw [plainMap]
    exact congrArg (headD · base.view) shown
  refine ⟨v, ran, fun o => ?_, ?_,
    fun l member o entry located => sane_of_valid valid member located⟩
  · rw [← top]
    exact ⟨(getCoin_spec valid o).1, (haveCoin_spec valid o).1,
      (accessCoin_spec valid o).1⟩
  obtain ⟨w, flushed, shown', -⟩ := run_refines valid
    (flushAll_legal (range v.layers.length) v.levels)
  refine ⟨w, flushed, ?_⟩
  have last := flushAll_last (length_levels v.base v.layers)
  have bottom := getLast_levels w.base w.layers
  rw [show levels w.base w.layers = applyAll (flushAll v.layers.length) v.levels from shown',
    show v.levels = levels v.base v.layers from rfl, last] at bottom
  rw [← top]
  exact (Option.some.inj bottom).symm

/-- A coin added to one cache and spent in the next. -/
theorem caches_refine_spent :
    ∃ v, run [addCoin ⟨1, 0⟩ ⟨⟨45, []⟩, true, 2⟩ false, push, spendCoin ⟨1, 0⟩, sync 1, popFlushed]
        (.onto ⟨∅, 0⟩) = .ok v ∧ (v.getCoin ⟨1, 0⟩).1 = none := by
  obtain ⟨v, ran, observed, -, -⟩ := @caches_refine_maps ⟨∅, 0⟩
    [addCoin ⟨1, 0⟩ ⟨⟨45, []⟩, true, 2⟩ false, push, spendCoin ⟨1, 0⟩, sync 1, popFlushed]
    ⟨⟨rfl, fun _ => rfl⟩, trivial, trivial, trivial, trivial, trivial⟩
  exact ⟨v, ran, (observed ⟨1, 0⟩).1⟩

end CoinsOp

end HobbyHash
