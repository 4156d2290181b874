import HobbyHash.Coins

/-! # What an observer sees through a stack of caches

Each layer shows its own entries and, elsewhere, the view under it. An entry is
valid when its flags tell the truth about that view: one that is not dirty agrees
with it, and one that is fresh hides nothing. Under this invariant every function
of the cache acts on the visible coins as its counterpart acts on a plain map.
-/

namespace HobbyHash

open Machine List Function Coin Layer

variable {base : CoinsBase} {possibleOverwrite : Bool} {layers : List Layer} {coin : Coin}
  {v'' : CCoinsViewCache}

/-- A plain map of unspent coins. -/
abbrev CoinsView := COutPoint → Option Coin

namespace CoinsView

/-- Adding a coin to a plain map; unspendable ones are dropped. -/
def addCoin (m : CoinsView) (o : COutPoint) (coin : Coin) : CoinsView :=
  if isUnspendable coin.out.scriptPubKey then m else update m o (some coin)

def spendCoin (m : CoinsView) (o : COutPoint) : CoinsView :=
  update m o none

end CoinsView

theorem Coin.unspent_eq_some {c d : Coin} : c.unspent = some d ↔ c = d ∧ c.isSpent = false := by
  simp only [unspent]
  cases spent : c.isSpent <;> simp

theorem Coin.unspent_eq_none {c : Coin} : c.unspent = none ↔ c.isSpent = true := by
  simp only [unspent]
  cases spent : c.isSpent <;> simp

@[simp] theorem Coin.unspent_empty : empty.unspent = none := rfl

theorem Coin.unspent_bind (c : Coin) : c.unspent.bind unspent = c.unspent := by
  cases spent : c.unspent with
  | none => rfl
  | some d =>
    obtain ⟨rfl, -⟩ := unspent_eq_some.mp spent
    exact spent

/-- The allowed states: an entry that is not dirty is fresh exactly when it is
    spent, and a dirty one is not both. -/
theorem CCoinsCacheEntry.sane_iff (entry : CCoinsCacheEntry) : entry.sane = true ↔
    if entry.dirty then ¬ (entry.fresh = true ∧ entry.coin.isSpent = true)
    else entry.fresh = entry.coin.isSpent := by
  obtain ⟨coin, dirty, fresh⟩ := entry
  cases dirty <;> cases fresh <;> cases spent : coin.isSpent <;> simp [sane, spent]

def CoinsBase.view (b : CoinsBase) : CoinsView :=
  fun o => (b.coins.lookup o).bind unspent

def Layer.view (l : Layer) (under : CoinsView) : CoinsView :=
  fun o =>
    match l.cacheCoins.lookup o with
    | some entry => entry.coin.unspent
    | none => under o

def viewBelow (base : CoinsBase) : List Layer → CoinsView
  | [] => base.view
  | l :: rest => l.view (viewBelow base rest)

/-- The views of a stack, from the uppermost cache down to the base. -/
def levels (base : CoinsBase) : List Layer → List CoinsView
  | [] => [base.view]
  | l :: rest => l.view (viewBelow base rest) :: levels base rest

/-- The best block that the first view of a stack reports. -/
def bestBlockBelow (base : CoinsBase) : List Layer → Uint256
  | [] => base.hashBlock
  | l :: rest => if l.hashBlock = 0 then bestBlockBelow base rest else l.hashBlock

def bestBlocks (base : CoinsBase) : List Layer → List Uint256
  | [] => [base.hashBlock]
  | l :: rest => bestBlockBelow base (l :: rest) :: bestBlocks base rest

/-- An entry over a view that shows `under` for its outpoint. The truth of the
    fresh flag depends on how coins were added, so it is claimed only where
    `honest` holds. -/
structure CCoinsCacheEntry.Valid (honest : Prop) (entry : CCoinsCacheEntry) (under : Option Coin) :
    Prop where
  sane : entry.sane = true
  clean : entry.dirty = false → entry.coin.unspent = under
  fresh : honest → entry.fresh = true → under = none

theorem CCoinsCacheEntry.Valid.of_dirty {honest : Prop} {entry : CCoinsCacheEntry}
    (dirty : entry.dirty = true) (sane : ¬ (entry.fresh = true ∧ entry.coin.isSpent = true))
    (fresh : honest → entry.fresh = true → under = none) : entry.Valid honest under where
  sane := by
    rw [sane_iff, if_pos dirty]
    exact sane
  clean := by
    intro notDirty
    cases dirty.symm.trans notDirty
  fresh := fresh

def Layer.Valid (honest : Prop) (l : Layer) (under : CoinsView) : Prop :=
  ∀ o entry, l.cacheCoins.lookup o = some entry → entry.Valid honest (under o)

def ValidBelow (honest : Prop) (base : CoinsBase) : List Layer → Prop
  | [] => True
  | l :: rest => l.Valid honest (viewBelow base rest) ∧ ValidBelow honest base rest

namespace Layer

variable {honest : Prop} {l : Layer} {under : CoinsView} {o : COutPoint} {entry : CCoinsCacheEntry}

theorem view_emplace (l : Layer) (under : CoinsView) (o : COutPoint) (entry : CCoinsCacheEntry) :
    (l.emplace o entry).view under = update (l.view under) o entry.coin.unspent := by
  funext other
  by_cases same : other = o
  · subst same
    simp only [view, emplace, AList.lookup_insert, update_self]
  · simp only [view, emplace, AList.lookup_insert_ne same, update_of_ne same]

theorem view_erase (l : Layer) (under : CoinsView) (o : COutPoint) :
    (l.erase o).view under = update (l.view under) o (under o) := by
  funext other
  by_cases same : other = o
  · subst same
    simp only [view, erase, AList.lookup_erase, update_self]
  · simp only [view, erase, AList.lookup_erase_ne same, update_of_ne same]

theorem Valid.emplace (valid : l.Valid honest under) (new : entry.Valid honest (under o)) :
    (l.emplace o entry).Valid honest under := by
  intro other found located
  by_cases same : other = o
  · subst same
    simp only [Layer.emplace, AList.lookup_insert, Option.some.injEq] at located
    exact located ▸ new
  · simp only [Layer.emplace, AList.lookup_insert_ne same] at located
    exact valid other found located

theorem Valid.erase (valid : l.Valid honest under) : (l.erase o).Valid honest under := by
  intro other found located
  by_cases same : other = o
  · subst same
    simp only [Layer.erase, AList.lookup_erase] at located
    cases located
  · simp only [Layer.erase, AList.lookup_erase_ne same] at located
    exact valid other found located

theorem view_of_lookup (located : l.cacheCoins.lookup o = some entry) :
    l.view under o = entry.coin.unspent := by
  simp only [view, located]

theorem view_of_absent (absent : l.cacheCoins.lookup o = none) : l.view under o = under o := by
  simp only [view, absent]

theorem valid_new (under : CoinsView) : new.Valid honest under := by
  nofun

theorem fetchedEntry_valid (tmp : Coin) : (fetchedEntry tmp).Valid honest tmp.unspent where
  sane := (CCoinsCacheEntry.sane_iff _).mpr rfl
  clean := fun _ => rfl
  fresh := fun _ spent => unspent_eq_none.mpr spent

theorem emplace_fetched {tmp} (valid : l.Valid honest under) (absent : l.cacheCoins.lookup o = none)
    (eq : tmp.unspent = under o) :
    (l.emplace o (fetchedEntry tmp)).view under = l.view under ∧
      (l.emplace o (fetchedEntry tmp)).Valid honest under := by
  constructor
  · rw [view_emplace]
    refine (update_eq_self_iff).mpr ?_
    rw [view_of_absent absent, ← eq]
    rfl
  · exact valid.emplace (eq ▸ fetchedEntry_valid tmp)

end Layer

/-- Reading changed nothing in a stack that can be observed. -/
structure SameBelow (honest : Prop) (base : CoinsBase) (layers layers' : List Layer) : Prop where
  view : viewBelow base layers' = viewBelow base layers
  levels : levels base layers' = levels base layers
  best : bestBlockBelow base layers' = bestBlockBelow base layers
  bestBlocks : bestBlocks base layers' = bestBlocks base layers
  valid : ValidBelow honest base layers'

theorem SameBelow.refl (valid : ValidBelow honest base layers) :
    SameBelow honest base layers layers :=
  ⟨rfl, rfl, rfl, rfl, valid⟩

theorem SameBelow.cons (same : SameBelow honest base rest rest')
    (valid : l'.Valid honest (viewBelow base rest))
    (view : l'.view (viewBelow base rest) = l.view (viewBelow base rest))
    (best : bestBlockBelow base (l' :: rest) = bestBlockBelow base (l :: rest)) :
    SameBelow honest base (l :: rest) (l' :: rest') := by
  rw [← same.view] at valid
  have top : l'.view (viewBelow base rest') = l.view (viewBelow base rest) := by
    rw [same.view, view]
  have best' : bestBlockBelow base (l' :: rest') = bestBlockBelow base (l :: rest) := by
    rw [bestBlockBelow, same.best]
    exact best
  exact ⟨top, congrArg₂ List.cons top same.levels, best',
    congrArg₂ List.cons best' same.bestBlocks, valid, same.valid⟩

theorem getCoinBelow_spec {honest : Prop} (valid : ValidBelow honest base layers) (o : COutPoint) :
    (getCoinBelow base layers o).1.bind unspent = viewBelow base layers o ∧
      SameBelow honest base layers (getCoinBelow base layers o).2 := by
  induction layers with
  | nil => exact ⟨rfl, .refl trivial⟩
  | cons l rest ih =>
    obtain ⟨found, same⟩ := ih valid.2
    cases located : l.cacheCoins.lookup o with
    | some entry =>
      rw [getCoinBelow, located]
      exact ⟨(unspent_bind _).trans (view_of_lookup located).symm, .refl valid⟩
    | none =>
      cases answer : getCoinBelow base rest o with
      | mk fromBase rest' =>
        rw [answer] at found same
        rw [getCoinBelow, located, answer]
        cases fromBase with
        | none => exact ⟨found.trans (view_of_absent located).symm, same.cons valid.1 rfl rfl⟩
        | some tmp =>
          obtain ⟨sameTop, validTop⟩ := emplace_fetched valid.1 located found
          refine ⟨?_, same.cons validTop sameTop rfl⟩
          rw [unspent_bind]
          exact found.trans (view_of_absent located).symm

theorem getBestBlockBelow_spec {honest : Prop} (valid : ValidBelow honest base layers) :
    (getBestBlockBelow base layers).1 = bestBlockBelow base layers ∧
      SameBelow honest base layers (getBestBlockBelow base layers).2 := by
  induction layers with
  | nil => exact ⟨rfl, .refl trivial⟩
  | cons l rest ih =>
    obtain ⟨found, same⟩ := ih valid.2
    by_cases unset : l.hashBlock = 0
    · have reported : bestBlockBelow base (l :: rest) = bestBlockBelow base rest := if_pos unset
      simp only [getBestBlockBelow, unset, if_true, found]
      refine ⟨reported.symm, same.cons valid.1 rfl ?_⟩
      rw [reported, bestBlockBelow, ite_self]
    · simp only [getBestBlockBelow, unset, if_false]
      exact ⟨(if_neg unset).symm, .refl valid⟩

namespace CCoinsViewCache

variable {honest : Prop} {v v' : CCoinsViewCache} {shown : CoinsView} {o : COutPoint}

def view (v : CCoinsViewCache) : CoinsView :=
  viewBelow v.base v.layers

def under (v : CCoinsViewCache) : CoinsView :=
  viewBelow v.base v.below

def Valid (honest : Prop) (v : CCoinsViewCache) : Prop :=
  ValidBelow honest v.base v.layers

def bestBlock (v : CCoinsViewCache) : Uint256 :=
  bestBlockBelow v.base v.layers

def outpoints (v : CCoinsViewCache) : Finset COutPoint :=
  (v.layers.flatMap (·.cacheCoins.keys) ++ v.base.coins.keys).toFinset

theorem mem_keys_of_viewBelow (ne : viewBelow base layers o ≠ none) :
    o ∈ layers.flatMap (·.cacheCoins.keys) ++ base.coins.keys := by
  induction layers with
  | nil =>
    by_contra absent
    have missing : base.coins.lookup o = none := AList.lookup_eq_none.mpr absent
    simp [viewBelow, CoinsBase.view, missing] at ne
  | cons l rest ih =>
    cases located : l.cacheCoins.lookup o with
    | none =>
      rw [viewBelow, view_of_absent located] at ne
      rw [flatMap_cons, append_assoc]
      exact mem_append_right _ (ih ne)
    | some entry =>
      have mem : o ∈ l.cacheCoins.keys :=
        AList.mem_keys.mpr (AList.lookup_isSome.mp (by rw [located]; rfl))
      rw [flatMap_cons, append_assoc]
      exact mem_append_left _ mem

theorem mem_outpoints (ne : v.view o ≠ none) : o ∈ v.outpoints :=
  mem_toFinset.mpr (mem_keys_of_viewBelow ne)

theorem view_ext (same : ∀ o ∈ v.outpoints ∪ v'.outpoints, v.view o = v'.view o) :
    v.view = v'.view := by
  funext o
  by_cases stored : o ∈ v.outpoints ∪ v'.outpoints
  · exact same o stored
  rw [Finset.mem_union, not_or] at stored
  have nothing : v.view o = none := by
    by_contra unspent
    exact stored.1 (mem_outpoints unspent)
  have nothing' : v'.view o = none := by
    by_contra unspent
    exact stored.2 (mem_outpoints unspent)
  rw [nothing, nothing']

/-- A function of the top cache went from `v` to `v'` and left `shown` visible.
    The levels under the top show what they showed before. -/
structure Shows (honest : Prop) (v : CCoinsViewCache) (shown : CoinsView) (v' : CCoinsViewCache) :
    Prop where
  view : v'.view = shown
  valid : v'.Valid honest
  levels : levels v'.base v'.below = levels v.base v.below
  base : v'.base = v.base
  bestBlocks : bestBlocks v'.base v'.below = bestBlocks v.base v.below

theorem Shows.under (shows : Shows honest v shown v') : v'.under = v.under := by
  have heads := congrArg head? shows.levels
  simp only [CCoinsViewCache.under]
  cases below : v.below <;> cases below' : v'.below <;>
    simpa [below, below', HobbyHash.levels, viewBelow] using heads

theorem Shows.bestBelow (shows : Shows honest v shown v') :
    bestBlockBelow v'.base v'.below = bestBlockBelow v.base v.below := by
  have heads := congrArg head? shows.bestBlocks
  cases below : v.below <;> cases below' : v'.below <;>
    simpa [below, below', HobbyHash.bestBlocks, bestBlockBelow] using heads

theorem Shows.below_eq_nil (shows : Shows honest v shown v') (single : v.below = []) :
    v'.below = [] := by
  have size := congrArg length shows.levels
  rw [single] at size
  cases below : v'.below with
  | nil => rfl
  | cons l rest =>
    rw [below] at size
    cases rest <;> simp [HobbyHash.levels] at size

theorem Shows.refl (valid : v.Valid honest) : Shows honest v v.view v :=
  ⟨rfl, valid, rfl, rfl, rfl⟩

theorem Shows.trans (first : Shows honest v shown v') (second : Shows honest v' shown' v'') :
    Shows honest v shown' v'' :=
  ⟨second.view, second.valid, second.levels.trans first.levels, second.base.trans first.base,
    second.bestBlocks.trans first.bestBlocks⟩

/-- What the fresh entries of the top cache hide. -/
def hidden (v : CCoinsViewCache) : CoinsView :=
  fun o =>
    match v.top.cacheCoins.lookup o with
    | some entry => if entry.fresh then v.under o else none
    | none => none

theorem hidden_emplace (v : CCoinsViewCache) (o : COutPoint) (entry : CCoinsCacheEntry) :
    hidden { v with top := v.top.emplace o entry } =
      update v.hidden o (if entry.fresh then v.under o else none) := by
  funext other
  by_cases same : other = o
  · subst same
    simp only [hidden, emplace, AList.lookup_insert, update_self]
    rfl
  · simp only [hidden, emplace, AList.lookup_insert_ne same, update_of_ne same]
    rfl

theorem hidden_erase (v : CCoinsViewCache) (o : COutPoint) :
    hidden { v with top := v.top.erase o } = update v.hidden o none := by
  funext other
  by_cases same : other = o
  · subst same
    simp only [hidden, erase, AList.lookup_erase, update_self]
  · simp only [hidden, erase, AList.lookup_erase_ne same, update_of_ne same]
    rfl

/-- A function of the top cache went from `v` to `v'` and changed nothing that
    can be observed, now or after a spend. The top may have gained entries. -/
structure Reads (honest : Prop) (v v' : CCoinsViewCache) :
    Prop extends Shows honest v v.view v' where
  hidden : v'.hidden = v.hidden
  cached : ∀ o, v'.top.cacheCoins.lookup o = none → v.top.cacheCoins.lookup o = none

theorem Reads.refl (valid : v.Valid honest) : Reads honest v v :=
  ⟨.refl valid, rfl, fun _ absent => absent⟩

theorem Reads.trans (first : Reads honest v v') (second : Reads honest v' v'') :
    Reads honest v v'' :=
  ⟨first.view ▸ first.toShows.trans second.toShows, second.hidden.trans first.hidden,
    fun o absent => first.cached o (second.cached o absent)⟩

section

variable (valid : v.Valid honest)
include valid

theorem shows_emplace {entry} (new : entry.Valid honest (v.under o)) :
    Shows honest v (update v.view o entry.coin.unspent)
      { v with top := v.top.emplace o entry } where
  view := view_emplace v.top v.under o entry
  valid := ⟨valid.1.emplace new, valid.2⟩
  levels := rfl
  base := rfl
  bestBlocks := rfl

theorem shows_erase :
    Shows honest v (update v.view o (v.under o)) { v with top := v.top.erase o } where
  view := view_erase v.top v.under o
  valid := ⟨valid.1.erase, valid.2⟩
  levels := rfl
  base := rfl
  bestBlocks := rfl

theorem reads_below {below} (same : SameBelow honest v.base v.below below) :
    Reads honest v { v with below } where
  view := congrArg v.top.view same.view
  valid := ⟨same.view ▸ valid.1, same.valid⟩
  levels := same.levels
  base := rfl
  bestBlocks := same.bestBlocks
  hidden := by
    unfold hidden under
    rw [same.view]
  cached _ absent := absent

theorem fetchCoin_spec (o : COutPoint) :
    Reads honest v (v.fetchCoin o).2 ∧
      (v.fetchCoin o).1.bind (·.coin.unspent) = v.view o ∧
      (v.fetchCoin o).2.top.cacheCoins.lookup o = (v.fetchCoin o).1 := by
  cases located : v.top.cacheCoins.lookup o with
  | some entry =>
    rw [fetchCoin, located]
    exact ⟨.refl valid, (view_of_lookup located).symm, located⟩
  | none =>
    obtain ⟨found, same⟩ := getCoinBelow_spec valid.2 o
    have shown : v.view o = v.under o := view_of_absent located
    cases answer : getCoinBelow v.base v.below o with
    | mk fromBase below =>
      rw [answer] at found same
      have filled := reads_below valid same
      rw [fetchCoin, located, answer]
      cases fromBase with
      | none => exact ⟨filled, found.trans shown.symm, located⟩
      | some tmp =>
        rw [← same.view] at found
        obtain ⟨sameTop, validTop⟩ := emplace_fetched filled.valid.1 located found
        refine ⟨filled.trans ⟨⟨sameTop, ⟨validTop, same.valid⟩, rfl, rfl, rfl⟩, ?_, ?_⟩, ?_, ?_⟩
        · refine (hidden_emplace { v with below } o _).trans (update_eq_self_iff.mpr ?_)
          simp only [hidden, located]
          split
          · rename_i spent
            exact found.symm.trans (unspent_eq_none.mpr spent)
          · rfl
        · intro other absent
          by_cases here : other = o
          · exact here ▸ located
          · simpa only [emplace, AList.lookup_insert_ne here] using absent
        · rw [shown, CCoinsViewCache.under, ← same.view]
          exact found
        · exact AList.lookup_insert _

theorem getCoin_spec (o : COutPoint) :
    (v.getCoin o).1 = v.view o ∧ Reads honest v (v.getCoin o).2 := by
  obtain ⟨reads, found, -⟩ := fetchCoin_spec valid o
  exact ⟨found, reads⟩

theorem haveCoin_spec (o : COutPoint) :
    (v.haveCoin o).1 = (v.view o).isSome ∧ Reads honest v (v.haveCoin o).2 := by
  obtain ⟨reads, found, -⟩ := fetchCoin_spec valid o
  rw [haveCoin, ← found]
  cases answer : v.fetchCoin o with
  | mk entry v' =>
    rw [answer] at reads
    cases entry with
    | none => exact ⟨rfl, reads⟩
    | some entry =>
      refine ⟨?_, reads⟩
      simp only [Option.bind_some, unspent]
      cases entry.coin.isSpent <;> rfl

theorem accessCoin_spec (o : COutPoint) :
    (v.accessCoin o).1.unspent = v.view o ∧ Reads honest v (v.accessCoin o).2 := by
  obtain ⟨reads, found, -⟩ := fetchCoin_spec valid o
  rw [accessCoin, ← found]
  cases answer : v.fetchCoin o with
  | mk entry v' =>
    rw [answer] at reads
    cases entry with
    | none => exact ⟨rfl, reads⟩
    | some entry => exact ⟨rfl, reads⟩

end

theorem getBestBlock_spec (valid : v.Valid honest) :
    v.getBestBlock.1 = v.bestBlock ∧ Reads honest v v.getBestBlock.2 := by
  obtain ⟨found, same⟩ := getBestBlockBelow_spec valid.2
  have filled := reads_below valid same
  by_cases unset : v.top.hashBlock = 0
  · have reported : v.bestBlock = bestBlockBelow v.base v.below := if_pos unset
    rw [getBestBlock, if_pos unset]
    exact ⟨found.trans reported.symm, ⟨filled.view, filled.valid, filled.levels, rfl,
      filled.bestBlocks⟩, filled.hidden, filled.cached⟩
  · have reported : v.bestBlock = v.top.hashBlock := if_neg unset
    rw [getBestBlock, if_neg unset]
    exact ⟨reported.symm, .refl valid⟩

theorem shows_setBestBlock (valid : v.Valid honest) (hash : Uint256) :
    Shows honest v v.view (v.setBestBlock hash) :=
  ⟨rfl, valid, rfl, rfl, rfl⟩

theorem uncache_spec (valid : v.Valid honest) (o : COutPoint) :
    Shows honest v v.view (v.uncache o) := by
  cases located : v.top.cacheCoins.lookup o with
  | none =>
    simp only [uncache, Layer.uncache, located]
    exact .refl valid
  | some entry =>
    cases flags : entry.dirty || entry.fresh with
    | true =>
      simp only [uncache, Layer.uncache, located, flags, if_true]
      exact .refl valid
    | false =>
      simp only [uncache, Layer.uncache, located, flags, Bool.false_eq_true, if_false]
      have erased := shows_erase (o := o) valid
      have clean := (valid.1 o entry located).clean (Bool.or_eq_false_iff.mp flags).1
      have eq : v.under o = v.view o := clean.symm.trans (Layer.view_of_lookup located).symm
      rwa [eq, update_eq_self] at erased

def addedEntry (v : CCoinsViewCache) (o : COutPoint) (coin : Coin) (possibleOverwrite : Bool) :
    CCoinsCacheEntry :=
  let it := (v.top.cacheCoins.lookup o).getD ⟨.empty, false, false⟩
  ⟨coin, true, it.fresh || (!possibleOverwrite && !it.dirty)⟩

theorem addCoin_eq (unspent : coin.isSpent = false) :
    v.addCoin o coin possibleOverwrite =
      if isUnspendable coin.out.scriptPubKey then .ok v
      else if !possibleOverwrite &&
          !((v.top.cacheCoins.lookup o).getD ⟨.empty, false, false⟩).coin.isSpent then
        .error (.exception
          "Attempted to overwrite an unspent coin (when possible_overwrite is false)")
      else .ok { v with top := v.top.emplace o (v.addedEntry o coin possibleOverwrite) } := by
  simp only [addCoin, assert, unspent, Bool.not_false, if_true, ok_bind, pure, Except.pure,
    throw, throwThe, MonadExceptOf.throw, addedEntry]
  split
  · rfl
  · cases possibleOverwrite with
    | true => simp
    | false => simp

/-- An addition that is announced as one finds no unspent entry to overwrite. -/
theorem addedEntry_valid (valid : v.Valid honest) (unspent : coin.isSpent = false)
    (legal : honest → possibleOverwrite = false → v.view o = none) :
    (v.addedEntry o coin possibleOverwrite).Valid honest (v.under o) := by
  refine .of_dirty rfl (fun both => ?_) (fun told fresh => ?_)
  · have spent : coin.isSpent = true := both.2
    cases unspent.symm.trans spent
  simp only [addedEntry, Bool.or_eq_true, Bool.and_eq_true, Bool.not_eq_true'] at fresh
  cases located : v.top.cacheCoins.lookup o with
  | none =>
    rw [located] at fresh
    obtain wasFresh | ⟨added, -⟩ := fresh
    · cases wasFresh
    · exact (view_of_absent located).symm.trans (legal told added)
  | some it =>
    have entry := valid.1 o it located
    rw [located, Option.getD_some] at fresh
    obtain wasFresh | ⟨added, notDirty⟩ := fresh
    · exact entry.fresh told wasFresh
    · have shown : v.view o = it.coin.unspent := view_of_lookup located
      exact (entry.clean notDirty).symm.trans (shown.symm.trans (legal told added))

theorem addCoin_spec (valid : v.Valid honest) (unspent : coin.isSpent = false)
    (legal : possibleOverwrite = false → v.view o = none) :
    ∃ v', v.addCoin o coin possibleOverwrite = .ok v' ∧
      Shows honest v (v.view.addCoin o coin) v' := by
  rw [addCoin_eq unspent, CoinsView.addCoin]
  cases unspendable : isUnspendable coin.out.scriptPubKey with
  | true => exact ⟨v, if_pos rfl, by simpa using Shows.refl valid⟩
  | false =>
    have quiet : (!possibleOverwrite &&
        !((v.top.cacheCoins.lookup o).getD ⟨.empty, false, false⟩).coin.isSpent) = false := by
      cases possibleOverwrite with
      | true => rfl
      | false =>
        have hidden := legal rfl
        cases located : v.top.cacheCoins.lookup o with
        | none => rfl
        | some it =>
          have shown : v.view o = it.coin.unspent := view_of_lookup located
          rw [shown] at hidden
          simpa using unspent_eq_none.mp hidden
    have visible : (v.addedEntry o coin possibleOverwrite).coin.unspent = some coin :=
      unspent_eq_some.mpr ⟨rfl, unspent⟩
    have shows := shows_emplace valid (addedEntry_valid valid unspent fun _ => legal)
    rw [visible] at shows
    exact ⟨_, by rw [if_neg Bool.false_ne_true, quiet, if_neg Bool.false_ne_true],
      by rwa [if_neg Bool.false_ne_true]⟩

theorem spentEntry_valid {under : Option Coin} :
    CCoinsCacheEntry.Valid honest ⟨.empty, true, false⟩ under :=
  .of_dirty rfl (fun both => Bool.false_ne_true both.1)
    (fun _ fresh => absurd fresh Bool.false_ne_true)

theorem spendCoin_spec (told : honest) (valid : v.Valid honest) (o : COutPoint) :
    (v.spendCoin o).1.bind unspent = v.view o ∧
      Shows honest v (v.view.spendCoin o) (v.spendCoin o).2 := by
  obtain ⟨reads, found, cached⟩ := fetchCoin_spec valid o
  have shows := reads.toShows
  have view := shows.view
  rw [spendCoin, ← found]
  cases answer : v.fetchCoin o with
  | mk entry v' =>
    rw [answer] at shows found cached view
    cases entry with
    | none =>
      refine ⟨rfl, ?_⟩
      have nothing : v.view o = none := found.symm
      rwa [CoinsView.spendCoin, ← nothing, update_eq_self]
    | some entry =>
      cases fresh : entry.fresh with
      | true =>
        have hidden := (shows.valid.1 o entry cached).fresh told fresh
        have erased := shows_erase (o := o) shows.valid
        rw [view, show v'.under o = none from hidden] at erased
        simp only [fresh, if_true]
        exact ⟨rfl, shows.trans erased⟩
      | false =>
        have cleared := shows_emplace (o := o) shows.valid (@spentEntry_valid honest _)
        rw [view] at cleared
        simp only [fresh, Bool.false_eq_true, if_false]
        exact ⟨rfl, shows.trans cleared⟩

end CCoinsViewCache

end HobbyHash
