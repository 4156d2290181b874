import HobbyHash.Library.KeyedFold
import HobbyHash.Primitives

/-! # The coins cache

`CCoinsViewCache` of `coins.cpp`: maps of cached coins, each layer on top of
another view, down to a base map. Reading through a layer copies what it finds
into every layer on the way, so even the reading functions return a new view.
The byte count of cached scripts is left out.
-/

namespace HobbyHash

open Machine

/-- `Coin`. A spent coin is one whose output is null. -/
structure Coin where
  out : CTxOut
  fCoinBase : Bool
  nHeight : Nat
  deriving DecidableEq, Repr

namespace Coin

/-- `coinEmpty`, which `Clear` also leaves behind. -/
def empty : Coin := ⟨.null, false, 0⟩

def isSpent (coin : Coin) : Bool :=
  coin.out.isNull

/-- The coin as an observer sees it. -/
def unspent (coin : Coin) : Option Coin :=
  if coin.isSpent then none else some coin

end Coin

/-- `CCoinsCacheEntry`, with the bits of `flags` as two fields. -/
structure CCoinsCacheEntry where
  coin : Coin
  dirty : Bool
  fresh : Bool
  deriving DecidableEq, Repr

/-- `CCoinsMap`. Its entries may come in any order. -/
abbrev CCoinsMap := AList (fun _ : COutPoint => CCoinsCacheEntry)

/-- The coins a database stores. -/
abbrev CoinMap := AList (fun _ : COutPoint => Coin)

/-- The view at the bottom of a stack of caches. -/
structure CoinsBase where
  coins : CoinMap
  hashBlock : Uint256

/-- The members of one `CCoinsViewCache` other than its `base` pointer. -/
structure Layer where
  hashBlock : Uint256
  cacheCoins : CCoinsMap

/-- A `CCoinsViewCache` with everything its `base` pointers lead to. -/
structure CCoinsViewCache where
  top : Layer
  below : List Layer
  base : CoinsBase

namespace CoinsBase

/-- What a flush to the bottom view does with one entry. -/
def writeEntry (coins : CoinMap) (entry : (_ : COutPoint) × CCoinsCacheEntry) :
    Except Fault CoinMap :=
  if !entry.2.dirty then .ok coins
  else if entry.2.coin.isSpent then .ok (coins.erase entry.1)
  else .ok (coins.insert entry.1 entry.2.coin)

/-- `BatchWrite` of the bottom view. -/
def batchWrite (b : CoinsBase) (mapCoins : CCoinsMap) (hashBlock : Uint256) :
    Except Fault CoinsBase := do
  return { coins := ← mapCoins.entries.foldlM writeEntry b.coins, hashBlock }

end CoinsBase

namespace Layer

def new : Layer := ⟨0, ∅⟩

/-- The entry `FetchCoin` makes of a coin found in the base. If that is spent,
    the base holds no more than an empty entry and ours counts as fresh. -/
def fetchedEntry (tmp : Coin) : CCoinsCacheEntry :=
  ⟨tmp, false, tmp.isSpent⟩

def emplace (l : Layer) (outpoint : COutPoint) (entry : CCoinsCacheEntry) : Layer :=
  { l with cacheCoins := l.cacheCoins.insert outpoint entry }

def erase (l : Layer) (outpoint : COutPoint) : Layer :=
  { l with cacheCoins := l.cacheCoins.erase outpoint }

/-- What `BatchWrite` does with one entry of the child. -/
def writeEntry (cacheCoins : CCoinsMap) (entry : (_ : COutPoint) × CCoinsCacheEntry) :
    Except Fault CCoinsMap :=
  if !entry.2.dirty then .ok cacheCoins
  else
    match cacheCoins.lookup entry.1 with
    | none =>
      if entry.2.fresh && entry.2.coin.isSpent then .ok cacheCoins
      else .ok (cacheCoins.insert entry.1 ⟨entry.2.coin, true, entry.2.fresh⟩)
    | some itUs =>
      if entry.2.fresh && !itUs.coin.isSpent then
        .error (.exception "FRESH flag misapplied to coin that exists in parent cache")
      else if itUs.fresh && entry.2.coin.isSpent then .ok (cacheCoins.erase entry.1)
      else .ok (cacheCoins.insert entry.1 ⟨entry.2.coin, true, itUs.fresh⟩)

def batchWrite (l : Layer) (mapCoins : CCoinsMap) (hashBlock : Uint256) : Except Fault Layer := do
  return { hashBlock, cacheCoins := ← mapCoins.entries.foldlM writeEntry l.cacheCoins }

/-- What `Flush` leaves of the cache itself. -/
def flushed (l : Layer) : Layer :=
  { l with cacheCoins := ∅ }

/-- The loop of `Sync` over one entry: spent coins go, the flags of the others
    are cleared. -/
def syncEntry (entry : (_ : COutPoint) × CCoinsCacheEntry) :
    Option ((_ : COutPoint) × CCoinsCacheEntry) :=
  if entry.2.coin.isSpent then none else some ⟨entry.1, entry.2.coin, false, false⟩

/-- What `Sync` leaves of the cache itself. -/
def synced (l : Layer) : Layer :=
  { l with cacheCoins := (l.cacheCoins.entries.filterMap syncEntry).toAList }

def uncache (l : Layer) (outpoint : COutPoint) : Layer :=
  match l.cacheCoins.lookup outpoint with
  | some entry =>
    if entry.dirty || entry.fresh then l else l.erase outpoint
  | none => l

end Layer

/-- `GetCoin` of the view under a cache: what it returns and the caches it has
    filled on the way. -/
def getCoinBelow (base : CoinsBase) : List Layer → COutPoint → Option Coin × List Layer
  | [], outpoint => (base.coins.lookup outpoint, [])
  | l :: rest, outpoint =>
    match l.cacheCoins.lookup outpoint with
    | some entry => (entry.coin.unspent, l :: rest)
    | none =>
      match getCoinBelow base rest outpoint with
      | (none, rest') => (none, l :: rest')
      | (some tmp, rest') => (tmp.unspent, l.emplace outpoint (Layer.fetchedEntry tmp) :: rest')

/-- `GetBestBlock` of the view under a cache. -/
def getBestBlockBelow (base : CoinsBase) : List Layer → Uint256 × List Layer
  | [] => (base.hashBlock, [])
  | l :: rest =>
    if l.hashBlock = 0 then
      let (hash, rest') := getBestBlockBelow base rest
      (hash, { l with hashBlock := hash } :: rest')
    else (l.hashBlock, l :: rest)

namespace CCoinsViewCache

variable (v : CCoinsViewCache) (outpoint : COutPoint)

def fetchCoin :
    Option CCoinsCacheEntry × CCoinsViewCache :=
  match v.top.cacheCoins.lookup outpoint with
  | some entry => (some entry, v)
  | none =>
    match getCoinBelow v.base v.below outpoint with
    | (none, below) => (none, { v with below })
    | (some tmp, below) =>
      let entry := Layer.fetchedEntry tmp
      (some entry, { v with top := v.top.emplace outpoint entry, below })

def getCoin : Option Coin × CCoinsViewCache :=
  let (entry, v') := v.fetchCoin outpoint
  (entry.bind (·.coin.unspent), v')

def haveCoin : Bool × CCoinsViewCache :=
  match v.fetchCoin outpoint with
  | (some entry, v') => (!entry.coin.isSpent, v')
  | (none, v') => (false, v')

def accessCoin : Coin × CCoinsViewCache :=
  match v.fetchCoin outpoint with
  | (some entry, v') => (entry.coin, v')
  | (none, v') => (.empty, v')

def addCoin (coin : Coin) (possibleOverwrite : Bool) :
    Except Fault CCoinsViewCache := do
  assert (!coin.isSpent) "!coin.IsSpent()"
  if isUnspendable coin.out.scriptPubKey then return v
  else
    let it := (v.top.cacheCoins.lookup outpoint).getD ⟨.empty, false, false⟩
    if possibleOverwrite then
      return { v with top := v.top.emplace outpoint ⟨coin, true, it.fresh⟩ }
    else if !it.coin.isSpent then
      throw (.exception
        "Attempted to overwrite an unspent coin (when possible_overwrite is false)")
    else
      let fresh := !it.dirty
      return { v with top := v.top.emplace outpoint ⟨coin, true, it.fresh || fresh⟩ }

/-- `SpendCoin`: the coin moved out, unless nothing was found. -/
def spendCoin : Option Coin × CCoinsViewCache :=
  match v.fetchCoin outpoint with
  | (none, v') => (none, v')
  | (some entry, v') =>
    if entry.fresh then (some entry.coin, { v' with top := v'.top.erase outpoint })
    else (some entry.coin, { v' with top := v'.top.emplace outpoint ⟨.empty, true, false⟩ })

def getBestBlock : Uint256 × CCoinsViewCache :=
  if v.top.hashBlock = 0 then
    let (hash, below) := getBestBlockBelow v.base v.below
    (hash, { v with top := { v.top with hashBlock := hash }, below })
  else (v.top.hashBlock, v)

def setBestBlock (hashBlock : Uint256) : CCoinsViewCache :=
  { v with top := { v.top with hashBlock } }

def uncache (v : CCoinsViewCache) (outpoint : COutPoint) : CCoinsViewCache :=
  { v with top := v.top.uncache outpoint }

end CCoinsViewCache

/-- The base's `BatchWrite` as a cache calls it. -/
def batchWriteBelow (l : Layer) : List Layer → CoinsBase → Except Fault (List Layer × CoinsBase)
  | [], base => do return ([], ← base.batchWrite l.cacheCoins l.hashBlock)
  | parent :: rest, base => do
    return ((← parent.batchWrite l.cacheCoins l.hashBlock) :: rest, base)

/-- `Flush` or `Sync` of the cache at a position of a stack; `leave` is what the
    call leaves of that cache itself. -/
def writeAt (leave : Layer → Layer) :
    Nat → List Layer → CoinsBase → Except Fault (List Layer × CoinsBase)
  | _, [], base => .ok ([], base)
  | 0, l :: rest, base => do
    let (rest', base') ← batchWriteBelow l rest base
    return (leave l :: rest', base')
  | i + 1, l :: rest, base => do
    let (rest', base') ← writeAt leave i rest base
    return (l :: rest', base')

namespace CCoinsViewCache

/-- A cache that was just laid over a base. -/
def onto (base : CoinsBase) : CCoinsViewCache :=
  { top := .new, below := [], base }

/-- All caches of the stack, the uppermost first. -/
def layers (v : CCoinsViewCache) : List Layer :=
  v.top :: v.below

/-- A write of the cache at a position of this stack. -/
def write (leave : Layer → Layer) (i : Nat) (v : CCoinsViewCache) :
    Except Fault CCoinsViewCache := do
  match ← writeAt leave i v.layers v.base with
  | (top :: below, base) => return { top, below, base }
  | ([], base) => return { v with base }

def flush : Nat → CCoinsViewCache → Except Fault CCoinsViewCache :=
  write Layer.flushed

def sync : Nat → CCoinsViewCache → Except Fault CCoinsViewCache :=
  write Layer.synced

def push (v : CCoinsViewCache) : CCoinsViewCache :=
  { v with top := .new, below := v.layers }

/-- The top cache destroyed with whatever was not flushed. The last cache over
    the base stays. -/
def pop (v : CCoinsViewCache) : CCoinsViewCache :=
  match v.below with
  | [] => v
  | l :: rest => { v with top := l, below := rest }

end CCoinsViewCache

/-- The states that `SanityCheck` allows for an entry. -/
def CCoinsCacheEntry.sane (entry : CCoinsCacheEntry) : Bool :=
  let attr := (if entry.dirty then 1 else 0) + (if entry.fresh then 2 else 0) +
    (if entry.coin.isSpent then 4 else 0)
  attr ≠ 2 && attr ≠ 4 && attr ≠ 7

end HobbyHash
