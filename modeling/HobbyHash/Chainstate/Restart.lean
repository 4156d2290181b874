import HobbyHash.Chainstate.LoadIndex
import HobbyHash.Chainstate.Submission
import HobbyHash.HeadersSync.Branch

/-! # The block index survives a restart

Every entry is written as a `CDiskBlockIndex`, and `LoadBlockIndex` builds the
index again from these records. `storedIndex` is what a record holds of an entry and
`loadedIndex` is the entry itself, with the failures of ancestors passed on. The
first loop turns records into stored entries, in any order, and the second one
turns stored entries into loaded ones, parents first.
-/

namespace HobbyHash

open CBlockIndex Serialize List Function

/-- The key of an entry in `m_block_index`. -/
abbrev CBlockIndex.key (b : CBlockIndex) (env : IndexEnv) : Uint256 := b.getBlockHash env.hash

namespace ChainstateManager

variable {env : IndexEnv} {s s' : ChainstateManager} {b : CBlockIndex}

/-- `CDiskBlockIndex{pindex}`. -/
def diskBlockIndex (env : IndexEnv) (s : ChainstateManager) (b : CBlockIndex) :
    CDiskBlockIndex where
  toHeaderFields := b.fields
  nHeight := b.nHeight
  nStatus := s.nStatus b
  nTx := (s.entry b).nTx
  nFile := (s.entry b).nFile
  nDataPos := (s.entry b).nDataPos
  nUndoPos := (s.entry b).nUndoPos
  hashPrev := b.pprev.elim 0 (·.getBlockHash env.hash)

/-- The values under `DB_BLOCK_INDEX` after every entry was written. -/
def diskRecords (env : IndexEnv) (s : ChainstateManager) : List (List UInt8) :=
  s.blocks.map fun b => (s.diskBlockIndex env b).serialize

def storedIndex (env : IndexEnv) (s : ChainstateManager) (b : CBlockIndex) : LoadedIndex where
  pprev := b.pprev.map (·.getBlockHash env.hash)
  nHeight := b.nHeight
  nFile := (s.entry b).nFile
  nDataPos := (s.entry b).nDataPos
  nUndoPos := (s.entry b).nUndoPos
  nTx := (s.entry b).nTx
  nStatus := s.nStatus b
  fields := b.fields

/-- The status of a block after failures have been passed on to its descendants. -/
def inheritedStatus (s : ChainstateManager) : CBlockIndex → BlockStatus
  | .genesis f => s.nStatus (.genesis f)
  | .child p f =>
    if !(s.nStatus (.child p f)).failed && (s.inheritedStatus p).failed then
      { s.nStatus (.child p f) with failedChild := true }
    else s.nStatus (.child p f)

/-- An entry as it is in memory, with the failures of its ancestors. -/
def loadedIndex (env : IndexEnv) (s : ChainstateManager) (b : CBlockIndex) : LoadedIndex :=
  { s.storedIndex env b with
    pskip := b.pskip.map (·.getBlockHash env.hash)
    nChainWork := b.nChainWork
    nChainTx := (s.entry b).nChainTx
    nStatus := s.inheritedStatus b
    nTimeMax := b.nTimeMax }

theorem failed_inheritedStatus (s : ChainstateManager) (b : CBlockIndex) :
    (s.inheritedStatus b).failed = true ↔ ∃ a, Ancestor a b ∧ (s.nStatus a).failed = true := by
  induction b with
  | genesis f =>
    constructor
    · intro failed
      exact ⟨_, .refl, failed⟩
    · rintro ⟨_, ⟨⟩, failed⟩
      exact failed
  | child p f ih =>
    rw [inheritedStatus]
    split
    · rename_i inherits
      rw [Bool.and_eq_true, ih] at inherits
      obtain ⟨-, a, lt, failed⟩ := inherits
      exact iff_of_true (Bool.or_true _) ⟨a, .step lt, failed⟩
    rename_i keeps
    constructor
    · intro failed
      exact ⟨_, .refl, failed⟩
    · rintro ⟨a, _ | lt, failed⟩
      · exact failed
      · by_contra clean
        rw [Bool.not_eq_true] at clean
        exact keeps (by rw [clean, ih.mpr ⟨a, lt, failed⟩]; rfl)

/-- What the index of a running node keeps about the members that are written. -/
structure Recorded (env : IndexEnv) (s : ChainstateManager) : Prop where
  link : LinkState s []
  nodup : s.blocks.Nodup
  hashes : ∀ a ∈ s.blocks, ∀ b ∈ s.blocks,
    a.getBlockHash env.hash = b.getBlockHash env.hash → a = b
  notNull : ∀ b ∈ s.blocks, b.getBlockHash env.hash ≠ 0
  work : ∀ b ∈ s.blocks, Pow.checkProofOfWork (b.getBlockHash env.hash) b.nBits env.params = true
  data : ∀ b ∈ s.blocks, s.Received b ↔ (s.entry b).nTx ≠ 0
  noFile : ∀ b ∈ s.blocks, ¬ s.Received b → (s.entry b).nFile = 0
  tree : ∀ b ∈ s.blocks, s.UpTo .tree b
  fits : ∀ b ∈ s.blocks, (s.diskBlockIndex env b).Fits

theorem constructBlockHash_diskBlockIndex (b : CBlockIndex) :
    (s.diskBlockIndex env b).constructBlockHash env.hash = b.key env := by
  cases b <;> rfl

end ChainstateManager

namespace BlockManager

open ChainstateManager

variable {env : IndexEnv} {s : ChainstateManager} {m : BlockManager} {b : CBlockIndex}

theorem node_modify_self (h : Uint256) (change : LoadedIndex → LoadedIndex) :
    (m.modify h change).node h = change (m.node h) :=
  update_self ..

theorem node_modify_of_ne (ne : k ≠ h) (change : LoadedIndex → LoadedIndex) :
    (m.modify h change).node k = m.node k :=
  update_of_ne ne ..

/-- What the first loop has read after some records. -/
structure ReadState (env : IndexEnv) (s : ChainstateManager) (done : List CBlockIndex)
    (m : BlockManager) : Prop where
  keys : ∀ h ∈ m.keys, ∃ b ∈ s.blocks, b.getBlockHash env.hash = h
  nodup : m.keys.Nodup
  present : ∀ b ∈ done, b.getBlockHash env.hash ∈ m.keys
  read : ∀ b ∈ done, m.node (b.getBlockHash env.hash) = s.storedIndex env b
  other : ∀ h, (∀ b ∈ done, b.getBlockHash env.hash ≠ h) → m.node h = {}
  noPairs : m.blocksUnlinked = []

theorem insertBlockIndex_eq (ne : h ≠ 0) (absent : h ∉ m.keys → m.node h = {}) :
    ∃ keys, m.insertBlockIndex h = ({ m with keys }, some h) ∧
    (∀ k, k ∈ keys ↔ k ∈ m.keys ∨ k = h) ∧
      (m.keys.Nodup → keys.Nodup) := by
  rw [insertBlockIndex, if_neg ne]
  split
  · rename_i known
    refine ⟨m.keys, rfl, fun k => ?_, id⟩
    exact (or_iff_left_of_imp fun eq => eq ▸ known).symm
  rename_i new
  have eq : update m.node h {} = m.node := by
    rw [← absent new, update_eq_self]
  refine ⟨m.keys ++ [h], by rw [eq], fun k => by simp, fun nodup => ?_⟩
  exact nodup_append'.mpr ⟨nodup, nodup_singleton h, by simpa using new⟩

variable {done : List CBlockIndex}

theorem ReadState.loadRecord (state : ReadState env s done m) (recorded : Recorded env s)
    (sub : ∀ a ∈ done, a ∈ s.blocks) (known : b ∈ s.blocks) (new : b ∉ done) :
    ∃ m', m.loadRecord env (s.diskBlockIndex env b) = .ok m' ∧ ReadState env s (b :: done) m' := by
  have apart : ∀ a ∈ done, a.key env ≠ b.key env := by
    intro a mem same
    rw [recorded.hashes a (sub a mem) b known same] at mem
    exact new mem
  have absent : ∀ h, h ∉ m.keys → m.node h = {} := by
    intro h notKey
    apply state.other
    rintro a mem rfl
    exact notKey (state.present a mem)
  obtain ⟨keys, inserted, memKeys, nodupKeys⟩ :=
    insertBlockIndex_eq (recorded.notNull b known) (absent _)
  have parent : ∃ keys', ({ m with keys } : BlockManager).insertBlockIndex
        (s.diskBlockIndex env b).hashPrev =
          ({ m with keys := keys' }, b.pprev.map (·.key env)) ∧
      (∀ k, k ∈ keys' → k ∈ keys ∨ ∃ a ∈ s.blocks, a.key env = k) ∧
      (∀ k ∈ keys, k ∈ keys') ∧ (keys.Nodup → keys'.Nodup) := by
    cases b with
    | genesis f => exact ⟨keys, rfl, fun k mem => .inl mem, fun k mem => mem, id⟩
    | child p f =>
      have parentKnown := recorded.link.closed p f known
      obtain ⟨keys', inserted', memKeys', nodupKeys'⟩ := @insertBlockIndex_eq { m with keys }
        (p.key env) (recorded.notNull p parentKnown) fun notKey => by
          apply absent
          exact fun mem => notKey ((memKeys _).mpr (.inl mem))
      refine ⟨keys', inserted', fun k mem => ?_, fun k mem => (memKeys' k).mpr (.inl mem),
        nodupKeys'⟩
      exact ((memKeys' k).mp mem).imp id fun same => ⟨p, parentKnown, same.symm⟩
  obtain ⟨keys', inserted', memKeys', keeps, nodupKeys'⟩ := parent
  have fresh : m.node (b.key env) = {} := state.other _ apart
  refine ⟨({ m with keys := keys' } : BlockManager).modify (b.key env) fun _ =>
    s.storedIndex env b, ?_, ?_⟩
  · have work := recorded.work b known
    rw [BlockManager.loadRecord, constructBlockHash_diskBlockIndex, inserted]
    dsimp only
    rw [inserted']
    rw [show (s.diskBlockIndex env b).nBits = b.nBits from rfl, if_pos work,
      modify, modify]
    rw [fresh]
    rfl
  constructor
  case keys =>
    intro h mem
    obtain before | found := memKeys' h mem
    · obtain old | rfl := (memKeys h).mp before
      · exact state.keys h old
      · exact ⟨b, known, rfl⟩
    · exact found
  case nodup => exact nodupKeys' (nodupKeys state.nodup)
  case present =>
    intro a mem
    obtain rfl | before := mem_cons.mp mem
    · exact keeps _ ((memKeys _).mpr (.inr rfl))
    · exact keeps _ ((memKeys _).mpr (.inl (state.present a before)))
  case read =>
    intro a mem
    obtain rfl | before := mem_cons.mp mem
    · exact node_modify_self ..
    · rw [node_modify_of_ne (apart a before)]
      exact state.read a before
  case other =>
    intro h none
    rw [node_modify_of_ne fun same => none b mem_cons_self same.symm]
    exact state.other h (forall_mem_cons.mp none).2
  case noPairs => exact state.noPairs

theorem ReadState.loadBlockIndexGuts {done todo : List CBlockIndex} (state : ReadState env s done m)
    (recorded : Recorded env s) (sub : ∀ a ∈ done, a ∈ s.blocks) (known : ∀ a ∈ todo, a ∈ s.blocks)
    (ne : todo.Nodup) (new : ∀ a ∈ todo, a ∉ done) :
    ∃ m', m.loadBlockIndexGuts env (todo.map fun b => (s.diskBlockIndex env b).serialize) = .ok m' ∧
      ReadState env s (todo.reverse ++ done) m' := by
  induction todo generalizing m done with
  | nil => exact ⟨m, rfl, state⟩
  | cons b todo ih =>
    obtain ⟨notLater, ne⟩ := nodup_cons.mp ne
    have here := known b mem_cons_self
    obtain ⟨next, loaded, nextState⟩ := state.loadRecord recorded sub here (new b mem_cons_self)
    obtain ⟨m', rest, restState⟩ := ih nextState (forall_mem_cons.mpr ⟨here, sub⟩)
      (forall_mem_cons.mp known).2 ne fun a mem => by
        rw [mem_cons, not_or]
        exact ⟨fun same => notLater (same ▸ mem), new a (mem_cons_of_mem b mem)⟩
    refine ⟨m', ?_, by rwa [reverse_cons, append_assoc]⟩
    have decoded : CDiskBlockIndex.unserialize (s.diskBlockIndex env b).serialize =
        some (s.diskBlockIndex env b, []) :=
        (CDiskBlockIndex.reads_serialize (recorded.fits b here)).whole
    rw [loadBlockIndexGuts, map_cons, foldlM_cons, decoded]
    dsimp only
    rw [loaded]
    exact rest

/-- The two members that a change of one object leaves alone, and the others. -/
structure Wrote (m : BlockManager) (h : Uint256) (e : LoadedIndex) (m' : BlockManager) : Prop where
  keys : m'.keys = m.keys
  here : m'.node h = e
  other : ∀ k, k ≠ h → m'.node k = m.node k

theorem Wrote.modify (h : Uint256) (change : LoadedIndex → LoadedIndex) :
    Wrote m h (change (m.node h)) (m.modify h change) where
  keys := rfl
  here := node_modify_self ..
  other _ apart := node_modify_of_ne apart _

theorem Wrote.trans (first : Wrote m h e m') (second : Wrote m' h e' m'') : Wrote m h e' m'' where
  keys := second.keys.trans first.keys
  here := second.here
  other k apart := (second.other k apart).trans (first.other k apart)

/-- What the second loop has done after some objects. -/
structure LoadState (env : IndexEnv) (s : ChainstateManager) (done : List CBlockIndex)
    (m : BlockManager) : Prop where
  keys : m.keys.Perm (s.blocks.map (·.getBlockHash env.hash))
  sub : ∀ b ∈ done, b ∈ s.blocks
  closed : ∀ p f, child p f ∈ done → p ∈ done
  loaded : ∀ b ∈ done, m.node (b.getBlockHash env.hash) = s.loadedIndex env b
  stored : ∀ b ∈ s.blocks, b ∉ done → m.node (b.getBlockHash env.hash) = s.storedIndex env b
  pairs : ∀ h k, (h, k) ∈ m.blocksUnlinked ↔ ∃ p b, (p, b) ∈ s.blocksUnlinked ∧ b ∈ done ∧
    p.getBlockHash env.hash = h ∧ b.getBlockHash env.hash = k
  pairsNodup : m.blocksUnlinked.Nodup

section Ancestors

variable {a : CBlockIndex}

theorem walkToHeight_eq (lt : Ancestor a b)
    (loaded : ∀ c, Ancestor c b → m.node (c.key env) = s.loadedIndex env c) :
    m.walkToHeight a.nHeight (b.key env) b.nHeight = some (a.key env) := by
  induction height : b.nHeight using Nat.strong_induction_on generalizing b with
  | _ n ih =>
    subst height
    rw [walkToHeight]
    have high := lt.nHeight_le
    split
    · rename_i low
      rw [lt.unique .refl (high.antisymm low)]
    rename_i notLow
    cases b with
    | genesis f => exact absurd (Nat.zero_le _) notLow
    | child p f =>
      have belowParent : Ancestor a p := lt.pprev (fun same => notLow (same ▸ le_rfl))
      have skipLow : getSkipHeight (p.nHeight + 1) < p.nHeight + 1 :=
        getSkipHeight_lt (Nat.succ_pos _)
      obtain ⟨x, isSkip, onBranch, atSkip⟩ :=
        @getAncestor_isSome p (getSkipHeight (p.nHeight + 1) : Nat) (Int.natCast_nonneg _)
        (by omega)
      have node := loaded (child p f) .refl
      have skips : (m.node ((child p f).key env)).pskip =
          some (x.key env) := by
        rw [node]
        exact congrArg (Option.map _) isSkip
      have parent : (m.node ((child p f).key env)).pprev =
          some (p.key env) := by
        rw [node]
        rfl
      rw [skips, parent]
      dsimp only [nHeight_child]
      split
      · have reached : Ancestor a x := belowParent.total onBranch (by omega)
        have heights : x.nHeight = getSkipHeight (p.nHeight + 1) := by omega
        have found := ih x.nHeight (by rw [nHeight_child]; omega) reached
          (fun c lower => loaded c (.step (lower.trans onBranch))) rfl
        rw [heights] at found
        exact found
      · exact ih p.nHeight (Nat.lt_succ_self _) belowParent (fun c lower => loaded c (.step lower)) rfl

end Ancestors

section Entry

variable {e : LoadedIndex} {h : Uint256}

theorem computeWork_eq (here : m.node h = s.storedIndex env b)
    (parent : ∀ p, b.pprev = some p → m.node (p.key env) = s.loadedIndex env p) :
    Wrote m h
      { s.storedIndex env b with nChainWork := b.nChainWork, nTimeMax := b.nTimeMax }
      (m.computeWork h) where
  keys := by rfl
  other := fun k apart => node_modify_of_ne apart _
  here := by
    rw [computeWork, node_modify_self, here]
    cases b with
    | genesis f =>
      simp [storedIndex, pprev, nChainWork, nTimeMax, fields,
        Nat.mod_eq_of_lt (getBlockProof_lt f.nBits)]
    | child p f =>
      simp [storedIndex, pprev, parent p rfl, loadedIndex, nChainWork, nTimeMax, fields]

structure Waits (env : IndexEnv) (s : ChainstateManager) (b : CBlockIndex)
    (m m' : BlockManager) : Prop where
  mem : ∀ pair, pair ∈ m'.blocksUnlinked ↔ pair ∈ m.blocksUnlinked ∨
    ∃ p, (p, b) ∈ s.blocksUnlinked ∧ pair = (p.getBlockHash env.hash, b.getBlockHash env.hash)
  nodup : (∀ h, (h, b.getBlockHash env.hash) ∉ m.blocksUnlinked) → m.blocksUnlinked.Nodup →
    m'.blocksUnlinked.Nodup

theorem Waits.keep (eq : m'.blocksUnlinked = m.blocksUnlinked)
    (none : ∀ p, (p, b) ∉ s.blocksUnlinked) : Waits env s b m m' where
  mem pair := by
    rw [eq]
    exact (or_iff_left fun ⟨p, waits, _⟩ => none p waits).symm
  nodup _ before := by rwa [eq]

section ChainTx

variable {pprev : Uint256}

theorem computeChainTx_uncounted (uncounted : (m.node h).nTx = 0) : m.computeChainTx h = m :=
  if_neg (by rw [uncounted]; exact lt_irrefl 0)

variable (counted : (m.node h).nTx ≠ 0)
include counted

theorem computeChainTx_first (first : (m.node h).pprev = none) :
    m.computeChainTx h = m.modify h fun e => { e with nChainTx := e.nTx } := by
  rw [computeChainTx]
  rw [if_pos (Nat.pos_of_ne_zero counted), first]

theorem computeChainTx_linked (parent : (m.node h).pprev = some pprev)
    (ne : (m.node pprev).nChainTx ≠ 0) :
    m.computeChainTx h =
      m.modify h fun e => { e with nChainTx := ((m.node pprev).nChainTx + e.nTx) % uintModulus } := by
  rw [computeChainTx]
  rw [if_pos (Nat.pos_of_ne_zero counted), parent]
  exact if_pos (Nat.pos_of_ne_zero ne)

theorem computeChainTx_unlinked (parent : (m.node h).pprev = some pprev)
    (unlinked : (m.node pprev).nChainTx = 0) :
    m.computeChainTx h =
      { m.modify h fun e => { e with nChainTx := 0 } with
        blocksUnlinked := m.blocksUnlinked ++ [(pprev, h)] } := by
  rw [computeChainTx]
  rw [if_pos (Nat.pos_of_ne_zero counted), parent]
  exact if_neg (by rw [unlinked]; exact lt_irrefl 0)

end ChainTx

/-- A block is linked to its parent, or waits for it, as it is in memory. -/
theorem computeChainTx_eq (recorded : Recorded env s) (mem : b ∈ s.blocks)
    (here : m.node (b.key env) = e) (count : e.nTx = (s.entry b).nTx)
    (unlinked : e.nChainTx = 0) (pointer : e.pprev = b.pprev.map (·.key env))
    (parent : ∀ p, b.pprev = some p → m.node (p.key env) = s.loadedIndex env p) :
    Wrote m (b.key env) { e with nChainTx := (s.entry b).nChainTx }
        (m.computeChainTx (b.key env)) ∧
      Waits env s b m (m.computeChainTx (b.key env)) := by
  have link := recorded.link
  by_cases recv : s.Received b
  · have counted : (m.node (b.key env)).nTx ≠ 0 := by
      rw [here, count]
      exact (recorded.data b mem).mp recv
    cases b with
    | genesis f =>
      have none : ∀ p, (p, genesis f) ∉ s.blocksUnlinked := fun p pair => by
        cases (link.waits p _ pair).2.1
      have linked : s.Linked (genesis f) := by
        obtain linked | ⟨⟨⟩⟩ | ⟨p, ⟨⟩, -⟩ := link.stored _ mem recv
        exact linked
      have total : e.nTx = (s.entry (genesis f)).nChainTx := by
        have le : (s.entry (genesis f)).nTx ≤ uintMax := (recorded.fits _ mem).nTx
        rw [count, (link.counted _ mem linked).2, prevChainTx, pprev, Nat.zero_add]
        exact (Nat.mod_eq_of_lt (by unfold uintModulus; unfold uintMax at le; omega)).symm
      have wrote := @Wrote.modify m ((genesis f).key env) fun e =>
        { e with nChainTx := e.nTx }
      rw [computeChainTx_first counted (by rw [here, pointer]; rfl), ← total]
      exact ⟨here ▸ wrote, .keep rfl none⟩
    | child p f =>
      have isParent : (m.node ((child p f).key env)).pprev =
          some (p.key env) := by
        rw [here, pointer]
        rfl
      have parentCount : (m.node (p.key env)).nChainTx = (s.entry p).nChainTx := by
        rw [parent p rfl]
        rfl
      by_cases parentLinked : s.Linked p
      · have none : ∀ q, (q, child p f) ∉ s.blocksUnlinked := by
          intro q pair
          obtain ⟨-, isParent, -, notLinked⟩ := link.waits q _ pair
          cases isParent
          exact notLinked parentLinked
        have linked : s.Linked (child p f) := by
          obtain linked | ⟨⟨⟩⟩ | ⟨q, -, pair⟩ := link.stored _ mem recv
          · exact linked
          · exact absurd pair (none q)
        have total : ((m.node (p.key env)).nChainTx + e.nTx) % uintModulus =
            (s.entry (child p f)).nChainTx := by
          rw [parentCount, count]
          exact (link.counted _ mem linked).2.symm
        have wrote := @Wrote.modify m ((child p f).key env) fun e =>
          { e with nChainTx := ((m.node (p.key env)).nChainTx + e.nTx) % uintModulus }
        rw [computeChainTx_linked counted isParent (parentCount ▸ parentLinked), ← total]
        exact ⟨here ▸ wrote, .keep rfl none⟩
      · have pair : (p, child p f) ∈ s.blocksUnlinked :=
          link.mem_blocksUnlinked.mpr ⟨mem, rfl, recv, parentLinked⟩
        have notLinked : (s.entry (child p f)).nChainTx = 0 :=
          not_not.mp fun linked => parentLinked (link.parent p f mem linked)
        have wrote := @Wrote.modify m ((child p f).key env) fun e =>
          { e with nChainTx := 0 }
        rw [computeChainTx_unlinked counted isParent (parentCount.trans (not_not.mp parentLinked)),
          notLinked]
        refine ⟨⟨rfl, here ▸ wrote.here, wrote.other⟩, fun other => ?_, fun absent before => ?_⟩
        · rw [mem_append, mem_singleton]
          refine or_congr_right ⟨fun same => ⟨p, pair, same⟩, ?_⟩
          rintro ⟨q, waits, rfl⟩
          cases (link.waits q _ waits).2.1
          rfl
        · exact nodup_append_comm.mp (nodup_cons.mpr ⟨absent _, before⟩)
  · have uncounted : (m.node (b.key env)).nTx = 0 := by
      rw [here, count]
      exact not_not.mp fun counted => recv ((recorded.data b mem).mpr counted)
    have notLinked : (s.entry b).nChainTx = 0 :=
      not_not.mp fun linked => recv (link.counted b mem linked).1
    rw [computeChainTx_uncounted uncounted, notLinked, ← unlinked]
    exact ⟨⟨rfl, here, fun _ _ => rfl⟩, .keep rfl fun p pair => recv (link.waits p b pair).2.2.1⟩

theorem inheritFailure_eq (here : m.node h = e)
    (status : e.nStatus = s.nStatus b) (pointer : e.pprev = b.pprev.map (·.key env))
    (parent : ∀ p, b.pprev = some p → m.node (p.key env) = s.loadedIndex env p) :
    Wrote m h { e with nStatus := s.inheritedStatus b }
        (m.inheritFailure h) ∧
      (m.inheritFailure h).blocksUnlinked = m.blocksUnlinked := by
  have same : e.nStatus = s.inheritedStatus b →
      Wrote m h { e with nStatus := s.inheritedStatus b } m := by
    intro same
    exact ⟨rfl, by rw [here, ← same], fun _ _ => rfl⟩
  cases b with
  | genesis f =>
    have keeps : m.inheritFailure h = m := by
      simp [inheritFailure, here, pointer, pprev]
    rw [keeps]
    exact ⟨same status, rfl⟩
  | child p f =>
    have cond : (!(m.node h).nStatus.failed &&
        (m.node h).pprev.any fun pprev =>
          (m.node pprev).nStatus.failed) =
        (!(s.nStatus (child p f)).failed && (s.inheritedStatus p).failed) := by
      rw [here, pointer, status, pprev, Option.map_some, Option.any_some, parent p rfl]
      rfl
    rw [inheritFailure]
    rw [cond]
    split
    · rename_i inherits
      have wrote := @Wrote.modify m h fun e =>
        { e with nStatus := { e.nStatus with failedChild := true } }
      rw [here, status] at wrote
      rw [inheritedStatus, if_pos inherits]
      exact ⟨wrote, rfl⟩
    · rename_i keeps
      exact ⟨same (by rw [inheritedStatus, if_neg keeps, status]), rfl⟩

theorem buildSkip_eq (here : m.node h = e) (height : e.nHeight = b.nHeight)
    (noSkip : e.pskip = none) (pointer : e.pprev = b.pprev.map (·.key env))
    (loaded : ∀ p c, b.pprev = some p → Ancestor c p →
      m.node (c.key env) = s.loadedIndex env c) :
    Wrote m h { e with pskip := b.pskip.map (·.key env) }
        (m.buildSkip h) ∧
      (m.buildSkip h).blocksUnlinked = m.blocksUnlinked := by
  cases b with
  | genesis f =>
    have keeps : m.buildSkip h = m := by
      simp [buildSkip, here, pointer, pprev]
    rw [keeps]
    refine ⟨⟨rfl, ?_, fun _ _ => rfl⟩, rfl⟩
    rw [here]
    cases e
    cases noSkip
    rfl
  | child p f =>
    have lt : getSkipHeight (p.nHeight + 1) < p.nHeight + 1 := getSkipHeight_lt (Nat.succ_pos _)
    obtain ⟨x, isSkip, onBranch, atSkip⟩ :=
      @getAncestor_isSome p (getSkipHeight (p.nHeight + 1) : Nat) (Int.natCast_nonneg _) (by omega)
    have heights : x.nHeight = getSkipHeight (p.nHeight + 1) := by omega
    have found : m.getAncestor (p.key env) (getSkipHeight e.nHeight) =
        some (x.key env) := by
      have node : (m.node (p.key env)).nHeight = p.nHeight := by
        rw [loaded p p rfl .refl]
        rfl
      rw [height, nHeight_child, ← heights, getAncestor, node,
        if_neg (Nat.not_lt.mpr onBranch.nHeight_le)]
      exact walkToHeight_eq onBranch fun c => loaded p c rfl
    have built : m.buildSkip h =
        m.modify h fun e =>
          { e with pskip := m.getAncestor (p.key env) (getSkipHeight e.nHeight) } := by
      rw [buildSkip, here, pointer]
      rfl
    have skip : (child p f).pskip.map (·.key env) = some (x.key env) :=
      congrArg (Option.map _) isSkip
    have wrote := @Wrote.modify m h fun e =>
      { e with pskip := m.getAncestor (p.key env) (getSkipHeight e.nHeight) }
    rw [here, found] at wrote
    rw [built, skip]
    exact ⟨wrote, rfl⟩

theorem LoadState.loadEntry (state : LoadState env s done m) (recorded : Recorded env s)
    (known : b ∈ s.blocks) (new : b ∉ done) (parents : ∀ p, b.pprev = some p → p ∈ done) :
    LoadState env s (b :: done) (m.loadEntry (b.key env)) := by
  have apart : ∀ c ∈ s.blocks, c ≠ b → c.key env ≠ b.key env :=
    fun c inIdx other same => other (recorded.hashes c inIdx b known same)
  have apartDone : ∀ c ∈ done, c.key env ≠ b.key env :=
    fun c mem => apart c (state.sub c mem) fun same => new (same ▸ mem)
  -- until the object itself is written, the objects before it stay loaded
  have keeps : ∀ {e m'}, Wrote m (b.key env) e m' → ∀ p, b.pprev = some p →
      ∀ c, Ancestor c p → m'.node (c.key env) = s.loadedIndex env c := by
    intro e m' wrote p isParent c lt
    have mem : c ∈ done := by
      have parent := parents p isParent
      clear isParent
      induction lt with
      | refl => exact parent
      | step _ ih => exact ih (state.closed _ _ parent)
    rw [wrote.other _ (apartDone c mem)]
    exact state.loaded c mem
  have unchanged : Wrote m (b.key env) (m.node (b.key env)) m :=
    ⟨rfl, rfl, fun _ _ => rfl⟩
  have work := computeWork_eq (state.stored b known new) fun p isParent =>
    keeps unchanged p isParent p .refl
  obtain ⟨chainTx, waits⟩ := computeChainTx_eq recorded known work.here rfl rfl rfl
    fun p isParent => keeps work p isParent p .refl
  have second := work.trans chainTx
  obtain ⟨failure, samePairs⟩ := inheritFailure_eq second.here rfl rfl
    fun p isParent => keeps second p isParent p .refl
  have third := second.trans failure
  obtain ⟨skip, samePairs'⟩ := buildSkip_eq third.here rfl rfl rfl fun p c isParent =>
    keeps third p isParent c
  have last := third.trans skip
  have pairs : (m.loadEntry (b.key env)).blocksUnlinked =
      ((m.computeWork (b.key env)).computeChainTx
        (b.key env)).blocksUnlinked := samePairs'.trans samePairs
  change Wrote _ _ (s.loadedIndex env b) (m.loadEntry (b.key env)) at last
  constructor
  case keys =>
    rw [last.keys]
    exact state.keys
  case sub => exact forall_mem_cons.mpr ⟨known, state.sub⟩
  case closed =>
    intro p f mem
    obtain rfl | before := mem_cons.mp mem
    · exact mem_cons_of_mem _ (parents p rfl)
    · exact mem_cons_of_mem _ (state.closed p f before)
  case loaded =>
    intro c mem
    obtain rfl | before := mem_cons.mp mem
    · exact last.here
    · rw [last.other _ (apartDone c before)]
      exact state.loaded c before
  case stored =>
    intro c inIdx notDone
    rw [mem_cons, not_or] at notDone
    rw [last.other _ (apart c inIdx notDone.1)]
    exact state.stored c inIdx notDone.2
  case pairs =>
    intro h k
    rw [pairs, waits.mem, show (m.computeWork (b.key env)).blocksUnlinked =
      m.blocksUnlinked from rfl, state.pairs]
    constructor
    · rintro (⟨p, c, pair, mem, same⟩ | ⟨p, pair, same⟩)
      · exact ⟨p, c, pair, mem_cons_of_mem b mem, same⟩
      · cases same
        exact ⟨p, b, pair, mem_cons_self, rfl, rfl⟩
    · rintro ⟨p, c, pair, mem, rfl, rfl⟩
      obtain rfl | before := mem_cons.mp mem
      · exact .inr ⟨p, pair, rfl⟩
      · exact .inl ⟨p, c, pair, before, rfl, rfl⟩
  case pairsNodup =>
    rw [pairs]
    refine waits.nodup (fun h pair => ?_) state.pairsNodup
    obtain ⟨p, c, -, mem, -, same⟩ := (state.pairs h _).mp pair
    exact apartDone c mem same

end Entry

/-- The index that was written is in memory again: the same objects with the same
    members and the same waiting pairs. A status differs at most by the mark of a
    failed ancestor. -/
structure Restored (env : IndexEnv) (s : ChainstateManager) (m : BlockManager) : Prop where
  keys : m.keys.Perm (s.blocks.map (·.getBlockHash env.hash))
  members : ∀ b ∈ s.blocks, m.node (b.getBlockHash env.hash) = s.loadedIndex env b
  status : ∀ b ∈ s.blocks, (m.node (b.getBlockHash env.hash)).nStatus = s.nStatus b ∨
    (m.node (b.getBlockHash env.hash)).nStatus = { s.nStatus b with failedChild := true } ∧
      (s.nStatus b).failed = false ∧ ∃ a, Ancestor a b ∧ (s.nStatus a).failed = true
  pairs : m.blocksUnlinked.Perm (s.blocksUnlinked.map fun pair =>
    (pair.1.getBlockHash env.hash, pair.2.getBlockHash env.hash))

theorem Restored.nChainTx (restored : Restored env s m) (mem : b ∈ s.blocks) :
    (m.node (b.key env)).nChainTx = (s.entry b).nChainTx := by
  rw [restored.members b mem]
  rfl

/-- The second loop, over the objects in an order in which heights do not fall. -/
theorem LoadState.loadEntries {done todo : List CBlockIndex} (state : LoadState env s done m)
    (recorded : Recorded env s) (all : ∀ b, b ∈ s.blocks ↔ b ∈ done ∨ b ∈ todo)
    (ne : todo.Nodup) (new : ∀ b ∈ todo, b ∉ done)
    (sorted : todo.Pairwise fun a b => a.nHeight ≤ b.nHeight)
    (above : ∀ a ∈ done, ∀ b ∈ todo, a.nHeight ≤ b.nHeight)
    (last : ∀ c ∈ done.head?, ∀ a ∈ done, a.nHeight ≤ c.nHeight) :
    ∃ m', loadEntries m (done.head?.map (·.key env))
        (todo.map (·.key env)) = .ok m' ∧
      LoadState env s (todo.reverse ++ done) m' := by
  induction todo generalizing m done with
  | nil => exact ⟨m, rfl, state⟩
  | cons b todo ih =>
    obtain ⟨notLater, ne⟩ := nodup_cons.mp ne
    obtain ⟨lowest, sorted⟩ := pairwise_cons.mp sorted
    have known : b ∈ s.blocks := (all b).mpr (.inr mem_cons_self)
    have fresh := new b mem_cons_self
    -- the parent is lower, so it cannot come later
    have parents : ∀ p, b.pprev = some p → p ∈ done := by
      intro p isParent
      cases b with
      | genesis f => cases isParent
      | child q f =>
        cases isParent
        obtain before | later := (all p).mp (recorded.link.closed p f known)
        · exact before
        obtain same | later := mem_cons.mp later
        · exact absurd same.symm (pprev_ne_self rfl)
        · have high := lowest p later
          rw [nHeight_child] at high
          omega
    have next := state.loadEntry recorded known fresh parents
    obtain ⟨m', rest, restState⟩ := ih next
      (fun c => by rw [all c, mem_cons, mem_cons, or_left_comm, or_assoc]) ne
      (fun c mem => by
        rw [mem_cons, not_or]
        exact ⟨fun same => notLater (same ▸ mem), new c (mem_cons_of_mem b mem)⟩) sorted
      (fun a before c later => by
        obtain rfl | before := mem_cons.mp before
        · exact lowest c later
        · exact above a before c (mem_cons_of_mem b later))
      (fun c isHead a before => by
        cases isHead
        obtain rfl | before := mem_cons.mp before
        · exact le_rfl
        · exact above a before b mem_cons_self)
    refine ⟨m', ?_, by rwa [reverse_cons, append_assoc]⟩
    have contiguous : ((done.head?.map (·.key env)).any fun prev =>
        (m.node (b.key env)).nHeight > (m.node prev).nHeight + 1) = false := by
      cases done with
      | nil => rfl
      | cons c done =>
        have le : b.nHeight ≤ c.nHeight + 1 := by
          cases b with
          | genesis f => exact Nat.zero_le _
          | child p f => exact Nat.succ_le_succ (last c rfl p (parents p rfl))
        rw [head?_cons, Option.map_some, Option.any_some, decide_eq_false_iff_not,
          state.stored b known fresh, state.loaded c mem_cons_self]
        exact Nat.not_lt.mpr le
    rw [map_cons, loadEntries, contiguous]
    exact rest

theorem ReadState.loadState (state : ReadState env s done m) (recorded : Recorded env s)
    (all : ∀ b, b ∈ done ↔ b ∈ s.blocks) : LoadState env s [] m := by
  have mapNodup : (s.blocks.map (·.key env)).Nodup :=
    recorded.nodup.map_on fun a inA b inB same => recorded.hashes a inA b inB same
  constructor
  case keys =>
    refine (perm_ext_iff_of_nodup state.nodup mapNodup).mpr fun h => ?_
    rw [mem_map]
    constructor
    · exact state.keys h
    · rintro ⟨b, known, rfl⟩
      exact state.present b ((all b).mpr known)
  case sub => exact nofun
  case closed => exact nofun
  case loaded => exact nofun
  case stored => exact fun b known _ => state.read b ((all b).mpr known)
  case pairs =>
    intro h k
    rw [state.noPairs]
    constructor
    · exact nofun
    · rintro ⟨p, b, -, none, -⟩
      cases none
  case pairsNodup =>
    rw [state.noPairs]
    exact nodup_nil

theorem LoadState.restored (state : LoadState env s done m) (recorded : Recorded env s)
    (all : ∀ b, b ∈ done ↔ b ∈ s.blocks) : Restored env s m where
  keys := state.keys
  members := fun b known => state.loaded b ((all b).mpr known)
  status := by
    intro b known
    rw [state.loaded b ((all b).mpr known)]
    cases b with
    | genesis f => exact .inl rfl
    | child p f =>
      simp only [loadedIndex, inheritedStatus]
      split
      · rename_i inherits
        rw [Bool.and_eq_true, Bool.not_eq_true', failed_inheritedStatus] at inherits
        obtain ⟨clean, a, lt, failed⟩ := inherits
        exact .inr ⟨rfl, clean, a, .step lt, failed⟩
      · exact .inl rfl
  pairs := by
    have parentKnown : ∀ p b, (p, b) ∈ s.blocksUnlinked → p ∈ s.blocks ∧ b ∈ s.blocks := by
      intro p b pair
      obtain ⟨known, isParent, -⟩ := recorded.link.waits p b pair
      cases b with
      | genesis f => cases isParent
      | child q f =>
        cases isParent
        exact ⟨recorded.link.closed p f known, known⟩
    have mapNodup := recorded.link.unlinkedNodup.map_on (f := fun pair =>
        (pair.1.key env, pair.2.key env)) fun x inX y inY same => by
      obtain ⟨p, b⟩ := x
      obtain ⟨q, c⟩ := y
      obtain ⟨knownP, knownB⟩ := parentKnown p b inX
      obtain ⟨knownQ, knownC⟩ := parentKnown q c inY
      obtain ⟨sameP, sameB⟩ := Prod.mk.inj same
      rw [recorded.hashes p knownP q knownQ sameP, recorded.hashes b knownB c knownC sameB]
    refine (perm_ext_iff_of_nodup state.pairsNodup mapNodup).mpr ?_
    rintro ⟨h, k⟩
    rw [state.pairs, mem_map]
    constructor
    · rintro ⟨p, b, pair, -, rfl, rfl⟩
      exact ⟨(p, b), pair, rfl⟩
    · rintro ⟨⟨p, b⟩, pair, same⟩
      cases same
      exact ⟨p, b, pair, (all b).mpr (parentKnown p b pair).2, rfl, rfl⟩

theorem exists_order {α β : Type} {f : α → β} {image : List β} {source : List α}
    (same : image.Perm (source.map f)) :
    ∃ order : List α, image = order.map f ∧ order.Perm source := by
  exact (congrFun (congrFun (eq_map_comp_perm f) image) source).mpr same

theorem Recorded.loadBlockIndex (recorded : Recorded env s) (sorts : SortsByHeight sort)
    (written : records.Perm (s.diskRecords env)) :
    ∃ m, loadBlockIndex env sort records = .ok m ∧ Restored env s m := by
  obtain ⟨order, rfl, same⟩ := exists_order written
  have start : ReadState env s [] {} :=
    { keys := nofun
      nodup := nodup_nil
      present := nofun
      read := nofun
      other := fun h _ => rfl
      noPairs := rfl }
  obtain ⟨m, guts, readState⟩ := start.loadBlockIndexGuts recorded (nofun)
    (fun b mem => same.mem_iff.mp mem) (same.nodup_iff.mpr recorded.nodup)
    nofun
  have state := readState.loadState recorded fun b => by
    rw [append_nil, mem_reverse, same.mem_iff]
  obtain ⟨sorted, pairwise⟩ := sorts (fun pindex => (m.node pindex).nHeight) m.keys
  obtain ⟨visit, isVisit, visitSame⟩ := exists_order (sorted.trans state.keys)
  have heights : visit.Pairwise fun a b => a.nHeight ≤ b.nHeight := by
    rw [isVisit, pairwise_map] at pairwise
    refine pairwise.imp_of_mem fun {a b} inA inB le => ?_
    rw [state.stored a (visitSame.mem_iff.mp inA) not_mem_nil,
      state.stored b (visitSame.mem_iff.mp inB) not_mem_nil] at le
    exact le
  obtain ⟨m', entries, loaded⟩ := state.loadEntries recorded
    (fun b => by rw [visitSame.mem_iff]; simp) (visitSame.nodup_iff.mpr recorded.nodup)
    (nofun) heights (nofun) nofun
  refine ⟨m', ?_, loaded.restored recorded fun b => ?_⟩
  · rw [BlockManager.loadBlockIndex, guts]
    change loadEntries m none (sort _ m.keys) = _
    rw [isVisit]
    exact entries
  · rw [append_nil, mem_reverse, visitSame.mem_iff]

end BlockManager

end HobbyHash
