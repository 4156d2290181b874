import HobbyHash.Chainstate.Activation

/-! # The best chain is selected

From an index that passes `CheckBlockIndex` and whose active chain was connected,
`ActivateBestChain` returns with a tip that `ConnectBlock` accepts up to the first
block, and that no block with a complete and accepted branch beats. A branch that
carries a mark from before the call is left aside by design.
-/

namespace HobbyHash

open CBlockIndex

namespace ChainstateManager

variable {env : IndexEnv} {connector : BlockConnector} {s s' : ChainstateManager}
  {tip : CBlockIndex}

/-- What `ActivateBestChain` is entered with: the active chain and the candidates
    are entries of the index, and the active chain was connected. -/
structure Connected (connector : BlockConnector) (s : ChainstateManager) (tip : CBlockIndex) :
    Prop where
  isTip : s.tip = some tip
  known : tip ∈ s.blocks
  candidates : ∀ c ∈ s.setBlockIndexCandidates, c ∈ s.blocks
  complete : s.Complete tip
  sound : s.Sound tip
  accepted : ∀ a, Ancestor a tip → connector.accepts a = true

theorem exists_genesis (b : CBlockIndex) : ∃ f, Ancestor (genesis f) b := by
  induction b with
  | genesis f => exact ⟨f, .refl⟩
  | child p f ih =>
    obtain ⟨g, lt⟩ := ih
    exact ⟨g, .step lt⟩

theorem Consistent.grounded (consistent : s.Consistent env tip) : s.Grounded where
  closed := consistent.closed
  rooted := by
    intro a aKnown b bKnown
    obtain ⟨f, belowA⟩ := exists_genesis a
    obtain ⟨g, belowB⟩ := exists_genesis b
    have fKnown := mem_blocks_of_ancestor consistent.closed aKnown belowA
    have gKnown := mem_blocks_of_ancestor consistent.closed bKnown belowB
    have eq : genesis f = genesis g :=
      Ancestor.unique (consistent.genesisActive f fKnown) (consistent.genesisActive g gKnown) rfl
    exact ⟨genesis f, belowA, eq ▸ belowB⟩
  parent := by
    intro p f known linked
    have complete := (consistent.linked _ known).mp linked
    exact (consistent.linked p (consistent.closed p f known)).mpr (complete_child.mp complete).1
  received := by
    intro b known linked
    exact (consistent.linked b known).mp linked b .refl

theorem Connected.underway (conn : Connected connector s tip)
    (consistent : s.Consistent env tip) : Underway env connector s tip tip := by
  have linked := (consistent.linked tip conn.known).mpr conn.complete
  have good : s.worse env tip tip = false := not_worse_iff.mpr le_rfl
  have children : ∀ p f, Ancestor (child p f) tip → connector.accepts (child p f) = true :=
    fun p f below => conn.accepted _ below
  constructor
  case isTip => exact conn.isTip
  case grounded => exact consistent.grounded
  case failed => exact consistent.failed
  case tipKnown => exact conn.known
  case tipLinked => exact linked
  case tipUnmarked =>
    intro a below
    exact consistent.failed a (mem_blocks_of_ancestor consistent.closed conn.known below)
      (conn.sound.ancestor below)
  case tipAccepted => exact children
  case floorCandidate => exact consistent.candidate tip conn.known good linked conn.sound
  case floorSound => exact conn.sound
  case floorAccepted => exact children
  case candidates =>
    intro c mem
    obtain ⟨good, linked⟩ := consistent.onlyCandidates c (conn.candidates c mem) mem
    exact ⟨conn.candidates c mem, linked, not_worse_iff.mp good⟩
  case complete =>
    intro b known linked sound good
    exact consistent.candidate b known (not_worse_iff.mpr good) linked sound
  case below => exact fun _ => le_rfl

/-- `ActivateBestChain` ends with the best chain whose blocks connect. -/
theorem activateBestChain_selects (connected : Connected connector s tip)
    (checked : s.checkBlockIndex env = .ok ()) :
    ∃ enough, ∀ passes, enough ≤ passes → ∃ s' tip',
      s.activateBestChain env connector passes = .ok (some s') ∧ s'.tip = some tip' ∧
      tip' ∈ s.blocks ∧ (∀ a, Ancestor a tip' → connector.accepts a = true) ∧
      (∀ b ∈ s.blocks, s.Complete b → (∀ a, Ancestor a b → connector.accepts a = true) →
        s.Sound b → s'.worse env tip' b = false) ∧
      ∀ b, (s.nStatus b).failedValid = false → (s'.nStatus b).failedValid = true →
        ¬ Ancestor b tip' := by
  have consistent := consistent_of_check connected.isTip checked
  obtain ⟨enough, ends⟩ := activateBestChain_spec (connected.underway consistent)
  refine ⟨enough, fun passes many => ?_⟩
  obtain ⟨s', returned, tip', floor, underway, writes, isTarget⟩ := ends passes many
  have known : tip' ∈ s.blocks := writes.frame.blocks ▸ underway.tipKnown
  have accepted : ∀ a, Ancestor a tip' → connector.accepts a = true := by
    intro a below
    cases a with
    | genesis f =>
      have inIndex := mem_blocks_of_ancestor consistent.closed known below
      exact connected.accepted _ (consistent.genesisActive f inIndex)
    | child p f => exact underway.tipAccepted p f below
  refine ⟨s', tip', returned, underway.isTip, known, accepted, ?_, ?_⟩
  · intro b inIndex complete connects sound
    rw [not_worse_iff]
    have linked : s'.Linked b :=
      writes.frame.linked.mpr ((consistent.linked b inIndex).mpr complete)
    obtain good | bad := le_total (s'.rank env floor) (s'.rank env b)
    · exact isTarget.best b (underway.complete b (writes.frame.blocks ▸ inIndex) linked
        (writes.sound_after sound connects) good)
    · exact bad.trans (isTarget.best floor underway.floorCandidate)
  intro b before after below
  obtain kept | ⟨-, refused⟩ := writes.failedValid b
  · rw [before, after] at kept
    cases kept
  · cases (accepted b below).symm.trans refused

/-- A small tree: two blocks of the same work above the first one, and a longer
    branch of two blocks. -/
def exampleRoot : CBlockIndex := genesis (exampleFields 1)

def exampleShort : CBlockIndex := child exampleRoot (exampleFields 2)

def exampleOther : CBlockIndex := child exampleRoot (exampleFields 3)

def exampleLow : CBlockIndex := child exampleRoot (exampleFields 4)

def exampleLong : CBlockIndex := child exampleLow (exampleFields 5)

/-- A linked entry, which is the `count`-th of its branch and of the order of
    arrival. -/
def linkedEntry (count : Nat) (nSequenceId : Int) : BlockEntry :=
  { nStatus := { validity := .scripts, haveData := true }
    nTx := 1
    nChainTx := count
    nSequenceId }

def ofEntries (entries : List (CBlockIndex × BlockEntry)) (candidates : List CBlockIndex)
    (tip : Option CBlockIndex) : ChainstateManager :=
  { empty with
    blocks := entries.map Prod.fst
    entry := fun b => (entries.lookup b).getD {}
    setBlockIndexCandidates := candidates
    tip }

/-- The tree with the shorter branch active. -/
def exampleIndex (active : BlockEntry) (low : BlockEntry) (candidates : List CBlockIndex) :
    ChainstateManager :=
  ofEntries
    [(exampleRoot, linkedEntry 1 0), (exampleShort, active), (exampleOther, linkedEntry 2 2),
      (exampleLow, low), (exampleLong, linkedEntry 3 4)]
    candidates (some exampleShort)

def refusing (refused : Option CBlockIndex) : BlockConnector where
  accepts b := decide (some b ≠ refused)
  undoPos _ := 0

def finalTip (connector : BlockConnector) (s : ChainstateManager) : Option (Option CBlockIndex) :=
  (s.activateBestChain exampleEnv connector 8).toOption.join.map (·.tip)

/-- The short branch is active, and both it and the longer one are candidates. -/
def exampleActive : ChainstateManager :=
  exampleIndex (linkedEntry 2 1) (linkedEntry 2 3) [exampleShort, exampleLong]

theorem connected_exampleActive :
    Connected (refusing (some exampleLong)) exampleActive exampleShort := by
  have path : ∀ a ∈ exampleShort.path, (exampleActive.nStatus a).haveData = true ∧
      (exampleActive.nStatus a).failedValid = false ∧
      (refusing (some exampleLong)).accepts a = true := by decide +kernel
  constructor
  case isTip => rfl
  case known => decide +kernel
  case candidates => decide +kernel
  case complete => exact fun a lt => (path a (mem_path.mpr lt)).1
  case sound => exact fun a lt => (path a (mem_path.mpr lt)).2.1
  case accepted => exact fun a lt => (path a (mem_path.mpr lt)).2.2

theorem activateBestChain_selects_example :
    ∃ enough, ∀ passes, enough ≤ passes → ∃ s' tip',
      exampleActive.activateBestChain exampleEnv (refusing (some exampleLong)) passes =
        .ok (some s') ∧
      s'.tip = some tip' ∧ tip' ∈ exampleActive.blocks ∧
      (∀ a, Ancestor a tip' → (refusing (some exampleLong)).accepts a = true) ∧
      (∀ b ∈ exampleActive.blocks, exampleActive.Complete b →
        (∀ a, Ancestor a b → (refusing (some exampleLong)).accepts a = true) →
        exampleActive.Sound b → s'.worse exampleEnv tip' b = false) ∧
      ∀ b, (exampleActive.nStatus b).failedValid = false → (s'.nStatus b).failedValid = true →
        ¬ Ancestor b tip' :=
  activateBestChain_selects connected_exampleActive (by decide +kernel)

/-- The check passes, and `ActivateBestChain` returns with a tip that is worse than
    a block whose branch is complete and accepted. -/
def Misses (connector : BlockConnector) (s : ChainstateManager) (tip better : CBlockIndex) : Prop :=
  s.checkBlockIndex exampleEnv = .ok () ∧ finalTip connector s = some (some tip) ∧
    better ∈ s.blocks ∧
    (∀ a ∈ better.path, (s.nStatus a).haveData = true ∧ connector.accepts a = true) ∧
    s.worse exampleEnv tip better = true

instance (connector : BlockConnector) (s : ChainstateManager) (tip better : CBlockIndex) :
    Decidable (Misses connector s tip better) :=
  inferInstanceAs (Decidable (_ ∧ _))

def markedEntry (e : BlockEntry) : BlockEntry :=
  { e with nStatus := { e.nStatus with failedValid := true } }

/-- Where the tip is not the best block that connects: there is no active chain; it
    is not accepted; the better branch carries a mark; the active chain carries a
    mark; the active chain has no data. -/
theorem activateBestChain_misses :
    ((ofEntries [(exampleRoot, linkedEntry 1 0)] [] none).checkBlockIndex exampleEnv = .ok () ∧
      finalTip (refusing none) (ofEntries [(exampleRoot, linkedEntry 1 0)] [] none) = some none) ∧
    ((ofEntries [(exampleRoot, linkedEntry 1 0)] [exampleRoot] (some exampleRoot)).checkBlockIndex
        exampleEnv = .ok () ∧
      finalTip (refusing (some exampleRoot))
        (ofEntries [(exampleRoot, linkedEntry 1 0)] [exampleRoot]
        (some exampleRoot)) = some (some exampleRoot)) ∧
    Misses (refusing none)
      (exampleIndex (linkedEntry 2 1) (markedEntry (linkedEntry 2 3)) [exampleShort])
      exampleShort exampleLong ∧
    Misses (refusing (some exampleLong))
      (exampleIndex (markedEntry (linkedEntry 2 1)) (linkedEntry 2 3) [exampleLong])
      exampleLow exampleOther ∧
    Misses (refusing (some exampleLong))
      (exampleIndex { nStatus := { validity := .tree } } (linkedEntry 2 3) [exampleLong])
      exampleLow exampleOther := by
  decide +kernel

end ChainstateManager

end HobbyHash
