import HobbyHash.Chainstate.MostWork

/-! # ActivateBestChain

The two nested loops of `ActivateBestChain` end: every pass connects a block
towards its target or marks a block as failed. When they end the tip is a block
that no candidate beats, and by then the candidates have lost only blocks that
failed and blocks that are worse than the tip.
-/

namespace HobbyHash

open Machine CBlockIndex List

variable {f : HeaderFields} (pindexOldTip : Option CBlockIndex) {highest fork : CBlockIndex}
  {s₁ : ChainstateManager} {a : Activation}

namespace ChainstateManager

variable {env : IndexEnv} {connector : BlockConnector} {s s' : ChainstateManager}
  {tip floor b target : CBlockIndex}

theorem walkToChain_spec (isTip : s.tip = some tip) (meets : ∃ g, Ancestor g b ∧ Ancestor g tip) :
    ∃ fork, s.walkToChain b = some fork ∧ Ancestor fork b ∧ Ancestor fork tip ∧
      ∀ a, Ancestor a b → Ancestor a tip → Ancestor a fork := by
  induction b with
  | genesis f =>
    obtain ⟨g, lt, active⟩ := meets
    cases lt with
    | refl =>
      refine ⟨_, ?_, .refl, active, fun a lt _ => lt⟩
      rw [walkToChain, if_pos ((contains_iff isTip).mpr active)]
  | child p f ih =>
    by_cases active : Ancestor (child p f) tip
    · refine ⟨_, ?_, .refl, active, fun a lt _ => lt⟩
      rw [walkToChain, if_pos ((contains_iff isTip).mpr active)]
    have proper : ∀ a, Ancestor a (child p f) → Ancestor a tip → Ancestor a p := by
      intro a lt onChain
      refine lt.pprev ?_
      rintro rfl
      exact active onChain
    obtain ⟨g, lt, onChain⟩ := meets
    obtain ⟨fork, found, lower, forkActive, highest⟩ := ih ⟨g, proper g lt onChain, onChain⟩
    refine ⟨fork, ?_, .step lower, forkActive, fun a lt onChain =>
      highest a (proper a lt onChain) onChain⟩
    rw [walkToChain, if_neg (fun inside => active ((contains_iff isTip).mp inside)), found]

theorem findFork_spec (isTip : s.tip = some tip) (meets : ∃ g, Ancestor g b ∧ Ancestor g tip) :
    ∃ fork, s.findFork b = some fork ∧ Ancestor fork b ∧ Ancestor fork tip ∧
      ∀ a, Ancestor a b → Ancestor a tip → Ancestor a fork := by
  simp only [findFork, isTip]
  split
  · obtain ⟨x, found, lt, height⟩ :=
      getAncestor_isSome (Int.natCast_nonneg tip.nHeight) (b := b) (by omega)
    have through : ∀ a, Ancestor a b → Ancestor a tip → Ancestor a x := by
      intro a lower active
      have := active.nHeight_le
      exact Ancestor.total lower lt (by omega)
    obtain ⟨g, lower, active⟩ := meets
    obtain ⟨fork, walked, forkBelow, forkActive, highest⟩ :=
      walkToChain_spec isTip ⟨g, through g lower active, active⟩
    refine ⟨fork, ?_, forkBelow.trans lt, forkActive, fun a lower active =>
      highest a (through a lower active) active⟩
    rw [found, Option.bind_some, walked]
  · exact walkToChain_spec isTip meets

theorem disconnectTo_eq (lt : Ancestor fork tip) :
    disconnectTo (some fork) tip = .ok fork := by
  induction tip with
  | genesis f =>
    cases lt with
    | refl => rw [disconnectTo, if_pos rfl]
  | child p f ih =>
    rw [disconnectTo]
    split
    · rename_i same
      cases same
      rfl
    · rename_i other
      exact ih (lt.pprev fun same => other (same ▸ rfl))

theorem Underway.disconnect (underway : Underway env connector s tip floor)
    (below : Ancestor fork tip) :
    Underway env connector { s with tip := some fork } fork floor ∧
      Writes env connector s { s with tip := some fork } := by
  induction below generalizing s with
  | refl =>
    have same : { s with tip := some fork } = s := by
      rw [← underway.isTip]
    rw [same]
    exact ⟨underway, .refl⟩
  | @step p f _ ih =>
    have one : Underway env connector { s with tip := some p } p floor := by
      refine { underway with isTip := rfl, grounded := ?_, tipKnown := ?_, tipLinked := ?_,
                             tipUnmarked := ?_, tipAccepted := ?_, below := ?_ }
      · exact underway.grounded.frame (.aside s _ _ _ _ _)
      · exact underway.grounded.closed p f underway.tipKnown
      · exact underway.grounded.parent p f underway.tipKnown underway.tipLinked
      · exact fun a lower => underway.tipUnmarked a (.step lower)
      · exact fun q g lower => underway.tipAccepted q g (.step lower)
      · exact fun rising =>
          (rank_lt_of_rising rising underway.tipKnown).le.trans (underway.below rising)
    obtain ⟨underway', writes⟩ := ih one
    exact ⟨underway', .head (.disconnect underway.isTip) writes⟩

theorem Sound.of_unmarked (unmarked : ∀ a, Ancestor a b → (s.nStatus a).failed = false) :
    s.Sound b :=
  fun a lt => (Bool.or_eq_false_iff.mp (unmarked a lt)).1

theorem pruneBlockIndexCandidates_eq (isTip : s.tip = some tip)
    (mem : c ∈ s.setBlockIndexCandidates) (le : s.rank env tip ≤ s.rank env c) :
    s.pruneBlockIndexCandidates env =
      .ok { s with setBlockIndexCandidates :=
        s.setBlockIndexCandidates.filter fun c => !s.worse env c tip } := by
  have kept : c ∈ s.setBlockIndexCandidates.filter fun c => !s.worse env c tip :=
    mem_filter.mpr ⟨mem, by rw [not_worse_iff.mpr le]; rfl⟩
  have ne : (s.setBlockIndexCandidates.filter fun c => !s.worse env c tip).isEmpty = false :=
    isEmpty_eq_false_iff_exists_mem.mpr ⟨c, kept⟩
  simp only [pruneBlockIndexCandidates, isTip, ne]
  rfl

/-- The floor after a block was connected: the block, or the old floor if that is
    better. -/
theorem Underway.raise (underway : Underway env connector s tip floor)
    (known : child tip f ∈ s.blocks) (linked : s.Linked (child tip f))
    (sound : s.Sound (child tip f)) (accepted : connector.accepts (child tip f) = true) :
    ∃ floor' ∈ s.setBlockIndexCandidates, s.Sound floor' ∧
      (∀ p g, Ancestor (child p g) floor' → connector.accepts (child p g) = true) ∧
      s.rank env floor ≤ s.rank env floor' ∧ s.rank env (child tip f) ≤ s.rank env floor' ∧
      ∀ c ∈ s.setBlockIndexCandidates, s.rank env (child tip f) ≤ s.rank env c →
        s.rank env floor' ≤ s.rank env c := by
  obtain lower | higher := le_total (s.rank env (child tip f)) (s.rank env floor)
  · exact ⟨floor, underway.floorCandidate, underway.floorSound, underway.floorAccepted,
      le_rfl, lower,
      fun c mem _ => (underway.candidates c mem).2.2⟩
  refine ⟨child tip f, underway.complete _ known linked sound higher, sound, ?_, higher, le_rfl,
    fun c _ good => good⟩
  intro p g lt
  cases lt with
  | refl => exact accepted
  | step lt => exact underway.tipAccepted p g lt

/-- Connecting a block and dropping the candidates that are worse. -/
theorem Underway.connect (underway : Underway env connector s tip floor)
    (known : child tip f ∈ s.blocks) (linked : s.Linked (child tip f))
    (unmarked : ∀ a, Ancestor a (child tip f) → (s.nStatus a).failed = false)
    (accepted : connector.accepts (child tip f) = true) :
    ∃ s', ({ s.recordConnected env connector (child tip f) with
          tip := some (child tip f) } : ChainstateManager).pruneBlockIndexCandidates env = .ok s' ∧
      (∃ floor', Underway env connector s' (child tip f) floor') ∧ Writes env connector s s' ∧
      (∀ a, (s'.nStatus a).failed = (s.nStatus a).failed) ∧
      ∀ c ∈ s'.setBlockIndexCandidates, c ∈ s.setBlockIndexCandidates := by
  obtain ⟨floor', mem, floorSound, floorAccepted, raised, good, lowest⟩ :=
    underway.raise known linked (.of_unmarked unmarked) accepted
  have write := @Write.connect env _ _ _ _ underway.isTip known linked (unmarked _ .refl) accepted
  have frame := write.frame
  have sounds : ∀ a, (s.recordConnected env connector (child tip f)).Sound a ↔ s.Sound a :=
    fun a => forall₂_congr fun x _ => Eq.congr_left marks_recordConnected.1
  have kept : (s.recordConnected env connector (child tip f)).setBlockIndexCandidates
      = s.setBlockIndexCandidates := by
    obtain ⟨entry, only⟩ := @recordConnected_eq env connector s (child tip f)
    rw [only]
  have left : ∀ c,
    (c ∈ (s.recordConnected env connector (child tip f)).setBlockIndexCandidates.filter
      fun c => !(s.recordConnected env connector (child tip f)).worse env c (child tip f)) ↔
      c ∈ s.setBlockIndexCandidates ∧ s.rank env (child tip f) ≤ s.rank env c := by
    intro c
    rw [mem_filter, kept, Bool.not_eq_true', not_worse_iff, frame_recordConnected.rank]
  refine ⟨_, pruneBlockIndexCandidates_eq rfl (kept ▸ mem) (by rw [frame.rank]; exact good),
    ⟨floor', ?_⟩, .tail (.single write) (.aside _ _ _), fun a => failed_recordConnected,
    fun c lt => ((left c).mp lt).1⟩
  constructor
  case isTip => rfl
  case grounded => exact underway.grounded.frame (frame.trans (.aside _ _ _ _ _ _))
  case failed =>
    intro c inIdx sound
    exact failed_recordConnected.trans (underway.failed c (frame.blocks ▸ inIdx) ((sounds c).mp sound))
  case tipKnown => exact frame.blocks ▸ known
  case tipLinked => exact frame.linked.mpr linked
  case tipUnmarked => exact fun a below => failed_recordConnected.trans (unmarked a below)
  case tipAccepted =>
    intro p g below
    cases below with
    | refl => exact accepted
    | step below => exact underway.tipAccepted p g below
  case floorCandidate => exact (left floor').mpr ⟨mem, good⟩
  case floorSound => exact (sounds floor').mpr floorSound
  case floorAccepted => exact floorAccepted
  case candidates =>
    intro c lt
    obtain ⟨lt, le⟩ := (left c).mp lt
    obtain ⟨inIdx, isLinked, -⟩ := underway.candidates c lt
    refine ⟨frame.blocks ▸ inIdx, frame.linked.mpr isLinked, ?_⟩
    exact (frame.rank ▸ lowest c lt le :)
  case complete =>
    intro c inIdx isLinked sound le
    have le : s.rank env floor' ≤ s.rank env c := (frame.rank ▸ le :)
    refine (left c).mpr ⟨?_, good.trans le⟩
    exact underway.complete c (frame.blocks ▸ inIdx) (frame.linked.mp isLinked)
      ((sounds c).mp sound) (raised.trans le)
  case below => exact fun _ => (frame.rank ▸ good :)

theorem Target.congr (isTarget : Target env s target) (frame : Frame s s')
    (marks : ∀ a, (s'.nStatus a).failed = (s.nStatus a).failed)
    (fewer : ∀ c ∈ s'.setBlockIndexCandidates, c ∈ s.setBlockIndexCandidates) :
    Target env s' target where
  known := frame.blocks ▸ isTarget.known
  linked := frame.linked.mpr isTarget.linked
  unmarked := fun a lt => (marks a).trans (isTarget.unmarked a lt)
  best := by
    intro c mem
    rw [frame.rank]
    exact isTarget.best c (fewer c mem)

def unmarkedBlocks (s : ChainstateManager) : Nat :=
  (s.blocks.filter fun b => !(s.nStatus b).failedValid).length

theorem Writes.unmarked_sublist (writes : Writes env connector s s') :
    (s'.blocks.filter fun b => !(s'.nStatus b).failedValid).Sublist
      (s.blocks.filter fun b => !(s.nStatus b).failedValid) := by
  rw [writes.frame.blocks]
  refine monotone_filter_right _ fun b unmarked => ?_
  obtain kept | ⟨marked, -⟩ := writes.failedValid b
  · rw [← kept]
    exact unmarked
  · rw [marked] at unmarked
    cases unmarked

theorem Writes.unmarkedBlocks_le (writes : Writes env connector s s') :
    s'.unmarkedBlocks ≤ s.unmarkedBlocks :=
  writes.unmarked_sublist.length_le

theorem Writes.unmarkedBlocks_lt (writes : Writes env connector s s') (known : b ∈ s.blocks)
    (before : (s.nStatus b).failedValid = false) (after : (s'.nStatus b).failedValid = true) :
    s'.unmarkedBlocks < s.unmarkedBlocks := by
  refine lt_of_le_of_ne writes.unmarkedBlocks_le fun same => ?_
  have mem : b ∈ s.blocks.filter fun b => !(s.nStatus b).failedValid :=
    mem_filter.mpr ⟨known, by rw [before]; rfl⟩
  rw [← writes.unmarked_sublist.eq_of_length same] at mem
  have unmarked := (mem_filter.mp mem).2
  rw [after] at unmarked
  cases unmarked

theorem invalidChainFound_eq (isTip : s.tip = some tip) :
    ∃ bestInvalid bestHeader, s.invalidChainFound b = .ok { s with bestInvalid, bestHeader } := by
  rw [invalidChainFound, isTip]
  exact ⟨_, _, rfl⟩

theorem invalidBlockFound_spec (underway : Underway env connector s tip floor)
    (mem : child tip f ∈ s.blocks) (refused : connector.accepts (child tip f) = false) :
    ∃ s', s.invalidBlockFound (child tip f) = .ok s' ∧ Underway env connector s' tip floor ∧
      Writes env connector s s' ∧ (s'.nStatus (child tip f)).failedValid = true := by
  obtain ⟨bestInvalid, bestHeader, found⟩ := @invalidChainFound_eq
    { (s.markFailed (child tip f)).eraseCandidate (child tip f) with
      failedBlocks := s.failedBlocks.insert (child tip f) } tip (child tip f) underway.isTip
  refine ⟨_, found, ?_, ?_, ?_⟩
  · have marked := (underway.refuse refused).note bestInvalid bestHeader
    exact { marked with grounded := marked.grounded.frame (.aside _ _ _ _ _ _) }
  · exact .tail (.single (.refuse underway.isTip mem refused)) (.aside _ _ _)
  · exact failedValid_markFailed.mpr (.inl rfl)

theorem drop_path (lt : Ancestor tip highest) :
    (tip = highest ∧ highest.path.drop (tip.nHeight + 1) = []) ∨
    ∃ f, Ancestor (child tip f) highest ∧ highest.path.drop (tip.nHeight + 1) =
      child tip f :: highest.path.drop ((child tip f).nHeight + 1) := by
  induction lt with
  | refl => exact .inl ⟨rfl, drop_eq_nil_of_le (length_path tip).le⟩
  | @step p f lt ih =>
    right
    obtain ⟨rfl, empty⟩ | ⟨g, above, rest⟩ := ih
    · refine ⟨f, .refl, ?_⟩
      rw [path, drop_append_of_le_length (by rw [length_path]), empty,
        drop_eq_nil_of_le (by simp [length_path])]
      rfl
    have shorter := above.nHeight_le
    rw [nHeight_child] at shorter
    refine ⟨g, .step above, ?_⟩
    rw [path, drop_append_of_le_length (by rw [length_path]; omega), rest,
      drop_append_of_le_length (by rw [length_path, nHeight_child]; omega)]
    rfl

def Reached (env : IndexEnv) (s s' : ChainstateManager) (tip tip' highest target : CBlockIndex) :
    Progress → Prop
  | .connectedAll => Target env s' target ∧ tip' = highest
  | .betterThanBefore => Target env s' target ∧ Ancestor tip' highest ∧ tip.nHeight < tip'.nHeight
  | .invalidFound => s'.unmarkedBlocks < s.unmarkedBlocks

theorem Reached.after {tip₁ tip' progress}
    (reached : Reached env s₁ s' tip₁ tip' highest target progress)
    (writes : Writes env connector s s₁) (le : tip.nHeight ≤ tip₁.nHeight) :
    Reached env s s' tip tip' highest target progress := by
  cases progress with
  | connectedAll => exact reached
  | betterThanBefore =>
    obtain ⟨isTarget, lt, advanced⟩ := reached
    exact ⟨isTarget, lt, le.trans_lt advanced⟩
  | invalidFound => exact reached.trans_le writes.unmarkedBlocks_le

theorem connectTip_accepted (isTip : s.tip = some tip)
    (accepted : connector.accepts (child tip f) = true) :
    s.connectTip env connector (child tip f) =
      .ok ({ s.recordConnected env connector (child tip f) with tip := some (child tip f) }, true) := by
  rw [connectTip, isTip, CBlockIndex.pprev, beq_self_eq_true, if_pos accepted]
  rfl

theorem connectTip_refused (isTip : s.tip = some tip)
    (refused : connector.accepts (child tip f) = false)
    (found : s.invalidBlockFound (child tip f) = .ok s') :
    s.connectTip env connector (child tip f) = .ok (s', false) := by
  rw [connectTip, isTip, CBlockIndex.pprev, beq_self_eq_true, refused, found]
  rfl

theorem connectBlocks_spec (underway : Underway env connector s tip floor)
    (isTarget : Target env s target) (lt : Ancestor tip highest)
    (toTarget : Ancestor highest target) :
    ∃ s' progress tip' floor', connectBlocks env connector pindexOldTip highest s
        (highest.path.drop (tip.nHeight + 1)) = .ok (s', progress) ∧
      Underway env connector s' tip' floor' ∧ Writes env connector s s' ∧
      Reached env s s' tip tip' highest target progress := by
  induction blocks : highest.path.drop (tip.nHeight + 1) generalizing s tip floor with
  | nil =>
    obtain ⟨rfl, -⟩ | ⟨f, -, more⟩ := drop_path lt
    · exact ⟨s, .connectedAll, tip, floor, rfl, underway, .refl, isTarget, rfl⟩
    · cases blocks.symm.trans more
  | cons next rest ih =>
    obtain ⟨-, empty⟩ | ⟨f, above, more⟩ := drop_path lt
    · cases blocks.symm.trans empty
    rw [blocks] at more
    obtain ⟨rfl, rfl⟩ := cons.inj more
    have below' := above.trans toTarget
    have known := underway.grounded.known isTarget.known below'
    have unmarked : ∀ a, Ancestor a (child tip f) → (s.nStatus a).failed = false :=
      fun a lower => isTarget.unmarked a (lower.trans below')
    rw [connectBlocks]
    cases accepted : connector.accepts (child tip f) with
    | true =>
      rw [connectTip_accepted underway.isTip accepted]
      obtain ⟨s₁, pruned, ⟨floor₁, underway₁⟩, writes, marks, fewer⟩ := underway.connect known
        (underway.grounded.linked isTarget.known isTarget.linked below') unmarked accepted
      have isTarget₁ := isTarget.congr writes.frame marks fewer
      simp only [ok_bind, pruned]
      split
      · exact ⟨s₁, .betterThanBefore, _, floor₁, rfl, underway₁, writes, isTarget₁, above,
          by rw [nHeight_child]; omega⟩
      · obtain ⟨s', progress, tip', floor', run, underway', writes', reached⟩ :=
          ih underway₁ isTarget₁ above rfl
        exact ⟨s', progress, tip', floor', run, underway', writes.trans writes',
          reached.after writes (Nat.le_succ _)⟩
    | false =>
      obtain ⟨s₁, found, underway₁, writes, marked⟩ :=
        invalidBlockFound_spec underway known accepted
      rw [connectTip_refused underway.isTip accepted found]
      obtain ⟨bestInvalid, bestHeader, noted⟩ :=
        @invalidChainFound_eq s₁ tip highest underway₁.isTip
      refine ⟨_, .invalidFound, tip, floor, ?_, underway₁.note bestInvalid bestHeader,
        writes.tail (.aside _ _ _), ?_⟩
      · simp only [ok_bind, noted]
        rfl
      · exact writes.unmarkedBlocks_lt known
          (Bool.or_eq_false_iff.mp (unmarked _ .refl)).1 marked

/-- What a step towards a target achieves: it gets closer, or it marks a block. -/
def Stepped (env : IndexEnv) (s s' : ChainstateManager) (tip tip' target : CBlockIndex) :
    Bool → Prop
  | false => Target env s' target ∧ Ancestor tip' target ∧
      (Ancestor tip target → tip.nHeight ≤ tip'.nHeight ∧
        (tip ≠ target → tip.nHeight < tip'.nHeight))
  | true => s'.unmarkedBlocks < s.unmarkedBlocks

theorem connectTowards_spec (underway : Underway env connector s tip floor)
    (isTarget : Target env s target) (lt : Ancestor tip target) :
    ∃ s' fInvalidFound tip' floor', connectTowards env connector target pindexOldTip s
        (tip.nHeight + 1) = .ok (s', fInvalidFound) ∧
      Underway env connector s' tip' floor' ∧ Writes env connector s s' ∧
      Stepped env s s' tip tip' target fInvalidFound := by
  induction left : target.nHeight - tip.nHeight using Nat.strong_induction_on
    generalizing s tip floor with
  | _ left ih =>
    rw [connectTowards]
    split
    · dsimp only
      generalize target.ancestorAt (min (tip.nHeight + 1 + 31) target.nHeight) _ = found
      obtain ⟨highest, toTarget, height⟩ := found
      have above : Ancestor tip highest := Ancestor.total lt toTarget (by omega)
      obtain ⟨s₁, progress, tip₁, floor₁, run, underway₁, writes, reached⟩ :=
        connectBlocks_spec pindexOldTip underway isTarget above toTarget
      rw [run]
      cases progress with
      | connectedAll =>
        obtain ⟨isTarget₁, rfl⟩ := reached
        obtain ⟨s', fInvalidFound, tip', floor', run', underway', writes', stepped⟩ :=
          ih (target.nHeight - tip₁.nHeight) (by omega) underway₁ isTarget₁ toTarget rfl
        refine ⟨s', fInvalidFound, tip', floor', ?_, underway', writes.trans writes', ?_⟩
        · rw [height] at run'
          exact run'
        cases fInvalidFound with
        | false =>
          obtain ⟨isTarget', below', advanced⟩ := stepped
          have := (advanced toTarget).1
          exact ⟨isTarget', below', fun _ => ⟨by omega, fun _ => by omega⟩⟩
        | true => exact stepped.trans_le writes.unmarkedBlocks_le
      | betterThanBefore =>
        obtain ⟨isTarget₁, below₁, advanced⟩ := reached
        exact ⟨s₁, false, tip₁, floor₁, rfl, underway₁, writes, isTarget₁, below₁.trans toTarget,
          fun _ => ⟨advanced.le, fun _ => advanced⟩⟩
      | invalidFound => exact ⟨s₁, true, tip₁, floor₁, rfl, underway₁, writes, reached⟩
    · have eq : tip = target := Ancestor.unique lt .refl (by have := lt.nHeight_le; omega)
      exact ⟨s, false, tip, floor, rfl, underway, .refl, isTarget, lt,
        fun _ => ⟨le_rfl, fun other => absurd eq other⟩⟩

theorem activateBestChainStep_spec (underway : Underway env connector s tip floor)
    (isTarget : Target env s target) :
    ∃ s' fInvalidFound tip' floor', s.activateBestChainStep env connector target =
        .ok (s', fInvalidFound) ∧
      Underway env connector s' tip' floor' ∧ Writes env connector s s' ∧
      Stepped env s s' tip tip' target fInvalidFound := by
  obtain ⟨g, low, active⟩ := underway.grounded.rooted target isTarget.known tip underway.tipKnown
  obtain ⟨fork, found, lt, forkActive, highest⟩ := findFork_spec underway.isTip ⟨g, low, active⟩
  obtain ⟨disconnected, writes⟩ := underway.disconnect forkActive
  have isTarget₁ : Target env { s with tip := some fork } target :=
    isTarget.congr writes.frame (fun _ => rfl) fun _ mem => mem
  obtain ⟨s', fInvalidFound, tip', floor', run, underway', writes', stepped⟩ :=
    connectTowards_spec (some tip) disconnected isTarget₁ lt
  refine ⟨s', fInvalidFound, tip', floor', ?_, underway', writes.trans writes', ?_⟩
  · simp only [activateBestChainStep, underway.isTip, found, disconnectTo_eq forkActive]
    exact run
  cases fInvalidFound with
  | false =>
    obtain ⟨isTarget', below', advanced⟩ := stepped
    refine ⟨isTarget', below', fun toTarget => ?_⟩
    have eq : fork = tip := Ancestor.unique forkActive .refl
      (le_antisymm forkActive.nHeight_le (highest tip toTarget .refl).nHeight_le)
    rw [eq] at advanced
    exact advanced toTarget
  | true => exact stepped.trans_le writes.unmarkedBlocks_le

/-- What holds before each pass of the inner loop. -/
def Activating (env : IndexEnv) (connector : BlockConnector) (s : ChainstateManager)
    (a : Activation) : Prop :=
  ∃ tip floor, Underway env connector a.manager tip floor ∧ Writes env connector s a.manager ∧
    (∀ target, a.pindexMostWork = some target → Target env a.manager target ∧ Ancestor tip target) ∧
    (a.blocksConnected = true → a.pindexNewTip = some tip)

/-- What holds when `ActivateBestChain` returns. -/
def Activated (env : IndexEnv) (connector : BlockConnector) (s s' : ChainstateManager) : Prop :=
  ∃ tip floor, Underway env connector s' tip floor ∧ Writes env connector s s' ∧ Target env s' tip

/-- How many blocks may still be marked, and how far the target is. -/
def activationVariant (a : Activation) : Nat ×ₗ WithTop Nat :=
  toLex (a.manager.unmarkedBlocks,
    match a.pindexMostWork, a.manager.tip with
    | some target, some tip => ((target.nHeight - tip.nHeight : Nat) : WithTop Nat)
    | _, _ => ⊤)

theorem mostWorkTarget_spec (underway : Underway env connector a.manager tip floor)
    (targets : ∀ target, a.pindexMostWork = some target →
      Target env a.manager target ∧ Ancestor tip target) :
    ∃ s' target, mostWorkTarget env a = .ok (s', some target) ∧
      Underway env connector s' tip floor ∧ Target env s' target ∧
      Writes env connector a.manager s' ∧
      (a.pindexMostWork = none ∨ a.pindexMostWork = some target ∧ Ancestor tip target) := by
  cases known : a.pindexMostWork with
  | some target =>
    obtain ⟨isTarget, lt⟩ := targets target known
    exact ⟨a.manager, target, by rw [mostWorkTarget, known], underway, isTarget, .refl,
      .inr ⟨rfl, lt⟩⟩
  | none =>
    obtain ⟨s', target, found, underway', isTarget, writes⟩ := findMostWork_spec underway le_rfl
    exact ⟨s', target, by rw [mostWorkTarget, known]; exact found, underway', isTarget, writes,
      .inl rfl⟩

theorem leaveInnerLoop_afterStep (a : Activation) (isTip : s'.tip = some tip)
    (fInvalidFound : Bool) :
    (leaveInnerLoop (a.afterStep s' target fInvalidFound) = .inr s' ∧ fInvalidFound = false ∧
      tip = target) ∨
    ∃ startingTip, leaveInnerLoop (a.afterStep s' target fInvalidFound) =
      .inl { a.afterStep s' target fInvalidFound with startingTip, blocksConnected := false } := by
  rw [leaveInnerLoop]
  split
  · rename_i ends
    left
    have same : s'.tip = if fInvalidFound then none else some target := by
      simpa only [Activation.afterStep, Bool.not_true, Bool.false_or, beq_iff_eq] using ends
    rw [isTip] at same
    cases fInvalidFound with
    | true => cases same
    | false => exact ⟨rfl, rfl, Option.some.inj same⟩
  · exact .inr ⟨_, rfl⟩

/-- A step marks a block, finds a target or comes closer to it. -/
theorem activationVariant_lt (isTip : a.manager.tip = some tip)
    (isTip' : a'.manager.tip = some tip')
    (next : a'.pindexMostWork = if fInvalidFound then none else some target)
    (known : a.pindexMostWork = none ∨ a.pindexMostWork = some target ∧ Ancestor tip target)
    (le : s₁.unmarkedBlocks ≤ a.manager.unmarkedBlocks)
    (writes : Writes env connector s₁ a'.manager) (ne : tip ≠ target)
    (stepped : Stepped env s₁ a'.manager tip tip' target fInvalidFound) :
    activationVariant a' < activationVariant a := by
  rw [activationVariant, activationVariant, next, isTip', isTip]
  cases fInvalidFound with
  | true => exact Prod.Lex.toLex_lt_toLex.mpr (.inl (stepped.trans_le le))
  | false =>
    refine Prod.Lex.toLex_lt_toLex'.mpr ⟨writes.unmarkedBlocks_le.trans le, fun _ => ?_⟩
    obtain ⟨-, below', advanced⟩ := stepped
    obtain absent | ⟨present, lt⟩ := known
    · rw [absent]
      exact WithTop.coe_lt_top _
    · rw [present]
      have closer := (advanced lt).2 ne
      have := below'.nHeight_le
      exact Nat.cast_lt.mpr (by omega)

theorem activationPass_spec (activating : Activating env connector s a) :
    ∃ next, activationPass env connector a = .ok next ∧
      Sum.elim (fun a' => Activating env connector s a' ∧ activationVariant a' < activationVariant a)
        (Activated env connector s) next := by
  obtain ⟨tip, floor, underway, writes, targets, newTip⟩ := activating
  obtain ⟨s₁, target, found, underway₁, isTarget, writes₁, known⟩ :=
    mostWorkTarget_spec underway targets
  rw [activationPass, found]
  by_cases arrived : s₁.tip = some target
  · have eq : tip = target := Option.some.inj (underway₁.isTip.symm.trans arrived)
    subst eq
    refine ⟨.inr s₁, ?_, tip, floor, underway₁, writes.trans writes₁, isTarget⟩
    have ends : (!a.blocksConnected || a.pindexNewTip == some tip) = true := by
      cases conn : a.blocksConnected with
      | false => rfl
      | true => rw [newTip conn, beq_self_eq_true, Bool.or_true]
    change (if s₁.tip = some tip then _ else _) = _
    rw [if_pos arrived, leaveInnerLoop, if_pos ends]
    rfl
  · have ne : tip ≠ target := fun eq => arrived (eq ▸ underway₁.isTip)
    obtain ⟨s₂, fInvalidFound, tip₂, floor₂, step, underway₂, writes₂, stepped⟩ :=
      activateBestChainStep_spec underway₁ isTarget
    have targets₂ : ∀ next, (if fInvalidFound then none else some target) = some next →
        Target env s₂ next ∧ Ancestor tip₂ next := by
      intro next isNext
      cases fInvalidFound with
      | true => cases isNext
      | false =>
        cases isNext
        exact ⟨stepped.1, stepped.2.1⟩
    have writes' := (writes.trans writes₁).trans writes₂
    have advance (startingTip : Option CBlockIndex) (blocksConnected : Bool) :
        Activating env connector s
            { a.afterStep s₂ target fInvalidFound with startingTip, blocksConnected } ∧
          activationVariant
            { a.afterStep s₂ target fInvalidFound with startingTip, blocksConnected } <
              activationVariant a :=
      ⟨⟨tip₂, floor₂, underway₂, writes', targets₂, fun _ => underway₂.isTip⟩,
        activationVariant_lt underway.isTip underway₂.isTip rfl known writes₁.unmarkedBlocks_le
          writes₂ ne stepped⟩
    change ∃ next, (if s₁.tip = some target then _ else _) = _ ∧ _
    rw [if_neg arrived, step]
    change ∃ next,
      (if worseThanStart env (a.afterStep s₂ target fInvalidFound) then _ else _) = _ ∧ _
    split
    · exact ⟨_, rfl, advance _ _⟩
    obtain ⟨leaves, found, arrives⟩ | ⟨startingTip, again⟩ :=
      @leaveInnerLoop_afterStep s₂ tip₂ target a underway₂.isTip fInvalidFound
    · subst found arrives
      refine ⟨.inr s₂, ?_, tip₂, floor₂, underway₂, writes', stepped.1⟩
      rw [leaves]
      rfl
    · exact ⟨_, congrArg Except.ok again, advance startingTip false⟩

theorem activating_start (underway : Underway env connector s tip floor) :
    Activating env connector s
      { manager := s
        pindexMostWork := none
        pindexNewTip := none
        startingTip := s.tip
        blocksConnected := false } := by
  refine ⟨tip, floor, underway, .refl, ?_, ?_⟩
  · nofun
  · nofun

theorem activateBestChain_spec (underway : Underway env connector s tip floor) :
    ∃ enough, ∀ passes, enough ≤ passes → ∃ s',
      s.activateBestChain env connector passes = .ok (some s') ∧ Activated env connector s s' := by
  exact Library.Loop.total wellFounded_lt activationVariant (Activating env connector s)
    (fun a activating => activationPass_spec activating) (activating_start underway)

end ChainstateManager

end HobbyHash
