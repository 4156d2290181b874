import HobbyHash.Chainstate.Indexed

/-! # Operations of the user

`PruneBlockIndexCandidates`, `PreciousBlock`, `InvalidateBlock` and
`ResetBlockFailureFlags` keep the index settled. The last one removes marks
without a look at the blocks that got theirs from the same failure, so it needs
that these keep another failed ancestor, and that no block is left out of the
candidates; `PreciousBlock` must not push the tip back in the order of arrival.
-/

namespace HobbyHash

open Machine CBlockIndex List BlockStatus

variable {candidates : List CBlockIndex}

namespace ChainstateManager

variable {env : IndexEnv} {connector : BlockConnector} {s s' : ChainstateManager}
  {tip b : CBlockIndex}

theorem Settled.choose (settled : Settled env connector s tip)
    (bestInvalid bestHeader : Option CBlockIndex)
    (only : ∀ c ∈ candidates, c ∈ s.blocks ∧ s.Linked c ∧ s.rank env tip ≤ s.rank env c)
    (complete : ∀ a ∈ s.blocks, s.Linked a → s.Sound a → s.rank env tip ≤ s.rank env a →
      a ∈ candidates) :
    Settled env connector
      { s with setBlockIndexCandidates := candidates, bestInvalid, bestHeader } tip :=
  .intro (settled.indexed.aside settled.indexed.failedBlocks s.sameTip) settled.underway.isTip
    settled.underway.tipKnown settled.underway.tipLinked settled.underway.tipUnmarked
    settled.underway.tipAccepted only complete

theorem Settled.pruneBlockIndexCandidates (settled : Settled env connector s tip) :
    ∃ s', s.pruneBlockIndexCandidates env = .ok s' ∧ Settled env connector s' tip := by
  refine ⟨_, pruneBlockIndexCandidates_eq settled.underway.isTip settled.underway.floorCandidate le_rfl,
    settled.choose s.bestInvalid s.bestHeader ?_ ?_⟩
  · intro c mem
    exact settled.underway.candidates c (mem_filter.mp mem).1
  · intro a inIdx linked sound good
    refine mem_filter.mpr ⟨settled.underway.complete a inIdx linked sound good, ?_⟩
    rw [not_worse_iff.mpr good]
    rfl

/-- The number that `PreciousBlock` gives to its block. -/
def preciousSequenceId (s : ChainstateManager) (tip : CBlockIndex) : Int :=
  if tip.nChainWork > s.nLastPreciousChainwork then -1 else s.nBlockReverseSequenceId

/-- `PreciousBlock` after its block got a number. -/
def resequenced (s : ChainstateManager) (tip b : CBlockIndex) : ChainstateManager :=
  { (s.eraseCandidate b).modify b fun e => { e with nSequenceId := s.preciousSequenceId tip } with
    nLastPreciousChainwork := tip.nChainWork
    nBlockReverseSequenceId :=
      if s.preciousSequenceId tip > -2 ^ 31 then s.preciousSequenceId tip - 1
      else s.preciousSequenceId tip }

theorem markPrecious_eq (isTip : s.tip = some tip) :
    s.markPrecious env b =
      if b.nChainWork < tip.nChainWork then .ok (s, false)
      else if ((s.resequenced tip b).nStatus b).isValid .transactions &&
          (s.resequenced tip b).haveNumChainTxs b then do
        return (← ((s.resequenced tip b).insertCandidate b).pruneBlockIndexCandidates env, true)
      else .ok (s.resequenced tip b, true) := by
  rw [markPrecious, isTip]
  rfl

theorem entry_resequenced_self : (s.resequenced tip b).entry b =
    { s.entry b with nSequenceId := s.preciousSequenceId tip } :=
  Function.update_self ..

theorem entry_resequenced_of_ne {a : CBlockIndex} (ne : a ≠ b) :
    (s.resequenced tip b).entry a = s.entry a :=
  Function.update_of_ne ne ..

variable (a : CBlockIndex)

theorem entry_resequenced :
    ∃ n, (s.resequenced tip b).entry a = { s.entry a with nSequenceId := n } := by
  by_cases same : a = b
  · subst same
    exact ⟨_, entry_resequenced_self⟩
  · exact ⟨_, entry_resequenced_of_ne same⟩

theorem nStatus_resequenced : (s.resequenced tip b).nStatus a = s.nStatus a := by
  obtain ⟨n, equal⟩ := @entry_resequenced s tip b a
  rw [nStatus, equal, nStatus]

theorem sound_resequenced : (s.resequenced tip b).Sound a ↔ s.Sound a :=
  forall₂_congr fun c _ => by rw [nStatus_resequenced]

theorem sameTree_resequenced : SameTree s (s.resequenced tip b) := by
  refine ⟨rfl, rfl, fun a => ?_, fun a => ?_, fun a => by rw [nStatus_resequenced]⟩
  all_goals
    obtain ⟨n, equal⟩ := @entry_resequenced s tip b a
    rw [equal]

theorem rank_resequenced {a : CBlockIndex} (ne : a ≠ b) :
    (s.resequenced tip b).rank env a = s.rank env a := by
  rw [rank, rank, entry_resequenced_of_ne ne]

theorem Indexed.resequenced (indexed : Indexed env s) : Indexed env (s.resequenced tip b) := by
  have lt : s.preciousSequenceId tip < 0 := by
    rw [preciousSequenceId]
    split
    · decide
    · exact indexed.reverse
  have same : SameTree s (s.resequenced tip b) := sameTree_resequenced
  refine indexed.restatus (indexed.toIndexTree.resequence same ?_ ?_) same
    (fun a => by rw [nStatus_resequenced]) (fun a => by rw [nStatus_resequenced]) ?_ ?_ s.sameTip
  · intro a inIdx unlinked
    by_cases here : a = b
    · rw [here, entry_resequenced_self]
      exact lt.le
    · rw [entry_resequenced_of_ne here]
      exact indexed.sequence a inIdx unlinked
  · change (if s.preciousSequenceId tip > -2 ^ 31 then _ else _) < _
    split
    · omega
    · exact lt
  · intro a inIdx sound
    rw [nStatus_resequenced]
    exact indexed.failed a inIdx ((sound_resequenced a).mp sound)
  · intro a mem
    rw [nStatus_resequenced]
    exact indexed.failedBlocks a mem

theorem Underway.rank_le_resequenced
    (keeps : b = tip → s.preciousSequenceId tip ≤ (s.entry tip).nSequenceId) :
    s.rank env tip ≤ (s.resequenced tip b).rank env tip := by
  by_cases same : tip = b
  · subst same
    have lower := keeps rfl
    rw [rank, rank, entry_resequenced_self]
    refine Prod.Lex.toLex_le_toLex.mpr (.inr ⟨rfl, Prod.Lex.toLex_le_toLex.mpr ?_⟩)
    obtain less | equal := lower.lt_or_eq
    · exact .inl (by dsimp only; omega)
    · exact .inr ⟨by dsimp only; omega, le_rfl⟩
  · rw [rank_resequenced same]

theorem Settled.markPrecious (settled : Settled env connector s tip) (known : b ∈ s.blocks)
    (keeps : b = tip → s.preciousSequenceId tip ≤ (s.entry tip).nSequenceId) :
    ∃ s' active, s.markPrecious env b = .ok (s', active) ∧ Settled env connector s' tip := by
  obtain ⟨indexed, underway⟩ := settled
  rw [markPrecious_eq underway.isTip]
  split
  · exact ⟨s, false, rfl, indexed, underway⟩
  have same : SameTree s (s.resequenced tip b) := sameTree_resequenced
  have indexed' : Indexed env (s.resequenced tip b) := indexed.resequenced
  have le : s.rank env tip ≤ (s.resequenced tip b).rank env tip :=
    Underway.rank_le_resequenced keeps
  have usable : ∀ a ∈ s.blocks, s.Linked a → s.Sound a →
      (((s.resequenced tip b).nStatus a).isValid .transactions &&
        (s.resequenced tip b).haveNumChainTxs a) = true := by
    intro a inIdx linked sound
    rw [Bool.and_eq_true, nStatus_resequenced, isValid_iff, haveNumChainTxs_iff,
      same.linked]
    refine ⟨⟨indexed.failed a inIdx sound, ?_⟩, linked⟩
    exact (indexed.transactions a inIdx).mpr (underway.grounded.received a inIdx linked)
  have chosen (candidates : List CBlockIndex)
      (only : ∀ c ∈ candidates, c ∈ s.blocks ∧ s.Linked c ∧
        (s.resequenced tip b).rank env tip ≤ (s.resequenced tip b).rank env c)
      (complete : ∀ a ∈ s.blocks, s.Linked a → s.Sound a →
        (s.resequenced tip b).rank env tip ≤ (s.resequenced tip b).rank env a → a ∈ candidates) :
      Settled env connector
        { s.resequenced tip b with setBlockIndexCandidates := candidates } tip := by
    refine .intro (indexed'.aside indexed'.failedBlocks s.sameTip) underway.isTip underway.tipKnown
      (same.linked.mpr underway.tipLinked) ?_ underway.tipAccepted ?_ ?_
    · intro a lt
      exact (congrArg _ (nStatus_resequenced a)).trans (underway.tipUnmarked a lt)
    · intro c mem
      obtain ⟨inIdx, linked, good⟩ := only c mem
      exact ⟨inIdx, same.linked.mpr linked, good⟩
    · intro a inIdx linked sound good
      exact complete a inIdx (same.linked.mp linked) ((sound_resequenced a).mp sound) good
  have before : ∀ a ∈ s.blocks, s.Linked a → s.Sound a → a ≠ b →
      (s.resequenced tip b).rank env tip ≤ (s.resequenced tip b).rank env a →
      a ∈ s.setBlockIndexCandidates := by
    intro a inIdx linked sound apart good
    rw [rank_resequenced apart] at good
    exact underway.complete a inIdx linked sound (le.trans good)
  split
  · rename_i inserted
    rw [Bool.and_eq_true, haveNumChainTxs_iff, same.linked] at inserted
    have tipMember : tip ∈ ((s.resequenced tip b).insertCandidate b).setBlockIndexCandidates := by
      rw [mem_insertCandidate]
      by_cases here : tip = b
      · exact .inl here
      · exact .inr ((mem_eraseCandidate s).mpr ⟨underway.floorCandidate, here⟩)
    have pruned :=
      @pruneBlockIndexCandidates_eq env ((s.resequenced tip b).insertCandidate b) tip tip
      underway.isTip tipMember le_rfl
    refine ⟨_, true, by rw [pruned]; rfl, chosen _ ?_ ?_⟩
    · intro c mem
      obtain ⟨mem, good⟩ := mem_filter.mp mem
      rw [Bool.not_eq_true', not_worse_iff] at good
      obtain rfl | mem := (mem_insertCandidate _).mp mem
      · exact ⟨known, inserted.2, good⟩
      · obtain ⟨inIdx, linked, -⟩ := underway.candidates c ((mem_eraseCandidate s).mp mem).1
        exact ⟨inIdx, linked, good⟩
    intro a inIdx linked sound good
    refine mem_filter.mpr ⟨(mem_insertCandidate _).mpr ?_, ?_⟩
    · by_cases here : a = b
      · exact .inl here
      · exact .inr ((mem_eraseCandidate s).mpr ⟨before a inIdx linked sound here good, here⟩)
    · rw [Bool.not_eq_true', not_worse_iff]
      exact good
  · rename_i unusable
    have apart : ∀ a ∈ s.blocks, s.Linked a → s.Sound a → a ≠ b := by
      rintro a inIdx linked sound rfl
      exact unusable (usable a inIdx linked sound)
    refine ⟨_, true, rfl, chosen (s.eraseCandidate b).setBlockIndexCandidates ?_ ?_⟩
    · intro c mem
      obtain ⟨mem, other⟩ := (mem_eraseCandidate s).mp mem
      obtain ⟨inIdx, linked, good⟩ := underway.candidates c mem
      rw [rank_resequenced other,
        rank_resequenced (apart tip underway.tipKnown underway.tipLinked underway.floorSound)]
      exact ⟨inIdx, linked, good⟩
    · intro a inIdx linked sound good
      have other := apart a inIdx linked sound
      exact (mem_eraseCandidate s).mpr ⟨before a inIdx linked sound other good, other⟩

theorem foldl_insertCandidate (l : List CBlockIndex) :
    ∃ candidates, l.foldl insertCandidate s = { s with setBlockIndexCandidates := candidates } ∧
      ∀ c, c ∈ candidates ↔ c ∈ l ∨ c ∈ s.setBlockIndexCandidates := by
  induction l generalizing s with
  | nil => exact ⟨s.setBlockIndexCandidates, rfl, by simp⟩
  | cons a rest ih =>
    obtain ⟨candidates, inserted, mem⟩ := @ih (s.insertCandidate a)
    refine ⟨candidates, inserted, fun c => ?_⟩
    rw [mem, mem_insertCandidate, mem_cons]
    tauto

/-- What holds between two rounds of the loop of `InvalidateBlock`: the candidates
    may not be complete. -/
structure Lowered (env : IndexEnv) (connector : BlockConnector) (s : ChainstateManager)
    (tip : CBlockIndex) : Prop where
  indexed : Indexed env s
  isTip : s.tip = some tip
  known : tip ∈ s.blocks
  linked : s.Linked tip
  unmarked : ∀ a, Ancestor a tip → (s.nStatus a).failed = false
  accepted : ∀ p f, Ancestor (child p f) tip → connector.accepts (child p f) = true
  candidates : ∀ c ∈ s.setBlockIndexCandidates,
    c ∈ s.blocks ∧ s.Linked c ∧ s.rank env tip ≤ s.rank env c

theorem Settled.lowered (settled : Settled env connector s tip) : Lowered env connector s tip where
  indexed := settled.indexed
  isTip := settled.underway.isTip
  known := settled.underway.tipKnown
  linked := settled.underway.tipLinked
  unmarked := settled.underway.tipUnmarked
  accepted := settled.underway.tipAccepted
  candidates := settled.underway.candidates

section

variable (lowered : Lowered env connector s tip)
include lowered

theorem Lowered.settled
    (complete : ∀ b ∈ s.blocks, s.Linked b → s.Sound b → s.rank env tip ≤ s.rank env b →
      b ∈ s.setBlockIndexCandidates) : Settled env connector s tip :=
  .intro lowered.indexed lowered.isTip lowered.known lowered.linked lowered.unmarked lowered.accepted
    lowered.candidates complete

theorem Lowered.choose
    (only : ∀ c ∈ candidates, c ∈ s.blocks ∧ s.Linked c ∧ s.rank env tip ≤ s.rank env c) :
    Lowered env connector { s with setBlockIndexCandidates := candidates } tip :=
  { lowered with
    indexed := lowered.indexed.aside lowered.indexed.failedBlocks s.sameTip
    candidates := only }

theorem Lowered.markFailed (off : ¬ Ancestor b tip) :
    Lowered env connector (s.markFailed b) tip := by
  have frame : Frame s (s.markFailed b) := frame_markFailed
  refine { lowered with indexed := lowered.indexed.markFailed b, linked := ?_, unmarked := ?_,
                        candidates := ?_ }
  · exact frame.linked.mpr lowered.linked
  · intro a active
    have ne : a ≠ b := fun same => off (same ▸ active)
    rw [ChainstateManager.markFailed, nStatus_modifyStatus_of_ne ne]
    exact lowered.unmarked a active
  · intro c mem
    obtain ⟨inIdx, linked, good⟩ := lowered.candidates c mem
    rw [frame.rank]
    exact ⟨inIdx, frame.linked.mpr linked, good⟩

theorem Lowered.remember (inIdx : b ∈ s.blocks) (marked : (s.nStatus b).failedValid = true) :
    Lowered env connector { s with failedBlocks := s.failedBlocks.insert b } tip := by
  refine { lowered with indexed := lowered.indexed.aside (fun c mem => ?_) s.sameTip }
  obtain rfl | mem := mem_insert_iff.mp mem
  · exact ⟨inIdx, marked⟩
  · exact lowered.indexed.failedBlocks c mem

end

theorem Lowered.disconnect {p f} (lowered : Lowered env connector s (child p f)) :
    Lowered env connector { s with tip := some p } p := by
  refine { lowered with indexed := ?_, isTip := rfl, known := ?_, linked := ?_, unmarked := ?_,
                        accepted := ?_, candidates := ?_ }
  · refine lowered.indexed.aside lowered.indexed.failedBlocks fun tip' isTip => ?_
    cases isTip
    exact ⟨_, lowered.isTip, .step .refl⟩
  · exact lowered.indexed.link.closed p f lowered.known
  · exact lowered.indexed.link.parent p f lowered.known lowered.linked
  · exact fun a lt => lowered.unmarked a (.step lt)
  · exact fun q g lt => lowered.accepted q g (.step lt)
  · intro c mem
    obtain ⟨inIdx, linked, good⟩ := lowered.candidates c mem
    exact ⟨inIdx, linked,
      (rank_lt_of_rising lowered.indexed.rising lowered.known).le.trans good⟩

variable {v : Invalidation}

theorem invalidateTip_eq (other : v.toMarkFailed = p → (v.manager.nStatus p).failedValid = false) :
    ∃ candidates, (invalidateTip env v (child p f) p).manager =
        { ({ v.manager with tip := some p } : ChainstateManager).markFailed (child p f) with
          setBlockIndexCandidates := candidates } ∧
      ∀ c ∈ candidates, c = p ∨ c ∈ v.manager.setBlockIndexCandidates ∨
        c ∈ v.candidateBlocks ∧ v.manager.rank env p ≤ v.manager.rank env c := by
  have ne : p ≠ child p f := fun same => pprev_ne_self rfl same.symm
  let marked := ({ v.manager with tip := some p } : ChainstateManager).markFailed (child p f)
  let s₁ := (marked.eraseCandidate (child p f)).insertCandidate p
  have frame : Frame v.manager s₁ :=
    ((Frame.aside v.manager _ _ _ _ _).trans frame_markFailed).trans (.aside _ _ _ _ _ _)
  have unmarked :
      ¬ ((decide (p = v.toMarkFailed) && (s₁.nStatus v.toMarkFailed).failedValid) = true) := by
    rw [Bool.and_eq_true, decide_eq_true_eq]
    rintro ⟨same, failed⟩
    rw [← same] at failed
    obtain same | before := failedValid_markFailed.mp failed
    · exact ne same
    · cases before.symm.trans (other same.symm)
  obtain ⟨candidates, inserted, mem⟩ := @foldl_insertCandidate s₁ (v.candidateBlocks.filter fun c =>
    decide (c.nChainWork ≥ p.nChainWork) && !s₁.worse env c p)
  refine ⟨candidates, ?_, fun c lt => ?_⟩
  · have kept : (if (decide (p = v.toMarkFailed) && (s₁.nStatus v.toMarkFailed).failedValid) = true
        then s₁.modifyStatus v.toMarkFailed fun status =>
          { status with failedValid := false, failedChild := true }
        else s₁) = s₁ := if_neg unmarked
    have skipped := congrArg (fun m : ChainstateManager =>
      (v.candidateBlocks.filter fun c =>
        decide (c.nChainWork ≥ p.nChainWork) && !m.worse env c p).foldl insertCandidate m) kept
    exact skipped.trans inserted
  obtain chosen | before := (mem c).mp lt
  · obtain ⟨inList, good⟩ := mem_filter.mp chosen
    rw [Bool.and_eq_true, Bool.not_eq_true', not_worse_iff, frame.rank] at good
    exact .inr (.inr ⟨inList, good.2⟩)
  · obtain same | before := (mem_insertCandidate _).mp before
    · exact .inl same
    · exact .inr (.inl ((mem_eraseCandidate _).mp before).1)

theorem Lowered.invalidateTip (lowered : Lowered env connector v.manager (child p f))
    (blocks : ∀ c ∈ v.candidateBlocks, c ∈ v.manager.blocks ∧ v.manager.Linked c) :
    Lowered env connector (invalidateTip env v (child p f) p).manager p ∧
      (∀ c ∈ (ChainstateManager.invalidateTip env v (child p f) p).candidateBlocks,
        c ∈ (ChainstateManager.invalidateTip env v (child p f) p).manager.blocks ∧
        (ChainstateManager.invalidateTip env v (child p f) p).manager.Linked c) ∧
      SameTree v.manager (ChainstateManager.invalidateTip env v (child p f) p).manager := by
  obtain ⟨candidates, written, chosen⟩ := @invalidateTip_eq env v p f fun _ =>
    (Bool.or_eq_false_iff.mp (lowered.unmarked p (.step .refl))).1
  have frame : Frame v.manager ({ v.manager with tip := some p } : ChainstateManager) :=
    .aside v.manager _ _ _ _ _
  have marked := frame.trans (@frame_markFailed { v.manager with tip := some p } (child p f))
  have lowered' := (lowered.disconnect).markFailed (not_ancestor_child (f := f))
  have same : SameTree v.manager (ChainstateManager.invalidateTip env v (child p f) p).manager := by
    rw [written]
    exact (marked.trans (.aside _ _ _ _ _ _)).toSameTree
  refine ⟨?_, fun c mem => ?_, same⟩
  case refine_2 =>
    rw [same.blocks, same.linked]
    exact blocks c (mem_filter.mp mem).1
  rw [written]
  refine lowered'.choose fun c lt => ?_
  rw [marked.rank, marked.linked, marked.blocks]
  have le : v.manager.rank env p ≤ v.manager.rank env (child p f) :=
    (rank_lt_of_rising lowered.indexed.rising lowered.known).le
  obtain rfl | before | ⟨inList, good⟩ := chosen c lt
  · exact ⟨lowered.indexed.link.closed c f lowered.known,
      lowered.indexed.link.parent c f lowered.known lowered.linked, le_rfl⟩
  · obtain ⟨inIdx, linked, good⟩ := lowered.candidates c before
    exact ⟨inIdx, linked, le.trans good⟩
  · obtain ⟨inIdx, linked⟩ := blocks c inList
    exact ⟨inIdx, linked, good⟩

variable {kept : CBlockIndex → Invalidation → Prop}

/-- The loop of `InvalidateBlock` keeps what its rounds keep, and ends below the block. -/
theorem invalidateTips_ok (pos : 0 < b.nHeight) (start : kept tip v)
    (towards : v.toMarkFailed = b ∨ Ancestor b tip)
    (isTip : ∀ t w, kept t w → w.manager.tip = some t)
    (round : ∀ p f w, Ancestor b (child p f) → kept (child p f) w →
      kept p (invalidateTip env w (child p f) p)) :
    ∃ v' tip', invalidateTips env b v tip = .ok v' ∧ kept tip' v' ∧ v'.toMarkFailed = b ∧
      Ancestor tip' tip ∧ ¬ Ancestor b tip' := by
  induction tip generalizing v with
  | genesis f =>
    have off : ¬ Ancestor b (genesis f) := by
      intro active
      have := active.nHeight_le
      rw [nHeight_genesis] at this
      omega
    rw [invalidateTips, if_neg fun active => off ((contains_iff (isTip _ _ start)).mp active)]
    exact ⟨v, _, rfl, start, towards.resolve_right off, .refl, off⟩
  | child p f ih =>
    rw [invalidateTips]
    split
    · rename_i active
      rw [contains_iff (isTip _ _ start)] at active
      have towards' : child p f = b ∨ Ancestor b p := by
        by_cases here : child p f = b
        · exact .inl here
        · exact .inr (active.pprev fun same => here same.symm)
      obtain ⟨v', tip', ran, kept', isBlock, lower, off⟩ := ih (round p f v active start) towards'
      exact ⟨v', tip', ran, kept', isBlock, .step lower, off⟩
    · rename_i inactive
      rw [contains_iff (isTip _ _ start)] at inactive
      exact ⟨v, _, rfl, start, towards.resolve_right inactive, .refl, inactive⟩

/-- `InvalidateBlock` once its block is off the active chain and marked. -/
def withdrawn (s : ChainstateManager) (b : CBlockIndex) : ChainstateManager :=
  { (s.markFailed b).eraseCandidate b with failedBlocks := s.failedBlocks.insert b }

theorem invalidateBlock_eq (ne : b.nHeight ≠ 0) (isTip : s.tip = some tip)
    (start : kept tip ⟨s, b, s.candidateBlocksByWork env b⟩)
    (tips : ∀ t w, kept t w → w.manager.tip = some t)
    (round : ∀ p f w, Ancestor b (child p f) → kept (child p f) w →
      kept p (invalidateTip env w (child p f) p)) :
    ∃ v tip', kept tip' v ∧ Ancestor tip' tip ∧ ¬ Ancestor b tip' ∧
      ∀ candidates, (v.manager.withdrawn b).blocks.foldl (addMissingCandidate env)
          (v.manager.withdrawn b) =
          { v.manager.withdrawn b with setBlockIndexCandidates := candidates } →
        ∃ bestInvalid bestHeader, s.invalidateBlock env b = .ok ({ v.manager.withdrawn b with
          setBlockIndexCandidates := candidates, bestInvalid, bestHeader }, true) := by
  obtain ⟨v, tip', ran, kept', isBlock, lower, off⟩ :=
    invalidateTips_ok (Nat.pos_of_ne_zero ne) start (.inl rfl) tips round
  refine ⟨v, tip', kept', lower, off, fun candidates added => ?_⟩
  obtain ⟨bestInvalid, bestHeader, found⟩ := @invalidChainFound_eq
    { v.manager.withdrawn b with setBlockIndexCandidates := candidates } tip' b (tips _ _ kept')
  refine ⟨bestInvalid, bestHeader, ?_⟩
  have outside : ¬ v.manager.contains b = true := fun active =>
    off ((contains_iff (tips _ _ kept')).mp active)
  rw [invalidateBlock, if_neg ne]
  simp only [isTip, ran]
  change (if v.manager.contains v.toMarkFailed = true then _ else _) = _
  rw [isBlock, if_neg outside]
  exact bind_eq_ok.mpr ⟨_, (congrArg (invalidChainFound · b) added).trans found, rfl⟩

def missingCandidate (env : IndexEnv) (s : ChainstateManager) (tip b : CBlockIndex) : Bool :=
  (s.nStatus b).isValid .transactions && s.haveNumChainTxs b && !s.worse env b tip

theorem foldl_addMissingCandidate (isTip : s.tip = some tip) (l : List CBlockIndex) :
    l.foldl (addMissingCandidate env) s =
      (l.filter (s.missingCandidate env tip)).foldl insertCandidate s := by
  induction l generalizing s with
  | nil => rfl
  | cons a rest ih =>
    have one : s.addMissingCandidate env a =
        if s.missingCandidate env tip a then s.insertCandidate a else s := by
      rw [addMissingCandidate, isTip]
      rfl
    rw [foldl_cons, one, filter_cons]
    split
    · exact @ih (s.insertCandidate a) isTip
    · exact ih isTip

theorem Lowered.addMissingCandidates (lowered : Lowered env connector s tip) :
    ∃ candidates, s.blocks.foldl (addMissingCandidate env) s =
        { s with setBlockIndexCandidates := candidates } ∧
      Settled env connector { s with setBlockIndexCandidates := candidates } tip := by
  obtain ⟨candidates, added, mem⟩ :=
    @foldl_insertCandidate s (s.blocks.filter (s.missingCandidate env tip))
  have missing : ∀ c, s.missingCandidate env tip c = true ↔
      ((s.nStatus c).isValid .transactions = true ∧ s.Linked c) ∧
        s.rank env tip ≤ s.rank env c := by
    intro c
    rw [missingCandidate, Bool.and_eq_true, Bool.and_eq_true, haveNumChainTxs_iff,
      Bool.not_eq_true', not_worse_iff]
  simp only [mem_filter, missing] at mem
  refine ⟨candidates, (foldl_addMissingCandidate lowered.isTip s.blocks).trans added,
    (lowered.choose fun c lt => ?_).settled fun a inIdx linked sound good => ?_⟩
  · obtain ⟨inIdx, valid, good⟩ | before := (mem c).mp lt
    · exact ⟨inIdx, valid.2, good⟩
    · exact lowered.candidates c before
  · have valid : (s.nStatus a).isValid .transactions = true := isValid_iff.mpr
      ⟨lowered.indexed.failed a inIdx sound, (lowered.indexed.transactions a inIdx).mpr
        (lowered.indexed.link.counted a inIdx linked).1⟩
    exact (mem a).mpr (.inl ⟨inIdx, ⟨valid, linked⟩, good⟩)

theorem Settled.invalidateBlock (settled : Settled env connector s tip) (known : b ∈ s.blocks) :
    ∃ s' done tip', s.invalidateBlock env b = .ok (s', done) ∧ Settled env connector s' tip' := by
  by_cases notRoot : b.nHeight = 0
  · exact ⟨s, false, tip, if_pos notRoot, settled⟩
  have blocks : ∀ c ∈ s.candidateBlocksByWork env b, c ∈ s.blocks ∧ s.Linked c := by
    intro c mem
    rw [candidateBlocksByWork] at mem
    split at mem
    · cases mem
    · obtain ⟨inIdx, usable⟩ := mem_filter.mp mem
      rw [Bool.and_eq_true, haveNumChainTxs_iff] at usable
      exact ⟨inIdx, usable.2⟩
  obtain ⟨v, tip', ⟨lowered, -, same⟩, -, off, finish⟩ := @invalidateBlock_eq env s tip b
    (fun t w => Lowered env connector w.manager t ∧
      (∀ c ∈ w.candidateBlocks, c ∈ w.manager.blocks ∧ w.manager.Linked c) ∧ SameTree s w.manager)
    notRoot settled.underway.isTip ⟨settled.lowered, blocks, .refl _⟩ (fun _ _ kept => kept.1.isTip)
    fun _ _ _ _ ⟨lowered, blocks, same⟩ =>
      (lowered.invalidateTip blocks).imp_right (And.imp_right same.trans)
  have erased : Lowered env connector ((v.manager.markFailed b).eraseCandidate b) tip' := by
    refine (lowered.markFailed off).choose fun c mem => ?_
    exact (lowered.markFailed off).candidates c ((mem_eraseCandidate _).mp mem).1
  have remembered : Lowered env connector (v.manager.withdrawn b) tip' :=
    erased.remember (same.blocks ▸ known) (failedValid_markFailed.mpr (.inl rfl))
  obtain ⟨candidates, added, settled'⟩ := remembered.addMissingCandidates
  obtain ⟨bestInvalid, bestHeader, finished⟩ := finish candidates added
  exact ⟨_, true, tip', finished, settled'.choose bestInvalid bestHeader
    settled'.underway.candidates settled'.underway.complete⟩

def clearedStatus (status : BlockStatus) : BlockStatus :=
  { status with failedValid := false, failedChild := false }

theorem clearedStatus_of_unmarked (unmarked : status.failed = false) :
    clearedStatus status = status := by
  obtain ⟨valid, child⟩ := Bool.or_eq_false_iff.mp unmarked
  cases status
  subst valid child
  rfl

/-- The marks of the blocks in `gone` have been removed. -/
structure Cleared (gone : CBlockIndex → Prop) (s s' : ChainstateManager) : Prop where
  frame : Frame s s'
  tip : s'.tip = s.tip
  removed : ∀ x, gone x → s'.nStatus x = clearedStatus (s.nStatus x)
  kept : ∀ x, ¬ gone x → s'.nStatus x = s.nStatus x
  failedBlocks : ∀ x ∈ s'.failedBlocks, x ∈ s.failedBlocks ∧ (gone x → (s.nStatus x).failed = false)

variable {x : CBlockIndex}

namespace Cleared

variable {gone more : CBlockIndex → Prop} {s'' : ChainstateManager}

theorem refl (unmarked : ∀ x, gone x → (s.nStatus x).failed = false) : Cleared gone s s where
  frame := .refl s
  tip := rfl
  removed x isGone := (clearedStatus_of_unmarked (unmarked x isGone)).symm
  kept _ _ := rfl
  failedBlocks x mem := ⟨mem, unmarked x⟩

theorem trans (first : Cleared gone s s') (second : Cleared more s' s'') :
    Cleared (fun x => gone x ∨ more x) s s'' where
  frame := first.frame.trans second.frame
  tip := second.tip.trans first.tip
  removed := by
    intro x isGone
    by_cases late : more x
    · rw [second.removed x late]
      by_cases early : gone x
      · rw [first.removed x early]
        rfl
      · rw [first.kept x early]
    · rw [second.kept x late, first.removed x (isGone.resolve_right late)]
  kept := by
    intro x stays
    rw [not_or] at stays
    rw [second.kept x stays.2, first.kept x stays.1]
  failedBlocks := by
    intro x mem
    obtain ⟨between, late⟩ := second.failedBlocks x mem
    obtain ⟨before, early⟩ := first.failedBlocks x between
    refine ⟨before, fun isGone => ?_⟩
    by_cases inFirst : gone x
    · exact early inFirst
    · rw [← first.kept x inFirst]
      exact late (isGone.resolve_left inFirst)

variable (cleared : Cleared gone s s')
include cleared

theorem congr (same : ∀ x, gone x ↔ more x) : Cleared more s s' := by
  have eq : gone = more := funext fun x => propext (same x)
  exact eq ▸ cleared

theorem status (x : CBlockIndex) :
    s'.nStatus x = s.nStatus x ∨ s'.nStatus x = clearedStatus (s.nStatus x) := by
  by_cases isGone : gone x
  · exact .inr (cleared.removed x isGone)
  · exact .inl (cleared.kept x isGone)

theorem validity (x : CBlockIndex) :
    (s'.nStatus x).validity = (s.nStatus x).validity := by
  obtain same | same := cleared.status x <;> rw [same]
  rfl

theorem haveUndo (x : CBlockIndex) :
    (s'.nStatus x).haveUndo = (s.nStatus x).haveUndo := by
  obtain same | same := cleared.status x <;> rw [same]
  rfl

theorem unmarked (clean : (s.nStatus x).failed = false) :
    (s'.nStatus x).failed = false := by
  obtain same | same := cleared.status x <;> rw [same]
  · exact clean
  · rfl

end Cleared

theorem cleared_clearFailure (x : CBlockIndex) (candidates : List CBlockIndex)
    (bestInvalid : Option CBlockIndex) :
    Cleared (· = x) s
      { s.clearFailure x with setBlockIndexCandidates := candidates, bestInvalid } := by
  have frame : Frame s (s.modifyStatus x clearedStatus) := frame_modifyStatus fun _ => rfl
  constructor
  case frame => exact frame.trans (.aside _ _ _ _ _ _)
  case tip => rfl
  case removed =>
    rintro _ rfl
    exact @nStatus_modifyStatus_self s _ clearedStatus
  case kept => exact fun y apart => @nStatus_modifyStatus_of_ne s _ _ apart clearedStatus
  case failedBlocks =>
    intro y mem
    obtain ⟨before, apart⟩ := mem_filter.mp mem
    exact ⟨before, fun same => absurd same (of_decide_eq_true apart)⟩

/-- What the first loop of `ResetBlockFailureFlags` does with the blocks of a list. -/
structure Reset (env : IndexEnv) (b tip : CBlockIndex) (l : List CBlockIndex)
    (s s' : ChainstateManager) : Prop where
  cleared : Cleared (fun x => x ∈ l ∧ Ancestor b x) s s'
  stay : ∀ c ∈ s.setBlockIndexCandidates, c ∈ s'.setBlockIndexCandidates
  only : ∀ c ∈ s'.setBlockIndexCandidates, c ∈ s.setBlockIndexCandidates ∨
    c ∈ l ∧ s.Linked c ∧ s.rank env tip ≤ s.rank env c
  added : ∀ c ∈ l, Ancestor b c → (s.nStatus c).failed = true → s.UpTo .transactions c →
    s.Linked c → s.rank env tip < s.rank env c → c ∈ s'.setBlockIndexCandidates

theorem Reset.refl {l} (unmarked : ∀ x, x ∈ l ∧ Ancestor b x → (s.nStatus x).failed = false) :
    Reset env b tip l s s where
  cleared := .refl unmarked
  stay _ before := before
  only _ before := .inl before
  added x mem above failed := by
    rw [unmarked x ⟨mem, above⟩] at failed
    cases failed

theorem resetDescendant_skip (skip : ¬ ((s.nStatus x).isValid .transactions = false ∧ Ancestor b x)) :
    s.resetDescendant env b x = s := by
  rw [resetDescendant, if_neg]
  simpa [getAncestor_eq_some_iff] using skip

theorem resetDescendant_eq (isTip : s.tip = some tip)
    (invalid : (s.nStatus x).isValid .transactions = false) (above : Ancestor b x) :
    ∃ candidates bestInvalid, s.resetDescendant env b x =
        { s.clearFailure x with setBlockIndexCandidates := candidates, bestInvalid } ∧
      (candidates = s.setBlockIndexCandidates ∨
        candidates = s.setBlockIndexCandidates.insert x ∧ s.Linked x ∧
          s.rank env tip < s.rank env x) ∧
      (s.UpTo .transactions x → s.Linked x → s.rank env tip < s.rank env x → x ∈ candidates) := by
  let cleared := s.clearFailure x
  have frame : Frame s cleared :=
    (cleared_clearFailure x s.setBlockIndexCandidates s.bestInvalid).frame
  have status : cleared.nStatus x = clearedStatus (s.nStatus x) :=
    nStatus_modifyStatus_self clearedStatus
  have usable : (((cleared.nStatus x).isValid .transactions && cleared.haveNumChainTxs x &&
      cleared.worse env tip x) = true) ↔
      s.UpTo .transactions x ∧ s.Linked x ∧ s.rank env tip < s.rank env x := by
    rw [Bool.and_eq_true, Bool.and_eq_true, isValid_iff, haveNumChainTxs_iff, worse_iff,
      frame.linked, frame.rank, status, and_assoc]
    exact and_congr_left' (and_iff_right rfl)
  have unfolded : s.resetDescendant env b x =
      { (if (cleared.nStatus x).isValid .transactions && cleared.haveNumChainTxs x &&
            cleared.worse env tip x then cleared.insertCandidate x else cleared) with
        bestInvalid := if s.bestInvalid = some x then none else s.bestInvalid } := by
    rw [resetDescendant, if_pos, isTip]
    simpa [getAncestor_eq_some_iff, invalid] using above
  by_cases inserted : s.UpTo .transactions x ∧ s.Linked x ∧ s.rank env tip < s.rank env x
  · rw [unfolded, if_pos (usable.mpr inserted)]
    exact ⟨_, _, rfl, .inr ⟨rfl, inserted.2⟩, fun _ _ _ => mem_insert_self⟩
  · rw [unfolded, if_neg (mt usable.mp inserted)]
    exact ⟨_, _, rfl, .inl rfl, fun upTo linked good => absurd ⟨upTo, linked, good⟩ inserted⟩

theorem resetDescendant_spec (isTip : s.tip = some tip) (x : CBlockIndex) :
    Reset env b tip [x] s (s.resetDescendant env b x) := by
  by_cases skip : (s.nStatus x).isValid .transactions = false ∧ Ancestor b x
  · obtain ⟨candidates, bestInvalid, equal, which, mem⟩ :=
      @resetDescendant_eq env s tip b x isTip skip.1 skip.2
    rw [equal]
    constructor
    case cleared =>
      refine (cleared_clearFailure x candidates bestInvalid).congr fun y => ?_
      rw [mem_singleton]
      exact (and_iff_left_of_imp fun same => same ▸ skip.2).symm
    case stay =>
      intro c before
      obtain rfl | ⟨rfl, -⟩ := which
      · exact before
      · exact mem_insert_of_mem before
    case only =>
      intro c after
      obtain rfl | ⟨rfl, linked, good⟩ := which
      · exact .inl after
      · obtain rfl | before := mem_insert_iff.mp after
        · exact .inr ⟨mem_singleton_self c, linked, good.le⟩
        · exact .inl before
    case added =>
      intro c isX _ _ upTo linked good
      cases mem_singleton.mp isX
      exact mem upTo linked good
  · rw [resetDescendant_skip skip]
    refine .refl fun y ⟨isX, above⟩ => ?_
    cases mem_singleton.mp isX
    rw [not_and', Bool.not_eq_false] at skip
    exact (isValid_iff.mp (skip above)).1

theorem foldl_resetDescendant (isTip : s.tip = some tip) (l : List CBlockIndex) :
    Reset env b tip l s (l.foldl (resetDescendant env b) s) := by
  induction l generalizing s with
  | nil => exact .refl fun x none => absurd none.1 not_mem_nil
  | cons x rest ih =>
    have head : Reset env b tip [x] s (s.resetDescendant env b x) := resetDescendant_spec isTip x
    have tail := @ih (s.resetDescendant env b x) (head.cleared.tip.trans isTip)
    constructor
    case cleared =>
      refine (head.cleared.trans tail.cleared).congr fun y => ?_
      rw [mem_singleton, mem_cons, or_and_right]
    case stay => exact fun c before => tail.stay c (head.stay c before)
    case only =>
      intro c after
      obtain between | ⟨inRest, linked, good⟩ := tail.only c after
      · obtain before | ⟨isX, new⟩ := head.only c between
        · exact .inl before
        · exact .inr ⟨mem_cons.mpr (.inl (mem_singleton.mp isX)), new⟩
      · rw [head.cleared.frame.linked] at linked
        rw [head.cleared.frame.rank] at good
        exact .inr ⟨mem_cons_of_mem x inRest, linked, good⟩
    case added =>
      intro c mem above failed upTo linked good
      by_cases same : c ∈ [x]
      · exact tail.stay c (head.added c same above failed upTo linked good)
      have inRest := (mem_cons.mp mem).resolve_left (mt mem_singleton.mpr same)
      have status := head.cleared.kept c fun isX => same isX.1
      refine tail.added c inRest above ?_ ?_ ?_ ?_
      · rw [status]
        exact failed
      · rw [UpTo, status]
        exact upTo
      · exact head.cleared.frame.linked.mpr linked
      · rw [head.cleared.frame.rank]
        exact good

theorem resetAncestor_spec (x : CBlockIndex) : Cleared (· = x) s (s.resetAncestor x) ∧
    (s.resetAncestor x).setBlockIndexCandidates = s.setBlockIndexCandidates := by
  rw [resetAncestor]
  split
  · exact ⟨cleared_clearFailure x s.setBlockIndexCandidates s.bestInvalid, rfl⟩
  · rename_i unmarked
    exact ⟨.refl fun y same => same ▸ Bool.eq_false_of_not_eq_true unmarked, rfl⟩

theorem resetAncestors_spec (b : CBlockIndex) : Cleared (Ancestor · b) s (s.resetAncestors b) ∧
    (s.resetAncestors b).setBlockIndexCandidates = s.setBlockIndexCandidates := by
  induction b generalizing s with
  | genesis f =>
    obtain ⟨cleared, candidates⟩ := @resetAncestor_spec s (genesis f)
    refine ⟨cleared.congr fun x => ?_, candidates⟩
    constructor
    · rintro rfl
      exact .refl
    · rintro ⟨⟩
      rfl
  | child p f ih =>
    obtain ⟨cleared, candidates⟩ := @resetAncestor_spec s (child p f)
    obtain ⟨lt, same⟩ := @ih (s.resetAncestor (child p f))
    refine ⟨(cleared.trans lt).congr fun x => ?_, same.trans candidates⟩
    constructor
    · rintro (rfl | lower)
      · exact .refl
      · exact .step lower
    · rintro (_ | lower)
      · exact .inl rfl
      · exact .inr lower

/-- What `ResetBlockFailureFlags` needs about its block: a marked block on another
    branch has a failed ancestor that stays failed, and no block that becomes
    sound is missing among the candidates. -/
structure Resettable (env : IndexEnv) (s : ChainstateManager) (b : CBlockIndex) : Prop where
  known : b ∈ s.blocks
  others : ∀ x ∈ s.blocks, (s.nStatus x).failed = true → ¬ Ancestor b x → ¬ Ancestor x b →
    ∃ a, Ancestor a x ∧ (s.nStatus a).failedValid = true ∧ ¬ Ancestor a b
  chosen : ∀ tip, s.tip = some tip → ∀ x ∈ s.blocks, s.Linked x → ¬ s.Sound x →
    s.worse env x tip = false →
    (∀ a, Ancestor a x → (s.nStatus a).failedValid = true → Ancestor a b ∨ Ancestor b a) →
    x ∈ s.setBlockIndexCandidates ∨ Ancestor b x ∧ (s.nStatus x).failed = true

theorem Settled.resetBlockFailureFlags (settled : Settled env connector s tip)
    (resettable : Resettable env s b) :
    Settled env connector (s.resetBlockFailureFlags env b) tip := by
  obtain ⟨indexed, underway⟩ := settled
  have first : Reset env b tip s.blocks s (s.blocks.foldl (resetDescendant env b) s) :=
    foldl_resetDescendant underway.isTip s.blocks
  obtain ⟨second, sameCandidates⟩ :=
    @resetAncestors_spec (s.blocks.foldl (resetDescendant env b) s) b
  have cleared := first.cleared.trans second
  rw [← resetBlockFailureFlags.eq_def] at sameCandidates cleared
  have soundOf : ∀ x, (s.resetBlockFailureFlags env b).Sound x → ∀ a, Ancestor a x →
      (s.nStatus a).failedValid = true → Ancestor a b ∨ Ancestor b a := by
    intro x sound a lt marked
    by_contra stays
    rw [not_or] at stays
    have kept := cleared.kept a (by rintro (above | lower); exacts [stays.2 above.2, stays.1 lower])
    rw [← kept, sound a lt] at marked
    cases marked
  refine .intro (indexed.remark cleared.frame cleared.validity cleared.haveUndo ?_ ?_ ?_)
    ?_ ?_ ?_ ?_
    underway.tipAccepted ?_ ?_
  · intro x inIdx sound
    by_cases isGone : (x ∈ s.blocks ∧ Ancestor b x) ∨ Ancestor x b
    · rw [cleared.removed x isGone]
      rfl
    rw [cleared.kept x isGone, ← Bool.not_eq_true]
    rw [not_or, not_and] at isGone
    intro failed
    obtain ⟨a, lt, marked, stays⟩ :=
      resettable.others x inIdx failed (isGone.1 inIdx) isGone.2
    obtain lower | above := soundOf x sound a lt marked
    · exact stays lower
    · exact isGone.1 inIdx (above.trans lt)
  · intro x mem
    obtain ⟨before, unmarked⟩ := cleared.failedBlocks x mem
    obtain ⟨inIdx, marked⟩ := indexed.failedBlocks x before
    have stays := mt unmarked (by simp [failed, marked])
    exact ⟨inIdx, cleared.kept x stays ▸ marked⟩
  · exact cleared.tip ▸ s.sameTip
  · exact cleared.tip.trans underway.isTip
  · exact cleared.frame.blocks ▸ underway.tipKnown
  · exact cleared.frame.linked.mpr underway.tipLinked
  · exact fun a lt => cleared.unmarked (underway.tipUnmarked a lt)
  · intro c mem
    rw [sameCandidates] at mem
    rw [cleared.frame.blocks, cleared.frame.linked, cleared.frame.rank]
    obtain before | new := first.only c mem
    · exact underway.candidates c before
    · exact new
  · rw [cleared.frame.blocks, cleared.frame.rank, sameCandidates]
    intro x inIdx linked sound good
    rw [cleared.frame.linked] at linked
    by_cases wasSound : s.Sound x
    · exact first.stay x (underway.complete x inIdx linked wasSound good)
    obtain mem | ⟨above, failed⟩ := resettable.chosen tip underway.isTip x inIdx linked wasSound
      (not_worse_iff.mpr good) (soundOf x sound)
    · exact first.stay x mem
    · have upTo := (indexed.transactions x inIdx).mpr (underway.grounded.received x inIdx linked)
      refine first.added x inIdx above failed upTo linked (lt_of_le_of_ne good fun same => ?_)
      rw [← rank_injective same, underway.tipUnmarked tip .refl] at failed
      cases failed

end ChainstateManager

end HobbyHash
