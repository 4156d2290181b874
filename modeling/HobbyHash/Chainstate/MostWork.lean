import HobbyHash.Chainstate.Writes

/-! # The candidate with the most work

`Underway` is what holds at every point of a run of `ActivateBestChain`. The
blocks it must not lose are described with a floor, a candidate that was the tip
at some time: all candidates are at least as good as the floor, and every sound
linked block that is as good as the floor is a candidate. So the set is never
empty, and `FindMostWorkChain` returns the best sound block.
-/

namespace HobbyHash

open Machine CBlockIndex List

variable {a : CBlockIndex} {f : HeaderFields}

namespace ChainstateManager

variable {env : IndexEnv} {connector : BlockConnector} {s s' : ChainstateManager}
  {tip floor b : CBlockIndex}

/-- What the search for a chain relies on about the tree. -/
structure Grounded (s : ChainstateManager) : Prop where
  closed : ∀ p f, child p f ∈ s.blocks → p ∈ s.blocks
  rooted : ∀ a ∈ s.blocks, ∀ b ∈ s.blocks, ∃ g, Ancestor g a ∧ Ancestor g b
  parent : ∀ p f, child p f ∈ s.blocks → s.Linked (child p f) → s.Linked p
  received : ∀ b ∈ s.blocks, s.Linked b → s.Received b

namespace Grounded

theorem frame (grounded : s.Grounded) (frame : Frame s s') : s'.Grounded where
  closed := by
    rw [frame.blocks]
    exact grounded.closed
  rooted := by
    rw [frame.blocks]
    exact grounded.rooted
  parent := by
    rw [frame.blocks]
    intro p f known linked
    exact frame.linked.mpr (grounded.parent p f known (frame.linked.mp linked))
  received := by
    rw [frame.blocks]
    intro b known linked
    exact frame.received.mpr (grounded.received b known (frame.linked.mp linked))

theorem known (grounded : s.Grounded) (mem : b ∈ s.blocks) (lt : Ancestor a b) :
    a ∈ s.blocks :=
  mem_blocks_of_ancestor grounded.closed mem lt

theorem linked (grounded : s.Grounded) (mem : b ∈ s.blocks) (isLinked : s.Linked b)
    (lt : Ancestor a b) : s.Linked a := by
  induction lt with
  | refl => exact isLinked
  | step _ ih => exact ih (grounded.closed _ _ mem) (grounded.parent _ _ mem isLinked)

end Grounded

/-- Work rises along every branch of the index. -/
def Rising (s : ChainstateManager) : Prop :=
  ∀ p f, child p f ∈ s.blocks → p.nChainWork < (child p f).nChainWork

theorem rank_lt_of_rising (rising : s.Rising) (mem : child p f ∈ s.blocks) :
    s.rank env p < s.rank env (child p f) :=
  Prod.Lex.toLex_lt_toLex.mpr (.inl (rising p f mem))

/-- What holds at every point of a run of `ActivateBestChain`. -/
structure Underway (env : IndexEnv) (connector : BlockConnector) (s : ChainstateManager)
    (tip floor : CBlockIndex) : Prop where
  isTip : s.tip = some tip
  grounded : s.Grounded
  failed : ∀ b ∈ s.blocks, s.Sound b → (s.nStatus b).failed = false
  tipKnown : tip ∈ s.blocks
  tipLinked : s.Linked tip
  tipUnmarked : ∀ a, Ancestor a tip → (s.nStatus a).failed = false
  tipAccepted : ∀ p f, Ancestor (child p f) tip → connector.accepts (child p f) = true
  floorCandidate : floor ∈ s.setBlockIndexCandidates
  floorSound : s.Sound floor
  floorAccepted : ∀ p f, Ancestor (child p f) floor → connector.accepts (child p f) = true
  candidates : ∀ c ∈ s.setBlockIndexCandidates,
    c ∈ s.blocks ∧ s.Linked c ∧ s.rank env floor ≤ s.rank env c
  complete : ∀ b ∈ s.blocks, s.Linked b → s.Sound b → s.rank env floor ≤ s.rank env b →
    b ∈ s.setBlockIndexCandidates
  below : s.Rising → s.rank env tip ≤ s.rank env floor

namespace Underway

variable (underway : Underway env connector s tip floor)
include underway

theorem contains : s.contains b = true ↔ Ancestor b tip :=
  contains_iff underway.isTip

theorem note (bestInvalid bestHeader : Option CBlockIndex) :
    Underway env connector { s with bestInvalid, bestHeader } tip floor :=
  { underway with grounded := underway.grounded.frame (.aside s _ _ _ bestInvalid bestHeader) }

theorem eraseCandidate (unsound : ¬ s.Sound b) :
    Underway env connector (s.eraseCandidate b) tip floor := by
  have frame : Frame s (s.eraseCandidate b) := .aside s _ _ _ _ _
  refine { underway with grounded := underway.grounded.frame frame, floorCandidate := ?_,
                         candidates := ?_, complete := ?_ }
  · refine (mem_eraseCandidate s).mpr ⟨underway.floorCandidate, ?_⟩
    rintro rfl
    exact unsound underway.floorSound
  · intro c mem
    exact underway.candidates c ((mem_eraseCandidate s).mp mem).1
  · intro c known linked sound good
    refine (mem_eraseCandidate s).mpr ⟨underway.complete c known linked sound good, ?_⟩
    rintro rfl
    exact unsound sound

theorem mark (frame : Frame s (s.modifyStatus b change))
    (kept : ∀ c, (s.modifyStatus b change).Sound c → s.Sound c ∧ c ≠ b)
    (floorSound : (s.modifyStatus b change).Sound floor) (off : ¬ Ancestor b tip) :
    Underway env connector (s.modifyStatus b change) tip floor := by
  refine { underway with grounded := underway.grounded.frame frame, floorSound,
                         failed := failed_modifyStatus kept underway.failed,
                         tipLinked := frame.linked.mpr underway.tipLinked, tipUnmarked := ?_,
                         candidates := ?_, complete := ?_, below := ?_ }
  · intro c active
    have ne : c ≠ b := fun same => off (same ▸ active)
    rw [nStatus_modifyStatus_of_ne ne]
    exact underway.tipUnmarked c active
  · intro c mem
    obtain ⟨known, linked, good⟩ := underway.candidates c mem
    rw [frame.rank]
    exact ⟨known, frame.linked.mpr linked, good⟩
  · intro c known linked sound good
    rw [frame.rank] at good
    exact underway.complete c known (frame.linked.mp linked) (kept c sound).1 good
  · rw [frame.rank]
    exact underway.below

theorem markChild (unsound : ¬ s.Sound a) (below : Ancestor a b) (off : ¬ Ancestor a tip) :
    Underway env connector (s.markChild b) tip floor :=
  underway.mark frame_markChild (fun _ => kept_markChild unsound below)
    (sound_markChild.mpr underway.floorSound) fun active => off (below.trans active)

theorem markFailed (off : ¬ Ancestor b tip) (apart : ¬ Ancestor b floor) :
    Underway env connector (s.markFailed b) tip floor :=
  underway.mark frame_markFailed (fun _ => kept_markFailed)
    (sound_markFailed.mpr ⟨underway.floorSound, apart⟩) off

theorem refuse (refused : connector.accepts (child tip f) = false) :
    Underway env connector ((s.markFailed (child tip f)).eraseCandidate (child tip f)) tip floor := by
  have apart : ¬ Ancestor (child tip f) floor := by
    intro lt
    cases (underway.floorAccepted tip f lt).symm.trans refused
  exact (underway.markFailed not_ancestor_child apart).eraseCandidate
    fun sound => (sound_markFailed.mp sound).2 .refl

end Underway

theorem lastCandidate_spec (l : List CBlockIndex) :
    l = [] ∨ ∃ c ∈ l, s.lastCandidate env l = some c ∧ ∀ d ∈ l, s.rank env d ≤ s.rank env c := by
  induction l with
  | nil => exact .inl rfl
  | cons c rest ih =>
    right
    obtain rfl | ⟨best, mem, found, highest⟩ := ih
    · exact ⟨c, mem_cons_self, rfl, by simp⟩
    simp only [lastCandidate, found]
    split
    · rename_i better
      have less := worse_iff.mp better
      refine ⟨c, mem_cons_self, rfl, ?_⟩
      simp only [mem_cons, forall_eq_or_imp, le_refl, true_and]
      exact fun d inRest => (highest d inRest).trans less.le
    · rename_i notBetter
      refine ⟨best, mem_cons_of_mem c mem, rfl, ?_⟩
      simp only [mem_cons, forall_eq_or_imp]
      exact ⟨not_worse_iff.mp (Bool.not_eq_true _ ▸ notBetter), highest⟩

theorem testUsable_cases (underway : Underway env connector s tip floor) (mem : b ∈ s.blocks)
    (linked : s.Linked b) (above : List CBlockIndex)
    (rest : Except Fault (Option (List CBlockIndex × CBlockIndex))) :
    (s.testUsable above b rest = .ok none ∧ Ancestor b tip) ∨
    (s.testUsable above b rest = .ok (some (above, b)) ∧ ¬ Ancestor b tip ∧
      (s.nStatus b).failed = true) ∨
    (s.testUsable above b rest = rest ∧ ¬ Ancestor b tip ∧ (s.nStatus b).failed = false) := by
  have received : (s.nStatus b).haveData = true := underway.grounded.received b mem linked
  simp only [testUsable, underway.contains, haveNumChainTxs_iff.mpr linked, received,
    Bool.true_or, Bool.not_true, Bool.or_false]
  by_cases active : Ancestor b tip
  · exact .inl ⟨if_pos active, active⟩
  · rw [if_neg active]
    cases marked : (s.nStatus b).failed with
    | true => exact .inr (.inl ⟨rfl, active, rfl⟩)
    | false => exact .inr (.inr ⟨rfl, active, rfl⟩)

/-- The walk down from a candidate ends at the active chain or at a failed block. -/
theorem findUnusable_spec (underway : Underway env connector s tip floor) (known : b ∈ s.blocks)
    (linked : s.Linked b) (above : List CBlockIndex) :
    (s.findUnusable above b = .ok none ∧
      ∀ a, Ancestor a b → ¬ Ancestor a tip → (s.nStatus a).failed = false) ∨
    ∃ more test, s.findUnusable above b = .ok (some (above ++ more, test)) ∧ test ∈ s.blocks ∧
      ¬ Ancestor test tip ∧ (s.nStatus test).failed = true ∧
      (∀ x ∈ more, x ∈ s.blocks ∧ Ancestor test x) ∧ (b ∈ more ∨ b = test) := by
  induction b generalizing above with
  | genesis f =>
    obtain ⟨stops, active⟩ | ⟨stops, off, marked⟩ | ⟨passes, off, clean⟩ :=
      testUsable_cases underway known linked above (.ok none)
    · exact .inl ⟨stops, fun a lower off => absurd (lower.trans active) off⟩
    · exact .inr ⟨[], _, by rw [append_nil]; exact stops, known, off, marked, by simp, .inr rfl⟩
    · refine .inl ⟨passes, fun a lower _ => ?_⟩
      cases lower with
      | refl => exact clean
  | child p f ih =>
    obtain ⟨stops, active⟩ | ⟨stops, off, marked⟩ | ⟨passes, off, clean⟩ :=
      testUsable_cases underway known linked above (s.findUnusable (above ++ [child p f]) p)
    · exact .inl ⟨stops, fun a lower off => absurd (lower.trans active) off⟩
    · exact .inr ⟨[], _, by rw [append_nil]; exact stops, known, off, marked, by simp, .inr rfl⟩
    obtain ⟨lower, unmarked⟩ | ⟨more, test, lower, testKnown, testOff, marked, between, last⟩ :=
      ih (underway.grounded.closed p f known) (underway.grounded.parent p f known linked)
        (above ++ [child p f])
    · refine .inl ⟨passes.trans lower, fun a lt off => ?_⟩
      cases lt with
      | refl => exact clean
      | step lt => exact unmarked a lt off
    have aboveTest : Ancestor test p := by
      obtain mem | rfl := last
      · exact (between p mem).2
      · exact .refl
    refine .inr ⟨child p f :: more, test, ?_, testKnown, testOff, marked, ?_,
      .inl mem_cons_self⟩
    · rw [append_assoc] at lower
      exact passes.trans lower
    · simp only [mem_cons, forall_eq_or_imp]
      exact ⟨⟨known, .step aboveTest⟩, between⟩

theorem removeAbove_fold (above : List CBlockIndex) (underway : Underway env connector s tip floor)
    (failed : (s.nStatus test).failed = true) (mem : test ∈ s.blocks) (off : ¬ Ancestor test tip)
    (between : ∀ x ∈ above, x ∈ s.blocks ∧ Ancestor test x) :
    ∃ s', above.foldl (removeAbove true) s = s' ∧ Underway env connector s' tip floor ∧
      Writes env connector s s' ∧ (s'.nStatus test).failed = true ∧
      s'.setBlockIndexCandidates = s.setBlockIndexCandidates.filter (· ∉ above) := by
  induction above generalizing s with
  | nil => exact ⟨s, rfl, underway, .refl, failed, by simp⟩
  | cons x rest ih =>
    simp only [mem_cons, forall_eq_or_imp] at between
    obtain ⟨⟨known, lt⟩, later⟩ := between
    have unsound : ¬ s.Sound test := by
      intro sound
      rw [underway.failed test mem sound] at failed
      cases failed
    have marked := underway.markChild unsound lt off
    have removed := marked.eraseCandidate (b := x) fun sound =>
      unsound ((sound_markChild.mp sound).ancestor lt)
    obtain ⟨s', run, underway', writes, failed', left⟩ := ih removed
      (failed_markChild.mpr (.inr failed)) mem later
    refine ⟨s', run, underway', ?_, failed', ?_⟩
    · refine .head (.inherit underway.isTip known lt failed off) (.head ?_ writes)
      exact .aside _ _ _
    rw [left]
    change (s.setBlockIndexCandidates.filter (· ≠ x)).filter (· ∉ rest) = _
    rw [filter_filter]
    refine filter_congr fun c _ => ?_
    simp only [mem_cons, not_or, ← Bool.decide_and]
    exact decide_eq_decide.mpr and_comm

/-- A block that may be the next tip: nothing on its branch has failed, and no
    candidate is better. -/
structure Target (env : IndexEnv) (s : ChainstateManager) (target : CBlockIndex) : Prop where
  known : target ∈ s.blocks
  linked : s.Linked target
  unmarked : ∀ a, Ancestor a target → (s.nStatus a).failed = false
  best : ∀ c ∈ s.setBlockIndexCandidates, s.rank env c ≤ s.rank env target

theorem removeChain_spec (underway : Underway env connector s tip floor)
    (failed : (s.nStatus test).failed = true) (mem : test ∈ s.blocks) (off : ¬ Ancestor test tip)
    (between : ∀ x ∈ above, x ∈ s.blocks ∧ Ancestor test x) :
    ∃ s', s.removeChain c above test = s' ∧ Underway env connector s' tip floor ∧
      Writes env connector s s' ∧
      s'.setBlockIndexCandidates =
        (s.setBlockIndexCandidates.filter (· ∉ above)).filter (· ≠ test) := by
  obtain ⟨best, removed⟩ : ∃ best, s.removeChain c above test =
      (above.foldl (removeAbove true) { s with bestInvalid := best }).eraseCandidate test := by
    rw [removeChain, failed]
    exact ⟨_, rfl⟩
  obtain ⟨s', run, underway', writes, failed', left⟩ :=
    removeAbove_fold above (underway.note best s.bestHeader) failed mem off between
  have unsound : ¬ s'.Sound test := by
    intro sound
    rw [underway'.failed test (by rw [writes.frame.blocks]; exact mem) sound] at failed'
    cases failed'
  refine ⟨s'.eraseCandidate test, by rw [removed, run], underway'.eraseCandidate unsound, ?_, ?_⟩
  · refine .head (.aside s.setBlockIndexCandidates best s.bestHeader) (writes.tail ?_)
    exact .aside _ _ _
  · rw [← left]
    rfl

theorem findMostWork_spec (underway : Underway env connector s tip floor)
    (le : s.setBlockIndexCandidates.length ≤ passes) :
    ∃ s' target, findMostWork env passes s = .ok (s', some target) ∧
      Underway env connector s' tip floor ∧ Target env s' target ∧ Writes env connector s s' := by
  induction passes generalizing s with
  | zero =>
    have ne := length_pos_of_mem underway.floorCandidate
    omega
  | succ passes ih =>
    obtain empty | ⟨c, mem, last, best⟩ := @lastCandidate_spec env s s.setBlockIndexCandidates
    · have floorCandidate := underway.floorCandidate
      rw [empty] at floorCandidate
      cases floorCandidate
    obtain ⟨known, linked, -⟩ := underway.candidates c mem
    rw [findMostWork, last]
    obtain ⟨walk, unmarked⟩ | ⟨more, test, walk, testKnown, off, failed, between, ends⟩ :=
      findUnusable_spec underway known linked []
    · refine ⟨s, c, ?_, underway, ⟨known, linked, ?_, best⟩, .refl⟩
      · simp only [walk]
        rfl
      · intro a lt
        by_cases active : Ancestor a tip
        · exact underway.tipUnmarked a active
        · exact unmarked a lt active
    obtain ⟨s₁, removed, underway', writes, left⟩ :=
      removeChain_spec (c := c) underway failed testKnown off between
    have fewer : s₁.setBlockIndexCandidates.length < s.setBlockIndexCandidates.length := by
      rw [left, filter_filter]
      refine length_filter_lt_length_iff_exists.mpr ⟨c, mem, ?_⟩
      obtain inside | rfl := ends
      · simp [inside]
      · simp
    obtain ⟨s', target, run, underway'', isTarget, writes'⟩ := ih underway' (by omega)
    refine ⟨s', target, ?_, underway'', isTarget, writes.trans writes'⟩
    simp only [walk]
    rw [← run, ← removed]
    rfl

end ChainstateManager

end HobbyHash
