import HobbyHash.TxRequest.Naive

/-! # The tracker's invariant

What `SanityCheck` asserts, kept by the functions that change one announcement. Of each
txhash at most one announcement is selected, a ready one needs a selected one, the best
one has the highest priority, and not all announcements are completed. Each function
relies on the order of the container: the announcement to compare with stands next to
the one at hand.
-/

namespace HobbyHash.TxRequest

open Machine Library List Function

variable {sipHash : Uint256 → NodeId → UInt64} {index : List Announcement}
  {ann next : Announcement} {txhash : Uint256}

def Announcement.slot (ann : Announcement) : NodeId × Uint256 := (ann.peer, ann.txhash)

def tally (index : List Announcement) (peer : NodeId) : PeerInfo :=
  ⟨index.countP (·.peer = peer), index.countP fun a => a.peer = peer && a.state = .completed,
    index.countP fun a => a.peer = peer && a.state = .requested⟩

def recomputePeerInfo (index : List Announcement) (peer : NodeId) : Option PeerInfo :=
  if (tally index peer).total = 0 then none else some (tally index peer)

theorem tally_eq_zero {peer} (none : (tally index peer).total = 0) (p : Announcement → Bool) :
    index.countP (fun a => decide (a.peer = peer) && p a) = 0 := by
  have noneOf : ∀ a ∈ index, ¬a.peer = peer := by simpa [tally] using none
  rw [countP_eq_zero]
  intro a inA
  simp [noneOf a inA]

/-- The tracker with statistics that fit its container. -/
def holding (sequence revision : Nat) (index : List Announcement) : Tracker :=
  ⟨sequence, index, revision, recomputePeerInfo index⟩

/-- A tracker whose statistics fit its container, and what holds of the container. -/
def Holds (sequence : Nat) (post : List Announcement → Prop) (tracker : Tracker) : Prop :=
  ∃ revision index, tracker = holding sequence revision index ∧ post index

variable {bad : Fault → Prop} {sequence revision : Nat}

theorem split_of_mem (nodup : index.Nodup) (mem : ann ∈ index) :
    ∃ front back, index = front ++ ann :: back ∧ ann ∉ front ∧ ann ∉ back := by
  obtain ⟨front, back, rfl⟩ := append_of_mem mem
  have apart := nodup_middle.mp nodup
  simp only [nodup_cons, mem_append, not_or] at apart
  exact ⟨front, back, rfl, apart.1.1, apart.1.2⟩

theorem replace_middle (nmem : ann ∉ front) (notBack : ann ∉ back) :
    replace (front ++ ann :: back) ann next = front ++ next :: back := by
  have unchanged (l : List Announcement) (absent : ann ∉ l) :
      (l.map fun a => if a = ann then next else a) = l := by
    have same : ∀ a ∈ l, (if a = ann then next else a) = id a := by
      intro a mem
      have ne : a ≠ ann := fun same => absent (same ▸ mem)
      simp [ne]
    rw [map_congr_left same, map_id]
  simp [replace, unchanged front nmem, unchanged back notBack]

theorem tally_middle (front back : List Announcement) (ann : Announcement) (peer : NodeId) :
    tally (front ++ ann :: back) peer =
      if ann.peer = peer then
        ⟨(tally (front ++ back) peer).total + 1,
          (tally (front ++ back) peer).completed + inState ann .completed,
          (tally (front ++ back) peer).requested + inState ann .requested⟩
      else tally (front ++ back) peer := by
  by_cases same : ann.peer = peer
  · simp [tally, same, inState, countP_cons, countP_append, Nat.add_assoc]
  · simp [tally, same, countP_append]

theorem recomputePeerInfo_middle (front back : List Announcement) (ann : Announcement) :
    recomputePeerInfo (front ++ ann :: back) ann.peer =
      some (tally (front ++ ann :: back) ann.peer) := by
  simp [recomputePeerInfo, tally_middle]

theorem modify_holding (nodup : index.Nodup) (mem : ann ∈ index) (peer : next.peer = ann.peer) :
    modify (holding sequence revision index) ann next =
      .ok (holding sequence (revision + 1) (replace index ann next)) := by
  obtain ⟨front, back, rfl, notFront, notBack⟩ := split_of_mem nodup mem
  simp only [modify, holding, recomputePeerInfo_middle, replace_middle notFront notBack]
  congr 2
  funext p
  by_cases same : p = ann.peer
  · subst same
    rw [update_self, ← peer, recomputePeerInfo_middle]
    simp [tally_middle, peer]
  · have ne : ann.peer ≠ p := fun eq => same eq.symm
    simp [update_of_ne same, recomputePeerInfo, tally_middle, peer, ne]

theorem erase_holding (nodup : index.Nodup) (mem : ann ∈ index) :
    erase (holding sequence revision index) ann =
      .ok (holding sequence (revision + 1) (index.erase ann)) := by
  obtain ⟨front, back, rfl, notFront, notBack⟩ := split_of_mem nodup mem
  have erased : (front ++ ann :: back).erase ann = front ++ back := by
    rw [erase_append_right _ notFront, erase_cons_head]
  simp only [erase, holding, recomputePeerInfo_middle, erased]
  congr 2
  funext p
  by_cases same : p = ann.peer
  · subst same
    simp [recomputePeerInfo, tally_middle]
  · have ne : ann.peer ≠ p := fun eq => same eq.symm
    simp [update_of_ne same, recomputePeerInfo, tally_middle, ne]

theorem eraseAll_holding (nodup : index.Nodup) (ne : anns.Nodup) (members : ∀ a ∈ anns, a ∈ index) :
    Ensures bad (eraseAll (holding sequence revision index) anns)
      (Holds sequence (· = index.filter (· ∉ anns))) := by
  induction anns generalizing index revision with
  | nil => exact .pure ⟨revision, index, rfl, by simp⟩
  | cons ann anns ih =>
    obtain ⟨absent, ne⟩ := nodup_cons.mp ne
    have rest : ∀ a ∈ anns, a ∈ index.erase ann := by
      intro a mem
      have other : a ≠ ann := fun same => absent (same ▸ mem)
      exact (mem_erase_of_ne other).mpr (members a (mem_cons_of_mem ann mem))
    have kept : (index.erase ann).filter (· ∉ anns) = index.filter (· ∉ ann :: anns) := by
      rw [nodup.erase_eq_filter, filter_filter]
      apply filter_congr
      intro a _
      by_cases same : a = ann
      · simp [same]
      · simp [same]
    rw [← kept]
    exact .bindOk (erase_holding nodup (members ann mem_cons_self))
      (ih (nodup.erase ann) ne rest)

theorem eraseAll_txhash (txhash : Uint256) (nodup : index.Nodup) (ne : anns.Nodup)
    (members : ∀ a, a ∈ anns ↔ a ∈ index ∧ a.txhash = txhash) :
    Ensures bad (eraseAll (holding sequence revision index) anns)
      (Holds sequence (· = index.filter (·.txhash ≠ txhash))) := by
  have kept : index.filter (· ∉ anns) = index.filter (·.txhash ≠ txhash) := by
    apply filter_congr
    intro a inA
    simp [members, inA]
  rw [← kept]
  exact eraseAll_holding nodup ne fun a inA => ((members a).mp inA).1

section Order

variable {a b c : Announcement}

theorem byTxHashKey_le_iff :
    byTxHashKey sipHash a ≤ byTxHashKey sipHash b ↔
      a.txhash.toNat < b.txhash.toNat ∨ a.txhash = b.txhash ∧
        (a.state.rank < b.state.rank ∨ a.state.rank = b.state.rank ∧
          (if a.state = .candidateReady then (priority sipHash a).toNat else 0) ≤
            if b.state = .candidateReady then (priority sipHash b).toNat else 0) := by
  simp only [byTxHashKey, byTxHashView, Prod.Lex.toLex_le_toLex, BitVec.toNat_inj]

theorem rank_le_of_key (le : byTxHashKey sipHash a ≤ byTxHashKey sipHash b)
    (eq : a.txhash = b.txhash) : a.state.rank ≤ b.state.rank := by
  rw [byTxHashKey_le_iff, eq] at le
  omega

theorem key_lt_of_rank (eq : a.txhash = b.txhash) (lt : a.state.rank < b.state.rank) :
    byTxHashKey sipHash a < byTxHashKey sipHash b := by
  rw [← not_le, byTxHashKey_le_iff, eq]
  omega

theorem priority_le_of_key (le : byTxHashKey sipHash a ≤ byTxHashKey sipHash b)
    (eq : a.txhash = b.txhash) (readyA : a.state = .candidateReady)
    (readyB : b.state = .candidateReady) : priority sipHash a ≤ priority sipHash b := by
  rw [byTxHashKey_le_iff, if_pos readyA, if_pos readyB, eq, readyA, readyB] at le
  rw [UInt64.le_iff_toNat_le]
  omega

theorem txhash_between (low : byTxHashKey sipHash a ≤ byTxHashKey sipHash b)
    (le : byTxHashKey sipHash b ≤ byTxHashKey sipHash c) (eq : a.txhash = c.txhash) :
    b.txhash = a.txhash := by
  rw [byTxHashKey_le_iff] at low le
  rw [eq] at low ⊢
  rcases low with lt | ⟨equal, -⟩
  · rcases le with above | ⟨equal, -⟩
    · omega
    · exact equal
  · exact equal.symm

end Order

/-- Of the txhash either no announcement is selected and none is ready, or one is
    selected that has the highest priority, unless it is requested already. -/
def Settled (sipHash : Uint256 → NodeId → UInt64) (index : List Announcement)
    (txhash : Uint256) : Prop :=
  (∀ a ∈ index, a.txhash = txhash → ¬a.isSelected ∧ a.state ≠ .candidateReady) ∨
  ∃ w ∈ index, w.txhash = txhash ∧ w.isSelected ∧ ∀ a ∈ index, a.txhash = txhash → a ≠ w →
    ¬a.isSelected ∧ (a.state = .candidateReady → w.state = .candidateBest →
      priority sipHash a ≤ priority sipHash w)

/-- What `SanityCheck` asserts. -/
structure Sane (sipHash : Uint256 → NodeId → UInt64) (index : List Announcement) : Prop where
  unique : (index.map (·.slot)).Nodup
  settled : ∀ txhash, Settled sipHash index txhash
  alive : ∀ a ∈ index, ∃ b ∈ index, b.txhash = a.txhash ∧ b.state ≠ .completed

namespace Sane

variable {a b : Announcement}

variable (sane : Sane sipHash index)
include sane

theorem nodup : index.Nodup := List.Nodup.of_map _ sane.unique

theorem eq_of_slot (inA : a ∈ index) (inB : b ∈ index) (peer : a.peer = b.peer)
    (txhash : a.txhash = b.txhash) : a = b := by
  apply inj_on_of_nodup_map sane.unique inA inB
  simp [Announcement.slot, peer, txhash]

/-- The selected announcement of a txhash is the only one and the best one. -/
theorem others_of_selected (inA : a ∈ index) (sel : a.isSelected) (inB : b ∈ index)
    (eq : b.txhash = a.txhash) (ne : b ≠ a) :
    ¬b.isSelected ∧ (b.state = .candidateReady → a.state = .candidateBest →
      priority sipHash b ≤ priority sipHash a) := by
  rcases sane.settled a.txhash with idle | ⟨w, -, -, -, others⟩
  · exact absurd sel (idle a inA rfl).1
  have winner : a = w := by
    by_contra differs
    exact (others a inA rfl differs).1 sel
  subst winner
  exact others b inB eq ne

theorem of_frame {after} (unique : (after.map (·.slot)).Nodup)
    (frame : ∀ a, a.txhash ≠ txhash → (a ∈ after ↔ a ∈ index))
    (settled : Settled sipHash after txhash)
    (alive : ∀ a ∈ after, a.txhash = txhash → ∃ b ∈ after, b.txhash = txhash ∧ b.state ≠ .completed) :
    Sane sipHash after where
  unique := unique
  settled := by
    intro h
    by_cases same : h = txhash
    · exact same ▸ settled
    have members (a : Announcement) (of : a.txhash = h) : a ∈ after ↔ a ∈ index :=
      frame a (of ▸ same)
    rcases sane.settled h with idle | ⟨w, inW, ofW, sel, others⟩
    · exact .inl fun a inA of => idle a ((members a of).mp inA) of
    · refine .inr ⟨w, (members w ofW).mpr inW, ofW, sel, ?_⟩
      exact fun a inA of => others a ((members a of).mp inA) of
  alive := by
    intro a inA
    by_cases same : a.txhash = txhash
    · simpa [same] using alive a inA same
    · obtain ⟨b, inB, of, open_⟩ := sane.alive a ((frame a same).mp inA)
      exact ⟨b, (frame b (of ▸ same)).mpr inB, of, open_⟩

end Sane

def reassign (index : List Announcement) (states : Announcement → State) : List Announcement :=
  index.map fun a => a.setState (states a)

section Reassign

variable {states : Announcement → State} {state : State} {a : Announcement}

theorem reassign_state (index : List Announcement) : reassign index (·.state) = index :=
  map_id' index

theorem map_slot_reassign (index : List Announcement) (states : Announcement → State) :
    (reassign index states).map (·.slot) = index.map (·.slot) := by
  rw [reassign, map_map]
  rfl

theorem mem_reassign_of (mem : a ∈ index) : a.setState (states a) ∈ reassign index states :=
  mem_map.mpr ⟨a, mem, rfl⟩

theorem mem_reassign_update (mem : a ∈ index) :
    b ∈ reassign index (update (·.state) a state) ↔
      b = a.setState state ∨ b ∈ index ∧ b ≠ a := by
  constructor
  · intro inB
    obtain ⟨c, inC, rfl⟩ := mem_map.mp inB
    by_cases same : c = a
    · simp [same]
    · simpa [same] using .inr inC
  · rintro (rfl | ⟨inB, other⟩)
    · exact mem_map.mpr ⟨a, mem, by simp⟩
    · exact mem_map.mpr ⟨b, inB, by simp [other]⟩

theorem replace_reassign (unique : (index.map (·.slot)).Nodup) (mem : a ∈ index) :
    replace (reassign index states) (a.setState (states a)) (a.setState state) =
      reassign index (update states a state) := by
  rw [replace, reassign, map_map]
  apply map_congr_left
  intro b inB
  by_cases same : b = a
  · subst same
    simp
  have ne : b.setState (states b) ≠ a.setState (states a) := by
    intro equal
    have slots := congrArg Announcement.slot equal
    exact same (inj_on_of_nodup_map unique inB mem slots)
  simp [same, ne]

theorem modify_reassign (unique : (index.map (·.slot)).Nodup) (mem : a ∈ index) :
    modify (holding sequence revision (reassign index states)) (a.setState (states a))
        (a.setState state) =
      .ok (holding sequence (revision + 1) (reassign index (update states a state))) := by
  have nodup : (reassign index states).Nodup :=
    List.Nodup.of_map (·.slot) (by rwa [map_slot_reassign])
  have run := @modify_holding _ _ (a.setState state) sequence revision nodup
    (mem_reassign_of mem) rfl
  rw [run, replace_reassign unique mem]

theorem modify_state (unique : (index.map (·.slot)).Nodup) (mem : a ∈ index) :
    modify (holding sequence revision index) a (a.setState state) =
      .ok (holding sequence (revision + 1)
        (reassign index (update (·.state) a state))) := by
  have run := @modify_reassign _ sequence revision (·.state) state _ unique mem
  rwa [reassign_state] at run

/-- New states that leave all but `it` as they are, up to which announcement of its txhash
    is the best. -/
def Reselects (index : List Announcement) (it : Announcement) (states : Announcement → State) :
    Prop :=
  ∀ a ∈ index, a ≠ it → states a = a.state ∨
    (a.txhash = it.txhash ∧ a.isSelectable ∧
      (states a = .candidateReady ∨ states a = .candidateBest))

/-- What is left once `it` is in one of the states. -/
def Reselected (sipHash : Uint256 → NodeId → UInt64) (index : List Announcement) (it : Announcement)
    (allowed : State → Prop) (remaining : List Announcement) : Prop :=
  ∃ states, remaining = reassign index states ∧ Sane sipHash remaining ∧
    Reselects index it states ∧ allowed (states it)

section Reselects

variable {it best : Announcement} {allowed : State → Prop}

theorem reselects_update : Reselects index it (update (·.state) it state) :=
  fun a _ other => .inl (by simp [other])

theorem reselects_swap (of : best.txhash = it.txhash) (selectable : best.isSelectable)
    (marks : new = .candidateReady ∨ new = .candidateBest) :
    Reselects index it (update (update (·.state) best new) it state) := by
  intro a _ other
  by_cases same : a = best
  · subst same
    exact .inr ⟨of, selectable, by simpa [other] using marks⟩
  · exact .inl (by simp [other, same])

/-- New states for the announcements of a txhash keep the invariant if one of the selected
    ones wins, or none is selected and none is ready. -/
theorem Sane.reselected (sane : Sane sipHash index) (reselects : Reselects index it states)
    (new : allowed (states it))
    (settled : (∀ a ∈ index, a.txhash = it.txhash →
        states a = .candidateDelayed ∨ states a = .completed) ∨
      ∃ w ∈ index, w.txhash = it.txhash ∧ (states w = .candidateBest ∨ states w = .requested) ∧
        ∀ a ∈ index, a.txhash = it.txhash → a ≠ w →
          ¬(states a = .candidateBest ∨ states a = .requested) ∧
          (states a = .candidateReady → states w = .candidateBest →
            priority sipHash a ≤ priority sipHash w))
    (alive : ∃ a ∈ index, a.txhash = it.txhash ∧ states a ≠ .completed) :
    Reselected sipHash index it allowed (reassign index states) := by
  have frame (a : Announcement) (inA : a ∈ index) (other : a.txhash ≠ it.txhash) :
      states a = a.state := by
    have away : a ≠ it := by rintro rfl; exact other rfl
    exact (reselects a inA away).resolve_right fun ⟨of, _⟩ => other of
  refine ⟨states, rfl, @Sane.of_frame sipHash index it.txhash sane _ ?unique ?frame ?settled ?alive,
    reselects, new⟩
  case unique => rw [map_slot_reassign]; exact sane.unique
  case frame =>
    intro a other
    constructor
    · intro mem
      obtain ⟨b, inB, rfl⟩ := mem_map.mp mem
      simpa [frame b inB other] using inB
    · intro mem
      exact mem_map.mpr ⟨a, mem, by simp [frame a mem other]⟩
  case settled =>
    rcases settled with idle | ⟨w, inW, ofW, sel, others⟩
    · left
      intro a mem of
      obtain ⟨b, inB, rfl⟩ := mem_map.mp mem
      rcases idle b inB of with delayed | completed
      · simp [delayed]
      · simp [completed]
    right
    refine ⟨w.setState (states w), mem_reassign_of inW, ofW, ?_, ?_⟩
    · simpa using sel
    · intro a mem of ne
      obtain ⟨b, inB, rfl⟩ := mem_map.mp mem
      have other : b ≠ w := fun same => ne (same ▸ rfl)
      simpa using others b inB of other
  case alive =>
    intro _ _ _
    obtain ⟨a, mem, of, open_⟩ := alive
    exact ⟨_, mem_reassign_of mem, of, open_⟩

end Reselects

end Reassign

end HobbyHash.TxRequest
