import HobbyHash.TxRequest.Time

/-! # The calls of the tracker

Each call leaves announcements whose records are those of the specification after the
same call, and keeps the invariant. `GetRequestable` returns a best record of every
txhash that can be requested from the peer.
-/

namespace HobbyHash.TxRequest

open Machine Library Naive List Function Announcement

variable {sipHash : Uint256 → NodeId → UInt64} (views : Views sipHash)
  {index : List Announcement} {bad : Fault → Prop} {sequence revision : Nat} {it : Announcement}
  {peer : NodeId} {txhash : Uint256}

section Requestable

variable {now : Int}

theorem byPeerKey_le_iff {peer₁ peer₂ best₁ best₂ txhash₁ txhash₂} :
    byPeerView peer₁ best₁ txhash₁ ≤ byPeerView peer₂ best₂ txhash₂ ↔
      peer₁ < peer₂ ∨ peer₁ = peer₂ ∧ (best₁ < best₂ ∨ best₁ = best₂ ∧
        txhash₁.toNat ≤ txhash₂.toNat) := by
  cases best₁ <;> cases best₂ <;> simp [byPeerView, Prod.Lex.toLex_le_toLex]

def isBestOf (peer : NodeId) (ann : Announcement) : Bool :=
  ann.peer = peer && ann.state = .candidateBest

theorem shows_byPeer :
    OrderedView.Shows byPeerKey index (byPeer views (holding sequence revision index)) :=
  (views.byPeer revision).shows index

theorem perm_selected :
    ((OrderedView.from_ byPeerKey (byPeerView peer true 0)
      (byPeer views (holding sequence revision index))).takeWhile (isBestOf peer)).Perm
      (index.filter (isBestOf peer)) := by
  apply (shows_byPeer views).range_perm
  · intro a _ best
    simp only [isBestOf, Bool.and_eq_true, decide_eq_true_eq] at best
    rw [byPeerKey, byPeerKey_le_iff]
    simp [best]
  intro a _ b _ above le best
  simp only [isBestOf, Bool.and_eq_true, decide_eq_true_eq] at best ⊢
  rw [byPeerKey, byPeerKey_le_iff] at above
  rw [byPeerKey, byPeerKey, byPeerKey_le_iff, best.1, decide_eq_true best.2] at le
  have notBelow (b : Bool) : ¬true < b := by cases b <;> decide
  simp only [notBelow, false_or] at above
  rcases above with above | ⟨same, isBest, -⟩
  · rcases le with le | ⟨le, -⟩
    · exact absurd (above.trans le) (lt_irrefl _)
    · exact absurd le above.ne'
  · exact ⟨same.symm, of_decide_eq_true isBest.symm⟩

theorem insertionSort_sequence {sel target : List Announcement} (perm : sel.Perm target)
    (mono : target.Pairwise fun a b => a.sequence < b.sequence) :
    sel.insertionSort (fun a b => a.sequence ≤ b.sequence) = target := by
  have ne : (target.map (·.sequence)).Nodup :=
    (pairwise_map.mpr mono).imp Nat.ne_of_lt
  have sorting := (perm_insertionSort (fun a b => a.sequence ≤ b.sequence) sel).trans perm
  have sorted : (sel.insertionSort fun a b => a.sequence ≤ b.sequence).Pairwise
      fun a b => a.sequence ≤ b.sequence := pairwise_insertionSort _ _
  apply @List.Perm.eq_of_pairwise Announcement (fun a b => a.sequence ≤ b.sequence) _ _ _ sorted
    (mono.imp Nat.le_of_lt) sorting
  intro a b inA inB le ge
  exact inj_on_of_nodup_map ne (sorting.mem_iff.mp inA) inB (Nat.le_antisymm le ge)

/-- The announcements that could be requested once the marks fit the time. -/
theorem eligible_iff (noneDue : ∀ a ∈ index, ¬due now a) (noneEarly : ∀ a ∈ index, ¬early now a)
    (inA : a ∈ index) :
    eligible now (index.map (·.forget)) a.forget = true ↔
      (a.state = .candidateReady ∨ a.state = .candidateBest) ∧
        ∀ b ∈ index, b.txhash = a.txhash → b.state ≠ .requested := by
  have ready : a.forget.isReady now = true ↔
      a.state = .candidateReady ∨ a.state = .candidateBest := by
    have notDue := noneDue a inA
    have notEarly := noneEarly a inA
    rw [due_iff] at notDue
    rw [early_iff, isSelectable_iff] at notEarly
    cases state : a.state <;> simp_all [forget, Record.isReady]
  rw [eligible, Bool.and_eq_true, ready, Bool.not_eq_true', any_eq_false]
  apply and_congr_right
  intro _
  constructor
  · intro none b inB of requested
    apply none b.forget (mem_map.mpr ⟨b, inB, rfl⟩)
    rw [Bool.and_eq_true, forget_isRequested]
    exact ⟨decide_eq_true of, requested⟩
  · intro none r member both
    obtain ⟨b, inB, rfl⟩ := mem_map.mp member
    rw [Bool.and_eq_true, forget_isRequested] at both
    exact none b inB (of_decide_eq_true both.1) both.2

theorem selection_of_sane (sane : Sane sipHash index) (noneDue : ∀ a ∈ index, ¬due now a)
    (noneEarly : ∀ a ∈ index, ¬early now a) :
    Selection sipHash now (index.map (·.forget))
      ((index.filter (·.state = .candidateBest)).map (·.forget)) := by
  have best (a : Announcement) (inA : a ∈ index) (isBest_ : a.state = .candidateBest) :
      isBest sipHash now (index.map (·.forget)) a.forget := by
    have others (b : Announcement) (inB : b ∈ index) (of : b.txhash = a.txhash) (other : b ≠ a) :=
      sane.others_of_selected inA (by simp [isBest_]) inB of other
    rw [isBest, Bool.and_eq_true, eligible_iff noneDue noneEarly inA, all_eq_true]
    refine ⟨⟨.inr isBest_, ?_⟩, ?_⟩
    · intro b inB of requested
      by_cases same : b = a
      · simp [same, isBest_] at requested
      · exact (others b inB of same).1 (by simp [requested])
    intro r member
    obtain ⟨b, inB, rfl⟩ := mem_map.mp member
    rw [decide_eq_true_iff, Bool.and_eq_true, eligible_iff noneDue noneEarly inB]
    rintro ⟨of, state, -⟩
    by_cases same : b = a
    · rw [same]
      exact UInt64.le_refl _
    · have lt := others b inB (of_decide_eq_true of) same
      rcases state with ready | best
      · exact lt.2 ready isBest_
      · exact absurd (by simp [best]) lt.1
  constructor
  case sublist =>
    have within : index.filter (·.state = .candidateBest) =
        (index.filter fun a => isBest sipHash now (index.map (·.forget)) a.forget).filter
          (·.state = .candidateBest) := by
      rw [filter_filter]
      apply filter_congr
      intro a inA
      by_cases isBest_ : a.state = .candidateBest
      · simp [isBest_, best a inA isBest_]
      · simp [isBest_]
    rw [within, filter_map]
    exact filter_sublist.map _
  case once =>
    rw [map_map]
    apply List.Nodup.map_on _ (sane.nodup.filter _)
    intro a inA b inB same
    obtain ⟨memberA, bestA⟩ := mem_filter.mp inA
    obtain ⟨memberB, bestB⟩ := mem_filter.mp inB
    by_contra other
    have lt := sane.others_of_selected memberB (by simpa using .inl (of_decide_eq_true bestB))
      memberA same other
    exact lt.1 (by simpa using .inl (of_decide_eq_true bestA))
  case all =>
    intro r member isEligible
    obtain ⟨a, inA, rfl⟩ := mem_map.mp member
    obtain ⟨state, noneRequested⟩ := (eligible_iff noneDue noneEarly inA).mp isEligible
    rcases sane.settled a.txhash with idle | ⟨w, inW, of, sel, -⟩
    · have free := idle a inA rfl
      rw [isSelected_iff] at free
      rcases state with ready | best
      · exact absurd ready free.2
      · exact absurd (.inl best) free.1
    · have isBest_ : w.state = .candidateBest :=
        (isSelected_iff.mp sel).resolve_right (noneRequested w inW of)
      refine ⟨w.forget, mem_map.mpr ⟨w, mem_filter.mpr ⟨inW, ?_⟩, rfl⟩, of⟩
      exact decide_eq_true isBest_

theorem getRequestable_spec (sane : Sane sipHash index) (peer : NodeId) (now : Int) :
    Ensures bad (getRequestable views (holding sequence revision index) peer now) fun answer =>
      Holds sequence (fun rest => Expires sipHash now index rest answer.2.1 ∧
        ∃ sel, Selection sipHash now (rest.map (·.forget)) sel ∧
          answer.1.Perm ((sel.filter (·.peer = peer)).map (·.toGenTxid)) ∧
          ((index.map (·.sequence)).Pairwise (· < ·) →
            answer.1 = (sel.filter (·.peer = peer)).map (·.toGenTxid))) answer.2.2 := by
  refine (setTimePoint_spec views sane now).bind ?_
  rintro ⟨_, expired⟩ ⟨after, rest, rfl, expires, noneEarly⟩
  have perm := @perm_selected _ views rest sequence after peer
  have eq : (((rest.filter (·.state = .candidateBest)).map (·.forget)).filter
      (·.peer = peer)).map (·.toGenTxid) =
      (rest.filter (isBestOf peer)).map (·.toGenTxid) := by
    rw [filter_map, filter_filter, map_map]
    rfl
  refine .pure ⟨after, rest, rfl, expires, _,
    selection_of_sane expires.sane expires.done noneEarly, ?_, ?_⟩
  · rw [eq]
    exact ((perm_insertionSort _ _).trans perm).map _
  · intro mono
    have kept := pairwise_map.mp (mono.sublist expires.ordered)
    rw [eq, ← insertionSort_sequence perm (kept.filter _)]
    rfl

end Requestable

theorem byTxHashView_le_iff :
    byTxHashView txhash₁ state₁ priority₁ ≤ byTxHashView txhash₂ state₂ priority₂ ↔
      txhash₁.toNat < txhash₂.toNat ∨ txhash₁.toNat = txhash₂.toNat ∧
        (state₁.rank < state₂.rank ∨ state₁.rank = state₂.rank ∧ priority₁ ≤ priority₂) := by
  simp only [byTxHashView, Prod.Lex.toLex_le_toLex]

theorem forgetTxHash_spec (sane : Sane sipHash index) (txhash : Uint256) :
    Ensures bad (forgetTxHash views (holding sequence revision index) txhash)
      (Holds sequence (· = index.filter (·.txhash ≠ txhash))) := by
  have range := (@shows_byTxHash _ views index sequence revision).range_perm
    (p := fun a => a.txhash = txhash) (k := byTxHashView txhash .candidateDelayed 0) ?_ ?_
  · apply eraseAll_txhash txhash sane.nodup (range.nodup_iff.mpr (sane.nodup.filter _))
    intro a
    rw [range.mem_iff, mem_filter, decide_eq_true_iff]
  · intro a _ of
    rw [byTxHashKey, byTxHashView_le_iff, of_decide_eq_true of, State.rank]
    omega
  intro a _ b _ above le of
  rw [byTxHashKey, byTxHashView_le_iff] at above
  rw [byTxHashKey, byTxHashKey, byTxHashView_le_iff, of_decide_eq_true of] at le
  apply decide_eq_true
  apply BitVec.eq_of_toNat_eq
  omega

theorem findByPeer_isSome :
    (findByPeer (holding sequence revision index) peer best txhash).isSome = true ↔
      ∃ a ∈ index, a.peer = peer ∧ decide (a.state = .candidateBest) = best ∧
        a.txhash = txhash := by
  simp [findByPeer, holding, find?_isSome, and_assoc]

theorem Sane.announce (sane : Sane sipHash index) (delayed : ann.state = .candidateDelayed)
    (fresh : ∀ a ∈ index, ¬(a.peer = ann.peer ∧ a.txhash = ann.txhash)) :
    Sane sipHash (index ++ [ann]) := by
  apply @Sane.of_frame sipHash index ann.txhash sane
  case unique =>
    rw [map_append, nodup_append]
    refine ⟨sane.unique, by simp, ?_⟩
    intro slot inIdx other inNew same
    obtain ⟨a, inA, rfl⟩ := mem_map.mp inIdx
    simp only [map_cons, map_nil, mem_singleton] at inNew
    subst inNew
    simp only [slot, Prod.mk.injEq] at same
    exact fresh a inA same
  case frame =>
    intro a other
    have ne : a ≠ ann := by rintro rfl; exact other rfl
    simp [ne]
  case settled =>
    rcases sane.settled ann.txhash with idle | ⟨w, inW, of, sel, others⟩
    · refine .inl ?_
      intro a inA of
      rcases mem_append.mp inA with old | new
      · exact idle a old of
      · simp [mem_singleton.mp new, delayed]
    refine .inr ⟨w, mem_append_left _ inW, of, sel, ?_⟩
    intro a inA ofA other
    rcases mem_append.mp inA with old | new
    · exact others a old ofA other
    · simp [mem_singleton.mp new, delayed]
  case alive =>
    intro _ _ _
    exact ⟨ann, by simp, rfl, by simp [delayed]⟩

theorem recomputePeerInfo_announce (delayed : ann.state = .candidateDelayed) :
    recomputePeerInfo (index ++ [ann]) = Function.update (recomputePeerInfo index) ann.peer
      (some { (recomputePeerInfo index ann.peer).getD {} with
        total := ((recomputePeerInfo index ann.peer).getD {}).total + 1 }) := by
  have counted : (recomputePeerInfo index ann.peer).getD {} = tally index ann.peer := by
    by_cases none : (tally index ann.peer).total = 0
    · rw [recomputePeerInfo, if_pos none, Option.getD_none]
      rw [tally, tally_eq_zero none, tally_eq_zero none]
      have total : index.countP (fun a => decide (a.peer = ann.peer)) = 0 := none
      rw [total]
    · rw [recomputePeerInfo, if_neg none, Option.getD_some]
  rw [counted]
  funext p
  have middle := tally_middle index [] ann p
  by_cases same : ann.peer = p
  · subst same
    simp [recomputePeerInfo, middle, inState, delayed]
  · rw [update_of_ne fun eq => same eq.symm]
    simp [recomputePeerInfo, middle, same]

theorem receivedInv_holding (sane : Sane sipHash index) (peer : NodeId) (gtxid : GenTxid)
    (preferred : Bool) (reqtime : Int) :
    ∃ next after added,
      receivedInv (holding sequence revision index) peer gtxid preferred reqtime =
        holding next after (index ++ added) ∧
      Sane sipHash (index ++ added) ∧
      (index ++ added).map (·.forget) =
        step (index.map (·.forget)) (.receivedInv peer gtxid preferred reqtime) ∧
      (added = [] ∧ next = sequence ∨
        added.map (·.sequence) = [sequence % 2 ^ 59] ∧ next = (sequence + 1) % 2 ^ 64) := by
  have known : (index.map (·.forget)).any (Record.isOf peer gtxid.hash) = true ↔
      ∃ a ∈ index, a.peer = peer ∧ a.txhash = gtxid.hash := by
    rw [any_map, any_eq_true]
    simp only [comp_apply, forget_isOf]
  by_cases old : ∃ a ∈ index, a.peer = peer ∧ a.txhash = gtxid.hash
  · refine ⟨sequence, revision, [], ?_, by simpa using sane, ?_, .inl ⟨rfl, rfl⟩⟩
    · obtain ⟨a, inA, of⟩ := old
      have found : (findByPeer (holding sequence revision index) peer
          (decide (a.state = .candidateBest)) gtxid.hash).isSome :=
        findByPeer_isSome.mpr ⟨a, inA, of.1, rfl, of.2⟩
      rw [append_nil, receivedInv]
      cases best : decide (a.state = .candidateBest) with
      | true =>
        rw [best] at found
        rw [if_pos found]
      | false =>
        rw [best] at found
        rw [if_pos found, ite_self]
    · rw [append_nil, step, if_pos (known.mpr old)]
  · have absent (best : Bool) :
        ¬(findByPeer (holding sequence revision index) peer best gtxid.hash).isSome := by
      rw [findByPeer_isSome]
      rintro ⟨a, inA, ofPeer, -, ofHash⟩
      exact old ⟨a, inA, ofPeer, ofHash⟩
    let ann : Announcement := ⟨⟨gtxid.hash, peer, preferred, gtxid.isWtxid⟩, sequence % 2 ^ 59,
      reqtime, .candidateDelayed⟩
    refine ⟨(sequence + 1) % 2 ^ 64, revision + 1, [ann], ?_, ?_, ?_, .inr ⟨rfl, rfl⟩⟩
    · rw [receivedInv, if_neg (absent true), if_neg (absent false)]
      have counted := @recomputePeerInfo_announce index ann rfl
      simp only [holding, counted, ann]
    · exact sane.announce rfl fun a inA of => old ⟨a, inA, of⟩
    · rw [step, if_neg (mt known.mp old), map_append]
      rfl

section Find

variable {a : Announcement} {best : Bool}

theorem findByPeer_eq_some
    (found : findByPeer (holding sequence revision index) peer best txhash = some a) :
    a ∈ index ∧ a.peer = peer ∧ a.txhash = txhash ∧
      decide (a.state = .candidateBest) = best := by
  have holds := find?_some found
  simp only [Bool.and_eq_true, decide_eq_true_eq, beq_iff_eq] at holds
  exact ⟨mem_of_find?_eq_some found, holds.1.1, holds.2, holds.1.2⟩

theorem findByPeer_of_mem (sane : Sane sipHash index) (member : a ∈ index) (best : Bool) :
    findByPeer (holding sequence revision index) a.peer best a.txhash =
      if decide (a.state = .candidateBest) = best then some a else none := by
  cases found : findByPeer (holding sequence revision index) a.peer best a.txhash with
  | none =>
    have absent := find?_eq_none.mp found a member
    simp only [Bool.and_eq_true, decide_eq_true_eq, beq_iff_eq, true_and, and_true] at absent
    rw [if_neg absent]
  | some b =>
    obtain ⟨inB, ofPeer, ofHash, mark⟩ := findByPeer_eq_some found
    rw [sane.eq_of_slot inB member ofPeer ofHash] at mark ⊢
    rw [if_pos mark]

theorem findByPeer_of_absent (absent : ∀ a ∈ index, ¬(a.peer = peer ∧ a.txhash = txhash))
    (best : Bool) : findByPeer (holding sequence revision index) peer best txhash = none := by
  cases found : findByPeer (holding sequence revision index) peer best txhash with
  | none => rfl
  | some b =>
    obtain ⟨inB, ofPeer, ofHash, -⟩ := findByPeer_eq_some found
    exact absurd ⟨ofPeer, ofHash⟩ (absent b inB)

end Find

theorem receivedResponse_spec (sane : Sane sipHash index) (peer : NodeId) (txhash : Uint256) :
    Ensures bad (receivedResponse views (holding sequence revision index) peer txhash)
      (Holds sequence fun rest => Sane sipHash rest ∧
        rest.map (·.forget) = step (index.map (·.forget)) (.receivedResponse peer txhash) ∧
        (rest.map (·.sequence)).Sublist (index.map (·.sequence))) := by
  rw [receivedResponse]
  by_cases old : ∃ a ∈ index, a.peer = peer ∧ a.txhash = txhash
  · obtain ⟨it, member, rfl, rfl⟩ := old
    have found : (findByPeer (holding sequence revision index) it.peer false it.txhash).or
        (findByPeer (holding sequence revision index) it.peer true it.txhash) = some it := by
      rw [findByPeer_of_mem sane member, findByPeer_of_mem sane member]
      cases decide (it.state = .candidateBest) with
      | true => rfl
      | false => rfl
    rw [found]
    refine (makeCompleted_spec views sane member).bind ?_
    rintro ⟨kept, _⟩ ⟨after, rest, rfl, whole, outcome⟩
    exact .pure ⟨after, rest, rfl, whole, map_forget_makeCompleted sane member whole outcome,
      outcome.ordered⟩
  · have absent : ∀ a ∈ index, ¬(a.peer = peer ∧ a.txhash = txhash) :=
      fun a inA of => old ⟨a, inA, of⟩
    simp only [findByPeer_of_absent absent, Option.or_none]
    refine .pure ⟨revision, index, rfl, sane, ?_, .refl _⟩
    rw [step, complete, map_map]
    have unchanged : ∀ a ∈ index, ((fun r : Record => if r.isOf peer txhash then
        r.setStatus .completed else r) ∘ fun a => a.forget) a = a.forget := by
      intro a inA
      exact if_neg fun isOf => absent a inA (forget_isOf.mp isOf)
    rw [map_congr_left unchanged, sane.cleanup_forget]

def Announcement.requested (ann : Announcement) (expiry : Int) : Announcement :=
  { ann with state := .requested, time := expiry }

section Request

variable {states : Announcement → State} {expiry : Int}

/-- The container with `it` requested and other states for the rest. -/
def withRequest (index : List Announcement) (states : Announcement → State) (it : Announcement)
    (expiry : Int) : List Announcement :=
  index.map fun a => if a = it then it.requested expiry else a.setState (states a)

theorem lowerBound_of_selected (sane : Sane sipHash index) {sel} (mem : sel ∈ index)
    (isSelected : sel.isSelected) :
    (OrderedView.from_ (byTxHashKey sipHash) (byTxHashView sel.txhash .candidateBest 0)
      (byTxHash views (holding sequence revision index))).head? = some sel := by
  have low : 2 ≤ sel.state.rank ∧ sel.state.rank ≤ 3 := by
    rcases isSelected_iff.mp isSelected with state | state
    · simp [state, State.rank]
    · simp [state, State.rank]
  apply (shows_byTxHash views).head_from mem
  · rw [byTxHashKey, byTxHashView_le_iff, State.rank]
    omega
  intro n inN lower upper
  rw [byTxHashKey, byTxHashView_le_iff, State.rank] at lower
  rw [byTxHashKey, byTxHashKey, byTxHashView_le_iff] at upper
  have of : n.txhash = sel.txhash := by
    apply BitVec.eq_of_toNat_eq
    omega
  have rank : 2 ≤ n.state.rank ∧ n.state.rank ≤ 3 := by omega
  by_contra differs
  apply (sane.others_of_selected mem isSelected inN of differs).1
  cases state : n.state <;> simp_all [State.rank]

structure Requests (sipHash : Uint256 → NodeId → UInt64) (index : List Announcement)
    (peer : NodeId) (txhash : Uint256) (expiry : Int) (remaining : List Announcement) : Prop where
  sane : Sane sipHash remaining
  records : remaining.map (·.forget) = step (index.map (·.forget)) (.requestedTx peer txhash expiry)
  ordered : remaining.map (·.sequence) = index.map (·.sequence)

theorem requests_nothing (sane : Sane sipHash index)
    (notKnown : ∀ a ∈ index, a.peer = peer → a.txhash = txhash → ¬a.forget.isCandidate) :
    Requests sipHash index peer txhash expiry index := by
  refine ⟨sane, ?_, rfl⟩
  have none : ¬(index.map (·.forget)).any (fun r => r.isOf peer txhash && r.isCandidate) := by
    intro known
    obtain ⟨r, inR, both⟩ := any_eq_true.mp known
    obtain ⟨a, inA, rfl⟩ := mem_map.mp inR
    rw [Bool.and_eq_true, forget_isOf] at both
    exact notKnown a inA both.1.1 both.1.2 both.2
  rw [step, if_neg none]

section Chosen

variable (sane : Sane sipHash index) (member : it ∈ index)
include sane member

theorem modify_requested (fixed : states it = it.state) :
    modify (holding sequence revision (reassign index states)) it (it.requested expiry) =
      .ok (holding sequence (revision + 1) (withRequest index states it expiry)) := by
  have nodup : (reassign index states).Nodup :=
    List.Nodup.of_map (·.slot) (by rw [map_slot_reassign]; exact sane.unique)
  have lt : it ∈ reassign index states := by
    have found := @mem_reassign_of _ states _ member
    rwa [fixed, setState_self] at found
  rw [@modify_holding _ _ (it.requested expiry) _ _ nodup lt rfl]
  congr 2
  rw [replace, reassign, map_map, withRequest]
  apply map_congr_left
  intro a inA
  by_cases same : a = it
  · simp [same, fixed]
  have ne : a.setState (states a) ≠ it := by
    intro equal
    apply same
    exact sane.eq_of_slot inA member (congrArg (·.peer) equal) (congrArg (·.txhash) equal)
  simp [same, ne]

theorem sane_withRequest
    (frame : ∀ a ∈ index, a.txhash ≠ it.txhash → states a = a.state)
    (free : ∀ a ∈ index, a.txhash = it.txhash → a ≠ it →
      states a ≠ .candidateBest ∧ states a ≠ .requested) :
    Sane sipHash (withRequest index states it expiry) := by
  have mem : it.requested expiry ∈ withRequest index states it expiry :=
    mem_map.mpr ⟨it, member, if_pos rfl⟩
  apply @Sane.of_frame sipHash index it.txhash sane
  case unique =>
    have slots : (withRequest index states it expiry).map (·.slot) = index.map (·.slot) := by
      rw [withRequest, map_map]
      apply map_congr_left
      intro a _
      by_cases same : a = it
      · simp [same]
        rfl
      · simp [same]
        rfl
    rw [slots]
    exact sane.unique
  case frame =>
    intro a other
    have away (b : Announcement) (ofB : b.txhash ≠ it.txhash) : b ≠ it := by
      rintro rfl
      exact ofB rfl
    constructor
    · intro inA
      obtain ⟨b, inB, rfl⟩ := mem_map.mp inA
      by_cases same : b = it
      · rw [if_pos same] at other
        exact absurd rfl other
      · rw [if_neg same] at other ⊢
        rwa [frame b inB other, setState_self]
    · intro inA
      refine mem_map.mpr ⟨a, inA, ?_⟩
      rw [if_neg (away a other), frame a inA other, setState_self]
  case settled =>
    refine .inr ⟨it.requested expiry, mem, rfl, by simp [requested], ?_⟩
    intro a inA of other
    obtain ⟨b, inB, rfl⟩ := mem_map.mp inA
    by_cases same : b = it
    · rw [if_pos same] at other
      exact absurd rfl other
    · rw [if_neg same] at of ⊢
      have free := free b inB of same
      simp [free, requested]
  case alive =>
    intro _ _ _
    exact ⟨_, mem, rfl, by simp [requested]⟩

variable (candidate : it.forget.isCandidate)
include candidate

theorem map_forget_withRequest
    (others : ∀ a ∈ index, a ≠ it → (a.setState (states a)).forget =
      if a.txhash = it.txhash ∧ a.state = .requested then a.forget.setStatus .completed
      else a.forget) :
    (withRequest index states it expiry).map (·.forget) =
      step (index.map (·.forget)) (.requestedTx it.peer it.txhash expiry) := by
  have known : (index.map (·.forget)).any
      (fun r => r.isOf it.peer it.txhash && r.isCandidate) = true := by
    rw [any_eq_true]
    refine ⟨it.forget, mem_map.mpr ⟨it, member, rfl⟩, ?_⟩
    rw [Bool.and_eq_true]
    exact ⟨forget_isOf.mpr ⟨rfl, rfl⟩, candidate⟩
  rw [step, if_pos known, withRequest, map_map, map_map]
  apply map_congr_left
  intro a inA
  have isOf : a.forget.isOf it.peer it.txhash = true ↔ a = it := by
    rw [forget_isOf]
    exact ⟨fun same => sane.eq_of_slot inA member same.1 same.2, by rintro rfl; exact ⟨rfl, rfl⟩⟩
  by_cases same : a = it
  · simp only [comp_apply, same, if_true, forget_isOf.mpr ⟨rfl, rfl⟩]
    rfl
  · simp only [comp_apply, if_neg same, others a inA same, if_neg (mt isOf.mp same),
      Bool.and_eq_true, decide_eq_true_eq, forget_isRequested]
    rfl

theorem requests_withRequest
    (frame : ∀ a ∈ index, a.txhash ≠ it.txhash → states a = a.state)
    (others : ∀ a ∈ index, a.txhash = it.txhash → a ≠ it →
      states a ≠ .candidateBest ∧ states a ≠ .requested ∧
      (a.setState (states a)).forget =
        if a.state = .requested then a.forget.setStatus .completed else a.forget) :
    Requests sipHash index it.peer it.txhash expiry (withRequest index states it expiry) where
  sane := by
    apply sane_withRequest sane member frame
    intro a inA of other
    have free := others a inA of other
    exact ⟨free.1, free.2.1⟩
  records := by
    apply map_forget_withRequest sane member candidate
    intro a inA other
    by_cases of : a.txhash = it.txhash
    · simpa [of] using (others a inA of other).2.2
    · simp [of, frame a inA of]
  ordered := by
    rw [withRequest, map_map]
    apply map_congr_left
    intro a _
    by_cases same : a = it
    · simp [same, requested]
    · simp [same]

theorem request_unselected
    (free : ∀ a ∈ index, a.txhash = it.txhash → a ≠ it → ¬a.isSelected) :
    Ensures bad (modify (holding sequence revision index) it (it.requested expiry))
      (Holds sequence (Requests sipHash index it.peer it.txhash expiry)) := by
  have run := @modify_requested _ _ sequence revision it (·.state) expiry sane member rfl
  rw [reassign_state] at run
  rw [run]
  refine .pure ⟨_, _, rfl, requests_withRequest sane member candidate (fun _ _ _ => rfl) ?_⟩
  intro a inA of other
  have notSelected := free a inA of other
  rw [isSelected_iff, not_or] at notSelected
  exact ⟨notSelected.1, notSelected.2, by simp [notSelected.2]⟩

theorem request_selected {sel} (mem : sel ∈ index) (of : sel.txhash = it.txhash)
    (isSelected : sel.isSelected) (ne : sel ≠ it) {state}
    (new : sel.state = .candidateBest ∧ state = .candidateReady ∨
      sel.state = .requested ∧ state = .completed) :
    Ensures bad (modify (holding sequence revision index) sel (sel.setState state) >>=
        fun tracker => modify tracker it (it.requested expiry))
      (Holds sequence (Requests sipHash index it.peer it.txhash expiry)) := by
  have second := @modify_requested _ _ sequence (revision + 1) it
    (update (·.state) sel state) expiry sane member (by simp [ne.symm])
  refine .bindOk (modify_state sane.unique mem) ?_
  rw [second]
  refine .pure ⟨_, _, rfl, requests_withRequest sane member candidate ?_ ?_⟩
  · intro a _ other
    have away : a ≠ sel := by rintro rfl; exact other of
    simp [away]
  intro a inA ofA other
  by_cases same : a = sel
  · subst same
    rcases new with ⟨old, rfl⟩ | ⟨old, rfl⟩
    · rw [update_self, forget_of_selectable (by simp [old]) (.inl rfl)]
      simp [old]
    · rw [update_self, forget_setState_completed]
      simp [old]
  · have notSelected := (sane.others_of_selected mem isSelected inA (ofA.trans of.symm)
      same).1
    rw [isSelected_iff, not_or] at notSelected
    simp [same, notSelected]

end Chosen

theorem requestedTx_spec (sane : Sane sipHash index) (peer : NodeId) (txhash : Uint256)
    (expiry : Int) :
    Ensures bad (requestedTx views (holding sequence revision index) peer txhash expiry)
      (Holds sequence (Requests sipHash index peer txhash expiry)) := by
  rw [requestedTx]
  by_cases old : ∃ a ∈ index, a.peer = peer ∧ a.txhash = txhash
  · obtain ⟨it, member, rfl, rfl⟩ := old
    simp only [findByPeer_of_mem sane member]
    by_cases isBest : it.state = .candidateBest
    · simp only [isBest, decide_true, if_true]
      apply request_unselected sane member (by simp [isBest])
      intro a inA of other
      exact (sane.others_of_selected member (by simp [isBest]) inA of other).1
    simp only [isBest, decide_false, Bool.false_eq_true, if_false, if_true]
    split
    · rename_i notCandidate
      refine .pure ⟨_, _, rfl, requests_nothing sane fun a inA ofPeer ofHash => ?_⟩
      rw [sane.eq_of_slot inA member ofPeer ofHash, forget_isCandidate]
      simp [notCandidate, isBest]
    rename_i candidate
    have isCandidate : it.forget.isCandidate := by
      rw [forget_isCandidate]
      rw [not_and_or, not_not, not_not] at candidate
      exact candidate.imp_right .inl
    have notSelected : ¬it.isSelected := by
      rw [isSelected_iff]
      rintro (state | state)
      · exact isBest state
      · exact candidate (by simp [state])
    rcases sane.settled it.txhash with idle | ⟨w, inW, of, isSelected, -⟩
    · have direct := @request_unselected _ _ bad sequence revision _ expiry sane member isCandidate
        fun a inA of _ => (idle a inA of).1
      split
      · exact direct
      rename_i n first
      have inN : n ∈ index := (shows_byTxHash views).mem_iff.mp
        ((dropWhile_sublist _).mem (mem_of_mem_head? first))
      have past : ¬(n.txhash = it.txhash ∧ n.state = .candidateBest) ∧
          ¬(n.txhash = it.txhash ∧ n.state = .requested) := by
        constructor <;> exact fun both => (idle n inN both.1).1 (by simp [both.2])
      simp only [past.1, past.2, if_false]
      exact direct
    · have ne : w ≠ it := by
        rintro rfl
        exact notSelected isSelected
      have first := @lowerBound_of_selected _ views _ sequence revision sane _ inW isSelected
      rw [of] at first
      rcases isSelected_iff.mp isSelected with state | state
      · simp only [first, of, state, and_self, if_true]
        exact request_selected sane member isCandidate inW of isSelected ne (.inl ⟨state, rfl⟩)
      · simp only [first, of, state, reduceCtorEq, and_false, and_self, if_true, if_false]
        exact request_selected sane member isCandidate inW of isSelected ne (.inr ⟨state, rfl⟩)
  · have absent : ∀ a ∈ index, ¬(a.peer = peer ∧ a.txhash = txhash) :=
      fun a inA of => old ⟨a, inA, of⟩
    simp only [findByPeer_of_absent absent]
    exact .pure ⟨_, _, rfl, requests_nothing sane fun a inA ofPeer ofHash =>
      absurd ⟨ofPeer, ofHash⟩ (absent a inA)⟩

end Request

end HobbyHash.TxRequest
