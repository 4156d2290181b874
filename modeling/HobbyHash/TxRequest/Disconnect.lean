import HobbyHash.TxRequest.Calls

/-! # Disconnecting a peer

`DisconnectedPeer` walks along the announcements of the peer and deletes each of them.
It decides where to continue before it deletes. What it changes besides is of other
peers, so the announcement to continue with is then the first one left.
-/

namespace HobbyHash.TxRequest

open Machine Library Naive List

variable {sipHash : Uint256 → NodeId → UInt64} (views : Views sipHash)
  {index : List Announcement} {bad : Fault → Prop} {sequence revision : Nat} {it : Announcement}
  {peer : NodeId}

/-- What remains after an announcement is completed and deleted. -/
structure Drops (sipHash : Uint256 → NodeId → UInt64) (index : List Announcement)
    (it : Announcement) (remaining : List Announcement) : Prop where
  sane : Sane sipHash remaining
  records : remaining.map (·.forget) =
    cleanup ((index.map (·.forget)).filter fun r => !r.isOf it.peer it.txhash)
  ofPeer : remaining.filter (·.peer = it.peer) =
    index.filter fun a => a.peer = it.peer && a ≠ it
  ordered : (remaining.map (·.sequence)).Sublist (index.map (·.sequence))

section Drop

variable {states : Announcement → State}

variable (sane : Sane sipHash index)
include sane

theorem filter_isOf_forget (mem : it ∈ index) :
    (index.map (·.forget)).filter (fun r => !r.isOf it.peer it.txhash) =
      (index.filter (· ≠ it)).map (·.forget) := by
  rw [filter_map]
  congr 1
  apply filter_congr
  intro a inA
  have isOf : a.forget.isOf it.peer it.txhash = decide (a = it) := by
    rw [Bool.eq_iff_iff, forget_isOf, decide_eq_true_iff]
    exact ⟨fun same => sane.eq_of_slot inA mem same.1 same.2, by rintro rfl; exact ⟨rfl, rfl⟩⟩
  simp [isOf]

theorem erase_reassign (mem : it ∈ index) :
    (reassign index states).erase (it.setState (states it)) =
      (index.filter (· ≠ it)).map fun a => a.setState (states a) := by
  have nodup : (reassign index states).Nodup :=
    List.Nodup.of_map (·.slot) (by rw [map_slot_reassign]; exact sane.unique)
  rw [nodup.erase_eq_filter, reassign, filter_map]
  congr 1
  apply filter_congr
  intro a inA
  by_cases same : a = it
  · simp [same]
  · have ne : a.setState (states a) ≠ it.setState (states it) := by
      intro equal
      exact same (sane.eq_of_slot inA mem (congrArg (·.peer) equal) (congrArg (·.txhash) equal))
    simp [same, ne]

theorem Sane.erase_completed (completed : it.state = .completed) :
    Sane sipHash (index.erase it) := by
  have members (a : Announcement) : a ∈ index.erase it ↔ a ∈ index ∧ a ≠ it := by
    rw [sane.nodup.mem_erase_iff, and_comm]
  apply @Sane.of_frame sipHash index it.txhash sane
  case unique => exact (erase_sublist.map _).nodup sane.unique
  case frame =>
    intro a other
    have ne : a ≠ it := by rintro rfl; exact other rfl
    simp [members, ne]
  case settled =>
    rcases sane.settled it.txhash with idle | ⟨w, inW, of, sel, others⟩
    · exact .inl fun a inA => idle a ((members a).mp inA).1
    have ne : w ≠ it := by
      rintro rfl
      simp [completed] at sel
    exact .inr ⟨w, (members w).mpr ⟨inW, ne⟩, of, sel,
      fun a inA => others a ((members a).mp inA).1⟩
  case alive =>
    intro a inA of
    obtain ⟨b, inB, ofB, open_⟩ := sane.alive a ((members a).mp inA).1
    have ne : b ≠ it := by
      rintro rfl
      exact open_ completed
    exact ⟨b, (members b).mpr ⟨inB, ne⟩, ofB.trans of, open_⟩

theorem drops_kept (mem : it ∈ index) (whole : Sane sipHash (reassign index states))
    (reselects : Reselects index it states) (completed : states it = .completed) :
    Drops sipHash index it ((reassign index states).erase (it.setState .completed)) := by
  have erased := @erase_reassign _ _ _ states sane mem
  rw [completed] at erased
  have after : Sane sipHash ((reassign index states).erase (it.setState .completed)) :=
    whole.erase_completed rfl
  constructor
  case sane => exact after
  case records =>
    have forgets : ((reassign index states).erase (it.setState .completed)).map (·.forget) =
        (index.filter (· ≠ it)).map (·.forget) := by
      rw [erased, map_map]
      apply map_congr_left
      intro a inA
      obtain ⟨inA, ne⟩ := mem_filter.mp inA
      exact reselects.forget_eq inA (of_decide_eq_true ne)
    rw [filter_isOf_forget sane mem, ← forgets, after.cleanup_forget]
  case ofPeer =>
    rw [erased, filter_map, filter_filter]
    have unchanged : ∀ a ∈ index.filter (fun a => ((fun a => decide (a.peer = it.peer)) ∘
        fun a => a.setState (states a)) a && decide (a ≠ it)), a.setState (states a) = a := by
      intro a inA
      obtain ⟨inA, both⟩ := mem_filter.mp inA
      rw [Bool.and_eq_true] at both
      have ne : a ≠ it := of_decide_eq_true both.2
      rcases reselects a inA ne with same | ⟨of, -, -⟩
      · rw [same, Announcement.setState_self]
      · exact absurd (sane.eq_of_slot inA mem (of_decide_eq_true both.1) of) ne
    rw [map_congr_left unchanged, map_id']
    rfl
  case ordered =>
    rw [erased, map_map]
    exact filter_sublist.map _

theorem drops_forgotten (mem : it ∈ index)
    (rest : ∀ a ∈ index, a.txhash = it.txhash → a ≠ it → a.state = .completed) :
    Drops sipHash index it (index.filter (·.txhash ≠ it.txhash)) := by
  have after := sane.forget it.txhash
  constructor
  case sane => exact after
  case records =>
    have kept : ((index.filter (· ≠ it)).map (·.forget)).filter (fun r => r.txhash ≠ it.txhash) =
        (index.filter (·.txhash ≠ it.txhash)).map (·.forget) := by
      rw [filter_map, filter_filter]
      congr 1
      apply filter_congr
      intro a _
      by_cases same : a = it
      · simp [same]
      · simp [same]
        rfl
    rw [filter_isOf_forget sane mem, ← after.cleanup_forget, ← kept, cleanup_filter]
    · intro r q same
      rw [same]
    intro r mem open_
    obtain ⟨a, inA, rfl⟩ := mem_map.mp mem
    obtain ⟨inA, ne⟩ := mem_filter.mp inA
    apply decide_eq_true
    intro of
    exact open_ (forget_completed_iff.mpr (rest a inA of (of_decide_eq_true ne)))
  case ofPeer =>
    rw [filter_filter]
    apply filter_congr
    intro a inA
    by_cases same : a = it
    · simp [same]
    · by_cases ofPeer : a.peer = it.peer
      · have ne : a.txhash ≠ it.txhash := fun of => same (sane.eq_of_slot inA mem ofPeer of)
        simp [same, ofPeer, ne]
      · simp [ofPeer]
  case ordered => exact filter_sublist.map _

end Drop

section Peer

theorem peer_le_of_key (le : byPeerKey a ≤ byPeerKey b) : a.peer ≤ b.peer := by
  rw [byPeerKey, byPeerKey, byPeerKey_le_iff] at le
  rcases le with lt | ⟨eq, -⟩
  · exact lt.le
  · exact eq.le

theorem head_ofPeer {view : List Announcement}
    (sorted : view.Pairwise fun a b => byPeerKey a ≤ byPeerKey b)
    (low : ∀ a ∈ view, peer ≤ a.peer) :
    view.head?.filter (·.peer = peer) = (view.filter (·.peer = peer)).head? := by
  cases view with
  | nil => rfl
  | cons n view =>
    by_cases same : n.peer = peer
    · simp [same]
    have lt : peer < n.peer :=
      lt_of_le_of_ne (low n mem_cons_self) fun eq => same eq.symm
    have beyond : (n :: view).filter (·.peer = peer) = [] := by
      apply filter_eq_nil_iff.mpr
      intro a inA here
      have here : a.peer = peer := of_decide_eq_true here
      rcases mem_cons.mp inA with rfl | later
      · exact same here
      · have le := peer_le_of_key (rel_of_pairwise_cons sorted later)
        exact absurd (lt.trans_le le) (here ▸ lt_irrefl _)
    rw [beyond]
    simp [same]

theorem next_ofPeer (shows : OrderedView.Shows byPeerKey index view)
    (first : view.filter (·.peer = peer) = it :: rest) :
    (OrderedView.next view it).filter (·.peer = peer) = rest.head? := by
  have sorted := shows.sorted
  obtain ⟨front, back, whole, none, ofPeer, behind⟩ := filter_eq_cons_iff.mp first
  have ofPeer : it.peer = peer := of_decide_eq_true ofPeer
  have nmem : it ∉ front := by
    intro inFront
    exact none it inFront (decide_eq_true ofPeer)
  have follows : OrderedView.next view it = back.head? := by
    have passed : ∀ a ∈ front, decide (a ≠ it) = true := by
      intro a inFront
      exact decide_eq_true fun same => nmem (same ▸ inFront)
    rw [OrderedView.next, whole, dropWhile_append_of_pos passed,
      dropWhile_cons_of_neg (by simp), tail_cons]
  rw [whole] at sorted
  obtain ⟨low, sortedBack⟩ := pairwise_cons.mp (pairwise_append.mp sorted).2.1
  rw [follows, ← behind]
  exact head_ofPeer sortedBack fun a inA => ofPeer ▸ peer_le_of_key (low a inA)

theorem ofPeer_of_drops {view after remaining rest} (sane : Sane sipHash index)
    (shows : OrderedView.Shows byPeerKey index view)
    (showsAfter : OrderedView.Shows byPeerKey remaining after)
    (first : view.filter (·.peer = peer) = it :: rest) (drops : Drops sipHash index it remaining) :
    after.filter (·.peer = peer) = rest := by
  have old := shows.filter (·.peer = peer)
  have new := showsAfter.filter (·.peer = peer)
  rw [first] at old
  have mem : it ∈ index.filter (·.peer = peer) := old.mem_iff.mp mem_cons_self
  have ofPeer : it.peer = peer := of_decide_eq_true (mem_filter.mp mem).2
  have restPerm : rest.Perm (index.filter fun a => a.peer = peer && a ≠ it) := by
    have whole := @perm_filter_cons index it sane.nodup (mem_filter.mp mem).1
      (fun a => a.peer = peer) (decide_eq_true ofPeer)
    exact (old.perm.trans whole).cons_inv
  have kept := drops.ofPeer
  rw [ofPeer] at kept
  apply List.Perm.eq_of_pairwise _ new.sorted (pairwise_cons.mp old.sorted).2
    (new.perm.trans (kept ▸ restPerm.symm))
  intro a b inA inB le ge
  have eq : byPeerKey a = byPeerKey b := le_antisymm le ge
  have memberA := mem_filter.mp (new.mem_iff.mp inA)
  have memberB : b ∈ remaining.filter (·.peer = peer) := kept ▸ restPerm.mem_iff.mp inB
  apply drops.sane.eq_of_slot memberA.1 (mem_filter.mp memberB).1
  · exact (of_decide_eq_true memberA.2).trans
      (of_decide_eq_true (mem_filter.mp memberB).2).symm
  · exact BitVec.eq_of_toNat_eq (congrArg (fun key => (ofLex (ofLex key).2).2) eq)

end Peer

/-- The body of the loop: an announcement is completed and, if it is still there, erased. -/
theorem drop_spec {next : Tracker → Except Fault Tracker} (sane : Sane sipHash index)
    (mem : it ∈ index) (rest : ∀ after remaining, Drops sipHash index it remaining →
      Ensures bad (next (holding sequence after remaining)) post) :
    Ensures bad (do
      let (exists_, tracker) ← makeCompleted views (holding sequence revision index) it
      if exists_ then do
        let tracker ← erase tracker (it.setState .completed)
        next tracker
      else next tracker) post := by
  refine (makeCompleted_spec views sane mem).bind ?_
  rintro ⟨kept, _⟩ ⟨after, remaining, rfl, whole, outcome⟩
  cases outcome with
  | @kept states reselects completed =>
    have lt : it.setState .completed ∈ reassign index states := by
      rw [← completed]
      exact mem_reassign_of mem
    exact .bindOk (erase_holding whole.nodup lt)
      (rest _ _ (drops_kept sane mem whole reselects completed))
  | gone over_ => exact rest _ _ (drops_forgotten sane mem over_)

structure Disconnects (sipHash : Uint256 → NodeId → UInt64) (index : List Announcement)
    (peer : NodeId) (remaining : List Announcement) : Prop where
  sane : Sane sipHash remaining
  records : remaining.map (·.forget) = step (index.map (·.forget)) (.disconnectedPeer peer)
  ordered : (remaining.map (·.sequence)).Sublist (index.map (·.sequence))

theorem disconnects_nothing (sane : Sane sipHash index) (none : ∀ a ∈ index, a.peer ≠ peer) :
    Disconnects sipHash index peer index := by
  refine ⟨sane, ?_, .refl _⟩
  have all : (index.map (·.forget)).filter (·.peer ≠ peer) = index.map (·.forget) := by
    apply filter_eq_self.mpr
    intro r inR
    obtain ⟨a, inA, rfl⟩ := mem_map.mp inR
    exact decide_eq_true (none a inA)
  rw [step, all, sane.cleanup_forget]

theorem Disconnects.after_drop {middle remaining} (ofPeer : it.peer = peer)
    (drops : Drops sipHash index it middle) (rest : Disconnects sipHash middle peer remaining) :
    Disconnects sipHash index peer remaining := by
  refine ⟨rest.sane, ?_, rest.ordered.trans drops.ordered⟩
  rw [rest.records, drops.records, step, step, ← filterMap_eq_filter, cleanup_filterMap_cleanup,
    filterMap_eq_filter, filter_filter]
  · congr 1
    apply filter_congr
    intro r _
    by_cases here : r.peer = peer
    · simp [here]
    · simp [Record.isOf, here, ofPeer]
  · intro r q kept
    rw [(Option.guard_eq_some_iff.mp kept).1]
  · intro r q kept done
    rwa [← (Option.guard_eq_some_iff.mp kept).1]

theorem disconnectLoop_spec (fuel : Nat) (at_ : Option Announcement) (sane : Sane sipHash index)
    (lt : index.countP (·.peer = peer) < fuel)
    (first : at_.filter (·.peer = peer) =
      ((byPeer views (holding sequence revision index)).filter (·.peer = peer)).head?) :
    Ensures bad (disconnectLoop views peer fuel (holding sequence revision index) at_)
      (Holds sequence (Disconnects sipHash index peer)) := by
  induction fuel generalizing index revision at_ with
  | zero => omega
  | succ fuel ih =>
    have shows := @shows_byPeer _ views index sequence revision
    have stop (none : at_.filter (·.peer = peer) = none) :
        Ensures bad (.ok (holding sequence revision index))
          (Holds sequence (Disconnects sipHash index peer)) := by
      refine .pure ⟨revision, index, rfl, disconnects_nothing sane ?_⟩
      intro a inA here
      rw [none] at first
      have empty := head?_eq_none_iff.mp first.symm
      exact filter_eq_nil_iff.mp empty a (shows.mem_iff.mpr inA) (decide_eq_true here)
    cases at_ with
    | none =>
      rw [disconnectLoop]
      exact stop rfl
    | some it =>
      rw [disconnectLoop]
      by_cases ofPeer : it.peer = peer
      · rw [if_pos ofPeer]
        have here : (some it).filter (·.peer = peer) = some it := by simp [ofPeer]
        rw [here] at first
        obtain ⟨rest, whole⟩ := head?_eq_some_iff.mp first.symm
        have inFilter : it ∈ (byPeer views (holding sequence revision index)).filter
            (·.peer = peer) := by
          rw [whole]
          exact mem_cons_self
        have mem : it ∈ index := shows.mem_iff.mp (mem_filter.mp inFilter).1
        simp only [next_ofPeer shows whole]
        apply drop_spec views sane mem
        intro after remaining drops
        have left := ofPeer_of_drops sane shows (@shows_byPeer _ views remaining sequence after)
          whole drops
        have fewer : remaining.countP (·.peer = peer) < index.countP (·.peer = peer) := by
          rw [countP_eq_length_filter, ← ofPeer, drops.ofPeer, ← countP_eq_length_filter]
          apply countP_lt_of_mem mem
          · exact fun b _ both => (Bool.and_eq_true_iff.mp both).1
          · simp
          · simp
        have allOfPeer : rest.head?.filter (·.peer = peer) = rest.head? := by
          rw [← left, head?_filter]
          cases found : (byPeer views (holding sequence after remaining)).find? (·.peer = peer) with
          | none => rfl
          | some a =>
            have ofPeer : a.peer = peer := by simpa using find?_some found
            simp [ofPeer]
        refine (ih rest.head? drops.sane (by omega) (by rw [left]; exact allOfPeer)).mono ?_
        rintro _ ⟨last, final, isLast, disconnects⟩
        exact ⟨last, final, isLast, disconnects.after_drop ofPeer drops⟩
      · rw [if_neg ofPeer]
        exact stop (by simp [ofPeer])

theorem disconnectedPeer_spec (sane : Sane sipHash index) (peer : NodeId) :
    Ensures bad (disconnectedPeer views (holding sequence revision index) peer)
      (Holds sequence (Disconnects sipHash index peer)) := by
  apply disconnectLoop_spec views _ _ sane
  · exact Nat.lt_succ_of_le countP_le_length
  have sorted := (@shows_byPeer _ views index sequence revision).sorted
  have above (a : Announcement) (lower : byPeerView peer false 0 ≤ byPeerKey a) :
      peer ≤ a.peer := by
    rw [byPeerKey, byPeerKey_le_iff] at lower
    rcases lower with lt | ⟨eq, -⟩
    · exact lt.le
    · exact eq.le
  have within (a : Announcement) (ofPeer : a.peer = peer) :
      byPeerView peer false 0 ≤ byPeerKey a := by
    rw [byPeerKey, byPeerKey_le_iff]
    refine .inr ⟨ofPeer.symm, ?_⟩
    cases decide (a.state = .candidateBest) with
    | true => simp
    | false => simp
  rw [OrderedView.from_eq_filter sorted, head_ofPeer (sorted.filter _), filter_filter]
  · congr 1
    apply filter_congr
    intro a _
    by_cases ofPeer : a.peer = peer
    · simpa [ofPeer] using within a ofPeer
    · simp [ofPeer]
  · intro a inA
    exact above a (of_decide_eq_true (mem_filter.mp inA).2)

end HobbyHash.TxRequest
