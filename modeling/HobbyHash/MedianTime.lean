import HobbyHash.Library.MedianWindow
import HobbyHash.Pow.Schedule

/-! # Median time past

The times of the last eleven blocks are a window that every new block pushes its
own time into. On a branch whose blocks are later than the median before them the
median does not fall.
-/

namespace HobbyHash.CBlockIndex

open Library.MedianWindow Pow.Schedule

theorem take_lastTimes (n : Nat) (b : CBlockIndex) :
    (lastTimes (n + 1) b).take n = lastTimes n b := by
  induction n generalizing b with
  | zero => rfl
  | succ n ih =>
    cases b with
    | genesis f => simp [lastTimes]
    | child p f => exact congrArg (_ :: ·) (ih p)

theorem lastTimes_child (n : Nat) (p : CBlockIndex) (f : HeaderFields) :
    lastTimes (n + 1) (child p f) = push (n + 1) (lastTimes (n + 1) p) f.nTime.toNat := by
  rw [push, List.take_succ_cons, take_lastTimes]
  rfl

theorem length_lastTimes (n : Nat) (b : CBlockIndex) :
    (lastTimes n b).length = min n (b.nHeight + 1) := by
  induction n generalizing b with
  | zero => cases b <;> simp [lastTimes]
  | succ n ih =>
    cases b with
    | genesis f => simp [lastTimes]
    | child p f =>
      rw [lastTimes, List.length_cons, ih, nHeight_child]
      omega

theorem getMedianTimePast_eq (b : CBlockIndex) :
    b.getMedianTimePast = median (lastTimes nMedianTimeSpan b) := rfl

theorem getMedianTimePast_nonneg (b : CBlockIndex) : 0 ≤ b.getMedianTimePast := by
  obtain ⟨a, -, time⟩ := b.getMedianTimePast_ancestor
  rw [← time]
  exact a.getBlockTime_nonneg

theorem afterMedian_ancestor (lt : Ancestor a b) (timely : AfterMedian b) :
    AfterMedian a := by
  induction lt with
  | refl => exact timely
  | step _ ih => exact ih timely.1

theorem getMedianTimePast_mono {a b} (below : Ancestor a b) (timely : AfterMedian b) :
    a.getMedianTimePast ≤ b.getMedianTimePast := by
  induction below with
  | refl => exact le_rfl
  | @step p f _ ih =>
    have window : lastTimes nMedianTimeSpan (child p f) =
        push nMedianTimeSpan (lastTimes nMedianTimeSpan p) f.nTime.toNat := lastTimes_child 10 p f
    refine (ih timely.1).trans ?_
    rw [getMedianTimePast_eq, getMedianTimePast_eq, window]
    apply median_le_push
    case ne => exact List.ne_nil_of_length_pos (lastTimes_ne_nil 10 p)
    case fits => exact (length_lastTimes nMedianTimeSpan p).trans_le (Nat.min_le_left _ _)
    case lt => exact timely.2

end HobbyHash.CBlockIndex
