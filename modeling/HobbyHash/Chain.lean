import HobbyHash.Consensus.Params
import HobbyHash.Library.OrderStatistic
import HobbyHash.Machine

/-! # Block indexes

A `CBlockIndex` is modelled by the branch it ends: the header fields it stores
on top of its predecessor. The pointers `pprev` and `pskip` are then functions of
the value, two indexes are the same object exactly when they are equal, and an
index whose height disagrees with its depth cannot be built. Heights are natural
numbers; the source keeps them in an `int`.
-/

namespace HobbyHash

open ArithUint256

/-- Header fields other than the previous hash: what `CBlockIndex` stores of a
    header, and all of a `CompressedHeader`. -/
structure HeaderFields where
  nVersion : Int32
  hashMerkleRoot : Uint256
  nTime : UInt32
  nBits : UInt32
  nNonce : UInt32
  deriving DecidableEq, Repr

def maxFutureBlockTime : Int := 2 * 60 * 60

structure CBlockHeader extends HeaderFields where
  hashPrevBlock : Uint256
  deriving DecidableEq, Repr

/-- `CBlockIndex`, with `pprev` null for the first block only. -/
inductive CBlockIndex where
  | genesis (fields : HeaderFields)
  | child (pprev : CBlockIndex) (fields : HeaderFields)
  deriving DecidableEq

namespace CBlockIndex

open Library.OrderStatistic

def fields : CBlockIndex → HeaderFields
  | .genesis f | .child _ f => f

def pprev : CBlockIndex → Option CBlockIndex
  | .genesis _ => none
  | .child p _ => some p

def nHeight : CBlockIndex → Nat
  | .genesis _ => 0
  | .child p _ => p.nHeight + 1

@[simp] theorem nHeight_genesis (f : HeaderFields) : (genesis f).nHeight = 0 := rfl

@[simp] theorem nHeight_child (p : CBlockIndex) (f : HeaderFields) :
    (child p f).nHeight = p.nHeight + 1 := rfl

def nBits (b : CBlockIndex) : UInt32 := b.fields.nBits

variable (b : CBlockIndex)

def getBlockTime : Int := b.fields.nTime.toNat

theorem getBlockTime_nonneg : 0 ≤ b.getBlockTime :=
  Int.natCast_nonneg _

theorem getBlockTime_lt : b.getBlockTime < 2 ^ 32 := by
  have := b.fields.nTime.toNat_lt
  simp only [getBlockTime]
  omega

/-- `GetBlockHeader`, where `hash` is `CBlockHeader::GetHash`. -/
def getBlockHeader (hash : CBlockHeader → Uint256) : CBlockIndex → CBlockHeader
  | .genesis f => { f with hashPrevBlock := 0 }
  | .child p f => { f with hashPrevBlock := hash (getBlockHeader hash p) }

/-- `GetBlockHash`: the index is stored under the hash of its header. -/
def getBlockHash (hash : CBlockHeader → Uint256) (b : CBlockIndex) : Uint256 :=
  hash (b.getBlockHeader hash)

/-- `a` lies on the branch that ends in `b`. -/
inductive Ancestor (a : CBlockIndex) : CBlockIndex → Prop where
  | refl : Ancestor a a
  | step {p f} : Ancestor a p → Ancestor a (child p f)

theorem Ancestor.nHeight_le {a b : CBlockIndex} (h : Ancestor a b) : a.nHeight ≤ b.nHeight := by
  induction h with
  | refl => exact le_rfl
  | step _ ih => exact ih.trans (Nat.le_succ _)

theorem Ancestor.nHeight_lt (h : Ancestor a p) : a.nHeight < (child p f).nHeight :=
  Nat.lt_succ_of_le h.nHeight_le

theorem not_ancestor_child : ¬ Ancestor (child p f) p :=
  fun h => (h.nHeight_lt (f := f)).false

theorem Ancestor.trans {a b c : CBlockIndex} (hab : Ancestor a b) (hbc : Ancestor b c) :
    Ancestor a c := by
  induction hbc with
  | refl => exact hab
  | step _ ih => exact .step ih

theorem Ancestor.unique {a a' b : CBlockIndex} (h : Ancestor a b) (h' : Ancestor a' b)
    (eq : a.nHeight = a'.nHeight) : a = a' := by
  induction h generalizing a' with
  | refl =>
    cases h' with
    | refl => rfl
    | step lt => exact absurd eq lt.nHeight_lt.ne'
  | step lt ih =>
    cases h' with
    | refl => exact absurd eq lt.nHeight_lt.ne
    | step below' => exact ih below' eq

theorem Ancestor.total {a a' b : CBlockIndex} (h : Ancestor a b) (h' : Ancestor a' b)
    (le : a.nHeight ≤ a'.nHeight) : Ancestor a a' := by
  induction h' generalizing a with
  | refl => exact h
  | step lt ih =>
    cases h with
    | refl => exact absurd le lt.nHeight_lt.not_ge
    | step below' => exact ih below' le

def invertLowestOne (n : Nat) : Nat :=
  n &&& (n - 1)

def getSkipHeight (height : Nat) : Nat :=
  if height < 2 then 0
  else if height &&& 1 ≠ 0 then invertLowestOne (invertLowestOne (height - 1)) + 1
  else invertLowestOne height

theorem getSkipHeight_lt (pos : 0 < height) : getSkipHeight height < height := by
  have once (n : Nat) : invertLowestOne n ≤ n - 1 := Nat.and_le_right
  simp only [getSkipHeight]
  split
  · exact pos
  split
  · have := once (height - 1)
    have := once (invertLowestOne (height - 1))
    omega
  · have := once height
    omega

/-- The loop of `GetAncestor`. `pskip` was set by `BuildSkip` to the ancestor of
    `pprev` at the skip height; it is followed unless the skip pointer of `pprev`
    would lead further down without passing `height`. -/
def ancestorAt (b : CBlockIndex) (height : Nat) (le : height ≤ b.nHeight) :
    {a : CBlockIndex // Ancestor a b ∧ a.nHeight = height} :=
  if same : b.nHeight = height then ⟨b, .refl, same⟩
  else
    match b, le, same with
    | .genesis _, le, same => absurd (Nat.le_zero.mp le).symm same
    | .child p _, le, same =>
      let heightSkip := getSkipHeight (p.nHeight + 1)
      let heightSkipPrev := getSkipHeight p.nHeight
      if follow : heightSkip = height ∨
          (heightSkip > height ∧ ¬ (heightSkipPrev < heightSkip - 2 ∧ heightSkipPrev ≥ height)) then
        have low : heightSkip ≤ p.nHeight := Nat.lt_succ_iff.mp (getSkipHeight_lt (Nat.succ_pos _))
        match ancestorAt p heightSkip low with
        | ⟨pskip, onBranch, atSkip⟩ =>
          match ancestorAt pskip height (by omega) with
          | ⟨a, below, atHeight⟩ => ⟨a, .step (below.trans onBranch), atHeight⟩
      else
        match ancestorAt p height (by simp only [nHeight_child] at le same; omega) with
        | ⟨a, below, atHeight⟩ => ⟨a, .step below, atHeight⟩
termination_by b.nHeight
decreasing_by all_goals simp only [nHeight_child]; omega

def getAncestor (height : Int) : Option CBlockIndex :=
  if h : height > b.nHeight ∨ height < 0 then none
  else some (ancestorAt b height.toNat (by omega)).1

theorem getAncestor_of_ancestor {a b : CBlockIndex} (h : Ancestor a b) :
    b.getAncestor a.nHeight = some a := by
  have le := h.nHeight_le
  rw [getAncestor, dif_neg (by omega)]
  have found := (ancestorAt b (a.nHeight : Int).toNat (by omega)).2
  exact congrArg some (found.1.unique h (by rw [found.2]; rfl))

theorem getAncestor_isSome {b : CBlockIndex} {height : Int} (nonneg : 0 ≤ height)
    (le : height ≤ b.nHeight) :
    ∃ a, b.getAncestor height = some a ∧ Ancestor a b ∧ (a.nHeight : Int) = height := by
  have found := (ancestorAt b height.toNat (by omega)).2
  refine ⟨_, ?_, found.1, by rw [found.2]; omega⟩
  rw [getAncestor, dif_neg (by omega)]

theorem getAncestor_eq_some {a b : CBlockIndex} :
    b.getAncestor height = some a ↔ Ancestor a b ∧ (a.nHeight : Int) = height := by
  constructor
  · intro found
    rw [getAncestor] at found
    split at found
    · cases found
    · cases found
      obtain ⟨lt, atHeight⟩ := (ancestorAt b height.toNat (by omega)).2
      exact ⟨lt, by omega⟩
  · rintro ⟨lt, rfl⟩
    exact getAncestor_of_ancestor lt

/-- The loop of `LastCommonAncestor`, entered with two blocks of one height. -/
def meet : CBlockIndex → CBlockIndex → Option CBlockIndex
  | .genesis f, pb => if .genesis f = pb then some pb else none
  | .child p f, pb =>
    if .child p f = pb then some pb
    else
      match pb with
      | .genesis _ => none
      | .child q _ => meet p q

def lastCommonAncestor (pa pb : CBlockIndex) : Option CBlockIndex :=
  if pa.nHeight > pb.nHeight then (pa.getAncestor pb.nHeight).bind (meet · pb)
  else if pb.nHeight > pa.nHeight then (pb.getAncestor pa.nHeight).bind (meet pa ·)
  else meet pa pb

/-- The blocks below the meeting point are those below both blocks. -/
private theorem meet_iff (eq : pa.nHeight = pb.nHeight) (h : meet pa pb = some c)
    (a : CBlockIndex) :
    Ancestor a c ↔ Ancestor a pa ∧ Ancestor a pb := by
  induction pa generalizing pb with
  | genesis f =>
    simp only [meet] at h
    split at h
    · rename_i equal
      cases equal
      cases h
      exact (and_self_iff).symm
    · cases h
  | child p f ih =>
    simp only [meet] at h
    split at h
    · rename_i equal
      cases equal
      cases h
      exact (and_self_iff).symm
    rename_i differ
    cases pb with
    | genesis g => cases h
    | child q g =>
      rw [ih (Nat.succ.inj eq) h]
      refine ⟨fun ⟨left, right⟩ => ⟨.step left, .step right⟩, ?_⟩
      rintro ⟨left, right⟩
      cases left with
      | refl => exact absurd (right.unique .refl eq) differ
      | step left =>
        cases right with
        | refl => exact absurd eq left.nHeight_lt.ne'
        | step right => exact ⟨left, right⟩

private theorem meet_isSome (ha : Ancestor g pa) (hb : Ancestor g pb)
    (eq : pa.nHeight = pb.nHeight) :
    ∃ c, meet pa pb = some c := by
  induction ha generalizing pb with
  | refl =>
    obtain rfl := hb.unique .refl eq
    cases g <;> exact ⟨_, by rw [meet, if_pos rfl]⟩
  | @step p f lt ih =>
    by_cases equal : child p f = pb
    · subst equal
      exact ⟨_, if_pos rfl⟩
    cases hb with
    | refl => exact absurd eq lt.nHeight_lt.ne'
    | @step q k belowB =>
      obtain ⟨c, found⟩ :=
        ih belowB (by simpa only [nHeight_child, Nat.add_right_cancel_iff] using eq)
      exact ⟨c, by rw [meet, if_neg equal]; exact found⟩

theorem lastCommonAncestor_iff (h : lastCommonAncestor pa pb = some c) (a : CBlockIndex) :
    Ancestor a c ↔ Ancestor a pa ∧ Ancestor a pb := by
  simp only [lastCommonAncestor] at h
  split at h
  · obtain ⟨x, found, onBranch, height⟩ :=
      getAncestor_isSome (Int.natCast_nonneg pb.nHeight) (b := pa) (by omega)
    rw [found] at h
    rw [meet_iff (by omega) h]
    refine and_congr_left fun low => ⟨fun lt => lt.trans onBranch, fun lt => ?_⟩
    have := low.nHeight_le
    exact lt.total onBranch (by omega)
  split at h
  · obtain ⟨x, found, onBranch, height⟩ :=
      getAncestor_isSome (Int.natCast_nonneg pa.nHeight) (b := pb) (by omega)
    rw [found] at h
    rw [meet_iff (by omega) h]
    refine and_congr_right fun low => ⟨fun lt => lt.trans onBranch, fun lt => ?_⟩
    have := low.nHeight_le
    exact lt.total onBranch (by omega)
  · exact meet_iff (by omega) h a

theorem lastCommonAncestor_isSome (ha : Ancestor g pa) (hb : Ancestor g pb) :
    ∃ c, lastCommonAncestor pa pb = some c := by
  simp only [lastCommonAncestor]
  split
  · obtain ⟨a, found, onBranch, height⟩ :=
      getAncestor_isSome (Int.natCast_nonneg pb.nHeight) (b := pa) (by omega)
    have low := hb.nHeight_le
    have shared := ha.total onBranch (by omega)
    rw [found]
    exact meet_isSome shared hb (by omega)
  split
  · obtain ⟨b, found, onBranch, height⟩ :=
      getAncestor_isSome (Int.natCast_nonneg pa.nHeight) (b := pb) (by omega)
    have low := ha.nHeight_le
    have shared := hb.total onBranch (by omega)
    rw [found]
    exact meet_isSome ha shared (by omega)
  · exact meet_isSome ha hb (by omega)

def nMedianTimeSpan : Nat := 11

/-- Times of the last `span` blocks of the branch, newest first. -/
def lastTimes : Nat → CBlockIndex → List Int
  | 0, _ => []
  | _ + 1, .genesis f => [f.nTime.toNat]
  | n + 1, .child p f => f.nTime.toNat :: lastTimes n p

/-- `GetMedianTimePast`: the entry in the middle of the sorted times. -/
def getMedianTimePast : Int :=
  let pmedian := lastTimes nMedianTimeSpan b
  (kthSmallest pmedian (pmedian.length / 2)).getD 0

theorem lastTimes_ancestor {b : CBlockIndex} (h : t ∈ lastTimes span b) :
    ∃ a, Ancestor a b ∧ a.getBlockTime = t := by
  induction b generalizing span with
  | genesis f =>
    cases span with
    | zero => cases h
    | succ n => exact ⟨_, .refl, (List.mem_singleton.mp h).symm⟩
  | child p f ih =>
    cases span with
    | zero => cases h
    | succ n =>
      obtain rfl | older := List.mem_cons.mp h
      · exact ⟨_, .refl, rfl⟩
      · obtain ⟨a, lt, time⟩ := ih older
        exact ⟨a, .step lt, time⟩

theorem lastTimes_ne_nil (span : Nat) (b : CBlockIndex) : 0 < (lastTimes (span + 1) b).length := by
  cases b <;> exact Nat.succ_pos _

theorem getMedianTimePast_ancestor :
    ∃ a, Ancestor a b ∧ a.getBlockTime = b.getMedianTimePast := by
  have ne := lastTimes_ne_nil 10 b
  obtain ⟨v, found⟩ := kthSmallest_isSome (Nat.div_lt_self ne (by decide : 1 < 2))
  have median : b.getMedianTimePast = v := congrArg (Option.getD · 0) found
  exact median ▸ lastTimes_ancestor (kthSmallest_mem found)

def getBlockProof (nBits : UInt32) : Nat :=
  let bnTarget := setCompact nBits
  if compactNegative nBits || compactOverflow nBits || bnTarget = 0 then 0
  else
    ((modulus - 1 - bnTarget) / ((bnTarget + 1) % modulus) + 1) %
      modulus

def nChainWork : CBlockIndex → Nat
  | .genesis f => getBlockProof f.nBits
  | .child p f => (p.nChainWork + getBlockProof f.nBits) % modulus

end CBlockIndex

end HobbyHash
