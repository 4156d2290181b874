import HobbyHash.HeadersSync.Release
import HobbyHash.MedianTime
import Mathlib.Data.Int.CardIntervalMod

/-! # The bound on commitments

`m_max_commitments` is meant to be out of reach for headers that consensus accepts.
Headers must be later than the median time of their parent and at most two hours
ahead of the clock. How many headers that allows is decided by the densest chain,
in which each is one second later than that median. It has at most six headers for
each second, and the number of commitments to `6 * D` headers depends on where the
first one falls, which rounding `6 * D / 606` down does not take into account.
-/

namespace HobbyHash

open Machine Library.MedianWindow List Nat

namespace HeadersSync

open CBlockIndex

variable {sync : HeadersSync} {now : Int} {done headers : List CBlockHeader} {s : HeadersSyncState}

/-- Not more than `MAX_FUTURE_BLOCK_TIME` ahead of a clock in nanoseconds. -/
def InTime (now time : Int) : Prop :=
  time * 10 ^ 9 ≤ now + maxFutureBlockTime * 10 ^ 9

/-- The two rules of `ContextualCheckBlockHeader` about times. -/
def Timely (now : Int) (tip : CBlockIndex) : List CBlockHeader → Prop
  | [] => True
  | header :: rest =>
    tip.getMedianTimePast < header.nTime.toNat ∧ InTime now header.nTime.toNat ∧
    Timely now (.child tip header.toHeaderFields) rest

def times (headers : List CBlockHeader) : List Int :=
  headers.map fun header => header.nTime.toNat

theorem timely_iff (now : Int) (tip : CBlockIndex) (headers : List CBlockHeader) :
    Timely now tip headers ↔
      Rising nMedianTimeSpan (lastTimes nMedianTimeSpan tip) (times headers) ∧
        ∀ time ∈ times headers, InTime now time := by
  induction headers generalizing tip with
  | nil => simp [Timely, times, Rising]
  | cons header rest ih =>
    have window : lastTimes nMedianTimeSpan (.child tip header.toHeaderFields) =
        push nMedianTimeSpan (lastTimes nMedianTimeSpan tip) header.nTime.toNat :=
      lastTimes_child 10 tip header.toHeaderFields
    simp only [Timely, ih, window, times, map_cons, Rising, mem_cons, forall_eq_or_imp,
      getMedianTimePast_eq]
    constructor
    · rintro ⟨above, inTime, rising, later⟩
      exact ⟨⟨above, rising⟩, inTime, later⟩
    · rintro ⟨⟨above, rising⟩, inTime, later⟩
      exact ⟨above, inTime, rising, later⟩

/-- The commitments to headers are as many as commitment heights among theirs. -/
def commitmentHeights (sync : HeadersSync) (n : Nat) : Nat :=
  (List.range' (sync.chainStart.nHeight + 1) n).countP sync.Commits

theorem length_commitments (sync : HeadersSync) (headers : List CBlockHeader) :
    (sync.commitments headers).length = sync.commitmentHeights headers.length :=
  Library.Sampling.length_samples _ _ _ _

/-- The sync refuses headers on top of the chain start for too many commitments. -/
def CutOff (sync : HeadersSync) (headers : List CBlockHeader) : Prop :=
  ∃ s, checkEach sync.validateAndProcessSingleHeader sync.initial headers =
    .ok (s, some .exceededMaxCommitments)

theorem cutOff_iff (more : sync.Continues sync.chainStart headers) :
    CutOff sync headers ↔ sync.maxCommitments < sync.commitmentHeights headers.length := by
  rw [← length_commitments]
  obtain ⟨⟨s, failure⟩, ret, -, verdict⟩ :=
    ((presyncing_initial sync).headers headers).exists_ok fun _ => more
  have verdict := verdict more (overrun_eq_none.mpr (zero_le _))
  rw [nil_append, overrun] at verdict
  constructor
  · rintro ⟨s', exceeded⟩
    cases exceeded.symm.trans ret
    by_contra fits
    rw [if_neg fits] at verdict
    cases verdict
  · intro tooMany
    rw [if_pos tooMany] at verdict
    exact ⟨s, verdict ▸ ret⟩

variable (getHash : CBlockHeader → Uint256)

/-- The header with its time one second after the median time past. -/
def densestHeader (tip : CBlockIndex) (header : CBlockHeader) :
    CBlockHeader :=
  { header with
    nTime := .ofNat (tip.getMedianTimePast + 1).toNat
    hashPrevBlock := tip.getBlockHash getHash }

/-- Headers of the same difficulties, as close in time as the median allows. -/
def densest (getHash : CBlockHeader → Uint256) (tip : CBlockIndex) :
    List CBlockHeader → List CBlockHeader
  | [] => []
  | header :: rest =>
    densestHeader getHash tip header ::
      densest getHash (.child tip (densestHeader getHash tip header).toHeaderFields) rest

theorem length_densest (tip : CBlockIndex) (headers : List CBlockHeader) :
    (densest getHash tip headers).length = headers.length := by
  induction headers generalizing tip with
  | nil => rfl
  | cons header rest ih => exact congrArg (· + 1) (ih _)

/-- Whether a difficulty is permitted does not depend on times. -/
theorem continues_densest (more : sync.Continues tip headers) (height : tip'.nHeight = tip.nHeight)
    (nBits : tip'.nBits = tip.nBits) :
    sync.Continues tip' (densest sync.getHash tip' headers) := by
  induction headers generalizing tip tip' with
  | nil => trivial
  | cons header rest ih =>
    obtain ⟨-, permitted, onward⟩ := more
    refine ⟨rfl, ?_, ih onward (congrArg (· + 1) height) rfl⟩
    rw [height, nBits]
    exact permitted

variable {tip : CBlockIndex}

theorem nTime_densestHeader (header : CBlockHeader) (fits : tip.getMedianTimePast + 1 < 2 ^ 32) :
    ((densestHeader getHash tip header).nTime.toNat : Int) = tip.getMedianTimePast + 1 := by
  have nonneg := getMedianTimePast_nonneg tip
  have lt : (tip.getMedianTimePast + 1).toNat < UInt32.size := by
    rw [UInt32.size]
    omega
  change ((UInt32.ofNat (tip.getMedianTimePast + 1).toNat).toNat : Int) = _
  rw [UInt32.toNat_ofNat_of_lt' lt]
  omega

theorem times_densest (tip : CBlockIndex) (headers : List CBlockHeader)
    (fits : ∀ time ∈ slowest nMedianTimeSpan (lastTimes nMedianTimeSpan tip) headers.length,
      time < 2 ^ 32) :
    times (densest getHash tip headers) =
      slowest nMedianTimeSpan (lastTimes nMedianTimeSpan tip) headers.length := by
  induction headers generalizing tip with
  | nil => rfl
  | cons header rest ih =>
    obtain ⟨fitsFirst, fitsRest⟩ := forall_mem_cons.mp fits
    have first := nTime_densestHeader getHash header fitsFirst
    have window : lastTimes nMedianTimeSpan
        (.child tip (densestHeader getHash tip header).toHeaderFields) =
          push nMedianTimeSpan (lastTimes nMedianTimeSpan tip) (tip.getMedianTimePast + 1) := by
      rw [← first]
      exact lastTimes_child 10 tip (densestHeader getHash tip header).toHeaderFields
    rw [getMedianTimePast_eq] at window
    rw [← window] at fitsRest
    have later := ih _ fitsRest
    rw [window] at later
    exact congrArg₂ cons first later

theorem timely_densest
    (allowed : ∀ time ∈ slowest nMedianTimeSpan (lastTimes nMedianTimeSpan tip) headers.length,
      InTime now time ∧ time < 2 ^ 32) : Timely now tip (densest getHash tip headers) := by
  rw [timely_iff, times_densest getHash tip headers fun time mem => (allowed time mem).2]
  exact ⟨slowest_rising _ _ _, fun time mem => (allowed time mem).1⟩

/-- A first block whose time is nearly two hours ahead of the clock, so that one
    second is left for headers. The commitment to a header on top is one too many. -/
def aheadSync : HeadersSync :=
  construct sampleSync.getHash sampleSync.hasher ⟨1, by decide⟩ ((1700000000 - 7199) * 10 ^ 9)
    Consensus.mainParams (.genesis (sampleFields 1)) 0

def aheadHeader : CBlockHeader :=
  { sampleHeader 2 1 with nTime := 1700000001 }

/-- Division towards zero does not lose a second. -/
theorem le_secondsAllowed (tip : CBlockIndex) (inTime : InTime now time) :
    time - tip.getMedianTimePast ≤ secondsAllowed now tip := by
  have le : (now - tip.getMedianTimePast * 10 ^ 9) / 10 ^ 9 ≤
      (now - tip.getMedianTimePast * 10 ^ 9).tdiv (10 ^ 9) := by
    rw [Int.tdiv_eq_ediv]
    apply Int.le_add_of_nonneg_right
    split <;> decide
  simp only [InTime, secondsAllowed, maxFutureBlockTime] at *
  omega

/-- Six headers a second: the rule of the median over eleven blocks. -/
theorem length_le_of_timely (timely : Timely now tip headers) (nonempty : headers ≠ []) :
    (headers.length : Int) ≤ 6 * secondsAllowed now tip := by
  obtain ⟨rising, inTime⟩ := (timely_iff now tip headers).mp timely
  have count := length_pos_of_ne_nil nonempty
  have length : (times headers).length = headers.length := length_map _
  have window := length_lastTimes nMedianTimeSpan tip
  have lifted : Lifted 5 tip.getMedianTimePast 0 (lastTimes nMedianTimeSpan tip) := {
    nonempty := ne_nil_of_length_pos (lastTimes_ne_nil 10 tip)
    fits := window.trans_le (min_le_left _ _)
    few := zero_le _
    enough := zero_le _
    median := le_rfl
    newest := nofun }
  obtain ⟨time, last⟩ : ∃ time, (times headers)[headers.length - 1]? = some time :=
    ⟨_, getElem?_eq_getElem (by omega)⟩
  have lower := rising_lower lifted rising last
  have upper := le_secondsAllowed tip (inTime time (mem_of_getElem? last))
  omega

/-- Headers on top of the chain start before the first that is committed to. -/
def headersBefore (sync : HeadersSync) : Nat :=
  (sync.commitOffset + headerCommitmentPeriod -
    (sync.chainStart.nHeight + 1) % headerCommitmentPeriod) % headerCommitmentPeriod

theorem commitmentHeights_eq (sync : HeadersSync) (n : Nat) :
    sync.commitmentHeights n = n / headerCommitmentPeriod +
      if sync.headersBefore < n % headerCommitmentPeriod then 1 else 0 := by
  have counted : sync.commitmentHeights n =
      n.count (· ≡ sync.headersBefore [MOD headerCommitmentPeriod]) := by
    induction n with
    | zero => rfl
    | succ n ih =>
      have here : sync.Commits (sync.chainStart.nHeight + 1 + n) ↔
          n ≡ sync.headersBefore [MOD headerCommitmentPeriod] := by
        have offset := sync.commitOffset.isLt
        simp only [Commits, Nat.ModEq, headersBefore, headerCommitmentPeriod] at *
        omega
      rw [count_succ, ← ih, commitmentHeights, range'_concat, countP_append,
        one_mul]
      simp only [countP_singleton, decide_eq_true_eq, here]
      rfl
  have reduced : sync.headersBefore % headerCommitmentPeriod = sync.headersBefore :=
    mod_mod _ _
  rw [counted, count_modEq_card _ (by decide), reduced]

theorem secondsAllowed_eq (le : tip.getMedianTimePast * 10 ^ 9 ≤ now) :
    secondsAllowed now tip = now / 10 ^ 9 - tip.getMedianTimePast + maxFutureBlockTime := by
  rw [secondsAllowed, Int.tdiv_eq_ediv_of_nonneg (by omega)]
  omega

theorem maxCommitmentsAt_eq (pos : 0 ≤ secondsAllowed now tip) (clock : now < 2 ^ 63) :
    maxCommitmentsAt now tip = (6 * secondsAllowed now tip).toNat / headerCommitmentPeriod := by
  have lt : 6 * secondsAllowed now tip < 2 ^ 64 := by
    have nonneg := getMedianTimePast_nonneg tip
    by_cases behind : tip.getMedianTimePast * 10 ^ 9 ≤ now
    · rw [secondsAllowed_eq behind, maxFutureBlockTime]
      omega
    have truncated : (now - tip.getMedianTimePast * 10 ^ 9).tdiv (10 ^ 9) =
        -(-(now - tip.getMedianTimePast * 10 ^ 9) / 10 ^ 9) := by
      rw [← Int.tdiv_eq_ediv_of_nonneg (by omega), Int.neg_tdiv, Int.neg_neg]
    rw [secondsAllowed, truncated, maxFutureBlockTime]
    omega
  rw [maxCommitmentsAt, Int.emod_eq_of_lt (by omega) lt]

/-- For any chain start the bound is kept when the last, incomplete period ends
    before a commitment is due in it. -/
theorem not_cutOff_of_remainder (bound : sync.maxCommitments = maxCommitmentsAt now sync.chainStart)
    (lt : now < 2 ^ 63)
    (le : 6 * secondsAllowed now sync.chainStart % headerCommitmentPeriod ≤ sync.headersBefore)
    (more : sync.Continues sync.chainStart headers)
    (timely : Timely now sync.chainStart headers) : ¬ CutOff sync headers := by
  rw [cutOff_iff more, commitmentHeights_eq, bound]
  apply not_lt.mpr
  by_cases empty : headers = []
  · subst empty
    exact zero_le _
  have length := length_le_of_timely timely empty
  rw [maxCommitmentsAt_eq (by omega) lt]
  by_cases due : sync.headersBefore < headers.length % headerCommitmentPeriod
  · rw [if_pos due]
    simp only [headerCommitmentPeriod] at le due ⊢
    omega
  · rw [if_neg due]
    simp only [headerCommitmentPeriod]
    omega

/-- For a chain start with no block later than its median among the last eleven
    this is also necessary. -/
theorem level_never_cutOff_iff (bound : sync.maxCommitments = maxCommitmentsAt now sync.chainStart)
    (level : ∀ time ∈ lastTimes nMedianTimeSpan sync.chainStart,
      time ≤ sync.chainStart.getMedianTimePast)
    (deep : 5 ≤ sync.chainStart.nHeight) (le : sync.chainStart.getMedianTimePast * 10 ^ 9 ≤ now)
    (fits : now / 10 ^ 9 + maxFutureBlockTime < 2 ^ 32)
    (permits : ∃ headers, headers.length = (6 * secondsAllowed now sync.chainStart).toNat ∧
      sync.Continues sync.chainStart headers) :
    (∀ headers, sync.Continues sync.chainStart headers → Timely now sync.chainStart headers →
      ¬ CutOff sync headers) ↔
    6 * secondsAllowed now sync.chainStart % headerCommitmentPeriod ≤ sync.headersBefore := by
  have seconds := secondsAllowed_eq le
  have pos : 0 ≤ secondsAllowed now sync.chainStart := by
    rw [seconds, maxFutureBlockTime]
    omega
  have range : now < 2 ^ 63 := by
    rw [maxFutureBlockTime] at fits
    omega
  constructor
  · intro never
    obtain ⟨headers, length, more⟩ := permits
    have flat : Level 5 sync.chainStart.getMedianTimePast 0
        (lastTimes nMedianTimeSpan sync.chainStart) := {
      fits := (length_lastTimes _ _).trans_le (min_le_left _ _)
      few := zero_le _
      enough := by
        rw [length_lastTimes, nMedianTimeSpan]
        omega
      all := fun time mem => (level time mem).trans (by omega)
      older := level }
    have allowed : ∀ time ∈ slowest nMedianTimeSpan (lastTimes nMedianTimeSpan sync.chainStart)
        headers.length, InTime now time ∧ time < 2 ^ 32 := by
      intro time mem
      obtain ⟨i, lt, there⟩ := mem_iff_getElem.mp mem
      have upper := slowest_upper flat ((getElem?_eq_getElem lt).trans (congrArg some there))
      rw [length_slowest, length] at lt
      simp only [InTime, maxFutureBlockTime] at *
      omega
    have built := continues_densest more rfl rfl
    have kept := never _ built (timely_densest sync.getHash allowed)
    rw [cutOff_iff built, length_densest, length, bound, commitmentHeights_eq,
      maxCommitmentsAt_eq pos range] at kept
    by_contra due
    rw [if_pos (by simp only [headerCommitmentPeriod] at due ⊢; omega)] at kept
    exact kept (lt_succ_self _)
  · intro room headers more timely
    exact not_cutOff_of_remainder bound range room more timely

end HeadersSync

end HobbyHash
