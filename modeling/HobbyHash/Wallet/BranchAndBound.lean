import HobbyHash.Wallet.Selections

/-! # Branch and bound

The search of `SelectCoinsBnB` against the subsets of its pool. `Tracks` says what
its running sums are sums of; it keeps all indices in range and makes the
assertion on backtracking hold. `Candidate` says what the best selection is, and
`Settled` what an exhausted search knows about a subset: if it is a solution, the
best selection wastes no more. An equivalent group is left out only after the one
before it was; putting that one in its place gives a subset already settled.
-/

namespace HobbyHash.Wallet

open Library Machine Consensus Finset SelectionResult
open OutputGroup (getSelectionAmount fee longTermFee)

variable {selection : List Nat} {subset : Finset ℕ} {waste : Int}

variable {subtract : Bool}

namespace BnbSearch

variable (search : BnbSearch subtract)

def amount (i : Nat) : Int := sample OutputGroup.getSelectionAmount search.pool i

def weight (i : Nat) : Int := sample OutputGroup.weight search.pool i

def extra (i : Nat) : Int := sample OutputGroup.extraFee search.pool i

section

variable {search} {i : Nat} {utxo : OutputGroup subtract} (here : search.pool[i]? = some utxo)
include here

theorem amount_eq : search.amount i = utxo.getSelectionAmount := sample_eq here _

theorem weight_eq : search.weight i = utxo.weight := sample_eq here _

theorem extra_eq : search.extra i = utxo.extraFee := sample_eq here _

end

theorem weight_nonneg (i : Nat) : 0 ≤ search.weight i :=
  sample_nonneg (fun group _ => group.weight_nonneg) i

/-- Groups with an amount whose sums stay in their types, and a target within their reach. -/
structure Bounded : Prop where
  positive : ∀ group ∈ search.pool, 0 < group.getSelectionAmount
  inRange : InRange search.pool search.costOfChange
  target_pos : 0 < search.selectionTarget
  target_le : search.selectionTarget ≤ amountOf search.pool
  cost_nonneg : 0 ≤ search.costOfChange

/-- The running sums are those of the current path, and every group that is still to
    be decided is available. -/
structure Tracks (s : BnbState) : Prop where
  path : SearchPath s.currSelection s.utxoPoolIndex
  inRange : s.utxoPoolIndex ≤ search.pool.length
  value : s.currValue = (s.currSelection.map search.amount).sum
  weight : s.currSelectionWeight = (s.currSelection.map search.weight).sum
  waste : s.currWaste = (s.currSelection.map search.extra).sum
  available : s.currAvailableValue = ∑ i ∈ Ico s.utxoPoolIndex search.pool.length, search.amount i

structure Solution (selection : List Nat) (waste : Int) : Prop where
  nodup : selection.Nodup
  inside : ∀ i ∈ selection, i < search.pool.length
  reaches : search.selectionTarget ≤ (selection.map search.amount).sum
  within : (selection.map search.amount).sum ≤ search.selectionTarget + search.costOfChange
  fits : (selection.map search.weight).sum ≤ search.maxWeight
  waste_eq : waste = (selection.map search.extra).sum
    + ((selection.map search.amount).sum - search.selectionTarget)

def Candidate (s : BnbState) : Prop :=
  s.bestSelection ≠ [] → search.Solution s.bestSelection s.bestWaste

/-- A subset that is a solution does not waste less than the best selection. -/
def Settled (s : BnbState) (subset : Finset ℕ) : Prop :=
  search.selectionTarget ≤ ∑ i ∈ subset, search.amount i →
  ∑ i ∈ subset, search.amount i ≤ search.selectionTarget + search.costOfChange →
  ∑ i ∈ subset, search.weight i ≤ search.maxWeight →
  s.bestSelection ≠ [] ∧ s.bestWaste ≤
    ∑ i ∈ subset, search.extra i + (∑ i ∈ subset, search.amount i - search.selectionTarget)

/-- The group after index `i` looks the same to the search as the one at `i`. -/
def Clone (i : Nat) : Prop :=
  i + 1 < search.pool.length ∧ search.amount (i + 1) = search.amount i ∧
    sample OutputGroup.fee search.pool (i + 1) = sample OutputGroup.fee search.pool i

/-- Where a group stands for its clone, the selection does not get too heavy. -/
def ClonesFit : Prop :=
  ∀ i, search.Clone i → ∀ subset ⊆ range search.pool.length, i + 1 ∈ subset → i ∉ subset →
    ∑ j ∈ subset, search.weight j ≤ search.maxWeight →
      ∑ j ∈ exchange subset (i + 1) i, search.weight j ≤ search.maxWeight

/-- Under these conditions no subset is left out wrongly. -/
structure Exhaustive : Prop where
  target_pos : 0 < search.selectionTarget
  extra_nonneg : ∀ i, 0 ≤ search.extra i
  waste_le : ∀ subset ⊆ range search.pool.length,
    ∑ i ∈ subset, search.extra i + search.costOfChange ≤ maxMoney
  clone_extra : ∀ i, search.Clone i → search.extra i ≤ search.extra (i + 1)
  clones_fit : search.ClonesFit

variable {search} {s s' : BnbState} {bad : Fault → Prop}

/-- Ways in which a node of the tree turns out to be a leaf. -/
inductive Leaf (search : BnbSearch subtract) (s : BnbState) : BnbState → Prop where
  | short (lt : s.currValue + s.currAvailableValue < search.selectionTarget) : Leaf search s s
  | beyond (lt : search.selectionTarget + search.costOfChange < s.currValue) : Leaf search s s
  | wasteful (lt : s.bestWaste < s.currWaste) : Leaf search s s
  | heavy (lt : search.maxWeight < s.currSelectionWeight) :
      Leaf search s { s with maxTxWeightExceeded := true }
  | worse (reaches : search.selectionTarget ≤ s.currValue)
      (lt : s.bestWaste < s.currWaste + (s.currValue - search.selectionTarget)) : Leaf search s s
  | better (reaches : search.selectionTarget ≤ s.currValue)
      (within : s.currValue ≤ search.selectionTarget + search.costOfChange)
      (fits : s.currSelectionWeight ≤ search.maxWeight)
      (le : s.currWaste + (s.currValue - search.selectionTarget) ≤ s.bestWaste) :
      Leaf search s { s with
        bestSelection := s.currSelection
        bestWaste := s.currWaste + (s.currValue - search.selectionTarget) }

section Bounds

variable (bounded : search.Bounded)
include bounded

theorem Bounded.sums {chosen depth} (path : SearchPath chosen depth)
    (le : depth ≤ search.pool.length) :
    (0 ≤ (chosen.map search.amount).sum ∧ (chosen.map search.amount).sum ≤ maxMoney) ∧
    (-maxMoney ≤ (chosen.map search.extra).sum ∧ (chosen.map search.extra).sum ≤ maxMoney) ∧
    0 ≤ (chosen.map search.weight).sum ∧ (chosen.map search.weight).sum < 2 ^ 31 := by
  obtain ⟨money, longTerm, weights⟩ := bounded.inRange
  have amounts := sum_along getSelectionAmount path le fun group mem =>
    (bounded.positive group mem).le
  have fees := sum_along fee path le fun group _ => group.fee_nonneg
  have later := sum_along longTermFee path le fun group _ => group.longTermFee_nonneg
  have heavy := sum_along OutputGroup.weight path le fun group _ => group.weight_nonneg
  have extras : (chosen.map search.extra).sum = (chosen.map (sample fee search.pool)).sum
      - (chosen.map (sample longTermFee search.pool)).sum := by
    rw [← sum_map_sub]
    exact congrArg List.sum (List.map_congr_left fun i _ => sample_sub ..)
  have cost := bounded.cost_nonneg
  rw [amountOf] at money
  exact ⟨⟨amounts.1, by change (chosen.map (sample _ _)).sum ≤ _; omega⟩, by omega, heavy.1,
    heavy.2.trans_lt weights⟩

theorem Bounded.ahead (i : Nat) :
    0 ≤ ∑ j ∈ Ico i search.pool.length, search.amount j ∧
      ∑ j ∈ Ico i search.pool.length, search.amount j ≤ maxMoney := by
  have nonneg : ∀ j, 0 ≤ search.amount j :=
    sample_nonneg fun group mem => (bounded.positive group mem).le
  have part : ∑ j ∈ Ico i search.pool.length, search.amount j
      ≤ ∑ j ∈ range search.pool.length, search.amount j :=
    sum_le_sum_of_subset_of_nonneg (fun j mem => mem_range.mpr (mem_Ico.mp mem).2)
      fun j _ _ => nonneg j
  have whole : ∑ j ∈ range search.pool.length, search.amount j = amountOf search.pool :=
    sum_sample _ _
  have fees : 0 ≤ (search.pool.map fee).sum := sum_map_nonneg fun group _ => group.fee_nonneg
  have money := bounded.inRange.money
  have cost := bounded.cost_nonneg
  exact ⟨sum_nonneg fun j _ => nonneg j, by omega⟩

theorem Bounded.evaluates (tracks : search.Tracks s) :
    IsInt64 (s.currValue + s.currAvailableValue) ∧
    IsInt64 (search.selectionTarget + search.costOfChange) ∧
    IsInt64 (s.currValue - search.selectionTarget) ∧
    IsInt64 (s.currWaste + (s.currValue - search.selectionTarget)) := by
  obtain ⟨⟨lower, upper⟩, ⟨wasteLower, wasteUpper⟩, -⟩ :=
    bounded.sums tracks.path tracks.inRange
  obtain ⟨nonneg, rest⟩ := bounded.ahead s.utxoPoolIndex
  obtain ⟨-, ⟨money, -, -⟩, pos, le, cost⟩ := bounded
  have fees : 0 ≤ (search.pool.map fee).sum := sum_map_nonneg fun group _ => group.fee_nonneg
  rw [← tracks.value] at lower upper
  rw [← tracks.waste] at wasteLower wasteUpper
  rw [← tracks.available] at nonneg rest
  exact ⟨isInt64_money (by omega) (by omega), isInt64_money (by omega) (by omega),
    isInt64_money (by omega) (by omega), isInt64_money (by omega) (by omega)⟩

/-- The sums of a selection, and the extra fee of its newest group. -/
theorem Bounded.fits {chosen depth last} (path : SearchPath chosen depth)
    (le : depth ≤ search.pool.length) (inside : last < search.pool.length) :
    IsInt64 (chosen.map search.amount).sum ∧ IsInt64 (chosen.map search.extra).sum ∧
      IsInt (chosen.map search.weight).sum ∧ IsInt64 (search.extra last) := by
  obtain ⟨amounts, extras, weights⟩ := bounded.sums path le
  obtain ⟨-, single, -⟩ := @Bounded.sums _ _ bounded [last] _ ⟨by simp, by simp⟩ inside
  rw [List.map_singleton, List.sum_singleton] at single
  exact ⟨isInt64_money (by omega) (by omega), isInt64_money (by omega) (by omega),
    ⟨by omega, weights.2⟩, isInt64_money (by omega) (by omega)⟩

end Bounds

namespace Leaf

theorem same (leaf : Leaf search s s') :
    s'.currSelection = s.currSelection ∧ s'.utxoPoolIndex = s.utxoPoolIndex := by
  cases leaf <;> exact ⟨rfl, rfl⟩

theorem tracks (leaf : Leaf search s s') (tracks : search.Tracks s) : search.Tracks s' := by
  cases leaf <;>
    exact ⟨tracks.path, tracks.inRange, tracks.value, tracks.weight, tracks.waste,
      tracks.available⟩

theorem candidate (leaf : Leaf search s s') (tracks : search.Tracks s)
    (best : search.Candidate s) : search.Candidate s' := by
  cases leaf with
  | short | beyond | wasteful | heavy | worse => exact best
  | better reaches within fits le =>
    intro _
    constructor
    case nodup => exact tracks.path.nodup
    case inside =>
      intro i mem
      have below := tracks.path.below i mem
      have range := tracks.inRange
      omega
    case reaches => exact tracks.value ▸ reaches
    case within => exact tracks.value ▸ within
    case fits => exact tracks.weight ▸ fits
    case waste_eq =>
      rw [tracks.waste, tracks.value]

end Leaf

/-- Without a selection there is no better waste than the initial one. -/
def Fresh (s : BnbState) : Prop :=
  s.bestSelection = [] → s.bestWaste = maxMoney

theorem Fresh.found (fresh : Fresh s) (lt : s.bestWaste < maxMoney) : s.bestSelection ≠ [] := by
  intro none
  rw [fresh none] at lt
  exact lt_irrefl _ lt

theorem Tracks.nonempty (tracks : search.Tracks s) (good : search.Exhaustive)
    (le : search.selectionTarget ≤ s.currValue) : s.currSelection ≠ [] := by
  intro empty
  have pos := good.target_pos
  have zero := tracks.value
  simp only [empty, List.map_nil, List.sum_nil] at zero
  omega

namespace Leaf

theorem fresh (leaf : Leaf search s s') (tracks : search.Tracks s) (good : search.Exhaustive)
    (fresh : Fresh s) : Fresh s' := by
  cases leaf with
  | short | beyond | wasteful | heavy | worse => exact fresh
  | better reaches within fits le => exact fun none => absurd none (tracks.nonempty good reaches)

theorem settled (leaf : Leaf search s s') (tracks : search.Tracks s) (good : search.Exhaustive)
    (settled : search.Settled s subset) : search.Settled s' subset := by
  cases leaf with
  | short | beyond | wasteful | heavy | worse => exact settled
  | better reaches within fits le =>
    intro reaches' within' fits'
    obtain ⟨-, least⟩ := settled reaches' within' fits'
    exact ⟨tracks.nonempty good reaches, le.trans least⟩

theorem barren (leaf : Leaf search s s') (tracks : search.Tracks s) (good : search.Exhaustive)
    (pos : ∀ i < search.pool.length, 0 ≤ search.amount i) (fresh : Fresh s) :
    Barren (search.Settled s') search.pool.length s.currSelection s.utxoPoolIndex := by
  intro subset inside agrees reaches within fits
  have more : s.currValue ≤ ∑ i ∈ subset, search.amount i :=
    tracks.value ▸ agrees.le_sum tracks.path fun i mem =>
      pos i (mem_range.mp (inside mem))
  have most : ∑ i ∈ subset, search.amount i ≤ s.currValue + s.currAvailableValue := by
    rw [tracks.value, tracks.available]
    exact agrees.sum_le tracks.path inside pos
  have heavier : s.currSelectionWeight ≤ ∑ i ∈ subset, search.weight i :=
    tracks.weight ▸ agrees.le_sum tracks.path fun i _ => search.weight_nonneg i
  have wastes : s.currWaste ≤ ∑ i ∈ subset, search.extra i :=
    tracks.waste ▸ agrees.le_sum tracks.path fun i _ => good.extra_nonneg i
  have limit := good.waste_le subset inside
  cases leaf with
  | short lt => omega
  | beyond lt => omega
  | heavy lt => omega
  | wasteful lt => exact ⟨fresh.found (by omega), by omega⟩
  | worse reached lt => exact ⟨fresh.found (by omega), by omega⟩
  | better reached _ _ le =>
    refine ⟨tracks.nonempty good reached, ?_⟩
    change s.currWaste + (s.currValue - search.selectionTarget) ≤ _
    omega

end Leaf

def SameBest (s s' : BnbState) : Prop :=
  s'.bestSelection = s.bestSelection ∧ s'.bestWaste = s.bestWaste

theorem SameBest.settled (same : SameBest s s') (settled : search.Settled s subset) :
    search.Settled s' subset := by
  rw [Settled, same.1, same.2]
  exact settled

theorem SameBest.candidate (same : SameBest s s') (best : search.Candidate s) :
    search.Candidate s' := by
  rw [Candidate, same.1, same.2]
  exact best

theorem SameBest.fresh (same : SameBest s s') (fresh : Fresh s) : Fresh s' := by
  rw [Fresh, same.1, same.2]
  exact fresh

section Steps

variable (bounded : bad .signedOverflow → search.Bounded)
include bounded

theorem evaluate_spec (tracks : search.Tracks s) :
    Ensures bad (bnbEvaluate search s) fun out =>
      (out = (s, false) ∧ s.currValue < search.selectionTarget ∧
        search.selectionTarget ≤ s.currValue + s.currAvailableValue) ∨
      ∃ s', out = (s', true) ∧ Leaf search s s' := by
  have range := fun isBad => (bounded isBad).evaluates tracks
  refine (ensures_int64 fun isBad => (range isBad).1).bindEq ?_
  split
  · rename_i lt
    exact .pure (.inr ⟨s, rfl, .short lt⟩)
  rename_i enough
  refine (ensures_int64 fun isBad => (range isBad).2.1).bindEq ?_
  split
  · rename_i leaves
    obtain lt | ⟨lt, -⟩ := leaves
    · exact .pure (.inr ⟨s, rfl, .beyond lt⟩)
    · exact .pure (.inr ⟨s, rfl, .wasteful lt⟩)
  rename_i stays
  have within := not_lt.mp fun lt => stays (.inl lt)
  split
  · rename_i lt
    exact .pure (.inr ⟨_, rfl, .heavy lt⟩)
  rename_i light
  split
  · rename_i reaches
    refine (ensures_int64 fun isBad => (range isBad).2.2.1).bindEq ?_
    refine (ensures_int64 fun isBad => (range isBad).2.2.2).bindEq ?_
    split
    · rename_i le
      exact .pure (.inr ⟨_, rfl, .better reaches within (not_lt.mp light) le⟩)
    · rename_i lt
      exact .pure (.inr ⟨s, rfl, .worse reaches (not_le.mp lt)⟩)
  · rename_i below
    exact .pure (.inl ⟨rfl, not_le.mp below, not_lt.mp enough⟩)

theorem ensures_ahead (sum : x = ∑ i ∈ Ico k search.pool.length, search.amount i) :
    Ensures bad (int64 x) (· = x) :=
  ensures_int64 fun isBad => by
    obtain ⟨nonneg, le⟩ := (bounded isBad).ahead k
    rw [sum]
    exact isInt64_money (by omega) (by omega)

theorem restore_spec (lt : back < index) (le : index ≤ search.pool.length)
    (sum : avail = ∑ i ∈ Ico index search.pool.length, search.amount i) :
    Ensures bad (bnbRestore search.pool back index avail) fun restored =>
      restored = (back, ∑ i ∈ Ico (back + 1) search.pool.length, search.amount i) := by
  induction index generalizing avail with
  | zero => exact absurd lt (Nat.not_lt_zero back)
  | succ index ih =>
    rw [bnbRestore]
    split
    · rename_i further
      refine (ensures_atIndex fun _ _ => le).bind fun utxo here => ?_
      have more : avail + utxo.getSelectionAmount
          = ∑ i ∈ Ico index search.pool.length, search.amount i := by
        rw [sum, sum_eq_sum_Ico_succ_bot le, amount_eq here, add_comm]
      refine (ensures_ahead bounded more).bindEq ?_
      exact ih further (by omega) more
    · obtain rfl : back = index := by omega
      exact .pure (by rw [sum])

theorem backtrack_spec (tracks : search.Tracks s) :
    Ensures bad (bnbBacktrack search.pool s) fun
      | none => s.currSelection = []
      | some s' => search.Tracks s' ∧ SameBest s s' ∧
          ∃ back, s.currSelection = back :: s'.currSelection ∧ s'.utxoPoolIndex = back + 1 := by
  rw [bnbBacktrack]
  split
  · exact .pure ‹_›
  rename_i back rest selection
  obtain ⟨path, inRange, value, weight, waste, avail⟩ := tracks
  rw [selection] at path
  rw [selection, List.map_cons, List.sum_cons] at value weight waste
  have lt : back < search.pool.length := path.last_lt.trans_le inRange
  have fits := fun isBad => (bounded isBad).fits path.back lt.le lt
  refine (restore_spec bounded path.last_lt inRange avail).bindEq ?_
  simp only [assert, beq_self_eq_true, if_true]
  refine (ensures_atIndex fun _ _ => lt).bind fun utxo here => ?_
  rw [amount_eq here, ← sub_eq_iff_eq_add'] at value
  rw [weight_eq here, ← sub_eq_iff_eq_add'] at weight
  rw [extra_eq here, ← sub_eq_iff_eq_add'] at waste
  refine (ensures_int64 fun isBad => value ▸ (fits isBad).1).bindEq ?_
  refine (ensures_int64 fun isBad => (extra_eq here).subst (fits isBad).2.2.2).bindEq ?_
  refine (ensures_int64 fun isBad => waste ▸ (fits isBad).2.1).bindEq ?_
  refine (ensures_int fun isBad => weight ▸ (fits isBad).2.2.1).bindEq ?_
  exact .pure ⟨⟨path.back.skip, lt, value, weight, waste, rfl⟩, ⟨rfl, rfl⟩, back, selection, rfl⟩

end Steps

theorem includes_spec (tracks : search.Tracks s)
    (here : search.pool[s.utxoPoolIndex]? = some utxo) :
    Ensures bad (bnbIncludes search.pool s.currSelection s.utxoPoolIndex utxo) fun included =>
      included = false → ∃ i, s.utxoPoolIndex = i + 1 ∧ i ∉ s.currSelection ∧ search.Clone i := by
  have path := tracks.path
  rw [bnbIncludes.eq_def]
  split
  · exact .pure nofun
  rename_i back rest selection
  rw [selection] at path ⊢
  have last := path.last_lt
  obtain ⟨i, index⟩ : ∃ i, s.utxoPoolIndex = i + 1 := ⟨s.utxoPoolIndex - 1, by omega⟩
  rw [index] at here last ⊢
  have room := (List.getElem?_eq_some_iff.mp here).1
  split
  · exact .pure nofun
  rename_i adjacent
  refine (ensures_atIndex fun _ _ => Nat.lt_of_succ_lt room).bind fun prev before => ?_
  refine .pure fun same => ⟨i, rfl, ?_, room, ?_, ?_⟩
  · rw [List.mem_cons, not_or]
    refine ⟨by simpa using adjacent, fun older => ?_⟩
    have := path.back.below i older
    omega
  · rw [amount_eq here, amount_eq before]
    simp_all
  · rw [sample_eq here, sample_eq before]
    simp_all

theorem forward_spec (bounded : bad .signedOverflow → search.Bounded) (tracks : search.Tracks s)
    (lt : s.utxoPoolIndex < search.pool.length) :
    Ensures bad (bnbForward search.pool s) fun s' => search.Tracks s' ∧ SameBest s s' ∧
      s'.utxoPoolIndex = s.utxoPoolIndex + 1 ∧
      (s'.currSelection = s.utxoPoolIndex :: s.currSelection ∨
        (s'.currSelection = s.currSelection ∧
          ∃ i, s.utxoPoolIndex = i + 1 ∧ i ∉ s.currSelection ∧ search.Clone i)) := by
  refine (ensures_atIndex fun _ _ => lt).bind fun utxo here => ?_
  have ahead : s.currAvailableValue - utxo.getSelectionAmount
      = ∑ i ∈ Ico (s.utxoPoolIndex + 1) search.pool.length, search.amount i := by
    rw [tracks.available, sum_eq_sum_Ico_succ_bot lt, amount_eq here, add_sub_cancel_left]
  refine (ensures_ahead bounded ahead).bindEq ?_
  refine (includes_spec tracks here).bind fun included clone => ?_
  cases included with
  | true =>
    have fits := fun isBad => (bounded isBad).fits tracks.path.take lt lt
    have value : s.currValue + utxo.getSelectionAmount
        = ((s.utxoPoolIndex :: s.currSelection).map search.amount).sum := by
      rw [List.map_cons, List.sum_cons, ← tracks.value, amount_eq here, add_comm]
    have waste : s.currWaste + utxo.extraFee
        = ((s.utxoPoolIndex :: s.currSelection).map search.extra).sum := by
      rw [List.map_cons, List.sum_cons, ← tracks.waste, extra_eq here, add_comm]
    have weight : s.currSelectionWeight + utxo.weight
        = ((s.utxoPoolIndex :: s.currSelection).map search.weight).sum := by
      rw [List.map_cons, List.sum_cons, ← tracks.weight, weight_eq here, add_comm]
    refine (ensures_int64 fun isBad => value ▸ (fits isBad).1).bindEq ?_
    refine (ensures_int64 fun isBad => (extra_eq here).subst (fits isBad).2.2.2).bindEq ?_
    refine (ensures_int64 fun isBad => waste ▸ (fits isBad).2.1).bindEq ?_
    refine (ensures_int fun isBad => weight ▸ (fits isBad).2.2.1).bindEq ?_
    exact .pure ⟨⟨tracks.path.take, lt, value, weight, waste, ahead⟩, ⟨rfl, rfl⟩, rfl, .inl rfl⟩
  | false =>
    exact .pure ⟨⟨tracks.path.skip, lt, tracks.value, tracks.weight, tracks.waste, ahead⟩,
      ⟨rfl, rfl⟩, rfl, .inr ⟨rfl, clone rfl⟩⟩

theorem Exhaustive.clone (good : search.Exhaustive) (clone : search.Clone i) (nmem : i ∉ chosen)
    (covers : Covers (search.Settled s) search.pool.length chosen (i + 1))
    (lt : subset ⊆ range search.pool.length) (agrees : AgreesBelow subset chosen (i + 1))
    (mem : i + 1 ∈ subset) : search.Settled s subset := by
  obtain ⟨out, settled⟩ := covers.exchange (Nat.lt_of_succ_lt clone.1) nmem lt agrees
  have amounts := sum_exchange (f := search.amount) mem out
  have extras := sum_exchange (f := search.extra) mem out
  have same := clone.2.1
  have cheaper := good.clone_extra i clone
  intro reaches within fits
  have fits' := good.clones_fit i clone subset lt mem out fits
  obtain ⟨found, least⟩ := settled (by omega) (by omega) fits'
  exact ⟨found, by omega⟩

/-- What holds before each pass of the search. -/
structure Head (search : BnbSearch subtract) (s : BnbState) : Prop where
  tracks : search.Tracks s
  best : search.Candidate s
  covers : search.Exhaustive → Fresh s ∧
    Covers (search.Settled s) search.pool.length s.currSelection s.utxoPoolIndex

def left (search : BnbSearch subtract) (s : BnbState) : ℕ :=
  remaining search.pool.length s.currSelection s.utxoPoolIndex

/-- A search that has ended has settled every subset. -/
def Done (search : BnbSearch subtract) (s : BnbState) : Prop :=
  search.Candidate s ∧
    (search.Exhaustive → ∀ subset ⊆ range search.pool.length, search.Settled s subset)

section Rounds

variable (bounded : bad .signedOverflow → search.Bounded) (head : search.Head s)
include bounded head

theorem Head.forward (lt : s.currValue < search.selectionTarget)
    (enough : search.selectionTarget ≤ s.currValue + s.currAvailableValue) :
    Ensures bad (bnbForward search.pool s) fun next =>
      search.Head next ∧ search.left next < search.left s := by
  obtain ⟨tracks, best, covers⟩ := head
  -- something is available, so the index is in range
  have room : s.utxoPoolIndex < search.pool.length := by
    by_contra full
    have none := tracks.available
    rw [Ico_eq_empty_of_le (Nat.not_lt.mp full), sum_empty] at none
    omega
  refine (forward_spec bounded tracks room).mono ?_
  rintro next ⟨tracks', same, index, selection⟩
  obtain ⟨less, less'⟩ := @remaining_next s.currSelection _ _ room
  refine ⟨⟨tracks', same.candidate best, fun good => ?_⟩, ?_⟩
  · obtain ⟨fresh, covers⟩ := covers good
    refine ⟨same.fresh fresh, ?_⟩
    rw [index]
    refine Covers.mono ?_ fun subset => same.settled
    rcases selection with taken | ⟨omitted, i, here, absent, clone⟩
    · rw [taken]
      exact covers.take
    · rw [omitted]
      refine covers.skip fun subset inside agrees mem => ?_
      rw [here] at covers agrees mem
      exact good.clone clone absent covers inside agrees mem
  · rw [left, index]
    rcases selection with taken | ⟨omitted, -⟩
    · rw [taken]
      exact less
    · rw [omitted]
      exact less'

variable (nonneg : ∀ i, 0 ≤ search.amount i)
include nonneg

theorem Head.leaf (leaf : Leaf search s leafState) :
    Ensures bad (bnbBacktrack search.pool leafState) fun
      | none => search.Done leafState
      | some next => search.Head next ∧ search.left next < search.left s := by
  have tracks' := leaf.tracks head.tracks
  have best' := leaf.candidate head.tracks head.best
  obtain ⟨sameSelection, sameIndex⟩ := leaf.same
  have covers' : search.Exhaustive → Fresh leafState ∧
      Covers (search.Settled leafState) search.pool.length leafState.currSelection
        leafState.utxoPoolIndex ∧
      Barren (search.Settled leafState) search.pool.length leafState.currSelection
        leafState.utxoPoolIndex := by
    intro good
    obtain ⟨fresh, covers⟩ := head.covers good
    rw [sameSelection, sameIndex]
    exact ⟨leaf.fresh head.tracks good fresh,
      covers.mono fun subset => leaf.settled head.tracks good,
      leaf.barren head.tracks good (fun i _ => nonneg i) fresh⟩
  refine (backtrack_spec bounded tracks').mono ?_
  rintro (_ | next) moved
  · refine ⟨best', fun good => ?_⟩
    obtain ⟨-, covers, barren⟩ := covers' good
    rw [moved] at covers barren
    exact covers.done barren
  obtain ⟨tracks'', same, back, selection, index⟩ := moved
  refine ⟨⟨tracks'', same.candidate best', fun good => ?_⟩, ?_⟩
  · obtain ⟨fresh, covers, barren⟩ := covers' good
    refine ⟨same.fresh fresh, ?_⟩
    have path := tracks'.path
    rw [selection] at covers barren path
    rw [index]
    exact (covers.back path barren).mono fun subset => same.settled
  · rw [left, left, index, ← sameSelection, selection]
    exact remaining_back head.tracks.inRange

theorem Head.round :
    Ensures bad (bnbRound search s)
      (Sum.elim (fun next => search.Head next ∧ search.left next < search.left s) search.Done) := by
  refine (evaluate_spec bounded head.tracks).bind ?_
  rintro _ (⟨rfl, lt, enough⟩ | ⟨leafState, rfl, leaf⟩)
  · exact (head.forward bounded lt enough).bind fun next holds => .pure holds
  · refine (head.leaf bounded nonneg leaf).bind ?_
    rintro (_ | next) holds
    · exact .pure holds
    · exact .pure holds

end Rounds

/-- The search never leaves its pool, its best selection is a solution, and it is cut off
    only where the tree has more nodes than passes are made. -/
theorem Head.loop (nonneg : ∀ i, 0 ≤ search.amount i)
    (bounded : bad .signedOverflow → search.Bounded) (head : search.Head s)
    (start : search.left s < 2 ^ (search.pool.length + 1)) (passes : Nat) :
    Ensures bad (loopUpTo (bnbRound search) passes s)
      (Sum.elim (fun last => search.Candidate last ∧ passes < 2 ^ (search.pool.length + 1))
        search.Done) := by
  have counted := @Loop.upTo _ _ _ (bnbRound search) bad search.Done s 0
    (fun k s => search.Head s ∧ k + search.left s < 2 ^ (search.pool.length + 1)) ?_
    ⟨head, by omega⟩ passes
  · refine counted.mono ?_
    rintro (last | last) holds
    · exact ⟨holds.1.best, by have := holds.2; omega⟩
    · exact holds
  · rintro k s ⟨head, few⟩
    refine (head.round bounded nonneg).mono ?_
    rintro (next | last) holds
    · exact ⟨holds.1, by have := holds.2; omega⟩
    · exact holds

end BnbSearch

open BnbSearch

section Result

variable {search : BnbSearch subtract} {s : BnbState} {result result' : SelectionResult}
  {groups : List (OutputGroup subtract)}

section

variable (solution : search.Solution selection waste)
include solution

theorem BnbSearch.Solution.amount_eq :
    amountOf (selected search.pool selection.reverse) = (selection.map search.amount).sum :=
  sum_selected_reverse _ solution.inside

theorem BnbSearch.Solution.in_range :
    search.selectionTarget ≤ amountOf (selected search.pool selection.reverse) ∧
      amountOf (selected search.pool selection.reverse)
        ≤ search.selectionTarget + search.costOfChange := by
  rw [solution.amount_eq]
  exact ⟨solution.reaches, solution.within⟩

theorem BnbSearch.Solution.weight_eq :
    weightOf (selected search.pool selection.reverse) = (selection.map search.weight).sum :=
  sum_selected_reverse _ solution.inside

theorem BnbSearch.Solution.wasteOf_eq :
    wasteOf search.selectionTarget (selected search.pool selection.reverse) = waste := by
  rw [wasteOf, solution.amount_eq, sum_selected_reverse _ solution.inside, solution.waste_eq]
  rfl

theorem BnbSearch.Solution.subperm :
    (selected search.pool selection.reverse).Subperm search.pool :=
  selected_subperm (List.nodup_reverse.mpr solution.nodup) (by simpa using solution.inside)

end

/-- At the upper end of the range the change is kept and costs as much as the excess. -/
theorem computeAndSetWaste_eq {target cost} (made : MadeOf result groups)
    (target_eq : result.target = target) (lt : 0 < target) (cost_nonneg : 0 ≤ cost)
    (le : target ≤ amountOf groups) (within : amountOf groups ≤ target + cost) :
    result.computeAndSetWaste cost cost 0
      = .ok { result with waste := some (wasteOf target groups) } := by
  have some : groups ≠ [] := by
    rintro rfl
    simp only [amountOf, List.map_nil, List.sum_nil] at le
    omega
  have amount := made.amount some
  have ne : result.selectedInputs ≠ [] := by
    intro none
    rw [getSelectedEffectiveValue, made.discount,
      getSelectedValue, none] at amount
    simp only [List.map_nil, List.sum_nil, add_zero, ite_self] at amount
    omega
  have notEmpty : (!result.selectedInputs.isEmpty) = true := by simp [ne]
  have change : result.getChange cost 0 =
      if amountOf groups - target < cost then 0 else amountOf groups - target := by
    have difference : (if result.useEffective then
        result.getSelectedEffectiveValue - result.target - 0
        else result.getSelectedValue - result.target) = amountOf groups - target := by
      rw [← amount, target_eq]
      split <;> simp
    simp only [getChange, difference]
  simp only [computeAndSetWaste, getSelectionWaste, change,
    notEmpty, amount, target_eq, made.extraFees, made.discount, bind, Except.bind, assert, if_true]
  by_cases full : amountOf groups - target < cost
  · simp [full, le, wasteOf, pure, Except.pure]
  have upper : amountOf groups - target = cost := by omega
  by_cases free : cost = 0
  · simp [upper, free, le, wasteOf, pure, Except.pure]
  · have pos : 0 < cost := by omega
    simp [upper, free, pos, wasteOf, pure, Except.pure]

theorem computeAndSetWaste_made (made : MadeOf result groups)
    (computed : result.computeAndSetWaste change cost changeFee = .ok result') :
    MadeOf result' groups := by
  obtain ⟨waste, -, ret⟩ := bind_eq_ok.mp computed
  cases ret
  exact ⟨made.inputs, made.weight, made.useEffective, made.discount⟩

/-- What is returned for the best selection of a search. -/
structure BnbSearch.Returns (search : BnbSearch subtract) (s : BnbState)
    (outcome : Except SelectionError SelectionResult) : Prop where
  best : search.Candidate s
  found : (∃ result, outcome = .ok result) ↔ s.bestSelection ≠ []
  made : ∀ result, outcome = .ok result →
    MadeOf result (selected search.pool s.bestSelection.reverse) ∧
    result.waste = some s.bestWaste

theorem BnbSearch.Returns.solution (returns : search.Returns s (.ok result)) :
    search.Solution s.bestSelection s.bestWaste :=
  returns.best (returns.found.mp ⟨result, rfl⟩)

theorem bnbFinish_spec (best : search.Candidate s)
    (posed : ∀ e, bad e → 0 < search.selectionTarget ∧ 0 ≤ search.costOfChange)
    (apart : bad sharedUtxos → Apart search.pool)
    (light : bad .signedOverflow → weightOf search.pool < 2 ^ 31) :
    Ensures bad (bnbFinish search s) (search.Returns s) := by
  rw [bnbFinish]
  split
  · rename_i none
    exact .pure ⟨best, by simpa using none, nofun⟩
  rename_i some
  have solution := best (by simpa using some)
  refine (MadeOf.nothing.addInputs solution.nodup solution.inside apart light).bind ?_
  rintro filled ⟨made, target, -⟩
  replace target : filled.target = search.selectionTarget := target
  have computed : Ensures bad (filled.computeAndSetWaste search.costOfChange
      search.costOfChange 0) fun computed =>
        MadeOf computed (selected search.pool s.bestSelection.reverse) ∧
        ∀ e, bad e → computed.waste = .some s.bestWaste := by
    by_cases isPosed : 0 < search.selectionTarget ∧ 0 ≤ search.costOfChange
    · rw [computeAndSetWaste_eq made target isPosed.1 isPosed.2
        solution.in_range.1 solution.in_range.2, solution.wasteOf_eq]
      exact .pure ⟨⟨made.inputs, made.weight, made.useEffective, made.discount⟩, fun _ _ => rfl⟩
    · have never : ∀ e, ¬ bad e := fun e isBad => isPosed (posed e isBad)
      exact .partially never fun result ret =>
        ⟨computeAndSetWaste_made made ret, fun e isBad => absurd isBad (never e)⟩
  refine computed.bind ?_
  rintro result ⟨made, waste⟩
  rw [assert]
  split
  · rename_i same
    refine .pure ⟨best, by simpa using some, ?_⟩
    rintro _ ⟨⟩
    exact ⟨made, by simpa using same⟩
  · rename_i ne
    exact .fail fun isBad => ne (by simp [waste _ isBad])

end Result

variable {search : BnbSearch subtract}

section SelectCoinsBnB

variable {sort : List (OutputGroup subtract) → List (OutputGroup subtract)}
  {pool : List (OutputGroup subtract)} {target cost maxWeight : Int}

theorem bnbAvailable_spec (positive : ∀ group ∈ pool, 0 < group.getSelectionAmount)
    (le : bad .signedOverflow → amountOf pool ≤ maxMoney) :
    Ensures bad (bnbAvailable pool) (· = amountOf pool) := by
  refine (Ensures.foldlM (fun rest avail => 0 ≤ avail ∧ avail + amountOf rest = amountOf pool ∧
    ∀ group ∈ rest, 0 < group.getSelectionAmount) ⟨le_refl 0, zero_add _, positive⟩ ?_).mono ?_
  · rintro group rest avail ⟨nonneg, sum, positive⟩
    obtain ⟨here, later⟩ := List.forall_mem_cons.mp positive
    have more : 0 ≤ amountOf rest := sum_map_nonneg fun group mem => (later group mem).le
    rw [amountOf_cons] at sum
    simp only [assert, here, decide_true, if_true, ok_bind]
    refine (ensures_int64 fun isBad => ?_).mono ?_
    · have := le isBad
      exact isInt64_money (by omega) (by omega)
    · rintro _ rfl
      exact ⟨by omega, by omega, later⟩
  · rintro avail ⟨-, sum, -⟩
    simpa [amountOf] using sum

theorem start_tracks (search : BnbSearch subtract) :
    search.Tracks (.start (amountOf search.pool)) where
  path := .root
  inRange := Nat.zero_le _
  value := rfl
  weight := rfl
  waste := rfl
  available := by
    change amountOf search.pool = ∑ i ∈ Ico 0 search.pool.length, search.amount i
    rw [← range_eq_Ico]
    exact (sum_sample _ _).symm

theorem start_head (search : BnbSearch subtract) :
    search.Head (.start (amountOf search.pool)) where
  tracks := start_tracks search
  best := absurd rfl
  covers := fun _ => ⟨fun _ => rfl, Covers.root⟩

/-- The loop is ended by `TOTAL_TRIES`. -/
def BnbCutOff (sort : List (OutputGroup subtract) → List (OutputGroup subtract))
    (pool : List (OutputGroup subtract)) (target cost maxWeight : Int) : Prop :=
  ∃ search start last, bnbSetUp sort pool target cost maxWeight = .ok (some (search, start)) ∧
    loopUpTo (bnbRound search) totalTries start = .ok (.inl last)

theorem bnbSetUp_spec (perm : (sort pool).Perm pool)
    (positive : ∀ group ∈ pool, 0 < group.getSelectionAmount)
    (posed : ∀ e, bad e → 0 < target)
    (le : bad .signedOverflow → amountOf pool ≤ maxMoney) :
    Ensures bad (bnbSetUp sort pool target cost maxWeight) fun
      | none => amountOf pool < target
      | some (search, start) => target ≤ amountOf pool ∧ start = .start (amountOf pool) ∧
          search.pool = sort pool ∧ search.selectionTarget = target ∧
          search.costOfChange = cost ∧ search.maxWeight = maxWeight := by
  refine (bnbAvailable_spec positive le).bindEq ?_
  split
  · exact .pure ‹_›
  rename_i enough
  refine (ensures_atIndex fun e isBad => ?_).bind fun first _ =>
    .pure ⟨not_lt.mp enough, rfl, rfl, rfl, rfl, rfl⟩
  -- a positive target is not reached by an empty pool
  have pos := posed e isBad
  rw [perm.length_eq]
  by_contra none
  rw [List.length_eq_zero_iff.mp (Nat.eq_zero_of_not_pos none)] at enough
  simp only [amountOf, List.map_nil, List.sum_nil] at enough
  omega

theorem selectCoinsBnB_spec (perm : (sort pool).Perm pool)
    (positive : ∀ group ∈ pool, 0 < group.getSelectionAmount)
    (posed : ∀ e, bad e → 0 < target ∧ 0 ≤ cost) (apart : bad sharedUtxos → Apart pool)
    (inRange : bad .signedOverflow → InRange pool cost) :
    Ensures bad (selectCoinsBnB sort pool target cost maxWeight) fun (outcome, exhausted) =>
      (amountOf pool < target ∧ outcome = .error .noSelection ∧ exhausted = true) ∨
      ∃ (search : BnbSearch subtract) (s : BnbState),
        search.pool = sort pool ∧ search.selectionTarget = target ∧ search.costOfChange = cost ∧
        search.maxWeight = maxWeight ∧ search.Returns s outcome ∧
        (exhausted = true → search.Done s) ∧
        (exhausted = false → BnbCutOff sort pool target cost maxWeight ∧
          totalTries < 2 ^ (pool.length + 1)) := by
  have amounts : 0 ≤ amountOf pool := sum_map_nonneg fun group mem => (positive group mem).le
  have fees : 0 ≤ (pool.map fee).sum := sum_map_nonneg fun group _ => group.fee_nonneg
  refine (bnbSetUp_spec perm positive (fun e isBad => (posed e isBad).1)
    fun isBad => ?_).returning.bind ?_
  · have money := (inRange isBad).money
    have := (posed _ isBad).2
    omega
  rintro (_ | ⟨search, start⟩) ⟨setUp, holds⟩
  · exact .pure (.inl ⟨holds, rfl, rfl⟩)
  obtain ⟨enough, rfl, poolEq, rfl, rfl, rfl⟩ := holds
  have same : search.pool.Perm pool := poolEq ▸ perm
  have total : amountOf search.pool = amountOf pool := (same.map _).sum_eq
  have bounded (isBad : bad .signedOverflow) : search.Bounded := by
    obtain ⟨money, longTerm, weights⟩ := inRange isBad
    obtain ⟨target_pos, cost_nonneg⟩ := posed _ isBad
    refine ⟨fun group mem => positive group (same.mem_iff.mp mem), ⟨?_, ?_, ?_⟩, target_pos,
      total ▸ enough, cost_nonneg⟩
    · rwa [total, (same.map fee).sum_eq]
    · rwa [(same.map longTermFee).sum_eq]
    · rwa [weightOf, (same.map _).sum_eq]
  have nonneg : ∀ i, 0 ≤ search.amount i :=
    sample_nonneg fun group mem => (positive group (same.mem_iff.mp mem)).le
  have head := start_head search
  rw [total] at head
  have finish {s} (best : search.Candidate s) := @bnbFinish_spec _ _ _ bad best posed
    (fun isBad => ((same.flatMap_right _).map _).nodup_iff.mpr (apart isBad))
    fun isBad => (bounded isBad).inRange.weights
  refine (head.loop nonneg bounded remaining_root totalTries).returning.bind ?_
  rintro (s | s) ⟨ran, holds⟩
  · refine (finish holds.1).bind fun outcome returns => .pure (.inr ⟨search, s, poolEq, rfl, rfl,
      rfl, returns, (absurd · Bool.false_ne_true), fun _ => ⟨⟨search, _, s, setUp, ran⟩, ?_⟩⟩)
    rw [← same.length_eq]
    exact holds.2
  · exact (finish holds.1).bind fun outcome returns => .pure (.inr ⟨search, s, poolEq, rfl, rfl,
      rfl, returns, fun _ => holds, (absurd ·.symm Bool.false_ne_true)⟩)

theorem extra_le_of_clone (ordered : search.pool.Pairwise fun a b => descending b a = false)
    (clone : search.Clone i) :
    ∃ a ∈ search.pool, ∃ b ∈ search.pool, a.getSelectionAmount = b.getSelectionAmount ∧
      a.fee = b.fee ∧ b.longTermFee ≤ a.longTermFee ∧
      (∀ f : OutputGroup subtract → Int, sample f search.pool i = f a) ∧
      ∀ f : OutputGroup subtract → Int, sample f search.pool (i + 1) = f b := by
  obtain ⟨lt, amounts, fees⟩ := clone
  have first : i < search.pool.length := Nat.lt_of_succ_lt lt
  have sorted := List.pairwise_iff_getElem.mp ordered i (i + 1) first lt (Nat.lt_succ_self i)
  have at_i : ∀ f : OutputGroup subtract → Int, sample f search.pool i = f search.pool[i] :=
    fun f => by simp [sample, first]
  have at_next : ∀ f : OutputGroup subtract → Int,
      sample f search.pool (i + 1) = f search.pool[i + 1] := fun f => by simp [sample, lt]
  simp only [amount, at_i, at_next] at amounts fees
  simp only [descending, amounts, if_true, fees, decide_eq_false_iff_not, not_lt] at sorted
  exact ⟨search.pool[i], List.getElem_mem first, search.pool[i + 1], List.getElem_mem lt,
    amounts.symm, fees.symm, by omega, at_i, at_next⟩

theorem BnbSearch.Exhaustive.of_pool
    (ordered : search.pool.Pairwise fun a b => descending b a = false)
    (target_pos : 0 < search.selectionTarget)
    (cheaper : ∀ group ∈ search.pool, group.longTermFee ≤ group.fee)
    (bounded : (search.pool.map OutputGroup.fee).sum + search.costOfChange ≤ maxMoney)
    (clones_fit : search.ClonesFit) : search.Exhaustive := by
  have extras : ∀ group ∈ search.pool, 0 ≤ group.extraFee := by
    intro group mem
    have := cheaper group mem
    simp only [OutputGroup.extraFee]
    omega
  constructor
  case target_pos => exact target_pos
  case extra_nonneg => exact fun i => sample_nonneg extras i
  case waste_le =>
    intro subset lt
    have part : ∑ i ∈ subset, search.extra i ≤ ∑ i ∈ range search.pool.length, search.extra i :=
      sum_le_sum_of_subset_of_nonneg lt fun i _ _ => sample_nonneg extras i
    have whole : ∑ i ∈ range search.pool.length, search.extra i
        = (search.pool.map OutputGroup.extraFee).sum := sum_sample _ _
    have split := sum_map_sub search.pool OutputGroup.fee OutputGroup.longTermFee
    have le : 0 ≤ (search.pool.map OutputGroup.longTermFee).sum :=
      sum_map_nonneg fun group _ => group.longTermFee_nonneg
    have eq : (search.pool.map OutputGroup.extraFee).sum
        = (search.pool.map fun group => group.fee - group.longTermFee).sum := rfl
    omega
  case clone_extra =>
    intro i clone
    obtain ⟨a, -, b, -, -, fees, le, at_a, at_b⟩ := extra_le_of_clone ordered clone
    rw [extra, extra, at_a, at_b, OutputGroup.extraFee, OutputGroup.extraFee]
    omega
  case clones_fit => exact clones_fit

theorem BnbSearch.ClonesFit.of_light (light : weightOf search.pool ≤ search.maxWeight) :
    search.ClonesFit := by
  intro i clone subset inside _ _ _
  have part : ∑ j ∈ exchange subset (i + 1) i, search.weight j
      ≤ ∑ j ∈ range search.pool.length, search.weight j :=
    sum_le_sum_of_subset_of_nonneg (exchange_subset inside (Nat.lt_of_succ_lt clone.1))
      fun j _ _ => search.weight_nonneg j
  exact (part.trans_eq (sum_sample _ _)).trans light

theorem BnbSearch.ClonesFit.of_ties
    (ordered : search.pool.Pairwise fun a b => descending b a = false)
    (ties : ∀ a ∈ search.pool, ∀ b ∈ search.pool, a.getSelectionAmount = b.getSelectionAmount →
      a.fee = b.fee → b.longTermFee ≤ a.longTermFee → a.weight ≤ b.weight) :
    search.ClonesFit := by
  intro i clone subset _ member absent light
  obtain ⟨a, ina, b, inb, amounts, fees, later, at_a, at_b⟩ := extra_le_of_clone ordered clone
  have lighter := ties a ina b inb amounts fees later
  have swapped := sum_exchange (f := search.weight) member absent
  have here : search.weight i = a.weight := at_a _
  have next : search.weight (i + 1) = b.weight := at_b _
  omega

/-- A solution is a set of indices, and an exhausted search has settled it. -/
theorem BnbSearch.Done.settles {s : BnbState} {chosen : List (OutputGroup subtract)}
    (done : search.Done s) (good : search.Exhaustive) (taken : chosen.Subperm search.pool)
    (fits : weightOf chosen ≤ search.maxWeight)
    (reaches : search.selectionTarget ≤ amountOf chosen)
    (within : amountOf chosen ≤ search.selectionTarget + search.costOfChange) :
    s.bestSelection ≠ [] ∧ s.bestWaste ≤ wasteOf search.selectionTarget chosen := by
  obtain ⟨subset, inside, sums⟩ := exists_indices taken
  have amount : amountOf chosen = ∑ i ∈ subset, search.amount i := sums _
  have weight : weightOf chosen = ∑ i ∈ subset, search.weight i := sums _
  have extra : (chosen.map OutputGroup.extraFee).sum = ∑ i ∈ subset, search.extra i := sums _
  rw [wasteOf, amount, extra]
  rw [amount] at reaches within
  rw [weight] at fits
  exact done.2 good subset inside reaches within fits

/-- Branch and bound is exact. The run always ends regularly: no index leaves the pool, no
    sum its type, and no assertion fails. It is cut off only by the limit on its tries. -/
theorem selectCoinsBnB_exact (sorted : IsSort descending pool (sort pool)) (apart : Apart pool)
    (positive : ∀ group ∈ pool, 0 < group.getSelectionAmount) (inRange : InRange pool cost)
    (target_pos : 0 < target) (cost_nonneg : 0 ≤ cost) :
    ∃ outcome exhausted,
      selectCoinsBnB sort pool target cost maxWeight = .ok (outcome, exhausted) ∧
      (exhausted = false → BnbCutOff sort pool target cost maxWeight ∧
        totalTries < 2 ^ (pool.length + 1)) ∧
      (∀ result, outcome = .ok result → ∃ chosen, chosen.Subperm pool ∧ MadeOf result chosen ∧
        target ≤ amountOf chosen ∧ amountOf chosen ≤ target + cost ∧
        result.weight ≤ maxWeight ∧ result.waste = some (wasteOf target chosen)) ∧
      (exhausted = true → (∀ group ∈ pool, group.longTermFee ≤ group.fee) →
        weightOf pool ≤ maxWeight →
        ((∃ result, outcome = .ok result) ↔ ∃ chosen : List (OutputGroup subtract),
          chosen.Subperm pool ∧ target ≤ amountOf chosen ∧ amountOf chosen ≤ target + cost) ∧
        ∀ result, outcome = .ok result → ∃ waste, result.waste = some waste ∧
          ∀ chosen : List (OutputGroup subtract), chosen.Subperm pool →
            target ≤ amountOf chosen → amountOf chosen ≤ target + cost →
              waste ≤ wasteOf target chosen) := by
  have amounts : ∀ group ∈ pool, 0 ≤ group.getSelectionAmount :=
    fun group member => (positive group member).le
  obtain ⟨⟨outcome, exhausted⟩, run, spec⟩ := (@selectCoinsBnB_spec _ _ _ _ _ _
    (fun _ => True) sorted.perm positive (fun _ _ => ⟨target_pos, cost_nonneg⟩) (fun _ => apart)
    fun _ => inRange).exists_ok fun _ => trivial
  refine ⟨outcome, exhausted, run, ?_⟩
  obtain ⟨short, rfl, rfl⟩ | ⟨search, s, poolEq, rfl, rfl, rfl, returns, done, cutOff⟩ := spec
  · -- all groups together do not reach the target
    refine ⟨nofun, nofun, fun _ _ _ => ⟨iff_of_false nofun ?_, nofun⟩⟩
    rintro ⟨chosen, taken, reaches, -⟩
    have le : amountOf chosen ≤ amountOf pool := sum_le_of_subperm taken amounts
    omega
  have perm : search.pool.Perm pool := poolEq ▸ sorted.perm
  refine ⟨cutOff, ?_, fun all cheaper light => ?_⟩
  · rintro result rfl
    have solution := returns.solution
    obtain ⟨made, waste⟩ := returns.made result rfl
    obtain ⟨reaches, within⟩ := solution.in_range
    refine ⟨_, solution.subperm.trans perm.subperm, made, reaches, within, ?_,
      solution.wasteOf_eq.symm ▸ waste⟩
    rw [made.weight, solution.weight_eq]
    exact solution.fits
  have good : search.Exhaustive := by
    have money := inRange.money
    have total : 0 ≤ amountOf pool := sum_map_nonneg amounts
    exact .of_pool (poolEq ▸ sorted.ordered) target_pos
      (fun group member => cheaper group (perm.mem_iff.mp member))
      (by rw [(perm.map _).sum_eq]; omega) (.of_light ((perm.map _).sum_eq.trans_le light))
  have settles {chosen : List (OutputGroup subtract)} (taken : chosen.Subperm pool) :=
    (done all).settles good (taken.trans perm.symm.subperm) ((weightOf_le taken).trans light)
  constructor
  · rw [returns.found]
    constructor
    · intro some
      have solution := returns.best some
      exact ⟨_, solution.subperm.trans perm.subperm, solution.in_range⟩
    · rintro ⟨chosen, taken, reaches, within⟩
      exact (settles taken reaches within).1
  · intro result isResult
    exact ⟨s.bestWaste, (returns.made result isResult).2, fun chosen taken reaches within =>
      (settles taken reaches within).2⟩

def twoGroups : List (OutputGroup false) := [.single false 0 11 68 1 1, .single false 1 6 68 1 1]

/-- One of two groups is the target: the search is exhausted and returns it. -/
theorem selectCoinsBnB_exact_two :
    ∃ result, selectCoinsBnB id twoGroups 5 0 1000 = .ok (.ok result, true) ∧
      (∃ chosen : List (OutputGroup false), MadeOf result chosen ∧
        5 ≤ amountOf chosen ∧ amountOf chosen ≤ 5 + 0 ∧ result.weight ≤ 1000) ∧
      ∃ waste, result.waste = some waste ∧ ∀ chosen, chosen.Subperm twoGroups →
        5 ≤ amountOf chosen → amountOf chosen ≤ 5 + 0 → waste ≤ wasteOf 5 chosen := by
  have known : selectCoinsBnB id twoGroups 5 0 1000 = .ok (.ok { SelectionResult.new 5 .bnb with
      selectedInputs := (OutputGroup.single false 1 6 68 1 1).outputs
      useEffective := true
      waste := some 0
      weight := 272 }, true) := by decide +kernel
  obtain ⟨_, _, run, -, within, exact⟩ := @selectCoinsBnB_exact false id twoGroups 5 0 1000
    ⟨.refl _, by decide⟩ (by decide) (by decide) ⟨by decide +kernel, by decide +kernel, by decide⟩
    (by decide) (by decide)
  cases known.symm.trans run
  obtain ⟨chosen, -, made, reaches, bounded, light, -⟩ := within _ rfl
  exact ⟨_, known, ⟨chosen, made, reaches, bounded, light⟩,
    (exact rfl (by decide) (by decide)).2 _ rfl⟩

/-- Two groups whose weights, or whose long-term fees, add up to more than fits. -/
theorem selectCoinsBnB_overflows :
    selectCoinsBnB id [OutputGroup.single false 0 5 (2 ^ 28) 0 0,
      OutputGroup.single false 1 5 (2 ^ 28) 0 0] 10 0 (2 ^ 31 - 1) = .error .signedOverflow ∧
    selectCoinsBnB id [OutputGroup.single false 0 5 68 0 (2 ^ 62 + 1),
      OutputGroup.single false 1 5 68 0 (2 ^ 62 + 1)] 10 0 1000 = .error .signedOverflow := by
  decide +kernel

/-- An exhausted search that returns an error has missed nothing, provided that groups
    which it takes for clones do not get lighter. -/
theorem selectCoinsBnB_error (sorted : IsSort descending pool (sort pool))
    (positive : ∀ group ∈ pool, 0 < group.getSelectionAmount)
    (cheaper : ∀ group ∈ pool, group.longTermFee ≤ group.fee)
    (bounded : amountOf pool + (pool.map OutputGroup.fee).sum + cost ≤ maxMoney)
    (light : weightOf pool < 2 ^ 31)
    (ties : ∀ a ∈ pool, ∀ b ∈ pool, a.getSelectionAmount = b.getSelectionAmount →
      a.fee = b.fee → b.longTermFee ≤ a.longTermFee → a.weight ≤ b.weight)
    (target_pos : 0 < target) (cost_nonneg : 0 ≤ cost) :
    selectCoinsBnB sort pool target cost maxWeight ≠ .error .signedOverflow ∧
    ∀ error, selectCoinsBnB sort pool target cost maxWeight = .ok (.error error, true) →
      ¬ ∃ chosen : List (OutputGroup subtract), chosen.Subperm pool ∧
        target ≤ amountOf chosen ∧ amountOf chosen ≤ target + cost ∧
        weightOf chosen ≤ maxWeight := by
  have amounts : 0 ≤ amountOf pool := sum_map_nonneg fun group mem => (positive group mem).le
  have later : (pool.map longTermFee).sum ≤ (pool.map fee).sum := List.sum_le_sum cheaper
  have spec := @selectCoinsBnB_spec _ _ _ _ _ maxWeight (· = .signedOverflow)
    sorted.perm positive (fun _ _ => ⟨target_pos, cost_nonneg⟩)
    (fun shared => absurd shared (by decide))
    fun _ => ⟨bounded, by omega, light⟩
  refine ⟨spec.ne_error rfl, ?_⟩
  rintro error run ⟨chosen, taken, reaches, within, fits⟩
  obtain ⟨short, -⟩ | ⟨search, s, poolEq, rfl, rfl, rfl, returns, done, -⟩ := spec.of_eq_ok run
  · have le : amountOf chosen ≤ amountOf pool :=
      sum_le_of_subperm taken fun group member => (positive group member).le
    omega
  have perm : search.pool.Perm pool := poolEq ▸ sorted.perm
  have ordered := poolEq ▸ sorted.ordered
  have good : search.Exhaustive :=
    .of_pool ordered target_pos (fun group member => cheaper group (perm.mem_iff.mp member))
      (by rw [(perm.map _).sum_eq]; omega)
      (.of_ties ordered (by simpa only [perm.mem_iff] using ties))
  obtain ⟨some, -⟩ :=
    (done rfl).settles good (taken.trans perm.symm.subperm) fits reaches within
  simpa using returns.found.mpr some

/-- One group larger than the range. -/
theorem selectCoinsBnB_error_one :
    selectCoinsBnB id [OutputGroup.single false 0 11 68 1 1] 5 0 1000
      = .ok (.error .noSelection, true) ∧
    ¬ ∃ chosen : List (OutputGroup false), chosen.Subperm [OutputGroup.single false 0 11 68 1 1] ∧
      5 ≤ amountOf chosen ∧ amountOf chosen ≤ 5 + 0 ∧ weightOf chosen ≤ 1000 := by
  have run : selectCoinsBnB id [OutputGroup.single false 0 11 68 1 1] 5 0 1000
      = .ok (.error .noSelection, true) := by decide +kernel
  exact ⟨run, (selectCoinsBnB_error ⟨.refl _, by decide⟩ (by decide) (by decide)
    (by decide +kernel) (by decide) (by decide) (by decide) (by decide)).2 _ run⟩

/-- Groups of amounts 10, 5 and 5 at one satoshi of fee each, the middle one heavier: the
    light pair is never tried once the heavy one was given up. A group whose fee is more
    than `MAX_MONEY` is never recorded at all. -/
theorem selectCoinsBnB_error_misses :
    (∃ pool : List (OutputGroup false), IsSort descending pool (id pool) ∧
      (∀ group ∈ pool, 0 < group.getSelectionAmount ∧ 0 < group.weight ∧
        group.longTermFee ≤ group.fee) ∧
      (pool.map OutputGroup.fee).sum ≤ maxMoney ∧
      selectCoinsBnB id pool 15 0 50 = .ok (.error .maxWeightExceeded, true) ∧
      ∃ chosen : List (OutputGroup false), chosen.Subperm pool ∧ amountOf chosen = 15 ∧
        weightOf chosen ≤ 50) ∧
    ∃ pool : List (OutputGroup false), IsSort descending pool (id pool) ∧
      (∀ group ∈ pool, 0 < group.getSelectionAmount ∧ 0 < group.weight ∧
        group.longTermFee ≤ group.fee) ∧
      selectCoinsBnB id pool 10 0 1000 = .ok (.error .noSelection, true) ∧
      ∃ chosen : List (OutputGroup false), chosen.Subperm pool ∧ amountOf chosen = 10 ∧
        weightOf chosen ≤ 1000 := by
  constructor
  · obtain ⟨large, isLarge⟩ : ∃ group, group = OutputGroup.single false 0 11 1 1 1 := ⟨_, rfl⟩
    obtain ⟨heavy, isHeavy⟩ : ∃ group, group = OutputGroup.single false 1 6 25 1 1 := ⟨_, rfl⟩
    obtain ⟨light, isLight⟩ : ∃ group, group = OutputGroup.single false 2 6 1 1 1 := ⟨_, rfl⟩
    refine ⟨[large, heavy, light], ⟨.refl _, ?_⟩, ?_, ?_, ?_, [large, light], ?_, ?_, ?_⟩
    case refine_5 => exact ((List.sublist_cons_self heavy [light]).cons_cons large).subperm
    all_goals subst isLarge isHeavy isLight; decide +kernel
  · refine ⟨[OutputGroup.single false 0 2100000000000011 68 2100000000000001 0],
      ⟨.refl _, ?_⟩, ?_, ?_, [OutputGroup.single false 0 2100000000000011 68 2100000000000001 0],
      .refl _, ?_, ?_⟩
    all_goals decide +kernel

end SelectCoinsBnB

end HobbyHash.Wallet
