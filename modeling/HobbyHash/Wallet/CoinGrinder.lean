import HobbyHash.Wallet.Selections

/-! # CoinGrinder

The search of `CoinGrinder` against the subsets of its pool. Whatever the pool is,
the running sums stay those of the current selection and a recorded selection is a
solution. With what the caller guarantees about the pool (`Sound`) no index leaves
the pool, no sum leaves its type, and every branch that is cut or shifted past
holds no solution lighter than the best one. The one product of the search, the
tail estimate, is bounded by the weight of the groups it stands for, because what
is missing is still available there; so it is only taken where such groups exist.
-/

namespace HobbyHash.Wallet

open Library Machine Consensus Finset

variable {subtract : Bool}

variable {utxo : OutputGroup subtract} {i : Nat}

namespace CgSearch

variable (search : CgSearch subtract)

def amount (i : Nat) : Int := sample OutputGroup.getSelectionAmount search.pool i

def weight (i : Nat) : Int := sample OutputGroup.weight search.pool i

theorem amount_eq {search : CgSearch subtract} (here : search.pool[i]? = some utxo) :
    search.amount i = utxo.getSelectionAmount :=
  sample_eq here _

theorem weight_eq {search : CgSearch subtract} (here : search.pool[i]? = some utxo) :
    search.weight i = utxo.weight :=
  sample_eq here _

def amountSum (selection : List Nat) : Int := (selection.map search.amount).sum

def weightSum (selection : List Nat) : Int := (selection.map search.weight).sum

@[simp] theorem amountSum_cons (i : Nat) (rest : List Nat) :
    search.amountSum (i :: rest) = search.amount i + search.amountSum rest := by
  simp [amountSum]

@[simp] theorem weightSum_cons (i : Nat) (rest : List Nat) :
    search.weightSum (i :: rest) = search.weight i + search.weightSum rest := by
  simp [weightSum]

/-- The running sums are those of the current selection. -/
structure Tracks (s : CgState) : Prop where
  path : SearchPath s.currSelection s.nextUtxo
  amount : s.currAmount = search.amountSum s.currSelection
  weight : s.currWeight = search.weightSum s.currSelection

/-- A recorded selection is a solution, and no recorded weight is above the limit. -/
structure Candidate (s : CgState) : Prop where
  limit : s.bestSelectionWeight ≤ search.maxWeight
  nodup : s.bestSelection.Nodup
  inside : ∀ i ∈ s.bestSelection, i < search.pool.length
  reaches : s.bestSelection ≠ [] → search.totalTarget ≤ search.amountSum s.bestSelection
  amount : s.bestSelection ≠ [] → s.bestSelectionAmount = search.amountSum s.bestSelection
  weight : s.bestSelection ≠ [] → s.bestSelectionWeight = search.weightSum s.bestSelection

variable {search} {s s' : CgState}

theorem Tracks.along (tracks : search.Tracks s) (selection : s.currSelection = chosen)
    (next : s.nextUtxo = depth) :
    SearchPath chosen depth ∧ s.currAmount = search.amountSum chosen ∧
      s.currWeight = search.weightSum chosen := by
  subst selection next
  exact ⟨tracks.path, tracks.amount, tracks.weight⟩

/-- The selections that are still to be evaluated, and one more. -/
def left (search : CgSearch subtract) (s : CgState) : ℕ :=
  remaining search.pool.length s.currSelection s.nextUtxo

def SameBest (s s' : CgState) : Prop :=
  s'.bestSelection = s.bestSelection ∧ s'.bestSelectionWeight = s.bestSelectionWeight ∧
    s'.bestSelectionAmount = s.bestSelectionAmount

theorem Candidate.kept (best : search.Candidate s) (same : SameBest s s') :
    search.Candidate s' := by
  obtain ⟨selection, weight, amount⟩ := same
  constructor
  all_goals simp only [selection, weight, amount]
  · exact best.limit
  · exact best.nodup
  · exact best.inside
  · exact best.reaches
  · exact best.amount
  · exact best.weight

/-- What the caller guarantees about the pool, and what the sort and the tables give. -/
structure Sound (search : CgSearch subtract) : Prop where
  amount_pos : ∀ i < search.pool.length, 0 < search.amount i
  weight_pos : ∀ i < search.pool.length, 0 < search.weight i
  amount_total : ∑ i ∈ range search.pool.length, search.amount i < maxMoney
  weight_total : ∑ i ∈ range search.pool.length, search.weight i < 2 ^ 31
  target_pos : 0 < search.totalTarget
  target_le : search.totalTarget ≤ ∑ i ∈ range search.pool.length, search.amount i
  descending : ∀ i j, i < j → j < search.pool.length → search.amount j ≤ search.amount i
  ties : ∀ i j, i < j → j < search.pool.length → search.amount i = search.amount j →
    search.weight i ≤ search.weight j
  tails : ∀ i < search.pool.length, ∃ ahead, search.tails[i]? = some ahead ∧
    ahead.lookahead = ∑ j ∈ Ico (i + 1) search.pool.length, search.amount j ∧
    (∀ j, i < j → j < search.pool.length → ahead.minTailWeight ≤ search.weight j) ∧
    ((∃ j, i < j ∧ j < search.pool.length ∧ ahead.minTailWeight = search.weight j) ∨
      (i + 1 = search.pool.length ∧ ahead.minTailWeight = intMax))

/-- A subset that is a solution is not better than the best selection. -/
def Settled (search : CgSearch subtract) (s : CgState) (subset : Finset ℕ) : Prop :=
  search.totalTarget ≤ ∑ i ∈ subset, search.amount i →
  ∑ i ∈ subset, search.weight i ≤ search.maxWeight →
  s.bestSelection ≠ [] ∧
    (s.bestSelectionWeight < ∑ i ∈ subset, search.weight i ∨
      (s.bestSelectionWeight = ∑ i ∈ subset, search.weight i ∧
        s.bestSelectionAmount ≤ ∑ i ∈ subset, search.amount i))

/-- The branches that the search has passed, the branch below a path, and all subsets hold
    nothing better than the best selection. -/
abbrev Covered (search : CgSearch subtract) (s : CgState) (chosen : List ℕ) (depth : ℕ) : Prop :=
  Covers (search.Settled s) search.pool.length chosen depth

abbrev Closed (search : CgSearch subtract) (s : CgState) (chosen : List ℕ) (depth : ℕ) : Prop :=
  Barren (search.Settled s) search.pool.length chosen depth

def Exhausted (search : CgSearch subtract) (s : CgState) : Prop :=
  ∀ subset ⊆ range search.pool.length, search.Settled s subset

/-- The groups of the tail's amount that cover what is missing, rounded up. -/
def tailCount (search : CgSearch subtract) (s : CgState) (tail : ℕ) : Int :=
  (search.totalTarget - s.currAmount + search.amount tail - 1).tdiv (search.amount tail)

def Fresh (search : CgSearch subtract) (s : CgState) : Prop :=
  s.bestSelection = [] →
    s.bestSelectionWeight = search.maxWeight ∧ s.bestSelectionAmount = maxMoney

theorem SameBest.settled (same : SameBest s s') {subset} (settled : search.Settled s subset) :
    search.Settled s' subset := by
  rw [Settled, same.1, same.2.1, same.2.2]
  exact settled

theorem SameBest.fresh (same : SameBest s s') (fresh : search.Fresh s) : search.Fresh s' := by
  rw [Fresh, same.1, same.2.1, same.2.2]
  exact fresh

theorem Fresh.heavier (fresh : search.Fresh s)
    (lt : search.totalTarget ≤ ∑ i ∈ subset, search.amount i →
      s.bestSelectionWeight < ∑ i ∈ subset, search.weight i) : search.Settled s subset := by
  intro reaches fits
  have heavier := lt reaches
  refine ⟨fun none => ?_, .inl heavier⟩
  have initial := (fresh none).1
  omega

namespace Sound

variable {subset : Finset ℕ} {chosen : List ℕ} {depth tail : Nat} {ahead : Tail}

variable (sound : search.Sound)
include sound

theorem amountSum_le (path : SearchPath chosen depth) (le : depth ≤ search.pool.length) :
    search.amountSum chosen ≤ ∑ i ∈ range search.pool.length, search.amount i := by
  exact path.sum_le le fun i inside => (sound.amount_pos i inside).le

theorem weightSum_le (path : SearchPath chosen depth) (le : depth ≤ search.pool.length) :
    search.weightSum chosen ≤ ∑ i ∈ range search.pool.length, search.weight i := by
  exact path.sum_le le fun i inside => (sound.weight_pos i inside).le

theorem row (inside : tail < search.pool.length) (found : search.tails[tail]? = some ahead) :
    ahead.lookahead = ∑ j ∈ Ico (tail + 1) search.pool.length, search.amount j ∧
    (∀ j, tail < j → j < search.pool.length → ahead.minTailWeight ≤ search.weight j) ∧
    0 ≤ ahead.minTailWeight := by
  obtain ⟨row, here, lookahead, least, attained⟩ := sound.tails tail inside
  obtain rfl : row = ahead := Option.some.inj (here.symm.trans found)
  refine ⟨lookahead, least, ?_⟩
  rcases attained with ⟨j, -, below, weight⟩ | ⟨-, sentinel⟩
  · exact weight ▸ (sound.weight_pos j below).le
  · rw [sentinel]
    decide

theorem barren_end (last : depth = search.pool.length) (path : SearchPath chosen depth)
    (below : search.amountSum chosen < search.totalTarget) : search.Closed s chosen depth := by
  subst last
  intro subset inside agrees reaches
  have most := agrees.sum_le path inside fun i below => (sound.amount_pos i below).le
  rw [Ico_self, sum_empty, add_zero] at most
  exact absurd (reaches.trans most) (not_le.mpr below)

theorem clone (inside : i + 1 < search.pool.length) (eq : search.amount i = search.amount (i + 1))
    (nmem : i ∉ chosen) (covers : search.Covered s chosen (i + 1)) :
    ∀ subset ⊆ range search.pool.length, AgreesBelow subset chosen (i + 1) → i + 1 ∈ subset →
      search.Settled s subset := by
  intro subset within agrees mem
  obtain ⟨out, settled⟩ := covers.exchange (Nat.lt_of_succ_lt inside) nmem within agrees
  have amounts := sum_exchange (f := search.amount) mem out
  have weights := sum_exchange (f := search.weight) mem out
  have lighter := sound.ties i (i + 1) (Nat.lt_succ_self i) inside eq
  intro reaches fits
  obtain ⟨found, better⟩ := settled (by omega) (by omega)
  exact ⟨found, by omega⟩

theorem skip {first next : Nat} (path : SearchPath chosen first)
    (covers : search.Covered s chosen (first + 1))
    (le : first + 1 ≤ next) (inside : next ≤ search.pool.length)
    (clones : ∀ j, first + 1 ≤ j → j < next → search.amount (j - 1) = search.amount j) :
    search.Covered s chosen next := by
  induction next, le using Nat.le_induction with
  | base => exact covers
  | succ next le ih =>
    have before := ih (by omega) fun j from_ lt => clones j from_ (by omega)
    obtain ⟨i, rfl⟩ : ∃ i, next = i + 1 := ⟨next - 1, by omega⟩
    have nmem : i ∉ chosen := fun mem => by
      have := path.below i mem
      omega
    have same := clones (i + 1) le (by omega)
    exact before.skip (sound.clone (by omega) same nmem before)

/-- A path that is short of the target was so before its last group, too. -/
theorem short_before (path : SearchPath chosen depth) (le : depth ≤ search.pool.length)
    (short : search.amountSum chosen < search.totalTarget) :
    ∀ back rest, chosen = back :: rest → search.amountSum rest < search.totalTarget := by
  rintro back rest rfl
  have pos := sound.amount_pos back (path.last_lt.trans_le le)
  rw [amountSum_cons] at short
  omega

/-- Groups after the tail are no larger than it and no lighter than the least of them,
    so an amount can only be found at a weight. -/
theorem weight_ge (inside : tail < search.pool.length)
    (found : search.tails[tail]? = some ahead) (within : subset ⊆ range search.pool.length)
    (count : Int)
    (needed : (count - 1) * search.amount tail < ∑ i ∈ subset with tail + 1 ≤ i, search.amount i) :
    ahead.minTailWeight * count ≤ ∑ i ∈ subset with tail + 1 ≤ i, search.weight i := by
  obtain ⟨-, least, nonneg⟩ := sound.row inside found
  have later : ∀ i ∈ subset.filter (tail + 1 ≤ ·), tail < i ∧ i < search.pool.length := by
    intro i mem
    obtain ⟨mem, from_⟩ := mem_filter.mp mem
    exact ⟨from_, mem_range.mp (within mem)⟩
  have most : ∑ i ∈ subset with tail + 1 ≤ i, search.amount i
      ≤ (subset.filter (tail + 1 ≤ ·)).card • search.amount tail :=
    sum_le_card_nsmul _ _ _ fun i mem =>
      sound.descending tail i (later i mem).1 (later i mem).2
  have weights : (subset.filter (tail + 1 ≤ ·)).card • ahead.minTailWeight
      ≤ ∑ i ∈ subset with tail + 1 ≤ i, search.weight i :=
    card_nsmul_le_sum _ _ _ fun i mem => least i (later i mem).1 (later i mem).2
  have enough : count ≤ ((subset.filter (tail + 1 ≤ ·)).card : Int) := by
    have pos := sound.amount_pos tail inside
    have lt := lt_of_mul_lt_mul_right (needed.trans_le most) pos.le
    omega
  calc ahead.minTailWeight * count
      ≤ ahead.minTailWeight * ((subset.filter (tail + 1 ≤ ·)).card : Int) :=
        mul_le_mul_of_nonneg_left enough nonneg
    _ ≤ ∑ i ∈ subset with tail + 1 ≤ i, search.weight i := by rwa [mul_comm]

theorem ceil_spec (inside : tail < search.pool.length)
    (below : s.currAmount < search.totalTarget) : search.tailCount s tail * search.amount tail
      ≤ search.totalTarget - s.currAmount + search.amount tail - 1 := by
  have amount := sound.amount_pos tail inside
  rw [tailCount, Int.tdiv_eq_ediv_of_nonneg (by omega)]
  exact Int.ediv_mul_le _ amount.ne'

end Sound

/-- What the evaluation of a selection can come to. In the second and the last case the
    search leaves the omission branch out too if `leave` says so. -/
inductive Verdict (search : CgSearch subtract) (s : CgState) (tail : Nat) (ahead : Tail) :
    CgState → CgMove → Prop where
  | short (lt : s.currAmount + ahead.lookahead < search.totalTarget) :
      Verdict search s tail ahead s .cut
  | heavy (lt : s.bestSelectionWeight < s.currWeight) (exceeded : Bool) (move : CgMove)
      (cut : move = .cut → search.weight tail ≤ ahead.minTailWeight) (leaves : move ≠ .explore) :
      Verdict search s tail ahead { s with maxTxWeightExceeded := exceeded } move
  | better (reaches : search.totalTarget ≤ s.currAmount)
      (improves : s.currWeight < s.bestSelectionWeight ∨
        (s.currWeight = s.bestSelectionWeight ∧ s.currAmount < s.bestSelectionAmount)) :
      Verdict search s tail ahead { s with
        bestSelection := s.currSelection
        bestSelectionWeight := s.currWeight
        bestSelectionAmount := s.currAmount } .shift
  | worse (reaches : search.totalTarget ≤ s.currAmount)
      (weight : s.currWeight = s.bestSelectionWeight)
      (amount : s.bestSelectionAmount ≤ s.currAmount) : Verdict search s tail ahead s .shift
  | explore (lt : s.currAmount < search.totalTarget) : Verdict search s tail ahead s .explore
  | hopeless (lt : s.currAmount < search.totalTarget) (found : s.bestSelection ≠ [])
      (estimate : s.bestSelectionWeight <
        s.currWeight + ahead.minTailWeight * search.tailCount s tail)
      (move : CgMove) (cut : move = .cut → search.weight tail ≤ ahead.minTailWeight)
      (leaves : move ≠ .explore) : Verdict search s tail ahead s move

theorem leave_cut (ahead : Tail) (sampled : utxo.weight = search.weight tail) :
    ((if utxo.weight ≤ ahead.minTailWeight then CgMove.cut else CgMove.shift) = .cut →
      search.weight tail ≤ ahead.minTailWeight) ∧
    (if utxo.weight ≤ ahead.minTailWeight then CgMove.cut else CgMove.shift) ≠ .explore := by
  split <;> simp_all

namespace Verdict

variable {tail : Nat} {ahead : Tail} {move : CgMove}

variable (verdict : Verdict search s tail ahead s' move)
include verdict

theorem same :
    s'.currSelection = s.currSelection ∧ s'.nextUtxo = s.nextUtxo ∧
      s'.currAmount = s.currAmount ∧ s'.currWeight = s.currWeight ∧ s'.currTry = s.currTry := by
  cases verdict <;> exact ⟨rfl, rfl, rfl, rfl, rfl⟩

theorem tracks (tracks : search.Tracks s) :
    search.Tracks s' := by
  obtain ⟨selection, next, amount, weight, -⟩ := verdict.same
  constructor
  case path => exact selection ▸ next ▸ tracks.path
  case amount => rw [amount, selection, tracks.amount]
  case weight => rw [weight, selection, tracks.weight]

theorem candidate (tracks : search.Tracks s) (le : s.nextUtxo ≤ search.pool.length)
    (best : search.Candidate s) :
    search.Candidate s' := by
  cases verdict with
  | short | heavy | worse | explore | hopeless =>
    exact ⟨best.limit, best.nodup, best.inside, best.reaches, best.amount, best.weight⟩
  | better reaches improves =>
    constructor
    case limit =>
      have limit := best.limit
      change s.currWeight ≤ search.maxWeight
      omega
    case nodup => exact tracks.path.nodup
    case inside => exact fun i mem => (tracks.path.below i mem).trans_le le
    case reaches => exact fun _ => tracks.amount ▸ reaches
    case amount => exact fun _ => tracks.amount
    case weight => exact fun _ => tracks.weight

theorem settled (selection : s.currSelection = tail :: chosen) {subset}
    (settled : search.Settled s subset) :
    search.Settled s' subset := by
  cases verdict with
  | short | heavy | worse | explore | hopeless => exact settled
  | better reaches improves =>
    intro reaches' fits'
    obtain ⟨-, least⟩ := settled reaches' fits'
    refine ⟨?_, ?_⟩
    · simp [selection]
    · change s.currWeight < _ ∨ (s.currWeight = _ ∧ s.currAmount ≤ _)
      omega

theorem fresh (selection : s.currSelection = tail :: chosen) (fresh : search.Fresh s) :
    search.Fresh s' := by
  cases verdict with
  | short | heavy | worse | explore | hopeless => exact fresh
  | better reaches improves =>
    intro none
    have empty : s.currSelection = [] := none
    cases selection.symm.trans empty

omit verdict in
theorem explores (verdict : Verdict search s tail ahead s' .explore) :
    s.currAmount < search.totalTarget := by
  cases verdict with
  | heavy _ _ _ _ leaves => exact absurd rfl leaves
  | explore lt => exact lt
  | hopeless lt => exact lt

end Verdict

namespace Verdict

variable {tail : Nat} {ahead : Tail} {move : CgMove} {chosen : List Nat}

variable (sound : search.Sound) (tracks : search.Tracks s)
  (selection : s.currSelection = tail :: chosen) (next : s.nextUtxo = tail + 1)
  (inside : tail < search.pool.length) (row : search.tails[tail]? = some ahead)
  (fresh : search.Fresh s)
include sound tracks selection next inside row fresh

/-- When the search does not explore further, the inclusion branch has nothing better. -/
theorem barren (verdict : Verdict search s tail ahead s' move) (ne : move ≠ .explore) :
    search.Closed s' (tail :: chosen) (tail + 1) := by
  obtain ⟨path, amount, weight⟩ := tracks.along selection next
  have total := sound.amountSum_le path inside
  have bound := sound.amount_total
  obtain ⟨lookahead, -, -⟩ := sound.row inside row
  intro subset within agrees
  have most := agrees.sum_le path within fun i below => (sound.amount_pos i below).le
  have more : s.currAmount ≤ ∑ i ∈ subset, search.amount i := by
    rw [amount]
    exact agrees.le_sum path fun i mem =>
      (sound.amount_pos i (mem_range.mp (within mem))).le
  have heavier : s.currWeight ≤ ∑ i ∈ subset, search.weight i := by
    rw [weight]
    exact agrees.le_sum path fun i mem =>
      (sound.weight_pos i (mem_range.mp (within mem))).le
  change _ ≤ search.amountSum (tail :: chosen) + _ at most
  cases verdict with
  | short lt =>
    intro reaches
    omega
  | heavy lt => exact fresh.heavier fun _ => by omega
  | explore => exact absurd rfl ne
  | better reaches improves =>
    intro _ _
    refine ⟨?_, ?_⟩
    · simp [selection]
    · change s.currWeight < _ ∨ (s.currWeight = _ ∧ s.currAmount ≤ _)
      omega
  | worse reaches same le =>
    intro _ _
    refine ⟨fun none => ?_, by omega⟩
    have initial := (fresh none).2
    omega
  | hopeless lt found estimate =>
    refine fresh.heavier fun reaches => ?_
    have split := agrees.sum_eq (f := search.amount) path
    have splitWeight := agrees.sum_eq (f := search.weight) path
    change _ = search.amountSum (tail :: chosen) + _ at split
    change _ = search.weightSum (tail :: chosen) + _ at splitWeight
    have rounded := sound.ceil_spec inside lt
    have needed := sound.weight_ge inside row within (search.tailCount s tail)
      (by rw [sub_mul, one_mul]; omega)
    omega

theorem barren_omit (verdict : Verdict search s tail ahead s' .cut)
    (short : search.amountSum chosen < search.totalTarget) :
    search.Closed s' chosen (tail + 1) := by
  obtain ⟨path, amount, weight⟩ := tracks.along selection next
  rw [amountSum_cons] at amount
  rw [weightSum_cons] at weight
  have omitted := path.back.skip
  have pos := sound.amount_pos tail inside
  obtain ⟨lookahead, -, -⟩ := sound.row inside row
  intro subset within agrees
  have most := agrees.sum_le omitted within fun i below => (sound.amount_pos i below).le
  have split := agrees.sum_eq (f := search.amount) omitted
  have splitWeight := agrees.sum_eq (f := search.weight) omitted
  change _ ≤ search.amountSum chosen + _ at most
  change _ = search.amountSum chosen + _ at split
  change _ = search.weightSum chosen + _ at splitWeight
  cases verdict with
  | short lt =>
    intro reaches
    omega
  | heavy lt _ _ cut =>
    have lighter := cut rfl
    refine fresh.heavier fun reaches => ?_
    have needed := sound.weight_ge inside row within 1 (by omega)
    omega
  | hopeless lt found estimate _ cut =>
    have lighter := cut rfl
    refine fresh.heavier fun reaches => ?_
    have rounded := sound.ceil_spec inside lt
    have needed := sound.weight_ge inside row within (search.tailCount s tail + 1)
      (by rw [add_sub_cancel_right]; omega)
    rw [mul_add, mul_one] at needed
    omega

end Verdict

/-- A fault that the caller rules out. -/
def Safe (search : CgSearch subtract) (_ : Fault) : Prop := search.Sound

namespace Sound

variable {chosen : List Nat} {depth tail : Nat}

variable (sound : search.Sound)
include sound

theorem sums (path : SearchPath chosen depth) (le : depth ≤ search.pool.length) :
    (0 ≤ search.amountSum chosen ∧ search.amountSum chosen < maxMoney) ∧
      0 ≤ search.weightSum chosen ∧ search.weightSum chosen < 2 ^ 31 := by
  have inside : ∀ i ∈ chosen, i < search.pool.length :=
    fun i mem => (path.below i mem).trans_le le
  refine ⟨⟨?_, (sound.amountSum_le path le).trans_lt sound.amount_total⟩,
    ?_, (sound.weightSum_le path le).trans_lt sound.weight_total⟩
  · exact sum_map_nonneg fun i mem => (sound.amount_pos i (inside i mem)).le
  · exact sum_map_nonneg fun i mem => (sound.weight_pos i (inside i mem)).le

theorem fits (path : SearchPath chosen depth) (le : depth ≤ search.pool.length) :
    IsInt64 (search.amountSum chosen) ∧ IsInt (search.weightSum chosen) := by
  obtain ⟨⟨lower, upper⟩, light, limit⟩ := sound.sums path le
  exact ⟨isInt64_money (by omega) (by omega), by omega, limit⟩

end Sound

variable {chosen : List Nat} {depth tail : Nat} {ahead : Tail} {move : CgMove}

theorem select_spec (tracks : search.Tracks s) (lt : s.nextUtxo < search.pool.length) :
    Ensures search.Safe (cgSelect search s) fun s' => search.Tracks s' ∧ SameBest s s' ∧
      s'.currSelection = s.nextUtxo :: s.currSelection ∧ s'.nextUtxo = s.nextUtxo + 1 ∧
      s'.currTry = s.currTry + 1 := by
  refine (ensures_atIndex fun _ _ => lt).bind fun utxo here => ?_
  have amount : s.currAmount + utxo.getSelectionAmount
      = search.amountSum (s.nextUtxo :: s.currSelection) := by
    rw [tracks.amount, amountSum_cons, add_comm, amount_eq here]
  have weight : s.currWeight + utxo.weight
      = search.weightSum (s.nextUtxo :: s.currSelection) := by
    rw [tracks.weight, weightSum_cons, add_comm, weight_eq here]
  refine (ensures_int64 fun sound => amount ▸ (sound.fits tracks.path.take lt).1).bindEq ?_
  refine (ensures_int fun sound => weight ▸ (sound.fits tracks.path.take lt).2).bindEq ?_
  exact .pure ⟨⟨tracks.path.take, amount, weight⟩, ⟨rfl, rfl, rfl⟩, rfl, rfl, rfl⟩

theorem deselect_spec (path : SearchPath (back :: rest) depth) (le : depth ≤ search.pool.length)
    (amount : s.currAmount = search.amountSum (back :: rest))
    (weight : s.currWeight = search.weightSum (back :: rest)) :
    Ensures search.Safe (cgDeselect search s back rest) fun s' => s' = { s with
      currAmount := search.amountSum rest
      currWeight := search.weightSum rest
      currSelection := rest } := by
  have inside : back < search.pool.length := path.last_lt.trans_le le
  refine (ensures_atIndex fun _ _ => inside).bind fun utxo here => ?_
  have less : s.currAmount - utxo.getSelectionAmount = search.amountSum rest := by
    rw [amount, amountSum_cons, amount_eq here, add_sub_cancel_left]
  have lighter : s.currWeight - utxo.weight = search.weightSum rest := by
    rw [weight, weightSum_cons, weight_eq here, add_sub_cancel_left]
  rw [less, lighter]
  refine (ensures_int64 fun sound => (sound.fits path.back inside.le).1).bindEq ?_
  refine (ensures_int fun sound => (sound.fits path.back inside.le).2).bindEq ?_
  exact .pure rfl

section Estimate

variable (inside : tail < search.pool.length) (row : search.tails[tail]? = some ahead)
  (path : SearchPath chosen (tail + 1)) (amount : s.currAmount = search.amountSum chosen)
  (weight : s.currWeight = search.weightSum chosen)
  (enough : search.totalTarget ≤ s.currAmount + ahead.lookahead)
  (below : s.currAmount < search.totalTarget)
include inside row path amount weight enough below

theorem Sound.estimate (sound : search.Sound) :
    tail + 1 < search.pool.length ∧ search.amount tail ≠ 0 ∧
      IsInt64 (search.totalTarget - s.currAmount) ∧
      IsInt64 (search.totalTarget - s.currAmount + search.amount tail) ∧
      IsInt64 (search.totalTarget - s.currAmount + search.amount tail - 1) ∧
      IsInt64 (search.tailCount s tail) ∧ IsInt64 (ahead.minTailWeight * search.tailCount s tail) ∧
      IsInt64 (s.currWeight + ahead.minTailWeight * search.tailCount s tail) := by
  obtain ⟨lookahead, -, nonneg⟩ := sound.row inside row
  obtain ⟨⟨lower, upper⟩, light, fits⟩ := sound.sums path inside
  have pos := sound.amount_pos tail inside
  have target := sound.target_le
  have total := sound.amount_total
  have limit : search.amount tail ≤ ∑ i ∈ range search.pool.length, search.amount i :=
    single_le_sum (f := search.amount) (fun i mem => (sound.amount_pos i (mem_range.mp mem)).le)
      (mem_range.mpr inside)
  have later : (range search.pool.length).filter (tail + 1 ≤ ·)
      = Ico (tail + 1) search.pool.length := by
    ext i
    simp [and_comm]
  have rounded := sound.ceil_spec inside below
  have le : 0 ≤ search.tailCount s tail := Int.tdiv_nonneg (by omega) pos.le
  generalize search.tailCount s tail = count at *
  have product := sound.weight_ge inside row (Subset.refl _) count
    (by rw [later, ← lookahead, sub_mul, one_mul]; omega)
  have part : ∑ i ∈ range search.pool.length with tail + 1 ≤ i, search.weight i
      ≤ ∑ i ∈ range search.pool.length, search.weight i :=
    sum_le_sum_of_subset_of_nonneg (filter_subset _ _) fun i mem _ =>
      (sound.weight_pos i (mem_range.mp mem)).le
  have weights := sound.weight_total
  have small : count ≤ count * search.amount tail := le_mul_of_one_le_right le pos
  have productNonneg : 0 ≤ ahead.minTailWeight * count := mul_nonneg nonneg le
  refine ⟨?_, pos.ne', isInt64_money (by omega) (by omega),
    isInt64_money (by omega) (by omega), isInt64_money (by omega) (by omega),
    isInt64_money (by omega) (by omega), ⟨by omega, by omega⟩, by omega, by omega⟩
  by_contra last
  rw [Ico_eq_empty_of_le (not_lt.mp last), sum_empty] at lookahead
  omega

theorem tailEstimate_spec :
    Ensures search.Safe (cgTailEstimate search s ahead.minTailWeight (search.amount tail))
      fun estimate => estimate = s.currWeight + ahead.minTailWeight * search.tailCount s tail := by
  have bounds := fun sound => Sound.estimate inside row path amount weight enough below sound
  refine (ensures_int64 fun sound => (bounds sound).2.2.1).bindEq ?_
  refine (ensures_int64 fun sound => (bounds sound).2.2.2.1).bindEq ?_
  refine (ensures_int64 fun sound => (bounds sound).2.2.2.2.1).bindEq ?_
  refine (ensures_divInt64 (fun sound => (bounds sound).2.1)
    fun sound => (bounds sound).2.2.2.2.2.1).bindEq ?_
  refine (ensures_int64 fun sound => (bounds sound).2.2.2.2.2.2.1).bindEq ?_
  exact ensures_int64 fun sound => (bounds sound).2.2.2.2.2.2.2

end Estimate

theorem evaluate_spec (tracks : search.Tracks s) (selection : s.currSelection = tail :: chosen)
    (next : s.nextUtxo = tail + 1) (inside : tail < search.pool.length) :
    Ensures search.Safe (cgEvaluate search s tail) fun out =>
      ∃ ahead, search.tails[tail]? = some ahead ∧ Verdict search s tail ahead out.1 out.2 := by
  obtain ⟨path, amount, weight⟩ := tracks.along selection next
  refine (ensures_atIndex fun _ _ => inside).bind fun utxo here => ?_
  refine (ensures_atIndex fun _ sound => ?_).bind fun ahead row => ?_
  · obtain ⟨ahead, row, -⟩ := sound.tails tail inside
    exact (List.getElem?_eq_some_iff.mp row).1
  obtain ⟨cut, leaves⟩ := leave_cut ahead (weight_eq here).symm
  refine (ensures_int64 fun sound => ?_).bind ?_
  · obtain ⟨lookahead, -⟩ := sound.row inside row
    obtain ⟨⟨lower, upper⟩, -⟩ := sound.sums path inside
    have total := sound.amount_total
    have rest : 0 ≤ ahead.lookahead ∧
        ahead.lookahead ≤ ∑ i ∈ range search.pool.length, search.amount i := by
      rw [lookahead]
      constructor
      · exact sum_nonneg fun i mem => (sound.amount_pos i (mem_Ico.mp mem).2).le
      · refine sum_le_sum_of_subset_of_nonneg (fun i mem => ?_) fun i mem _ =>
          (sound.amount_pos i (mem_range.mp mem)).le
        exact mem_range.mpr (mem_Ico.mp mem).2
    exact isInt64_money (by omega) (by omega)
  rintro _ rfl
  split
  · rename_i lt
    exact .pure ⟨ahead, row, .short lt⟩
  rename_i enough
  split
  · rename_i lt
    split
    · exact .pure ⟨ahead, row, .heavy lt true _ cut leaves⟩
    · exact .pure ⟨ahead, row, .heavy lt s.maxTxWeightExceeded _ cut leaves⟩
  rename_i light
  split
  · rename_i reaches
    split
    · rename_i improves
      exact .pure ⟨ahead, row, .better reaches improves⟩
    · rename_i stays
      simp only [not_or, not_lt, not_and] at stays light
      have weight : s.currWeight = s.bestSelectionWeight := le_antisymm light stays.1
      exact .pure ⟨ahead, row, .worse reaches weight (stays.2 weight)⟩
  rename_i below
  split
  · exact .pure ⟨ahead, row, .explore (not_le.mp below)⟩
  rename_i found
  rw [← amount_eq here]
  refine (tailEstimate_spec inside row path amount weight (not_lt.mp enough)
    (not_le.mp below)).bindEq ?_
  refine .pure ⟨ahead, row, ?_⟩
  split
  · rename_i above
    exact .hopeless (not_le.mp below) (by simpa using found) above _ cut leaves
  · exact .explore (not_le.mp below)

theorem skipClones_spec (inside : first < search.pool.length) (pos : 0 < first)
    (many : search.pool.length ≤ first + passes) :
    Ensures bad (cgSkipClones search.pool passes first) fun out =>
      first ≤ out.1 ∧ out.1 < search.pool.length ∧
      (∀ j, first ≤ j → j < out.1 → search.amount (j - 1) = search.amount j) ∧
      (out.2 = true → out.1 + 1 = search.pool.length ∧
        search.amount (out.1 - 1) = search.amount out.1) := by
  induction passes generalizing first with
  | zero => omega
  | succ passes ih =>
    refine (ensures_atIndex fun _ _ => by omega).bind fun prev before => ?_
    refine (ensures_atIndex fun _ _ => inside).bind fun utxo here => ?_
    rw [← amount_eq before, ← amount_eq here]
    split
    · rename_i clone
      split
      · exact .pure ⟨le_refl _, inside, fun j le lt => by omega, fun _ => ⟨by omega, clone⟩⟩
      refine (ih (by omega) (by omega) (by omega)).mono fun out ⟨le, within, clones, stopped⟩ => ?_
      refine ⟨by omega, within, fun j from_ lt => ?_, stopped⟩
      by_cases start : j = first
      · exact start ▸ clone
      · exact clones j (by omega) lt
    · exact .pure ⟨le_refl _, inside, fun j le lt => by omega, nofun⟩

/-- What holds at the head of the main loop. -/
structure Head (search : CgSearch subtract) (s : CgState) : Prop where
  tracks : search.Tracks s
  inRange : s.nextUtxo < search.pool.length
  best : search.Candidate s
  optimal : search.Sound → search.Fresh s ∧
    search.amountSum s.currSelection < search.totalTarget ∧
    search.Covered s s.currSelection s.nextUtxo

/-- Where the search goes from a selection that was evaluated: on, or to its end. -/
def Goes (search : CgSearch subtract) (s : CgState) (nodes : ℕ) (out : Option CgState) : Prop :=
  (∀ next, out = some next →
    search.Head next ∧ next.currTry = s.currTry ∧ search.left next ≤ nodes) ∧
  (out = none → search.Sound → search.Exhausted s)

theorem shift_spec (path : SearchPath chosen depth) (within : depth ≤ search.pool.length)
    (few : remaining search.pool.length chosen depth ≤ nodes)
    (room : ∀ i ∈ chosen, i + 1 < search.pool.length)
    (amount : s.currAmount = search.amountSum chosen)
    (weight : s.currWeight = search.weightSum chosen) (best : search.Candidate s)
    (optimal : search.Sound → search.Fresh s ∧ (∀ back rest, chosen = back :: rest →
        search.amountSum rest < search.totalTarget) ∧
      search.Covered s chosen depth ∧ search.Closed s chosen depth) :
    Ensures search.Safe (cgShift search chosen s) (search.Goes s nodes) := by
  induction chosen generalizing s depth with
  | nil =>
    refine .pure ⟨nofun, fun _ sound => ?_⟩
    obtain ⟨-, -, covers, barren⟩ := optimal sound
    exact covers.done barren
  | cons back rest ih =>
    have room' := room back List.mem_cons_self
    refine (deselect_spec path.back.take room'.le amount weight).bindEq ?_
    refine (skipClones_spec room' (Nat.succ_pos back) (by omega)).bind ?_
    rintro ⟨next, again⟩ ⟨le, inside, clones, stopped⟩
    have fewer : remaining search.pool.length rest (back + 1) ≤ nodes :=
      (remaining_back within).le.trans few
    have longer : ∀ k, back ≤ k → SearchPath rest k := fun k from_ =>
      ⟨path.back.decreasing, fun i mem => (path.back.below i mem).trans_le from_⟩
    have left (sound : search.Sound) : search.Covered s rest (back + 1) := by
      obtain ⟨-, -, covers, barren⟩ := optimal sound
      exact covers.back path barren
    cases again with
    | false =>
      refine .pure ⟨?_, nofun⟩
      rintro _ ⟨⟩
      refine ⟨⟨⟨longer next (by omega), rfl, rfl⟩, inside, best.kept ⟨rfl, rfl, rfl⟩,
        fun sound => ?_⟩, rfl, (remaining_skip le).trans fewer⟩
      obtain ⟨fresh, short, -⟩ := optimal sound
      exact ⟨fresh, short back rest rfl, sound.skip path.back (left sound) le inside.le clones⟩
    | true =>
      obtain ⟨last, clone⟩ := stopped rfl
      refine ih (longer search.pool.length (by omega)) (le_refl _)
        ((remaining_skip room'.le).trans fewer) (List.forall_mem_cons.mp room).2 rfl rfl
        (best.kept ⟨rfl, rfl, rfl⟩) fun sound => ?_
      obtain ⟨fresh, short, -⟩ := optimal sound
      have below := short back rest rfl
      -- every remaining group is a clone of the omitted one
      have done : search.Covered s rest search.pool.length := by
        refine sound.skip path.back (left sound) (by omega) (le_refl _) fun j from_ lt => ?_
        by_cases here : j = next
        · exact here ▸ clone
        · exact clones j from_ (by omega)
      exact ⟨fresh, sound.short_before path.back (by omega) below, done,
        sound.barren_end rfl (longer _ (by omega)) below⟩

/-- The state after `next_utxo` was selected and the selection evaluated. -/
structure Evaluated (search : CgSearch subtract) (s : CgState) (move : CgMove) (tail : Nat)
    (chosen : List Nat) : Prop where
  tracks : search.Tracks s
  best : search.Candidate s
  selection : s.currSelection = tail :: chosen
  next : s.nextUtxo = tail + 1
  inside : tail < search.pool.length
  optimal : search.Sound → search.Fresh s ∧ search.amountSum chosen < search.totalTarget ∧
    search.Covered s (tail :: chosen) (tail + 1) ∧
    (move = .explore → search.amountSum (tail :: chosen) < search.totalTarget) ∧
    (move ≠ .explore → search.Closed s (tail :: chosen) (tail + 1)) ∧
    (move = .cut → search.Closed s chosen (tail + 1))

theorem Head.evaluate (head : search.Head s) (tracks : search.Tracks sel) (same : SameBest s sel)
    (selection : sel.currSelection = s.nextUtxo :: s.currSelection)
    (next : sel.nextUtxo = s.nextUtxo + 1) :
    Ensures search.Safe (cgEvaluate search sel s.nextUtxo) fun out =>
      search.Evaluated out.1 out.2 s.nextUtxo s.currSelection ∧ out.1.currTry = sel.currTry := by
  have inside := head.inRange
  refine (evaluate_spec tracks selection next inside).mono ?_
  rintro ⟨s', move⟩ ⟨ahead, row, verdict⟩
  obtain ⟨sameSelection, sameNext, -, -, tries⟩ := verdict.same
  refine ⟨?_, tries⟩
  constructor
  case tracks => exact verdict.tracks tracks
  case best => exact verdict.candidate tracks (next ▸ inside) (head.best.kept same)
  case selection => exact sameSelection.trans selection
  case next => exact sameNext.trans next
  case inside => exact inside
  case optimal =>
    intro sound
    obtain ⟨fresh, short, covers⟩ := head.optimal sound
    have fresh := same.fresh fresh
    refine ⟨verdict.fresh selection fresh, short, ?_, ?_, ?_, ?_⟩
    · exact (covers.take.mono fun subset => same.settled).mono
        fun subset => verdict.settled selection
    · rintro rfl
      have lt := verdict.explores
      rwa [tracks.amount, selection] at lt
    · intro leaves
      exact verdict.barren sound tracks selection next inside row fresh leaves
    · rintro rfl
      exact verdict.barren_omit sound tracks selection next inside row fresh short

theorem Evaluated.left_eq (evaluated : search.Evaluated s move tail chosen) :
    search.left s = remaining search.pool.length (tail :: chosen) (tail + 1) := by
  rw [left, evaluated.selection, evaluated.next]

theorem Evaluated.advance (evaluated : search.Evaluated s move tail chosen) :
    Ensures search.Safe (cgAdvance search s move) (search.Goes s (search.left s)) := by
  obtain ⟨path, amount, weight⟩ := evaluated.tracks.along evaluated.selection evaluated.next
  have inside := evaluated.inside
  rw [cgAdvance, evaluated.left_eq]
  split
  · rename_i cut
    rw [evaluated.selection]
    refine (deselect_spec path inside amount weight).bindEq ?_
    refine shift_spec path.back.skip inside (remaining_back inside).le (fun i mem => ?_) rfl rfl
      (evaluated.best.kept ⟨rfl, rfl, rfl⟩) fun sound => ?_
    · have below := path.back.below i mem
      omega
    obtain ⟨fresh, short, covers, explores, leaves, cuts⟩ := evaluated.optimal sound
    -- at the end of the pool both branches are barren whatever was found
    have taken : search.Closed s (tail :: chosen) (tail + 1) := by
      by_cases explored : move = .explore
      · have last : tail + 1 = search.pool.length := by
          rw [explored, evaluated.next] at cut
          simpa using cut
        exact sound.barren_end last path (explores explored)
      · exact leaves explored
    have omitted : search.Closed s chosen (tail + 1) := by
      by_cases isCut : move = .cut
      · exact cuts isCut
      · rw [evaluated.next] at cut
        exact sound.barren_end (cut.resolve_left isCut) path.back.skip short
    exact ⟨fresh, sound.short_before path.back inside.le short, covers.back path taken, omitted⟩
  · rename_i stays
    simp only [not_or] at stays
    have next := evaluated.next
    split
    · rename_i isShift
      rw [evaluated.selection]
      refine shift_spec path inside (le_refl _) (fun i mem => ?_) amount weight evaluated.best
        fun sound => ?_
      · have below := path.below i mem
        omega
      · obtain ⟨fresh, short, covers, -, leaves, -⟩ := evaluated.optimal sound
        refine ⟨fresh, ?_, covers, leaves (by simp [isShift])⟩
        rintro back rest ⟨⟩
        exact short
    · rename_i notShift
      have explored : move = .explore := by
        cases move with
        | explore => rfl
        | shift => exact absurd rfl notShift
        | cut => exact absurd rfl stays.1
      refine .pure ⟨?_, nofun⟩
      rintro _ ⟨⟩
      refine ⟨⟨evaluated.tracks, by omega, evaluated.best, fun sound => ?_⟩, rfl,
        evaluated.left_eq.le⟩
      obtain ⟨fresh, -, covers, explores, -⟩ := evaluated.optimal sound
      rw [evaluated.selection, next]
      exact ⟨fresh, explores explored, covers⟩

/-- A search that was completed has settled every subset. The others were ended by
    `TOTAL_TRIES`, in a tree that has more nodes. -/
structure Ended (search : CgSearch subtract) (out : CgState × Bool) : Prop where
  best : search.Candidate out.1
  completed : out.2 = true → search.Sound → search.Exhausted out.1
  cutOff : out.2 = false →
    totalTries ≤ out.1.currTry ∧ totalTries < 2 ^ (search.pool.length + 1)

theorem Head.round (head : search.Head s)
    (few : s.currTry + search.left s < 2 ^ (search.pool.length + 1)) :
    Ensures search.Safe (cgRound search s) (Sum.elim (fun next => search.Head next ∧
      next.currTry = s.currTry + 1 ∧ next.currTry < totalTries ∧ search.left next < search.left s)
      search.Ended) := by
  refine (select_spec head.tracks head.inRange).bind ?_
  rintro sel ⟨tracks, same, selection, next, tries⟩
  refine (head.evaluate tracks same selection next).bind ?_
  rintro ⟨after, move⟩ ⟨evaluated, sameTries⟩
  dsimp only at evaluated sameTries
  obtain ⟨less, -⟩ := @remaining_next s.currSelection _ _ head.inRange
  dsimp only
  split
  · rename_i limit
    have pos : 0 < search.left s := remaining_pos head.inRange.le
    exact .pure ⟨evaluated.best, nofun, fun _ => ⟨limit, by omega⟩⟩
  refine evaluated.advance.bind ?_
  rintro (_ | next) ⟨goesOn, ends⟩
  · exact .pure ⟨evaluated.best, fun _ => ends rfl, nofun⟩
  · obtain ⟨head', stays, fewer⟩ := goesOn next rfl
    rw [evaluated.left_eq] at fewer
    exact .pure ⟨head', by omega, by omega, fewer.trans_lt less⟩

/-- The loop is left before its passes run out. -/
theorem Head.loop (head : search.Head s) (first : s.currTry = 0)
    (few : search.left s < 2 ^ (search.pool.length + 1)) (passes : Nat) :
    Ensures search.Safe (loopUpTo (cgRound search) passes s)
      (Sum.elim (fun last => search.Head last ∧ passes < totalTries) search.Ended) := by
  have counted := @Loop.upTo _ _ _ (cgRound search) search.Safe search.Ended s 0
    (fun k s => search.Head s ∧ s.currTry = k ∧ k < totalTries ∧
      k + search.left s < 2 ^ (search.pool.length + 1)) ?_
    ⟨head, first, by decide, by omega⟩ passes
  · refine counted.mono ?_
    rintro (last | out) holds
    · exact ⟨holds.1, Nat.zero_add passes ▸ holds.2.2.1⟩
    · exact holds
  · rintro _ s ⟨head, rfl, -, few⟩
    refine (head.round few).mono ?_
    rintro (next | out) holds
    · obtain ⟨head', tries, lt, less⟩ := holds
      exact ⟨head', tries, tries ▸ lt, by omega⟩
    · exact holds

end CgSearch

end HobbyHash.Wallet
