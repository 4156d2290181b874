import HobbyHash.Wallet.CoinGrinder

/-! # CoinGrinder is optimal

The tables are computed from the sorted pool, so that the guarantees of the caller
carry over to the search, and the best selection is put into the result. This gives
the result about `CoinGrinder` as a whole.
-/

namespace HobbyHash.Wallet

open Library Machine Consensus Finset OutputGroup
open SelectionResult (sharedUtxos)

variable {subtract : Bool}

namespace CgSearch

variable {search : CgSearch subtract} {s : CgState}

/-- The evaluation of a selection with last member `tail` comes to the tail estimate. -/
def EstimatesTail (search : CgSearch subtract) (s : CgState) (tail : Nat) : Prop :=
  ∃ ahead, search.tails[tail]? = some ahead ∧
    search.totalTarget ≤ s.currAmount + ahead.lookahead ∧
    s.currWeight ≤ s.bestSelectionWeight ∧ s.currAmount < search.totalTarget ∧
    s.bestSelection ≠ []

theorem Head.estimate (head : search.Head s) (sound : search.Sound)
    (select : cgSelect search s = .ok sel) (estimates : search.EstimatesTail sel s.nextUtxo) :
    s.nextUtxo + 1 < search.pool.length := by
  obtain ⟨ahead, row, enough, -, lt, -⟩ := estimates
  obtain ⟨tracks, -, -, next, -⟩ := (select_spec head.tracks head.inRange).of_eq_ok select
  exact (sound.estimate head.inRange row (next ▸ tracks.path) tracks.amount tracks.weight enough
    lt).1

theorem start_head (search : CgSearch subtract) (lt : 0 < search.pool.length) :
    search.Head (.start search.maxWeight) where
  tracks := ⟨.root, rfl, rfl⟩
  inRange := lt
  best := ⟨le_refl _, .nil, nofun, fun none => absurd rfl none, fun none => absurd rfl none,
    fun none => absurd rfl none⟩
  optimal := fun sound => ⟨fun _ => ⟨rfl, rfl⟩, sound.target_pos, Covers.root⟩

end CgSearch

section Tables

variable {pool : List (OutputGroup subtract)}

/-- The least weight of a list of groups, as `min_group_weight` ends up. -/
def minWeight (pool : List (OutputGroup subtract)) : Int :=
  pool.foldr (fun group least => min least group.weight) intMax

theorem minWeight_le (mem : group ∈ pool) :
    minWeight pool ≤ group.weight := by
  induction pool with
  | nil => cases mem
  | cons first rest ih =>
    cases mem with
    | head => exact min_le_right _ _
    | tail _ later => exact (min_le_left _ _).trans (ih later)

theorem minWeight_attained (bounded : ∀ group ∈ pool, group.weight ≤ intMax) :
    (∃ group ∈ pool, minWeight pool = group.weight) ∨ (pool = [] ∧ minWeight pool = intMax) := by
  induction pool with
  | nil => exact .inr ⟨rfl, rfl⟩
  | cons first rest ih =>
    refine .inl ?_
    have here := bounded first List.mem_cons_self
    change ∃ group ∈ first :: rest, min (minWeight rest) first.weight = group.weight
    rcases ih (List.forall_mem_cons.mp bounded).2 with
      ⟨group, mem, least⟩ | ⟨-, sentinel⟩
    · rcases le_total (minWeight rest) first.weight with le | le
      · exact ⟨group, List.mem_cons_of_mem _ mem, by rw [min_eq_left le, least]⟩
      · exact ⟨first, List.mem_cons_self, min_eq_right le⟩
    · exact ⟨first, List.mem_cons_self, by rw [sentinel, min_eq_right here]⟩

/-- What the tables hold about the groups after each one. -/
def TailRows (pool : List (OutputGroup subtract)) (tails : List Tail) : Prop :=
  ∀ i < pool.length, ∃ ahead, tails[i]? = some ahead ∧
    ahead.lookahead = ∑ j ∈ Ico (i + 1) pool.length, sample getSelectionAmount pool j ∧
    ahead.minTailWeight = minWeight (pool.drop (i + 1))

theorem cgTails_spec (bounded : ∀ e, bad e →
      (∀ group ∈ pool, 0 ≤ group.getSelectionAmount) ∧ amountOf pool < maxMoney) :
    Ensures bad (cgTails pool) fun (tails, total, least) =>
      total = amountOf pool ∧ least = minWeight pool ∧ TailRows pool tails := by
  induction pool with
  | nil => exact .pure ⟨rfl, rfl, nofun⟩
  | cons first rest ih =>
    have sum : amountOf rest + first.getSelectionAmount = amountOf (first :: rest) := by
      simp [amountOf, add_comm]
    have parts (e) (isBad : bad e) : 0 ≤ first.getSelectionAmount ∧ 0 ≤ amountOf rest ∧
        (∀ group ∈ rest, 0 ≤ group.getSelectionAmount) ∧ amountOf (first :: rest) < maxMoney := by
      obtain ⟨amounts, total⟩ := bounded e isBad
      obtain ⟨here, later⟩ := List.forall_mem_cons.mp amounts
      exact ⟨here, sum_map_nonneg later, later, total⟩
    refine (ih fun e isBad => ?_).bind ?_
    · obtain ⟨here, le, later, total⟩ := parts e isBad
      exact ⟨later, by omega⟩
    rintro ⟨tails, _, _⟩ ⟨rfl, rfl, rows⟩
    refine (ensures_int64 fun isBad => ?_).bind ?_
    · obtain ⟨here, le, -, total⟩ := parts _ isBad
      exact isInt64_money (by omega) (by omega)
    rintro _ rfl
    refine .pure ⟨sum, rfl, fun i lt => ?_⟩
    cases i with
    | zero =>
      refine ⟨_, rfl, ?_, rfl⟩
      change amountOf rest = ∑ j ∈ Ico (0 + 1) (rest.length + 1), _
      rw [← sum_Ico_add', ← range_eq_Ico]
      exact (sum_sample _ _).symm
    | succ i =>
      obtain ⟨ahead, row, lookahead, least⟩ := rows i (Nat.lt_of_succ_lt_succ lt)
      refine ⟨ahead, row, ?_, least⟩
      change ahead.lookahead = ∑ j ∈ Ico (i + 1 + 1) (rest.length + 1), _
      rw [← sum_Ico_add', lookahead]
      simp only [sample_cons_succ]

end Tables

variable {search : CgSearch subtract} {s : CgState}

namespace CgSearch

theorem sorted_amounts
    (ordered : search.pool.Pairwise fun a b => descendingEffvalWeight b a = false) (lt : i < j)
    (below : j < search.pool.length) : search.amount j ≤ search.amount i ∧
      (search.amount i = search.amount j → search.weight i ≤ search.weight j) := by
  have order := List.pairwise_iff_getElem.mp ordered i j (lt.trans below) below lt
  simp only [amount, weight, sample, below, lt.trans below, List.getElem?_eq_getElem,
    Option.map_some, Option.getD_some]
  rw [descendingEffvalWeight] at order
  split at order
  · rename_i same
    simp only [decide_eq_false_iff_not, not_lt] at order
    exact ⟨same.le, fun _ => order⟩
  · rename_i ne
    simp only [decide_eq_false_iff_not, not_lt] at order
    exact ⟨order, fun same => absurd same.symm ne⟩

/-- The least weight in a row is that of a later group, or the sentinel after the last one. -/
theorem least_later (light : weightOf search.pool < 2 ^ 31) (below : i < search.pool.length) :
    (∀ j, i < j → j < search.pool.length →
      minWeight (search.pool.drop (i + 1)) ≤ search.weight j) ∧
    ((∃ j, i < j ∧ j < search.pool.length ∧
        minWeight (search.pool.drop (i + 1)) = search.weight j) ∨
      (i + 1 = search.pool.length ∧ minWeight (search.pool.drop (i + 1)) = intMax)) := by
  constructor
  · intro j after inside
    have mem : search.pool[j] ∈ search.pool.drop (i + 1) :=
      List.mem_drop_iff_getElem.mpr ⟨j - (i + 1), by omega, by congr 1; omega⟩
    simpa [weight, sample, inside] using minWeight_le mem
  have lighter : ∀ group ∈ search.pool.drop (i + 1), group.weight ≤ intMax := by
    intro group mem
    have single :=
      weightOf_le (List.singleton_sublist.mpr (List.mem_of_mem_drop mem)).subperm
    simp only [weightOf, List.map_singleton, List.sum_singleton] at single light
    simp only [intMax]
    omega
  rcases minWeight_attained lighter with ⟨group, mem, attained⟩ | ⟨none, sentinel⟩
  · obtain ⟨k, inside, rfl⟩ := List.mem_drop_iff_getElem.mp mem
    refine .inl ⟨i + 1 + k, by omega, by omega, ?_⟩
    rw [attained]
    simp [weight, sample, show i + 1 + k < search.pool.length by omega]
  · have := List.drop_eq_nil_iff.mp none
    omega

end CgSearch

theorem CgSearch.Sound.of_pool
    (ordered : search.pool.Pairwise fun a b => descendingEffvalWeight b a = false)
    (amounts : ∀ group ∈ search.pool, 0 < group.getSelectionAmount)
    (weights : ∀ group ∈ search.pool, 0 < group.weight)
    (amount_total : amountOf search.pool < maxMoney) (weight_total : weightOf search.pool < 2 ^ 31)
    (target_pos : 0 < search.totalTarget) (target_le : search.totalTarget ≤ amountOf search.pool)
    (rows : TailRows search.pool search.tails) : search.Sound := by
  constructor
  case amount_pos =>
    intro i below
    obtain ⟨group, mem, sampled⟩ := sample_mem below
    rw [amount, sampled]
    exact amounts group mem
  case weight_pos =>
    intro i below
    obtain ⟨group, mem, sampled⟩ := sample_mem below
    rw [weight, sampled]
    exact weights group mem
  case amount_total => exact (sum_sample _ _).trans_lt amount_total
  case weight_total => exact (sum_sample _ _).trans_lt weight_total
  case target_pos => exact target_pos
  case target_le => exact target_le.trans_eq (sum_sample _ _).symm
  case descending => exact fun i j lt below => (sorted_amounts ordered lt below).1
  case ties => exact fun i j lt below same => (sorted_amounts ordered lt below).2 same
  case tails =>
    intro i below
    obtain ⟨ahead, row, lookahead, least⟩ := rows i below
    exact ⟨ahead, row, lookahead, least ▸ least_later weight_total below⟩

section CoinGrinder

variable {sort : List (OutputGroup subtract) → List (OutputGroup subtract)}
  {pool : List (OutputGroup subtract)} {target changeTarget maxWeight : Int}

/-- What the callers of `CoinGrinder` guarantee: groups of different coins with positive
    amounts and weights, and sums that are money. -/
structure Grindable (sort : List (OutputGroup subtract) → List (OutputGroup subtract))
    (pool : List (OutputGroup subtract)) (target changeTarget : Int) : Prop where
  sorted : IsSort descendingEffvalWeight pool (sort pool)
  apart : Apart pool
  amounts : ∀ group ∈ pool, 0 < group.getSelectionAmount
  weights : ∀ group ∈ pool, 0 < group.weight
  amount_total : amountOf pool < maxMoney
  weight_total : weightOf pool < 2 ^ 31
  target_pos : 0 < target
  change_nonneg : 0 ≤ changeTarget
  sum_fits : IsInt64 (target + changeTarget)

theorem cgSetUp_spec (perm : (sort pool).Perm pool)
    (posed : ∀ e, bad e → Grindable sort pool target changeTarget) :
    Ensures bad (cgSetUp sort pool target changeTarget maxWeight) fun
      | none => amountOf pool < target + changeTarget
      | some search => search.pool = sort pool ∧ search.totalTarget = target + changeTarget ∧
          search.maxWeight = maxWeight ∧
          ∀ e, bad e → search.Sound ∧ 0 < search.pool.length := by
  have total : amountOf (sort pool) = amountOf pool := (perm.map _).sum_eq
  refine (cgTails_spec fun e isBad => ?_).bind ?_
  · exact ⟨fun group mem => ((posed e isBad).amounts group (perm.mem_iff.mp mem)).le,
      total.trans_lt (posed e isBad).amount_total⟩
  rintro ⟨tails, _, _⟩ ⟨rfl, rfl, rows⟩
  refine (ensures_int64 fun isBad => (posed _ isBad).sum_fits).bindEq ?_
  rw [total]
  split
  · exact .pure ‹_›
  rename_i enough
  refine .pure ⟨rfl, rfl, rfl, fun e isBad => ?_⟩
  have given := posed e isBad
  have pos := given.target_pos
  have nonneg := given.change_nonneg
  refine ⟨.of_pool given.sorted.ordered (fun group mem => given.amounts group (perm.mem_iff.mp mem))
    (fun group mem => given.weights group (perm.mem_iff.mp mem))
    (total.trans_lt given.amount_total) ((perm.map _).sum_eq.trans_lt given.weight_total)
    (Int.add_pos_of_pos_of_nonneg pos nonneg) ((not_lt.mp enough).trans_eq total.symm) rows, ?_⟩
  -- a positive target is not reached by an empty pool
  by_contra none
  have empty : sort pool = [] := List.length_eq_zero_iff.mp (Nat.eq_zero_of_not_pos none)
  rw [← total, empty] at enough
  simp only [amountOf, List.map_nil, List.sum_nil] at enough
  omega

/-- What is returned for the best selection of a search. -/
structure CgSearch.Returns (search : CgSearch subtract) (s : CgState) (completed : Bool)
    (outcome : Except SelectionError SelectionResult) : Prop where
  found : (∃ result, outcome = .ok result) ↔ s.bestSelection ≠ []
  made : ∀ result, outcome = .ok result →
    MadeOf result (selected search.pool s.bestSelection.reverse) ∧
    result.algoCompleted = completed

theorem cgFinish_spec (target : Int) (completed : Bool) (best : search.Candidate s)
    (apart : bad sharedUtxos → Apart search.pool)
    (light : bad .signedOverflow → weightOf search.pool < 2 ^ 31) :
    Ensures bad (cgFinish search target s completed) (search.Returns s completed) := by
  rw [cgFinish]
  split
  · rename_i none
    exact .pure ⟨by simpa using none, nofun⟩
  rename_i some
  have empty : MadeOf { SelectionResult.new target .cg with
      algoCompleted := completed
      selectionsEvaluated := s.currTry } ([] : List (OutputGroup subtract)) :=
    ⟨.refl [], rfl, fun some => absurd rfl some, rfl⟩
  refine (empty.addInputs best.nodup best.inside apart light).bind ?_
  rintro filled ⟨made, -, marked⟩
  refine .pure ⟨by simpa using some, ?_⟩
  rintro _ ⟨⟩
  exact ⟨made, marked⟩

/-- The search is ended by `TOTAL_TRIES`. -/
def CgCutOff (sort : List (OutputGroup subtract) → List (OutputGroup subtract))
    (pool : List (OutputGroup subtract)) (target changeTarget maxWeight : Int) : Prop :=
  ∃ search last, cgSetUp sort pool target changeTarget maxWeight = .ok (some search) ∧
    loopUpTo (cgRound search) totalTries (.start maxWeight) = .ok (.inr (last, false)) ∧
    totalTries ≤ last.currTry

theorem CgSearch.start_loop (search : CgSearch subtract)
    (sound : ∀ e, bad e → search.Sound ∧ 0 < search.pool.length) (passes : Nat) :
    Ensures bad (loopUpTo (cgRound search) (passes + 1) (.start search.maxWeight))
      (Sum.elim (fun last => search.Head last ∧ passes + 1 < totalTries) search.Ended) := by
  by_cases lt : 0 < search.pool.length
  · exact ((search.start_head lt).loop rfl remaining_root _).weaken
      fun e isBad => (sound e isBad).1
  · -- the first pass reads the first group
    refine @Ensures.bind _ _ _ _ _ (fun _ => False) _ _ ?_ fun _ => False.elim
    refine @Ensures.bind _ _ _ _ _ (fun _ => False) _ _ ?_ fun _ => False.elim
    refine (ensures_atIndex fun e isBad => (sound e isBad).2).bind fun utxo here => ?_
    exact absurd (List.getElem?_eq_some_iff.mp here).1 lt

theorem coinGrinder_spec (perm : (sort pool).Perm pool)
    (posed : ∀ e, bad e → Grindable sort pool target changeTarget) :
    Ensures bad (coinGrinder sort pool target changeTarget maxWeight) fun (outcome, completed) =>
      (amountOf pool < target + changeTarget ∧ outcome = .error .noSelection ∧ completed = true) ∨
      ∃ (search : CgSearch subtract) (s : CgState),
        search.pool = sort pool ∧ search.totalTarget = target + changeTarget ∧
        search.maxWeight = maxWeight ∧ (∀ e, bad e → search.Sound) ∧
        search.Ended (s, completed) ∧ search.Returns s completed outcome ∧
        (completed = false → CgCutOff sort pool target changeTarget maxWeight) := by
  refine (cgSetUp_spec perm posed).returning.bind ?_
  rintro (_ | search) ⟨setUp, holds⟩
  · exact .pure (.inl ⟨holds, rfl, rfl⟩)
  obtain ⟨poolEq, targetEq, rfl, sound⟩ := holds
  have same : search.pool.Perm pool := poolEq ▸ perm
  refine (search.start_loop sound (totalTries - 1)).returning.bind ?_
  rintro (last | ⟨s, completed⟩) ⟨ran, holds⟩
  · exact absurd holds.2 (lt_irrefl _)
  refine (cgFinish_spec target completed holds.best
    (fun isBad => ((same.flatMap_right _).map _).nodup_iff.mpr (posed _ isBad).apart)
    fun isBad => (same.map _).sum_eq.trans_lt (posed _ isBad).weight_total).bind ?_
  refine fun outcome returns => .pure (.inr ⟨search, s, poolEq, targetEq, rfl,
    fun e isBad => (sound e isBad).1, holds, returns, ?_⟩)
  rintro rfl
  exact ⟨search, s, setUp, ran, (holds.cutOff rfl).1⟩

/-- The best selection, as a list of groups. -/
structure CgSearch.Best (search : CgSearch subtract) (s : CgState)
    (chosen : List (OutputGroup subtract)) : Prop where
  taken : chosen.Subperm search.pool
  reaches : search.totalTarget ≤ amountOf chosen
  limit : weightOf chosen ≤ search.maxWeight
  amount : s.bestSelectionAmount = amountOf chosen
  weight : s.bestSelectionWeight = weightOf chosen

theorem CgSearch.Candidate.groups (best : search.Candidate s) (found : s.bestSelection ≠ []) :
    search.Best s (selected search.pool s.bestSelection.reverse) := by
  have amount : amountOf (selected search.pool s.bestSelection.reverse)
      = search.amountSum s.bestSelection := sum_selected_reverse _ best.inside
  have weight : weightOf (selected search.pool s.bestSelection.reverse)
      = search.weightSum s.bestSelection := sum_selected_reverse _ best.inside
  constructor
  case taken =>
    exact selected_subperm (List.nodup_reverse.mpr best.nodup) (by simpa using best.inside)
  case reaches => exact amount ▸ best.reaches found
  case limit => exact weight ▸ best.weight found ▸ best.limit
  case amount => exact (best.amount found).trans amount.symm
  case weight => exact (best.weight found).trans weight.symm

/-- Another selection is a set of indices, and a completed search has settled it. -/
theorem CgSearch.Exhausted.settles {other : List (OutputGroup subtract)}
    (exhausted : search.Exhausted s) (taken : other.Subperm search.pool)
    (reaches : search.totalTarget ≤ amountOf other) (light : weightOf other ≤ search.maxWeight) :
    s.bestSelection ≠ [] ∧ (s.bestSelectionWeight < weightOf other ∨
      (s.bestSelectionWeight = weightOf other ∧ s.bestSelectionAmount ≤ amountOf other)) := by
  obtain ⟨subset, inside, sums⟩ := exists_indices taken
  have amount : amountOf other = ∑ i ∈ subset, search.amount i := sums _
  have weight : weightOf other = ∑ i ∈ subset, search.weight i := sums _
  rw [amount, weight]
  rw [amount] at reaches
  rw [weight] at light
  exact exhausted subset inside reaches light

/-- The tail estimate is taken only where a group follows, so the sentinel weight is never
    multiplied. -/
theorem CgSearch.estimates_inside
    (posed : Grindable sort pool target changeTarget)
    (setUp : cgSetUp sort pool target changeTarget maxWeight = .ok (some search))
    (ran : loopUpTo (cgRound search) passes (.start maxWeight) = .ok (.inl s))
    (select : cgSelect search s = .ok sel) (estimates : search.EstimatesTail sel s.nextUtxo) :
    s.nextUtxo + 1 < search.pool.length := by
  obtain ⟨-, -, rfl, sound⟩ :=
    (@cgSetUp_spec _ _ _ _ _ _ (fun _ => True) posed.sorted.perm fun _ _ => posed).of_eq_ok setUp
  obtain ⟨sound, lt⟩ := sound .signedOverflow trivial
  have head := (((search.start_head lt).loop rfl remaining_root passes).of_eq_ok ran).1
  exact head.estimate sound select estimates

/-- CoinGrinder always ends regularly, and a completed search gives the lightest selection,
    of these one with the least amount. It is cut off only by the limit on its tries. -/
theorem coinGrinder_optimal (posed : Grindable sort pool target changeTarget) :
    ∃ outcome completed,
      coinGrinder sort pool target changeTarget maxWeight = .ok (outcome, completed) ∧
      (∀ result, outcome = .ok result → result.algoCompleted = completed) ∧
      (completed = false → CgCutOff sort pool target changeTarget maxWeight ∧
        totalTries < 2 ^ (pool.length + 1)) ∧
      (completed = true →
        ((∃ result, outcome = .ok result) ↔ ∃ chosen : List (OutputGroup subtract),
          chosen.Subperm pool ∧ target + changeTarget ≤ amountOf chosen ∧
          weightOf chosen ≤ maxWeight) ∧
        ∀ result, outcome = .ok result → ∃ chosen, chosen.Subperm pool ∧ MadeOf result chosen ∧
          target + changeTarget ≤ amountOf chosen ∧ result.weight ≤ maxWeight ∧
          ∀ other : List (OutputGroup subtract), other.Subperm pool →
            target + changeTarget ≤ amountOf other → weightOf other ≤ maxWeight →
            weightOf chosen < weightOf other ∨
              (weightOf chosen = weightOf other ∧ amountOf chosen ≤ amountOf other)) ∧
      ∀ search passes s selected,
        cgSetUp sort pool target changeTarget maxWeight = .ok (some search) →
        loopUpTo (cgRound search) passes (.start maxWeight) = .ok (.inl s) →
        cgSelect search s = .ok selected → search.EstimatesTail selected s.nextUtxo →
        s.nextUtxo + 1 < search.pool.length := by
  have perm := posed.sorted.perm
  obtain ⟨⟨outcome, completed⟩, run, spec⟩ := (@coinGrinder_spec _ _ _ _ _ maxWeight
    (fun _ => True) perm fun _ _ => posed).exists_ok fun _ => trivial
  have inside := fun search passes s selected => @CgSearch.estimates_inside subtract search s sort
    pool target changeTarget maxWeight passes selected posed
  refine ⟨outcome, completed, run, ?_⟩
  obtain ⟨short, rfl, rfl⟩ | ⟨search, s, poolEq, targetEq, rfl, sound, ended, returns, cutOff⟩ :=
    spec
  · -- insufficient funds
    refine ⟨nofun, nofun, fun _ => ⟨iff_of_false nofun ?_, nofun⟩, inside⟩
    rintro ⟨chosen, taken, reaches, -⟩
    have le : amountOf chosen ≤ amountOf pool :=
      sum_le_of_subperm taken fun group member => (posed.amounts group member).le
    omega
  have same : search.pool.Perm pool := poolEq ▸ perm
  refine ⟨fun result isResult => (returns.made result isResult).2, fun cut => ⟨cutOff cut, ?_⟩,
    fun all => ?_, inside⟩
  · exact same.length_eq ▸ (ended.cutOff cut).2
  have settles {other : List (OutputGroup subtract)} (part : other.Subperm pool) :=
    (ended.completed all (sound .signedOverflow trivial)).settles (part.trans same.symm.subperm)
  rw [← targetEq]
  constructor
  · rw [returns.found]
    constructor
    · intro found
      have best := ended.best.groups found
      exact ⟨_, best.taken.trans same.subperm, best.reaches, best.limit⟩
    · rintro ⟨other, part, reaches, light⟩
      exact (settles part reaches light).1
  · intro result isResult
    have best := ended.best.groups (returns.found.mp ⟨result, isResult⟩)
    obtain ⟨made, -⟩ := returns.made result isResult
    refine ⟨_, best.taken.trans same.subperm, made, best.reaches, made.weight ▸ best.limit,
      fun other part reaches light => ?_⟩
    rw [← best.amount, ← best.weight]
    exact (settles part reaches light).2

/-- Two groups, of which the lighter one is enough. -/
theorem coinGrinder_optimal_two :
    ∃ result, coinGrinder id [single false 0 12 100 1 1, single false 1 11 68 1 1]
        8 2 1000 = .ok (.ok result, true) ∧
      ∃ chosen : List (OutputGroup false), MadeOf result chosen ∧ 8 + 2 ≤ amountOf chosen ∧
        ∀ other : List (OutputGroup false),
          other.Subperm [single false 0 12 100 1 1, single false 1 11 68 1 1] →
          8 + 2 ≤ amountOf other → weightOf other ≤ 1000 → weightOf chosen < weightOf other ∨
            (weightOf chosen = weightOf other ∧ amountOf chosen ≤ amountOf other) := by
  have known : coinGrinder id [single false 0 12 100 1 1, single false 1 11 68 1 1] 8 2 1000
      = .ok (.ok { SelectionResult.new 8 .cg with
        selectedInputs := (single false 1 11 68 1 1).outputs
        useEffective := true
        weight := 272
        algoCompleted := true
        selectionsEvaluated := 2 }, true) := by decide +kernel
  obtain ⟨_, _, run, -, -, optimal, -⟩ := @coinGrinder_optimal false id
    [single false 0 12 100 1 1, single false 1 11 68 1 1] 8 2 1000
    ⟨⟨.refl _, by decide⟩, by decide, by decide, by decide, by decide +kernel,
      by decide +kernel, by decide, by decide, by decide⟩
  cases known.symm.trans run
  obtain ⟨chosen, -, made, reaches, -, least⟩ := (optimal rfl).2 _ rfl
  exact ⟨_, known, chosen, made, reaches, least⟩

/-- A target and a change target whose sum is no `CAmount`, and two groups with the same
    coin: the first overflows, the second is stopped by `InsertInputs`. -/
theorem coinGrinder_fails :
    coinGrinder id [single false 0 11 68 1 1] (2 ^ 63 - 1) 1 1000
      = .error .signedOverflow ∧
    coinGrinder id [single false 0 11 68 1 1, single false 0 11 68 1 1]
      15 0 1000 = .error (.exception "Shared UTXOs among selection results") ∧
    (∀ group ∈ [single false 0 11 68 1 1, single false 0 11 68 1 1],
      0 < group.getSelectionAmount ∧ 0 < group.weight) := by
  decide +kernel

end CoinGrinder

end HobbyHash.Wallet
