import HobbyHash.Library.InclusionOrder
import HobbyHash.Wallet.CoinSelection

/-! # Selections as lists of groups

The algorithms work with indices into a pool; what they promise is about the
groups of the pool. A selection from a pool is a list of groups that uses each
entry at most once (`Subperm`), and its amount, weight and fees are sums over it.
This module moves between the two views and says what is in a result to which
groups were added.
-/

namespace HobbyHash.Wallet

open Library Machine Consensus List OutputGroup
open SelectionResult (insertPointer sharedUtxos)

variable {subtract : Bool}

theorem isInt64_money (lower : -(4 * maxMoney) ≤ x) (upper : x ≤ 4 * maxMoney) : IsInt64 x := by
  simp only [maxMoney, coin] at lower upper
  exact ⟨by omega, by omega⟩

theorem sum_map_nonneg {α : Type} {l : List α} {f : α → Int} (each : ∀ a ∈ l, 0 ≤ f a) :
    0 ≤ (l.map f).sum := by
  apply sum_nonneg
  simpa using each

theorem sum_map_sub {α : Type} (l : List α) (f g : α → Int) :
    (l.map fun a => f a - g a).sum = (l.map f).sum - (l.map g).sum := by
  induction l with
  | nil => rfl
  | cons a rest ih =>
    simp only [map_cons, sum_cons, ih]
    omega

theorem sum_le_of_subperm {α : Type} {part pool : List α} {f : α → Int} (taken : part.Subperm pool)
    (each : ∀ a ∈ pool, 0 ≤ f a) : (part.map f).sum ≤ (pool.map f).sum := by
  obtain ⟨same, perm, sublist⟩ := taken
  rw [← (perm.map f).sum_eq]
  apply (sublist.map f).sum_le_sum
  simpa using each

namespace OutputGroup

variable (group : OutputGroup subtract)

theorem weight_nonneg : 0 ≤ group.weight := by
  refine sum_map_nonneg fun coin _ => ?_
  simp only [COutput.weight, witnessScaleFactor]
  omega

theorem fee_nonneg : 0 ≤ group.fee :=
  sum_map_nonneg fun coin _ => coin.fee_nonneg

theorem longTermFee_nonneg : 0 ≤ group.longTermFee :=
  sum_map_nonneg fun coin _ => coin.longTermFee_nonneg

/-- `fee - long_term_fee`: what spending the group now costs more than later. -/
def extraFee : Int :=
  group.fee - group.longTermFee

end OutputGroup

def OutputGroup.single (subtract : Bool) (n value inputBytes fee longTermFee : Nat) :
    OutputGroup subtract where
  outputs := [{
    address := n
    outpoint := { hash := 0, n := n }
    nValue := value
    inputBytes := inputBytes
    fee := fee
    longTermFee := longTermFee
    ancestorBumpFees := 0
    fee_nonneg := Int.natCast_nonneg fee
    longTermFee_nonneg := Int.natCast_nonneg longTermFee }]

/-- No coin is in two groups. -/
abbrev Apart (groups : List (OutputGroup subtract)) : Prop :=
  ((groups.flatMap outputs).map COutput.address).Nodup

def amountOf (groups : List (OutputGroup subtract)) : Int :=
  (groups.map getSelectionAmount).sum

def weightOf (groups : List (OutputGroup subtract)) : Int :=
  (groups.map weight).sum

variable (group : OutputGroup subtract) (rest : List (OutputGroup subtract))

@[simp] theorem amountOf_cons :
    amountOf (group :: rest) = group.getSelectionAmount + amountOf rest := by
  simp [amountOf]

theorem weightOf_le {chosen pool : List (OutputGroup subtract)} (taken : chosen.Subperm pool) :
    weightOf chosen ≤ weightOf pool :=
  sum_le_of_subperm taken fun group _ => group.weight_nonneg

/-- The sums over a pool, and what change costs, stay in the range of their types. -/
structure InRange (pool : List (OutputGroup subtract)) (cost : Int) : Prop where
  money : amountOf pool + (pool.map fee).sum + cost ≤ maxMoney
  longTerm : (pool.map longTermFee).sum ≤ maxMoney
  weights : weightOf pool < 2 ^ 31

/-- The waste of a changeless selection: extra fees and excess. -/
def wasteOf (target : Int) (groups : List (OutputGroup subtract)) : Int :=
  (groups.map extraFee).sum + (amountOf groups - target)

section Indices

variable {α : Type} {pool : List α} {selection : List Nat} {i : Nat}

variable (f : α → Int)

def sample (pool : List α) (i : Nat) : Int :=
  (pool[i]?.map f).getD 0

@[simp] theorem sample_cons_succ (a : α) (pool : List α) (i : Nat) :
    sample f (a :: pool) (i + 1) = sample f pool i := by
  simp [sample]

@[simp] theorem sample_cons_zero (a : α) (pool : List α) :
    sample f (a :: pool) 0 = f a := by
  simp [sample]

theorem ensures_atIndex (lt : ∀ e, bad e → i < pool.length) :
    Ensures bad (atIndex pool i) fun entry => pool[i]? = some entry := by
  rw [atIndex]
  split
  · exact .pure ‹_›
  · rename_i none
    exact .fail fun isBad => absurd (lt _ isBad) (by simpa using none)

theorem sample_eq (here : pool[i]? = some entry) (f : α → Int) :
    sample f pool i = f entry := by
  simp [sample, here]

theorem sample_mem (lt : i < pool.length) :
    ∃ entry ∈ pool, ∀ f : α → Int, sample f pool i = f entry := by
  exact ⟨pool[i], getElem_mem lt, sample_eq (getElem?_eq_getElem lt)⟩

theorem sample_nonneg {f : α → Int} (each : ∀ a ∈ pool, 0 ≤ f a) (i : Nat) :
    0 ≤ sample f pool i := by
  by_cases lt : i < pool.length
  · obtain ⟨entry, mem, sampled⟩ := sample_mem lt
    rw [sampled]
    exact each entry mem
  · simp [sample, lt]

theorem sum_sample (pool : List α) :
    ∑ i ∈ Finset.range pool.length, sample f pool i = (pool.map f).sum := by
  induction pool with
  | nil => rfl
  | cons a rest ih =>
    rw [length_cons, Finset.sum_range_succ']
    simp [ih, add_comm]

theorem sample_sub (g : α → Int) (pool : List α) (i : Nat) :
    sample (fun a => f a - g a) pool i = sample f pool i - sample g pool i := by
  simp only [sample]
  cases pool[i]? <;> simp

theorem sum_along (path : SearchPath chosen depth) (le : depth ≤ pool.length)
    (each : ∀ a ∈ pool, 0 ≤ f a) : 0 ≤ (chosen.map (sample f pool)).sum ∧
      (chosen.map (sample f pool)).sum ≤ (pool.map f).sum :=
  ⟨sum_map_nonneg fun i _ => sample_nonneg each i,
    (path.sum_le le fun i _ => sample_nonneg each i).trans_eq (sum_sample f pool)⟩

def selected (pool : List α) (selection : List Nat) : List α :=
  selection.filterMap fun i => pool[i]?

theorem sum_selected (lt : ∀ i ∈ selection, i < pool.length) :
    ((selected pool selection).map f).sum = (selection.map (sample f pool)).sum := by
  induction selection with
  | nil => rfl
  | cons i rest ih =>
    have here := lt i mem_cons_self
    have later := ih (forall_mem_cons.mp lt).2
    simp only [selected] at later
    simp [selected, here, later, sample]

theorem selected_range (pool : List α) : selected pool (List.range pool.length) = pool := by
  induction pool with
  | nil => rfl
  | cons a rest ih =>
    simp only [selected] at ih
    rw [selected, length_cons, range_succ_eq_map]
    simp [filterMap_map, ih]

theorem selected_subperm (nodup : selection.Nodup) (lt : ∀ i ∈ selection, i < pool.length) :
    (selected pool selection).Subperm pool := by
  have taken : selection.Subperm (range pool.length) :=
    nodup.subperm fun i mem => mem_range.mpr (lt i mem)
  obtain ⟨same, perm, sublist⟩ := taken
  have part := (sublist.filterMap fun i => pool[i]?).subperm
  have whole : (range pool.length).filterMap (fun i => pool[i]?) = pool := selected_range pool
  rw [whole] at part
  exact (perm.filterMap _).symm.subperm.trans part

theorem exists_indices {chosen : List α} (taken : chosen.Subperm pool) :
    ∃ subset ⊆ Finset.range pool.length,
      ∀ f : α → Int, (chosen.map f).sum = ∑ i ∈ subset, sample f pool i := by
  obtain ⟨same, perm, sublist⟩ := taken
  suffices ∃ subset ⊆ Finset.range pool.length,
      ∀ f : α → Int, (same.map f).sum = ∑ i ∈ subset, sample f pool i by
    obtain ⟨subset, inside, sums⟩ := this
    exact ⟨subset, inside, fun f => (perm.map f).sum_eq ▸ sums f⟩
  clear perm
  induction sublist with
  | slnil => exact ⟨∅, by simp, by simp⟩
  | cons a _ ih =>
    obtain ⟨subset, inside, sums⟩ := ih
    refine ⟨subset.map (addRightEmbedding 1), ?_, ?_⟩
    · intro i mem
      obtain ⟨j, lt, rfl⟩ := Finset.mem_map.mp mem
      simpa using inside lt
    · simp [sums]
  | cons_cons a _ ih =>
    obtain ⟨subset, inside, sums⟩ := ih
    refine ⟨insert 0 (subset.map (addRightEmbedding 1)), ?_, ?_⟩
    · intro i mem
      rcases Finset.mem_insert.mp mem with rfl | mem
      · simp
      · obtain ⟨j, lt, rfl⟩ := Finset.mem_map.mp mem
        simpa using inside lt
    · intro f
      simp [sums]

end Indices

section Results

variable {result : SelectionResult} {groups more : List (OutputGroup subtract)}

theorem length_insert_all (inputs set : List COutput) :
    (inputs.foldl insertPointer set).length ≤ set.length + inputs.length := by
  induction inputs generalizing set with
  | nil => simp
  | cons coin rest ih =>
    have later := ih (insertPointer set coin)
    have le : (insertPointer set coin).length ≤ set.length + 1 := by
      rw [insertPointer]
      split <;> simp
    simp only [foldl_cons, length_cons]
    omega

theorem insert_all_perm {inputs set : List COutput}
    (count : (inputs.foldl insertPointer set).length = set.length + inputs.length) :
    (inputs.foldl insertPointer set).Perm (set ++ inputs) := by
  induction inputs generalizing set with
  | nil => simp
  | cons coin rest ih =>
    simp only [foldl_cons, length_cons] at count ⊢
    have bound := length_insert_all rest (insertPointer set coin)
    by_cases known : coin.address ∈ set.map COutput.address
    · rw [insertPointer, if_pos known] at bound count
      omega
    · rw [insertPointer, if_neg known] at count ⊢
      refine (ih (by simp only [length_cons]; omega)).trans ?_
      exact perm_middle.symm

theorem insert_all_length {inputs set : List COutput}
    (apart : ((set ++ inputs).map COutput.address).Nodup) :
    (inputs.foldl insertPointer set).length = set.length + inputs.length := by
  induction inputs generalizing set with
  | nil => simp
  | cons coin rest ih =>
    have moved : ((coin :: (set ++ rest)).map COutput.address).Nodup :=
      (perm_middle.map _).nodup apart
    have fresh : coin.address ∉ set.map COutput.address := by
      intro known
      rw [map_cons, map_append] at moved
      exact (nodup_cons.mp moved).1 (mem_append_left _ known)
    rw [foldl_cons, insertPointer, if_neg fresh, ih (by simpa using moved)]
    simp only [length_cons]
    omega

/-- The result has the coins and the weight of these groups, and its amounts are taken
    the way theirs are. -/
structure MadeOf (result : SelectionResult) (groups : List (OutputGroup subtract)) : Prop where
  inputs : result.selectedInputs.Perm (groups.flatMap outputs)
  weight : result.weight = weightOf groups
  useEffective : groups ≠ [] → result.useEffective = !subtract
  discount : result.bumpFeeGroupDiscount = 0

theorem MadeOf.nothing {target algo} :
    MadeOf (.new target algo) ([] : List (OutputGroup subtract)) where
  inputs := .refl []
  weight := rfl
  useEffective := fun some => absurd rfl some
  discount := rfl

section

variable {bad : Fault → Prop} (made : MadeOf result groups)
include made

theorem MadeOf.addInput {group : OutputGroup subtract}
    (apart : bad sharedUtxos → Apart (groups ++ [group]))
    (light : bad .signedOverflow → weightOf (groups ++ [group]) < 2 ^ 31) :
    Ensures bad (result.addInput group) fun res' => MadeOf res' (groups ++ [group]) ∧
      res'.target = result.target ∧ res'.algoCompleted = result.algoCompleted := by
  have perm : (result.selectedInputs ++ group.outputs).Perm
      ((groups ++ [group]).flatMap outputs) := by
    simpa using made.inputs.append_right group.outputs
  have sum : result.weight + group.weight = weightOf (groups ++ [group]) := by
    simp [weightOf, made.weight]
  have nonneg : 0 ≤ weightOf (groups ++ [group]) :=
    sum_map_nonneg fun group _ => group.weight_nonneg
  rw [SelectionResult.addInput, SelectionResult.insertInputs]
  split
  · rename_i count
    refine Ensures.fail fun isBad => count (insert_all_length ?_)
    exact (perm.map _).nodup_iff.mpr (apart isBad)
  · rename_i count
    refine (ensures_int fun isBad => ?_).bind ?_
    · exact ⟨by simp only [sum]; omega, sum ▸ light isBad⟩
    rintro _ rfl
    exact .pure ⟨⟨(insert_all_perm (not_not.mp count)).trans perm, sum, fun _ => rfl,
      made.discount⟩, rfl, rfl⟩

theorem MadeOf.addAll (apart : bad sharedUtxos → Apart (groups ++ more))
    (light : bad .signedOverflow → weightOf (groups ++ more) < 2 ^ 31) :
    Ensures bad (more.foldlM SelectionResult.addInput result) fun res' =>
      MadeOf res' (groups ++ more) ∧ res'.target = result.target ∧
      res'.algoCompleted = result.algoCompleted := by
  induction more generalizing result groups with
  | nil => exact .pure (by simpa using made)
  | cons group rest ih =>
    have part : (groups ++ [group]).Sublist (groups ++ group :: rest) :=
      (singleton_sublist.mpr mem_cons_self).append_left _
    refine (made.addInput (fun isBad => ?_) fun isBad => ?_).bind ?_
    · exact (apart isBad).sublist ((part.flatMap _).map _)
    · exact (weightOf_le part.subperm).trans_lt (light isBad)
    rintro next ⟨made, target, done⟩
    refine (ih made (by simpa using apart) (by simpa using light)).mono ?_
    rintro last ⟨made, target', completed'⟩
    exact ⟨by simpa using made, target'.trans target, completed'.trans done⟩

theorem MadeOf.sum_eq (f : COutput → Int) :
    (result.selectedInputs.map f).sum
      = (groups.map fun group => (group.outputs.map f).sum).sum := by
  rw [(made.inputs.map f).sum_eq]
  clear made
  induction groups with
  | nil => rfl
  | cons group rest ih => simp [ih]

theorem MadeOf.amount (ne : groups ≠ []) :
    (if result.useEffective then result.getSelectedEffectiveValue else result.getSelectedValue)
      = amountOf groups := by
  rw [made.useEffective ne, SelectionResult.getSelectedEffectiveValue, made.discount,
    SelectionResult.getSelectedValue, made.sum_eq, made.sum_eq]
  cases subtract with
  | false => exact Int.add_zero _
  | true => rfl

theorem MadeOf.extraFees :
    (result.selectedInputs.map fun coin => coin.fee - coin.longTermFee).sum
      = (groups.map extraFee).sum := by
  rw [made.sum_eq]
  congr 1
  apply map_congr_left
  intro group _
  exact sum_map_sub group.outputs COutput.fee COutput.longTermFee

end

variable {pool : List (OutputGroup subtract)} {selection : List Nat}

theorem addInputs_eq (inside : ∀ i ∈ selection, i < pool.length) :
    addInputs pool selection result
      = (selected pool selection.reverse).foldlM SelectionResult.addInput result := by
  rw [addInputs]
  have inside : ∀ i ∈ selection.reverse, i < pool.length := by simpa using inside
  generalize selection.reverse = order at inside
  induction order generalizing result with
  | nil => rfl
  | cons i rest ih =>
    have here := inside i mem_cons_self
    have later := (forall_mem_cons.mp inside).2
    have entry : atIndex pool i = .ok pool[i] := by simp [atIndex, here]
    have head : selected pool (i :: rest) = pool[i] :: selected pool rest := by
      simp [selected, here]
    rw [head, foldlM_cons, foldlM_cons, entry]
    change (result.addInput pool[i] >>= _) = _
    cases result.addInput pool[i] with
    | error fault => rfl
    | ok next => exact ih later

theorem MadeOf.addInputs (made : MadeOf result ([] : List (OutputGroup subtract)))
    (nodup : selection.Nodup) (inside : ∀ i ∈ selection, i < pool.length)
    (apart : bad sharedUtxos → Apart pool)
    (light : bad .signedOverflow → weightOf pool < 2 ^ 31) :
    Ensures bad (Wallet.addInputs pool selection result) fun result' =>
      MadeOf result' (selected pool selection.reverse) ∧ result'.target = result.target ∧
      result'.algoCompleted = result.algoCompleted := by
  have taken : (selected pool selection.reverse).Subperm pool :=
    selected_subperm (nodup_reverse.mpr nodup) (by simpa using inside)
  rw [addInputs_eq inside]
  refine made.addAll (fun isBad => ?_) fun isBad => ?_
  · obtain ⟨whole, perm, sublist⟩ := taken
    exact ((perm.flatMap_right _).map _).nodup_iff.mp
      ((apart isBad).sublist ((sublist.flatMap _).map _))
  · exact (weightOf_le taken).trans_lt (light isBad)

theorem sum_selected_reverse (f : OutputGroup subtract → Int)
    (lt : ∀ i ∈ selection, i < pool.length) :
    ((selected pool selection.reverse).map f).sum = (selection.map (sample f pool)).sum := by
  rw [sum_selected f (by simpa using lt), map_reverse, sum_reverse]

end Results

end HobbyHash.Wallet
