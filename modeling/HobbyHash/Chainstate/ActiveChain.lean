import HobbyHash.Chainstate.Activation

/-! # The skip list and the active chain

`GetAncestor` jumps over `pskip`, `CChain` keeps the active chain as a vector and locators
step back in growing strides. Each of them agrees with what following `pprev` gives: an
ancestor is found at its height, `SetTip` leaves the path of its tip behind although it
stops at the first block that is in place already, and the blocks of a locator lie on the
branch of its first one.
-/

namespace HobbyHash

open CBlockIndex List

variable {vChain : List (Option CBlockIndex)}

namespace CBlockIndex

/-- The block reached by following `pprev` so many times. -/
def follow : Nat → CBlockIndex → Option CBlockIndex
  | 0, b => some b
  | steps + 1, b => b.pprev.bind (follow steps)

theorem follow_of_ancestor (lt : Ancestor a b) :
    follow (b.nHeight - a.nHeight) b = some a := by
  induction lt with
  | refl => rw [Nat.sub_self, follow]
  | @step p f lt ih =>
    rw [nHeight_child, Nat.succ_sub lt.nHeight_le, follow, pprev, Option.bind_some, ih]

theorem getAncestor_eq_follow (b : CBlockIndex) (height : Int) : b.getAncestor height =
    if 0 ≤ height ∧ height ≤ b.nHeight then follow (b.nHeight - height.toNat) b else none := by
  split
  · rename_i inside
    obtain ⟨a, found, lt, rfl⟩ := getAncestor_isSome inside.1 inside.2
    rw [found, Int.toNat_natCast, follow_of_ancestor lt]
  · rw [getAncestor, dif_pos (by omega)]

/-- The loop of `LocatorEntries`, with `size` blocks listed already. A step that no longer
    fits in an `int` is never taken. -/
def locatorFrom (index : CBlockIndex) (step size : Nat) (positive : 0 < step) : List CBlockIndex :=
  if last : index.nHeight = 0 then [index]
  else
    let next := ancestorAt index (index.nHeight - step) (Nat.sub_le _ _)
    index :: locatorFrom next.1 (if size + 1 > 10 then step * 2 else step) (size + 1)
      (by split <;> omega)
termination_by index.nHeight
decreasing_by
  rw [next.2.2]
  omega

/-- The blocks of `LocatorEntries`, which lists their hashes. -/
def locatorEntries (index : CBlockIndex) : List CBlockIndex :=
  locatorFrom index 1 0 Nat.one_pos

theorem locatorFrom_spec {index step size} (pos : 0 < step) :
    (∃ rest, locatorFrom index step size pos = index :: rest) ∧
    (∃ first, (locatorFrom index step size pos).getLast? = some first ∧ first.nHeight = 0) ∧
    (∀ a ∈ locatorFrom index step size pos, Ancestor a index) ∧
    (locatorFrom index step size pos).Pairwise fun a b => b.nHeight < a.nHeight := by
  induction height : index.nHeight using Nat.strong_induction_on generalizing index step size with
  | _ n ih =>
    rw [locatorFrom]
    split
    · rename_i last
      exact ⟨⟨[], rfl⟩, ⟨index, rfl, last⟩, by simp [Ancestor.refl], pairwise_singleton _ _⟩
    obtain ⟨next, lt, lower⟩ := ancestorAt index (index.nHeight - step) (Nat.sub_le _ _)
    obtain ⟨⟨rest, starts⟩, ⟨first, ends, root⟩, branch, falls⟩ :=
      @ih next.nHeight (by omega) next (if size + 1 > 10 then step * 2 else step) (size + 1)
        (by split <;> omega) rfl
    refine ⟨⟨_, rfl⟩, ⟨first, ?_, root⟩, ?_, pairwise_cons.mpr ⟨fun a mem => ?_, falls⟩⟩
    · rw [starts] at ends
      simp only [starts]
      exact ends
    · rintro a (_ | ⟨_, mem⟩)
      · exact .refl
      · exact (branch a mem).trans lt
    · have := (branch a mem).nHeight_le
      omega

end CBlockIndex

namespace CChain

/-- `vChain.resize`. New entries are null. -/
def resize (vChain : List (Option CBlockIndex)) (size : Nat) : List (Option CBlockIndex) :=
  vChain.take size ++ replicate (size - vChain.length) none

/-- The loop of `SetTip`. -/
def setTipFrom : CBlockIndex → List (Option CBlockIndex) → List (Option CBlockIndex)
  | .genesis f, vChain =>
    if vChain[0]? = some (some (.genesis f)) then vChain else vChain.set 0 (some (.genesis f))
  | .child p f, vChain =>
    if vChain[p.nHeight + 1]? = some (some (.child p f)) then vChain
    else setTipFrom p (vChain.set (p.nHeight + 1) (some (.child p f)))

def setTip (vChain : List (Option CBlockIndex)) (block : CBlockIndex) : List (Option CBlockIndex) :=
  setTipFrom block (resize vChain (block.nHeight + 1))

/-- Up to a height, a block in its place has its whole branch below it. -/
def Coherent (height : Nat) (vChain : List (Option CBlockIndex)) : Prop :=
  ∀ x : CBlockIndex, x.nHeight ≤ height → vChain[x.nHeight]? = some (some x) →
    vChain.take (x.nHeight + 1) = x.path.map some

theorem take_path (lt : Ancestor a b) :
    b.path.take (a.nHeight + 1) = a.path := by
  induction lt with
  | refl => rw [← length_path, take_length]
  | @step p f lt ih =>
    rw [path, take_append_of_le_length, ih]
    rw [length_path]
    exact Nat.succ_le_succ lt.nHeight_le

theorem coherent_path (tip : CBlockIndex) (height : Nat) : Coherent height (tip.path.map some) := by
  intro x _ found
  rw [getElem?_map, Option.map_eq_some_iff] at found
  obtain ⟨y, found, ⟨⟩⟩ := found
  rw [← map_take, take_path (path_getElem?.mp found)]

theorem Coherent.resize (coherent : Coherent height vChain) (size : Nat) :
    Coherent height (resize vChain size) := by
  intro x low found
  have lt : x.nHeight < (vChain.take size).length := by
    by_contra outside
    rw [CChain.resize, getElem?_append_right (not_lt.mp outside), getElem?_replicate] at found
    split at found <;> cases found
  have short : x.nHeight < size := by
    rw [length_take] at lt
    omega
  rw [CChain.resize, getElem?_append_left lt, getElem?_take, if_pos short] at found
  rw [CChain.resize, take_append_of_le_length lt, take_take, Nat.min_eq_left short]
  exact coherent x low found

/-- The loop may stop at a block in its place, because the branch below is there too. -/
theorem setTipFrom_eq (lt : b.nHeight < vChain.length) (coherent : Coherent b.nHeight vChain) :
    setTipFrom b vChain = b.path.map some ++ vChain.drop (b.nHeight + 1) := by
  have stop (found : vChain[b.nHeight]? = some (some b)) :
      vChain = b.path.map some ++ vChain.drop (b.nHeight + 1) := by
    rw [← coherent b le_rfl found, take_append_drop]
  induction b generalizing vChain with
  | genesis f =>
    rw [setTipFrom]
    split
    · exact stop ‹_›
    · cases vChain with
      | nil => cases lt
      | cons first rest => rfl
  | child p f ih =>
    rw [setTipFrom]
    split
    · exact stop ‹_›
    rw [nHeight_child] at lt
    have kept : Coherent p.nHeight (vChain.set (p.nHeight + 1) (some (.child p f))) := by
      intro x low found
      rw [getElem?_set_ne (by omega)] at found
      rw [take_set_of_le (by omega)]
      exact coherent x (low.trans (Nat.le_succ _)) found
    have set : (vChain.set (p.nHeight + 1) (some (.child p f))).drop (p.nHeight + 1)
        = some (.child p f) :: vChain.drop (p.nHeight + 1 + 1) := by
      rw [drop_eq_getElem_cons (by rw [length_set]; exact lt), getElem_set_self,
        drop_set_of_lt (Nat.lt_succ_self _)]
    rw [ih (by rw [length_set]; omega) kept fun found => by rw [← kept p le_rfl found, take_append_drop],
      set, path, map_append, append_assoc]
    rfl

/-- However many tips the chain had before, it is the path of the last one. -/
theorem foldl_setTip (tips : List CBlockIndex) (tip : CBlockIndex) :
    (tips ++ [tip]).foldl setTip [] = tip.path.map some := by
  have step {vChain : List (Option CBlockIndex)} (b : CBlockIndex)
      (isPath : vChain = [] ∨ ∃ old : CBlockIndex, vChain = old.path.map some) :
      setTip vChain b = b.path.map some := by
    have coherent : Coherent b.nHeight vChain := by
      rcases isPath with rfl | ⟨old, rfl⟩
      · intro x _ found
        cases found
      · exact coherent_path old _
    have size : (resize vChain (b.nHeight + 1)).length = b.nHeight + 1 := by
      rw [resize, length_append, length_take, length_replicate]
      omega
    rw [setTip, setTipFrom_eq (by omega) (coherent.resize _), drop_of_length_le (by omega),
      append_nil]
  rw [foldl_append, foldl_cons, foldl_nil]
  refine step tip ?_
  induction tips using reverseRecOn with
  | nil => exact .inl rfl
  | append_singleton earlier b ih =>
    rw [foldl_append, foldl_cons, foldl_nil]
    exact .inr ⟨b, step b ih⟩

end CChain

namespace ChainstateManager

/-- The skip list, the vector of the active chain and the locators say what following
    `pprev` says, on every tree of blocks. -/
theorem skip_list_transparent :
    (∀ (b : CBlockIndex) (height : Int), b.getAncestor height =
      if 0 ≤ height ∧ height ≤ b.nHeight then follow (b.nHeight - height.toNat) b else none) ∧
    (∀ (b : CBlockIndex) (height : Int), 0 ≤ height → height ≤ b.nHeight →
      ∃ a, b.getAncestor height = some a ∧ a.nHeight = height) ∧
    (∀ first a b : CBlockIndex, Ancestor first a → Ancestor first b →
      ∃ c, lastCommonAncestor a b = some c ∧ ∀ x, Ancestor x c ↔ Ancestor x a ∧ Ancestor x b) ∧
    (∀ (s : ChainstateManager) (tip first b : CBlockIndex), s.tip = some tip → Ancestor first tip →
      Ancestor first b → ∃ fork, s.findFork b = some fork ∧
        ∀ x, Ancestor x fork ↔ Ancestor x b ∧ x ∈ tip.path) ∧
    (∀ (tips : List CBlockIndex) (tip : CBlockIndex),
      (tips ++ [tip]).foldl CChain.setTip [] = tip.path.map some) ∧
    ∀ b : CBlockIndex, (∃ rest, locatorEntries b = b :: rest) ∧
      (∃ last, (locatorEntries b).getLast? = some last ∧ last.nHeight = 0) ∧
      (∀ a ∈ locatorEntries b, Ancestor a b) ∧
      (locatorEntries b).Pairwise fun a b => b.nHeight < a.nHeight := by
  refine ⟨getAncestor_eq_follow, fun b height nonneg le => ?_, fun first a b left right => ?_,
    fun s tip first b isTip active below => ?_, CChain.foldl_setTip,
    fun b => locatorFrom_spec Nat.one_pos⟩
  · obtain ⟨a, found, -, atHeight⟩ := getAncestor_isSome nonneg le
    exact ⟨a, found, atHeight⟩
  · obtain ⟨c, found⟩ := lastCommonAncestor_isSome left right
    exact ⟨c, found, lastCommonAncestor_iff found⟩
  obtain ⟨fork, found, lower, onChain, highest⟩ := findFork_spec isTip ⟨first, below, active⟩
  refine ⟨fork, found, fun x => ?_⟩
  rw [mem_path]
  exact ⟨fun deeper => ⟨deeper.trans lower, deeper.trans onChain⟩,
    fun ⟨left, right⟩ => highest x left right⟩

end ChainstateManager

end HobbyHash
