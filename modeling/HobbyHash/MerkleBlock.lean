import HobbyHash.Merkle
import HobbyHash.Validation.Transaction

/-! # Partial merkle trees

`CPartialMerkleTree` of `merkleblock.cpp`: a sender gives a number of transactions,
a bit for each node that is visited and a hash for each node that is not opened,
and the receiver computes the root and the matched leaves from them. The sender
chooses all three, so the tree that is walked need not have the shape of the tree
whose root comes out. The vectors that the matches are written to are empty at the
call; `vnIndex` is not cleared by the source.
-/

namespace HobbyHash.Merkle

open Validation List FreeHash

variable {α : Type} (null : α) (hash : α → α → α)

def minTransactionWeight : Nat := witnessScaleFactor * 60

/-- `CPartialMerkleTree` as it was received. -/
structure CPartialMerkleTree (α : Type) where
  nTransactions : Nat
  vBits : List Bool
  vHash : List α

/-- The variables that `TraverseAndExtract` shares between its calls. -/
structure Extraction (α : Type) where
  nBitsUsed : Nat := 0
  nHashUsed : Nat := 0
  fBad : Bool := false
  vMatch : List α := []
  vnIndex : List Nat := []

namespace CPartialMerkleTree

variable (tree : CPartialMerkleTree α)

def calcTreeWidth (height : Nat) : Nat :=
  (tree.nTransactions + 2 ^ height - 1) / 2 ^ height

theorem calcTreeWidth_succ (height : Nat) :
    tree.calcTreeWidth (height + 1) = (tree.calcTreeWidth height + 1) / 2 := by
  have pos := Nat.two_pow_pos height
  rw [calcTreeWidth, calcTreeWidth, Nat.pow_succ, ← Nat.div_div_eq_div_mul]
  congr 1
  rw [← Nat.add_div_right _ pos]
  congr 1
  omega

def findHeight (height : Nat) : Nat :=
  if tree.calcTreeWidth height > 1 then findHeight (height + 1) else height
termination_by tree.calcTreeWidth height
decreasing_by
  rw [calcTreeWidth_succ]
  omega

/-- The hash that is stored for a node which is not opened. -/
def takeHash (isMatch : Bool) (pos : Nat) (s : Extraction α) : α × Extraction α :=
  match tree.vHash[s.nHashUsed]? with
  | none => (null, { s with fBad := true })
  | some stored =>
    (stored,
      { s with
        nHashUsed := s.nHashUsed + 1
        vMatch := if isMatch then s.vMatch ++ [stored] else s.vMatch
        vnIndex := if isMatch then s.vnIndex ++ [pos] else s.vnIndex })

variable [DecidableEq α]

def traverseAndExtract : Nat → Nat → Extraction α → α × Extraction α
  | height, pos, s =>
    match tree.vBits[s.nBitsUsed]? with
    | none => (null, { s with fBad := true })
    | some fParentOfMatch =>
      let s := { s with nBitsUsed := s.nBitsUsed + 1 }
      match height with
      | 0 => tree.takeHash null fParentOfMatch pos s
      | height + 1 =>
        if !fParentOfMatch then tree.takeHash null false pos s
        else
          let (left, s) := traverseAndExtract height (pos * 2) s
          if pos * 2 + 1 < tree.calcTreeWidth height then
            let (right, s) := traverseAndExtract height (pos * 2 + 1) s
            (hash left right, { s with fBad := s.fBad || decide (right = left) })
          else (hash left left, s)

/-- `ExtractMatches`: the root, or null if something is wrong, with the matches and
    their indexes. -/
def extractMatches : α × List α × List Nat :=
  if tree.nTransactions = 0 then (null, [], [])
  else if tree.nTransactions > maxBlockWeight / minTransactionWeight then (null, [], [])
  else if tree.vHash.length > tree.nTransactions then (null, [], [])
  else if tree.vBits.length < tree.vHash.length then (null, [], [])
  else
    let (hashMerkleRoot, s) := tree.traverseAndExtract null hash (tree.findHeight 0) 0 {}
    if s.fBad then (null, s.vMatch, s.vnIndex)
    else if (s.nBitsUsed + 7) / 8 ≠ (tree.vBits.length + 7) / 8 then (null, s.vMatch, s.vnIndex)
    else if s.nHashUsed ≠ tree.vHash.length then (null, s.vMatch, s.vnIndex)
    else (hashMerkleRoot, s.vMatch, s.vnIndex)

end CPartialMerkleTree

section Levels

variable {hash}

def levelAt (hash : α → α → α) (leaves : List α) : Nat → List α
  | 0 => leaves
  | height + 1 => nextLevel hash (levelAt hash leaves height)

theorem levelAt_nextLevel (leaves : List α) (height : Nat) :
    levelAt hash (nextLevel hash leaves) height = levelAt hash leaves (height + 1) := by
  induction height with
  | zero => rfl
  | succ height ih => exact congrArg (nextLevel hash) ih

theorem levelAt_root [DecidableEq α] (null : α) (ne : leaves ≠ []) :
    ∃ height, levelAt hash leaves height = [root null hash leaves] := by
  induction leaves using level_induction hash with
  | nil => exact absurd rfl ne
  | last a => exact ⟨0, by rw [root_singleton]; rfl⟩
  | level leaves long ih =>
    obtain ⟨height, top⟩ := ih (nextLevel_ne_nil hash ne)
    refine ⟨height + 1, ?_⟩
    rw [← levelAt_nextLevel, top, root_of_long long]

theorem getElem?_nextLevel (hashes : List α) (pos : Nat) :
    (nextLevel hash hashes)[pos]? =
      hashes[pos * 2]?.map fun left => hash left (hashes[pos * 2 + 1]?.getD left) := by
  induction hashes using twoStepInduction generalizing pos with
  | nil => simp
  | singleton a => cases pos <;> simp
  | cons_cons a b rest ih _ =>
    cases pos with
    | zero => simp
    | succ pos => simp [Nat.add_mul, ih]

theorem children_of_node (inj : Function.Injective2 hash) (isLeaf : ∀ a ∈ leaves, IsLeaf hash a)
    (stands : (levelAt hash leaves level)[pos]? = some (hash left right)) :
    ∃ lt, (levelAt hash leaves lt)[pos * 2]? = some left ∧
      ((levelAt hash leaves lt)[pos * 2 + 1]? = some right ∨ right = left) := by
  cases level with
  | zero => exact absurd rfl (isLeaf _ (mem_of_getElem? stands) left right)
  | succ lt =>
    rw [levelAt, getElem?_nextLevel, Option.map_eq_some_iff] at stands
    obtain ⟨left', isLeft, isNode⟩ := stands
    obtain ⟨rfl, rfl⟩ := inj isNode
    refine ⟨lt, isLeft, ?_⟩
    cases (levelAt hash leaves lt)[pos * 2 + 1]? <;> simp

end Levels

section Sound

variable {null hash} {tree : CPartialMerkleTree α} {leaves : List α} {height pos : Nat}
  {s s' : Extraction α} {node : α}

/-- What a call that found nothing wrong has added for a node: if the node stands
    at this position in some level of the real tree, the matches are real leaves. -/
structure Extracted (hash : α → α → α) (leaves : List α) (pos : Nat) (s : Extraction α) (node : α)
    (s' : Extraction α) (found : List (α × Nat)) : Prop where
  good : s.fBad = false
  vMatch : s'.vMatch = s.vMatch ++ found.map (·.1)
  vnIndex : s'.vnIndex = s.vnIndex ++ found.map (·.2)
  real : ∀ level, (levelAt hash leaves level)[pos]? = some node →
    (∀ m ∈ found, IsLeaf hash m.1) → ∀ m ∈ found, leaves[m.2]? = some m.1

theorem takeHash_extracted (ran : tree.takeHash null isMatch pos s = (node, s'))
    (good : s'.fBad = false) : ∃ found, Extracted hash leaves pos s node s' found := by
  rw [CPartialMerkleTree.takeHash] at ran
  split at ran
  · cases ran
    cases good
  cases ran
  refine ⟨if isMatch then [(node, pos)] else [], good, ?_, ?_, ?_⟩
  · cases isMatch <;> simp
  · cases isMatch <;> simp
  intro level stands isLeaf m mem
  cases isMatch with
  | false => simp at mem
  | true =>
    obtain rfl : m = (node, pos) := by simpa using mem
    cases level with
    | zero => exact stands
    | succ level =>
      -- a hash of a higher level is an output of the pair hash
      rw [levelAt, getElem?_nextLevel, Option.map_eq_some_iff] at stands
      obtain ⟨left, -, isNode⟩ := stands
      exact absurd isNode (isLeaf (node, pos) mem _ _)

variable [DecidableEq α]

theorem traverseAndExtract_extracted (inj : Function.Injective2 hash)
    (isLeaf : ∀ a ∈ leaves, IsLeaf hash a)
    (ran : tree.traverseAndExtract null hash height pos s = (node, s')) (good : s'.fBad = false) :
    ∃ found, Extracted hash leaves pos s node s' found := by
  induction height generalizing pos s node s' with
  | zero =>
    rw [CPartialMerkleTree.traverseAndExtract] at ran
    split at ran
    · cases ran
      cases good
    · obtain ⟨found, extracted⟩ := takeHash_extracted ran good
      exact ⟨found, extracted.good, extracted.vMatch, extracted.vnIndex, extracted.real⟩
  | succ height ih =>
    rw [CPartialMerkleTree.traverseAndExtract] at ran
    split at ran
    · cases ran
      cases good
    dsimp only at ran
    split at ran
    · obtain ⟨found, extracted⟩ := takeHash_extracted ran good
      exact ⟨found, extracted.good, extracted.vMatch, extracted.vnIndex, extracted.real⟩
    split at ran
    · cases ran
      simp only [Bool.or_eq_false_iff, decide_eq_false_iff_not] at good
      obtain ⟨right, afterRight⟩ := ih rfl good.1
      obtain ⟨left, afterLeft⟩ := ih rfl afterRight.good
      refine ⟨left ++ right, afterLeft.good, ?_, ?_, ?_⟩
      · rw [map_append, ← append_assoc, ← afterLeft.vMatch]
        exact afterRight.vMatch
      · rw [map_append, ← append_assoc, ← afterLeft.vnIndex]
        exact afterRight.vnIndex
      intro level stands areLeaves m mem
      obtain ⟨lt, isLeft, isRight⟩ := children_of_node inj isLeaf stands
      rw [forall_mem_append] at areLeaves
      obtain inLeft | inRight := mem_append.mp mem
      · exact afterLeft.real lt isLeft areLeaves.1 m inLeft
      · exact afterRight.real lt (isRight.resolve_right good.2) areLeaves.2 m inRight
    · cases ran
      obtain ⟨found, afterLeft⟩ := ih rfl good
      refine ⟨found, afterLeft.good, afterLeft.vMatch, afterLeft.vnIndex, ?_⟩
      intro level stands areLeaves
      obtain ⟨lt, isLeft, -⟩ := children_of_node inj isLeaf stands
      exact afterLeft.real lt isLeft areLeaves

/-- A root that is not null was computed from a walk in which nothing was wrong. -/
theorem extractMatches_cases :
    (tree.extractMatches null hash).1 = null ∨
      ∃ node s, tree.traverseAndExtract null hash (tree.findHeight 0) 0 {} = (node, s) ∧
        s.fBad = false ∧ tree.extractMatches null hash = (node, s.vMatch, s.vnIndex) := by
  rw [CPartialMerkleTree.extractMatches]
  split_ifs
  case neg =>
    dsimp only
    split_ifs
    case neg =>
      rename_i good _ _
      exact .inr ⟨_, _, rfl, Bool.not_eq_true _ ▸ good, rfl⟩
    all_goals exact .inl rfl
  all_goals exact .inl rfl

/-- Whatever the sender claims: if the root of a list of leaves comes out, and it is
    not the value that stands for a failure, every match is the leaf at its index. -/
theorem extractMatches_sound (injective : Function.Injective2 hash)
    (isLeaf : ∀ a ∈ leaves, IsLeaf hash a)
    (returned : (tree.extractMatches null hash).1 = root null hash leaves)
    (notNull : root null hash leaves ≠ null)
    (areLeaves : ∀ txid ∈ (tree.extractMatches null hash).2.1, IsLeaf hash txid) :
    (tree.extractMatches null hash).2.1.length = (tree.extractMatches null hash).2.2.length ∧
      ∀ m ∈ (tree.extractMatches null hash).2.1.zip (tree.extractMatches null hash).2.2,
        m.2 < leaves.length ∧ leaves[m.2]? = some m.1 := by
  obtain isNull | ⟨node, s, ran, good, result⟩ := @extractMatches_cases _ null hash tree _
  · exact absurd (returned.symm.trans isNull) notNull
  rw [result] at returned areLeaves ⊢
  dsimp only at returned areLeaves ⊢
  obtain ⟨found, extracted⟩ := traverseAndExtract_extracted injective isLeaf ran good
  have vMatch : s.vMatch = found.map (·.1) := extracted.vMatch
  have vnIndex : s.vnIndex = found.map (·.2) := extracted.vnIndex
  have nonempty : leaves ≠ [] := by
    rintro rfl
    exact notNull (by simp [root, computeMerkleRoot])
  obtain ⟨level, top⟩ := levelAt_root null nonempty
  have stands : (levelAt hash leaves level)[0]? = some node := by
    rw [top, returned]
    rfl
  have foundLeaves : ∀ m ∈ found, IsLeaf hash m.1 := by
    intro m member
    apply areLeaves
    rw [vMatch]
    exact mem_map_of_mem member
  have zipped : s.vMatch.zip s.vnIndex = found := by
    rw [vMatch, vnIndex, zip_map']
    exact map_id _
  refine ⟨by rw [vMatch, vnIndex, length_map, length_map], fun m member => ?_⟩
  rw [zipped] at member
  have real := extracted.real level stands foundLeaves m member
  exact ⟨(List.getElem?_eq_some_iff.mp real).1, real⟩

/-- Two of five leaves are matched by a sender that claims eight. -/
def exampleProof : CPartialMerkleTree FreeHash where
  nTransactions := 8
  vBits := [true, true, true, true, true, false, false]
  vHash :=
    [.leaf 1, .leaf 2, .pair (.leaf 3) (.leaf 4),
      .pair (.pair (.leaf 5) (.leaf 5)) (.pair (.leaf 5) (.leaf 5))]

theorem extractMatches_sound_exampleProof :
    let leaves := [1, 2, 3, 4, 5].map leaf
    exampleProof.extractMatches (.leaf 0) .pair =
        (root (.leaf 0) .pair leaves, [.leaf 1, .leaf 2], [0, 1]) ∧
      ∀ m ∈ (exampleProof.extractMatches (.leaf 0) .pair).2.1.zip
          (exampleProof.extractMatches (.leaf 0) .pair).2.2,
        m.2 < leaves.length ∧ leaves[m.2]? = some m.1 := by
  intro leaves
  have isLeaf : ∀ n, IsLeaf pair (.leaf n) := nofun
  have ran : exampleProof.extractMatches (.leaf 0) .pair =
      (root (.leaf 0) .pair leaves, [.leaf 1, .leaf 2], [0, 1]) := by decide +kernel
  refine ⟨ran, (extractMatches_sound pair_injective ?_ ?_ ?_ ?_).2⟩
  · simp [leaves, isLeaf]
  · rw [ran]
  · decide +kernel
  · rw [ran]
    simp [isLeaf]

/-- A sender whose vector of bits is too long. -/
def examplePadded : CPartialMerkleTree FreeHash where
  nTransactions := 1
  vBits := true :: List.replicate 9 false
  vHash := [.leaf 7]

/-- If the root is null, it cannot be told from a failure, after which the matches
    are still there. -/
theorem extractMatches_null :
    let leaves := [leaf 0]
    Function.Injective2 pair ∧ (∀ a ∈ leaves, IsLeaf pair a) ∧
      mutated (.leaf 0) .pair leaves = false ∧
      (examplePadded.extractMatches (.leaf 0) .pair).1 = root (.leaf 0) .pair leaves ∧
      (∀ txid ∈ (examplePadded.extractMatches (.leaf 0) .pair).2.1, IsLeaf pair txid) ∧
      (leaf 7, 0) ∈ (examplePadded.extractMatches (.leaf 0) .pair).2.1.zip
        (examplePadded.extractMatches (.leaf 0) .pair).2.2 ∧
      leaves[0]? ≠ some (.leaf 7) := by
  intro leaves
  have isLeaf : ∀ n, IsLeaf pair (.leaf n) := nofun
  have ran : examplePadded.extractMatches (.leaf 0) .pair = (.leaf 0, [.leaf 7], [0]) := by
    decide +kernel
  have isRoot : root (.leaf 0) .pair leaves = .leaf 0 := root_singleton _
  have clean : mutated (.leaf 0) .pair leaves = false := by decide +kernel
  rw [ran, isRoot]
  exact ⟨pair_injective, by simp [leaves, isLeaf], clean, rfl, by simp [isLeaf],
    by simp, by simp [leaves]⟩

end Sound

end HobbyHash.Merkle
