import Mathlib.Algebra.Ring.Parity
import Mathlib.Data.List.Infix

/-! # Merkle roots

`ComputeMerkleRoot` of `consensus/merkle.cpp`, over any type of hashes: no function
from pairs of 256-bit hashes to hashes is injective, so what is said about a hash
without collisions is said about an arbitrary type. The list of hashes is replaced
by the list of its pairs until one hash is left, and an odd list repeats its last
hash. Lists of different lengths can therefore have one root; the pairs of equal
hashes that make this possible are what `mutated` reports.
-/

namespace HobbyHash.Merkle

open List

variable {height : Nat}

variable {α : Type} (null : α) (hash : α → α → α)

/-- `hashes.push_back(hashes.back())` for a level of odd size. -/
def padLevel (hashes : List α) : List α :=
  if hashes.length % 2 = 1 then hashes ++ hashes.getLast?.toList else hashes

/-- `SHA256D64` on the pairs of a level of even size. -/
def hashPairs : List α → List α
  | left :: right :: rest => hash left right :: hashPairs rest
  | _ => []

def nextLevel (hashes : List α) : List α :=
  hashPairs hash (padLevel hashes)

theorem padLevel_cons_cons (a b : α) (rest : List α) :
    padLevel (a :: b :: rest) = a :: b :: padLevel rest := by
  cases rest with
  | nil => simp [padLevel]
  | cons c rest =>
    have eq : (a :: b :: c :: rest).length % 2 = (c :: rest).length % 2 := by
      simp only [length_cons]
      omega
    rw [padLevel, padLevel, eq]
    split <;> simp [getLast?_cons_cons]

@[simp] theorem nextLevel_nil : nextLevel hash [] = [] := by
  simp [nextLevel, padLevel, hashPairs]

@[simp] theorem nextLevel_singleton (a : α) : nextLevel hash [a] = [hash a a] := by
  simp [nextLevel, padLevel, hashPairs]

@[simp] theorem nextLevel_cons_cons (a b : α) (rest : List α) :
    nextLevel hash (a :: b :: rest) = hash a b :: nextLevel hash rest := by
  rw [nextLevel, padLevel_cons_cons, hashPairs, nextLevel]

theorem length_nextLevel (hashes : List α) :
    (nextLevel hash hashes).length = (hashes.length + 1) / 2 := by
  induction hashes using twoStepInduction with
  | nil => simp
  | singleton a => simp
  | cons_cons a b rest ih _ =>
    rw [nextLevel_cons_cons, length_cons, ih]
    simp only [length_cons]
    omega

theorem nextLevel_ne_nil {hashes} (ne : hashes ≠ []) : nextLevel hash hashes ≠ [] := by
  have pos := length_pos_iff.mpr ne
  rw [← length_pos_iff, length_nextLevel]
  omega

theorem nextLevel_append (even : first.length % 2 = 0) (second : List α) :
    nextLevel hash (first ++ second) = nextLevel hash first ++ nextLevel hash second := by
  induction first using twoStepInduction with
  | nil => simp
  | singleton a => simp at even
  | cons_cons a b rest ih _ =>
    simp only [length_cons] at even
    simp only [cons_append, nextLevel_cons_cons]
    rw [ih (by omega)]

theorem nextLevel_drop (n : Nat) (hashes : List α) :
    nextLevel hash (hashes.drop (2 * n)) = (nextLevel hash hashes).drop n := by
  induction n generalizing hashes with
  | zero => rfl
  | succ n ih =>
    rw [show 2 * (n + 1) = 2 * n + 1 + 1 by omega]
    match hashes with
    | [] => simp
    | [a] => simp
    | a :: b :: rest => simpa using ih rest

theorem level_induction {motive : List α → Prop} (nil : motive []) (last : ∀ a, motive [a])
    (level : ∀ hashes, 1 < hashes.length → motive (nextLevel hash hashes) → motive hashes)
    (hashes : List α) : motive hashes := by
  induction length : hashes.length using Nat.strong_induction_on generalizing hashes with
  | _ n ih =>
    subst length
    match hashes with
    | [] => exact nil
    | [a] => exact last a
    | a :: b :: rest =>
      apply level
      · simp
      · apply ih _ _ _ rfl
        rw [length_nextLevel]
        simp only [length_cons]
        omega

def IsLeaf (a : α) : Prop := ∀ left right, hash left right ≠ a

/-- A hash that stands `height` levels above leaves. -/
def AtHeight : Nat → α → Prop
  | 0, a => IsLeaf hash a
  | height + 1, a => ∃ left right, hash left right = a ∧ AtHeight height left ∧
    AtHeight height right

variable {hash} {hashes other : List α}

theorem AtHeight.unique (inj : Function.Injective2 hash) (first : AtHeight hash j a)
    (second : AtHeight hash k a) : j = k := by
  induction j generalizing k a with
  | zero =>
    cases k with
    | zero => rfl
    | succ k =>
      obtain ⟨left, right, isHash, -⟩ := second
      exact absurd isHash (first left right)
  | succ j ih =>
    obtain ⟨left, right, rfl, lower, -⟩ := first
    cases k with
    | zero => exact absurd rfl (second left right)
    | succ k =>
      obtain ⟨left', right', same, lower', -⟩ := second
      obtain ⟨rfl, rfl⟩ := inj same
      rw [ih lower lower']

theorem AtHeight.nextLevel (level : ∀ a ∈ hashes, AtHeight hash height a) :
    ∀ a ∈ nextLevel hash hashes, AtHeight hash (height + 1) a := by
  induction hashes using twoStepInduction with
  | nil => simp
  | singleton a =>
    have here := level a mem_cons_self
    simpa using ⟨a, a, rfl, here, here⟩
  | cons_cons a b rest ih _ =>
    simp only [forall_mem_cons] at level
    simp only [nextLevel_cons_cons, forall_mem_cons]
    exact ⟨⟨a, b, rfl, level.1, level.2.1⟩, ih level.2.2⟩

variable (hash)

section Compute

variable [DecidableEq α]

/-- The loop over a level that looks for two equal hashes in one pair. -/
def mutation : List α → Bool
  | left :: right :: rest => decide (left = right) || mutation rest
  | _ => false

/-- `ComputeMerkleRoot`: the root and whether the list is mutated. -/
def computeMerkleRoot (hashes : List α) : α × Bool :=
  if 1 < hashes.length then
    let above := computeMerkleRoot (nextLevel hash hashes)
    (above.1, mutation hashes || above.2)
  else (hashes.headD null, false)
termination_by hashes.length
decreasing_by
  rw [length_nextLevel]
  omega

def root (hashes : List α) : α := (computeMerkleRoot null hash hashes).1

def mutated (hashes : List α) : Bool := (computeMerkleRoot null hash hashes).2

variable {null hash}

theorem root_of_long (lt : 1 < hashes.length) :
    root null hash hashes = root null hash (nextLevel hash hashes) := by
  rw [root, computeMerkleRoot, if_pos lt]
  rfl

theorem mutated_of_long (lt : 1 < hashes.length) :
    mutated null hash hashes = (mutation hashes || mutated null hash (nextLevel hash hashes)) := by
  rw [mutated, computeMerkleRoot, if_pos lt]
  rfl

@[simp] theorem root_singleton (a : α) : root null hash [a] = a := by
  simp [root, computeMerkleRoot]

variable (null) in
theorem AtHeight.root (ne : hashes ≠ []) (level : ∀ a ∈ hashes, AtHeight hash height a) :
    ∃ above, AtHeight hash (height + above) (root null hash hashes) ∧
      (0 < above ↔ 1 < hashes.length) := by
  induction hashes using level_induction hash generalizing height with
  | nil => exact absurd rfl ne
  | last a => exact ⟨0, by simpa using level, by simp⟩
  | level hashes long ih =>
    obtain ⟨above, atRoot, -⟩ := ih (nextLevel_ne_nil hash ne) (AtHeight.nextLevel level)
    refine ⟨above + 1, ?_, by simp [long]⟩
    rw [root_of_long long, Nat.add_comm above, ← Nat.add_assoc]
    exact atRoot

/-- A level without a pair of equal hashes can be read off the next level, up to
    hashes that were repeated after it. -/
theorem isPrefix_of_nextLevel (inj : Function.Injective2 hash) {short long}
    (clean : mutation short = false) (above : nextLevel hash short <+: nextLevel hash long) :
    short <+: long := by
  induction short using twoStepInduction generalizing long with
  | nil => exact nil_prefix
  | singleton a =>
    cases long using twoStepInduction with
    | nil => simp at above
    | singleton b =>
      obtain ⟨rfl, -⟩ := inj (by simpa using above)
      exact prefix_refl _
    | cons_cons b c rest =>
      obtain ⟨rfl, -⟩ := inj (by simpa using above)
      exact ⟨c :: rest, rfl⟩
  | cons_cons a b rest ih _ =>
    simp only [mutation, Bool.or_eq_false_iff, decide_eq_false_iff_not] at clean
    cases long using twoStepInduction with
    | nil => simp at above
    | singleton c =>
      simp only [nextLevel_cons_cons, nextLevel_singleton, cons_prefix_cons] at above
      obtain ⟨rfl, rfl⟩ := inj above.1
      exact absurd rfl clean.1
    | cons_cons c d rest' =>
      simp only [nextLevel_cons_cons, cons_prefix_cons] at above
      obtain ⟨rfl, rfl⟩ := inj above.1
      simpa using ih clean.2 above.2

section

variable (inj : Function.Injective2 hash) (ne : hashes ≠ []) (otherNe : other ≠ [])
  (level : ∀ a ∈ hashes, AtHeight hash height a) (otherLevel : ∀ a ∈ other, AtHeight hash height a)
  (eq : root null hash hashes = root null hash other)
include inj ne otherNe level otherLevel eq

theorem long_iff_of_root : 1 < hashes.length ↔ 1 < other.length := by
  obtain ⟨above, atRoot, higher⟩ := AtHeight.root null ne level
  obtain ⟨above', atRoot', higher'⟩ := AtHeight.root null otherNe otherLevel
  rw [eq] at atRoot
  have heights := atRoot.unique inj atRoot'
  omega

/-- Of two lists with one root, one that is not mutated is the start of the other. -/
theorem isPrefix_of_root (clean : mutated null hash hashes = false) : hashes <+: other := by
  have long_iff := long_iff_of_root inj ne otherNe level otherLevel eq
  induction hashes using level_induction hash generalizing other height with
  | nil => exact nil_prefix
  | last a =>
    match other with
    | [] => exact absurd rfl otherNe
    | [b] =>
      simp only [root_singleton] at eq
      rw [eq]
    | b :: c :: rest => simp at long_iff
  | level hashes long ih =>
    have otherLong := long_iff.mp long
    rw [mutated_of_long long, Bool.or_eq_false_iff] at clean
    rw [root_of_long long, root_of_long otherLong] at eq
    have next := AtHeight.nextLevel level
    have otherNext := AtHeight.nextLevel otherLevel
    have nextNonempty := nextLevel_ne_nil hash ne
    have otherNextNe := nextLevel_ne_nil hash otherNe
    exact isPrefix_of_nextLevel inj clean.1
      (ih nextNonempty otherNextNe next otherNext eq clean.2
        (long_iff_of_root inj nextNonempty otherNextNe next otherNext eq))

end

/-- Repeats the last subtree of `2 ^ level` leaves of a list whose number of such
    subtrees is odd, so that the copy takes the place of the hash that is repeated
    anyway (CVE-2012-2459). -/
inductive Repeats : List α → List α → Prop where
  | subtree (hashes : List α) (level subtrees : Nat) : 0 < subtrees →
      hashes.length = (2 * subtrees + 1) * 2 ^ level →
      Repeats hashes (hashes ++ hashes.drop (2 * subtrees * 2 ^ level))

theorem mutation_append (even : first.length % 2 = 0) (second : List α) :
    mutation (first ++ second) = (mutation first || mutation second) := by
  induction first using twoStepInduction with
  | nil => rfl
  | singleton a => simp at even
  | cons_cons a b rest ih _ =>
    simp only [length_cons] at even
    simp only [cons_append, mutation, Bool.or_assoc]
    rw [ih (by omega)]

/-- The root is the same with a subtree repeated, and the repetition is reported. -/
theorem root_repeats (several : 0 < subtrees)
    (length : hashes.length = (2 * subtrees + 1) * 2 ^ level) :
    root null hash (hashes ++ hashes.drop (2 * subtrees * 2 ^ level)) = root null hash hashes ∧
      mutated null hash (hashes ++ hashes.drop (2 * subtrees * 2 ^ level)) = true := by
  induction level generalizing hashes with
  | zero =>
    rw [Nat.pow_zero, Nat.mul_one] at length ⊢
    obtain ⟨first, last, rfl⟩ : ∃ first last, hashes = first ++ [last] := by
      refine ⟨_, _, (dropLast_append_getLast ?_).symm⟩
      rw [← length_pos_iff]
      omega
    simp only [length_append, length_singleton] at length
    have even : first.length % 2 = 0 := by omega
    have copy : (first ++ [last]).drop (2 * subtrees) = [last] := drop_left' (by omega)
    have lt : 1 < (first ++ [last] ++ [last]).length := by
      simp only [length_append, length_singleton]
      omega
    have long : 1 < (first ++ [last]).length := by
      simp only [length_append, length_singleton]
      omega
    rw [copy, mutated_of_long lt, root_of_long lt, root_of_long long, append_assoc,
      nextLevel_append hash even, nextLevel_append hash even, mutation_append even]
    simp [mutation]
  | succ level ih =>
    have pow : 2 ^ (level + 1) = 2 * 2 ^ level := Nat.pow_succ'
    have pos : 0 < 2 ^ level := Nat.two_pow_pos level
    have half : hashes.length = 2 * ((2 * subtrees + 1) * 2 ^ level) := by
      rw [length, pow, Nat.mul_left_comm]
    have start : 2 * subtrees * 2 ^ (level + 1) = 2 * (2 * subtrees * 2 ^ level) := by
      rw [pow, Nat.mul_left_comm]
    have le : 1 ≤ (2 * subtrees + 1) * 2 ^ level := Nat.mul_pos (Nat.succ_pos _) pos
    have long : 1 < hashes.length := by omega
    have lt : 1 < (hashes ++ hashes.drop (2 * subtrees * 2 ^ (level + 1))).length := by
      rw [length_append]
      omega
    have above := @ih (nextLevel hash hashes) (by rw [length_nextLevel]; omega)
    rw [root_of_long lt, root_of_long long, mutated_of_long lt,
      nextLevel_append hash (by omega), start, nextLevel_drop, above.1, above.2, Bool.or_true]
    exact ⟨rfl, rfl⟩

theorem Repeats.reported (null : α) (once : Repeats hashes other) :
    root null hash other = root null hash hashes ∧ hashes.length < other.length ∧
      mutated null hash other = true := by
  obtain ⟨level, subtrees, several, length⟩ := once
  have pos : 0 < 2 ^ level := Nat.two_pow_pos level
  refine ⟨(root_repeats several length).1, ?_, (root_repeats several length).2⟩
  rw [length_append, length_drop, length, Nat.add_mul]
  omega

theorem eq_of_root (inj : Function.Injective2 hash) (ne : hashes ≠ [])
    (otherNe : other ≠ []) (leaves : ∀ a ∈ hashes, IsLeaf hash a)
    (otherLeaves : ∀ a ∈ other, IsLeaf hash a) (eq : root null hash hashes = root null hash other)
    (clean : mutated null hash hashes = false) (otherClean : mutated null hash other = false) :
    hashes = other := by
  have level : ∀ a ∈ hashes, AtHeight hash 0 a := leaves
  have otherLevel : ∀ a ∈ other, AtHeight hash 0 a := otherLeaves
  have before := isPrefix_of_root inj ne otherNe level otherLevel eq clean
  have after := isPrefix_of_root inj otherNe ne otherLevel level eq.symm otherClean
  exact before.eq_of_length_le after.length_le

theorem mutated_of_longer (inj : Function.Injective2 hash) (ne : hashes ≠ [])
    (leaves : ∀ a ∈ hashes, IsLeaf hash a) (otherLeaves : ∀ a ∈ other, IsLeaf hash a)
    (eq : root null hash hashes = root null hash other) (lt : hashes.length < other.length) :
    mutated null hash other = true := by
  have level : ∀ a ∈ hashes, AtHeight hash 0 a := leaves
  have otherLevel : ∀ a ∈ other, AtHeight hash 0 a := otherLeaves
  have otherNe : other ≠ [] := by
    rintro rfl
    exact absurd lt (Nat.not_lt_zero _)
  by_contra clean
  rw [Bool.not_eq_true] at clean
  have start := isPrefix_of_root inj otherNe ne otherLevel level eq.symm clean
  exact absurd lt (Nat.not_lt.mpr start.length_le)

/-- `CheckMerkleRoot` on the transaction ids of a block: the reject reason, if any. -/
def checkMerkleRoot (null : α) (hash : α → α → α) (hashMerkleRoot : α) (txids : List α) :
    Option String :=
  let (merkleRoot, mutated) := computeMerkleRoot null hash txids
  if hashMerkleRoot ≠ merkleRoot then some "bad-txnmrklroot"
  else if mutated then some "bad-txns-duplicate"
  else none

theorem checkMerkleRoot_eq_none :
    checkMerkleRoot null hash hashMerkleRoot txids = none ↔
      hashMerkleRoot = root null hash txids ∧ mutated null hash txids = false := by
  rw [checkMerkleRoot, root, mutated]
  dsimp only
  split
  · rename_i ne
    simp [ne]
  · rename_i same
    rw [not_not] at same
    cases (computeMerkleRoot null hash txids).2 <;> simp [same]

/-- A header fixes the transactions of a block that passes the check. -/
theorem checkMerkleRoot_unique (inj : Function.Injective2 hash) (ne : hashes ≠ [])
    (otherNe : other ≠ []) (leaves : ∀ a ∈ hashes, IsLeaf hash a)
    (otherLeaves : ∀ a ∈ other, IsLeaf hash a)
    (passes : checkMerkleRoot null hash hashMerkleRoot hashes = none)
    (otherPasses : checkMerkleRoot null hash hashMerkleRoot other = none) : hashes = other := by
  obtain ⟨isRoot, clean⟩ := checkMerkleRoot_eq_none.mp passes
  obtain ⟨otherRoot, otherClean⟩ := checkMerkleRoot_eq_none.mp otherPasses
  exact eq_of_root inj ne otherNe leaves otherLeaves (isRoot.symm.trans otherRoot)
    clean otherClean

/-- The root identifies the list: lists of leaves with one root that are not reported
    as mutated are equal, of two lists with one root the longer one is reported, and
    so is every list in which subtrees were repeated. -/
theorem root_identifies (null : α) (injective : Function.Injective2 hash) :
    (∀ hashes other : List α, hashes ≠ [] → other ≠ [] → (∀ a ∈ hashes, IsLeaf hash a) →
      (∀ a ∈ other, IsLeaf hash a) → root null hash hashes = root null hash other →
      (mutated null hash hashes = false → mutated null hash other = false → hashes = other) ∧
      (hashes.length < other.length → mutated null hash other = true)) ∧
    ∀ hashes other : List α, Relation.TransGen Repeats hashes other →
      root null hash other = root null hash hashes ∧ hashes.length < other.length ∧
        mutated null hash other = true := by
  constructor
  · intro hashes other nonempty otherNonempty leaves otherLeaves same
    exact ⟨eq_of_root injective nonempty otherNonempty leaves otherLeaves same,
      mutated_of_longer injective nonempty leaves otherLeaves same⟩
  · intro hashes other repeated
    induction repeated with
    | single once => exact once.reported null
    | tail _ once ih =>
      obtain ⟨same, longer, reported⟩ := once.reported null
      exact ⟨same.trans ih.1, ih.2.1.trans longer, reported⟩

/-- Hashes without collisions: a hash is the tree of what was hashed. -/
inductive FreeHash where
  | leaf (n : Nat)
  | pair (left right : FreeHash)
  deriving DecidableEq, Repr

theorem FreeHash.pair_injective : Function.Injective2 FreeHash.pair := by
  intro a a' b b' same
  cases same
  exact ⟨rfl, rfl⟩

/-- Five leaves, and the list that repeats the last one. -/
theorem root_identifies_five :
    let leaves := [1, 2, 3, 4, 5].map FreeHash.leaf
    mutated (.leaf 0) FreeHash.pair leaves = false ∧
      root (.leaf 0) FreeHash.pair (leaves ++ [.leaf 5]) = root (.leaf 0) FreeHash.pair leaves ∧
      mutated (.leaf 0) FreeHash.pair (leaves ++ [.leaf 5]) = true := by
  intro leaves
  have isLeaf : ∀ n, IsLeaf FreeHash.pair (.leaf n) := nofun
  have once : Repeats leaves (leaves ++ [.leaf 5]) := .subtree leaves 0 2 (by decide) (by decide)
  obtain ⟨equal, repeated⟩ := root_identifies (.leaf 0) FreeHash.pair_injective
  obtain ⟨same, longer, -⟩ := repeated _ _ (.single once)
  refine ⟨by decide +kernel, same, (equal leaves _ ?_ ?_ ?_ ?_ same.symm).2 longer⟩
  · simp [leaves]
  · simp
  · simp [leaves, isLeaf]
  · simp [leaves, isLeaf]

end Compute

end HobbyHash.Merkle
