import HobbyHash.Chainstate.Check
import HobbyHash.Chainstate.Linking

/-! # What CheckBlockIndex asserts

`Consistent` says in terms of blocks and their ancestors what the assertions say
in terms of the oldest block with a property; `consistent_of_check` and
`Consistent.check` are the two directions. The comparator is a strict linear order on the index, given by
`rank`.
-/

namespace HobbyHash

open Machine CBlockIndex List

variable {b a : CBlockIndex}

namespace CBlockIndex

theorem path_getElem? : b.path[a.nHeight]? = some a ↔ Ancestor a b := by
  induction b with
  | genesis f =>
    simp only [path, getElem?_singleton]
    constructor
    · intro found
      split at found
      · cases found
        exact .refl
      · cases found
    · intro lt
      cases lt with
      | refl => rfl
  | child p f ih =>
    by_cases lower : a.nHeight < p.path.length
    · rw [path, getElem?_append_left lower, ih]
      constructor
      · exact .step
      · intro lt
        refine lt.pprev ?_
        rintro rfl
        rw [nHeight_child, length_path] at lower
        omega
    rw [path, getElem?_append_right (Nat.not_lt.mp lower), getElem?_singleton]
    rw [length_path] at lower ⊢
    constructor
    · intro found
      split at found
      · cases found
        exact .refl
      · cases found
    · intro lt
      cases lt with
      | refl => rw [if_pos (by rw [nHeight_child]; omega)]
      | step lt =>
        have := lt.nHeight_le
        omega

end CBlockIndex

namespace ChainstateManager

variable {env : IndexEnv} {s : ChainstateManager} {tip : CBlockIndex}

theorem contains_iff (isTip : s.tip = some tip) :
    s.contains b = true ↔ Ancestor b tip := by
  simp only [contains, isTip, beq_iff_eq, path_getElem?]

/-- The place of a block among the candidates: work, then the earlier sequence
    number, then the lower address. -/
def rank (env : IndexEnv) (s : ChainstateManager) (b : CBlockIndex) : Nat ×ₗ (Int ×ₗ Int) :=
  toLex (b.nChainWork, toLex (-(s.entry b).nSequenceId, -(env.address b : Int)))

theorem worse_iff : s.worse env a b = true ↔ s.rank env a < s.rank env b := by
  simp only [worse, rank, Prod.Lex.toLex_lt_toLex]
  repeat' split
  all_goals
    simp only [Bool.false_eq_true, false_iff, true_iff]
    omega

theorem not_worse_iff :
    s.worse env a b = false ↔ s.rank env b ≤ s.rank env a := by
  rw [← Bool.not_eq_true, worse_iff, not_lt]

theorem rank_injective : Function.Injective (s.rank env) := by
  intro a b same
  have parts := toLex.injective same
  have inner := toLex.injective (Prod.ext_iff.mp parts).2
  have addresses : -(env.address a : Int) = -(env.address b : Int) := (Prod.ext_iff.mp inner).2
  exact env.address_injective (by omega)

/-- No block of the branch is marked as failed itself. -/
def Sound (s : ChainstateManager) (b : CBlockIndex) : Prop :=
  ∀ a, Ancestor a b → (s.nStatus a).failedValid = false

def UpTo (s : ChainstateManager) (nUpTo : BlockValidity) (b : CBlockIndex) : Prop :=
  nUpTo.level ≤ (s.nStatus b).validity.level

/-- The assertions of `CheckBlockIndex` for an index with an active chain. -/
structure Consistent (env : IndexEnv) (s : ChainstateManager) (tip : CBlockIndex) : Prop where
  oneRoot : (s.blocks.filter (·.pprev.isNone)).length = 1
  closed : ∀ p f, child p f ∈ s.blocks → p ∈ s.blocks
  genesisHash : ∀ f, genesis f ∈ s.blocks →
    (genesis f).getBlockHash env.hash = env.params.hashGenesisBlock
  genesisActive : ∀ f, genesis f ∈ s.blocks → Ancestor (genesis f) tip
  genesisLinked : ∀ f, genesis f ∈ s.blocks → s.Linked (genesis f)
  sequence : ∀ b ∈ s.blocks, ¬ s.Linked b → (s.entry b).nSequenceId ≤ 0
  data : ∀ b ∈ s.blocks, s.Received b ↔ (s.entry b).nTx ≠ 0
  undo : ∀ b ∈ s.blocks, (s.nStatus b).haveUndo = true → s.Received b
  transactions : ∀ b ∈ s.blocks, s.UpTo .transactions b ↔ (s.entry b).nTx ≠ 0
  linked : ∀ b ∈ s.blocks, s.Linked b ↔ s.Complete b
  work : ∀ p f, child p f ∈ s.blocks → p.nChainWork ≤ (child p f).nChainWork
  tree : ∀ p f, child p f ∈ s.blocks → s.UpTo .tree (child p f)
  chain : ∀ b ∈ s.blocks, s.UpTo .chain b → ∀ p f, Ancestor (child p f) b →
    s.UpTo .chain (child p f)
  scripts : ∀ b ∈ s.blocks, s.UpTo .scripts b →
    ∀ p f, Ancestor (child p f) b → s.UpTo .scripts (child p f)
  failed : ∀ b ∈ s.blocks, s.Sound b → (s.nStatus b).failed = false
  counted : ∀ b ∈ s.blocks, (s.entry b).nChainTx
    = ((s.entry b).nTx + s.prevChainTx b) % uintModulus ∨
    ((s.entry b).nChainTx = 0 ∧ (s.entry b).nTx = 0) ∨
    ((s.entry b).nChainTx = 0 ∧ s.prevChainTx b = 0 ∧ b.pprev.isSome = true)
  candidate : ∀ b ∈ s.blocks, s.worse env b tip = false → s.Linked b → s.Sound b →
    b ∈ s.setBlockIndexCandidates
  onlyCandidates : ∀ b ∈ s.blocks, b ∈ s.setBlockIndexCandidates →
    s.worse env b tip = false ∧ s.Linked b
  waits : ∀ p f, child p f ∈ s.blocks → s.Received (child p f) → ¬ s.Linked (child p f) →
    s.Sound (child p f) → (p, child p f) ∈ s.blocksUnlinked
  pairs : ∀ p f, child p f ∈ s.blocks → (p, child p f) ∈ s.blocksUnlinked →
    s.Received (child p f) ∧ ¬ s.Linked (child p f)

theorem first_isNone :
    (b.first property).isNone = true ↔ ∀ a, Ancestor a b → property a = false := by
  rw [Option.isNone_iff_eq_none, first_eq_none]

theorem first_notValid :
    (b.first (s.notValid nUpTo)).isNone = true ↔
      ∀ p f, Ancestor (child p f) b → s.UpTo nUpTo (child p f) := by
  rw [first_isNone]
  constructor
  · intro all p f lt
    have here := all _ lt
    simp only [notValid, CBlockIndex.pprev, Option.isSome_some, Bool.true_and,
      decide_eq_false_iff_not, not_lt] at here
    exact here
  · intro all a lt
    cases a with
    | genesis f => rfl
    | child p f =>
      simp only [notValid, CBlockIndex.pprev, Option.isSome_some, Bool.true_and,
        decide_eq_false_iff_not, not_lt]
      exact all p f lt

/-- The oldest blocks that were never processed are those without data. -/
theorem complete_iff_first (data : ∀ b ∈ s.blocks, s.Received b ↔ (s.entry b).nTx ≠ 0)
    (closed : ∀ b ∈ s.blocks, ∀ a, Ancestor a b → a ∈ s.blocks) (mem : b ∈ s.blocks) :
    (b.first fun a => (s.entry a).nTx == 0).isNone = true ↔ s.Complete b := by
  rw [first_isNone]
  refine forall₂_congr fun a lt => ?_
  rw [data a (closed b mem a lt), beq_eq_false_iff_ne]

theorem sound_iff_first :
    (b.first fun a => (s.nStatus a).failedValid).isNone = true ↔ s.Sound b :=
  first_isNone

/-- What the assertions about one block say. -/
@[mk_iff asserted_iff]
structure Asserted (env : IndexEnv) (s : ChainstateManager) (tip b : CBlockIndex) : Prop where
  hash : b.pprev.isNone = true → b.getBlockHash env.hash = env.params.hashGenesisBlock
  active : b.pprev.isNone = true → tip.path[0]? = some b
  sequence : s.Linked b ∨ (s.entry b).nSequenceId ≤ 0
  data : ¬ s.Received b ↔ (s.entry b).nTx = 0
  missing : (b.first fun a => !(s.nStatus a).haveData) = b.first fun a => (s.entry a).nTx == 0
  undo : (s.nStatus b).haveUndo = true → s.Received b
  transactions : s.UpTo .transactions b ↔ (s.entry b).nTx ≠ 0
  processed : (b.first fun a => (s.entry a).nTx == 0).isNone = true ↔ s.Linked b
  valid : (∀ p f, Ancestor (child p f) b → s.UpTo .transactions (child p f)) ↔ s.Linked b
  height : b.path.length = b.nHeight + 1
  work : b.pprev.all (fun pprev => decide (b.nChainWork ≥ pprev.nChainWork)) = true
  skip : 2 ≤ b.nHeight → b.pskip.any (fun pskip => decide ¬ b.nHeight ≤ pskip.nHeight) = true
  tree : ∀ p f, Ancestor (child p f) b → s.UpTo .tree (child p f)
  chain : s.UpTo .chain b → ∀ p f, Ancestor (child p f) b → s.UpTo .chain (child p f)
  scripts : s.UpTo .scripts b → ∀ p f, Ancestor (child p f) b → s.UpTo .scripts (child p f)
  failed : s.Sound b → ¬ (s.nStatus b).failed = true
  counted : (s.entry b).nChainTx = ((s.entry b).nTx + s.prevChainTx b) % uintModulus ∨
    ((s.entry b).nChainTx = 0 ∧ (s.entry b).nTx = 0) ∨
    ((s.entry b).nChainTx = 0 ∧ s.prevChainTx b = 0 ∧ ¬ b.pprev.isNone = true)
  candidate : ¬ s.worse env b tip = true →
    (b.first fun a => (s.entry a).nTx == 0).isNone = true → s.Sound b →
    ((b.first fun a => !(s.nStatus a).haveData).isNone = true ∨ b = tip) →
      b ∈ s.setBlockIndexCandidates
  onlyCandidates : (¬ s.worse env b tip = true ∧
    (b.first fun a => (s.entry a).nTx == 0).isNone = true) ∨ b ∉ s.setBlockIndexCandidates
  waits : ¬ b.pprev.isNone = true → s.Received b →
    ¬ (b.first fun a => (s.entry a).nTx == 0).isNone = true → s.Sound b → s.foundInUnlinked b = true
  foundData : s.Received b ∨ ¬ s.foundInUnlinked b = true
  foundMissing : (b.first fun a => !(s.nStatus a).haveData).isNone = true →
    ¬ s.foundInUnlinked b = true
  nothingPruned : ¬ b.pprev.isNone = true → s.Received b →
    (b.first fun a => (s.entry a).nTx == 0).isNone = true →
      (b.first fun a => !(s.nStatus a).haveData).isNone = true

theorem assertions_iff :
    (∀ a ∈ s.assertions env tip b, a.2 = true) ↔ s.Asserted env tip b := by
  have sameBool : ∀ x y : Bool, (x == y) = true ↔ (x = true ↔ y = true) := by decide
  have noBool : ∀ x : Bool, (!x) = true ↔ ¬ x = true := by decide
  simp only [assertions, mem_cons, not_mem_nil, or_false, forall_eq_or_imp, forall_eq,
    sameBool, noBool,
    Bool.or_eq_true, beq_iff_eq, haveNumChainTxs_iff, decide_eq_true_eq, first_notValid, gt_iff_lt,
    ← Nat.not_le, Bool.and_eq_true, sound_iff_first, contains_iff_mem,
    ← Option.not_isNone, ← imp_iff_not_or, or_assoc, and_assoc]
  simp only [and_imp, not_and, not_not, Nat.le_zero]
  exact (asserted_iff env s tip b).symm

theorem checkBlockIndex_eq_ok_iff (isTip : s.tip = some tip) :
    s.checkBlockIndex env = .ok () ↔
      (s.blocks.filter (·.pprev.isNone)).length = 1 ∧
      (∀ b ∈ s.blocks, s.Asserted env tip b) ∧ ∀ b ∈ s.blocks, ∀ a, Ancestor a b →
        a ∈ s.blocks := by
  have reached : (s.blocks.all fun b => b.path.all fun a => s.blocks.contains a) = true ↔
      ∀ b ∈ s.blocks, ∀ a, Ancestor a b → a ∈ s.blocks := by
    simp only [all_eq_true, contains_iff_mem, mem_path]
  have asserted : (s.blocks.forM fun b => (s.assertions env tip b).forM fun a =>
      (assert a.2 a.1 : Except Fault Unit)) = .ok () ↔
      ∀ b ∈ s.blocks, s.Asserted env tip b := by
    simp only [forM_eq_ok, assert_eq_ok, assertions_iff]
  rw [checkBlockIndex, isTip]
  constructor
  · intro checked
    obtain ⟨⟨⟩, root, checked⟩ := bind_eq_ok.mp checked
    obtain ⟨⟨⟩, entries, visited⟩ := bind_eq_ok.mp checked
    exact ⟨beq_iff_eq.mp (assert_eq_ok.mp root), asserted.mp entries,
      reached.mp (assert_eq_ok.mp visited)⟩
  · rintro ⟨root, entries, visited⟩
    refine bind_eq_ok.mpr ⟨(), assert_eq_ok.mpr (beq_iff_eq.mpr root), ?_⟩
    refine bind_eq_ok.mpr ⟨(), asserted.mpr entries, ?_⟩
    exact assert_eq_ok.mpr (reached.mpr visited)

theorem foundInUnlinked_child :
    s.foundInUnlinked (child p f) = true ↔ (p, child p f) ∈ s.blocksUnlinked := by
  simp only [foundInUnlinked, CBlockIndex.pprev, contains_iff_mem]

theorem consistent_of_check (isTip : s.tip = some tip) (checked : s.checkBlockIndex env = .ok ()) :
    s.Consistent env tip := by
  obtain ⟨oneRoot, entries, closed⟩ := (checkBlockIndex_eq_ok_iff isTip).mp checked
  have data : ∀ b ∈ s.blocks, s.Received b ↔ (s.entry b).nTx ≠ 0 := fun b known =>
    (not_iff_comm.mp (entries b known).data).symm
  constructor
  case oneRoot => exact oneRoot
  case closed => exact fun p f known => closed _ known p (.step .refl)
  case genesisHash => exact fun f known => (entries _ known).hash rfl
  case genesisActive => exact fun f known => path_getElem?.mp ((entries _ known).active rfl)
  case genesisLinked => exact fun f known => (entries _ known).valid.mp nofun
  case sequence => exact fun b known unlinked => (entries b known).sequence.resolve_left unlinked
  case data => exact data
  case undo => exact fun b known => (entries b known).undo
  case transactions => exact fun b known => (entries b known).transactions
  case linked =>
    intro b known
    rw [← (entries b known).processed, complete_iff_first data closed known]
  case work => exact fun p f known => of_decide_eq_true (entries _ known).work
  case tree => exact fun p f known => (entries _ known).tree p f .refl
  case chain => exact fun b known => (entries b known).chain
  case scripts => exact fun b known => (entries b known).scripts
  case failed =>
    intro b known sound
    exact Bool.eq_false_iff.mpr ((entries b known).failed sound)
  case counted =>
    intro b known
    rw [← Option.not_isNone, Bool.not_eq_true', ← Bool.not_eq_true]
    exact (entries b known).counted
  case candidate =>
    intro b known good linked sound
    have processed := (entries b known).processed.mpr linked
    refine (entries b known).candidate (Bool.eq_false_iff.mp good) processed sound (.inl ?_)
    rw [(entries b known).missing, processed]
  case onlyCandidates =>
    intro b known mem
    obtain ⟨good, processed⟩ := (entries b known).onlyCandidates.resolve_right (not_not.mpr mem)
    exact ⟨Bool.eq_false_iff.mpr good, (entries b known).processed.mp processed⟩
  case waits =>
    intro p f known recv unlinked sound
    rw [← (entries _ known).processed] at unlinked
    exact foundInUnlinked_child.mp ((entries _ known).waits nofun recv unlinked sound)
  case pairs =>
    intro p f known pair
    have found := foundInUnlinked_child.mpr pair
    refine ⟨(entries _ known).foundData.resolve_right (not_not.mpr found), fun linked => ?_⟩
    rw [← (entries _ known).processed, ← (entries _ known).missing] at linked
    exact (entries _ known).foundMissing linked found

theorem Consistent.asserted (consistent : s.Consistent env tip) (known : b ∈ s.blocks) :
    s.Asserted env tip b := by
  have closed : ∀ b ∈ s.blocks, ∀ a, Ancestor a b → a ∈ s.blocks := fun b known a lt =>
    mem_blocks_of_ancestor consistent.closed known lt
  have data : ∀ a, Ancestor a b → (¬ s.Received a ↔ (s.entry a).nTx = 0) := fun a lt =>
    (not_iff_comm.mp (consistent.data a (closed b known a lt)).symm)
  have missing : (b.first fun a => !(s.nStatus a).haveData) =
      b.first fun a => (s.entry a).nTx == 0 := by
    refine first_congr fun a lt => ?_
    rw [Bool.eq_iff_iff, Bool.not_eq_true', beq_iff_eq, ← Bool.not_eq_true]
    exact data a lt
  have processed : (b.first fun a => (s.entry a).nTx == 0).isNone = true ↔ s.Linked b :=
    (complete_iff_first consistent.data closed known).trans (consistent.linked b known).symm
  have found (inSet : s.foundInUnlinked b = true) : s.Received b ∧ ¬ s.Linked b := by
    cases b with
    | genesis f => cases inSet
    | child p f => exact consistent.pairs p f known (foundInUnlinked_child.mp inSet)
  constructor
  case hash =>
    intro root
    cases b with
    | genesis f => exact consistent.genesisHash f known
    | child p f => cases root
  case active =>
    intro root
    cases b with
    | genesis f => exact path_getElem?.mpr (consistent.genesisActive f known)
    | child p f => cases root
  case sequence => exact or_iff_not_imp_left.mpr (consistent.sequence b known)
  case data => exact data b .refl
  case missing => exact missing
  case undo => exact consistent.undo b known
  case transactions => exact consistent.transactions b known
  case processed => exact processed
  case valid =>
    rw [consistent.linked b known]
    constructor
    · intro all a lt
      have inIdx := closed b known a lt
      cases a with
      | genesis f =>
        exact (consistent.linked _ inIdx).mp (consistent.genesisLinked f inIdx) _ .refl
      | child p f =>
        exact (consistent.data _ inIdx).mpr
          ((consistent.transactions _ inIdx).mp (all p f lt))
    · intro complete p f lt
      have inIdx := closed b known _ lt
      exact (consistent.transactions _ inIdx).mpr
        ((consistent.data _ inIdx).mp (complete _ lt))
  case height => exact b.length_path
  case work =>
    cases b with
    | genesis f => rfl
    | child p f => exact decide_eq_true (consistent.work p f known)
  case skip =>
    intro high
    cases b with
    | genesis f => simp at high
    | child p f =>
      have lower : getSkipHeight (p.nHeight + 1) < p.nHeight + 1 :=
        getSkipHeight_lt (Nat.succ_pos _)
      obtain ⟨a, found, -, height⟩ := getAncestor_isSome
        (Int.natCast_nonneg (getSkipHeight (p.nHeight + 1))) (b := p) (by omega)
      rw [pskip, found, Option.any_some]
      exact decide_eq_true (by rw [nHeight_child]; omega)
  case tree => exact fun p f lt => consistent.tree p f (closed b known _ lt)
  case chain => exact consistent.chain b known
  case scripts => exact consistent.scripts b known
  case failed => exact fun sound => Bool.eq_false_iff.mp (consistent.failed b known sound)
  case counted =>
    have counted := consistent.counted b known
    rwa [← Option.not_isNone, Bool.not_eq_true', ← Bool.not_eq_true] at counted
  case candidate =>
    intro good complete sound _
    exact consistent.candidate b known (Bool.eq_false_iff.mpr good) (processed.mp complete) sound
  case onlyCandidates =>
    rw [or_iff_not_imp_right, not_not, processed]
    intro mem
    obtain ⟨good, linked⟩ := consistent.onlyCandidates b known mem
    exact ⟨Bool.eq_false_iff.mp good, linked⟩
  case waits =>
    intro notRoot recv incomplete sound
    rw [processed] at incomplete
    cases b with
    | genesis f => exact absurd rfl notRoot
    | child p f =>
      exact foundInUnlinked_child.mpr (consistent.waits p f known recv incomplete sound)
  case foundData => exact or_iff_not_imp_right.mpr fun inSet => (found (not_not.mp inSet)).1
  case foundMissing =>
    rw [missing, processed]
    exact fun linked inSet => (found inSet).2 linked
  case nothingPruned => exact fun _ _ complete => missing ▸ complete

theorem Consistent.check (consistent : s.Consistent env tip) (isTip : s.tip = some tip) :
    s.checkBlockIndex env = .ok () :=
  (checkBlockIndex_eq_ok_iff isTip).mpr ⟨consistent.oneRoot, fun _ known => consistent.asserted known,
    fun _ known _ lt => mem_blocks_of_ancestor consistent.closed known lt⟩

end ChainstateManager

end HobbyHash
