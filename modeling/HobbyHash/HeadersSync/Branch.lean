import HobbyHash.HeadersSync.State
import HobbyHash.Library.Sampling

/-! # Headers on top of the chain start

The abstract side of a sync: a list of headers is a branch that grows from the
chain start. Height, hash, difficulty and work of its tip are those of the block
index it ends in, so what the sync keeps in separate members is one value here.
-/

namespace HobbyHash

open ArithUint256 List

variable (header : CBlockHeader)

namespace CBlockIndex

/-- The branch that ends in `b` with headers added on top. -/
def extend (b : CBlockIndex) : List CBlockHeader → CBlockIndex
  | [] => b
  | header :: rest => (child b header.toHeaderFields).extend rest

variable (b : CBlockIndex)

@[simp] theorem extend_nil : b.extend [] = b := rfl

@[simp] theorem extend_cons (rest : List CBlockHeader) :
    b.extend (header :: rest) = (child b header.toHeaderFields).extend rest := rfl

theorem extend_append (headers later : List CBlockHeader) :
    b.extend (headers ++ later) = (b.extend headers).extend later := by
  induction headers generalizing b with
  | nil => rfl
  | cons header rest ih => exact ih _

variable (headers : List CBlockHeader)

theorem nHeight_extend :
    (b.extend headers).nHeight = b.nHeight + headers.length := by
  induction headers generalizing b with
  | nil => rfl
  | cons header rest ih =>
    rw [extend_cons, ih, nHeight_child, length_cons]
    omega

/-- The work of headers, as a number of any size. -/
def headersWork : Nat :=
  (headers.map fun header => getBlockProof header.nBits).sum

theorem headersWork_append (headers later : List CBlockHeader) :
    headersWork (headers ++ later) = headersWork headers + headersWork later := by
  simp only [headersWork, map_append, sum_append]

theorem getBlockProof_lt (nBits : UInt32) : getBlockProof nBits < modulus := by
  simp only [getBlockProof]
  split
  · exact Nat.two_pow_pos 256
  · exact Nat.mod_lt _ (Nat.two_pow_pos 256)

theorem nChainWork_lt : b.nChainWork < modulus := by
  cases b with
  | genesis f => exact getBlockProof_lt _
  | child p f => exact Nat.mod_lt _ (Nat.two_pow_pos 256)

theorem nChainWork_extend :
    (b.extend headers).nChainWork = (b.nChainWork + headersWork headers) % modulus := by
  induction headers generalizing b with
  | nil => exact (Nat.mod_eq_of_lt b.nChainWork_lt).symm
  | cons header rest ih =>
    rw [extend_cons, ih, nChainWork, Nat.mod_add_mod, Nat.add_assoc]
    rfl

theorem nBits_getBlockHeader (getHash : CBlockHeader → Uint256) (b : CBlockIndex) :
    (b.getBlockHeader getHash).nBits = b.nBits := by
  cases b <;> rfl

theorem getBlockHeader_child {header : CBlockHeader}
    (connects : header.hashPrevBlock = tip.getBlockHash getHash) :
    (child tip header.toHeaderFields).getBlockHeader getHash = header := by
  cases header
  cases connects
  rfl

end CBlockIndex

namespace HeadersSync

open CBlockIndex Library.Sampling

variable (sync : HeadersSync)

/-- The headers continue the branch that ends in `tip`: each names the one before
    it, and the difficulty it states is permitted after that one at its height. -/
def Continues (tip : CBlockIndex) : List CBlockHeader → Prop
  | [] => True
  | header :: rest =>
    header.hashPrevBlock = tip.getBlockHash sync.getHash ∧
    Pow.permittedDifficultyTransition sync.consensusParams (tip.nHeight + 1 : Nat) tip.nBits
      header.nBits = .ok true ∧
    Continues (.child tip header.toHeaderFields) rest

theorem continues_append (tip : CBlockIndex) (headers later : List CBlockHeader) :
    sync.Continues tip (headers ++ later) ↔
      sync.Continues tip headers ∧ sync.Continues (tip.extend headers) later := by
  induction headers generalizing tip with
  | nil => simp only [nil_append, Continues, extend_nil, true_and]
  | cons header rest ih =>
    simp only [cons_append, Continues, extend_cons, ih]
    constructor
    · rintro ⟨connects, permitted, inner, outer⟩
      exact ⟨⟨connects, permitted, inner⟩, outer⟩
    · rintro ⟨⟨connects, permitted, inner⟩, outer⟩
      exact ⟨connects, permitted, inner, outer⟩

variable (headers : List CBlockHeader)

def branch : CBlockIndex :=
  sync.chainStart.extend headers

def commitments : List Bool :=
  samples sync.Commits sync.commitment (sync.chainStart.nHeight + 1) headers

/-- The total work of the branch, of which `nChainWork` keeps 256 bits. -/
def totalWork : Nat :=
  sync.chainStart.nChainWork + headersWork headers

theorem branch_append (headers later : List CBlockHeader) :
    sync.branch (headers ++ later) = (sync.branch headers).extend later :=
  extend_append _ _ _

theorem branch_concat :
    sync.branch (headers ++ [header]) = .child (sync.branch headers) header.toHeaderFields :=
  sync.branch_append headers [header]

theorem nHeight_branch :
    (sync.branch headers).nHeight = sync.chainStart.nHeight + headers.length :=
  nHeight_extend _ _

theorem commitments_append (headers later : List CBlockHeader) :
    sync.commitments (headers ++ later) = sync.commitments headers ++
      samples sync.Commits sync.commitment ((sync.branch headers).nHeight + 1) later := by
  rw [nHeight_branch, Nat.add_right_comm]
  exact samples_append _ _ _ _ _

theorem commitments_concat :
    sync.commitments (headers ++ [header]) = sync.commitments headers ++
      if sync.Commits ((sync.branch headers).nHeight + 1) then [sync.commitment header] else [] :=
  sync.commitments_append headers [header]

theorem totalWork_append (headers later : List CBlockHeader) :
    sync.totalWork (headers ++ later) = sync.totalWork headers + headersWork later := by
  rw [totalWork, headersWork_append, ← Nat.add_assoc]
  rfl

theorem totalWork_mono (headers later : List CBlockHeader) :
    sync.totalWork headers ≤ sync.totalWork (headers ++ later) := by
  rw [totalWork_append]
  exact Nat.le_add_right _ _

theorem getBlockHeader_branch_concat {headers : List CBlockHeader} {header : CBlockHeader}
    (more : sync.Continues sync.chainStart (headers ++ [header])) :
    (sync.branch (headers ++ [header])).getBlockHeader sync.getHash = header := by
  have last := ((sync.continues_append _ _ _).mp more).2
  rw [branch_concat]
  exact getBlockHeader_child last.1

end HeadersSync

end HobbyHash
