import HobbyHash.MerkleBlock

/-! # What a sender puts into a partial merkle tree

The other side of `CPartialMerkleTree`: the constructor walks the tree of a list of
transactions and writes the bits and hashes that `ExtractMatches` reads. Both
recursions visit the same nodes in the same order, so each node can be read back
from what was written for it, whatever follows. For the network the bits are packed
into bytes; the padding of the last byte is all that the receiver sees of that.
-/

namespace HobbyHash.Merkle

open Validation CPartialMerkleTree List Extraction

variable (bits : List Bool)

def bitsToBytes (bits : List Bool) : List UInt8 :=
  bits.zipIdx.foldl
    (fun ret bit => ret.modify (bit.2 / 8) (· ||| UInt8.ofNat (bit.1.toNat <<< (bit.2 % 8))))
    (List.replicate ((bits.length + 7) / 8) 0)

def bytesToBits (bytes : List UInt8) : List Bool :=
  (List.range (bytes.length * 8)).map fun p =>
    bytes[p / 8]?.any fun byte => byte.toNat &&& (1 <<< (p % 8)) ≠ 0

section Packing

variable {bytes : List UInt8} {p : Nat}

/-- The bit at a position of some bytes. -/
def bitAt (bytes : List UInt8) (p : Nat) : Bool :=
  bytes[p / 8]?.any fun byte => byte.toNat.testBit (p % 8)

theorem bytesToBits_eq : bytesToBits bytes = (List.range (bytes.length * 8)).map (bitAt bytes) := by
  refine map_congr_left fun p _ => ?_
  rw [bitAt]
  congr 1
  funext byte
  rw [Nat.one_shiftLeft, Nat.and_two_pow]
  cases byte.toNat.testBit (p % 8) <;> simp

theorem testBit_or_ofNat (byte : UInt8) (bit : Bool) (p q : Nat) :
    (byte ||| UInt8.ofNat (bit.toNat <<< (q % 8))).toNat.testBit (p % 8)
      = (byte.toNat.testBit (p % 8) || (bit && decide (q % 8 = p % 8))) := by
  cases bit with
  | false => simp
  | true =>
    have lt : 2 ^ (q % 8) < 256 :=
      Nat.pow_lt_pow_right (by decide) (Nat.mod_lt _ (by decide) : q % 8 < 8)
    rw [UInt8.toNat_or, Nat.testBit_or, Bool.toNat_true, Nat.one_shiftLeft,
      UInt8.toNat_ofNat_of_lt' lt, Nat.testBit_two_pow, Bool.true_and]

theorem bitAt_modify (bit : Bool) (q : Nat) (lt : p / 8 < bytes.length) :
    bitAt (bytes.modify (q / 8) (· ||| UInt8.ofNat (bit.toNat <<< (q % 8)))) p
      = (bitAt bytes p || (bit && decide (q = p))) := by
  simp only [bitAt, getElem?_modify, getElem?_eq_getElem lt]
  by_cases byte : q / 8 = p / 8
  · have same : q % 8 = p % 8 ↔ q = p := by omega
    simp only [byte, ↓reduceIte, Option.map_eq_map, Option.map_some, Option.any_some,
      testBit_or_ofNat, same]
  · have ne : q ≠ p := fun same => byte (by rw [same])
    simp [byte, ne]

theorem bitAt_foldl (start : Nat) (lt : p / 8 < bytes.length) :
    bitAt ((bits.zipIdx start).foldl (fun ret bit =>
        ret.modify (bit.2 / 8) (· ||| UInt8.ofNat (bit.1.toNat <<< (bit.2 % 8)))) bytes) p
      = (bitAt bytes p || (decide (start ≤ p) && bits[p - start]?.getD false)) := by
  induction bits generalizing start bytes with
  | nil => simp
  | cons bit bits ih =>
    rw [zipIdx_cons, foldl_cons, ih _ (by rwa [length_modify]),
      bitAt_modify bit start lt, Bool.or_assoc]
    congr 1
    obtain before | rfl | after := Nat.lt_trichotomy p start
    · have ne : start ≠ p := by omega
      have less : ¬ start + 1 ≤ p := by omega
      simp [ne, less, before]
    · simp
    · have ne : start ≠ p := by omega
      have later : p - start = p - (start + 1) + 1 := by omega
      simp [ne, after, after.le, later]

theorem length_bitsToBytes :
    (bitsToBytes bits).length = (bits.length + 7) / 8 := by
  have kept : ∀ (l : List (Bool × Nat)) (bytes : List UInt8), (l.foldl (fun ret bit =>
      ret.modify (bit.2 / 8) (· ||| UInt8.ofNat (bit.1.toNat <<< (bit.2 % 8)))) bytes).length
        = bytes.length := by
    intro l
    induction l with
    | nil => exact fun _ => rfl
    | cons bit l ih => exact fun bytes => (ih _).trans (length_modify ..)
  rw [bitsToBytes, kept, length_replicate]

/-- Packing and unpacking pads with zeros to full bytes. -/
theorem bytesToBits_bitsToBytes :
    bytesToBits (bitsToBytes bits)
      = bits ++ List.replicate ((bits.length + 7) / 8 * 8 - bits.length) false := by
  rw [bytesToBits_eq, length_bitsToBytes]
  refine ext_getElem (by simp; omega) fun p lt _ => ?_
  rw [length_map, length_range] at lt
  have packed : bitAt (bitsToBytes bits) p = bits[p]?.getD false := by
    have inBytes : p / 8 < (replicate ((bits.length + 7) / 8) (0 : UInt8)).length := by
      rw [length_replicate]
      omega
    rw [bitsToBytes, bitAt_foldl bits 0 inBytes, bitAt, getElem?_eq_getElem inBytes]
    simp
  simp only [getElem_map, getElem_range, packed, getElem_append]
  split <;> rename_i short
  · simp [short]
  · simp [getElem?_eq_none (Nat.le_of_not_lt short)]

end Packing

variable {α : Type} {β : Type}

def under (entries : List β) (height pos : Nat) : List β :=
  (entries.drop (pos * 2 ^ height)).take (2 ^ height)

namespace CPartialMerkleTree

section Build

variable (hash : α → α → α) (vTxid : List α) (vMatch : List Bool)

/-- `CalcHash`; nothing for a read beyond the vector. -/
def calcHash (tree : CPartialMerkleTree α) : Nat → Nat → Option α
  | 0, pos => vTxid[pos]?
  | height + 1, pos => do
    let left ← calcHash tree height (pos * 2)
    let right ←
      if pos * 2 + 1 < tree.calcTreeWidth height then calcHash tree height (pos * 2 + 1)
      else some left
    return hash left right

/-- `TraverseAndBuild`, with a match vector of `nTransactions` entries. -/
def traverseAndBuild : Nat → Nat → CPartialMerkleTree α → Option (CPartialMerkleTree α)
  | height, pos, tree =>
    let fParentOfMatch := (under vMatch height pos).any id
    let tree := { tree with vBits := tree.vBits ++ [fParentOfMatch] }
    let store : Option (CPartialMerkleTree α) := do
      let stored ← tree.calcHash hash vTxid height pos
      return { tree with vHash := tree.vHash ++ [stored] }
    match height with
    | 0 => store
    | height + 1 =>
      if !fParentOfMatch then store
      else do
        let tree ← traverseAndBuild height (pos * 2) tree
        if pos * 2 + 1 < tree.calcTreeWidth height then
          traverseAndBuild height (pos * 2 + 1) tree
        else return tree

/-- The constructor from the transactions of a block. -/
def build : Option (CPartialMerkleTree α) :=
  let tree := { nTransactions := vTxid.length, vBits := [], vHash := [] }
  traverseAndBuild hash vTxid vMatch (tree.findHeight 0) 0 tree

end Build

/-- The bits behind the constructor as they arrive over the network. -/
def transmitted (tree : CPartialMerkleTree α) : CPartialMerkleTree α :=
  { tree with vBits := bytesToBits (bitsToBytes tree.vBits) }

end CPartialMerkleTree

def matched (vTxid : List α) (vMatch : List Bool) : List (α × Nat) :=
  ((vTxid.zipIdx.zip vMatch).filter (·.2)).map (·.1)

section Under

theorem under_succ (entries : List β) (height pos : Nat) :
    under entries (height + 1) pos
      = under entries height (pos * 2) ++ under entries height (pos * 2 + 1) := by
  have here : pos * 2 ^ (height + 1) = pos * 2 * 2 ^ height := by rw [Nat.pow_succ']; ring
  rw [under, under, under, Nat.pow_succ, Nat.mul_two, take_add, drop_drop,
    ← Nat.mul_two, ← Nat.pow_succ, here, Nat.add_mul, Nat.one_mul]

theorem under_map (f : α → β) (entries : List α) (height pos : Nat) :
    under (entries.map f) height pos = (under entries height pos).map f := by
  simp only [under, map_take, map_drop]

theorem lt_calcTreeWidth_iff (tree : CPartialMerkleTree α) (height pos : Nat) :
    pos < tree.calcTreeWidth height ↔ pos * 2 ^ height < tree.nTransactions := by
  rw [calcTreeWidth, Nat.lt_iff_add_one_le,
    Nat.le_div_iff_mul_le (Nat.two_pow_pos height), Nat.add_mul, Nat.one_mul]
  have positive := Nat.two_pow_pos height
  omega

end Under

section Complete

variable {null : α} {hash : α → α → α} {vTxid : List α} {vMatch : List Bool}
  {tree : CPartialMerkleTree α} {height pos : Nat}

variable (hash) in
theorem length_levelAt (size : tree.nTransactions = vTxid.length) (height : Nat) :
    (levelAt hash vTxid height).length = tree.calcTreeWidth height := by
  induction height with
  | zero => simp [levelAt, calcTreeWidth, size]
  | succ height ih => rw [levelAt, length_nextLevel, ih, calcTreeWidth_succ]

theorem calcHash_eq (size : tree.nTransactions = vTxid.length) (height pos : Nat) :
    tree.calcHash hash vTxid height pos = (levelAt hash vTxid height)[pos]? := by
  induction height generalizing pos with
  | zero => rfl
  | succ height ih =>
    rw [calcHash, levelAt, getElem?_nextLevel, ih, ih,
      ← length_levelAt hash size]
    cases (levelAt hash vTxid height)[pos * 2]? with
    | none => rfl
    | some left =>
      by_cases more : pos * 2 + 1 < (levelAt hash vTxid height).length
      · simp [more]
      · simp [more]

theorem nodup_nextLevel (inj : Function.Injective2 hash) (ne : hashes.Nodup) :
    (nextLevel hash hashes).Nodup := by
  have children : ∀ (rest : List α) (node : α), node ∈ nextLevel hash rest →
      ∃ left ∈ rest, ∃ right, node = hash left right := by
    intro rest node mem
    obtain ⟨pos, found⟩ := mem_iff_getElem?.mp mem
    rw [getElem?_nextLevel, Option.map_eq_some_iff] at found
    obtain ⟨left, isLeft, rfl⟩ := found
    exact ⟨left, mem_of_getElem? isLeft, _, rfl⟩
  induction hashes using twoStepInduction with
  | nil => simp
  | singleton a => simp
  | cons_cons a b rest ih _ =>
    simp only [nodup_cons, mem_cons, not_or] at ne
    rw [nextLevel_cons_cons, nodup_cons]
    refine ⟨fun again => ?_, ih ne.2.2⟩
    obtain ⟨left, mem, right, same⟩ := children rest _ again
    obtain ⟨rfl, rfl⟩ := inj same
    exact ne.1.2 mem

theorem nodup_levelAt (inj : Function.Injective2 hash) (ne : vTxid.Nodup)
    (height : Nat) : (levelAt hash vTxid height).Nodup := by
  induction height with
  | zero => exact ne
  | succ height ih => exact nodup_nextLevel inj ih

/-- After some bits and hashes were read, and some matches found. -/
def Extraction.advance (s : Extraction α) (bits hashes : Nat) (found : List (α × Nat)) :
    Extraction α :=
  { s with
    nBitsUsed := s.nBitsUsed + bits
    nHashUsed := s.nHashUsed + hashes
    vMatch := s.vMatch ++ found.map (·.1)
    vnIndex := s.vnIndex ++ found.map (·.2) }

theorem advance_advance (s : Extraction α) (a b c d : Nat) (found more : List (α × Nat)) :
    (s.advance a b found).advance c d more = s.advance (a + c) (b + d) (found ++ more) := by
  simp [advance, Nat.add_assoc]

theorem next_of_drop {l more : List β} (next : l.drop n = b :: more) :
    l[n]? = some b ∧ l.drop (n + 1) = more := by
  constructor
  · rw [← head?_drop, next]
    rfl
  · rw [← tail_drop, next]
    rfl

theorem drop_of_append {l front back : List β} (next : l.drop n = front ++ back) :
    l.drop (n + front.length) = back := by
  rw [← drop_drop, next, drop_left]

theorem takeHash_eq (null : α) (pos : Nat) (isMatch : Bool)
    (next : tree.vHash.drop s.nHashUsed = stored :: more) :
    tree.takeHash null isMatch pos s
      = (stored, s.advance 0 1 (if isMatch then [(stored, pos)] else [])) := by
  rw [takeHash, (next_of_drop next).1]
  cases isMatch <;> simp [advance]

variable [DecidableEq α]

/-- What is written for a node can be read back, whatever is written behind it. -/
structure Stored (null : α) (hash : α → α → α) (vTxid : List α) (vMatch : List Bool)
    (height pos : Nat) (bits : List Bool) (hashes : List α) : Prop where
  few : hashes.length ≤ (under vTxid height pos).length
  flagged : hashes.length ≤ bits.length
  read : ∀ (received : CPartialMerkleTree α) (s : Extraction α) (moreBits : List Bool)
    (moreHashes : List α), received.nTransactions = vTxid.length →
    received.vBits.drop s.nBitsUsed = bits ++ moreBits →
    received.vHash.drop s.nHashUsed = hashes ++ moreHashes →
    ∃ node, (levelAt hash vTxid height)[pos]? = some node ∧
      received.traverseAndExtract null hash height pos s
      = (node, s.advance bits.length hashes.length
        (((under (vTxid.zipIdx.zip vMatch) height pos).filter (·.2)).map (·.1)))

/-- A node that is not opened: a leaf, or nothing is matched under it. -/
theorem stored_closed (isNode : (levelAt hash vTxid height)[pos]? = some node)
    (ne : 1 ≤ (under vTxid height pos).length) (closed : height = 0 ∨ flag = false)
    (found : ((under (vTxid.zipIdx.zip vMatch) height pos).filter (·.2)).map (·.1)
      = if flag then [(node, pos)] else []) :
    Stored null hash vTxid vMatch height pos [flag] [node] := by
  refine ⟨ne, Nat.le_refl _, fun recv s moreBits moreHashes size bits hashes => ?_⟩
  obtain ⟨bit, -⟩ := next_of_drop bits
  have taken := takeHash_eq null pos (s := s.advance 1 0 []) flag hashes
  have opened : { s with nBitsUsed := s.nBitsUsed + 1 } = s.advance 1 0 [] := by
    simp [advance]
  refine ⟨node, isNode, ?_⟩
  rw [found, traverseAndExtract, bit]
  cases height with
  | zero =>
    simp only [opened]
    rw [taken, advance_advance]
    rfl
  | succ height =>
    obtain rfl := closed.resolve_left (by simp)
    simp only [opened, Bool.not_false, if_true]
    rw [taken, advance_advance]
    rfl

/-- A node with matches under it is read through its children. -/
theorem Stored.opened (inj : Function.Injective2 hash) (ne : vTxid.Nodup)
    (left : Stored null hash vTxid vMatch height (pos * 2) leftBits leftHashes) (bits : List Bool)
    (hashes : List α) (right : if pos * 2 + 1 < (levelAt hash vTxid height).length then
      Stored null hash vTxid vMatch height (pos * 2 + 1) bits hashes
      else bits = [] ∧ hashes = [] ∧ under (vTxid.zipIdx.zip vMatch) height (pos * 2 + 1) = []) :
    Stored null hash vTxid vMatch (height + 1) pos (true :: (leftBits ++ bits))
      (leftHashes ++ hashes) := by
  constructor
  case few =>
    rw [under_succ, length_append, length_append]
    refine Nat.add_le_add left.few ?_
    split at right
    · exact right.few
    · simp [right.2.1]
  case flagged =>
    rw [length_cons, length_append, length_append]
    have leftFlagged := left.flagged
    split at right
    · have rightFlagged := right.flagged
      omega
    · simp only [right.1, right.2.1, length_nil]
      omega
  case read =>
    intro recv s moreBits moreHashes size bitsNext hashesNext
    rw [cons_append, append_assoc] at bitsNext
    rw [append_assoc] at hashesNext
    obtain ⟨bit, bitsNext⟩ := next_of_drop bitsNext
    have opened : { s with nBitsUsed := s.nBitsUsed + 1 } = s.advance 1 0 [] := by
      simp [advance]
    obtain ⟨leftNode, isLeft, readLeft⟩ :=
      left.read recv (s.advance 1 0 []) _ _ size bitsNext hashesNext
    rw [advance_advance] at readLeft
    rw [levelAt, getElem?_nextLevel, isLeft, traverseAndExtract, bit]
    simp only [opened, Bool.not_true, Bool.false_eq_true, if_false, readLeft,
      ← length_levelAt hash size, under_succ, filter_append, map_append,
      length_cons, length_append]
    split at right
    · rename_i more
      obtain ⟨rightNode, isRight, readRight⟩ := right.read recv
        (s.advance (1 + leftBits.length) (0 + leftHashes.length)
          ([] ++ ((under (vTxid.zipIdx.zip vMatch) height (pos * 2)).filter (·.2)).map (·.1))) _ _ size
        (by simpa [advance, Nat.add_assoc] using drop_of_append bitsNext)
        (by simpa [advance] using drop_of_append hashesNext)
      have apart : rightNode ≠ leftNode := by
        rintro rfl
        have same := (getElem?_inj more (nodup_levelAt inj ne height)).mp
          (isRight.trans isLeft.symm)
        omega
      refine ⟨hash leftNode rightNode, by simp [isRight], ?_⟩
      rw [if_pos more]
      simp only [readRight, advance_advance, apart, decide_false, Bool.or_false]
      simp [advance]
      omega
    · rename_i last
      obtain ⟨rfl, rfl, nothing⟩ := right
      refine ⟨hash leftNode leftNode, by simp [getElem?_eq_none (Nat.le_of_not_lt last)], ?_⟩
      rw [if_neg last]
      simp [advance, nothing]
      omega

omit [DecidableEq α] in
theorem findHeight_congr {other : CPartialMerkleTree α}
    (eq : other.nTransactions = tree.nTransactions) (height : Nat) :
    other.findHeight height = tree.findHeight height := by
  have width : other.calcTreeWidth = tree.calcTreeWidth := by
    funext height
    rw [calcTreeWidth, calcTreeWidth, eq]
  induction height using findHeight.induct tree with
  | case1 height wide ih =>
    rw [findHeight, width, if_pos wide, ih]
    conv_rhs => rw [findHeight, if_pos wide]
  | case2 height narrow =>
    rw [findHeight, width, if_neg narrow, findHeight,
      if_neg narrow]

theorem under_zero (lt : pos < entries.length) :
    under entries 0 pos = [entries[pos]] := by
  rw [under, Nat.pow_zero, Nat.mul_one, drop_eq_getElem_cons lt]
  rfl

theorem traverseAndBuild_stored (null : α) (inj : Function.Injective2 hash)
    (ne : vTxid.Nodup) (eq : vMatch.length = vTxid.length)
    (size : tree.nTransactions = vTxid.length) (lt : pos < tree.calcTreeWidth height) :
    ∃ bits hashes, tree.traverseAndBuild hash vTxid vMatch height pos
        = some { tree with vBits := tree.vBits ++ bits, vHash := tree.vHash ++ hashes } ∧
      Stored null hash vTxid vMatch height pos bits hashes := by
  induction height generalizing pos tree with
  | zero =>
    have inList : pos < vTxid.length := by
      rw [lt_calcTreeWidth_iff, size] at lt
      simpa using lt
    have inMatch : pos < vMatch.length := eq ▸ inList
    refine ⟨[vMatch[pos]], [vTxid[pos]], ?_, stored_closed ?_ ?_ (.inl rfl) ?_⟩
    · simp [traverseAndBuild, calcHash, under_zero inMatch,
        inList]
    · exact getElem?_eq_getElem inList
    · rw [under_zero inList]
      exact Nat.le_refl _
    · rw [under_zero (by simp [inList, inMatch])]
      cases flag : vMatch[pos] <;> simp [flag]
  | succ height ih =>
    rw [traverseAndBuild]
    cases flag : (under vMatch (height + 1) pos).any id with
    | false =>
      obtain ⟨node, isNode⟩ : ∃ node, (levelAt hash vTxid (height + 1))[pos]? = some node :=
        ⟨_, getElem?_eq_getElem (by rwa [length_levelAt hash size])⟩
      refine ⟨[false], [node], ?_, stored_closed isNode ?_ (.inr rfl) ?_⟩
      · rw [Bool.not_false, if_pos rfl, calcHash_eq (by exact size), isNode]
        rfl
      · rw [lt_calcTreeWidth_iff, size] at lt
        have positive := Nat.two_pow_pos (height + 1)
        simp only [under, length_take, length_drop]
        omega
      · have flags : vMatch = (vTxid.zipIdx.zip vMatch).map (·.2) :=
          (map_snd_zip (by simp [eq])).symm
        rw [flags, under_map, any_map] at flag
        simpa [filter_eq_nil_iff] using flag
    | true =>
      rw [calcTreeWidth_succ] at lt
      have here : pos * 2 < tree.calcTreeWidth height := by omega
      obtain ⟨leftBits, leftHashes, built, left⟩ :=
        @ih { tree with vBits := tree.vBits ++ [true] } (pos * 2) size here
      simp only [Bool.not_true, Bool.false_eq_true, if_false, built, Option.bind_eq_bind,
        Option.bind_some]
      by_cases more : pos * 2 + 1 < tree.calcTreeWidth height
      · obtain ⟨bits, hashes, rebuilt, right⟩ := @ih { tree with
          vBits := tree.vBits ++ [true] ++ leftBits
          vHash := tree.vHash ++ leftHashes } (pos * 2 + 1) size more
        refine ⟨_, _, ?_, left.opened inj ne bits hashes ?_⟩
        · refine (if_pos more).trans (rebuilt.trans ?_)
          simp
        · rwa [if_pos (by rwa [length_levelAt hash size])]
      refine ⟨_, _, ?_, left.opened inj ne [] [] ?_⟩
      · refine (if_neg more).trans ?_
        simp
      rw [if_neg (by rwa [length_levelAt hash size])]
      rw [lt_calcTreeWidth_iff, size] at more
      refine ⟨rfl, rfl, ?_⟩
      simp only [under, take_eq_nil_iff, drop_eq_nil_iff, length_zip,
        length_zipIdx]
      exact .inr (by omega)

variable (null hash) in
theorem levelAt_findHeight (size : tree.nTransactions = vTxid.length) (ne : vTxid ≠ []) :
    levelAt hash vTxid (tree.findHeight 0) = [root null hash vTxid] := by
  have from_height : ∀ height, levelAt hash vTxid height ≠ [] →
      levelAt hash vTxid (tree.findHeight height)
        = [root null hash (levelAt hash vTxid height)] := by
    intro height
    induction height using findHeight.induct tree with
    | case1 height wide ih =>
      intro ne
      have above : root null hash (levelAt hash vTxid height)
          = root null hash (levelAt hash vTxid (height + 1)) :=
        root_of_long (by rwa [length_levelAt hash size])
      rw [findHeight, if_pos wide, ih (nextLevel_ne_nil hash ne), above]
    | case2 height narrow =>
      intro ne
      rw [findHeight, if_neg narrow]
      rw [← length_levelAt hash size] at narrow
      obtain ⟨a, single⟩ := List.length_eq_one_iff.mp
        (Nat.le_antisymm (Nat.le_of_not_lt narrow) (List.length_pos_iff.mpr ne))
      rw [single, root_singleton]
  exact from_height 0 ne

/-- Partial merkle trees are complete: the receiver computes the root of the whole list
    and finds exactly the matched ids, with the bits as they were built or as they arrive. -/
theorem build_complete (null : α) (injective : Function.Injective2 hash) (vTxid : List α)
    (vMatch : List Bool) (distinct : vTxid.Nodup) (nonempty : 1 ≤ vTxid.length)
    (few : vTxid.length ≤ maxBlockWeight / minTransactionWeight)
    (lengths : vMatch.length = vTxid.length) :
    ∃ tree, build hash vTxid vMatch = some tree ∧
      ∀ received ∈ [tree, tree.transmitted], received.extractMatches null hash =
        (root null hash vTxid, (matched vTxid vMatch).map (·.1), (matched vTxid vMatch).map (·.2)) := by
  let empty : CPartialMerkleTree α := { nTransactions := vTxid.length, vBits := [], vHash := [] }
  have size : empty.nTransactions = vTxid.length := rfl
  have top := levelAt_findHeight null hash size (length_pos_iff.mp nonempty)
  have width : empty.calcTreeWidth (empty.findHeight 0) = 1 := by
    rw [← length_levelAt hash size, top]
    rfl
  have whole : ∀ entries : List ((α × Nat) × Bool), entries.length ≤ vTxid.length →
      under entries (empty.findHeight 0) 0 = entries := by
    intro entries short
    have all := (lt_calcTreeWidth_iff empty (empty.findHeight 0) 1).not.mp (by omega)
    rw [under, Nat.zero_mul, drop_zero, take_of_length_le (by omega)]
  obtain ⟨bits, hashes, built, stored⟩ := traverseAndBuild_stored null injective distinct lengths
    size (Nat.lt_of_lt_of_eq Nat.zero_lt_one width.symm)
  have received : ∀ (received : CPartialMerkleTree α) (padding : List Bool),
      received.nTransactions = vTxid.length → received.vBits = bits ++ padding →
      received.vHash = hashes → (bits.length + 7) / 8 = (bits.length + padding.length + 7) / 8 →
      received.extractMatches null hash = (root null hash vTxid,
        (matched vTxid vMatch).map (·.1), (matched vTxid vMatch).map (·.2)) := by
    intro received padding receivedSize receivedBits receivedHashes bytes
    obtain ⟨node, isNode, read⟩ := stored.read received {} padding [] receivedSize
      receivedBits (by rw [append_nil]; exact receivedHashes)
    have isRoot : root null hash vTxid = node := by simpa [top] using isNode
    have short : (under vTxid (empty.findHeight 0) 0).length ≤ vTxid.length := by simp [under]
    have fewer := stored.few
    have flagged := stored.flagged
    rw [extractMatches, findHeight_congr (receivedSize.trans size.symm), read, receivedSize,
      receivedBits,
      receivedHashes, if_neg (by omega), if_neg (by omega), if_neg (by omega),
      if_neg (by rw [length_append]; omega), isRoot]
    simp [advance, whole (vTxid.zipIdx.zip vMatch) (by simp), matched]
    omega
  refine ⟨_, built, fun tree member => ?_⟩
  obtain rfl | rfl := mem_pair.mp member
  · exact received _ [] rfl (append_nil _).symm rfl rfl
  · refine received _ _ rfl (bytesToBits_bitsToBytes bits) rfl ?_
    rw [length_replicate]
    omega

theorem build_complete_three :
    ∃ tree, build FreeHash.pair [.leaf 1, .leaf 2, .leaf 3] [false, false, true]
        = some tree ∧
      ∀ received ∈ [tree, tree.transmitted], received.extractMatches (.leaf 0) .pair =
        (.pair (.pair (.leaf 1) (.leaf 2)) (.pair (.leaf 3) (.leaf 3)), [.leaf 3], [2]) := by
  have complete := build_complete (FreeHash.leaf 0) FreeHash.pair_injective
    [.leaf 1, .leaf 2, .leaf 3] [false, false, true] (by decide) (by decide) (by decide) rfl
  have isRoot : root (FreeHash.leaf 0) .pair [.leaf 1, .leaf 2, .leaf 3]
      = .pair (.pair (.leaf 1) (.leaf 2)) (.pair (.leaf 3) (.leaf 3)) := by decide +kernel
  rwa [isRoot] at complete

end Complete

end HobbyHash.Merkle
