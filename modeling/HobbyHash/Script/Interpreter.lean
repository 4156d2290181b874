import HobbyHash.Validation.Script

/-! # The interpreter's condition stack and its deletion of signatures

`EvalScript` keeps a boolean for every open conditional and asks only whether there is one
and whether all are true. `ConditionStack` stores their number and the position of the first
false one, and agrees with the vector while the number fits into its 32 bits. `FindAndDelete`
takes the copies of a signature out of a script where it is read as operations.
-/

namespace HobbyHash.Script

open Machine Validation List

def noFalse : UInt32 := 0xffffffff

structure ConditionStack where
  stackSize : UInt32 := 0
  firstFalsePos : UInt32 := noFalse

inductive StackOp where
  | pushBack (f : Bool)
  | popBack
  | toggleTop

def ConditionStack.empty (s : ConditionStack) : Bool := s.stackSize = 0

def ConditionStack.allTrue (s : ConditionStack) : Bool := s.firstFalsePos = noFalse

def ConditionStack.apply (s : ConditionStack) : StackOp → Except Fault ConditionStack
  | .pushBack f =>
    .ok { stackSize := s.stackSize + 1
          firstFalsePos :=
            if s.firstFalsePos = noFalse ∧ f = false then s.stackSize else s.firstFalsePos }
  | .popBack => do
    assert (s.stackSize > 0) "m_stack_size > 0"
    let stackSize := s.stackSize - 1
    return { stackSize
             firstFalsePos := if s.firstFalsePos = stackSize then noFalse else s.firstFalsePos }
  | .toggleTop => do
    assert (s.stackSize > 0) "m_stack_size > 0"
    let firstFalsePos :=
      if s.firstFalsePos = noFalse then s.stackSize - 1
      else if s.firstFalsePos = s.stackSize - 1 then noFalse
      else s.firstFalsePos
    return { s with firstFalsePos }

/-- The operations on a vector of booleans, its back first. -/
def StackOp.apply : List Bool → StackOp → Option (List Bool)
  | v, .pushBack f => some (f :: v)
  | _ :: v, .popBack => some v
  | f :: v, .toggleTop => some ((!f) :: v)
  | [], _ => none

/-- The operations, as long as the number of elements fits into 32 bits. -/
def StackOp.applyWithin (v : List Bool) (op : StackOp) : Option (List Bool) :=
  (apply v op).filter (·.length < 2 ^ 32)

def firstFalse : List Bool → Nat
  | [] => noFalse.toNat
  | f :: v => if firstFalse v = noFalse.toNat ∧ f = false then v.length else firstFalse v

structure Represents (s : ConditionStack) (v : List Bool) : Prop where
  size : s.stackSize.toNat = v.length
  first : s.firstFalsePos.toNat = firstFalse v

theorem firstFalse_cases (lt : v.length < 2 ^ 32) :
    firstFalse v = noFalse.toNat ∧ v.all id = true ∨
      firstFalse v < v.length ∧ v.all id = false := by
  induction v with
  | nil => exact .inl ⟨rfl, rfl⟩
  | cons f v ih =>
    rw [length_cons] at lt
    rw [firstFalse, length_cons, all_cons]
    obtain ⟨none, all⟩ | ⟨less, some⟩ := ih (by omega)
    · cases f <;> simp [none, all]
    · have ne : firstFalse v ≠ 2 ^ 32 - 1 := by omega
      exact .inr ⟨by rw [if_neg fun h => ne h.1]; omega, by rw [some, Bool.and_false]⟩

theorem Represents.apply (rep : Represents s v) (applied : op.apply v = some v')
    (lt : v'.length < 2 ^ 32) : ∃ s', s.apply op = .ok s' ∧ Represents s' v' := by
  obtain ⟨size, first⟩ := rep
  match v, op with
  | v, .pushBack f =>
    cases applied
    refine ⟨_, rfl, ?_, ?_⟩
    · rw [UInt32.toNat_add, size]
      exact Nat.mod_eq_of_lt lt
    · simp only [← UInt32.toNat_inj, first, firstFalse]
      split
      · exact size
      · exact first
  | f :: v, .popBack | f :: v, .toggleTop =>
    have bound := s.stackSize.toNat_lt
    rw [length_cons] at size
    rw [firstFalse] at first
    have pos : assert (s.stackSize > 0) "m_stack_size > 0" = .ok () := by
      simp [assert_eq_ok, UInt32.lt_iff_toNat_lt, size]
    have one : (1 : UInt32) ≤ s.stackSize := by simp [UInt32.le_iff_toNat_le, size]
    have less : (s.stackSize - 1).toNat = v.length := by
      rw [UInt32.toNat_sub_of_le _ _ one, size]
      rfl
    have found := firstFalse_cases (v := v) (by omega)
    cases applied
    refine ⟨_, bind_eq_ok.mpr ⟨(), pos, rfl⟩, ?_, ?_⟩
    · simp [size, less]
    · simp only [← UInt32.toNat_inj, first, less, firstFalse]
      cases f <;> grind

theorem Represents.run {ops : List StackOp} (rep : Represents s v)
    (ran : ops.foldlM StackOp.applyWithin v = some w) :
    ∃ s', ops.foldlM ConditionStack.apply s = .ok s' ∧ Represents s' w := by
  induction ops generalizing s v with
  | nil =>
    cases ran
    exact ⟨s, rfl, rep⟩
  | cons op ops ih =>
    obtain ⟨v', applied, later⟩ := Option.bind_eq_some_iff.mp ran
    obtain ⟨applied, lt⟩ := Option.filter_eq_some_iff.mp applied
    obtain ⟨s', isNext, next⟩ := rep.apply applied (of_decide_eq_true lt)
    obtain ⟨s'', reached, last⟩ := ih next later
    exact ⟨s'', bind_eq_ok.mpr ⟨s', isNext, reached⟩, last⟩

/-- The stack answers like the vector, while the number of elements fits into 32 bits. -/
theorem conditionStack_agrees {ops : List StackOp} {v : List Bool}
    (ran : ops.foldlM StackOp.applyWithin [] = some v) :
    ∃ s, ops.foldlM ConditionStack.apply {} = .ok s ∧ s.empty = v.isEmpty ∧
      s.allTrue = v.all id := by
  obtain ⟨s, reached, rep⟩ := Represents.run (s := {}) ⟨rfl, rfl⟩ ran
  have lt := s.stackSize.toNat_lt
  rw [rep.size] at lt
  refine ⟨s, reached, ?_, ?_⟩
  · rw [ConditionStack.empty, Bool.eq_iff_iff, decide_eq_true_iff, List.isEmpty_iff,
      ← length_eq_zero_iff, ← UInt32.toNat_inj, rep.size]
    rfl
  rw [ConditionStack.allTrue, Bool.eq_iff_iff, decide_eq_true_iff, ← UInt32.toNat_inj, rep.first]
  have none : noFalse.toNat = 2 ^ 32 - 1 := rfl
  obtain ⟨all, isAll⟩ | ⟨less, some⟩ := firstFalse_cases lt
  · exact iff_of_true all isAll
  · exact iff_of_false (by omega) (by simp [some])

theorem conditionStack_agrees_toggled : ∃ s,
    [.pushBack true, .pushBack false, .toggleTop].foldlM ConditionStack.apply {} = .ok s ∧
      s.empty = false ∧ s.allTrue = true :=
  conditionStack_agrees (v := [true, true]) rfl

theorem pushes (n : Nat) :
    (replicate n (.pushBack true)).foldlM StackOp.apply [] = some (replicate n true) ∧
    (replicate n (.pushBack true)).foldlM ConditionStack.apply {} = .ok ⟨.ofNat n, noFalse⟩ := by
  induction n with
  | zero => exact ⟨rfl, rfl⟩
  | succ n ih =>
    rw [replicate_succ', foldlM_append, foldlM_append, ih.1, ih.2, UInt32.ofNat_add]
    exact ⟨rfl, rfl⟩

theorem conditionStack_wraps : ∃ (ops : List StackOp) (v : List Bool) (s : ConditionStack),
    ops.foldlM StackOp.apply [] = some v ∧ ops.foldlM ConditionStack.apply {} = .ok s ∧
      s.empty ≠ v.isEmpty := by
  obtain ⟨n, zero, pos⟩ : ∃ n, UInt32.ofNat n = 0 ∧ n ≠ 0 := ⟨2 ^ 32, by decide, by decide⟩
  obtain ⟨vector, stack⟩ := pushes n
  exact ⟨_, _, _, vector, stack, by simp [ConditionStack.empty, zero, pos]⟩

/-- The inner loop. The count is an `int`. -/
def dropCopies (b : CScript) (nFound : Int) (pc : CScript) : Except Fault (Int × CScript) :=
  if b ≠ [] ∧ b <+: pc then do
    let nFound ← int (nFound + 1)
    dropCopies b nFound (pc.drop b.length)
  else .ok (nFound, pc)
termination_by pc.length
decreasing_by
  have := length_pos_iff.mpr (And.left ‹_›)
  have := (And.right ‹b ≠ [] ∧ b <+: pc›).length_le
  grind

theorem getOp_consumes (read : getOp pc = some (x, rest)) : ∃ op ≠ [], pc = op ++ rest := by
  rw [getOp] at read
  split at read
  · exact ⟨opBytes x, by simp [opBytes], (format_op.only read).2⟩
  · cases read

theorem dropCopies_length (dropped : dropCopies b nFound pc = .ok (n, rest)) :
    rest.length ≤ pc.length := by
  fun_induction dropCopies b nFound pc with
  | case1 nFound pc found ih =>
    obtain ⟨count, -, dropped⟩ := bind_eq_ok.mp dropped
    exact (ih count dropped).trans (by simp)
  | case2 nFound pc found =>
    cases dropped
    rfl

/-- The outer loop: the number of copies, the bytes kept and where the rest begins. -/
def deleteFrom (b : CScript) (nFound : Int) (result pc2 pc : CScript) :
    Except Fault (Int × CScript × CScript) :=
  let result := result ++ pc2.take (pc2.length - pc.length)
  match _dropped : dropCopies b nFound pc with
  | .error fault => .error fault
  | .ok (nFound, pc) =>
    match _read : getOp pc with
    | some (_, next) => deleteFrom b nFound result pc next
    | none => .ok (nFound, result, pc)
termination_by pc.length
decreasing_by
  obtain ⟨op, ne, same⟩ := getOp_consumes _read
  have le := dropCopies_length _dropped
  have := length_pos_iff.mpr ne
  grind

def findAndDelete (script b : CScript) : Except Fault (Int × CScript) :=
  if b = [] then .ok (0, script)
  else do
    let (nFound, result, pc2) ← deleteFrom b 0 [] script script
    if nFound > 0 then return (nFound, result ++ pc2) else return (nFound, script)

/-- Copies are removed at the start and after each operation, up to the first one that cannot
    be read. -/
inductive Deleted (b : CScript) : CScript → Nat → CScript → Prop
  | stop {n rest} : ¬ b <+: rest → getOp rest = none →
    Deleted b ((replicate n b).flatten ++ rest) n rest
  | step {n op rest m out x} : ¬ b <+: op ++ rest → getOp (op ++ rest) = some (x, rest) →
    Deleted b rest m out →
    Deleted b ((replicate n b).flatten ++ (op ++ rest)) (n + m) (op ++ out)

theorem dropCopies_copies {nFound : Nat} (ne : b ≠ []) (isLast : ¬ b <+: rest) :
    dropCopies b nFound ((replicate n b).flatten ++ rest) =
      if n = 0 ∨ nFound + n < 2 ^ 31 then .ok ((nFound + n : Nat), rest)
      else .error .signedOverflow := by
  induction n generalizing nFound with
  | zero =>
    rw [dropCopies, if_neg fun found => isLast found.2]
    rfl
  | succ n ih =>
    rw [replicate_succ, flatten_cons, append_assoc, dropCopies, if_pos ⟨ne, prefix_append _ _⟩,
      drop_left]
    by_cases fits : nFound + 1 < 2 ^ 31
    · rw [int_ok (show IsInt (nFound + 1) from ⟨by omega, by omega⟩)]
      refine (@ih (nFound + 1)).trans ?_
      rw [Nat.add_right_comm, ← Nat.add_assoc]
      exact if_congr (by omega) rfl rfl
    · rw [int, if_neg (fun range => fits (by have := range.2; omega)), if_neg (by omega)]
      rfl

theorem exists_copies (ne : b ≠ []) (pc : CScript) :
    ∃ n rest, pc = (replicate n b).flatten ++ rest ∧ ¬ b <+: rest := by
  induction len : pc.length using Nat.strong_induction_on generalizing pc with | _ len ih
  by_cases found : b <+: pc
  · obtain ⟨tail, rfl⟩ := found
    have := length_pos_iff.mpr ne
    obtain ⟨n, rest, rfl, isLast⟩ := ih tail.length (by grind) tail rfl
    exact ⟨n + 1, rest, by rw [replicate_succ, flatten_cons, append_assoc], isLast⟩
  · exact ⟨0, pc, rfl, found⟩

theorem exists_deleted (ne : b ≠ []) (script : CScript) : ∃ n out, Deleted b script n out := by
  induction len : script.length using Nat.strong_induction_on generalizing script with | _ len ih
  obtain ⟨n, rest, rfl, isLast⟩ := exists_copies ne script
  cases read : getOp rest with
  | none => exact ⟨_, _, .stop isLast read⟩
  | some found =>
    obtain ⟨op, nonempty, rfl⟩ := getOp_consumes read
    have := length_pos_iff.mpr nonempty
    obtain ⟨m, out, later⟩ := ih found.2.length (by grind) _ rfl
    exact ⟨_, _, .step isLast read later⟩

theorem le_length_copies (ne : b ≠ []) : n ≤ ((replicate n b).flatten).length := by
  rw [length_flatten, map_replicate, sum_replicate]
  exact Nat.le_mul_of_pos_right n (length_pos_iff.mpr ne)

theorem count_le_length (ne : b ≠ []) (deleted : Deleted b script n out) : n ≤ script.length := by
  induction deleted with
  | stop => exact (le_length_copies ne).trans (by simp)
  | @step n op rest m =>
    have := le_length_copies (n := n) ne
    simp only [length_append]
    omega

theorem deleteFrom_eq (copies : dropCopies b nFound pc = .ok (n, rest)) :
    deleteFrom b nFound result (front ++ pc) pc =
      match getOp rest with
      | some (_, next) => deleteFrom b n (result ++ front) rest next
      | none => .ok (n, result ++ front, rest) := by
  rw [deleteFrom]
  split <;> simp_all
  split <;> simp_all

theorem deleteFrom_deleted {nFound : Nat} (ne : b ≠ []) (deleted : Deleted b pc n out)
    (fits : nFound + n < 2 ^ 31) :
    ∃ kept rest, deleteFrom b nFound result (front ++ pc) pc
      = .ok ((nFound + n : Nat), kept, rest) ∧
      kept ++ rest = result ++ front ++ out := by
  induction deleted generalizing nFound result front with
  | stop isLast read =>
    rw [deleteFrom_eq ((dropCopies_copies ne isLast).trans (if_pos (.inr fits))), read]
    exact ⟨_, _, rfl, rfl⟩
  | @step n op next m out x isLast read deleted ih =>
    rw [deleteFrom_eq ((dropCopies_copies ne isLast).trans
      (if_pos (.inr (show nFound + n < 2 ^ 31 by omega)))), read]
    obtain ⟨kept, rest, reached, whole⟩ := @ih _ _ (nFound + n) (by omega)
    exact ⟨kept, rest, reached.trans (by rw [Nat.add_assoc]), by rw [whole, append_assoc]⟩

theorem occurs_of_deleted (deleted : Deleted b script n out) :
    n = 0 ∧ out = script ∨ n ≠ 0 ∧ b <:+: script := by
  induction deleted with
  | @stop n rest isLast read =>
    cases n with
    | zero => exact .inl ⟨rfl, rfl⟩
    | succ n => exact .inr ⟨by simp, [], (replicate n b).flatten ++ rest, by simp [replicate_succ]⟩
  | @step n op rest m out x isLast read deleted ih =>
    cases n with
    | zero =>
      obtain ⟨rfl, rfl⟩ | ⟨ne, occurs⟩ := ih
      · exact .inl ⟨rfl, rfl⟩
      · exact .inr ⟨by simp [ne], occurs.trans ⟨op, [], by simp⟩⟩
    | succ n =>
      exact .inr ⟨by simp, [], (replicate n b).flatten ++ (op ++ rest), by simp [replicate_succ]⟩

theorem findAndDelete_deleted (short : script.length < 2 ^ 31) (ne : b ≠ [])
    (deleted : Deleted b script n out) : findAndDelete script b = .ok (n, out) := by
  have fits := (count_le_length ne deleted).trans_lt short
  obtain ⟨kept, rest, reached, whole⟩ :=
    @deleteFrom_deleted _ _ _ _ [] [] 0 ne deleted (by omega)
  rw [nil_append, Nat.zero_add] at reached
  rw [findAndDelete, if_neg ne]
  refine (congrArg (· >>= _) reached).trans ?_
  obtain ⟨rfl, rfl⟩ | ⟨found, -⟩ := occurs_of_deleted deleted
  · rfl
  · refine (if_pos (show (n : Int) > 0 by omega)).trans ?_
    rw [whole]
    rfl

/-- The copies at the places where operations begin are removed, and only these, in a script
    of fewer than 2^31 bytes. -/
theorem findAndDelete_exact (script b : CScript) (short : script.length < 2 ^ 31) :
    (b ≠ [] → ∀ n out, findAndDelete script b = .ok ((n : Nat), out) ↔ Deleted b script n out) ∧
    (b = [] ∨ ¬ b <:+: script → findAndDelete script b = .ok (0, script)) ∧
    ∃ n out, findAndDelete script b = .ok ((n : Nat), out) ∧ (n = 0 → out = script) := by
  by_cases empty : b = []
  · have same : findAndDelete script b = .ok (0, script) := if_pos empty
    exact ⟨fun ne => absurd empty ne, fun _ => same, 0, script, same, fun _ => rfl⟩
  obtain ⟨m, kept, deleted⟩ := exists_deleted empty script
  have found := findAndDelete_deleted short empty deleted
  refine ⟨fun ne n out => ⟨fun same => ?_, findAndDelete_deleted short ne⟩, fun unchanged => ?_,
    m, kept, found, fun none => ?_⟩
  · obtain ⟨count, rfl⟩ : m = n ∧ kept = out := by simpa using found.symm.trans same
    exact count ▸ deleted
  · obtain ⟨rfl, rfl⟩ | ⟨-, occurs⟩ := occurs_of_deleted deleted
    · exact found
    · simp [empty, occurs] at unchanged
  · obtain ⟨-, same⟩ | ⟨some, -⟩ := occurs_of_deleted deleted
    · exact same
    · exact absurd none some

/-- Two copies at the start and one at the end go, the one that is pushed as data stays. -/
theorem findAndDelete_exact_pushed :
    findAndDelete [0xac, 0xac, 1, 0xac, 0xac] [0xac] = .ok (3, [1, 0xac]) := by
  refine ((findAndDelete_exact _ _ (by decide)).1 (by decide) 3 _).mpr ?_
  exact @Deleted.step _ 2 [1, 0xac] _ _ _ _ (by decide) rfl
    (@Deleted.stop _ 1 [] (by decide) rfl)

theorem findAndDelete_copies (many : 2 ^ 31 ≤ n) :
    findAndDelete ((replicate n [0xac]).flatten ++ []) [0xac] = .error .signedOverflow := by
  have dropped : dropCopies [0xac] (0 : Nat) ((replicate n [0xac]).flatten ++ [])
      = .error .signedOverflow := by
    rw [dropCopies_copies (by simp) (by simp), if_neg (by omega)]
  have stopped : deleteFrom [0xac] 0 [] ((replicate n [0xac]).flatten ++ [])
      ((replicate n [0xac]).flatten ++ []) = .error .signedOverflow := by
    rw [deleteFrom]
    split <;> simp_all
  rw [findAndDelete, if_neg (by simp), stopped]
  rfl

/-- The count of 2^31 copies is no `int`. -/
theorem findAndDelete_overflows : ∃ script : CScript, script.length = 2 ^ 31 ∧
    findAndDelete script [0xac] = .error .signedOverflow := by
  obtain ⟨n, many, same⟩ : ∃ n, 2 ^ 31 ≤ n ∧ n = 2 ^ 31 := ⟨2 ^ 31, le_refl _, rfl⟩
  refine ⟨_, ?_, findAndDelete_copies many⟩
  rw [append_nil, length_flatten, map_replicate, sum_replicate, same]
  rfl

end HobbyHash.Script
