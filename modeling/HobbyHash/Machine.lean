import HobbyHash.Library.Ensures
import Mathlib.Algebra.Order.Ring.Int

/-! # Signed machine arithmetic and abnormal ends

Amounts, times and heights are mathematical integers in the model. An operation
of the source that is undefined outside its type is a checked operation here: it
returns a `Fault` instead of a wrapped number, so "nothing overflows" is a
statement about results and not an assumption of the model.
-/

namespace HobbyHash.Machine

open Library

/-- Ways in which the program stops other than by returning. -/
inductive Fault where
  /-- A signed 64-bit operation whose exact result does not fit. -/
  | signedOverflow
  /-- Integer division by zero, or `uint_error("Division by zero")`. -/
  | divisionByZero
  | assertion (condition : String)
  /-- An exception that the modelled code does not catch. -/
  | exception (what : String)
  deriving DecidableEq, Repr

variable {bad : Fault → Prop} {x : Int}

def IsInt64 (x : Int) : Prop :=
  -2 ^ 63 ≤ x ∧ x < 2 ^ 63

instance (x : Int) : Decidable (IsInt64 x) :=
  inferInstanceAs (Decidable (_ ∧ _))

/-- The exact result of a signed 64-bit operation, when it is one. -/
def int64 (x : Int) : Except Fault Int :=
  if IsInt64 x then .ok x else .error .signedOverflow

def IsInt (x : Int) : Prop :=
  -2 ^ 31 ≤ x ∧ x < 2 ^ 31

instance (x : Int) : Decidable (IsInt x) :=
  inferInstanceAs (Decidable (_ ∧ _))

/-- The exact result of an operation on `int`, when it is one. -/
def int (x : Int) : Except Fault Int :=
  if IsInt x then .ok x else .error .signedOverflow

def divInt64 (a b : Int) : Except Fault Int :=
  if b = 0 then .error .divisionByZero else int64 (a.tdiv b)

def modInt64 (a b : Int) : Except Fault Int :=
  if b = 0 then .error .divisionByZero else .ok (a.tmod b)

def assert (condition : Bool) (text : String) : Except Fault Unit :=
  if condition then .ok () else .error (.assertion text)

theorem toOption_eq_some {ε α : Type} {value : Except ε α} {res : α} :
    value.toOption = some res ↔ value = .ok res := by
  cases value with
  | error fault => simp [Except.toOption]
  | ok a => simp [Except.toOption]

theorem ok_bind {ε α β : Type} (a : α) (next : α → Except ε β) : (Except.ok a >>= next) = next a :=
  rfl

theorem bind_eq_ok {ε α β : Type} {value : Except ε α} {next : α → Except ε β} {res : β} :
    (value >>= next) = .ok res ↔ ∃ a, value = .ok a ∧ next a = .ok res := by
  cases value with
  | error fault =>
    constructor
    · nofun
    · rintro ⟨a, ret, -⟩
      cases ret
  | ok a =>
    constructor
    · intro run
      exact ⟨a, rfl, run⟩
    · rintro ⟨b, ret, run⟩
      cases ret
      exact run

theorem assert_eq_ok {cond text} :
    assert cond text = .ok () ↔ cond = true := by
  cases cond with
  | false => exact iff_of_false (by rintro ⟨⟩) Bool.false_ne_true
  | true => exact iff_of_true rfl rfl

theorem forM_eq_ok {ε α : Type} {l : List α} {f : α → Except ε Unit} :
    l.forM f = .ok () ↔ ∀ a ∈ l, f a = .ok () := by
  induction l with
  | nil => exact iff_of_true rfl nofun
  | cons a rest ih =>
    change (f a >>= fun _ => rest.forM f) = .ok () ↔ _
    rw [bind_eq_ok, List.forall_mem_cons, ← ih]
    constructor
    · rintro ⟨⟨⟩, here, later⟩
      exact ⟨here, later⟩
    · rintro ⟨here, later⟩
      exact ⟨(), here, later⟩

theorem foldlM_mono {ε α β : Type} {f g : β → α → Except ε β} {l : List α} {b r : β}
    (rounds : ∀ b a c, f b a = .ok c → g b a = .ok c) (run : l.foldlM f b = .ok r) :
    l.foldlM g b = .ok r := by
  induction l generalizing b with
  | nil => exact run
  | cons a rest ih =>
    obtain ⟨next, here, later⟩ := bind_eq_ok.mp run
    exact bind_eq_ok.mpr ⟨next, rounds b a next here, ih later⟩

theorem int64_ok (range : IsInt64 x) : int64 x = .ok x :=
  if_pos range

theorem int_ok (range : IsInt x) : int x = .ok x :=
  if_pos range

theorem ensures_int64 (range : bad .signedOverflow → IsInt64 x) :
    Ensures bad (int64 x) (· = x) := by
  rw [int64]
  split
  · exact .pure rfl
  · exact .fail (mt range ‹_›)

theorem ensures_int (range : bad .signedOverflow → IsInt x) :
    Ensures bad (int x) (· = x) := by
  rw [int]
  split
  · exact .pure rfl
  · exact .fail (mt range ‹_›)

theorem ensures_divInt64 (ne : bad .divisionByZero → b ≠ 0)
    (range : bad .signedOverflow → IsInt64 (a.tdiv b)) :
    Ensures bad (divInt64 a b) (· = a.tdiv b) := by
  rw [divInt64]
  split
  · exact .fail (mt ne (not_not.mpr ‹_›))
  · exact ensures_int64 range

theorem modInt64_ok (ne : b ≠ 0) : modInt64 a b = .ok (a.tmod b) :=
  if_neg ne

theorem divInt64_of_nonneg (le : 0 ≤ a) (lt : a < 2 ^ 63) (pos : 0 < b) :
    divInt64 a b = .ok (a / b) := by
  have quotient : a.tdiv b = a / b := Int.tdiv_eq_ediv_of_nonneg le
  have lower : 0 ≤ a / b := Int.ediv_nonneg le (Int.le_of_lt pos)
  have upper : a / b ≤ a := Int.ediv_le_self b le
  rw [← quotient] at lower upper ⊢
  rw [divInt64, if_neg (Int.ne_of_gt pos), int64_ok ⟨by omega, by omega⟩]

end HobbyHash.Machine
