import HobbyHash.Library.OrderStatistic

/-! # Sequences that outrun a sliding median

A window holds the last values of a sequence, newest first, and each new value has
to exceed the median of the window. Such a sequence rises: in a window of `2k + 1`
values, `k + 1` new ones lift the median by one. Taking the least value every time
gives the slowest rise there is, and from a window without a value above its
median it is exactly this slow.
-/

namespace HobbyHash.Library.MedianWindow

open OrderStatistic List Nat

/-- The entry in the middle of the sorted window. -/
def median (w : List Int) : Int :=
  (kthSmallest w (w.length / 2)).getD 0

def push (size : Nat) (w : List Int) (t : Int) : List Int :=
  (t :: w).take size

/-- Each value exceeds the median of the window before it. -/
def Rising (size : Nat) : List Int → List Int → Prop
  | _, [] => True
  | w, t :: rest => median w < t ∧ Rising size (push size w t) rest

def slowest (size : Nat) : List Int → Nat → List Int
  | _, 0 => []
  | w, n + 1 => (median w + 1) :: slowest size (push size w (median w + 1)) n

variable {size : Nat} {w : List Int} {t v : Int}

theorem length_slowest (size : Nat) (w : List Int) (n : Nat) : (slowest size w n).length = n := by
  induction n generalizing w with
  | zero => rfl
  | succ n ih => exact congrArg (· + 1) (ih _)

theorem slowest_rising (size : Nat) (w : List Int) (n : Nat) :
    Rising size w (slowest size w n) := by
  induction n generalizing w with
  | zero => trivial
  | succ n ih => exact ⟨Int.lt_succ _, ih _⟩

theorem kthSmallest_median (ne : w ≠ []) :
    kthSmallest w (w.length / 2) = some (median w) := by
  have lt : w.length / 2 < w.length :=
    div_lt_self (length_pos_of_ne_nil ne) (lt_succ_self 1)
  obtain ⟨m, found⟩ := kthSmallest_isSome lt
  rw [found, median, found]
  rfl

theorem median_le_iff (ne : w ≠ []) : median w ≤ v ↔ w.length / 2 < w.countP (· ≤ v) :=
  kthSmallest_le_iff (kthSmallest_median ne) v

theorem lt_median_iff (ne : w ≠ []) : v < median w ↔ w.countP (· ≤ v) ≤ w.length / 2 :=
  lt_kthSmallest_iff (kthSmallest_median ne) v

theorem median_mono (le : List.Forall₂ (· ≤ ·) w w') : median w ≤ median w' := by
  by_cases empty : w = []
  · subst empty
    cases le
    exact le_rfl
  have ne : w' ≠ [] := by
    rintro rfl
    cases le
    exact empty rfl
  have least := kthSmallest_median empty
  rw [le.length_eq] at least
  exact kthSmallest_mono le least (kthSmallest_median ne)

/-- No rising sequence has a smaller value anywhere. -/
theorem slowest_le (le : List.Forall₂ (· ≤ ·) w w') (rising : Rising size w' ts) :
    List.Forall₂ (· ≤ ·) (slowest size w ts.length) ts := by
  induction ts generalizing w w' with
  | nil => exact .nil
  | cons t rest ih =>
    have first : median w + 1 ≤ t := Int.add_one_le_of_lt ((median_mono le).trans_lt rising.1)
    exact .cons first (ih (forall₂_take size (.cons first le)) rising.2)

/-- What holds of every value of a rising sequence and of smaller ones holds of the
    least values. -/
theorem slowest_all (P : Int → Prop) (rising : Rising size w ts) (down : ∀ x y, x ≤ y → P y → P x)
    (all : ∀ t ∈ ts, P t) :
    ∀ t ∈ slowest size w ts.length, P t := by
  have le := slowest_le (forall₂_refl w) rising
  generalize slowest size w ts.length = least at le
  clear rising
  induction le with
  | nil => exact all
  | cons head _ ih =>
    obtain ⟨first, rest⟩ := forall_mem_cons.mp all
    exact forall_mem_cons.mpr ⟨down _ _ head first, ih rest⟩

theorem length_push (size : Nat) (w : List Int) (t : Int) :
    (push size w t).length = min size (w.length + 1) := by
  rw [push, length_take, length_cons]

theorem push_ne_nil (size : Nat) (w : List Int) (t : Int) : push (size + 1) w t ≠ [] :=
  cons_ne_nil _ _

theorem median_le_push (ne : w ≠ []) (fits : w.length ≤ size + 1) (lt : median w < t) :
    median w ≤ median (push (size + 1) w t) := by
  by_contra lower
  have lower := Int.not_le.mp lower
  have few := (lt_median_iff ne).mp lower
  have many := (median_le_iff (push_ne_nil size w t)).mp le_rfl
  have le : (push (size + 1) w t).countP (· ≤ median (push (size + 1) w t)) ≤
      w.countP (· ≤ median (push (size + 1) w t)) := by
    refine (List.Sublist.countP_le (take_sublist _ _)).trans_eq ?_
    apply countP_cons_of_neg
    rw [decide_eq_true_eq]
    omega
  rw [length_push] at many
  omega

/-- The median is at least `c`, and of the window's `2k + 1` places the newest `r`
    hold values above it. -/
structure Lifted (k : Nat) (c : Int) (r : Nat) (w : List Int) : Prop where
  nonempty : w ≠ []
  fits : w.length ≤ 2 * k + 1
  few : r ≤ k
  enough : r ≤ w.length
  median : c ≤ median w
  newest : ∀ x ∈ w.take r, c < x

variable {k r : Nat} {c : Int}

private theorem Lifted.newest_push (lifted : Lifted k c r w) (lt : MedianWindow.median w < t) :
    ∀ x ∈ (push (2 * k + 1) w t).take (r + 1), c < x := by
  intro x mem
  have le : r ≤ 2 * k := by
    have := lifted.few
    omega
  rw [push, take_take, min_eq_left (succ_le_succ le), take_succ_cons] at mem
  obtain rfl | older := mem_cons.mp mem
  · exact lifted.median.trans_lt lt
  · exact lifted.newest x older

theorem Lifted.next (lifted : Lifted k c r w) (room : r < k) (lt : MedianWindow.median w < t) :
    Lifted k c (r + 1) (push (2 * k + 1) w t) where
  nonempty := push_ne_nil _ _ _
  fits := by rw [length_push]; omega
  few := room
  enough := by
    have := lifted.enough
    rw [length_push]
    omega
  median := lifted.median.trans (median_le_push lifted.nonempty lifted.fits lt)
  newest := lifted.newest_push lt

theorem Lifted.lift (lifted : Lifted k c k w) (lt : MedianWindow.median w < t) :
    Lifted k (c + 1) 0 (push (2 * k + 1) w t) where
  nonempty := push_ne_nil _ _ _
  fits := by rw [length_push]; omega
  few := zero_le _
  enough := zero_le _
  median := by
    apply (lt_median_iff (push_ne_nil _ _ _)).mpr
    have length := length_push (2 * k + 1) w t
    have le : (push (2 * k + 1) w t).countP (· ≤ c) ≤
        ((push (2 * k + 1) w t).drop (k + 1)).length := by
      rw [← take_append_drop (k + 1) (push (2 * k + 1) w t), countP_append,
        countP_eq_zero.mpr fun x mem => by
          have := lifted.newest_push lt x mem
          rw [decide_eq_true_eq]
          omega]
      rw [Nat.zero_add, take_append_drop]
      exact countP_le_length
    rw [length_drop] at le
    omega
  newest x mem := by cases mem

private theorem carry_div (r i : Nat) : (r + (i + 1)) / (r + 1) = i / (r + 1) + 1 := by
  rw [show r + (i + 1) = i + (r + 1) by omega, add_div_right _ (succ_pos r)]

theorem rising_lower (lifted : Lifted k c r w) (rising : Rising (2 * k + 1) w ts)
    (there : ts[i]? = some t) : c + ((r + i) / (k + 1) : Nat) < t := by
  induction ts generalizing w c r i with
  | nil => simp at there
  | cons first rest ih =>
    obtain ⟨above, onward⟩ := rising
    cases i with
    | zero =>
      obtain rfl : first = t := by simpa using there
      rw [Nat.add_zero, Nat.div_eq_of_lt (Nat.lt_succ_of_le lifted.few), Int.natCast_zero,
        Int.add_zero]
      exact lifted.median.trans_lt above
    | succ i =>
      have later : rest[i]? = some t := by simpa using there
      obtain room | full := lifted.few.lt_or_eq
      · have bound := ih (lifted.next room above) onward later
        rwa [Nat.add_right_comm, Nat.add_assoc] at bound
      subst full
      have bound := ih (lifted.lift above) onward later
      rw [Nat.zero_add] at bound
      rw [carry_div, Int.natCast_add, Int.natCast_one, ← Int.add_assoc, Int.add_right_comm]
      exact bound

/-- Apart from the newest `r` values, which are at most `c + 1`, none is above `c`;
    the others fill more than half of the window. -/
structure Level (k : Nat) (c : Int) (r : Nat) (w : List Int) : Prop where
  fits : w.length ≤ 2 * k + 1
  few : r ≤ k
  enough : k + 1 + r ≤ w.length
  all : ∀ x ∈ w, x ≤ c + 1
  older : ∀ x ∈ w.drop r, x ≤ c

theorem Level.median_le (level : Level k c r w) : median w ≤ c := by
  have ne : w ≠ [] := by
    rintro rfl
    have := level.enough
    simp at this
  apply (median_le_iff ne).mpr
  have le : (w.drop r).length ≤ w.countP (· ≤ c) := by
    rw [← countP_eq_length.mpr fun x mem => decide_eq_true (level.older x mem)]
    exact List.Sublist.countP_le (drop_sublist _ _)
  have := level.enough
  have := level.fits
  rw [length_drop] at le
  omega

private theorem Level.all_push (level : Level k c r w) :
    ∀ x ∈ push (2 * k + 1) w (median w + 1), x ≤ c + 1 := by
  intro x mem
  have := level.median_le
  obtain rfl | older := mem_cons.mp (mem_of_mem_take mem)
  · omega
  · exact level.all x older

theorem Level.next (level : Level k c r w) (lt : r < k) :
    Level k c (r + 1) (push (2 * k + 1) w (median w + 1)) where
  fits := by rw [length_push]; omega
  few := lt
  enough := by
    have := level.enough
    rw [length_push]
    omega
  all := level.all_push
  older x member := by
    rw [push, drop_take, drop_succ_cons] at member
    exact level.older x (mem_of_mem_take member)

theorem Level.lift (level : Level k c k w) :
    Level k (c + 1) 0 (push (2 * k + 1) w (median w + 1)) where
  fits := by rw [length_push]; omega
  few := zero_le _
  enough := by
    have := level.enough
    rw [length_push]
    omega
  all x member := (level.all_push x member).trans (by omega)
  older := level.all_push

theorem slowest_upper (level : Level k c r w) (there : (slowest (2 * k + 1) w n)[i]? = some t) :
    t ≤ c + ((r + i) / (k + 1) : Nat) + 1 := by
  induction n generalizing w c r i with
  | zero => simp [slowest] at there
  | succ n ih =>
    cases i with
    | zero =>
      obtain rfl : median w + 1 = t := by simpa [slowest] using there
      have := level.median_le
      rw [Nat.add_zero, Nat.div_eq_of_lt (Nat.lt_succ_of_le level.few), Int.natCast_zero]
      omega
    | succ i =>
      have later : (slowest (2 * k + 1) (push (2 * k + 1) w (median w + 1)) n)[i]? = some t := by
        simpa [slowest] using there
      obtain room | full := level.few.lt_or_eq
      · have bound := ih (level.next room) later
        rwa [Nat.add_right_comm, Nat.add_assoc] at bound
      subst full
      have bound := ih level.lift later
      rw [Nat.zero_add] at bound
      rw [carry_div, Int.natCast_add, Int.natCast_one, ← Int.add_assoc, Int.add_right_comm c]
      exact bound

end HobbyHash.Library.MedianWindow
