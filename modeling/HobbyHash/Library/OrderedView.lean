import Mathlib.Data.List.Nodup
import Mathlib.Data.List.TakeWhile
import Mathlib.Order.Lattice

/-! # Ordered views of a container

A container whose elements are seen in the order of a key. Elements with equal keys may
stand in any order. Next to an element stand those that are nearest to it in the order,
and the elements of a range of keys stand together.
-/

namespace HobbyHash.Library

open List

/-- A container seen in the order of a key. -/
structure OrderedView {α κ : Type} [LinearOrder κ] (key : α → κ) where
  order : List α → List α
  perm : ∀ l, (order l).Perm l
  sorted : ∀ l, (order l).Pairwise fun a b => key a ≤ key b

namespace OrderedView

section Neighbours

variable {α : Type} [DecidableEq α]

def next (v : List α) (a : α) : Option α := (v.dropWhile (· ≠ a)).tail.head?

def prev (v : List α) (a : α) : Option α := (v.takeWhile (· ≠ a)).getLast?

/-- The elements that follow `a` as long as they satisfy `p`. -/
def following (p : α → Bool) (v : List α) (a : α) : List α :=
  (v.dropWhile (· ≠ a)).tail.takeWhile p

variable {v : List α} {a b : α}

theorem split_at (mem : a ∈ v) :
    ∃ front back, v = front ++ a :: back ∧ a ∉ front ∧ v.takeWhile (· ≠ a) = front ∧
      v.dropWhile (· ≠ a) = a :: back := by
  have whole := takeWhile_append_dropWhile (p := (· ≠ a)) (l := v)
  have absent : a ∉ v.takeWhile (· ≠ a) := fun early => by simpa using mem_takeWhile_imp early
  have first := head?_dropWhile_not (· ≠ a) v
  cases dropped : v.dropWhile (· ≠ a) with
  | nil =>
    rw [dropped, append_nil] at whole
    exact absurd mem (whole ▸ absent)
  | cons c back =>
    rw [dropped] at first whole
    obtain rfl : c = a := by simpa using first
    exact ⟨_, back, whole.symm, absent, rfl, rfl⟩

end Neighbours

structure Shows {α κ : Type} [LinearOrder κ] (key : α → κ) (l v : List α) : Prop where
  perm : v.Perm l
  sorted : v.Pairwise fun a b => key a ≤ key b

section Shows

variable {α κ : Type} [LinearOrder κ] {key : α → κ} {l v : List α} {a b : α}

theorem shows (view : OrderedView key) (l : List α) : Shows key l (view.order l) :=
  ⟨view.perm l, view.sorted l⟩

variable (shows : Shows key l v)
include shows

theorem Shows.mem_iff : a ∈ v ↔ a ∈ l := shows.perm.mem_iff

theorem Shows.head_le (first : v.head? = some a) (mem : b ∈ l) : key a ≤ key b := by
  obtain ⟨rest, whole⟩ := head?_eq_some_iff.mp first
  have sorted := shows.sorted
  rw [← shows.mem_iff, whole] at mem
  rw [whole] at sorted
  rcases mem_cons.mp mem with rfl | later
  · exact le_rfl
  · exact rel_of_pairwise_cons sorted later

theorem Shows.le_getLast (last : v.getLast? = some a) (mem : b ∈ l) : key b ≤ key a := by
  obtain ⟨front, whole⟩ := getLast?_eq_some_iff.mp last
  have sorted := shows.sorted
  rw [← shows.mem_iff, whole] at mem
  rw [whole] at sorted
  rcases mem_append.mp mem with before | here
  · exact (pairwise_append.mp sorted).2.2 b before a mem_cons_self
  · rw [mem_singleton.mp here]

theorem Shows.filter (p : α → Bool) : Shows key (l.filter p) (v.filter p) :=
  ⟨shows.perm.filter p, shows.sorted.filter p⟩

variable [DecidableEq α]

theorem Shows.of_next (ne : l.Nodup) (mem : a ∈ l) (found : next v a = some b) :
    b ∈ l ∧ b ≠ a ∧ key a ≤ key b := by
  obtain ⟨front, back, whole, -, -, dropped⟩ := split_at (shows.mem_iff.mpr mem)
  rw [next, dropped, tail_cons] at found
  have behind := mem_of_mem_head? found
  have sorted := shows.sorted
  have ne := shows.perm.nodup_iff.mpr ne
  rw [whole] at sorted ne
  refine ⟨shows.mem_iff.mp (by simp [whole, behind]), ?_,
    rel_of_pairwise_cons (pairwise_append.mp sorted).2.1 behind⟩
  rintro rfl
  exact (nodup_cons.mp (nodup_append.mp ne).2.1).1 behind

theorem Shows.of_prev (mem : a ∈ l) (found : prev v a = some b) :
    b ∈ l ∧ b ≠ a ∧ key b ≤ key a := by
  obtain ⟨front, back, whole, absent, taken, -⟩ := split_at (shows.mem_iff.mpr mem)
  rw [prev, taken] at found
  have before := mem_of_getLast? found
  have sorted := shows.sorted
  rw [whole] at sorted
  refine ⟨shows.mem_iff.mp (by simp [whole, before]), ?_,
    (pairwise_append.mp sorted).2.2 b before a mem_cons_self⟩
  rintro rfl
  exact absent before

theorem Shows.neighbours (mem : a ∈ l) (other : b ∈ l) (ne : b ≠ a) :
    (∃ p, prev v a = some p ∧ p ∈ l ∧ p ≠ a ∧ key b ≤ key p ∧ key p ≤ key a) ∨
      ∃ n, next v a = some n ∧ n ∈ l ∧ key a ≤ key n ∧ key n ≤ key b := by
  obtain ⟨front, back, whole, -, taken, dropped⟩ := split_at (shows.mem_iff.mpr mem)
  have sorted := shows.sorted
  rw [← shows.mem_iff, whole] at other
  rw [whole] at sorted
  obtain ⟨sortedFront, sortedBack, -⟩ := pairwise_append.mp sorted
  rcases mem_append.mp other with early | late
  · left
    obtain ⟨init, p, isFront⟩ : ∃ init p, front = init ++ [p] :=
      ⟨_, _, (dropLast_append_getLast (ne_nil_of_mem early)).symm⟩
    have found : prev v a = some p := by rw [prev, taken, isFront, getLast?_concat]
    obtain ⟨inP, otherP, le⟩ := shows.of_prev mem found
    refine ⟨p, found, inP, otherP, ?_, le⟩
    rw [isFront] at early sortedFront
    rcases mem_append.mp early with before | last
    · exact (pairwise_append.mp sortedFront).2.2 b before p mem_cons_self
    · rw [mem_singleton.mp last]
  · right
    rw [next, dropped, tail_cons]
    rcases mem_cons.mp late with here | later
    · exact absurd here ne
    obtain ⟨low, sortedBack⟩ := pairwise_cons.mp sortedBack
    cases back with
    | nil => cases later
    | cons n back =>
      refine ⟨n, rfl, shows.mem_iff.mp (by simp [whole]), low n mem_cons_self, ?_⟩
      rcases mem_cons.mp later with rfl | further
      · exact le_rfl
      · exact rel_of_pairwise_cons sortedBack further

end Shows

section Ranges

variable {α κ : Type} [LinearOrder κ] {key : α → κ} {v : List α}

theorem takeWhile_eq_filter (sorted : v.Pairwise fun a b => key a ≤ key b)
    (closed : ∀ a ∈ v, ∀ b ∈ v, key a ≤ key b → p b → p a) : v.takeWhile p = v.filter p := by
  induction v with
  | nil => rfl
  | cons a v ih =>
    obtain ⟨first, rest⟩ := pairwise_cons.mp sorted
    by_cases holds : p a
    · rw [takeWhile_cons_of_pos holds, filter_cons_of_pos holds, ih rest]
      exact fun b inB c inC => closed b (mem_cons_of_mem a inB) c (mem_cons_of_mem a inC)
    rw [takeWhile_cons_of_neg holds, filter_cons_of_neg holds]
    symm
    apply filter_eq_nil_iff.mpr
    intro b later satisfied
    exact holds (closed a mem_cons_self b (mem_cons_of_mem a later) (first b later)
      satisfied)

section Following

variable [DecidableEq α] {l : List α} {p : α → Bool} {a b : α}

theorem Shows.nodup_following (shows : Shows key l v) (ne : l.Nodup) (mem : a ∈ l) :
    (a :: following p v a).Nodup := by
  obtain ⟨front, back, whole, -, -, dropped⟩ := split_at (shows.mem_iff.mpr mem)
  have ne := shows.perm.nodup_iff.mpr ne
  rw [whole] at ne
  rw [following, dropped, tail_cons]
  exact ((takeWhile_sublist _).cons_cons a).nodup (nodup_append.mp ne).2.1

/-- From the first element on that satisfies the condition all others follow. -/
theorem Shows.mem_cons_following (shows : Shows key l v) (mem : a ∈ l) (holds : p a)
    (closed : ∀ b ∈ l, ∀ c ∈ l, key a ≤ key b → key b ≤ key c → p c → p b)
    (first : ∀ b ∈ l, p b → b ≠ a → key a < key b) :
    b ∈ a :: following p v a ↔ b ∈ l ∧ p b := by
  obtain ⟨front, back, whole, -, -, dropped⟩ := split_at (shows.mem_iff.mpr mem)
  have sorted := shows.sorted
  have members (c : α) : c ∈ l ↔ c ∈ front ∨ c = a ∨ c ∈ back := by
    rw [← shows.mem_iff, whole, mem_append, mem_cons]
  rw [whole] at sorted
  obtain ⟨-, sortedBack, across⟩ := pairwise_append.mp sorted
  obtain ⟨low, sortedBack⟩ := pairwise_cons.mp sortedBack
  rw [following, dropped, tail_cons, takeWhile_eq_filter sortedBack, mem_cons, mem_filter]
  · constructor
    · rintro (rfl | ⟨inB, right⟩)
      · exact ⟨mem, holds⟩
      · exact ⟨(members b).mpr (.inr (.inr inB)), right⟩
    · rintro ⟨inB, right⟩
      by_cases same : b = a
      · exact .inl same
      rcases (members b).mp inB with early | here | late
      · exact absurd (across b early a mem_cons_self) (not_le.mpr (first b inB right same))
      · exact .inl here
      · exact .inr ⟨late, right⟩
  · intro b inB c inC le
    exact closed b ((members b).mpr (.inr (.inr inB))) c ((members c).mpr (.inr (.inr inC)))
      (low b inB) le

end Following

/-- The elements from the first that is not below `k` on. -/
def from_ (key : α → κ) (k : κ) (v : List α) : List α := v.dropWhile fun a => decide (key a < k)

theorem from_eq_filter (sorted : v.Pairwise fun a b => key a ≤ key b) (k : κ) :
    from_ key k v = v.filter fun a => decide (k ≤ key a) := by
  induction v with
  | nil => rfl
  | cons a v ih =>
    obtain ⟨first, rest⟩ := pairwise_cons.mp sorted
    by_cases lt : key a < k
    · rw [from_, dropWhile_cons_of_pos (by simpa using lt),
        filter_cons_of_neg (by simpa using lt)]
      exact ih rest
    have le : k ≤ key a := not_lt.mp lt
    rw [from_, dropWhile_cons_of_neg (by simpa using le)]
    symm
    apply filter_eq_self.mpr
    intro b mem
    rcases mem_cons.mp mem with rfl | later
    · exact decide_eq_true le
    · exact decide_eq_true (le.trans (first b later))

variable {l : List α} (shows : Shows key l v)
include shows

/-- The elements from a lower bound on, as long as they satisfy the condition, are those
    that satisfy it. -/
theorem Shows.range_perm (above : ∀ a ∈ l, p a → k ≤ key a)
    (closed : ∀ a ∈ l, ∀ b ∈ l, k ≤ key a → key a ≤ key b → p b → p a) :
    ((from_ key k v).takeWhile p).Perm (l.filter p) := by
  rw [from_eq_filter shows.sorted, takeWhile_eq_filter (shows.sorted.filter _), filter_filter]
  · refine (Perm.of_eq (filter_congr fun a mem => ?_)).trans (shows.perm.filter p)
    by_cases holds : p a
    · simp [holds, above a (shows.mem_iff.mp mem) holds]
    · simp [holds]
  · intro a inA b inB le holds
    obtain ⟨memberA, low⟩ := mem_filter.mp inA
    exact closed a (shows.mem_iff.mp memberA) b (shows.mem_iff.mp (mem_filter.mp inB).1)
      (of_decide_eq_true low) le holds

/-- The first element from a lower bound on. -/
theorem Shows.head_from (mem : a ∈ l) (le : k ≤ key a)
    (first : ∀ b ∈ l, k ≤ key b → key b ≤ key a → b = a) : (from_ key k v).head? = some a := by
  have range := shows.filter fun b => decide (k ≤ key b)
  have inRange : a ∈ l.filter fun b => decide (k ≤ key b) :=
    mem_filter.mpr ⟨mem, decide_eq_true le⟩
  rw [from_eq_filter shows.sorted]
  cases found : (v.filter fun b => decide (k ≤ key b)).head? with
  | none =>
    have inView := range.mem_iff.mpr inRange
    rw [head?_eq_none_iff.mp found] at inView
    cases inView
  | some n =>
    obtain ⟨inN, low⟩ := mem_filter.mp (range.mem_iff.mp (mem_of_mem_head? found))
    rw [first n inN (of_decide_eq_true low) (range.head_le found inRange)]

end Ranges

end OrderedView

end HobbyHash.Library
