import Recurrence.Position

/-!
# What positions pick

A positive position counts from the beginning of a list, a negative one **from the
beginning of the list in reverse** (`pick?_of_neg`); a position past either end picks
nothing, as `0` does. This holds as long as the list is no longer than places are counted.
Positions pick one after the other, each at most one element (`select_singleton`), so that
all positions in order give the list and all their opposites the list in reverse
(`select_signed`).
-/

namespace Recurrence

namespace Position

variable {α β : Type} {xs : List α} {i : Int} {a : α}

/-- A picked element is one of the list. -/
theorem mem_of_pick? (h : pick? xs i = some a) : a ∈ xs := by
  obtain ⟨k, -, hk⟩ := pick?_eq_some_iff.1 h
  exact List.mem_of_getElem? hk

/-- What is made of the elements is made of the picked one. -/
theorem pick?_map (g : α → β) : pick? (xs.map g) i = (pick? xs i).map g := by
  simp only [pick?, List.length_map, List.getElem?_map, Option.map_bind, Function.comp_def]

/-- A positive position counts from the beginning. -/
theorem pick?_of_pos (hlen : xs.length ≤ lastPlace) (hi : 1 ≤ i) :
    pick? xs i = xs[i.toNat - 1]? := by
  rw [pick?, Nat.min_eq_left hlen, resolve]
  split
  · rfl
  · next h =>
    rw [if_neg (by omega), Option.bind_none, eq_comm, List.getElem?_eq_none_iff]
    omega

/-- **A negative position counts from the end.** -/
theorem pick?_of_neg (hlen : xs.length ≤ lastPlace) (hi : i ≤ -1) :
    pick? xs i = xs.reverse[(-i).toNat - 1]? := by
  rw [pick?, Nat.min_eq_left hlen, resolve, if_neg (by omega)]
  split
  · next h =>
    rw [Option.bind_some, List.getElem?_reverse (by omega)]
    congr 1
    omega
  · next h =>
    rw [Option.bind_none, eq_comm, List.getElem?_eq_none_iff, List.length_reverse]
    omega

/-- Position `0` is no place, and there is none past either end. -/
theorem pick?_eq_none (hlen : xs.length ≤ lastPlace) (hi : i = 0 ∨ xs.length < i.natAbs) :
    pick? xs i = none := by
  rw [pick?, Nat.min_eq_left hlen, resolve, if_neg (by omega), if_neg (by omega),
    Option.bind_none]

/-! ## Lists of positions -/

/-- The positions of the first `len` places, in order. -/
def firstPlaces (len : Nat) : List Int :=
  (List.range len).map fun k : Nat => (k : Int) + 1

/-- **One position picks one element or none.** -/
theorem select_singleton (xs : List α) (i : Int) : select xs [i] = (pick? xs i).toList := by
  rw [select]
  cases h : pick? xs i with
  | none => simp [h]
  | some a => simp [h]

/-- Counting from the end of a list is counting from the beginning of its reverse. -/
theorem pick?_neg (hlen : xs.length ≤ lastPlace) (i : Int) :
    pick? xs (-i) = pick? xs.reverse i := by
  have hlen' : xs.reverse.length ≤ lastPlace := by rwa [List.length_reverse]
  rcases Int.lt_trichotomy i 0 with hi | rfl | hi
  · rw [pick?_of_pos hlen (by omega), pick?_of_neg hlen' (by omega), List.reverse_reverse]
  · rw [pick?_eq_none hlen (by omega), pick?_eq_none hlen' (by omega)]
  · rw [pick?_of_neg hlen (by omega), pick?_of_pos hlen' (by omega), Int.neg_neg]

/-- The place after `k` others holds the element after `k` others. -/
theorem pick?_add_one (hlen : xs.length ≤ lastPlace) (k : Nat) :
    pick? xs (k + 1) = xs[k]? := by
  rw [pick?_of_pos hlen (by omega)]
  congr 1

/-- Opposite positions pick from the reverse. -/
theorem select_map_neg (hlen : xs.length ≤ lastPlace) (ps : List Int) :
    select xs (ps.map fun i => -i) = select xs.reverse ps := by
  rw [select, select, List.filterMap_map]
  congr 1
  exact funext fun i => pick?_neg hlen i

/-- **All positions in order pick the list**, each of its elements as often as it stands
there. -/
theorem select_firstPlaces (hlen : xs.length ≤ lastPlace) {n : Nat} (hn : n ≤ xs.length) :
    select xs (firstPlaces n) = xs.take n := by
  induction n with
  | zero => rfl
  | succ n ih =>
    have hlast : select xs [(n : Int) + 1] = xs[n]?.toList := by
      rw [select_singleton, pick?_add_one hlen]
    rw [firstPlaces, List.range_succ, List.map_append, List.map_singleton, select_append,
      ← firstPlaces, ih (by omega), hlast, List.take_add_one]

/-- **What signed positions pick** from a list that is no longer than places are counted:
positions pick one after the other; `k` picks the element at place `k` and `-k` the one at
place `k` from the end, alone; `0` and what lies past either end pick nothing; a position
picks from the reverse what its opposite picks from the list; and all positions in order
give the list, all their opposites the reverse. -/
theorem select_signed (xs : List α) (hlen : xs.length < Nat.pow 2 32) :
    (∀ ps qs, select xs (ps ++ qs) = select xs ps ++ select xs qs) ∧
    (∀ k (hk : 1 ≤ k ∧ k ≤ xs.length),
      select xs [(k : Int)] = [xs[k - 1]] ∧ select xs [-(k : Int)] = [xs[xs.length - k]]) ∧
    (∀ i : Int, i = 0 ∨ xs.length < i.natAbs → select xs [i] = []) ∧
    (∀ i : Int, select xs [-i] = select xs.reverse [i]) ∧
    select xs (firstPlaces xs.length) = xs ∧
    select xs ((firstPlaces xs.length).map fun i => -i) = xs.reverse := by
  have hlen : xs.length ≤ lastPlace := by unfold lastPlace; omega
  have hlen' : xs.reverse.length ≤ lastPlace := by rwa [List.length_reverse]
  refine ⟨select_append xs, ?_, ?_, ?_, ?_, ?_⟩
  · intro k hk
    rw [select_singleton, select_singleton, pick?_of_pos hlen (by omega),
      pick?_of_neg hlen (by omega), Int.neg_neg, Int.toNat_natCast,
      List.getElem?_reverse (by omega), List.getElem?_eq_getElem (by omega),
      List.getElem?_eq_getElem (by omega)]
    refine ⟨rfl, ?_⟩
    have heq : xs.length - 1 - (k - 1) = xs.length - k := by omega
    simp only [heq, Option.toList_some]
  · intro i hi
    rw [select_singleton, pick?_eq_none hlen hi, Option.toList_none]
  · intro i
    exact select_map_neg hlen [i]
  · rw [select_firstPlaces hlen (Nat.le_refl _), List.take_length]
  · have h := select_firstPlaces hlen' (Nat.le_refl _)
    rw [List.length_reverse] at h
    rw [select_map_neg hlen, h, ← List.length_reverse, List.take_length]

/-- A list in which an element stands twice: both are picked, and positions far past its
ends are passed over. -/
theorem select_signed_repeated :
    [7, 5, 7, 6].length < Nat.pow 2 32 ∧
      (select [7, 5, 7, 6] [-1, 5, 3, -2147483648, 1] = [6, 7, 7] ∧
        select [7, 5, 7, 6] ((firstPlaces 4).map fun i => -i) = [6, 7, 5, 7]) :=
  ⟨by decide, by decide, (select_signed [7, 5, 7, 6] (by decide)).2.2.2.2.2⟩

end Position

end Recurrence
