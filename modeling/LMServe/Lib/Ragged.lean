import LMServe.Lib.Chunk
import Mathlib.Algebra.BigOperators.Group.List.Lemmas

/-!
# Lists of different lengths, packed one after the other

`cumsum (0 :: lens)` are the offsets of lists of lengths `lens` in their concatenation. The segment between
two offsets is one of the lists.
-/

open Chunk

namespace Ragged
variable {α β : Type} {xs lens : List Nat} {lists : List (List α)} {k acc : Nat}

def cumsum_from (acc : Nat) : List Nat → List Nat
  | [] => []
  | x :: xs => (acc + x) :: cumsum_from (acc + x) xs

/-- The running sums -/
def cumsum (xs : List Nat) : List Nat := cumsum_from 0 xs

theorem length_cumsum_from : (cumsum_from acc xs).length = xs.length := by
  induction xs generalizing acc with
  | nil => rfl
  | cons x xs ih => rw [cumsum_from, List.length_cons, List.length_cons, ih]

@[simp] theorem length_cumsum : (cumsum xs).length = xs.length := length_cumsum_from

theorem getElem?_cumsum_from (h : k < xs.length) :
    (cumsum_from acc xs)[k]? = some (acc + (xs.take (k + 1)).sum) := by
  induction xs generalizing k acc with
  | nil => cases h
  | cons x xs ih =>
    cases k with
    | zero => simp [cumsum_from]
    | succ k =>
      rw [cumsum_from, List.getElem?_cons_succ, ih (Nat.lt_of_succ_lt_succ h), List.take_succ_cons, List.sum_cons]
      rw [Nat.add_assoc]

/-- Where the `k`-th list begins, and where the last one ends -/
theorem getElem?_offsets (h : k ≤ lens.length) : (cumsum (0 :: lens))[k]? = some (lens.take k).sum := by
  rw [cumsum, getElem?_cumsum_from (by simpa using Nat.lt_succ_of_le h)]
  simp

/-- Items `offsets[k]` to `offsets[k + 1]` -/
def segment (data : List α) (offsets : List Nat) (k : Nat) : Option (List α) :=
  match offsets[k]?, offsets[k + 1]? with
  | some start, some stop => some (slice data start stop)
  | _, _ => none

theorem segment_offsets {data : List α} (h : k < lens.length) :
    segment data (cumsum (0 :: lens)) k = some (slice data (lens.take k).sum (lens.take (k + 1)).sum) := by
  rw [segment, getElem?_offsets (Nat.le_of_lt h), getElem?_offsets h]

/-- The offsets of the first lists do not depend on the others. -/
theorem segment_offsets_append {data : List α} (lens' : List Nat) (h : k < lens.length) :
    segment data (cumsum (0 :: (lens ++ lens'))) k = segment data (cumsum (0 :: lens)) k := by
  rw [segment_offsets h, segment_offsets (by rw [List.length_append]; omega),
    List.take_append_of_le_length (Nat.le_of_lt h), List.take_append_of_le_length h]

theorem slice_flatten (h : k < lists.length) :
    slice lists.flatten ((lists.map List.length).take k).sum ((lists.map List.length).take (k + 1)).sum =
      lists[k] :=
  List.drop_take_succ_flatten_eq_getElem lists k h

theorem segment_flatMap {f : β → List α} {items : List β} {x : β} (h : items[k]? = some x) :
    segment (items.flatMap f) (cumsum (0 :: items.map fun y => (f y).length)) k = some (f x) := by
  obtain ⟨hk, rfl⟩ := List.getElem?_eq_some_iff.1 h
  have hlen : items.map (fun y => (f y).length) = (items.map f).map List.length := by rw [List.map_map]; rfl
  have hk' : k < (items.map f).length := by rwa [List.length_map]
  rw [segment_offsets (by rwa [List.length_map]), hlen, List.flatMap_def]
  exact congrArg some ((slice_flatten hk').trans (List.getElem_map f))

theorem getElem?_segment {data seg : List α} {offsets : List Nat} {start i : Nat}
    (hseg : segment data offsets k = some seg) (hstart : offsets[k]? = some start) (hi : i < seg.length) :
    data[start + i]? = seg[i]? := by
  unfold segment at hseg
  rw [hstart] at hseg
  cases hstop : offsets[k + 1]? with
  | none => rw [hstop] at hseg; cases hseg
  | some stop =>
    rw [hstop] at hseg
    obtain rfl := Option.some.inj hseg
    rw [getElem?_slice]
    rw [length_slice] at hi
    rw [if_pos (by omega)]

end Ragged
