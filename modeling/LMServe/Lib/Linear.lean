import LMServe.Lib.Chunk
import Mathlib.Algebra.BigOperators.Ring.List

/-!
# Rows of numbers, cut into pieces

A list of rows, and linear maps on them given by the rows of their matrix. A linear map whose matrix is cut by
rows computes pieces of the result; one whose matrix is cut by columns, together with the argument, computes
summands of the result. Either way the pieces, put together in order, are the result of the whole map.
-/

open Chunk

namespace Linear

section
variable {α β γ : Type}

theorem slice_map (f : α → β) (xs : List α) (a b : Nat) : slice (xs.map f) a b = (slice xs a b).map f := by
  simp only [slice, List.map_take, List.map_drop]

theorem slice_zipWith (f : α → β → γ) (xs : List α) (ys : List β) (a b : Nat) :
    slice (List.zipWith f xs ys) a b = List.zipWith f (slice xs a b) (slice ys a b) := by
  simp only [slice, List.take_zipWith, List.drop_zipWith]

theorem slice_replicate (x : α) {a b n : Nat} (h : b ≤ n) : slice (List.replicate n x) a b = List.replicate (b - a) x := by
  simp [slice, List.take_replicate, List.drop_replicate, Nat.min_eq_left h]

theorem slice_all {xs : List α} {n : Nat} (h : xs.length ≤ n) : slice xs 0 n = xs := by
  rw [slice, List.take_of_length_le h, List.drop_zero]

/-! ### Pieces of one length -/

theorem length_pieces {f : Nat → List α} {d : Nat} : ∀ {l : List Nat}, (∀ h ∈ l, (f h).length = d) →
    (l.flatMap f).length = l.length * d
  | [], _ => by simp
  | h :: l, hf => by
    rw [List.flatMap_cons, List.length_append, hf h List.mem_cons_self,
      length_pieces fun k hk => hf k (List.mem_cons_of_mem h hk), List.length_cons, Nat.succ_mul, Nat.add_comm]

/-- Some of the pieces in a row. -/
theorem slice_pieces {f : Nat → List α} {d n a b : Nat} (hf : ∀ h < n, (f h).length = d) (hab : a ≤ b) (hbn : b ≤ n) :
    slice ((List.range n).flatMap f) (a * d) (b * d) = (List.range (b - a)).flatMap fun h => f (a + h) := by
  have hrange : List.range n = List.range a ++ ((List.range (b - a)).map (a + ·) ++ (List.range (n - b)).map (b + ·)) := by
    have hb : b + (n - b) = n := by omega
    have ha : a + (b - a) = b := by omega
    conv_lhs => rw [← hb, List.range_add, ← ha, List.range_add, ha, List.append_assoc]
  have hlow : ((List.range a).flatMap f).length = a * d := by
    rw [length_pieces fun h hh => hf h (by have := List.mem_range.1 hh; omega), List.length_range]
  have hmid : (((List.range (b - a)).map (a + ·)).flatMap f).length = (b - a) * d := by
    rw [length_pieces fun h hh => ?_, List.length_map, List.length_range]
    obtain ⟨k, hk, rfl⟩ := List.mem_map.1 hh
    have := List.mem_range.1 hk
    exact hf _ (by omega)
  have hsum : b * d = a * d + (b - a) * d := by rw [← Nat.add_mul, Nat.add_sub_cancel' hab]
  rw [hrange, List.flatMap_append, List.flatMap_append, slice, hsum, ← hlow, List.take_length_add_append,
    List.drop_left, ← hmid, List.take_left, List.flatMap_map]

theorem getElem?_pieces {f : Nat → List α} {d n h i : Nat} (hf : ∀ h < n, (f h).length = d) (hh : h < n) (hi : i < d) :
    ((List.range n).flatMap f)[h * d + i]? = (f h)[i]? := by
  have hone : slice ((List.range n).flatMap f) (h * d) ((h + 1) * d) = f h := by
    rw [slice_pieces (b := h + 1) hf (Nat.le_succ h) hh, Nat.add_sub_cancel_left]
    simp
  rw [← hone, getElem?_slice, if_pos]
  rw [Nat.succ_mul]
  exact Nat.add_lt_add_left hi _

theorem getElem?_flatten {rows : List (List α)} {d i j : Nat} (hrows : ∀ row ∈ rows, row.length = d) (hi : i < rows.length)
    (hj : j < d) : rows.flatten[i * d + j]? = (rows[i]?.getD [])[j]? := by
  have hrange : rows = (List.range rows.length).map fun k => rows[k]?.getD [] := by
    refine List.ext_getElem (by simp) fun k hk _ => ?_
    rw [List.getElem_map, List.getElem_range, List.getElem?_eq_getElem hk]
    rfl
  have hget : ∀ k < rows.length, (rows[k]?.getD []).length = d := fun k hk => by
    rw [List.getElem?_eq_getElem hk]
    exact hrows _ (List.getElem_mem hk)
  conv_lhs => rw [hrange, ← List.flatMap_def]
  exact getElem?_pieces hget hi hj

theorem map_range_mul (f : Nat → α) (d : Nat) : ∀ n, (List.range (n * d)).map f =
    (List.range n).flatMap fun h => (List.range d).map fun j => f (h * d + j)
  | 0 => by simp
  | n + 1 => by
    rw [Nat.succ_mul, List.range_add, List.map_append, map_range_mul f d n, List.range_succ, List.flatMap_append,
      List.flatMap_singleton, List.map_map]
    rfl

/-- Items from a list without a first one. -/
def fold1 (op : List α → List α → List α) : List (List α) → List α
  | [] => []
  | x :: xs => xs.foldl op x

theorem fold1_concat (op : List α → List α → List α) {xs : List (List α)} (hxs : xs ≠ []) (x : List α) :
    fold1 op (xs ++ [x]) = op (fold1 op xs) x := by
  cases xs with
  | nil => exact absurd rfl hxs
  | cons y ys => simp [fold1]

/-- The results of `0`, …, `n` put together, when one more at a time is known to be. -/
theorem fold1_range {op : List α → List α → List α} {f g : Nat → List α} (hzero : f 0 = g 0) {n : Nat}
    (hstep : ∀ k < n, op (g k) (f (k + 1)) = g (k + 1)) : fold1 op ((List.range (n + 1)).map f) = g n := by
  induction n with
  | zero => simpa [fold1] using hzero
  | succ n ih =>
    rw [List.range_succ, List.map_append, List.map_singleton, fold1_concat op (by simp),
      ih fun k hk => hstep k (Nat.lt_succ_of_lt hk), hstep n (Nat.lt_succ_self n)]

end

/-! ### Rows -/

section
variable {R : Type}

/-- Some of the columns. -/
def cols (a b : Nat) (rows : List (List R)) : List (List R) := rows.map (slice · a b)

/-- Rows side by side. -/
def beside : List (List R) → List (List R) → List (List R) := List.zipWith (· ++ ·)

variable {rows : List (List R)} {a b c d n size : Nat}

theorem cols_all (h : ∀ row ∈ rows, row.length ≤ n) : cols 0 n rows = rows :=
  (List.map_congr_left fun row hrow => slice_all (h row hrow)).trans (List.map_id rows)

theorem beside_cols (hab : a ≤ b) (hbc : b ≤ c) : beside (cols a b rows) (cols b c rows) = cols a c rows := by
  simp only [beside, cols, List.zipWith_map, List.zipWith_self]
  exact List.map_congr_left fun row _ => slice_append_slice hab hbc

/-- The columns cut into ranges of one size. -/
theorem beside_shards (hn : 0 < n) (h : ∀ row ∈ rows, row.length ≤ n * size) :
    fold1 beside ((List.range n).map fun rank => cols (rank * size) ((rank + 1) * size) rows) = rows := by
  obtain ⟨k, rfl⟩ : ∃ k, n = k + 1 := ⟨n - 1, by omega⟩
  refine (fold1_range (g := fun k => cols 0 ((k + 1) * size) rows) (by rw [Nat.zero_mul]) fun k _ => ?_).trans (cols_all h)
  exact beside_cols (Nat.zero_le _) (Nat.mul_le_mul_right _ (Nat.le_succ _))

end

/-! ### Linear maps -/

section
variable {R : Type} [Semiring R]

def dot (x w : List R) : R := (List.zipWith (· * ·) x w).sum

def vadd : List R → List R → List R := List.zipWith (· + ·)

/-- Rows added entry by entry. -/
def add : List (List R) → List (List R) → List (List R) := List.zipWith vadd

/-- The linear map with the rows `weight`, on each row of `x`. -/
def map (x weight : List (List R)) : List (List R) := x.map fun row => weight.map (dot row)

variable {x w : List R} {rows weight : List (List R)} {a b c n size : Nat}

theorem dot_append {x x' w w' : List R} (h : x.length = w.length) : dot (x ++ x') (w ++ w') = dot x w + dot x' w' := by
  unfold dot
  rw [List.zipWith_append h, List.sum_append]

theorem dot_slice_add (h : x.length = w.length) (hab : a ≤ b) (hbc : b ≤ c) :
    dot (slice x a b) (slice w a b) + dot (slice x b c) (slice w b c) = dot (slice x a c) (slice w a c) := by
  have hw : slice w a b ++ slice w b c = slice w a c := slice_append_slice hab hbc
  rw [← slice_append_slice hab hbc, ← hw, dot_append]
  rw [length_slice, length_slice, h]

theorem map_slice (rows weight : List (List R)) (a b : Nat) : map rows (slice weight a b) = cols a b (map rows weight) := by
  simp only [map, cols, List.map_map]
  exact List.map_congr_left fun row _ => (slice_map _ _ _ _).symm

theorem add_map_cols (h : ∀ row ∈ rows, ∀ w ∈ weight, row.length = w.length) (hab : a ≤ b) (hbc : b ≤ c) :
    add (map (cols a b rows) (cols a b weight)) (map (cols b c rows) (cols b c weight)) =
      map (cols a c rows) (cols a c weight) := by
  simp only [add, map, cols, List.map_map, List.zipWith_map, List.zipWith_self]
  refine List.map_congr_left fun row hrow => ?_
  simp only [Function.comp_apply, vadd, List.zipWith_map, List.zipWith_self]
  exact List.map_congr_left fun w hw => dot_slice_add (h row hrow w hw) hab hbc

/-- A matrix cut by columns into pieces of one size, and the argument with it. -/
theorem add_shards (hn : 0 < n) (hrows : ∀ row ∈ rows, row.length = n * size)
    (hweight : ∀ w ∈ weight, w.length = n * size) :
    fold1 add ((List.range n).map fun rank => map (cols (rank * size) ((rank + 1) * size) rows)
      (cols (rank * size) ((rank + 1) * size) weight)) = map rows weight := by
  obtain ⟨k, rfl⟩ : ∃ k, n = k + 1 := ⟨n - 1, by omega⟩
  have hlen : ∀ row ∈ rows, ∀ w ∈ weight, row.length = w.length := fun row hrow w hw =>
    (hrows row hrow).trans (hweight w hw).symm
  refine (fold1_range (g := fun k => map (cols 0 ((k + 1) * size) rows) (cols 0 ((k + 1) * size) weight))
    (by rw [Nat.zero_mul]) fun k _ => ?_).trans ?_
  · exact add_map_cols hlen (Nat.zero_le _) (Nat.mul_le_mul_right _ (Nat.le_succ _))
  · rw [cols_all fun row hrow => (hrows row hrow).le, cols_all fun w hw => (hweight w hw).le]

theorem vadd_zeros : ∀ x : List R, vadd x (List.replicate x.length 0) = x
  | [] => rfl
  | a :: x => by
    have ih : List.zipWith (· + ·) x (List.replicate x.length 0) = x := vadd_zeros x
    rw [vadd, List.length_cons, List.replicate_succ, List.zipWith_cons_cons, ih, add_zero]

theorem zeros_vadd : ∀ x : List R, vadd (List.replicate x.length 0) x = x
  | [] => rfl
  | a :: x => by
    have ih : List.zipWith (· + ·) (List.replicate x.length 0) x = x := zeros_vadd x
    rw [vadd, List.length_cons, List.replicate_succ, List.zipWith_cons_cons, ih, zero_add]

end

end Linear
