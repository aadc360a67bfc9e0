import LMServe.Lib.Chunk

/-!
# Tensors of one and of two dimensions

Slices along a dimension as Python has them, and concatenation along a dimension. Shards of one size, cut
one after the other along a dimension and concatenated in that order, are the slice they cover.
-/

open Chunk

inductive Tensor (α : Type) where
  | vector (v : List α)
  | matrix (cols : Nat) (rows : List (List α)) (wf : ∀ row ∈ rows, row.length = cols)

namespace Tensor
variable {α : Type}

def shape : Tensor α → List Nat
  | vector v => [v.length]
  | matrix cols rows _ => [rows.length, cols]

/-- `t[start:stop]` -/
def slice_rows (start stop : Nat) : Tensor α → Tensor α
  | vector v => vector (slice v start stop)
  | matrix cols rows wf => matrix cols (slice rows start stop) fun row hrow =>
      wf row (List.mem_of_mem_take (List.mem_of_mem_drop hrow))

/-- `t[:, start:stop]`; a vector has too few dimensions. -/
def slice_cols (start stop : Nat) : Tensor α → Option (Tensor α)
  | vector _ => none
  | matrix cols rows wf => some (matrix (min stop cols - start) (rows.map (slice · start stop)) fun row hrow => by
      obtain ⟨old, hold, rfl⟩ := List.mem_map.1 hrow
      rw [length_slice, wf old hold])

/-- `torch.cat` of two tensors along the first dimension -/
def append_rows : Tensor α → Tensor α → Option (Tensor α)
  | vector v, vector v' => some (vector (v ++ v'))
  | matrix cols rows wf, matrix cols' rows' wf' =>
    if h : cols' = cols then
      some (matrix cols (rows ++ rows') fun row hrow =>
        (List.mem_append.1 hrow).elim (wf row) fun hrow => (wf' row hrow).trans h)
    else none
  | _, _ => none

/-- `torch.cat` of two tensors along the second dimension -/
def append_cols : Tensor α → Tensor α → Option (Tensor α)
  | matrix cols rows wf, matrix cols' rows' wf' =>
    if rows.length = rows'.length then
      some (matrix (cols + cols') (List.zipWith (· ++ ·) rows rows') fun row hrow => by
        obtain ⟨i, hi, rfl⟩ := List.mem_iff_getElem.1 hrow
        rw [List.length_zipWith] at hi
        rw [List.getElem_zipWith, List.length_append, wf _ (List.getElem_mem _), wf' _ (List.getElem_mem _)])
    else none
  | _, _ => none

/-- `torch.cat` of a list, with `append` for the dimension -/
def cat (append : Tensor α → Tensor α → Option (Tensor α)) : List (Tensor α) → Option (Tensor α)
  | [] => none
  | t :: ts => ts.foldlM append t

variable {append : Tensor α → Tensor α → Option (Tensor α)} {t u : Tensor α} {ts : List (Tensor α)} {a b c d : Nat}

theorem cat_concat (h : cat append ts = some t) : cat append (ts ++ [u]) = append t u := by
  cases ts with
  | nil => cases h
  | cons t₀ ts =>
    rw [cat] at h
    rw [List.cons_append, cat, List.foldlM_append, h]
    simp

theorem matrix_congr {cols cols' : Nat} {rows rows' : List (List α)} {wf : ∀ row ∈ rows, row.length = cols}
    {wf' : ∀ row ∈ rows', row.length = cols'} (hc : cols = cols') (hr : rows = rows') :
    matrix cols rows wf = matrix cols' rows' wf' := by
  subst hc hr
  rfl

theorem append_slice_rows (t : Tensor α) (hab : a ≤ b) (hbc : b ≤ c) :
    append_rows (t.slice_rows a b) (t.slice_rows b c) = some (t.slice_rows a c) := by
  cases t with
  | vector v => simp only [slice_rows, append_rows, slice_append_slice hab hbc]
  | matrix cols rows wf =>
    simp only [slice_rows, append_rows, dite_true, Option.some.injEq]
    exact matrix_congr rfl (slice_append_slice hab hbc)

theorem append_slice_cols {t₁ t₂ : Tensor α} (hab : a ≤ b) (hbc : b ≤ c) (h₁ : t.slice_cols a b = some t₁)
    (h₂ : t.slice_cols b c = some t₂) : append_cols t₁ t₂ = t.slice_cols a c := by
  cases t with
  | vector v => cases h₁
  | matrix cols rows wf =>
    obtain rfl := Option.some.inj h₁
    obtain rfl := Option.some.inj h₂
    simp only [append_cols, slice_cols, List.length_map, if_true, Option.some.injEq]
    refine matrix_congr (by omega) ?_
    rw [List.zipWith_map, List.zipWith_self]
    exact List.map_congr_left fun row _ => slice_append_slice hab hbc

/-- Rank by rank, along the first dimension. -/
theorem cat_shards_rows (t : Tensor α) (size n : Nat) :
    cat append_rows ((List.range (n + 1)).map fun rank => t.slice_rows (rank * size) ((rank + 1) * size)) =
      some (t.slice_rows 0 ((n + 1) * size)) := by
  induction n with
  | zero => simp [cat]
  | succ n ih =>
    rw [List.range_succ, List.map_append, List.map_singleton, cat_concat ih]
    exact append_slice_rows t (Nat.zero_le _) (Nat.mul_le_mul_right _ (Nat.le_succ _))

/-- Rank by rank, along the second dimension. -/
theorem cat_shards_cols {shard : Nat → Tensor α} (size n : Nat)
    (h : ∀ rank, t.slice_cols (rank * size) ((rank + 1) * size) = some (shard rank)) :
    cat append_cols ((List.range (n + 1)).map shard) = t.slice_cols 0 ((n + 1) * size) := by
  induction n with
  | zero =>
    have h0 := h 0
    rw [Nat.zero_mul] at h0
    rw [h0]
    rfl
  | succ n ih =>
    have hall : ∃ u, t.slice_cols 0 ((n + 1) * size) = some u := by
      cases t with
      | vector v => cases h 0
      | matrix cols rows wf => exact ⟨_, rfl⟩
    obtain ⟨u, hu⟩ := hall
    rw [List.range_succ, List.map_append, List.map_singleton, cat_concat (ih.trans hu)]
    exact append_slice_cols (Nat.zero_le _) (Nat.mul_le_mul_right _ (Nat.le_succ _)) hu (h (n + 1))

theorem shape_slice_rows {dims : List Nat} (h : t.shape = c :: dims) :
    (t.slice_rows a b).shape = (min b c - a) :: dims := by
  cases t with
  | vector v =>
    injection h with hc hdims
    simp only [slice_rows, shape, length_slice, hc, ← hdims]
  | matrix cols rows wf =>
    injection h with hc hdims
    simp only [slice_rows, shape, length_slice, hc, ← hdims]

theorem slice_cols_of_shape (h : t.shape = [c, d]) :
    ∃ u, t.slice_cols a b = some u ∧ u.shape = [c, min b d - a] := by
  cases t with
  | vector v => cases h
  | matrix cols rows wf =>
    injection h with hc h
    injection h with hd
    refine ⟨_, rfl, ?_⟩
    simp only [shape, List.length_map, hc, hd]

theorem slice_cols_of_shape_singleton (h : t.shape = [c]) : t.slice_cols a b = none := by
  cases t with
  | vector v => rfl
  | matrix cols rows wf => cases h

theorem slice_rows_all {dims : List Nat} (h : t.shape = a :: dims) : t.slice_rows 0 a = t := by
  cases t with
  | vector v =>
    injection h with ha
    simp [slice_rows, slice, ← ha]
  | matrix cols rows wf =>
    injection h with ha
    exact matrix_congr rfl (by simp [slice, ← ha])

theorem slice_cols_all (h : t.shape = [c, a]) : t.slice_cols 0 a = some t := by
  cases t with
  | vector v => cases h
  | matrix cols rows wf =>
    injection h with _ h
    injection h with h
    subst h
    refine congrArg some (matrix_congr (by simp) ?_)
    refine (List.map_congr_left fun row hrow => ?_).trans (List.map_id rows)
    simp [slice, ← wf row hrow]

/-! ### The entries -/

/-- A vector is one row. -/
def rows : Tensor α → List (List α)
  | vector v => [v]
  | matrix _ rows _ => rows

instance : Inhabited (Tensor α) := ⟨vector []⟩

def items : Tensor α → List α
  | vector v => v
  | matrix _ rows _ => rows.flatten

theorem length_rows (h : t.shape = [c, d]) : t.rows.length = c := by
  cases t with
  | vector v => cases h
  | matrix cols rows wf =>
    injection h

theorem length_of_mem_rows (h : t.shape = [c, d]) : ∀ row ∈ t.rows, row.length = d := by
  cases t with
  | vector v => cases h
  | matrix cols rows wf =>
    injection h with _ h
    injection h with hd
    exact fun row hrow => (wf row hrow).trans hd

theorem length_items (h : t.shape = [c]) : t.items.length = c := by
  cases t with
  | vector v => injection h
  | matrix cols rows wf => cases h

theorem rows_slice_rows (h : t.shape = [c, d]) : (t.slice_rows a b).rows = slice t.rows a b := by
  cases t with
  | vector v => cases h
  | matrix cols rows wf => rfl

theorem items_slice_rows (h : t.shape = [c]) : (t.slice_rows a b).items = slice t.items a b := by
  cases t with
  | vector v => rfl
  | matrix cols rows wf => cases h

theorem rows_slice_cols (h : t.slice_cols a b = some u) : u.rows = t.rows.map (slice · a b) := by
  cases t with
  | vector v => cases h
  | matrix cols rows wf =>
    obtain rfl := Option.some.inj h
    rfl

end Tensor
