import LMServe.Lib.Linear
import LMServe.Lib.Scatter
import Mathlib.Algebra.BigOperators.Ring.Finset
import Mathlib.Analysis.SpecialFunctions.Trigonometric.Basic

/-!
# The rotary embedding

One program a token stores the rotated heads of the token's query and key (`ops/triton/rotary_embedding.py`,
`ops/rotary_embedding_ops.py`, `models/layers/rotary_embedding.py`). The tensors are contiguous, and the outputs
are not the inputs, so what a program loads no program stores to.
-/

open Chunk Scatter

namespace LMServe

inductive RotaryTensor where
  | query | key
  deriving DecidableEq, Repr

/-- What a launch reads -/
structure RotaryLaunch (R : Type) where
  input : RotaryTensor → Nat → R
  positions : Nat → Nat
  cos_sin_cache : Nat → R
  num_heads : Nat
  num_kv_heads : Nat
  head_dim : Nat
  rotary_dim : Nat

namespace RotaryLaunch
variable {R : Type}

def heads (l : RotaryLaunch R) : RotaryTensor → Nat
  | .query => l.num_heads
  | .key => l.num_kv_heads

section
variable [Add R] [Sub R] [Mul R]

/-- The stores of one vector of lanes, for a head that starts at `start` -/
def stores (l : RotaryLaunch R) (t : RotaryTensor) (start : Nat) (cos sin : Nat → R) (idxs : List Nat) :
    List ((RotaryTensor × Nat) × R) :=
  let embed_dim := l.rotary_dim / 2
  let x (idx : Nat) := l.input t (start + idx)
  let y (idx : Nat) := l.input t (start + (embed_dim + idx))
  idxs.map (fun idx => ((t, start + idx), x idx * cos idx - y idx * sin idx)) ++
    idxs.map (fun idx => ((t, start + (embed_dim + idx)),
      y idx * cos (embed_dim + idx) + x idx * sin (embed_dim + idx)))

def apply_rotary_pos_emb_kernel (l : RotaryLaunch R) (BLOCK_SIZE token_idx : Nat) :
    List ((RotaryTensor × Nat) × R) :=
  let pos := l.positions token_idx
  let cos (idx : Nat) := l.cos_sin_cache (pos * (l.rotary_dim * 2) + idx)
  let sin (idx : Nat) := l.cos_sin_cache (pos * (l.rotary_dim * 2) + l.rotary_dim + idx)
  let query_ptr := token_idx * (l.num_heads * l.head_dim)
  let key_ptr := token_idx * (l.num_kv_heads * l.head_dim)
  let embed_dim := l.rotary_dim / 2
  (List.range l.num_heads).flatMap fun head_id =>
    let head_idx := head_id * l.head_dim
    (step_by 0 embed_dim BLOCK_SIZE).flatMap fun i =>
      let idxs := lanes i BLOCK_SIZE embed_dim
      l.stores .query (query_ptr + head_idx) cos sin idxs ++
        if head_id < l.num_kv_heads then l.stores .key (key_ptr + head_idx) cos sin idxs else []

/-- The stores of all programs of the grid -/
def grid (l : RotaryLaunch R) (BLOCK_SIZE num_tokens : Nat) : List ((RotaryTensor × Nat) × R) :=
  (List.range num_tokens).flatMap (l.apply_rotary_pos_emb_kernel BLOCK_SIZE)

/-! ### What it is for -/

/-- Entry `j` of a head: the entries of the two halves turn in pairs. -/
def rotated (embed_dim : Nat) (x cos sin : Nat → R) (j : Nat) : R :=
  if j < embed_dim then x j * cos j - x (embed_dim + j) * sin j
  else x j * cos j + x (j - embed_dim) * sin j

variable (l : RotaryLaunch R)

def head_ptr (t : RotaryTensor) (token head : Nat) : Nat := token * (l.heads t * l.head_dim) + head * l.head_dim

def cos (token i : Nat) : R := l.cos_sin_cache (l.positions token * (l.rotary_dim * 2) + i)

def sin (token i : Nat) : R := l.cos_sin_cache (l.positions token * (l.rotary_dim * 2) + l.rotary_dim + i)

/-- Entry `j` of a token's rotated head -/
def output (t : RotaryTensor) (token head j : Nat) : R :=
  rotated (l.rotary_dim / 2) (fun i => l.input t (l.head_ptr t token head + i)) (l.cos token) (l.sin token) j

variable {l} {t t' : RotaryTensor} {BLOCK_SIZE num_tokens token token' head head' j j' a : Nat} {v : R}

/-! ### The stores -/

theorem rotated_low {e : Nat} {x cos sin : Nat → R} (hj : j < e) :
    rotated e x cos sin j = x j * cos j - x (e + j) * sin j := if_pos hj

theorem rotated_high {e : Nat} {x cos sin : Nat → R} :
    rotated e x cos sin (e + j) = x (e + j) * cos (e + j) + x j * sin (e + j) := by
  rw [rotated, if_neg (Nat.not_lt.2 (Nat.le_add_right e j)), Nat.add_sub_cancel_left]

theorem rotated_congr {n : Nat} {x y cos sin cos' sin' : Nat → R} (h : ∀ i < n, x i = y i)
    (hcos : ∀ i < n, cos i = cos' i) (hsin : ∀ i < n, sin i = sin' i) (hj : j < n) :
    rotated (n / 2) x cos sin j = rotated (n / 2) y cos' sin' j := by
  unfold rotated
  split_ifs with hlow
  · rw [h j hj, h (n / 2 + j) (by omega), hcos j hj, hsin j hj]
  · rw [h j hj, h (j - n / 2) (by omega), hcos j hj, hsin j hj]

theorem mem_stores {start : Nat} {cos sin : Nat → R} {idxs : List Nat} (hidxs : ∀ idx ∈ idxs, idx < l.rotary_dim / 2) :
    ((t', a), v) ∈ l.stores t start cos sin idxs ↔ t' = t ∧ ∃ idx ∈ idxs, ∃ j, (j = idx ∨ j = l.rotary_dim / 2 + idx) ∧
      a = start + j ∧ v = rotated (l.rotary_dim / 2) (fun i => l.input t (start + i)) cos sin j := by
  rw [stores, List.mem_append, List.mem_map, List.mem_map]
  constructor
  · rintro (⟨idx, hidx, he⟩ | ⟨idx, hidx, he⟩)
    · obtain ⟨⟨rfl, rfl⟩, rfl⟩ : (t = t' ∧ _ = a) ∧ _ = v := by simpa only [Prod.mk.injEq] using he
      exact ⟨rfl, idx, hidx, idx, .inl rfl, rfl, by rw [rotated_low (hidxs idx hidx)]⟩
    · obtain ⟨⟨rfl, rfl⟩, rfl⟩ : (t = t' ∧ _ = a) ∧ _ = v := by simpa only [Prod.mk.injEq] using he
      exact ⟨rfl, idx, hidx, _, .inr rfl, rfl, by rw [rotated_high]⟩
  · rintro ⟨rfl, idx, hidx, j, rfl | rfl, rfl, rfl⟩
    · exact .inl ⟨j, hidx, by rw [rotated_low (hidxs j hidx)]⟩
    · exact .inr ⟨idx, hidx, by rw [rotated_high]⟩

theorem mem_head_stores {start : Nat} {cos sin : Nat → R} (hblock : 0 < BLOCK_SIZE) :
    (∃ i ∈ step_by 0 (l.rotary_dim / 2) BLOCK_SIZE,
        ((t', a), v) ∈ l.stores t start cos sin (lanes i BLOCK_SIZE (l.rotary_dim / 2))) ↔
      t' = t ∧ ∃ j < l.rotary_dim / 2 * 2,
        a = start + j ∧ v = rotated (l.rotary_dim / 2) (fun i => l.input t (start + i)) cos sin j := by
  have hlanes : ∀ i, ∀ idx ∈ lanes i BLOCK_SIZE (l.rotary_dim / 2), idx < l.rotary_dim / 2 := fun i idx h =>
    of_decide_eq_true (List.mem_filter.1 h).2
  constructor
  · rintro ⟨i, hi, h⟩
    obtain ⟨rfl, idx, hidx, j, hj, ha, hv⟩ := (mem_stores (hlanes i)).1 h
    have := hlanes i idx hidx
    exact ⟨rfl, j, by omega, ha, hv⟩
  · rintro ⟨rfl, j, hj, ha, hv⟩
    obtain ⟨idx, hlt, hjdx⟩ : ∃ idx < l.rotary_dim / 2, j = idx ∨ j = l.rotary_dim / 2 + idx := by
      by_cases hlow : j < l.rotary_dim / 2
      · exact ⟨j, hlow, .inl rfl⟩
      · exact ⟨j - l.rotary_dim / 2, by omega, .inr (by omega)⟩
    obtain ⟨i, hi, hidx⟩ := (exists_lanes_iff hblock).2 hlt
    exact ⟨i, hi, (mem_stores (hlanes i)).2 ⟨rfl, idx, hidx, j, hjdx, ha, hv⟩⟩

theorem mem_kernel (hblock : 0 < BLOCK_SIZE) (hkv : l.num_kv_heads ≤ l.num_heads) :
    ((t, a), v) ∈ l.apply_rotary_pos_emb_kernel BLOCK_SIZE token ↔
      ∃ head < l.heads t, ∃ j < l.rotary_dim / 2 * 2, a = l.head_ptr t token head + j ∧ v = l.output t token head j := by
  simp only [apply_rotary_pos_emb_kernel, List.mem_flatMap, List.mem_range, List.mem_append]
  constructor
  · rintro ⟨head, hhead, i, hi, h | h⟩
    · obtain ⟨rfl, hj⟩ := (mem_head_stores hblock).1 ⟨i, hi, h⟩
      exact ⟨head, hhead, hj⟩
    · by_cases hlt : head < l.num_kv_heads
      · rw [if_pos hlt] at h
        obtain ⟨rfl, hj⟩ := (mem_head_stores hblock).1 ⟨i, hi, h⟩
        exact ⟨head, hlt, hj⟩
      · rw [if_neg hlt] at h
        exact absurd h List.not_mem_nil
  · rintro ⟨head, hhead, hj⟩
    obtain ⟨i, hi, h⟩ := (mem_head_stores hblock).2 ⟨rfl, hj⟩
    cases t with
    | query => exact ⟨head, hhead, i, hi, .inl h⟩
    | key =>
      have hlt : head < l.num_kv_heads := hhead
      exact ⟨head, Nat.lt_of_lt_of_le hlt hkv, i, hi, .inr (by rw [if_pos hlt]; exact h)⟩

theorem mem_grid (hblock : 0 < BLOCK_SIZE) (hkv : l.num_kv_heads ≤ l.num_heads) :
    ((t, a), v) ∈ l.grid BLOCK_SIZE num_tokens ↔ ∃ token < num_tokens, ∃ head < l.heads t, ∃ j < l.rotary_dim / 2 * 2,
      a = l.head_ptr t token head + j ∧ v = l.output t token head j := by
  simp only [grid, List.mem_flatMap, List.mem_range, mem_kernel hblock hkv]

/-! ### The addresses -/

theorem digits_inj {n q q' r r' : Nat} (hr : r < n) (hr' : r' < n) (h : q * n + r = q' * n + r') : q = q' ∧ r = r' := by
  have hn : 0 < n := Nat.lt_of_le_of_lt (Nat.zero_le r) hr
  have hq : q = q' := by
    have := congrArg (· / n) h
    simpa [Nat.mul_comm _ n, Nat.mul_add_div hn, Nat.div_eq_of_lt hr, Nat.div_eq_of_lt hr'] using this
  subst hq
  exact ⟨rfl, Nat.add_left_cancel h⟩

omit [Add R] [Sub R] [Mul R] in
theorem head_lt (hhead : head < l.heads t) (hj : j < l.head_dim) :
    head * l.head_dim + j < l.heads t * l.head_dim :=
  Nat.lt_of_lt_of_le (Nat.add_lt_add_left hj _) (by rw [← Nat.succ_mul]; exact Nat.mul_le_mul_right _ hhead)

omit [Add R] [Sub R] [Mul R] in
theorem address_inj (hhead : head < l.heads t) (hhead' : head' < l.heads t) (hj : j < l.head_dim) (hj' : j' < l.head_dim)
    (h : l.head_ptr t token head + j = l.head_ptr t token' head' + j') : token = token' ∧ head = head' ∧ j = j' := by
  rw [head_ptr, head_ptr, Nat.add_assoc, Nat.add_assoc] at h
  obtain ⟨htoken, h⟩ := digits_inj (head_lt hhead hj) (head_lt hhead' hj') h
  exact ⟨htoken, digits_inj hj hj' h⟩

/-! ### A launch -/

theorem run_grid (hblock : 0 < BLOCK_SIZE) (hkv : l.num_kv_heads ≤ l.num_heads) (hdim : l.rotary_dim ≤ l.head_dim)
    {stores : List ((RotaryTensor × Nat) × R)} (out : RotaryTensor × Nat → R)
    (hperm : stores.Perm (l.grid BLOCK_SIZE num_tokens)) (htoken : token < num_tokens) (hhead : head < l.heads t)
    (hj : j < l.head_dim) :
    run stores out (t, l.head_ptr t token head + j) =
      if j < l.rotary_dim / 2 * 2 then l.output t token head j else out (t, l.head_ptr t token head + j) := by
  have hmem : ∀ v, ((t, l.head_ptr t token head + j), v) ∈ stores ↔
      j < l.rotary_dim / 2 * 2 ∧ v = l.output t token head j := fun v => by
    rw [hperm.mem_iff, mem_grid hblock hkv]
    constructor
    · rintro ⟨token', _, head', hhead', j', hj', ha, rfl⟩
      obtain ⟨rfl, rfl, rfl⟩ := address_inj hhead hhead' hj (by omega) ha
      exact ⟨hj', rfl⟩
    · rintro ⟨hlt, rfl⟩
      exact ⟨token, htoken, head, hhead, j, hlt, rfl, rfl⟩
  by_cases hlt : j < l.rotary_dim / 2 * 2
  · rw [if_pos hlt]
    exact run_of_mem ((hmem _).2 ⟨hlt, rfl⟩) fun v' hv' => ((hmem v').1 hv').2
  · rw [if_neg hlt]
    exact run_of_notMem fun v hv => hlt ((hmem v).1 hv).1

/-- The programs' stores in any order leave the rotated entries, and beyond the rotated dimensions and beyond the
tokens what was there. -/
theorem grid_rotates (l : RotaryLaunch R) (BLOCK_SIZE num_tokens : Nat) (stores : List ((RotaryTensor × Nat) × R))
    (out : RotaryTensor × Nat → R) (hblock : 0 < BLOCK_SIZE) (hkv : l.num_kv_heads ≤ l.num_heads)
    (hdim : l.rotary_dim ≤ l.head_dim) (hperm : stores.Perm (l.grid BLOCK_SIZE num_tokens)) :
    (∀ t, ∀ token < num_tokens, ∀ head < l.heads t, ∀ j < l.head_dim,
      run stores out (t, l.head_ptr t token head + j) =
        if j < l.rotary_dim / 2 * 2 then l.output t token head j else out (t, l.head_ptr t token head + j)) ∧
    ∀ t a, num_tokens * (l.heads t * l.head_dim) ≤ a → run stores out (t, a) = out (t, a) := by
  refine ⟨fun t token htoken head hhead j hj => run_grid hblock hkv hdim out hperm htoken hhead hj, fun t a ha => ?_⟩
  refine run_of_notMem fun v hv => ?_
  obtain ⟨token, htoken, head, hhead, j, hj, rfl, _⟩ := (mem_grid hblock hkv).1 (hperm.mem_iff.1 hv)
  have hlt := head_lt (l := l) (t := t) (j := j) hhead (by omega)
  have hrow := Nat.mul_le_mul_right (l.heads t * l.head_dim) (Nat.succ_le_of_lt htoken)
  rw [head_ptr] at ha
  rw [Nat.succ_mul] at hrow
  omega

end

/-- Two query heads and a key head, six of eight entries rotated -/
def two_heads : RotaryLaunch Int := ⟨fun _ a => a + 3, fun token => token, fun a => a, 2, 1, 8, 6⟩

/-- Two tokens, with blocks of two lanes of which the second one reaches beyond the three pairs; the stores in
reverse order -/
theorem grid_rotates_reverse :
    (∀ t, ∀ token < 2, ∀ head < two_heads.heads t, ∀ j < two_heads.head_dim,
      run (two_heads.grid 2 2).reverse (fun _ => 0) (t, two_heads.head_ptr t token head + j) =
        if j < two_heads.rotary_dim / 2 * 2 then two_heads.output t token head j else 0) ∧
    (∀ t a, 2 * (two_heads.heads t * two_heads.head_dim) ≤ a →
      run (two_heads.grid 2 2).reverse (fun _ => 0) (t, a) = 0) ∧
    run (two_heads.grid 2 2).reverse (fun _ => 0) (.query, 24 + 2) = 29 * 14 - 32 * 20 := by
  obtain ⟨hrows, hbeyond⟩ := grid_rotates two_heads 2 2 _ (fun _ => 0) Nat.two_pos (by decide) (by decide)
    (List.reverse_perm _)
  exact ⟨hrows, hbeyond, (hrows .query 1 (by decide) 1 (by decide) 2 (by decide)).trans rfl⟩

end RotaryLaunch

/-- `rotary_pos_emb`, on queries, keys and a table of these widths -/
def rotary_pos_emb {R : Type} (input : RotaryTensor → Nat → R) (positions : Nat → Nat) (cos_sin_cache : Nat → R)
    (query_width key_width cache_width head_dim : Nat) : RotaryLaunch R where
  input := input
  positions := positions
  cos_sin_cache := cos_sin_cache
  num_heads := query_width / head_dim
  num_kv_heads := key_width / head_dim
  head_dim := head_dim
  rotary_dim := cache_width / 2

/-! ### Row by row -/

section
variable {R : Type} [CommRing R]

/-- A token's heads, all of `head_dim` rotated, with the token's row of the table -/
def rotate_row (head_dim : Nat) (cos_sin row : List R) : List R :=
  (List.range (row.length / head_dim)).flatMap fun head => (List.range head_dim).map
    (RotaryLaunch.rotated (head_dim / 2) (fun i => row[head * head_dim + i]?.getD 0) (fun i => cos_sin[i]?.getD 0)
      fun i => cos_sin[head_dim + i]?.getD 0)

theorem rotate_row_slice {head_dim n a b : Nat} {cos_sin row : List R} (hdim : 0 < head_dim)
    (hrow : row.length = n * head_dim) (hab : a ≤ b) (hbn : b ≤ n) :
    rotate_row head_dim cos_sin (slice row (a * head_dim) (b * head_dim)) =
      slice (rotate_row head_dim cos_sin row) (a * head_dim) (b * head_dim) := by
  have hlen : (slice row (a * head_dim) (b * head_dim)).length / head_dim = b - a := by
    rw [length_slice, hrow, Nat.min_eq_left (Nat.mul_le_mul_right _ hbn), ← Nat.sub_mul, Nat.mul_div_cancel _ hdim]
  rw [rotate_row, rotate_row, hlen, hrow, Nat.mul_div_cancel n hdim,
    Linear.slice_pieces (fun h _ => by rw [List.length_map, List.length_range]) hab hbn]
  rw [List.flatMap_def, List.flatMap_def]
  refine congrArg List.flatten (List.map_congr_left fun head hhead => List.map_congr_left fun j hj => ?_)
  refine RotaryLaunch.rotated_congr (fun i hi => ?_) (fun _ _ => rfl) (fun _ _ => rfl) (List.mem_range.1 hj)
  have hlt : (a + head + 1) * head_dim ≤ b * head_dim :=
    Nat.mul_le_mul_right _ (by have := List.mem_range.1 hhead; omega)
  rw [Nat.succ_mul] at hlt
  rw [getElem?_slice, ← Nat.add_assoc, ← Nat.add_mul, if_pos (by omega)]

/-- Each token's row, with the row of the table for its position -/
def rotate_rows (head_dim : Nat) (table : List (List R)) (positions : List Nat) (x : List (List R)) : List (List R) :=
  List.zipWith (fun pos row => rotate_row head_dim (table[pos]?.getD []) row) positions x

theorem rotate_rows_cols {head_dim n a b : Nat} {table x : List (List R)} {positions : List Nat} (hdim : 0 < head_dim)
    (hx : ∀ row ∈ x, row.length = n * head_dim) (hab : a ≤ b) (hbn : b ≤ n) :
    rotate_rows head_dim table positions (Linear.cols (a * head_dim) (b * head_dim) x) =
      Linear.cols (a * head_dim) (b * head_dim) (rotate_rows head_dim table positions x) := by
  simp only [rotate_rows, Linear.cols, List.zipWith_map_right, List.map_zipWith]
  refine List.ext_getElem (by simp) fun i hi _ => ?_
  rw [List.getElem_zipWith, List.getElem_zipWith]
  exact rotate_row_slice hdim (hx _ (List.getElem_mem _)) hab hbn

theorem length_of_mem_rotate_rows {head_dim n : Nat} {table x : List (List R)} {positions : List Nat} (hdim : 0 < head_dim)
    (hx : ∀ row ∈ x, row.length = n * head_dim) {row : List R} (hrow : row ∈ rotate_rows head_dim table positions x) :
    row.length = n * head_dim := by
  obtain ⟨i, hi, rfl⟩ := List.mem_iff_getElem.1 hrow
  rw [rotate_rows, List.length_zipWith] at hi
  simp only [rotate_rows, List.getElem_zipWith]
  have hlen := hx _ (List.getElem_mem (show i < x.length by omega))
  rw [rotate_row, Linear.length_pieces fun h _ => by rw [List.length_map, List.length_range], List.length_range, hlen,
    Nat.mul_div_cancel n hdim]

/-- The items of a contiguous tensor -/
def contiguous (rows : List (List R)) (a : Nat) : R := rows.flatten[a]?.getD 0

/-- The rows of a tensor in memory -/
def read_rows (memory : RotaryTensor × Nat → R) (t : RotaryTensor) (num_tokens width : Nat) : List (List R) :=
  (List.range num_tokens).map fun token => (List.range width).map fun c => memory (t, token * width + c)

variable {rows : RotaryTensor → List (List R)} {positions : List Nat} {table : List (List R)}
  {head_dim num_heads num_kv_heads BLOCK_SIZE : Nat}

/-- The entry that a launch on contiguous rows computes is the one of the row, with the row of the table for the
token's position. -/
theorem output_contiguous {l : RotaryLaunch R} {t : RotaryTensor} {token head j : Nat} (htoken : token < positions.length)
    (htoken' : token < (rows t).length) (hinput : l.input t = contiguous (rows t))
    (hposition : l.positions token = positions[token]) (hcache : l.cos_sin_cache = contiguous table)
    (hrotary : l.rotary_dim = head_dim) (hdim : l.head_dim = head_dim)
    (hwidth : ∀ row ∈ rows t, row.length = l.heads t * head_dim) (htable : ∀ row ∈ table, row.length = 2 * head_dim)
    (hpos : positions[token] < table.length) (hhead : head < l.heads t) (hj : j < head_dim) :
    l.output t token head j = RotaryLaunch.rotated (head_dim / 2) (fun i => (rows t)[token][head * head_dim + i]?.getD 0)
      (fun i => (table[positions[token]]?.getD [])[i]?.getD 0)
      (fun i => (table[positions[token]]?.getD [])[head_dim + i]?.getD 0) j := by
  have hentry : ∀ i < 2 * head_dim, contiguous table (positions[token] * (2 * head_dim) + i) =
      (table[positions[token]]?.getD [])[i]?.getD 0 := fun i hi => by
    rw [contiguous, Linear.getElem?_flatten htable hpos hi]
  rw [RotaryLaunch.output, hrotary]
  refine RotaryLaunch.rotated_congr (fun i hi => ?_) (fun i hi => ?_) (fun i hi => ?_) hj
  · have hcol : head * head_dim + i < l.heads t * head_dim := by
      have := RotaryLaunch.head_lt (l := l) hhead (hdim.symm ▸ hi)
      rwa [hdim] at this
    rw [hinput, RotaryLaunch.head_ptr, hdim, contiguous, Nat.add_assoc, Linear.getElem?_flatten hwidth htoken' hcol,
      List.getElem?_eq_getElem htoken', Option.getD_some]
  · rw [RotaryLaunch.cos, hcache, hrotary, hposition, Nat.mul_comm head_dim 2]
    exact hentry i (by omega)
  · rw [RotaryLaunch.sin, hcache, hrotary, hposition, Nat.mul_comm head_dim 2, Nat.add_assoc]
    exact hentry (head_dim + i) (by omega)

/-- A launch computes the rotated rows. -/
theorem rotary_pos_emb_rows (hblock : 0 < BLOCK_SIZE) (hdim : 0 < head_dim) (heven : 2 ∣ head_dim)
    (hkv : num_kv_heads ≤ num_heads) (hquery : ∀ row ∈ rows .query, row.length = num_heads * head_dim)
    (hkey : ∀ row ∈ rows .key, row.length = num_kv_heads * head_dim)
    (hlen : ∀ t, (rows t).length = positions.length) (htable : ∀ row ∈ table, row.length = 2 * head_dim)
    (hpos : ∀ pos ∈ positions, pos < table.length) {stores : List ((RotaryTensor × Nat) × R)}
    {out : RotaryTensor × Nat → R} (t : RotaryTensor) :
    let l := rotary_pos_emb (fun t => contiguous (rows t)) (fun token => positions[token]?.getD 0) (contiguous table)
      (num_heads * head_dim) (num_kv_heads * head_dim) (2 * head_dim) head_dim
    stores.Perm (l.grid BLOCK_SIZE positions.length) →
    read_rows (run stores out) t positions.length (l.heads t * head_dim) =
      rotate_rows head_dim table positions (rows t) := by
  intro l hperm
  have hheads : l.num_heads = num_heads ∧ l.num_kv_heads = num_kv_heads :=
    ⟨Nat.mul_div_cancel _ hdim, Nat.mul_div_cancel _ hdim⟩
  have hrotary : l.rotary_dim = head_dim := Nat.mul_div_cancel_left _ Nat.two_pos
  have hwidth : ∀ row ∈ rows t, row.length = l.heads t * head_dim := by
    cases t with
    | query => rw [RotaryLaunch.heads, hheads.1]; exact hquery
    | key => rw [RotaryLaunch.heads, hheads.2]; exact hkey
  refine List.ext_getElem (by simp [read_rows, rotate_rows, hlen]) fun token htoken _ => ?_
  have htoken : token < positions.length := by simpa [read_rows] using htoken
  have htoken' : token < (rows t).length := by rw [hlen]; exact htoken
  have hposition : l.positions token = positions[token] := by
    show positions[token]?.getD 0 = _
    rw [List.getElem?_eq_getElem htoken]
    rfl
  simp only [read_rows, rotate_rows, List.getElem_map, List.getElem_range, List.getElem_zipWith]
  rw [Linear.map_range_mul, rotate_row, hwidth _ (List.getElem_mem htoken'), Nat.mul_div_cancel _ hdim, List.flatMap_def,
    List.flatMap_def]
  refine congrArg List.flatten (List.map_congr_left fun head hhead => List.map_congr_left fun j hj => ?_)
  have hhead := List.mem_range.1 hhead
  have hj := List.mem_range.1 hj
  have hgrid := RotaryLaunch.run_grid (l := l) (t := t) hblock (by rw [hheads.1, hheads.2]; exact hkv)
    hrotary.le out hperm htoken hhead hj
  rw [hrotary, if_pos (by omega), RotaryLaunch.head_ptr, Nat.add_assoc] at hgrid
  exact hgrid.trans (output_contiguous htoken htoken' rfl hposition rfl hrotary rfl hwidth htable
    (hpos _ (List.getElem_mem htoken)) hhead hj)

end

/-! ### Relative positions -/

section
open Finset (range)

/-- The table's row for position `t` -/
noncomputable def cos_sin_row (inv_freq : List ℝ) (t : Nat) : List ℝ :=
  let freqs := inv_freq.map ((t : ℝ) * ·)
  let emb := freqs ++ freqs
  emb.map Real.cos ++ emb.map Real.sin

/-- The table of `RotaryEmbedding.__init__` -/
noncomputable def cos_sin_cached (inv_freq : List ℝ) (max_position_embeddings : Nat) : List (List ℝ) :=
  (List.range max_position_embeddings).map (cos_sin_row inv_freq)

/-- `forward` with `rotary_dim = head_dim` -/
noncomputable def RotaryEmbedding.forward (inv_freq : List ℝ) (max_position_embeddings : Nat)
    (input : RotaryTensor → Nat → ℝ) (positions : Nat → Nat) (query_width key_width : Nat) : RotaryLaunch ℝ :=
  rotary_pos_emb input positions (fun a => (cos_sin_cached inv_freq max_position_embeddings).flatten[a]?.getD 0)
    query_width key_width (4 * inv_freq.length) (2 * inv_freq.length)

/-- The product of a query head and a key head -/
noncomputable def RotaryLaunch.product (l : RotaryLaunch ℝ) (memory : RotaryTensor × Nat → ℝ)
    (token head token' head' : Nat) : ℝ :=
  ∑ j ∈ range l.head_dim, memory (.query, l.head_ptr .query token head + j) * memory (.key, l.head_ptr .key token' head' + j)

variable {inv_freq : List ℝ} {max_position : Nat} {input : RotaryTensor → Nat → ℝ} {positions : Nat → Nat}
  {query_width key_width token token' head head' : Nat}

/-- The angle by which a pair of entries turns -/
noncomputable def angle (inv_freq : List ℝ) (pos j : Nat) : ℝ := pos * inv_freq[j]?.getD 0

theorem cos_sin_row_entries (pos : Nat) {j : Nat} (hj : j < inv_freq.length) :
    ((cos_sin_row inv_freq pos)[j]? = some (Real.cos (angle inv_freq pos j)) ∧
      (cos_sin_row inv_freq pos)[inv_freq.length + j]? = some (Real.cos (angle inv_freq pos j))) ∧
    (cos_sin_row inv_freq pos)[2 * inv_freq.length + j]? = some (Real.sin (angle inv_freq pos j)) ∧
      (cos_sin_row inv_freq pos)[2 * inv_freq.length + (inv_freq.length + j)]? =
        some (Real.sin (angle inv_freq pos j)) := by
  have hangle : angle inv_freq pos j = pos * inv_freq[j] := by
    rw [angle, List.getElem?_eq_getElem hj]; rfl
  rw [hangle, cos_sin_row]
  refine ⟨⟨?_, ?_⟩, ?_, ?_⟩
  · grind
  · grind
  · grind
  · grind

theorem cos_sin_cached_entry {pos i : Nat} (hpos : pos < max_position) (hi : i < 4 * inv_freq.length) :
    (cos_sin_cached inv_freq max_position).flatten[pos * (4 * inv_freq.length) + i]? = (cos_sin_row inv_freq pos)[i]? := by
  rw [cos_sin_cached, ← List.flatMap_def]
  refine Linear.getElem?_pieces (fun h _ => ?_) hpos hi
  simp only [cos_sin_row, List.length_append, List.length_map]
  omega

theorem RotaryEmbedding.forward_rotary_dim :
    (forward inv_freq max_position input positions query_width key_width).rotary_dim = 2 * inv_freq.length := by
  show 4 * inv_freq.length / 2 = _
  omega

variable (input query_width key_width) in
theorem RotaryEmbedding.forward_table {j : Nat} (hpos : positions token < max_position) (hj : j < inv_freq.length) :
    let l := forward inv_freq max_position input positions query_width key_width
    (l.cos token j = Real.cos (angle inv_freq (positions token) j) ∧
      l.cos token (inv_freq.length + j) = Real.cos (angle inv_freq (positions token) j)) ∧
    l.sin token j = Real.sin (angle inv_freq (positions token) j) ∧
      l.sin token (inv_freq.length + j) = Real.sin (angle inv_freq (positions token) j) := by
  have hwidth : 2 * inv_freq.length * 2 = 4 * inv_freq.length := by omega
  have hentry : ∀ i < 4 * inv_freq.length,
      (forward inv_freq max_position input positions query_width key_width).cos_sin_cache
        (positions token * (4 * inv_freq.length) + i) = (cos_sin_row inv_freq (positions token))[i]?.getD 0 := fun i hi =>
    congrArg (·.getD 0) (cos_sin_cached_entry hpos hi)
  have hpositions : (forward inv_freq max_position input positions query_width key_width).positions = positions := rfl
  simp only [RotaryLaunch.cos, RotaryLaunch.sin, forward_rotary_dim, hwidth, hpositions, Nat.add_assoc]
  obtain ⟨⟨hcos, hcos'⟩, hsin, hsin'⟩ := cos_sin_row_entries (positions token) hj
  rw [hentry _ (by omega), hentry _ (by omega), hentry _ (by omega), hentry _ (by omega), hcos, hcos', hsin, hsin']
  exact ⟨⟨rfl, rfl⟩, rfl, rfl⟩

theorem pairs_turned (q q' k k' a b c : ℝ) :
    (q * Real.cos (a + c) - q' * Real.sin (a + c)) * (k * Real.cos (b + c) - k' * Real.sin (b + c)) +
        (q' * Real.cos (a + c) + q * Real.sin (a + c)) * (k' * Real.cos (b + c) + k * Real.sin (b + c)) =
      (q * Real.cos a - q' * Real.sin a) * (k * Real.cos b - k' * Real.sin b) +
        (q' * Real.cos a + q * Real.sin a) * (k' * Real.cos b + k * Real.sin b) := by
  rw [Real.cos_add, Real.sin_add, Real.cos_add, Real.sin_add]
  linear_combination ((q * Real.cos a - q' * Real.sin a) * (k * Real.cos b - k' * Real.sin b) +
    (q' * Real.cos a + q * Real.sin a) * (k' * Real.cos b + k * Real.sin b)) * Real.sin_sq_add_cos_sq c

variable (input positions query_width key_width head) in
theorem RotaryEmbedding.forward_output {j : Nat} (t : RotaryTensor) (hpos : positions token < max_position)
    (hj : j < inv_freq.length) :
    let l := forward inv_freq max_position input positions query_width key_width
    let x := l.head_ptr t token head
    let a := angle inv_freq (positions token) j
    l.output t token head j = input t (x + j) * Real.cos a - input t (x + (inv_freq.length + j)) * Real.sin a ∧
    l.output t token head (inv_freq.length + j) =
      input t (x + (inv_freq.length + j)) * Real.cos a + input t (x + j) * Real.sin a := by
  have hhalf : 2 * inv_freq.length / 2 = inv_freq.length := by omega
  obtain ⟨⟨hcos, hcos'⟩, hsin, hsin'⟩ :=
    forward_table input query_width key_width hpos hj
  constructor
  · rw [RotaryLaunch.output, forward_rotary_dim, hhalf, RotaryLaunch.rotated_low hj, hcos, hsin]
    rfl
  · rw [RotaryLaunch.output, forward_rotary_dim, hhalf, RotaryLaunch.rotated_high, hcos', hsin']
    rfl

/-- What a launch leaves of a product: a sum over the pairs. -/
theorem RotaryEmbedding.product_eq {num_tokens : Nat} {stores : List ((RotaryTensor × Nat) × ℝ)} (out : RotaryTensor × Nat → ℝ)
    (hfreq : inv_freq ≠ []) (hkv : key_width ≤ query_width)
    (hperm : stores.Perm ((forward inv_freq max_position input positions query_width key_width).grid
      inv_freq.length num_tokens))
    (htoken : token < num_tokens) (htoken' : token' < num_tokens) (hhead : head < query_width / (2 * inv_freq.length))
    (hhead' : head' < key_width / (2 * inv_freq.length)) :
    let l := forward inv_freq max_position input positions query_width key_width
    l.product (run stores out) token head token' head' = ∑ j ∈ range inv_freq.length,
      (l.output .query token head j * l.output .key token' head' j +
        l.output .query token head (inv_freq.length + j) * l.output .key token' head' (inv_freq.length + j)) := by
  intro l
  have hdim : l.head_dim = inv_freq.length + inv_freq.length := Nat.two_mul _
  have hrotary : l.rotary_dim = l.head_dim := forward_rotary_dim
  have hall : ∀ j < l.head_dim, j < l.rotary_dim / 2 * 2 := fun j hj => by omega
  have hrun : ∀ t, ∀ token < num_tokens, ∀ head < l.heads t, ∀ j < l.head_dim,
      run stores out (t, l.head_ptr t token head + j) = l.output t token head j := fun t token htoken head hhead j hj => by
    rw [RotaryLaunch.run_grid (List.length_pos_iff.2 hfreq) (Nat.div_le_div_right hkv) hrotary.le out hperm htoken hhead hj,
      if_pos (hall j hj)]
  rw [RotaryLaunch.product, Finset.sum_congr rfl fun j hj => by
    rw [hrun .query token htoken head hhead j (Finset.mem_range.1 hj),
      hrun .key token' htoken' head' hhead' j (Finset.mem_range.1 hj)], hdim, Finset.sum_range_add, ← Finset.sum_add_distrib]

/-- Later positions, by the same number for all tokens, leave the products of queries and keys as they are. -/
theorem RotaryEmbedding.products_shift (inv_freq : List ℝ) (max_position : Nat) (input : RotaryTensor → Nat → ℝ)
    (positions : Nat → Nat) (query_width key_width num_tokens d : Nat) (stores stores' : List ((RotaryTensor × Nat) × ℝ))
    (out out' : RotaryTensor × Nat → ℝ) (hfreq : inv_freq ≠ []) (hkv : key_width ≤ query_width)
    (hpos : ∀ token < num_tokens, positions token + d < max_position)
    (hperm : stores.Perm ((forward inv_freq max_position input positions query_width key_width).grid
      inv_freq.length num_tokens))
    (hperm' : stores'.Perm ((forward inv_freq max_position input (positions · + d) query_width key_width).grid
      inv_freq.length num_tokens)) :
    let l := forward inv_freq max_position input positions query_width key_width
    ∀ token < num_tokens, ∀ token' < num_tokens, ∀ head < l.num_heads, ∀ head' < l.num_kv_heads,
      l.product (run stores' out') token head token' head' = l.product (run stores out) token head token' head' := by
  intro l token htoken token' htoken' head hhead head' hhead'
  have hshift : ∀ pos j, angle inv_freq (pos + d) j = angle inv_freq pos j + angle inv_freq d j := fun pos j => by
    rw [angle, angle, angle, Nat.cast_add, add_mul]
  have hold := product_eq out hfreq hkv hperm htoken htoken' hhead hhead'
  have hnew := product_eq out' hfreq hkv hperm' htoken htoken' hhead hhead'
  refine (show l.product (run stores' out') token head token' head' = _ from hnew).trans (Eq.trans ?_ hold.symm)
  refine Finset.sum_congr rfl fun j hj => ?_
  have hj := Finset.mem_range.1 hj
  have hlt : ∀ token < num_tokens, positions token < max_position := fun token htoken =>
    Nat.lt_of_le_of_lt (Nat.le_add_right _ d) (hpos token htoken)
  obtain ⟨hq, hq'⟩ := forward_output input positions query_width key_width head .query (hlt token htoken) hj
  obtain ⟨hk, hk'⟩ := forward_output input positions query_width key_width head' .key (hlt token' htoken') hj
  obtain ⟨hqd, hqd'⟩ := forward_output input (positions · + d) query_width key_width head .query (hpos token htoken) hj
  obtain ⟨hkd, hkd'⟩ := forward_output input (positions · + d) query_width key_width head' .key (hpos token' htoken') hj
  rw [hq, hq', hk, hk', hqd, hqd', hkd, hkd', hshift, hshift]
  exact pairs_turned _ _ _ _ _ _ _

/-- Two tokens, one position later -/
theorem RotaryEmbedding.products_shift_two :
    let l := forward [1] 3 (fun _ a => a) id 2 2
    let l' := forward [1] 3 (fun _ a => a) (· + 1) 2 2
    ∀ token < 2, ∀ token' < 2, ∀ head < l.num_heads, ∀ head' < l.num_kv_heads,
      l.product (run (l'.grid 1 2) fun _ => 0) token head token' head' =
        l.product (run (l.grid 1 2) fun _ => 0) token head token' head' :=
  products_shift [1] 3 (fun _ a => a) id 2 2 2 1 _ _ _ _ (by simp) (by decide) (by decide) (List.Perm.refl _)
    (List.Perm.refl _)

end

end LMServe
