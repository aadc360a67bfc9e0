import Mathlib.Algebra.Order.Floor.Div
import Mathlib.Data.List.Range
import Mathlib.Tactic.Ring

/-!
# Cutting a list into chunks

Division rounded up, ranges with a step, and slices: the arithmetic of a list stored in chunks of a
fixed positive size, the last of which may be partly filled.
-/

namespace Chunk

/-- `a / b` rounded up. -/
def div_ceil (a b : Nat) : Nat := (a + b - 1) / b

/-- `start`, `start + step`, … below `stop`. -/
def step_by (start stop step : Nat) : List Nat :=
  (List.range (div_ceil (stop - start) step)).map fun k => start + k * step

/-- The items from position `start` to position `stop`, the latter excluded. -/
def slice {α : Type} (xs : List α) (start stop : Nat) : List α := (xs.take stop).drop start

/-! ### `div_ceil` -/

section
variable {a b c k : Nat}

theorem div_ceil_le_iff (hb : 0 < b) : div_ceil a b ≤ k ↔ a ≤ k * b := by
  unfold div_ceil
  rw [← Nat.ceilDiv_eq_add_pred_div, ceilDiv_le_iff_le_smul hb, smul_eq_mul, Nat.mul_comm]

theorem lt_div_ceil_iff (hb : 0 < b) : k < div_ceil a b ↔ k * b < a := by
  rw [← Nat.not_le, div_ceil_le_iff hb, Nat.not_le]

theorem le_div_ceil_mul (hb : 0 < b) : a ≤ div_ceil a b * b :=
  (div_ceil_le_iff hb).1 (Nat.le_refl _)

theorem div_ceil_mono (hb : 0 < b) (h : a ≤ c) : div_ceil a b ≤ div_ceil c b :=
  (div_ceil_le_iff hb).2 (Nat.le_trans h (le_div_ceil_mul hb))

@[simp] theorem div_ceil_mul (hb : 0 < b) : div_ceil (k * b) b = k := by
  refine Nat.le_antisymm ((div_ceil_le_iff hb).2 (Nat.le_refl _)) ?_
  by_contra h
  have h1 : div_ceil (k * b) b ≤ k - 1 := by omega
  rw [div_ceil_le_iff hb] at h1
  have h2 : k - 1 < k := by omega
  exact absurd (Nat.mul_lt_mul_of_pos_right h2 hb) (Nat.not_lt.2 h1)

@[simp] theorem div_ceil_zero (hb : 0 < b) : div_ceil 0 b = 0 := by
  simpa using div_ceil_mul (k := 0) hb

theorem div_ceil_sub_mul (hb : 0 < b) : div_ceil (a - k * b) b = div_ceil a b - k := by
  apply Nat.le_antisymm
  · rw [div_ceil_le_iff hb, Nat.sub_mul]
    have := le_div_ceil_mul (a := a) hb; omega
  · rw [Nat.sub_le_iff_le_add, div_ceil_le_iff hb, Nat.add_mul]
    have := le_div_ceil_mul (a := a - k * b) hb; omega

/-- A rounded-up quotient is the quotient, plus one if something is left over. -/
theorem div_ceil_eq_div (hb : 0 < b) : div_ceil a b = a / b + if b ∣ a then 0 else 1 := by
  split
  · rename_i h
    obtain ⟨c, rfl⟩ := h
    rw [Nat.mul_comm, div_ceil_mul hb, Nat.mul_div_cancel _ hb]; rfl
  · rename_i h
    have hmod : 0 < a % b := Nat.pos_of_ne_zero fun h0 => h (Nat.dvd_of_mod_eq_zero h0)
    have hdiv := Nat.div_add_mod a b
    have hlt := Nat.mod_lt a hb
    apply Nat.le_antisymm
    · rw [div_ceil_le_iff hb, Nat.add_mul, Nat.mul_comm]; omega
    · rw [Nat.add_one_le_iff, lt_div_ceil_iff hb, Nat.mul_comm]; omega

theorem div_ceil_eq_succ (hb : 0 < b) (ha : 0 < a) : div_ceil a b = (a - 1) / b + 1 := by
  unfold div_ceil
  rw [show a + b - 1 = (a - 1) + b by omega, Nat.add_div_right _ hb]

end

/-! ### `step_by` -/

theorem length_step_by (start stop step : Nat) :
    (step_by start stop step).length = div_ceil (stop - start) step := by
  simp [step_by]

theorem step_by_nil {start stop step : Nat} (hs : 0 < step) (h : stop ≤ start) :
    step_by start stop step = [] := by
  rw [step_by, Nat.sub_eq_zero_of_le h, div_ceil_zero hs]; rfl

theorem step_by_cons {start stop step : Nat} (hs : 0 < step) (h : start < stop) :
    step_by start stop step = start :: step_by (start + step) stop step := by
  have hpos : 0 < div_ceil (stop - start) step := (lt_div_ceil_iff hs).2 (by omega)
  have hsub : div_ceil (stop - (start + step)) step = div_ceil (stop - start) step - 1 := by
    rw [← Nat.sub_sub]
    simpa using div_ceil_sub_mul (a := stop - start) (k := 1) hs
  obtain ⟨m, hm⟩ : ∃ m, div_ceil (stop - start) step = m + 1 := ⟨_, (Nat.sub_add_cancel hpos).symm⟩
  rw [step_by, step_by, hsub, hm, List.range_succ_eq_map]
  simp only [List.map_cons, List.map_map, Nat.add_sub_cancel, Nat.zero_mul, Nat.add_zero]
  congr 1
  apply List.map_congr_left
  intro k _
  simp only [Function.comp_apply, Nat.succ_eq_add_one]
  ring

/-! ### `slice` -/

section
variable {α : Type} {xs ys : List α} {a b c : Nat}

@[simp] theorem length_slice : (slice xs a b).length = min b xs.length - a := by
  simp [slice]

theorem slice_append_slice (hab : a ≤ b) (hbc : b ≤ c) :
    slice xs a b ++ slice xs b c = slice xs a c := by
  unfold slice
  have htake : xs.take b = (xs.take c).take b := by rw [List.take_take, Nat.min_eq_left hbc]
  rw [htake]
  generalize xs.take c = ys
  conv_rhs => rw [← List.take_append_drop b ys, List.drop_append]
  congr 1
  rcases Nat.le_total b ys.length with hb | hb
  · have hzero : a - (ys.take b).length = 0 := by simp; omega
    rw [hzero, List.drop_zero]
  · rw [List.drop_eq_nil_of_le hb, List.drop_nil]

/-- A slice is not affected by what is appended behind it. -/
theorem slice_append_left (h : b ≤ xs.length) : slice (xs ++ ys) a b = slice xs a b := by
  unfold slice; rw [List.take_append_of_le_length h]

theorem slice_take (h : b ≤ c) : slice (xs.take c) a b = slice xs a b := by
  unfold slice; rw [List.take_take, Nat.min_eq_left h]

theorem getElem?_slice {i : Nat} : (slice xs a b)[i]? = if a + i < b then xs[a + i]? else none := by
  simp only [slice, List.getElem?_drop, List.getElem?_take]

theorem slice_slice {c d : Nat} (h : a + d ≤ b) : slice (slice xs a b) c d = slice xs (a + c) (a + d) := by
  refine List.ext_getElem? fun i => ?_
  rw [getElem?_slice, getElem?_slice, getElem?_slice, Nat.add_assoc]
  by_cases hi : c + i < d
  · rw [if_pos hi, if_pos (by omega), if_pos (by omega)]
  · rw [if_neg hi, if_neg (by omega)]

theorem slice_prefix (h : xs <+: ys) (hb : b ≤ xs.length) : slice ys a b = slice xs a b := by
  obtain ⟨zs, rfl⟩ := h; exact slice_append_left hb

end

end Chunk
