import LMServe.Packing
import LMServe.Rotary
import LMServe.TensorParallel

/-!
# Attention over some of the heads

`Attention.forward` (`models/layers/attention.py`) on the heads that a rank has. The kernels of flashinfer are
parameters. What tensor parallelism needs of them is that a group of query heads reads its own key-value head and
no other: on a range of key-value heads, with their query heads, they compute that range of the whole.
-/

open Chunk Linear

namespace LMServe

variable {R C : Type}

/-- The kernels, with the head counts and the head size that they are planned with or that the tensors have. `C` is
what a paged cache holds for one key-value head. -/
structure FlashInfer (R C : Type) where
  append_paged_kv_cache (num_kv_heads head_size : Nat) (key value : Rows R) (batch_indices : Option (List Nat))
    (positions : Option (List Int)) (kv_cache : List C)
    (kv_block_indices kv_block_indptrs kv_last_block_lens : Option (List Nat)) : List C
  prefill_run (wrapper : PrefillWrapper) (num_heads num_kv_heads head_size : Nat) (query : Rows R) (kv_cache : List C) : Rows R
  decode_run (wrapper : DecodeWrapper) (num_heads num_kv_heads head_size : Nat) (query : Rows R) (kv_cache : List C) : Rows R
  single_prefill_with_kv_cache (num_heads num_kv_heads head_size : Nat) (query key value : Rows R) : Rows R

/-- `forward`; `garbage` is what `torch.empty_like` finds. The cache is filled in place. -/
def Attention.forward (flashinfer : FlashInfer R C) (num_heads num_kv_heads head_size : Nat) (garbage : Nat → List R)
    (query key value : Rows R) (input_params : InputParams) (kv_cache : Option (List C)) : Rows R × Option (List C) :=
  match kv_cache with
  | some kv_cache =>
    let kv_cache := flashinfer.append_paged_kv_cache num_kv_heads head_size key value input_params.batch_indices
      input_params.positions kv_cache input_params.kv_block_indices input_params.kv_block_indptrs
      input_params.kv_last_block_lens
    let prefill_input_len := input_params.prefill_input_len
    let output := (List.range query.length).map garbage
    let output := match input_params.prefill_wrapper with
      | some wrapper =>
        flashinfer.prefill_run wrapper num_heads num_kv_heads head_size (query.take prefill_input_len) kv_cache ++
          output.drop prefill_input_len
      | none => output
    let output := match input_params.decode_wrapper with
      | some wrapper => output.take prefill_input_len ++
          flashinfer.decode_run wrapper num_heads num_kv_heads head_size (query.drop prefill_input_len) kv_cache
      | none => output
    (output, some kv_cache)
  | none => (flashinfer.single_prefill_with_kv_cache num_heads num_kv_heads head_size query key value, none)

/-! ### What the kernels are relied on for -/

/-- A kernel that attends with `g` query heads to every key-value head -/
structure AttendsByHead (run : Nat → Nat → Nat → Rows R → List C → Rows R) : Prop where
  shard : ∀ {n g d a k : Nat} {query : Rows R} {kv_cache : List C}, a + k ≤ n → kv_cache.length = n →
    (∀ row ∈ query, row.length = n * g * d) →
    run (k * g) k d (cols (a * g * d) ((a + k) * g * d) query) (slice kv_cache a (a + k)) =
      cols (a * g * d) ((a + k) * g * d) (run (n * g) n d query kv_cache)
  length_eq : ∀ num_heads num_kv_heads d query kv_cache, (run num_heads num_kv_heads d query kv_cache).length = query.length
  width_eq : ∀ num_heads num_kv_heads d query kv_cache, ∀ row ∈ run num_heads num_kv_heads d query kv_cache,
    row.length = num_heads * d

structure FlashInfer.Headwise (flashinfer : FlashInfer R C) : Prop where
  append : ∀ {n d a k : Nat} {key value : Rows R} {kv_cache : List C} batch_indices positions indices indptrs last,
    a + k ≤ n → kv_cache.length = n → (∀ row ∈ key, row.length = n * d) → (∀ row ∈ value, row.length = n * d) →
    flashinfer.append_paged_kv_cache k d (cols (a * d) ((a + k) * d) key) (cols (a * d) ((a + k) * d) value)
        batch_indices positions (slice kv_cache a (a + k)) indices indptrs last =
      slice (flashinfer.append_paged_kv_cache n d key value batch_indices positions kv_cache indices indptrs last) a (a + k)
  length_append : ∀ n d key value batch_indices positions kv_cache indices indptrs last,
    (flashinfer.append_paged_kv_cache n d key value batch_indices positions kv_cache indices indptrs last).length =
      kv_cache.length
  prefill : ∀ wrapper, AttendsByHead (flashinfer.prefill_run wrapper)
  decode : ∀ wrapper, AttendsByHead (flashinfer.decode_run wrapper)
  single : ∀ {n g d a k : Nat} {query key value : Rows R}, a + k ≤ n → (∀ row ∈ query, row.length = n * g * d) →
    (∀ row ∈ key, row.length = n * d) → (∀ row ∈ value, row.length = n * d) →
    flashinfer.single_prefill_with_kv_cache (k * g) k d (cols (a * g * d) ((a + k) * g * d) query)
        (cols (a * d) ((a + k) * d) key) (cols (a * d) ((a + k) * d) value) =
      cols (a * g * d) ((a + k) * g * d) (flashinfer.single_prefill_with_kv_cache (n * g) n d query key value)
  width_single : ∀ num_heads num_kv_heads d query key value,
    ∀ row ∈ flashinfer.single_prefill_with_kv_cache num_heads num_kv_heads d query key value, row.length = num_heads * d

/-- Every row of a batch of `num_rows` has a wrapper. -/
structure InputParams.Covers (params : InputParams) (num_rows : Nat) : Prop where
  prefill : params.prefill_wrapper = none → num_rows = 0 ∨ params.prefill_input_len = 0
  decode : params.decode_wrapper = none → num_rows ≤ params.prefill_input_len

/-- A batch of `_make_inputs` is covered. -/
theorem Packed.covers {page_size : Nat} {sorted : List InferInput} {input_ids : List Nat} {params : InputParams}
    (h : Packed page_size true sorted input_ids params) : params.Covers input_ids.length := by
  obtain ⟨prefill, decode, _, _, _, htake, hdrop, hwrappers⟩ := h.phases
  obtain ⟨hprefill, hdecode⟩ := hwrappers rfl
  constructor
  · intro hnone
    by_cases hpos : 0 < prefill.length
    · rw [hnone, if_pos hpos] at hprefill
      cases hprefill
    · rw [List.length_eq_zero_iff.1 (Nat.eq_zero_of_not_pos hpos), List.flatMap_nil, List.take_eq_nil_iff] at htake
      exact htake.symm.imp_left (congrArg List.length)
  · intro hnone
    by_cases hpos : 0 < decode.length
    · rw [if_pos hpos] at hdecode
      obtain ⟨w, _, hw⟩ := hdecode
      rw [hnone] at hw
      cases hw
    · rw [List.length_eq_zero_iff.1 (Nat.eq_zero_of_not_pos hpos), List.flatMap_nil, List.drop_eq_nil_iff] at hdrop
      exact hdrop

/-- What the attention computes of a batch that is covered -/
def attended (flashinfer : FlashInfer R C) (num_heads num_kv_heads head_size : Nat) (query : Rows R)
    (input_params : InputParams) (kv_cache : List C) : Rows R :=
  (match input_params.prefill_wrapper with
    | some wrapper => flashinfer.prefill_run wrapper num_heads num_kv_heads head_size
        (query.take input_params.prefill_input_len) kv_cache
    | none => []) ++
  match input_params.decode_wrapper with
    | some wrapper => flashinfer.decode_run wrapper num_heads num_kv_heads head_size
        (query.drop input_params.prefill_input_len) kv_cache
    | none => []

variable {flashinfer : FlashInfer R C} {n g d a k num_heads num_kv_heads head_size : Nat} {query key value : Rows R}
  {input_params : InputParams} {kv_cache : List C}

theorem Attention.forward_some (hheads : flashinfer.Headwise) (garbage : Nat → List R)
    (hcovers : input_params.Covers query.length) :
    forward flashinfer num_heads num_kv_heads head_size garbage query key value input_params (some kv_cache) =
      (attended flashinfer num_heads num_kv_heads head_size query input_params
        (flashinfer.append_paged_kv_cache num_kv_heads head_size key value input_params.batch_indices
          input_params.positions kv_cache input_params.kv_block_indices input_params.kv_block_indptrs
          input_params.kv_last_block_lens),
      some (flashinfer.append_paged_kv_cache num_kv_heads head_size key value input_params.batch_indices
          input_params.positions kv_cache input_params.kv_block_indices input_params.kv_block_indptrs
          input_params.kv_last_block_lens)) := by
  have hempty : ∀ rows : Rows R, rows.length = query.length → query.length ≤ input_params.prefill_input_len →
      rows.drop input_params.prefill_input_len = [] := fun rows hrows hlen => List.drop_eq_nil_of_le (hrows.le.trans hlen)
  have hgarbage : ((List.range query.length).map garbage).length = query.length := by
    rw [List.length_map, List.length_range]
  refine Prod.ext ?_ rfl
  cases hprefill : input_params.prefill_wrapper with
  | none =>
    have hzero : ((List.range query.length).map garbage).take input_params.prefill_input_len = [] := by
      rw [List.take_eq_nil_iff]
      rcases hcovers.prefill hprefill with hnil | hzero
      · exact .inr (by rw [hnil]; rfl)
      · exact .inl hzero
    cases hdecode : input_params.decode_wrapper with
    | none =>
      have hnil := List.take_append_drop input_params.prefill_input_len ((List.range query.length).map garbage)
      rw [hzero, hempty _ hgarbage (hcovers.decode hdecode)] at hnil
      simp only [forward, attended, hprefill, hdecode, ← hnil]
    | some wrapper => simp only [forward, attended, hprefill, hdecode, hzero]
  | some wrapper =>
    cases hdecode : input_params.decode_wrapper with
    | none =>
      have hnone := hempty _ hgarbage (hcovers.decode hdecode)
      simp only [forward, attended, hprefill, hdecode, hnone]
    | some wrapper' =>
      -- the first run fills the rows up to `prefill_input_len`, whatever was there
      have hlen := (hheads.prefill wrapper).length_eq num_heads num_kv_heads head_size
        (query.take input_params.prefill_input_len)
      simp only [forward, attended, hprefill, hdecode]
      rw [List.take_append, hlen, List.length_take, List.take_of_length_le (by rw [hlen, List.length_take]; omega),
        List.append_cancel_right_eq, List.append_right_eq_self, List.take_eq_nil_iff]
      by_cases hp : input_params.prefill_input_len ≤ query.length
      · exact .inl (by omega)
      · exact .inr (hempty _ hgarbage (by omega))

/-! ### On a rank's heads -/

theorem cols_append (x y : Rows R) (a b : Nat) : cols a b (x ++ y) = cols a b x ++ cols a b y := List.map_append

theorem cols_take (x : Rows R) (a b p : Nat) : (cols a b x).take p = cols a b (x.take p) := (List.map_take ..).symm

theorem cols_drop (x : Rows R) (a b p : Nat) : (cols a b x).drop p = cols a b (x.drop p) := (List.map_drop ..).symm

theorem attended_shard (hheads : flashinfer.Headwise) (hak : a + k ≤ n) (hcache : kv_cache.length = n)
    (hquery : ∀ row ∈ query, row.length = n * g * d) :
    attended flashinfer (k * g) k d (cols (a * g * d) ((a + k) * g * d) query) input_params (slice kv_cache a (a + k)) =
      cols (a * g * d) ((a + k) * g * d) (attended flashinfer (n * g) n d query input_params kv_cache) := by
  rw [attended, attended, cols_append, cols_take, cols_drop]
  congr 1
  · cases input_params.prefill_wrapper with
    | none => rfl
    | some wrapper =>
      exact (hheads.prefill wrapper).shard hak hcache fun row hrow => hquery row (List.mem_of_mem_take hrow)
  · cases input_params.decode_wrapper with
    | none => rfl
    | some wrapper =>
      exact (hheads.decode wrapper).shard hak hcache fun row hrow => hquery row (List.mem_of_mem_drop hrow)

theorem attended_width (hheads : flashinfer.Headwise) {row : List R}
    (hrow : row ∈ attended flashinfer num_heads num_kv_heads head_size query input_params kv_cache) :
    row.length = num_heads * head_size := by
  rw [attended, List.mem_append] at hrow
  rcases hrow with hrow | hrow
  · cases hprefill : input_params.prefill_wrapper with
    | none => rw [hprefill] at hrow; cases hrow
    | some wrapper => rw [hprefill] at hrow; exact (hheads.prefill wrapper).width_eq _ _ _ _ _ row hrow
  · cases hdecode : input_params.decode_wrapper with
    | none => rw [hdecode] at hrow; cases hrow
    | some wrapper => rw [hdecode] at hrow; exact (hheads.decode wrapper).width_eq _ _ _ _ _ row hrow

/-- What the attention computes on all the heads, with or without a cache -/
def Attention.whole (flashinfer : FlashInfer R C) (num_heads num_kv_heads head_size : Nat) (query key value : Rows R)
    (input_params : InputParams) (kv_cache : Option (List C)) : Rows R × Option (List C) :=
  forward flashinfer num_heads num_kv_heads head_size (fun _ => []) query key value input_params kv_cache

/-- On a range of the key-value heads the attention computes that range of the output and of the cache. -/
theorem Attention.forward_shard (hheads : flashinfer.Headwise) (garbage : Nat → List R) {kv_cache : Option (List C)}
    (hcovers : kv_cache.isSome → input_params.Covers query.length) (hak : a + k ≤ n)
    (hcache : ∀ c ∈ kv_cache, c.length = n) (hquery : ∀ row ∈ query, row.length = n * g * d)
    (hkey : ∀ row ∈ key, row.length = n * d) (hvalue : ∀ row ∈ value, row.length = n * d) :
    forward flashinfer (k * g) k d garbage (cols (a * g * d) ((a + k) * g * d) query)
        (cols (a * d) ((a + k) * d) key) (cols (a * d) ((a + k) * d) value) input_params
        (kv_cache.map (slice · a (a + k))) =
      (cols (a * g * d) ((a + k) * g * d) (whole flashinfer (n * g) n d query key value input_params kv_cache).1,
        (whole flashinfer (n * g) n d query key value input_params kv_cache).2.map (slice · a (a + k))) := by
  cases kv_cache with
  | none => exact Prod.ext (hheads.single hak hquery hkey hvalue) rfl
  | some kv_cache =>
    have hcovers := hcovers rfl
    have hcache := hcache kv_cache rfl
    have hlen : (cols (a * g * d) ((a + k) * g * d) query).length = query.length := List.length_map _
    have happend := hheads.append input_params.batch_indices input_params.positions input_params.kv_block_indices
      input_params.kv_block_indptrs input_params.kv_last_block_lens hak hcache hkey hvalue
    rw [whole, Option.map_some, forward_some hheads garbage (hlen ▸ hcovers), forward_some hheads _ hcovers, happend,
      attended_shard hheads hak ((hheads.length_append ..).trans hcache) hquery]
    rfl

theorem Attention.whole_shape (hheads : flashinfer.Headwise) {kv_cache : Option (List C)}
    (hcovers : kv_cache.isSome → input_params.Covers query.length) :
    (∀ row ∈ (whole flashinfer num_heads num_kv_heads head_size query key value input_params kv_cache).1,
      row.length = num_heads * head_size) ∧
    (whole flashinfer num_heads num_kv_heads head_size query key value input_params kv_cache).2.map List.length =
      kv_cache.map List.length := by
  cases kv_cache with
  | none => exact ⟨hheads.width_single _ _ _ _ _ _, rfl⟩
  | some kv_cache =>
    rw [whole, forward_some hheads _ (hcovers rfl)]
    exact ⟨fun row hrow => attended_width hheads hrow, congrArg some (hheads.length_append ..)⟩

end LMServe
