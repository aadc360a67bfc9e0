import LMServe.Worker
import LMServe.Lib.Ragged

/-!
# Packing a batch (`model_worker.py`)

The worker sorts its inputs by length and lays their tokens out one after the other, and so their positions
and their blocks; of each input only offsets are kept. Attention, the choice of the rows to predict from and
the answers then go by position.
-/

namespace LMServe
open Chunk Ragged

inductive WorkerError where
  /-- "seqlen_q of decode inputs should be 1" -/
  | seqlen_q
  | index
  deriving DecidableEq, Repr

/-! ### The wrappers -/

/-- What `plan` of the prefill wrapper is given -/
structure PrefillWrapper where
  qo_indptr : List Nat
  paged_kv_indptr : List Nat
  paged_kv_indices : List Nat
  paged_kv_last_page_len : List Nat
  deriving DecidableEq, Repr

/-- What `plan` of the decode wrapper is given -/
structure DecodeWrapper where
  indptr : List Nat
  indices : List Nat
  last_page_len : List Nat
  deriving DecidableEq, Repr

def kv_block_indices (inputs : List InferInput) : List Nat := inputs.flatMap fun data => data.block_ids

def kv_block_indptrs (inputs : List InferInput) : List Nat :=
  cumsum (0 :: inputs.map fun data => data.block_ids.length)

def kv_last_block_lens (page_size : Nat) (inputs : List InferInput) : List Nat :=
  inputs.map fun data => data.last_block_len page_size

def build_prefill_wrapper (inputs : List InferInput) (page_size : Nat) : PrefillWrapper where
  qo_indptr := cumsum (0 :: inputs.map fun data => data.input_len)
  paged_kv_indptr := kv_block_indptrs inputs
  paged_kv_indices := kv_block_indices inputs
  paged_kv_last_page_len := kv_last_block_lens page_size inputs

def build_decode_wrapper (inputs : List InferInput) (page_size : Nat) : Except WorkerError DecodeWrapper :=
  if ∀ data ∈ inputs, data.input_len = 1 then
    .ok ⟨kv_block_indptrs inputs, kv_block_indices inputs, kv_last_block_lens page_size inputs⟩
  else .error .seqlen_q

/-! ### `_make_inputs` -/

structure InputParams where
  position_ids : List Nat
  cu_seqlens_q : List Nat
  prefill_input_len : Nat
  prefill_wrapper : Option PrefillWrapper := none
  decode_wrapper : Option DecodeWrapper := none
  batch_indices : Option (List Nat) := none
  positions : Option (List Int) := none
  kv_block_indices : Option (List Nat) := none
  kv_block_indptrs : Option (List Nat) := none
  kv_last_block_lens : Option (List Nat) := none

/-- The arrays that `_make_inputs` fills input by input -/
structure Flattened where
  flatten_input_ids : List Nat := []
  position_ids : List Nat := []
  prefill_input_len : Nat := 0
  seqlens_q : List Nat := []
  prefill_data_list : List InferInput := []
  decode_data_list : List InferInput := []

def Flattened.push (acc : Flattened) (data : InferInput) : Flattened :=
  let acc :=
    if 1 < data.input_len then { acc with
      prefill_input_len := acc.prefill_input_len + data.input_len
      prefill_data_list := acc.prefill_data_list ++ [data] }
    else if data.input_len = 1 then { acc with decode_data_list := acc.decode_data_list ++ [data] }
    else acc
  { acc with
    flatten_input_ids := acc.flatten_input_ids ++ data.input_ids
    position_ids := acc.position_ids ++
      List.range' data.filled_token_len (data.context_len - data.filled_token_len)
    seqlens_q := acc.seqlens_q ++ [data.input_len] }

/-- The worker with what it calls: flashinfer, the model, the sampler and the tokenizer. `H` is a row of hidden
states, `L` a row of logits. -/
structure ModelWorker (H L : Type) where
  block_size : Nat
  get_seq_lens : List Nat → List Nat → Nat → List Nat
  get_batch_indices_positions : List Nat → List Nat → Nat → List Nat × List Int
  /-- the hidden states of a batch -/
  model : List Nat → InputParams → List H
  lm_head : H → L
  /-- the sampled ids and their probabilities -/
  sample : List L → List Nat × List Rat
  tokenizer_decode : Nat → String
  eos_token_ids : List Nat

def sort_inputs (inputs : List InferInput) : List InferInput :=
  inputs.mergeSort fun x y => decide (y.input_len ≤ x.input_len)

namespace ModelWorker
variable {H L : Type} (self : ModelWorker H L)

/-- `inputs` is sorted in place and comes back first. -/
def make_inputs (inputs : List InferInput) (use_cache : Bool) :
    Except WorkerError (List InferInput × List Nat × InputParams) := do
  let inputs := sort_inputs inputs
  let acc := inputs.foldl Flattened.push {}
  let cu_seqlens_q := cumsum (0 :: acc.seqlens_q)
  if use_cache then
    let page_size := self.block_size
    let prefill_wrapper := if 0 < acc.prefill_data_list.length then
      some (build_prefill_wrapper acc.prefill_data_list page_size) else none
    let decode_wrapper ← if 0 < acc.decode_data_list.length then
      (build_decode_wrapper acc.decode_data_list page_size).map some else pure none
    let (batch_indices, positions) := self.get_batch_indices_positions cu_seqlens_q
      (self.get_seq_lens (kv_block_indptrs inputs) (kv_last_block_lens page_size inputs) page_size)
      acc.seqlens_q.sum
    return (inputs, acc.flatten_input_ids, {
      position_ids := acc.position_ids
      cu_seqlens_q
      prefill_input_len := acc.prefill_input_len
      prefill_wrapper
      decode_wrapper
      batch_indices := some batch_indices
      positions := some positions
      kv_block_indices := some (kv_block_indices inputs)
      kv_block_indptrs := some (kv_block_indptrs inputs)
      kv_last_block_lens := some (kv_last_block_lens page_size inputs) })
  else
    return (inputs, acc.flatten_input_ids, {
      position_ids := acc.position_ids
      cu_seqlens_q
      prefill_input_len := acc.prefill_input_len })

end ModelWorker

/-! ### `execute` -/

/-- `xs[i]`, counted from the end if negative -/
def item_at {α : Type} (xs : List α) (i : Int) : Except WorkerError α :=
  let i := if 0 ≤ i then i else i + xs.length
  if i < 0 then .error .index
  else match xs[i.toNat]? with
    | some x => .ok x
    | none => .error .index

/-- Words are looked up before they are decoded. -/
def decode_words (tokenizer_decode : Nat → String) (vocab_cache : Table String) :
    List Nat → List String × Table String
  | [] => ([], vocab_cache)
  | next_token_id :: next_token_ids =>
    match vocab_cache.lookup next_token_id with
    | some next_word =>
      let (next_words, vocab_cache) := decode_words tokenizer_decode vocab_cache next_token_ids
      (next_word :: next_words, vocab_cache)
    | none =>
      let next_word := tokenizer_decode next_token_id
      let (next_words, vocab_cache) :=
        decode_words tokenizer_decode (vocab_cache.insert next_token_id next_word) next_token_ids
      (next_word :: next_words, vocab_cache)

/-- The `i`-th entries -/
def output_at (next_token_ids : List Nat) (probs : List Rat) (next_words : List String) (eos_mask : List Bool)
    (i : Nat) : Except WorkerError InferOutput :=
  match next_token_ids[i]?, probs[i]?, next_words[i]?, eos_mask[i]? with
  | some output_id, some prob, some output_word, some is_eos => .ok ⟨output_id, prob, output_word, is_eos⟩
  | _, _, _, _ => .error .index

def collect_outputs (output : Nat → Except WorkerError InferOutput) (inputs : List InferInput) :
    Except WorkerError (Table InferOutput) :=
  inputs.zipIdx.foldlM (fun outputs (data, i) => do return outputs.insert data.seq_id (← output i)) ∅

namespace ModelWorker
variable {H L : Type} (self : ModelWorker H L)

/-- The logits of the last row of each input (`LlamaForCausalLM.forward`) -/
def forward (input_ids : List Nat) (input_params : InputParams) : Except WorkerError (List L) := do
  let hidden_states := self.model input_ids input_params
  let cu_output_lens := input_params.cu_seqlens_q.tail
  let indices := cu_output_lens.map fun (len : Nat) => (len : Int) - 1
  let hidden_states ← indices.mapM (item_at hidden_states)
  return hidden_states.map self.lm_head

def execute (vocab_cache : Table String) (inputs : List InferInput) (use_cache : Bool) :
    Except WorkerError (Table InferOutput × Table String) := do
  let (inputs, input_ids, input_params) ← self.make_inputs inputs use_cache
  let logits ← self.forward input_ids input_params
  let (next_token_ids, probs) := self.sample logits
  let eos_mask := next_token_ids.map fun id => decide (id ∈ self.eos_token_ids)
  let (next_words, vocab_cache) := decode_words self.tokenizer_decode vocab_cache next_token_ids
  let outputs ← collect_outputs (output_at next_token_ids probs next_words eos_mask) inputs
  return (outputs, vocab_cache)

end ModelWorker

/-! ### Sorting and splitting -/

/-- What the scheduler promises of an input -/
structure InferInput.Wellformed (x : InferInput) : Prop where
  input_len : x.input_len = x.input_ids.length
  pos : 1 ≤ x.input_len
  context : x.context_len = x.filled_token_len + x.input_len

theorem sort_inputs_perm (inputs : List InferInput) : (sort_inputs inputs).Perm inputs :=
  List.mergeSort_perm inputs _

theorem sort_inputs_pairwise (inputs : List InferInput) :
    (sort_inputs inputs).Pairwise fun x y => y.input_len ≤ x.input_len := by
  have hsorted : (sort_inputs inputs).Pairwise fun x y => decide (y.input_len ≤ x.input_len) = true := by
    refine List.pairwise_mergeSort (fun x y z hxy hyz => ?_) (fun x y => ?_) inputs
    · have h1 := of_decide_eq_true hxy
      have h2 := of_decide_eq_true hyz
      exact decide_eq_true (Nat.le_trans h2 h1)
    · rw [Bool.or_eq_true]
      rcases Nat.le_total x.input_len y.input_len with h | h
      · exact .inr (decide_eq_true h)
      · exact .inl (decide_eq_true h)
  exact hsorted.imp of_decide_eq_true

def prefill_inputs (inputs : List InferInput) : List InferInput := inputs.filter fun x => decide (1 < x.input_len)

def decode_inputs (inputs : List InferInput) : List InferInput := inputs.filter fun x => decide (x.input_len = 1)

/-- In a sorted list the prefill inputs come before the decode inputs. -/
theorem prefill_append_decode {inputs : List InferInput}
    (hsorted : inputs.Pairwise fun x y => y.input_len ≤ x.input_len) (hpos : ∀ x ∈ inputs, 1 ≤ x.input_len) :
    prefill_inputs inputs ++ decode_inputs inputs = inputs := by
  induction inputs with
  | nil => rfl
  | cons x inputs ih =>
    obtain ⟨hx, hsorted⟩ := List.pairwise_cons.1 hsorted
    have ih := ih hsorted fun y hy => hpos y (List.mem_cons_of_mem x hy)
    by_cases h : 1 < x.input_len
    · have hpre : prefill_inputs (x :: inputs) = x :: prefill_inputs inputs :=
        List.filter_cons_of_pos (by simpa using h)
      have hdec : decode_inputs (x :: inputs) = decode_inputs inputs :=
        List.filter_cons_of_neg (by simpa using Nat.ne_of_gt h)
      rw [hpre, hdec, List.cons_append, ih]
    · -- nothing behind a decode input is longer
      have hle : ∀ y ∈ x :: inputs, y.input_len ≤ 1 := by
        intro y hy
        rcases List.mem_cons.1 hy with rfl | hy
        · omega
        · have := hx y hy
          omega
      have hnone : prefill_inputs (x :: inputs) = [] :=
        List.filter_eq_nil_iff.2 fun y hy => by simpa using hle y hy
      have hall : decode_inputs (x :: inputs) = x :: inputs :=
        List.filter_eq_self.2 fun y hy => decide_eq_true (Nat.le_antisymm (hle y hy) (hpos y hy))
      rw [hnone, hall, List.nil_append]

section
variable {inputs : List InferInput} {k : Nat} {x : InferInput} (hsplit : prefill_inputs inputs ++ decode_inputs inputs = inputs)
include hsplit

theorem decode_inputs_get (hk : inputs[(prefill_inputs inputs).length + k]? = some x) :
    (decode_inputs inputs)[k]? = some x := by
  have hget : (prefill_inputs inputs ++ decode_inputs inputs)[(prefill_inputs inputs).length + k]? = some x := by
    rw [hsplit]; exact hk
  rwa [List.getElem?_append_right (Nat.le_add_right ..), Nat.add_sub_cancel_left] at hget

theorem prefill_inputs_get (hk : inputs[k]? = some x) (hlong : 1 < x.input_len) :
    (prefill_inputs inputs)[k]? = some x := by
  by_cases hlt : k < (prefill_inputs inputs).length
  · rw [← hsplit, List.getElem?_append_left hlt] at hk
    exact hk
  · obtain ⟨j, rfl⟩ := Nat.exists_eq_add_of_le (Nat.le_of_not_lt hlt)
    have hmem := (List.mem_filter.1 (List.mem_of_getElem? (decode_inputs_get hsplit hk))).2
    rw [decide_eq_true_eq] at hmem
    omega

end

/-- `range(cache_seqlen, seqlen_k)` -/
def InferInput.position_range (x : InferInput) : List Nat :=
  List.range' x.filled_token_len (x.context_len - x.filled_token_len)

theorem foldl_push (inputs : List InferInput) :
    inputs.foldl Flattened.push {} = {
      flatten_input_ids := inputs.flatMap fun x => x.input_ids
      position_ids := inputs.flatMap fun x => x.position_range
      prefill_input_len := ((prefill_inputs inputs).map fun x => x.input_len).sum
      seqlens_q := inputs.map fun x => x.input_len
      prefill_data_list := prefill_inputs inputs
      decode_data_list := decode_inputs inputs } := by
  induction inputs using List.reverseRecOn with
  | nil => rfl
  | append_singleton inputs data ih =>
    rw [List.foldl_append, ih, List.foldl_cons, List.foldl_nil, Flattened.push]
    by_cases h : 1 < data.input_len
    · have hne : ¬ data.input_len = 1 := by omega
      simp [h, hne, prefill_inputs, decode_inputs, List.filter_append, InferInput.position_range]
    · by_cases hone : data.input_len = 1
      · simp [hone, prefill_inputs, decode_inputs, List.filter_append, InferInput.position_range]
      · simp [h, hone, prefill_inputs, decode_inputs, List.filter_append, InferInput.position_range]

/-! ### What `_make_inputs` returns -/

/-- The batch is `sorted` laid out in order, prefill inputs first. -/
structure Packed (page_size : Nat) (use_cache : Bool) (sorted : List InferInput) (input_ids : List Nat)
    (params : InputParams) : Prop where
  /-- the two lists that the wrappers are built from -/
  phases : ∃ prefill decode, sorted = prefill ++ decode ∧
    (∀ x ∈ prefill, 1 < x.input_len) ∧ (∀ x ∈ decode, x.input_len = 1) ∧
    input_ids.take params.prefill_input_len = prefill.flatMap (fun x => x.input_ids) ∧
    input_ids.drop params.prefill_input_len = decode.flatMap (fun x => x.input_ids) ∧
    (use_cache = true →
      params.prefill_wrapper = (if 0 < prefill.length then some (build_prefill_wrapper prefill page_size) else none) ∧
      (if 0 < decode.length then
        ∃ w, build_decode_wrapper decode page_size = .ok w ∧ params.decode_wrapper = some w
      else params.decode_wrapper = none))
  /-- the `k`-th input has the rows from `cu_seqlens_q[k]` to `cu_seqlens_q[k + 1]` -/
  rows : ∀ k x, sorted[k]? = some x → ∃ start, params.cu_seqlens_q[k]? = some start ∧
    params.cu_seqlens_q[k + 1]? = some (start + x.input_len) ∧
    ∀ j < x.input_len, input_ids[start + j]? = x.input_ids[j]? ∧
      params.position_ids[start + j]? = some (x.filled_token_len + j)
  blocks : use_cache = true → ∃ indices indptrs, params.kv_block_indices = some indices ∧
    params.kv_block_indptrs = some indptrs ∧
    ∀ k x, sorted[k]? = some x → segment indices indptrs k = some x.block_ids
  /-- the `k`-th prefill input has the `k`-th segments of the prefill wrapper's arrays -/
  prefill_segments : use_cache = true → ∀ k x, sorted[k]? = some x → 1 < x.input_len → ∃ w ∈ params.prefill_wrapper,
    segment input_ids w.qo_indptr k = some x.input_ids ∧
    segment w.paged_kv_indices w.paged_kv_indptr k = some x.block_ids ∧
    w.paged_kv_last_page_len[k]? = some (x.last_block_len page_size)
  /-- the `k`-th decode input has the `k`-th row of the others and the `k`-th segments of the decode wrapper's -/
  decode_segments : use_cache = true → ∀ k x, sorted[(prefill_inputs sorted).length + k]? = some x →
    ∃ w ∈ params.decode_wrapper, input_ids[params.prefill_input_len + k]? = x.input_ids[0]? ∧
    segment w.indices w.indptr k = some x.block_ids ∧ w.last_page_len[k]? = some (x.last_block_len page_size)
  num_rows : params.position_ids.length = input_ids.length
  num_inputs : params.cu_seqlens_q.length = sorted.length + 1

section
variable {inputs : List InferInput} {input_ids : List Nat} {params : InputParams} {page_size k : Nat} {x : InferInput}

theorem map_input_len (hwf : ∀ x ∈ inputs, x.Wellformed) :
    inputs.map (fun x => x.input_len) = inputs.map fun x => x.input_ids.length :=
  List.map_congr_left fun x hx => (hwf x hx).input_len

theorem InferInput.Wellformed.length_position_range (h : x.Wellformed) : x.position_range.length = x.input_len := by
  rw [InferInput.position_range, List.length_range', h.context, Nat.add_sub_cancel_left]

theorem prefill_rows (hwf : ∀ x ∈ inputs, x.Wellformed) :
    ((prefill_inputs inputs).map fun x => x.input_len).sum =
      ((prefill_inputs inputs).flatMap fun x => x.input_ids).length := by
  rw [List.length_flatMap]
  exact congrArg List.sum (map_input_len fun x hx => hwf x (List.mem_of_mem_filter hx))

theorem build_decode_wrapper_ok :
    ∃ w, build_decode_wrapper (decode_inputs inputs) page_size = .ok w := by
  refine ⟨_, if_pos fun x hx => ?_⟩
  simpa using (List.mem_filter.1 hx).2

theorem blocks_segment (h : inputs[k]? = some x) :
    segment (kv_block_indices inputs) (kv_block_indptrs inputs) k = some x.block_ids :=
  segment_flatMap h

theorem rows_of_input (hwf : ∀ x ∈ inputs, x.Wellformed) (h : inputs[k]? = some x) :
    ∃ start, (cumsum (0 :: inputs.map fun x => x.input_len))[k]? = some start ∧
      (cumsum (0 :: inputs.map fun x => x.input_len))[k + 1]? = some (start + x.input_len) ∧
      ∀ j < x.input_len, (inputs.flatMap fun x => x.input_ids)[start + j]? = x.input_ids[j]? ∧
        (inputs.flatMap fun x => x.position_range)[start + j]? = some (x.filled_token_len + j) := by
  have hx := hwf x (List.mem_of_getElem? h)
  obtain ⟨hk, hget⟩ := List.getElem?_eq_some_iff.1 h
  have hlen : k < (inputs.map fun x => x.input_len).length := by rwa [List.length_map]
  have hstart := getElem?_offsets (Nat.le_of_lt hlen)
  refine ⟨_, hstart, ?_, fun j hj => ⟨?_, ?_⟩⟩
  · rw [getElem?_offsets hlen, List.take_add_one, List.getElem?_map, h]
    simp
  · have hseg := segment_flatMap (f := fun x : InferInput => x.input_ids) h
    rw [← map_input_len hwf] at hseg
    exact getElem?_segment hseg hstart (hx.input_len ▸ hj)
  · have hpos : (inputs.map fun x => x.position_range.length) = inputs.map fun x => x.input_len :=
      List.map_congr_left fun y hy => (hwf y hy).length_position_range
    have hseg := segment_flatMap (f := fun x : InferInput => x.position_range) h
    rw [hpos] at hseg
    rw [getElem?_segment hseg hstart (hx.length_position_range.symm ▸ hj), InferInput.position_range,
      List.getElem?_range' (by rw [hx.context]; omega), Nat.one_mul]

theorem last_block_lens_get (h : inputs[k]? = some x) :
    (kv_last_block_lens page_size inputs)[k]? = some (x.last_block_len page_size) := by
  rw [kv_last_block_lens, List.getElem?_map, h]
  rfl

theorem prefill_rows_segment {others : List InferInput} (hwf : ∀ x ∈ inputs ++ others, x.Wellformed)
    (h : inputs[k]? = some x) : segment ((inputs ++ others).flatMap fun x => x.input_ids)
      (cumsum (0 :: inputs.map fun x => x.input_len)) k = some x.input_ids := by
  obtain ⟨hk, -⟩ := List.getElem?_eq_some_iff.1 h
  have hall : (inputs ++ others)[k]? = some x := (List.getElem?_append_left hk).trans h
  have hseg := segment_flatMap (f := fun x : InferInput => x.input_ids) hall
  rw [← map_input_len hwf, List.map_append, segment_offsets_append _ (by rwa [List.length_map])] at hseg
  exact hseg

theorem decode_rows (hwf : ∀ x ∈ inputs, x.Wellformed) (hone : ∀ x ∈ inputs, x.input_len = 1) (h : inputs[k]? = some x) :
    (inputs.flatMap fun x => x.input_ids)[k]? = x.input_ids[0]? := by
  obtain ⟨hk, -⟩ := List.getElem?_eq_some_iff.1 h
  have hlens : inputs.map (fun x => x.input_ids.length) = List.replicate inputs.length 1 :=
    List.eq_replicate_iff.2 ⟨List.length_map _, fun n hn => by
      obtain ⟨y, hy, rfl⟩ := List.mem_map.1 hn
      rw [← (hwf y hy).input_len, hone y hy]⟩
  have hseg := segment_flatMap (f := fun x : InferInput => x.input_ids) h
  have hstart : (cumsum (0 :: inputs.map fun x => x.input_ids.length))[k]? = some k := by
    rw [getElem?_offsets (by rw [List.length_map]; exact Nat.le_of_lt hk), hlens, List.take_replicate,
      List.sum_replicate, Nat.min_eq_left (Nat.le_of_lt hk), smul_eq_mul, Nat.mul_one]
  have hx := List.mem_of_getElem? h
  exact getElem?_segment hseg hstart (by rw [← (hwf x hx).input_len, hone x hx]; exact Nat.one_pos)

/-- The arrays filled input by input, with the wrappers and the blocks given. -/
theorem Packed.of_sorted {use_cache : Bool} (hwf : ∀ x ∈ inputs, x.Wellformed)
    (hsorted : inputs.Pairwise fun x y => y.input_len ≤ x.input_len)
    (hpositions : params.position_ids = inputs.flatMap fun x => x.position_range)
    (hcu : params.cu_seqlens_q = cumsum (0 :: inputs.map fun x => x.input_len))
    (hprefill : params.prefill_input_len = ((prefill_inputs inputs).map fun x => x.input_len).sum)
    (hwrappers : use_cache = true →
      params.prefill_wrapper = (if 0 < (prefill_inputs inputs).length then
        some (build_prefill_wrapper (prefill_inputs inputs) page_size) else none) ∧
      (if 0 < (decode_inputs inputs).length then
        ∃ w, build_decode_wrapper (decode_inputs inputs) page_size = .ok w ∧ params.decode_wrapper = some w
      else params.decode_wrapper = none))
    (hblocks : use_cache = true → params.kv_block_indices = some (kv_block_indices inputs) ∧
      params.kv_block_indptrs = some (kv_block_indptrs inputs)) :
    Packed page_size use_cache inputs (inputs.flatMap fun x => x.input_ids) params := by
  have hsplit := prefill_append_decode hsorted fun x hx => (hwf x hx).pos
  have hflat : inputs.flatMap (fun x => x.input_ids) =
      (prefill_inputs inputs).flatMap (fun x => x.input_ids) ++
        (decode_inputs inputs).flatMap fun x => x.input_ids := by
    rw [← List.flatMap_append, hsplit]
  rw [prefill_rows hwf] at hprefill
  constructor
  · refine ⟨prefill_inputs inputs, decode_inputs inputs, hsplit.symm, fun x hx => ?_, fun x hx => ?_, ?_, ?_,
      hwrappers⟩
    · simpa using (List.mem_filter.1 hx).2
    · simpa using (List.mem_filter.1 hx).2
    · rw [hflat, hprefill, List.take_left]
    · rw [hflat, hprefill, List.drop_left]
  · intro k x hk
    rw [hcu, hpositions]
    exact rows_of_input hwf hk
  · intro huse
    obtain ⟨hindices, hindptrs⟩ := hblocks huse
    exact ⟨_, _, hindices, hindptrs, fun k x hk => blocks_segment hk⟩
  · intro huse k x hk hlong
    obtain ⟨hwrapper, -⟩ := hwrappers huse
    have hk' := prefill_inputs_get hsplit hk hlong
    rw [if_pos (List.length_pos_of_mem (List.mem_of_getElem? hk'))] at hwrapper
    refine ⟨_, hwrapper, ?_, blocks_segment hk', last_block_lens_get hk'⟩
    have hrows := prefill_rows_segment (hsplit.symm ▸ hwf) hk'
    rwa [hsplit] at hrows
  · intro huse k x hk
    obtain ⟨-, hwrapper⟩ := hwrappers huse
    have hk' := decode_inputs_get hsplit hk
    have hone : ∀ y ∈ decode_inputs inputs, y.input_len = 1 := fun y hy => by simpa using (List.mem_filter.1 hy).2
    rw [if_pos (List.length_pos_of_mem (List.mem_of_getElem? hk'))] at hwrapper
    obtain ⟨w, hbuild, hparams⟩ := hwrapper
    rw [build_decode_wrapper, if_pos hone] at hbuild
    obtain rfl := Except.ok.inj hbuild
    refine ⟨_, hparams, ?_, blocks_segment hk', last_block_lens_get hk'⟩
    rw [hflat, hprefill, List.getElem?_append_right (Nat.le_add_right ..), Nat.add_sub_cancel_left]
    exact decode_rows (fun y hy => hwf y (List.mem_of_mem_filter hy)) hone hk'
  · rw [hpositions, List.length_flatMap, List.length_flatMap]
    refine congrArg List.sum (List.map_congr_left fun x hx => ?_)
    rw [(hwf x hx).length_position_range, (hwf x hx).input_len]
  · rw [hcu, length_cumsum, List.length_cons, List.length_map]

end

namespace ModelWorker
variable {H L : Type} {inputs : List InferInput}

theorem make_inputs_packed (self : ModelWorker H L) (hwf : ∀ x ∈ inputs, x.Wellformed) (use_cache : Bool) :
    ∃ sorted input_ids params, self.make_inputs inputs use_cache = .ok (sorted, input_ids, params) ∧
      sorted.Perm inputs ∧ Packed self.block_size use_cache sorted input_ids params := by
  have hperm := sort_inputs_perm inputs
  have hsorted := sort_inputs_pairwise inputs
  have hwf' : ∀ x ∈ sort_inputs inputs, x.Wellformed := fun x hx => hwf x (hperm.mem_iff.1 hx)
  rw [make_inputs, foldl_push]
  cases use_cache with
  | false => exact ⟨_, _, _, rfl, hperm, .of_sorted hwf' hsorted rfl rfl rfl nofun nofun⟩
  | true =>
    by_cases hdecode : 0 < (decode_inputs (sort_inputs inputs)).length
    · have hbuild : ∃ w, build_decode_wrapper (decode_inputs (sort_inputs inputs)) self.block_size = .ok w :=
        build_decode_wrapper_ok
      obtain ⟨w, hw⟩ := hbuild
      simp only [hdecode, if_true, hw]
      refine ⟨_, _, _, rfl, hperm, .of_sorted hwf' hsorted rfl rfl rfl (fun _ => ⟨rfl, ?_⟩) fun _ => ⟨rfl, rfl⟩⟩
      rw [if_pos hdecode]
      exact ⟨w, hw, rfl⟩
    · simp only [hdecode, if_false]
      refine ⟨_, _, _, rfl, hperm, .of_sorted hwf' hsorted rfl rfl rfl (fun _ => ⟨rfl, ?_⟩) fun _ => ⟨rfl, rfl⟩⟩
      rw [if_neg hdecode]

end ModelWorker

/-! ### What `execute` returns -/

section
variable {α β ε : Type} {f : α → Except ε β} {xs : List α}

theorem mapM_exists (h : ∀ x ∈ xs, ∃ y, f x = .ok y) :
    ∃ ys, xs.mapM f = .ok ys ∧ ys.length = xs.length ∧
      ∀ (k : Nat) (x : α), xs[k]? = some x → ∃ y, f x = .ok y ∧ ys[k]? = some y := by
  induction xs with
  | nil => exact ⟨[], rfl, rfl, nofun⟩
  | cons x xs ih =>
    obtain ⟨y, hy⟩ := h x List.mem_cons_self
    obtain ⟨ys, hys, hlen, hget⟩ := ih fun x' hx' => h x' (List.mem_cons_of_mem x hx')
    refine ⟨y :: ys, ?_, congrArg Nat.succ hlen, fun k x' hk => ?_⟩
    · rw [List.mapM_cons, hy, hys]
      rfl
    · cases k with
      | zero =>
        obtain rfl := Option.some.inj hk
        exact ⟨y, hy, rfl⟩
      | succ k => exact hget k x' hk

theorem item_at_ok {n : Nat} {x : α} (h : xs[n]? = some x) : item_at xs ((n + 1 : Nat) - 1 : Int) = .ok x := by
  have hn : ((n + 1 : Nat) - 1 : Int) = n := by push_cast; omega
  rw [hn, item_at, if_pos (Int.natCast_nonneg n)]
  simp only [Int.natCast_nonneg, not_lt.2, if_false, Int.toNat_natCast, h]

end

theorem length_decode_words {tokenizer_decode : Nat → String} {vocab_cache : Table String} {ids : List Nat} :
    (decode_words tokenizer_decode vocab_cache ids).1.length = ids.length := by
  induction ids generalizing vocab_cache with
  | nil => rfl
  | cons id ids ih =>
    rw [decode_words]
    split
    · exact congrArg Nat.succ ih
    · exact congrArg Nat.succ ih

theorem output_at_ok {ids : List Nat} {probs : List Rat} {words : List String} {eos_mask : List Bool} {i : Nat}
    (hids : i < ids.length) (hprobs : i < probs.length) (hwords : i < words.length) (heos : i < eos_mask.length) :
    ∃ o, output_at ids probs words eos_mask i = .ok o ∧ ids[i]? = some o.output_id ∧ probs[i]? = some o.prob := by
  refine ⟨⟨ids[i], probs[i], words[i], eos_mask[i]⟩, ?_, List.getElem?_eq_getElem hids,
    List.getElem?_eq_getElem hprobs⟩
  rw [output_at, List.getElem?_eq_getElem hids, List.getElem?_eq_getElem hprobs, List.getElem?_eq_getElem hwords,
    List.getElem?_eq_getElem heos]

theorem collect_outputs_concat {output : Nat → Except WorkerError InferOutput} {inputs : List InferInput}
    {x : InferInput} :
    collect_outputs output (inputs ++ [x]) = do
      let outputs ← collect_outputs output inputs
      return outputs.insert x.seq_id (← output inputs.length) := by
  rw [collect_outputs, List.zipIdx_append, List.foldlM_append, ← collect_outputs]
  simp

theorem collect_outputs_ok {output : Nat → Except WorkerError InferOutput} {inputs : List InferInput}
    (hids : (inputs.map fun x => x.seq_id).Nodup) (h : ∀ i < inputs.length, ∃ o, output i = .ok o) :
    ∃ outputs, collect_outputs output inputs = .ok outputs ∧
      ∀ k x, inputs[k]? = some x → ∃ o, output k = .ok o ∧ outputs.lookup x.seq_id = some o := by
  induction inputs using List.reverseRecOn with
  | nil => exact ⟨∅, rfl, nofun⟩
  | append_singleton inputs x ih =>
    rw [List.map_append, List.nodup_append] at hids
    obtain ⟨hids, -, hnew⟩ := hids
    have hlen : (inputs ++ [x]).length = inputs.length + 1 := List.length_append
    obtain ⟨outputs, hrun, hget⟩ := ih hids fun i hi => h i (by omega)
    obtain ⟨o, ho⟩ := h inputs.length (by omega)
    refine ⟨outputs.insert x.seq_id o, ?_, fun k y hk => ?_⟩
    · rw [collect_outputs_concat, hrun, ho]
      rfl
    · rw [Table.lookup_insert_eq]
      by_cases hlt : k < inputs.length
      · rw [List.getElem?_append_left hlt] at hk
        have hne : y.seq_id ≠ x.seq_id :=
          hnew _ (List.mem_map.2 ⟨y, List.mem_of_getElem? hk, rfl⟩) _ (List.mem_singleton_self _)
        rw [if_neg hne]
        exact hget k y hk
      · have hkle : k < (inputs ++ [x]).length := (List.getElem?_eq_some_iff.1 hk).1
        obtain rfl : k = inputs.length := by omega
        obtain rfl : x = y := by simpa using hk
        rw [if_pos rfl]
        exact ⟨o, ho, rfl⟩

namespace ModelWorker
variable {H L : Type} {self : ModelWorker H L} {inputs sorted : List InferInput} {input_ids : List Nat}
  {params : InputParams} {page_size : Nat} {use_cache : Bool}

/-- The `k`-th logits are those of the last row of the `k`-th input, and its last token is there. -/
def PredictsFrom (self : ModelWorker H L) (input_ids : List Nat) (params : InputParams) (logits : List L) (k : Nat)
    (x : InferInput) : Prop :=
  ∃ row h, params.cu_seqlens_q[k + 1]? = some (row + 1) ∧ input_ids[row]? = x.input_ids.getLast? ∧
    (self.model input_ids params)[row]? = some h ∧ logits[k]? = some (self.lm_head h)

theorem last_row (hp : Packed page_size use_cache sorted input_ids params) (hwf : ∀ x ∈ sorted, x.Wellformed)
    {k : Nat} {x : InferInput} (hk : sorted[k]? = some x) :
    ∃ row, params.cu_seqlens_q[k + 1]? = some (row + 1) ∧ row < input_ids.length ∧
      input_ids[row]? = x.input_ids.getLast? := by
  have hx := hwf x (List.mem_of_getElem? hk)
  obtain ⟨start, -, hstop, hrows⟩ := hp.rows k x hk
  have hpos := hx.pos
  obtain ⟨hid, -⟩ := hrows (x.input_len - 1) (by omega)
  have hlt : x.input_len - 1 < x.input_ids.length := by rw [← hx.input_len]; omega
  have hget := hid.trans (List.getElem?_eq_getElem hlt)
  refine ⟨start + (x.input_len - 1), ?_, (List.getElem?_eq_some_iff.1 hget).1, ?_⟩
  · rw [hstop]
    exact congrArg some (by omega)
  · rw [hid, List.getLast?_eq_getElem?, hx.input_len]

theorem forward_ok (hp : Packed page_size use_cache sorted input_ids params) (hwf : ∀ x ∈ sorted, x.Wellformed)
    (hmodel : (self.model input_ids params).length = input_ids.length) :
    ∃ logits, self.forward input_ids params = .ok logits ∧ logits.length = sorted.length ∧
      ∀ k x, sorted[k]? = some x → self.PredictsFrom input_ids params logits k x := by
  have hlen : params.cu_seqlens_q.tail.length = sorted.length := by
    rw [List.length_tail, hp.num_inputs, Nat.add_sub_cancel]
  have hindex : ∀ (k : Nat) (x : InferInput), sorted[k]? = some x → ∃ row h,
      params.cu_seqlens_q.tail[k]? = some (row + 1) ∧ input_ids[row]? = x.input_ids.getLast? ∧
      (self.model input_ids params)[row]? = some h := by
    intro k x hk
    obtain ⟨row, hcu, hrow, hlast⟩ := last_row hp hwf hk
    exact ⟨row, _, List.getElem?_tail.trans hcu, hlast, List.getElem?_eq_getElem (hmodel ▸ hrow)⟩
  have hgather : ∀ i ∈ params.cu_seqlens_q.tail.map fun (len : Nat) => (len : Int) - 1,
      ∃ h, item_at (self.model input_ids params) i = .ok h := by
    intro i hi
    obtain ⟨len, hmem, rfl⟩ := List.mem_map.1 hi
    obtain ⟨k, hk⟩ := List.mem_iff_getElem?.1 hmem
    have hlt : k < sorted.length := hlen ▸ (List.getElem?_eq_some_iff.1 hk).1
    obtain ⟨row, h, hcu, -, hh⟩ := hindex k _ (List.getElem?_eq_getElem hlt)
    obtain rfl := Option.some.inj (hk.symm.trans hcu)
    exact ⟨h, item_at_ok hh⟩
  obtain ⟨hidden, hrun, hnum, hget⟩ := mapM_exists hgather
  refine ⟨hidden.map self.lm_head, ?_, ?_, fun k x hk => ?_⟩
  · rw [forward, hrun]
    rfl
  · rw [List.length_map, hnum, List.length_map, hlen]
  · obtain ⟨row, h, hcu, hlast, hh⟩ := hindex k x hk
    refine ⟨row, h, List.getElem?_tail.symm.trans hcu, hlast, hh, ?_⟩
    have hi : (params.cu_seqlens_q.tail.map fun (len : Nat) => (len : Int) - 1)[k]? = some ((row + 1 : Nat) - 1 : Int) := by
      rw [List.getElem?_map, hcu]
      rfl
    obtain ⟨h', hitem, hk'⟩ := hget k _ hi
    rw [item_at_ok hh] at hitem
    obtain rfl := Except.ok.inj hitem
    rw [List.getElem?_map, hk']
    rfl

/-- The batch is laid out, and each sequence gets the sample drawn from the last row of its own input. -/
def AnswersOwn (self : ModelWorker H L) (vocab_cache : Table String) (inputs : List InferInput) (use_cache : Bool) :
    Prop :=
  ∃ sorted input_ids params logits outputs vocab_cache',
    self.make_inputs inputs use_cache = .ok (sorted, input_ids, params) ∧ sorted.Perm inputs ∧
    Packed self.block_size use_cache sorted input_ids params ∧
    self.forward input_ids params = .ok logits ∧
    self.execute vocab_cache inputs use_cache = .ok (outputs, vocab_cache') ∧
    ∀ k x, sorted[k]? = some x → self.PredictsFrom input_ids params logits k x ∧
      ∃ o, (self.sample logits).1[k]? = some o.output_id ∧ (self.sample logits).2[k]? = some o.prob ∧
        outputs.lookup x.seq_id = some o

theorem execute_consistent (self : ModelWorker H L) (vocab_cache : Table String) (inputs : List InferInput)
    (use_cache : Bool) (hids : (inputs.map fun x => x.seq_id).Nodup) (hwf : ∀ x ∈ inputs, x.Wellformed)
    (hmodel : ∀ input_ids params, params.position_ids.length = input_ids.length →
      (self.model input_ids params).length = input_ids.length)
    (hsample : ∀ logits, (self.sample logits).1.length = logits.length ∧
      (self.sample logits).2.length = logits.length) :
    self.AnswersOwn vocab_cache inputs use_cache := by
  obtain ⟨sorted, input_ids, params, hmake, hperm, hp⟩ := self.make_inputs_packed hwf use_cache
  have hwf' : ∀ x ∈ sorted, x.Wellformed := fun x hx => hwf x (hperm.mem_iff.1 hx)
  obtain ⟨logits, hforward, hlen, hpredicts⟩ := forward_ok hp hwf' (hmodel input_ids params hp.num_rows)
  obtain ⟨hlen₁, hlen₂⟩ := hsample logits
  have hids' : (sorted.map fun x => x.seq_id).Nodup := (hperm.map _).nodup_iff.2 hids
  have hwords : (decode_words self.tokenizer_decode vocab_cache (self.sample logits).1).1.length = sorted.length :=
    length_decode_words.trans (hlen₁.trans hlen)
  have heos : ((self.sample logits).1.map fun id => decide (id ∈ self.eos_token_ids)).length = sorted.length := by
    rw [List.length_map, hlen₁, hlen]
  rw [← hlen₁] at hlen
  have houtput : ∀ i < sorted.length, _ := fun i hi =>
    output_at_ok (hi.trans_eq hlen.symm) (hi.trans_eq ((hlen.symm.trans hlen₁).trans hlen₂.symm))
      (hi.trans_eq hwords.symm) (hi.trans_eq heos.symm)
  obtain ⟨outputs, hcollect, hlookup⟩ := collect_outputs_ok hids' fun i hi => ⟨_, (houtput i hi).choose_spec.1⟩
  refine ⟨sorted, input_ids, params, logits, outputs,
    (decode_words self.tokenizer_decode vocab_cache (self.sample logits).1).2, hmake, hperm, hp, hforward, ?_,
    fun k x hk => ⟨hpredicts k x hk, ?_⟩⟩
  · rw [execute, hmake]
    show (self.forward input_ids params >>= _) = _
    rw [hforward]
    show (collect_outputs _ sorted >>= _) = _
    rw [hcollect]
    rfl
  · obtain ⟨o, ho, hget⟩ := hlookup k x hk
    obtain ⟨o', ho', hid, hprob⟩ := houtput k (List.getElem?_eq_some_iff.1 hk).1
    obtain rfl := Except.ok.inj (ho.symm.trans ho')
    exact ⟨o, hid, hprob, hget⟩

/-- A row of hidden states is its token, and the token is predicted again. -/
def repeating : ModelWorker Nat Nat where
  block_size := 2
  get_seq_lens indptrs last_lens page_size :=
    List.zipWith (fun n last => (n - 1) * page_size + last) (List.zipWith (· - ·) indptrs.tail indptrs) last_lens
  get_batch_indices_positions cu seq_lens _ :=
    let lens := List.zipWith (· - ·) cu.tail cu
    (lens.zipIdx.flatMap fun (n, i) => List.replicate n i,
      (lens.zip seq_lens).flatMap fun (n, k) => (List.range n).map fun j => (k : Int) - n + j)
  model input_ids _ := input_ids
  lm_head h := h
  sample logits := (logits, logits.map fun _ => 1)
  tokenizer_decode _ := ""
  eos_token_ids := []

/-- A decode step and a prefill -/
theorem execute_consistent_mixed :
    repeating.AnswersOwn ∅ [⟨0, [5], 1, 2, 3, [1, 0]⟩, ⟨1, [7, 8, 9], 3, 0, 3, [2, 3]⟩] true :=
  execute_consistent repeating ∅ _ true (by decide)
    (fun x hx => by
      simp only [List.mem_cons, List.not_mem_nil, or_false] at hx
      rcases hx with rfl | rfl
      · exact ⟨rfl, by decide, rfl⟩
      · exact ⟨rfl, by decide, rfl⟩)
    (fun _ _ _ => rfl) (fun _ => ⟨rfl, List.length_map _⟩)

end ModelWorker

end LMServe
