import LMServe.Lib.Linear
import LMServe.Sharding

/-!
# The parallel layers

A value on every rank is a function of the rank. The ranks run the same program, and meet in the collectives of
`models/parallel/mappings.py`; the layers of `models/parallel/layers.py` are made of them. Sums are exact, and
so in any order the same.
-/

open Chunk Linear

namespace LMServe

/-- A matrix, or a batch of rows -/
abbrev Rows (R : Type) := List (List R)

section
variable {R : Type} [Semiring R]

/-! ### The collectives -/

def reduce_from_model_parallel_region (world_size : Nat) (input : Nat → Rows R) : Nat → Rows R :=
  if world_size = 1 then input
  else fun _ => fold1 add ((List.range world_size).map input)

omit [Semiring R] in
def gather_from_model_parallel_region (world_size : Nat) (input : Nat → Rows R) : Nat → Rows R :=
  if world_size = 1 then input
  else fun _ => fold1 beside ((List.range world_size).map input)

/-! ### The layers -/

/-- `F.embedding`; the ids are in range. -/
def embedding (input : List Nat) (weight : Rows R) : Rows R := input.map fun id => weight[id]?.getD []

/-- `F.linear` -/
def linear (input weight : Rows R) (bias : Option (List R)) : Rows R :=
  match bias with
  | some bias => (map input weight).map (vadd · bias)
  | none => map input weight

/-- One rank's rows, masked before and after the lookup -/
def VocabParallelEmbedding.output_parallel (embedding_dim num_embeddings_per_partition rank : Nat) (weight : Rows R)
    (input : List Nat) : Rows R :=
  let (vocab_start_index, vocab_end_index) :=
    VocabUtility.vocab_range_from_per_partition_vocab_size num_embeddings_per_partition rank
  let input_mask (id : Nat) := id < vocab_start_index ∨ vocab_end_index ≤ id
  let masked_input := input.map fun id => if input_mask id then 0 else id - vocab_start_index
  let output_parallel := embedding masked_input weight
  List.zipWith (fun id row => if input_mask id then List.replicate embedding_dim 0 else row) input output_parallel

def VocabParallelEmbedding.forward (embedding_dim num_embeddings_per_partition world_size : Nat) (weight : Nat → Rows R)
    (input : Nat → List Nat) : Nat → Rows R :=
  reduce_from_model_parallel_region world_size fun rank =>
    output_parallel embedding_dim num_embeddings_per_partition rank (weight rank) (input rank)

def ColumnParallelLinear.forward (gather_output : Bool) (world_size : Nat) (weight : Nat → Rows R)
    (bias : Nat → Option (List R)) (input : Nat → Rows R) : Nat → Rows R :=
  let output_parallel rank := linear (input rank) (weight rank) (bias rank)
  if gather_output then gather_from_model_parallel_region world_size output_parallel else output_parallel

/-- The input is parallel already. -/
def RowParallelLinear.forward (world_size : Nat) (weight : Nat → Rows R) (bias : Nat → Option (List R))
    (input : Nat → Rows R) : Nat → Rows R :=
  let output_parallel rank := linear (input rank) (weight rank) none
  let output := reduce_from_model_parallel_region world_size output_parallel
  fun rank => match bias rank with
    | some bias => (output rank).map (vadd · bias)
    | none => output rank

/-! ### Every rank gets what one rank computes -/

variable {world_size rank size dim : Nat} {x weight : Rows R} {bias : Option (List R)}

theorem reduce_eq {f : Nat → Rows R} (hrank : rank < world_size)
    (h : fold1 add ((List.range world_size).map f) = x) : reduce_from_model_parallel_region world_size f rank = x := by
  unfold reduce_from_model_parallel_region
  split_ifs with hone
  · subst hone
    obtain rfl : rank = 0 := by omega
    exact h
  · exact h

omit [Semiring R] in
theorem gather_eq {f : Nat → Rows R} (hrank : rank < world_size)
    (h : fold1 beside ((List.range world_size).map f) = x) : gather_from_model_parallel_region world_size f rank = x := by
  unfold gather_from_model_parallel_region
  split_ifs with hone
  · subst hone
    obtain rfl : rank = 0 := by omega
    exact h
  · exact h

theorem linear_slice (x weight : Rows R) (bias : Option (List R)) (a b : Nat) :
    linear x (slice weight a b) (bias.map (slice · a b)) = cols a b (linear x weight bias) := by
  cases bias with
  | none => exact map_slice x weight a b
  | some bias =>
    simp only [linear, Option.map_some, map_slice, cols, List.map_map]
    exact List.map_congr_left fun row _ => (slice_zipWith _ _ _ _ _).symm

theorem length_linear {row : List R} (hbias : ∀ v ∈ bias, v.length = weight.length) (hrow : row ∈ linear x weight bias) :
    row.length = weight.length := by
  cases bias with
  | none =>
    obtain ⟨y, _, rfl⟩ := List.mem_map.1 hrow
    exact List.length_map _
  | some bias =>
    obtain ⟨z, hz, rfl⟩ := List.mem_map.1 hrow
    obtain ⟨y, _, rfl⟩ := List.mem_map.1 hz
    rw [vadd, List.length_zipWith, List.length_map, hbias bias rfl, Nat.min_self]

variable (bias) in
/-- A rank's rows of the weight give its columns of the output. -/
theorem ColumnParallelLinear.forward_shard {w : Nat → Rows R} {b : Nat → Option (List R)} {input : Nat → Rows R}
    (hw : w rank = slice weight (rank * size) ((rank + 1) * size))
    (hb : b rank = bias.map (slice · (rank * size) ((rank + 1) * size))) (hinput : input rank = x) :
    forward false world_size w b input rank = cols (rank * size) ((rank + 1) * size) (linear x weight bias) := by
  show linear (input rank) (w rank) (b rank) = _
  rw [hw, hb, hinput, linear_slice]

variable (bias) in
theorem ColumnParallelLinear.forward_whole {w : Nat → Rows R} {b : Nat → Option (List R)} {input : Nat → Rows R}
    (hw : ∀ rank < world_size, w rank = slice weight (rank * size) ((rank + 1) * size))
    (hb : ∀ rank < world_size, b rank = bias.map (slice · (rank * size) ((rank + 1) * size)))
    (hinput : ∀ rank < world_size, input rank = x) (hrank : rank < world_size)
    (hlen : weight.length = world_size * size) (hbias : ∀ v ∈ bias, v.length = weight.length) :
    forward true world_size w b input rank = linear x weight bias := by
  refine gather_eq hrank ?_
  have hshards : ∀ rank ∈ List.range world_size, linear (input rank) (w rank) (b rank) =
      cols (rank * size) ((rank + 1) * size) (linear x weight bias) := fun rank hrank => by
    have hrank := List.mem_range.1 hrank
    rw [hw rank hrank, hb rank hrank, hinput rank hrank, linear_slice]
  rw [List.map_congr_left hshards]
  refine beside_shards (Nat.lt_of_le_of_lt (Nat.zero_le rank) hrank) fun row hrow => ?_
  rw [length_linear hbias hrow, hlen]

/-- The ranks' columns of the weight, with their columns of the input, give the summands of the output. -/
theorem RowParallelLinear.forward_whole {w : Nat → Rows R} {b : Nat → Option (List R)} {input : Nat → Rows R}
    (hw : ∀ rank < world_size, w rank = cols (rank * size) ((rank + 1) * size) weight) (hb : b rank = bias)
    (hinput : ∀ rank < world_size, input rank = cols (rank * size) ((rank + 1) * size) x) (hrank : rank < world_size)
    (hx : ∀ row ∈ x, row.length = world_size * size) (hweight : ∀ row ∈ weight, row.length = world_size * size) :
    forward world_size w b input rank = linear x weight bias := by
  have hsum : reduce_from_model_parallel_region world_size (fun rank => linear (input rank) (w rank) none) rank =
      map x weight := by
    refine reduce_eq hrank ?_
    have hshards : ∀ rank ∈ List.range world_size, linear (input rank) (w rank) none =
        map (cols (rank * size) ((rank + 1) * size) x) (cols (rank * size) ((rank + 1) * size) weight) :=
      fun rank hrank => by rw [hinput rank (List.mem_range.1 hrank), hw rank (List.mem_range.1 hrank)]; rfl
    rw [List.map_congr_left hshards]
    exact add_shards (Nat.lt_of_le_of_lt (Nat.zero_le rank) hrank) hx hweight
  simp only [forward, hsum, hb]
  cases bias with
  | none => rfl
  | some bias => rfl

/-! ### The embedding -/

/-- The row of an id, and zeros for an id that is none -/
def embedding_or_zeros (dim : Nat) (weight : Rows R) (input : List Nat) : Rows R :=
  input.map fun id => weight[id]?.getD (List.replicate dim 0)

/-- The rows of the ids between `start` and `stop` -/
def embedding_between (dim : Nat) (weight : Rows R) (input : List Nat) (start stop : Nat) : Rows R :=
  input.map fun id => if id < start ∨ stop ≤ id then List.replicate dim 0 else weight[id]?.getD (List.replicate dim 0)

theorem embedding_between_add (hweight : ∀ row ∈ weight, row.length = dim) (input : List Nat) {a b c : Nat} (hab : a ≤ b)
    (hbc : b ≤ c) : add (embedding_between dim weight input a b) (embedding_between dim weight input b c) =
      embedding_between dim weight input a c := by
  have hlen : ∀ id : Nat, (weight[id]?.getD (List.replicate dim 0)).length = dim := fun id => by
    cases hrow : weight[id]? with
    | none => exact List.length_replicate
    | some row => exact hweight row (List.mem_of_getElem? hrow)
  simp only [add, embedding_between, List.zipWith_map, List.zipWith_self]
  refine List.map_congr_left fun id _ => ?_
  have hzeros := vadd_zeros (List.replicate dim (0 : R))
  have hleft := vadd_zeros (weight[id]?.getD (List.replicate dim 0))
  have hright := zeros_vadd (weight[id]?.getD (List.replicate dim 0))
  rw [List.length_replicate] at hzeros
  rw [hlen] at hleft hright
  by_cases ha : id < a
  · rw [if_pos (.inl ha), if_pos (.inl (by omega)), if_pos (.inl ha), hzeros]
  · by_cases hb : id < b
    · rw [if_neg (by omega), if_pos (.inl hb), if_neg (by omega), hleft]
    · by_cases hc : id < c
      · rw [if_pos (.inr (by omega)), if_neg (by omega), if_neg (by omega), hright]
      · rw [if_pos (.inr (by omega)), if_pos (.inr (by omega)), if_pos (.inr (by omega)), hzeros]

theorem VocabParallelEmbedding.output_parallel_shard (input : List Nat) (hrank : rank < world_size)
    (hlen : weight.length = world_size * size) :
    output_parallel dim size rank (slice weight (rank * size) ((rank + 1) * size)) input =
      embedding_between dim weight input (rank * size) ((rank + 1) * size) := by
  have hend : (rank + 1) * size ≤ world_size * size := Nat.mul_le_mul_right size hrank
  simp only [output_parallel, VocabUtility.vocab_range_from_per_partition_vocab_size, embedding, ← Nat.succ_mul]
  rw [List.map_map, List.zipWith_map_right, List.zipWith_self, embedding_between]
  refine List.map_congr_left fun id _ => ?_
  simp only [Function.comp_apply]
  split_ifs with hout
  · rfl
  · rw [not_or, Nat.not_lt, Nat.not_le] at hout
    have hid : rank * size + (id - rank * size) = id := Nat.add_sub_cancel' hout.1
    have hlt : id < weight.length := hlen ▸ Nat.lt_of_lt_of_le hout.2 hend
    rw [getElem?_slice, hid, if_pos hout.2, List.getElem?_eq_getElem hlt]
    rfl

/-- One rank at most has the row of an id. -/
theorem VocabParallelEmbedding.forward_whole {w : Nat → Rows R} {input : Nat → List Nat} {ids : List Nat}
    (hw : ∀ rank < world_size, w rank = slice weight (rank * size) ((rank + 1) * size))
    (hinput : ∀ rank < world_size, input rank = ids) (hrank : rank < world_size)
    (hlen : weight.length = world_size * size) (hweight : ∀ row ∈ weight, row.length = dim) :
    forward dim size world_size w input rank = embedding_or_zeros dim weight ids := by
  refine reduce_eq hrank ?_
  obtain ⟨n, rfl⟩ : ∃ n, world_size = n + 1 := ⟨world_size - 1, by omega⟩
  have hshard : ∀ rank ∈ List.range (n + 1),
      output_parallel dim size rank (w rank) (input rank) =
        embedding_between dim weight ids (rank * size) ((rank + 1) * size) := fun rank hrank => by
    have hrank := List.mem_range.1 hrank
    rw [hw rank hrank, hinput rank hrank, output_parallel_shard ids hrank hlen]
  rw [List.map_congr_left hshard]
  refine (fold1_range (g := fun k => embedding_between dim weight ids 0 ((k + 1) * size)) (by rw [Nat.zero_mul])
    fun k _ => embedding_between_add hweight ids (Nat.zero_le _) (Nat.mul_le_mul_right size (Nat.le_succ _))).trans ?_
  refine List.map_congr_left fun id _ => ?_
  split_ifs with hout
  · rw [List.getElem?_eq_none (by omega)]
    rfl
  · rfl

end

end LMServe
