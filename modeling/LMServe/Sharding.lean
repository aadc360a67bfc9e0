import LMServe.Lib.Tensor
import Mathlib.Tactic.Common

/-!
# Loading a checkpoint into sharded layers

`load_weights` cuts a rank's shard out of a checkpoint tensor by the layer's type and the parameter's kind.
The layers' constructors have decided the shard's shape on their own (`models/utils.py`,
`models/parallel/layers.py`).
-/

namespace LMServe

inductive LoadError where
  /-- "{} is not divisible by {}" -/
  | not_divisible (numerator denominator : Nat)
  /-- the layer registers no such parameter -/
  | no_parameter
  /-- too few dimensions for the index -/
  | index
  /-- "Tensor shape mismatch between model and checkpoint: {param.shape} != {loaded_weight.shape}" -/
  | shape_mismatch (param loaded_weight : List Nat)
  deriving DecidableEq, Repr

def divide_and_check_no_remainder (numerator denominator : Nat) : Except LoadError Nat :=
  if numerator % denominator = 0 then .ok (numerator / denominator)
  else .error (.not_divisible numerator denominator)

/-- What a layer type other than the three parallel ones is called makes no difference. -/
inductive LayerType where
  | vocabParallelEmbedding | columnParallelLinear | rowParallelLinear | other
  deriving DecidableEq, Repr

inductive ParamType where
  | weight | bias
  deriving DecidableEq, Repr

/-- The shapes of the parameters a constructor registers -/
structure Parameters where
  weight : List Nat
  bias : Option (List Nat)

def Parameters.get (params : Parameters) : ParamType → Option (List Nat)
  | .weight => some params.weight
  | .bias => params.bias

/-! ### The constructors -/

namespace VocabUtility

def vocab_range_from_per_partition_vocab_size (per_partition_vocab_size rank : Nat) : Nat × Nat :=
  let index_f := rank * per_partition_vocab_size
  let index_l := index_f + per_partition_vocab_size
  (index_f, index_l)

def vocab_range_from_global_vocab_size (global_vocab_size rank world_size : Nat) : Except LoadError (Nat × Nat) := do
  let per_partition_vocab_size ← divide_and_check_no_remainder global_vocab_size world_size
  return vocab_range_from_per_partition_vocab_size per_partition_vocab_size rank

end VocabUtility

def vocab_parallel_embedding (num_embeddings embedding_dim rank world_size : Nat) : Except LoadError Parameters := do
  let (vocab_start_index, vocab_end_index) ←
    VocabUtility.vocab_range_from_global_vocab_size num_embeddings rank world_size
  return ⟨[vocab_end_index - vocab_start_index, embedding_dim], none⟩

def column_parallel_linear (in_features out_features : Nat) (bias : Bool) (world_size : Nat) :
    Except LoadError Parameters := do
  let output_size_per_partition ← divide_and_check_no_remainder out_features world_size
  return ⟨[output_size_per_partition, in_features], if bias then some [output_size_per_partition] else none⟩

def row_parallel_linear (in_features out_features : Nat) (bias : Bool) (world_size : Nat) :
    Except LoadError Parameters := do
  let input_size_per_partition ← divide_and_check_no_remainder in_features world_size
  return ⟨[out_features, input_size_per_partition], if bias then some [out_features] else none⟩

/-- A layer with what its constructor is given -/
inductive Layer where
  | vocabParallelEmbedding (num_embeddings embedding_dim : Nat)
  | columnParallelLinear (in_features out_features : Nat) (bias : Bool)
  | rowParallelLinear (in_features out_features : Nat) (bias : Bool)
  | other (params : Parameters)

namespace Layer

def layer_type : Layer → LayerType
  | vocabParallelEmbedding .. => .vocabParallelEmbedding
  | columnParallelLinear .. => .columnParallelLinear
  | rowParallelLinear .. => .rowParallelLinear
  | other _ => .other

def init (rank world_size : Nat) : Layer → Except LoadError Parameters
  | vocabParallelEmbedding num_embeddings embedding_dim =>
    vocab_parallel_embedding num_embeddings embedding_dim rank world_size
  | columnParallelLinear in_features out_features bias =>
    column_parallel_linear in_features out_features bias world_size
  | rowParallelLinear in_features out_features bias =>
    row_parallel_linear in_features out_features bias world_size
  | other params => .ok params

/-- The layer's parameters before any sharding -/
def whole : Layer → Parameters
  | vocabParallelEmbedding num_embeddings embedding_dim => ⟨[num_embeddings, embedding_dim], none⟩
  | columnParallelLinear in_features out_features bias =>
    ⟨[out_features, in_features], if bias then some [out_features] else none⟩
  | rowParallelLinear in_features out_features bias =>
    ⟨[out_features, in_features], if bias then some [out_features] else none⟩
  | other params => params

/-- The size that the constructor divides among the ranks -/
def sharded_size : Layer → Option Nat
  | vocabParallelEmbedding num_embeddings _ => some num_embeddings
  | columnParallelLinear _ out_features _ => some out_features
  | rowParallelLinear in_features _ _ => some in_features
  | other _ => none

/-- The dimension a parameter is partitioned along, as `partition_dim` of `_initialize_affine_weight` -/
def partition_dim : Layer → ParamType → Option (Fin 2)
  | vocabParallelEmbedding .., _ => some 0
  | columnParallelLinear .., _ => some 0
  | rowParallelLinear .., .weight => some 1
  | rowParallelLinear .., .bias => none
  | other _, _ => none

end Layer

/-! ### Loading -/

section
variable {α : Type}

/-- `param.shape[dim]` -/
def size_of (param : List Nat) (dim : Nat) : Except LoadError Nat :=
  match param[dim]? with
  | some size => .ok size
  | none => .error .index

/-- `loaded_weight[:, start_idx:end_idx]` -/
def index_cols (loaded_weight : Tensor α) (start_idx end_idx : Nat) : Except LoadError (Tensor α) :=
  match loaded_weight.slice_cols start_idx end_idx with
  | some t => .ok t
  | none => .error .index

/-- What is copied into the parameter of shape `param` -/
def load_weights (param : List Nat) (loaded_weight : Tensor α) (layer_types : LayerType × ParamType)
    (tensor_model_parallel_rank : Nat) : Except LoadError (Tensor α) := do
  let (layer_type, param_type) := layer_types
  let loaded_weight ← match layer_type with
    | .vocabParallelEmbedding | .columnParallelLinear => do
      let shard_size ← size_of param 0
      let start_idx := tensor_model_parallel_rank * shard_size
      let end_idx := (tensor_model_parallel_rank + 1) * shard_size
      pure (loaded_weight.slice_rows start_idx end_idx)
    | .rowParallelLinear =>
      match param_type with
      | .bias => do
        let shard_size ← size_of param 0
        let start_idx := tensor_model_parallel_rank * shard_size
        let end_idx := (tensor_model_parallel_rank + 1) * shard_size
        index_cols loaded_weight start_idx end_idx
      | .weight => do
        let shard_size ← size_of param 1
        let start_idx := tensor_model_parallel_rank * shard_size
        let end_idx := (tensor_model_parallel_rank + 1) * shard_size
        index_cols loaded_weight start_idx end_idx
    | .other => pure loaded_weight
  if param = loaded_weight.shape then .ok loaded_weight
  else .error (.shape_mismatch param loaded_weight.shape)

/-- A rank builds the layer and loads one tensor of the checkpoint into it. -/
def load_rank (layer : Layer) (param_type : ParamType) (checkpoint : Tensor α) (world_size rank : Nat) :
    Except LoadError (Tensor α) := do
  let params ← layer.init rank world_size
  match params.get param_type with
  | none => .error .no_parameter
  | some param => load_weights param checkpoint (layer.layer_type, param_type) rank

/-- What the ranks have loaded, in rank order -/
def load_ranks (layer : Layer) (param_type : ParamType) (checkpoint : Tensor α) (world_size : Nat) :
    Except LoadError (List (Tensor α)) :=
  (List.range world_size).mapM (load_rank layer param_type checkpoint world_size)

/-- The shards, one after the other along the partitioned dimension, or each of them alone -/
def Reassembles (dim : Option (Fin 2)) (shards : List (Tensor α)) (checkpoint : Tensor α) : Prop :=
  match dim with
  | some 0 => Tensor.cat Tensor.append_rows shards = some checkpoint
  | some 1 => Tensor.cat Tensor.append_cols shards = some checkpoint
  | none => ∀ shard ∈ shards, shard = checkpoint

variable {layer : Layer} {param_type : ParamType} {checkpoint t : Tensor α} {param dims : List Nat}
  {layer_type : LayerType} {tp rank size n : Nat}

/-! ### One rank -/

@[simp] theorem divide_mul (htp : 0 < tp) : divide_and_check_no_remainder (tp * size) tp = .ok size := by
  rw [divide_and_check_no_remainder, if_pos (Nat.mul_mod_right tp size), Nat.mul_div_cancel_left size htp]

theorem vocab_parallel_embedding_ok (htp : 0 < tp) :
    vocab_parallel_embedding (tp * size) n rank tp = .ok ⟨[size, n], none⟩ := by
  have hsize : rank * size + size - rank * size = size := Nat.add_sub_cancel_left _ _
  rw [vocab_parallel_embedding, VocabUtility.vocab_range_from_global_vocab_size, divide_mul htp]
  show Except.ok (Parameters.mk [rank * size + size - rank * size, n] none) = _
  rw [hsize]

theorem column_parallel_linear_ok {bias : Bool} (htp : 0 < tp) :
    column_parallel_linear n (tp * size) bias tp = .ok ⟨[size, n], if bias then some [size] else none⟩ := by
  rw [column_parallel_linear, divide_mul htp]
  rfl

theorem row_parallel_linear_ok {bias : Bool} (htp : 0 < tp) :
    row_parallel_linear (tp * size) n bias tp = .ok ⟨[n, size], if bias then some [n] else none⟩ := by
  rw [row_parallel_linear, divide_mul htp]
  rfl

theorem load_rank_eq {params : Parameters} (hinit : layer.init rank tp = .ok params)
    (hget : params.get param_type = some param) :
    load_rank layer param_type checkpoint tp rank =
      load_weights param checkpoint (layer.layer_type, param_type) rank := by
  rw [load_rank, hinit]
  show (match params.get param_type with | none => _ | some param => _) = _
  rw [hget]

theorem shard_size_eq (h : rank < tp) : min ((rank + 1) * size) (tp * size) - rank * size = size := by
  rw [Nat.min_eq_left (Nat.mul_le_mul_right size h), Nat.succ_mul, Nat.add_sub_cancel_left]

theorem load_weights_rows (htype : layer_type = .vocabParallelEmbedding ∨ layer_type = .columnParallelLinear)
    (hshape : checkpoint.shape = tp * size :: dims) (hrank : rank < tp) :
    load_weights (size :: dims) checkpoint (layer_type, param_type) rank =
      .ok (checkpoint.slice_rows (rank * size) ((rank + 1) * size)) := by
  have hs : size :: dims = (checkpoint.slice_rows (rank * size) ((rank + 1) * size)).shape := by
    rw [Tensor.shape_slice_rows hshape, shard_size_eq hrank]
  rcases htype with rfl | rfl
  · exact if_pos hs
  · exact if_pos hs

theorem load_weights_cols (hshape : checkpoint.shape = [n, tp * size]) (hrank : rank < tp)
    (hcut : checkpoint.slice_cols (rank * size) ((rank + 1) * size) = some t) :
    load_weights [n, size] checkpoint (.rowParallelLinear, .weight) rank = .ok t := by
  obtain ⟨u, hu, hs⟩ := Tensor.slice_cols_of_shape (a := rank * size) (b := (rank + 1) * size) hshape
  obtain rfl := Option.some.inj (hu.symm.trans hcut)
  rw [shard_size_eq hrank] at hs
  show (index_cols checkpoint _ _ >>= _) = _
  rw [index_cols, hu]
  exact if_pos hs.symm

/-- The bias has one dimension, and the slice is taken along the second. -/
theorem load_weights_row_bias (hshape : checkpoint.shape = [n]) :
    load_weights [n] checkpoint (.rowParallelLinear, .bias) rank = .error .index := by
  show (index_cols checkpoint _ _ >>= _) = _
  rw [index_cols, Tensor.slice_cols_of_shape_singleton hshape]
  rfl

theorem load_weights_other : load_weights checkpoint.shape checkpoint (.other, param_type) rank = .ok checkpoint :=
  if_pos rfl

/-! ### All the ranks -/

theorem except_bind_ok {ε β γ : Type} {x : Except ε β} {f : β → Except ε γ} {c : γ} :
    x >>= f = .ok c ↔ ∃ b, x = .ok b ∧ f b = .ok c := by
  cases x with
  | error e =>
    constructor
    · intro h; cases h
    · rintro ⟨_, h, _⟩; cases h
  | ok b =>
    constructor
    · intro h; exact ⟨b, rfl, h⟩
    · rintro ⟨_, hb, h⟩; cases hb; exact h

theorem mapM_ok {ε β γ : Type} {f : β → Except ε γ} {g : β → γ} {xs : List β} (h : ∀ x ∈ xs, f x = .ok (g x)) :
    xs.mapM f = .ok (xs.map g) := by
  induction xs with
  | nil => rfl
  | cons x xs ih =>
    rw [List.mapM_cons, h x List.mem_cons_self, ih fun y hy => h y (List.mem_cons_of_mem x hy)]
    rfl

theorem exists_of_mapM {ε β γ : Type} {f : β → Except ε γ} {xs : List β} {ys : List γ} (h : xs.mapM f = .ok ys) :
    ∀ x ∈ xs, ∃ y, f x = .ok y := by
  induction xs generalizing ys with
  | nil => intro x hx; cases hx
  | cons x xs ih =>
    rw [List.mapM_cons] at h
    simp only [except_bind_ok] at h
    obtain ⟨y, hx, zs, hxs, -⟩ := h
    exact List.forall_mem_cons.2 ⟨⟨y, hx⟩, ih hxs⟩

theorem load_ranks_ok {shard : Nat → Tensor α}
    (h : ∀ rank < tp, load_rank layer param_type checkpoint tp rank = .ok (shard rank)) :
    load_ranks layer param_type checkpoint tp = .ok ((List.range tp).map shard) :=
  mapM_ok fun rank hrank => h rank (List.mem_range.1 hrank)

theorem reassembles_rows (htp : 0 < tp) (hshape : checkpoint.shape = tp * size :: dims) :
    Reassembles (some 0) ((List.range tp).map fun rank => checkpoint.slice_rows (rank * size) ((rank + 1) * size))
      checkpoint := by
  obtain ⟨n, rfl⟩ : ∃ n, tp = n + 1 := ⟨tp - 1, by omega⟩
  exact (Tensor.cat_shards_rows checkpoint size n).trans (congrArg some (Tensor.slice_rows_all hshape))

theorem reassembles_cols {shard : Nat → Tensor α} (htp : 0 < tp) (hshape : checkpoint.shape = [n, tp * size])
    (hcut : ∀ rank, checkpoint.slice_cols (rank * size) ((rank + 1) * size) = some (shard rank)) :
    Reassembles (some 1) ((List.range tp).map shard) checkpoint := by
  obtain ⟨k, rfl⟩ : ∃ k, tp = k + 1 := ⟨tp - 1, by omega⟩
  exact (Tensor.cat_shards_cols size k hcut).trans (Tensor.slice_cols_all hshape)

/-- Every rank loads its shard, and the shards are the checkpoint's tensor. -/
def LoadsWhole (layer : Layer) (param_type : ParamType) (checkpoint : Tensor α) (tp : Nat) : Prop :=
  ∃ shards, load_ranks layer param_type checkpoint tp = .ok shards ∧
    Reassembles (layer.partition_dim param_type) shards checkpoint

theorem loadsWhole_iff_shards : LoadsWhole layer param_type checkpoint tp ↔ ∃ shard : Nat → Tensor α,
    (∀ rank < tp, load_rank layer param_type checkpoint tp rank = .ok (shard rank)) ∧
      Reassembles (layer.partition_dim param_type) ((List.range tp).map shard) checkpoint := by
  constructor
  · rintro ⟨shards, hload, hwhole⟩
    have hranks : ∀ rank, ∃ t, rank < tp → load_rank layer param_type checkpoint tp rank = .ok t := fun rank => by
      by_cases hrank : rank < tp
      · obtain ⟨t, ht⟩ := exists_of_mapM hload rank (List.mem_range.2 hrank)
        exact ⟨t, fun _ => ht⟩
      · exact ⟨default, fun h => absurd h hrank⟩
    choose shard hshard using hranks
    obtain rfl : shards = (List.range tp).map shard := Except.ok.inj (hload.symm.trans (load_ranks_ok hshard))
    exact ⟨shard, hshard, hwhole⟩
  · rintro ⟨shard, hload, hwhole⟩
    exact ⟨_, load_ranks_ok hload, hwhole⟩

theorem loads_rows (htp : 0 < tp) (hdim : layer.partition_dim param_type = some 0)
    (hshape : checkpoint.shape = tp * size :: dims)
    (hload : ∀ rank < tp, load_rank layer param_type checkpoint tp rank =
      load_weights (size :: dims) checkpoint (layer_type, param_type) rank)
    (htype : layer_type = .vocabParallelEmbedding ∨ layer_type = .columnParallelLinear) :
    LoadsWhole layer param_type checkpoint tp := by
  refine ⟨_, load_ranks_ok fun rank hrank => (hload rank hrank).trans (load_weights_rows htype hshape hrank), ?_⟩
  rw [hdim]
  exact reassembles_rows htp hshape

theorem vocab_parallel_embedding_loads {num_embeddings embedding_dim : Nat} (htp : 0 < tp)
    (hdvd : tp ∣ num_embeddings) (hshape : checkpoint.shape = [num_embeddings, embedding_dim]) :
    LoadsWhole (.vocabParallelEmbedding num_embeddings embedding_dim) .weight checkpoint tp := by
  obtain ⟨size, rfl⟩ := hdvd
  exact loads_rows htp rfl hshape (fun rank _ => load_rank_eq (vocab_parallel_embedding_ok htp) rfl) (.inl rfl)

theorem column_parallel_linear_loads {in_features out_features : Nat} {bias : Bool} (htp : 0 < tp)
    (hdvd : tp ∣ out_features)
    (hshape : (Layer.columnParallelLinear in_features out_features bias).whole.get param_type = some checkpoint.shape) :
    LoadsWhole (.columnParallelLinear in_features out_features bias) param_type checkpoint tp := by
  obtain ⟨size, rfl⟩ := hdvd
  cases param_type with
  | weight =>
    exact loads_rows htp rfl (Option.some.inj hshape).symm
      (fun rank _ => load_rank_eq (column_parallel_linear_ok htp) rfl) (.inr rfl)
  | bias =>
    cases bias with
    | false => cases hshape
    | true =>
      exact loads_rows htp rfl (Option.some.inj hshape).symm
        (fun rank _ => load_rank_eq (column_parallel_linear_ok htp) rfl) (.inr rfl)

theorem row_parallel_linear_loads {in_features out_features : Nat} {bias : Bool} (htp : 0 < tp)
    (hdvd : tp ∣ in_features) (hshape : checkpoint.shape = [out_features, in_features]) :
    LoadsWhole (.rowParallelLinear in_features out_features bias) .weight checkpoint tp := by
  obtain ⟨size, rfl⟩ := hdvd
  choose shard hcut _ using fun rank =>
    Tensor.slice_cols_of_shape (a := rank * size) (b := (rank + 1) * size) hshape
  refine ⟨_, load_ranks_ok fun rank hrank => ?_, reassembles_cols htp hshape hcut⟩
  have hinit : (Layer.rowParallelLinear (tp * size) out_features bias).init rank tp = _ := row_parallel_linear_ok htp
  exact (load_rank_eq hinit rfl).trans (load_weights_cols hshape hrank (hcut rank))

theorem other_loads {params : Parameters} (hshape : params.get param_type = some checkpoint.shape) :
    LoadsWhole (.other params) param_type checkpoint tp := by
  refine ⟨_, load_ranks_ok fun rank _ => (load_rank_eq rfl hshape).trans load_weights_other, ?_⟩
  intro shard hshard
  obtain ⟨rank, _, rfl⟩ := List.mem_map.1 hshard
  rfl

theorem row_parallel_linear_bias_fails {in_features out_features : Nat} {bias : Bool} (htp : 0 < tp)
    (hdvd : tp ∣ in_features)
    (hshape : (Layer.rowParallelLinear in_features out_features bias).whole.get .bias = some checkpoint.shape) :
    load_rank (.rowParallelLinear in_features out_features bias) .bias checkpoint tp rank = .error .index := by
  cases bias with
  | false => cases hshape
  | true =>
    obtain ⟨size, rfl⟩ := hdvd
    have hinit : (Layer.rowParallelLinear (tp * size) out_features true).init rank tp = _ := row_parallel_linear_ok htp
    exact (load_rank_eq hinit rfl).trans (load_weights_row_bias (Option.some.inj hshape).symm)

/-- The ranks reassemble every parameter but the bias of a row-parallel layer. -/
theorem loads_whole_iff (htp : 0 < tp) (hdvd : ∀ n ∈ layer.sharded_size, tp ∣ n)
    (hshape : layer.whole.get param_type = some checkpoint.shape) :
    LoadsWhole layer param_type checkpoint tp ↔
      ¬ (layer.layer_type = .rowParallelLinear ∧ param_type = .bias) := by
  constructor
  · rintro ⟨shards, hload, _⟩ ⟨htype, rfl⟩
    cases layer with
    | vocabParallelEmbedding => cases htype
    | columnParallelLinear => cases htype
    | rowParallelLinear in_features out_features bias =>
      obtain ⟨shard, hranks⟩ := exists_of_mapM hload 0 (List.mem_range.2 htp)
      rw [row_parallel_linear_bias_fails htp (hdvd _ rfl) hshape] at hranks
      cases hranks
    | other => cases htype
  · intro hrow
    cases layer with
    | vocabParallelEmbedding num_embeddings embedding_dim =>
      cases param_type with
      | weight => exact vocab_parallel_embedding_loads htp (hdvd _ rfl) (Option.some.inj hshape).symm
      | bias => cases hshape
    | columnParallelLinear in_features out_features bias =>
      exact column_parallel_linear_loads htp (hdvd _ rfl) hshape
    | rowParallelLinear in_features out_features bias =>
      cases param_type with
      | weight => exact row_parallel_linear_loads htp (hdvd _ rfl) (Option.some.inj hshape).symm
      | bias => exact absurd ⟨rfl, rfl⟩ hrow
    | other params => exact other_loads hshape

end

end LMServe
