import LMServe.Attention
import Mathlib.Algebra.Field.Basic

/-!
# Llama and Qwen2 over several ranks

`models/llama.py` and `models/qwen2.py` differ in the biases of the attention's projections only. Every rank loads
its shard of the checkpoint and runs `forward`; a value on every rank is a function of the rank. Arithmetic is
exact.
-/

open Chunk Linear

namespace LMServe

variable {R C : Type}

/-- What the constructors are given -/
structure LlamaConfig (R : Type) where
  vocab_size : Nat
  hidden_size : Nat
  intermediate_size : Nat
  num_attention_heads : Nat
  num_key_value_heads : Nat
  num_hidden_layers : Nat
  rms_norm_eps : R
  /-- `False` in Llama, `True` in Qwen2 -/
  attention_bias : Bool
  tie_word_embeddings : Bool
  /-- the table of the rotary embedding -/
  cos_sin_cached : Rows R

def LlamaConfig.head_dim (config : LlamaConfig R) : Nat := config.hidden_size / config.num_attention_heads

/-- flashinfer, and the functions of torch that act on single entries -/
structure Kernels (R C : Type) extends FlashInfer R C where
  rsqrt : R → R
  activation_fn : R → R

/-- The parameters of a `LlamaDecoderLayer`: a checkpoint's, or a rank's -/
structure DecoderWeights (R : Type) where
  q_proj : Tensor R
  k_proj : Tensor R
  v_proj : Tensor R
  o_proj : Tensor R
  /-- a bias that the checkpoint lacks stays zero -/
  q_bias : Option (Tensor R) := none
  k_bias : Option (Tensor R) := none
  v_bias : Option (Tensor R) := none
  gate_proj : Tensor R
  up_proj : Tensor R
  down_proj : Tensor R
  input_layernorm : Tensor R
  post_attention_layernorm : Tensor R
  deriving Inhabited

structure CausalWeights (R : Type) where
  embed_tokens : Tensor R
  layers : List (DecoderWeights R)
  norm : Tensor R
  lm_head : Tensor R

/-! ### `load_weights` -/

inductive ModelError where
  /-- an `assert` of `LlamaAttention.__init__` -/
  | assertion
  | load (e : LoadError)
  deriving DecidableEq, Repr

section
variable (config : LlamaConfig R) (world_size rank : Nat)

def load_parameter (layer : Layer) (param_type : ParamType) (checkpoint : Tensor R) : Except ModelError (Tensor R) :=
  (load_rank layer param_type checkpoint world_size rank).mapError .load

def DecoderWeights.load (checkpoint : DecoderWeights R) : Except ModelError (DecoderWeights R) := do
  let hidden_size := config.hidden_size
  let num_heads := config.num_attention_heads
  let num_kv_heads := config.num_key_value_heads
  if ¬ (hidden_size % num_heads = 0 ∧ num_heads % num_kv_heads = 0 ∧ num_heads % world_size = 0 ∧
      num_kv_heads % world_size = 0) then
    throw .assertion
  let q_size := num_heads * config.head_dim
  let kv_size := num_kv_heads * config.head_dim
  let q_layer := .columnParallelLinear hidden_size q_size config.attention_bias
  let kv_layer := .columnParallelLinear hidden_size kv_size config.attention_bias
  let o_layer := .rowParallelLinear hidden_size hidden_size false
  let up_layer := .columnParallelLinear hidden_size config.intermediate_size false
  let down_layer := .rowParallelLinear config.intermediate_size hidden_size false
  let norm_layer := .other ⟨[hidden_size], none⟩
  return {
    q_proj := ← load_parameter world_size rank q_layer .weight checkpoint.q_proj
    k_proj := ← load_parameter world_size rank kv_layer .weight checkpoint.k_proj
    v_proj := ← load_parameter world_size rank kv_layer .weight checkpoint.v_proj
    o_proj := ← load_parameter world_size rank o_layer .weight checkpoint.o_proj
    q_bias := ← checkpoint.q_bias.mapM (load_parameter world_size rank q_layer .bias)
    k_bias := ← checkpoint.k_bias.mapM (load_parameter world_size rank kv_layer .bias)
    v_bias := ← checkpoint.v_bias.mapM (load_parameter world_size rank kv_layer .bias)
    gate_proj := ← load_parameter world_size rank up_layer .weight checkpoint.gate_proj
    up_proj := ← load_parameter world_size rank up_layer .weight checkpoint.up_proj
    down_proj := ← load_parameter world_size rank down_layer .weight checkpoint.down_proj
    input_layernorm := ← load_parameter world_size rank norm_layer .weight checkpoint.input_layernorm
    post_attention_layernorm := ← load_parameter world_size rank norm_layer .weight checkpoint.post_attention_layernorm }

/-- `LlamaForCausalLM.load_weights`, of a checkpoint that has every weight; the weights go into different parameters. -/
def CausalWeights.load (checkpoint : CausalWeights R) : Except ModelError (CausalWeights R) := do
  let embed_tokens ← load_parameter world_size rank
    (.vocabParallelEmbedding config.vocab_size config.hidden_size) .weight checkpoint.embed_tokens
  let layers ← checkpoint.layers.mapM (DecoderWeights.load config world_size rank)
  let norm ← load_parameter world_size rank (.other ⟨[config.hidden_size], none⟩) .weight checkpoint.norm
  let lm_head ← load_parameter world_size rank
    (.columnParallelLinear config.hidden_size config.vocab_size false) .weight checkpoint.lm_head
  return { embed_tokens, layers, norm, lm_head := if config.tie_word_embeddings then embed_tokens else lm_head }

end

/-! ### `forward` -/

section
variable [Field R] (kernels : Kernels R C) (config : LlamaConfig R) (world_size : Nat)

def LlamaRMSNorm.forward (weight : Tensor R) (x : Rows R) : Rows R :=
  x.map fun row =>
    let scale := kernels.rsqrt ((row.map (· ^ 2)).sum / row.length + config.rms_norm_eps)
    List.zipWith (· * ·) (row.map (· * scale)) weight.items

/-- Entry by entry -/
def gated (gate up : Rows R) : Rows R :=
  List.zipWith (List.zipWith fun x y => kernels.activation_fn x * y) gate up

def LlamaMLP.forward (weights : Nat → DecoderWeights R) (hidden_states : Nat → Rows R) : Nat → Rows R :=
  let gate := ColumnParallelLinear.forward false world_size (fun rank => (weights rank).gate_proj.rows) (fun _ => none)
    hidden_states
  let up := ColumnParallelLinear.forward false world_size (fun rank => (weights rank).up_proj.rows) (fun _ => none)
    hidden_states
  RowParallelLinear.forward world_size (fun rank => (weights rank).down_proj.rows) (fun _ => none)
    fun rank => gated kernels (gate rank) (up rank)

/-- The output of `self.attn` and the cache on every rank -/
def LlamaAttention.attn_output (garbage : Nat → Nat → List R) (weights : Nat → DecoderWeights R)
    (hidden_states : Nat → Rows R) (input_params : InputParams) (kv_cache : Nat → Option (List C)) :
    Nat → Rows R × Option (List C) :=
  let q := ColumnParallelLinear.forward false world_size (fun rank => (weights rank).q_proj.rows)
    (fun rank => (weights rank).q_bias.map Tensor.items) hidden_states
  let k := ColumnParallelLinear.forward false world_size (fun rank => (weights rank).k_proj.rows)
    (fun rank => (weights rank).k_bias.map Tensor.items) hidden_states
  let v := ColumnParallelLinear.forward false world_size (fun rank => (weights rank).v_proj.rows)
    (fun rank => (weights rank).v_bias.map Tensor.items) hidden_states
  let rotary_emb := rotate_rows config.head_dim config.cos_sin_cached input_params.position_ids
  fun rank => Attention.forward kernels.toFlashInfer (config.num_attention_heads / world_size)
    (config.num_key_value_heads / world_size) config.head_dim (garbage rank) (rotary_emb (q rank)) (rotary_emb (k rank))
    (v rank) input_params (kv_cache rank)

def LlamaAttention.forward (garbage : Nat → Nat → List R) (weights : Nat → DecoderWeights R) (hidden_states : Nat → Rows R)
    (input_params : InputParams) (kv_cache : Nat → Option (List C)) : Nat → Rows R × Option (List C) :=
  let attn_output := attn_output kernels config world_size garbage weights hidden_states input_params kv_cache
  let output := RowParallelLinear.forward world_size (fun rank => (weights rank).o_proj.rows) (fun _ => none)
    fun rank => (attn_output rank).1
  fun rank => (output rank, (attn_output rank).2)

def LlamaDecoderLayer.forward (garbage : Nat → Nat → List R) (weights : Nat → DecoderWeights R)
    (hidden_states : Nat → Rows R) (input_params : InputParams) (kv_cache : Nat → Option (List C)) :
    Nat → Rows R × Option (List C) :=
  let normed rank := LlamaRMSNorm.forward kernels config (weights rank).input_layernorm (hidden_states rank)
  let attn := LlamaAttention.forward kernels config world_size garbage weights normed input_params kv_cache
  let residual rank := add (hidden_states rank) (attn rank).1
  let normed rank := LlamaRMSNorm.forward kernels config (weights rank).post_attention_layernorm (residual rank)
  let mlp := LlamaMLP.forward kernels world_size weights normed
  fun rank => (add (residual rank) (mlp rank), (attn rank).2)

variable (garbage : Nat → Nat → Nat → List R) (weights : Nat → CausalWeights R) (input_params : InputParams)

/-- The loop's body for layer `i` -/
def LlamaModel.layer (i : Nat) (state : (Nat → Rows R) × (Nat → Option (List (List C)))) :
    (Nat → Rows R) × (Nat → Option (List (List C))) :=
  let out := LlamaDecoderLayer.forward kernels config world_size (garbage i) (fun rank => (weights rank).layers.getD i default)
    state.1 input_params fun rank => (state.2 rank).map (·.getD i [])
  (fun rank => (out rank).1, fun rank => (state.2 rank).map fun kv_caches => kv_caches.set i ((out rank).2.getD []))

def LlamaModel.forward (input_ids : List Nat) (kv_caches : Nat → Option (List (List C))) :
    (Nat → Rows R) × (Nat → Option (List (List C))) :=
  let hidden_states := VocabParallelEmbedding.forward config.hidden_size (config.vocab_size / world_size) world_size
    (fun rank => (weights rank).embed_tokens.rows) fun _ => input_ids
  let state := (List.range config.num_hidden_layers).foldl
    (fun state i => layer kernels config world_size garbage weights input_params i state) (hidden_states, kv_caches)
  (fun rank => LlamaRMSNorm.forward kernels config (weights rank).norm (state.1 rank), state.2)

/-- `hidden_states[cu_seqlens_q[1:] - 1]` -/
def last_rows (input_params : InputParams) (hidden_states : Rows R) : Except WorkerError (Rows R) :=
  (input_params.cu_seqlens_q.tail.map fun (len : Nat) => (len : Int) - 1).mapM (item_at hidden_states)

/-- A rank that fails to index does not reach `lm_head`. -/
def LlamaForCausalLM.forward (input_ids : List Nat) (kv_caches : Nat → Option (List (List C))) :
    Nat → Except WorkerError (Rows R) × Option (List (List C)) :=
  let out := LlamaModel.forward kernels config world_size garbage weights input_params input_ids kv_caches
  let hidden_states rank := last_rows input_params (out.1 rank)
  let logits := ColumnParallelLinear.forward true world_size (fun rank => (weights rank).lm_head.rows) (fun _ => none)
    fun rank => (hidden_states rank).toOption.getD []
  fun rank => ((hidden_states rank).map fun _ => logits rank, out.2 rank)

end

/-- A batch that `execute` is called with, and what its new tensors find in memory -/
structure ModelBatch (R : Type) where
  input_ids : List Nat
  input_params : InputParams
  use_cache : Bool
  garbage : Nat → Nat → Nat → List R

/-- The logits of batches, one after the other, on every rank -/
def serve [Field R] (kernels : Kernels R C) (config : LlamaConfig R) (world_size : Nat) (weights : Nat → CausalWeights R) :
    (Nat → List (List C)) → List (ModelBatch R) → Nat → List (Except WorkerError (Rows R))
  | _, [] => fun _ => []
  | kv_caches, batch :: batches =>
    let out := LlamaForCausalLM.forward kernels config world_size batch.garbage weights batch.input_params batch.input_ids
      fun rank => if batch.use_cache then some (kv_caches rank) else none
    fun rank => (out rank).1 :: serve kernels config world_size weights (fun rank => (out rank).2.getD (kv_caches rank))
      batches rank

end LMServe
