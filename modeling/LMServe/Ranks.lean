import LMServe.Llama
import Mathlib.Data.List.GetD

/-!
# The ranks compute the model

The model on one device, and that each rank of any world size computes it: the parallel layers turn a rank's rows of
the weights into its heads and its columns, and sum or gather them where the next layer needs all.
-/

open Chunk Linear

namespace LMServe

variable {R C : Type}

/-! ### On one device -/

section
variable [Field R] (kernels : Kernels R C) (config : LlamaConfig R)

def LlamaMLP.whole (weights : DecoderWeights R) (x : Rows R) : Rows R :=
  linear (gated kernels (linear x weights.gate_proj.rows none) (linear x weights.up_proj.rows none)) weights.down_proj.rows
    none

def LlamaAttention.whole_output (weights : DecoderWeights R) (x : Rows R) (input_params : InputParams)
    (kv_cache : Option (List C)) : Rows R × Option (List C) :=
  let rotary_emb := rotate_rows config.head_dim config.cos_sin_cached input_params.position_ids
  Attention.whole kernels.toFlashInfer config.num_attention_heads config.num_key_value_heads config.head_dim
    (rotary_emb (linear x weights.q_proj.rows (weights.q_bias.map Tensor.items)))
    (rotary_emb (linear x weights.k_proj.rows (weights.k_bias.map Tensor.items)))
    (linear x weights.v_proj.rows (weights.v_bias.map Tensor.items)) input_params kv_cache

def LlamaAttention.whole (weights : DecoderWeights R) (x : Rows R) (input_params : InputParams) (kv_cache : Option (List C)) :
    Rows R × Option (List C) :=
  let attn_output := whole_output kernels config weights x input_params kv_cache
  (linear attn_output.1 weights.o_proj.rows none, attn_output.2)

def LlamaDecoderLayer.whole (weights : DecoderWeights R) (x : Rows R) (input_params : InputParams)
    (kv_cache : Option (List C)) : Rows R × Option (List C) :=
  let attn := LlamaAttention.whole kernels config weights (LlamaRMSNorm.forward kernels config weights.input_layernorm x)
    input_params kv_cache
  let residual := add x attn.1
  (add residual (LlamaMLP.whole kernels weights
    (LlamaRMSNorm.forward kernels config weights.post_attention_layernorm residual)), attn.2)

variable (weights : CausalWeights R) (input_params : InputParams)

def LlamaModel.whole_layer (i : Nat) (state : Rows R × Option (List (List C))) : Rows R × Option (List (List C)) :=
  let out := LlamaDecoderLayer.whole kernels config (weights.layers.getD i default) state.1 input_params
    (state.2.map (·.getD i []))
  (out.1, state.2.map fun kv_caches => kv_caches.set i (out.2.getD []))

def LlamaModel.whole (input_ids : List Nat) (kv_caches : Option (List (List C))) : Rows R × Option (List (List C)) :=
  let state := (List.range config.num_hidden_layers).foldl
    (fun state i => whole_layer kernels config weights input_params i state)
    (embedding_or_zeros config.hidden_size weights.embed_tokens.rows input_ids, kv_caches)
  (LlamaRMSNorm.forward kernels config weights.norm state.1, state.2)

def LlamaForCausalLM.whole (input_ids : List Nat) (kv_caches : Option (List (List C))) :
    Except WorkerError (Rows R) × Option (List (List C)) :=
  let out := LlamaModel.whole kernels config weights input_params input_ids kv_caches
  ((last_rows input_params out.1).map fun rows => linear rows weights.lm_head.rows none, out.2)

def serve_whole : List (List C) → List (ModelBatch R) → List (Except WorkerError (Rows R))
  | _, [] => []
  | kv_caches, batch :: batches =>
    let out := LlamaForCausalLM.whole kernels config weights batch.input_params batch.input_ids
      (if batch.use_cache then some kv_caches else none)
    out.1 :: serve_whole (out.2.getD kv_caches) batches

end

/-! ### Shards -/

/-- The sizes that a rank has its share of -/
structure LlamaConfig.Splits (config : LlamaConfig R) (world_size kv_heads group head_dim intermediate vocab : Nat) : Prop where
  pos : 0 < config.hidden_size
  num_key_value_heads : config.num_key_value_heads = world_size * kv_heads
  num_attention_heads : config.num_attention_heads = world_size * kv_heads * group
  hidden_size : config.hidden_size = world_size * kv_heads * group * head_dim
  intermediate_size : config.intermediate_size = world_size * intermediate
  vocab_size : config.vocab_size = world_size * vocab

/-- A checkpoint's weights have the shapes that the constructors give the parameters of one rank alone. -/
structure DecoderWeights.Wellformed (config : LlamaConfig R) (weights : DecoderWeights R) : Prop where
  q_proj : weights.q_proj.shape = [config.num_attention_heads * config.head_dim, config.hidden_size]
  k_proj : weights.k_proj.shape = [config.num_key_value_heads * config.head_dim, config.hidden_size]
  v_proj : weights.v_proj.shape = [config.num_key_value_heads * config.head_dim, config.hidden_size]
  o_proj : weights.o_proj.shape = [config.hidden_size, config.hidden_size]
  q_bias : ∀ bias ∈ weights.q_bias, config.attention_bias = true ∧ bias.shape = [config.num_attention_heads * config.head_dim]
  k_bias : ∀ bias ∈ weights.k_bias, config.attention_bias = true ∧ bias.shape = [config.num_key_value_heads * config.head_dim]
  v_bias : ∀ bias ∈ weights.v_bias, config.attention_bias = true ∧ bias.shape = [config.num_key_value_heads * config.head_dim]
  gate_proj : weights.gate_proj.shape = [config.intermediate_size, config.hidden_size]
  up_proj : weights.up_proj.shape = [config.intermediate_size, config.hidden_size]
  down_proj : weights.down_proj.shape = [config.hidden_size, config.intermediate_size]
  input_layernorm : weights.input_layernorm.shape = [config.hidden_size]
  post_attention_layernorm : weights.post_attention_layernorm.shape = [config.hidden_size]

structure CausalWeights.Wellformed (config : LlamaConfig R) (weights : CausalWeights R) : Prop where
  embed_tokens : weights.embed_tokens.shape = [config.vocab_size, config.hidden_size]
  num_layers : weights.layers.length = config.num_hidden_layers
  layers : ∀ layer ∈ weights.layers, layer.Wellformed config
  norm : weights.norm.shape = [config.hidden_size]
  lm_head : weights.lm_head.shape = [config.vocab_size, config.hidden_size]

/-- The weights that the model runs with -/
def CausalWeights.tied (config : LlamaConfig R) (weights : CausalWeights R) : CausalWeights R :=
  { weights with lm_head := if config.tie_word_embeddings then weights.embed_tokens else weights.lm_head }

/-- A rank's rows or columns -/
structure DecoderWeights.IsShard (kv_heads group head_dim intermediate rank : Nat) (whole part : DecoderWeights R) : Prop where
  q_proj : part.q_proj.rows =
    slice whole.q_proj.rows (rank * (kv_heads * group * head_dim)) ((rank + 1) * (kv_heads * group * head_dim))
  k_proj : part.k_proj.rows = slice whole.k_proj.rows (rank * (kv_heads * head_dim)) ((rank + 1) * (kv_heads * head_dim))
  v_proj : part.v_proj.rows = slice whole.v_proj.rows (rank * (kv_heads * head_dim)) ((rank + 1) * (kv_heads * head_dim))
  o_proj : part.o_proj.rows =
    cols (rank * (kv_heads * group * head_dim)) ((rank + 1) * (kv_heads * group * head_dim)) whole.o_proj.rows
  q_bias : part.q_bias.map Tensor.items = (whole.q_bias.map Tensor.items).map
    (slice · (rank * (kv_heads * group * head_dim)) ((rank + 1) * (kv_heads * group * head_dim)))
  k_bias : part.k_bias.map Tensor.items = (whole.k_bias.map Tensor.items).map
    (slice · (rank * (kv_heads * head_dim)) ((rank + 1) * (kv_heads * head_dim)))
  v_bias : part.v_bias.map Tensor.items = (whole.v_bias.map Tensor.items).map
    (slice · (rank * (kv_heads * head_dim)) ((rank + 1) * (kv_heads * head_dim)))
  gate_proj : part.gate_proj.rows = slice whole.gate_proj.rows (rank * intermediate) ((rank + 1) * intermediate)
  up_proj : part.up_proj.rows = slice whole.up_proj.rows (rank * intermediate) ((rank + 1) * intermediate)
  down_proj : part.down_proj.rows = cols (rank * intermediate) ((rank + 1) * intermediate) whole.down_proj.rows
  input_layernorm : part.input_layernorm = whole.input_layernorm
  post_attention_layernorm : part.post_attention_layernorm = whole.post_attention_layernorm

structure CausalWeights.IsShard (kv_heads group head_dim intermediate vocab rank : Nat) (whole part : CausalWeights R) :
    Prop where
  embed_tokens : part.embed_tokens.rows = slice whole.embed_tokens.rows (rank * vocab) ((rank + 1) * vocab)
  layers : List.Forall₂ (DecoderWeights.IsShard kv_heads group head_dim intermediate rank) whole.layers part.layers
  norm : part.norm = whole.norm
  lm_head : part.lm_head.rows = slice whole.lm_head.rows (rank * vocab) ((rank + 1) * vocab)

/-! ### Loading -/

section
variable {config : LlamaConfig R} {world_size rank size n kv_heads group head_dim intermediate vocab : Nat} {t : Tensor R}

theorem load_column (hrank : rank < world_size) (bias : Bool) (hshape : t.shape = [world_size * size, n]) :
    load_parameter world_size rank (.columnParallelLinear n (world_size * size) bias) .weight t =
      .ok (t.slice_rows (rank * size) ((rank + 1) * size)) := by
  have hpos : 0 < world_size := Nat.lt_of_le_of_lt (Nat.zero_le rank) hrank
  have hinit : (Layer.columnParallelLinear n (world_size * size) bias).init rank world_size = _ := column_parallel_linear_ok hpos
  have hload : load_rank (.columnParallelLinear n (world_size * size) bias) .weight t world_size rank = _ :=
    (load_rank_eq hinit rfl).trans (load_weights_rows (.inr rfl) hshape hrank)
  exact congrArg (Except.mapError ModelError.load) hload

theorem load_column_bias (hrank : rank < world_size) (hshape : t.shape = [world_size * size]) :
    load_parameter world_size rank (.columnParallelLinear n (world_size * size) true) .bias t =
      .ok (t.slice_rows (rank * size) ((rank + 1) * size)) := by
  have hpos : 0 < world_size := Nat.lt_of_le_of_lt (Nat.zero_le rank) hrank
  have hinit : (Layer.columnParallelLinear n (world_size * size) true).init rank world_size = _ := column_parallel_linear_ok hpos
  have hload : load_rank (.columnParallelLinear n (world_size * size) true) .bias t world_size rank = _ :=
    (load_rank_eq hinit rfl).trans (load_weights_rows (.inr rfl) hshape hrank)
  exact congrArg (Except.mapError ModelError.load) hload

theorem load_vocab (hrank : rank < world_size) (hshape : t.shape = [world_size * size, n]) :
    load_parameter world_size rank (.vocabParallelEmbedding (world_size * size) n) .weight t =
      .ok (t.slice_rows (rank * size) ((rank + 1) * size)) := by
  have hpos : 0 < world_size := Nat.lt_of_le_of_lt (Nat.zero_le rank) hrank
  have hinit : (Layer.vocabParallelEmbedding (world_size * size) n).init rank world_size = _ := vocab_parallel_embedding_ok hpos
  have hload : load_rank (.vocabParallelEmbedding (world_size * size) n) .weight t world_size rank = _ :=
    (load_rank_eq hinit rfl).trans (load_weights_rows (.inl rfl) hshape hrank)
  exact congrArg (Except.mapError ModelError.load) hload

theorem load_row (hrank : rank < world_size) (hshape : t.shape = [n, world_size * size]) :
    ∃ u, load_parameter world_size rank (.rowParallelLinear (world_size * size) n false) .weight t = .ok u ∧
      u.rows = cols (rank * size) ((rank + 1) * size) t.rows := by
  have hpos : 0 < world_size := Nat.lt_of_le_of_lt (Nat.zero_le rank) hrank
  have hinit : (Layer.rowParallelLinear (world_size * size) n false).init rank world_size = _ := row_parallel_linear_ok hpos
  obtain ⟨u, hu, _⟩ := Tensor.slice_cols_of_shape (a := rank * size) (b := (rank + 1) * size) hshape
  have hload : load_rank (.rowParallelLinear (world_size * size) n false) .weight t world_size rank = _ :=
    (load_rank_eq hinit rfl).trans (load_weights_cols hshape hrank hu)
  exact ⟨u, congrArg (Except.mapError ModelError.load) hload, Tensor.rows_slice_cols hu⟩

variable (world_size rank) in
theorem load_norm (hshape : t.shape = [n]) : load_parameter world_size rank (.other ⟨[n], none⟩) .weight t = .ok t := by
  have hload : load_rank (.other ⟨[n], none⟩) .weight t world_size rank = .ok t :=
    (load_rank_eq rfl rfl).trans (if_pos hshape.symm)
  exact congrArg (Except.mapError ModelError.load) hload

namespace LlamaConfig.Splits

theorem head_dim_eq (h : config.Splits world_size kv_heads group head_dim intermediate vocab) : config.head_dim = head_dim := by
  have hpos := h.pos
  rw [h.hidden_size] at hpos
  rw [LlamaConfig.head_dim, h.hidden_size, h.num_attention_heads, Nat.mul_div_cancel_left]
  exact Nat.pos_of_mul_pos_right hpos

theorem q_size (h : config.Splits world_size kv_heads group head_dim intermediate vocab) :
    config.num_attention_heads * config.head_dim = world_size * (kv_heads * group * head_dim) := by
  rw [h.head_dim_eq, h.num_attention_heads, Nat.mul_assoc, Nat.mul_assoc, Nat.mul_assoc]

theorem kv_size (h : config.Splits world_size kv_heads group head_dim intermediate vocab) :
    config.num_key_value_heads * config.head_dim = world_size * (kv_heads * head_dim) := by
  rw [h.head_dim_eq, h.num_key_value_heads, Nat.mul_assoc]

theorem hidden (h : config.Splits world_size kv_heads group head_dim intermediate vocab) :
    config.hidden_size = world_size * (kv_heads * group * head_dim) := by
  rw [h.hidden_size, Nat.mul_assoc, Nat.mul_assoc, Nat.mul_assoc]

theorem asserts (h : config.Splits world_size kv_heads group head_dim intermediate vocab) :
    config.hidden_size % config.num_attention_heads = 0 ∧ config.num_attention_heads % config.num_key_value_heads = 0 ∧
      config.num_attention_heads % world_size = 0 ∧ config.num_key_value_heads % world_size = 0 := by
  rw [h.hidden_size, h.num_attention_heads, h.num_key_value_heads]
  refine ⟨Nat.mul_mod_right _ _, Nat.mul_mod_right _ _, ?_, Nat.mul_mod_right _ _⟩
  rw [Nat.mul_assoc]
  exact Nat.mul_mod_right _ _

end LlamaConfig.Splits

theorem load_bias (hrank : rank < world_size) {with_bias : Bool} {bias : Option (Tensor R)}
    (hbias : ∀ v ∈ bias, with_bias = true ∧ v.shape = [world_size * size]) :
    ∃ part, bias.mapM (load_parameter world_size rank (.columnParallelLinear n (world_size * size) with_bias) .bias) =
      .ok part ∧ part.map Tensor.items = (bias.map Tensor.items).map (slice · (rank * size) ((rank + 1) * size)) := by
  cases bias with
  | none => exact ⟨none, rfl, rfl⟩
  | some v =>
    obtain ⟨rfl, hshape⟩ := hbias v rfl
    refine ⟨some (v.slice_rows (rank * size) ((rank + 1) * size)), ?_, congrArg some (Tensor.items_slice_rows hshape)⟩
    rw [Option.mapM_some, load_column_bias hrank hshape]
    rfl

theorem DecoderWeights.load_shard (h : config.Splits world_size kv_heads group head_dim intermediate vocab)
    (hrank : rank < world_size) {whole : DecoderWeights R} (hw : whole.Wellformed config) :
    ∃ part, whole.load config world_size rank = .ok part ∧ whole.IsShard kv_heads group head_dim intermediate rank part := by
  have hq := load_column hrank config.attention_bias (hw.q_proj.trans (by rw [h.q_size]))
  have hk := load_column hrank config.attention_bias (hw.k_proj.trans (by rw [h.kv_size]))
  have hv := load_column hrank config.attention_bias (hw.v_proj.trans (by rw [h.kv_size]))
  have hgate := load_column hrank false (hw.gate_proj.trans (by rw [h.intermediate_size]))
  have hup := load_column hrank false (hw.up_proj.trans (by rw [h.intermediate_size]))
  have hoshape : whole.o_proj.shape = [config.hidden_size, world_size * (kv_heads * group * head_dim)] := by
    rw [← h.hidden]
    exact hw.o_proj
  obtain ⟨o, ho, hocols⟩ := load_row hrank hoshape
  obtain ⟨down, hdown, hdowncols⟩ := load_row hrank (hw.down_proj.trans (by rw [h.intermediate_size]))
  obtain ⟨qb, hqb, hqbslice⟩ := load_bias (n := config.hidden_size) hrank (h.q_size ▸ hw.q_bias)
  obtain ⟨kb, hkb, hkbslice⟩ := load_bias (n := config.hidden_size) hrank (h.kv_size ▸ hw.k_bias)
  obtain ⟨vb, hvb, hvbslice⟩ := load_bias (n := config.hidden_size) hrank (h.kv_size ▸ hw.v_bias)
  rw [← h.hidden] at ho
  rw [← h.q_size] at hq hqb
  rw [← h.kv_size] at hk hv hkb hvb
  rw [← h.intermediate_size] at hgate hup hdown
  have hnorm := load_norm world_size rank hw.input_layernorm
  have hpost := load_norm world_size rank hw.post_attention_layernorm
  simp only [load, h.asserts, hq, hk, hv, ho, hqb, hkb, hvb, hgate, hup, hdown, hnorm, hpost]
  refine ⟨_, rfl, ?_⟩
  exact {
    q_proj := Tensor.rows_slice_rows hw.q_proj
    k_proj := Tensor.rows_slice_rows hw.k_proj
    v_proj := Tensor.rows_slice_rows hw.v_proj
    o_proj := hocols
    q_bias := hqbslice
    k_bias := hkbslice
    v_bias := hvbslice
    gate_proj := Tensor.rows_slice_rows hw.gate_proj
    up_proj := Tensor.rows_slice_rows hw.up_proj
    down_proj := hdowncols
    input_layernorm := rfl
    post_attention_layernorm := rfl }

theorem mapM_load_shards (h : config.Splits world_size kv_heads group head_dim intermediate vocab) (hrank : rank < world_size) :
    ∀ {layers : List (DecoderWeights R)}, (∀ layer ∈ layers, layer.Wellformed config) →
      ∃ parts, layers.mapM (DecoderWeights.load config world_size rank) = .ok parts ∧
        List.Forall₂ (DecoderWeights.IsShard kv_heads group head_dim intermediate rank) layers parts
  | [], _ => ⟨[], rfl, .nil⟩
  | layer :: layers, hw => by
    obtain ⟨part, hpart, hshard⟩ := layer.load_shard h hrank (hw layer List.mem_cons_self)
    obtain ⟨parts, hparts, hshards⟩ := mapM_load_shards h hrank fun l hl => hw l (List.mem_cons_of_mem layer hl)
    refine ⟨part :: parts, ?_, .cons hshard hshards⟩
    rw [List.mapM_cons, hpart, hparts]
    rfl

theorem CausalWeights.load_shard (h : config.Splits world_size kv_heads group head_dim intermediate vocab)
    (hrank : rank < world_size) {checkpoint : CausalWeights R} (hw : checkpoint.Wellformed config) :
    ∃ part, checkpoint.load config world_size rank = .ok part ∧
      (checkpoint.tied config).IsShard kv_heads group head_dim intermediate vocab rank part := by
  have hembed := load_vocab hrank (hw.embed_tokens.trans (by rw [h.vocab_size]))
  have hhead := load_column hrank false (hw.lm_head.trans (by rw [h.vocab_size]))
  rw [← h.vocab_size] at hembed hhead
  obtain ⟨parts, hparts, hshards⟩ := mapM_load_shards h hrank hw.layers
  have hnorm := load_norm world_size rank hw.norm
  simp only [load, hembed, hhead, hparts, hnorm]
  refine ⟨_, rfl, Tensor.rows_slice_rows hw.embed_tokens, hshards, rfl, ?_⟩
  rw [tied]
  split_ifs
  · exact Tensor.rows_slice_rows hw.embed_tokens
  · exact Tensor.rows_slice_rows hw.lm_head

end

/-! ### The layers -/

section
variable [Field R] {kernels : Kernels R C} {config : LlamaConfig R}
  {world_size rank kv_heads group head_dim intermediate vocab : Nat} {weights : Nat → DecoderWeights R}
  {whole : DecoderWeights R} {hidden_states : Nat → Rows R} {x : Rows R} {input_params : InputParams}

theorem gated_cols (gate up : Rows R) (a b : Nat) :
    gated kernels (cols a b gate) (cols a b up) = cols a b (gated kernels gate up) := by
  simp only [gated, cols, List.zipWith_map, List.map_zipWith, slice_zipWith]

theorem length_of_mem_gated {gate up : Rows R} {n : Nat} (hgate : ∀ row ∈ gate, row.length = n)
    (hup : ∀ row ∈ up, row.length = n) {row : List R} (hrow : row ∈ gated kernels gate up) : row.length = n := by
  obtain ⟨i, hi, rfl⟩ := List.mem_iff_getElem.1 hrow
  rw [gated, List.length_zipWith] at hi
  simp only [gated, List.getElem_zipWith, List.length_zipWith]
  rw [hgate _ (List.getElem_mem (by omega)), hup _ (List.getElem_mem (by omega)), Nat.min_self]

variable (kernels) in
theorem LlamaMLP.forward_whole (h : config.Splits world_size kv_heads group head_dim intermediate vocab)
    (hw : whole.Wellformed config)
    (hshard : ∀ rank < world_size, whole.IsShard kv_heads group head_dim intermediate rank (weights rank))
    (hhidden : ∀ rank < world_size, hidden_states rank = x) (hrank : rank < world_size) :
    forward kernels world_size weights hidden_states rank = LlamaMLP.whole kernels whole x := by
  have hnone : ∀ weight : Rows R, ∀ v ∈ (none : Option (List R)), v.length = weight.length := fun _ _ hv => nomatch hv
  have hwidth : ∀ {w : Tensor R}, w.shape = [config.intermediate_size, config.hidden_size] →
      ∀ row ∈ linear x w.rows none, row.length = world_size * intermediate := fun hshape row hrow => by
    rw [length_linear (hnone _) hrow, Tensor.length_rows hshape, h.intermediate_size]
  unfold forward LlamaMLP.whole
  refine RowParallelLinear.forward_whole
    (fun rank hrank => (hshard rank hrank).down_proj) rfl (fun rank hrank => ?_) hrank
    (fun row hrow => length_of_mem_gated (hwidth hw.gate_proj) (hwidth hw.up_proj) hrow) fun row hrow => ?_
  · rw [ColumnParallelLinear.forward_shard none (hshard rank hrank).gate_proj rfl (hhidden rank hrank),
      ColumnParallelLinear.forward_shard none (hshard rank hrank).up_proj rfl (hhidden rank hrank), gated_cols]
  · rw [Tensor.length_of_mem_rows hw.down_proj row hrow, h.intermediate_size]

theorem length_linear_rows {weight : Rows R} {bias : Option (List R)} : (linear x weight bias).length = x.length := by
  cases bias with
  | none => exact List.length_map _
  | some bias => rw [linear, List.length_map, map, List.length_map]

theorem projection_width {weight : Tensor R} {bias : Option (Tensor R)} {with_bias : Bool} {n m : Nat}
    (hweight : weight.shape = [n, m]) (hbias : ∀ t ∈ bias, with_bias = true ∧ t.shape = [n]) :
    ∀ row ∈ linear x weight.rows (bias.map Tensor.items), row.length = n := fun row hrow => by
  rw [length_linear (fun v hv => ?_) hrow, Tensor.length_rows hweight]
  obtain ⟨t, ht, rfl⟩ := Option.map_eq_some_iff.1 hv
  rw [Tensor.length_items (hbias t ht).2, Tensor.length_rows hweight]

theorem rotate_rows_shard {head_dim size n : Nat} {table : Rows R} {positions : List Nat} (hdim : 0 < head_dim)
    (hx : ∀ row ∈ x, row.length = n * head_dim) (hn : (rank + 1) * size ≤ n) :
    rotate_rows head_dim table positions (cols (rank * (size * head_dim)) ((rank + 1) * (size * head_dim)) x) =
      cols (rank * (size * head_dim)) ((rank + 1) * (size * head_dim)) (rotate_rows head_dim table positions x) := by
  rw [← Nat.mul_assoc, ← Nat.mul_assoc]
  exact rotate_rows_cols hdim hx (Nat.mul_le_mul_right _ (Nat.le_succ _)) hn

theorem InputParams.Covers.mono {n m : Nat} (h : input_params.Covers n) (hmn : m ≤ n) : input_params.Covers m :=
  ⟨fun hnone => (h.prefill hnone).imp_left fun (hn : n = 0) => Nat.le_zero.1 (hn ▸ hmn), fun hnone => hmn.trans (h.decode hnone)⟩

theorem rows_le {positions : List Nat} {head_dim : Nat} {table weight : Rows R} {bias : Option (List R)} :
    (rotate_rows head_dim table positions (linear x weight bias)).length ≤ x.length := by
  rw [rotate_rows, List.length_zipWith, length_linear_rows]
  exact Nat.min_le_right _ _

section
variable (h : config.Splits world_size kv_heads group head_dim intermediate vocab)
  (hkernels : kernels.toFlashInfer.Headwise) (hw : whole.Wellformed config) (garbage : Nat → Nat → List R)
  (hshard : ∀ rank < world_size, whole.IsShard kv_heads group head_dim intermediate rank (weights rank))
  (hhidden : ∀ rank < world_size, hidden_states rank = x) {kv_caches : Nat → Option (List C)} {kv_cache : Option (List C)}
  (hcaches : ∀ rank < world_size, kv_caches rank = kv_cache.map (slice · (rank * kv_heads) ((rank + 1) * kv_heads)))
  (hcache : ∀ c ∈ kv_cache, c.length = config.num_key_value_heads)
  (hcovers : kv_cache.isSome → input_params.Covers x.length)
include h hkernels hcovers

theorem LlamaAttention.whole_output_shape :
    (∀ row ∈ (whole_output kernels config whole x input_params kv_cache).1, row.length = config.hidden_size) ∧
      (whole_output kernels config whole x input_params kv_cache).2.map List.length = kv_cache.map List.length := by
  obtain ⟨hrows, hlen⟩ : (∀ row ∈ (whole_output kernels config whole x input_params kv_cache).1,
      row.length = config.num_attention_heads * config.head_dim) ∧ _ :=
    Attention.whole_shape hkernels fun hsome => (hcovers hsome).mono rows_le
  exact ⟨fun row hrow => (hrows row hrow).trans (by rw [h.q_size, h.hidden]), hlen⟩

include hw hshard hhidden hcaches hcache

/-- A rank attends with its heads, over its part of the cache. -/
theorem LlamaAttention.attn_output_shard (hrank : rank < world_size) :
    attn_output kernels config world_size garbage weights hidden_states input_params kv_caches rank =
      (cols (rank * (kv_heads * group * head_dim)) ((rank + 1) * (kv_heads * group * head_dim))
          (whole_output kernels config whole x input_params kv_cache).1,
        (whole_output kernels config whole x input_params kv_cache).2.map
          (slice · (rank * kv_heads) ((rank + 1) * kv_heads))) := by
  have hdim := h.head_dim_eq
  have hpos := h.pos
  rw [h.hidden_size] at hpos
  have hd : 0 < head_dim := Nat.pos_of_mul_pos_left hpos
  have hws : 0 < world_size := Nat.lt_of_le_of_lt (Nat.zero_le rank) hrank
  have hheads : config.num_attention_heads / world_size = kv_heads * group := by
    rw [h.num_attention_heads, Nat.mul_assoc, Nat.mul_div_cancel_left _ hws]
  have hkv : config.num_key_value_heads / world_size = kv_heads := by
    rw [h.num_key_value_heads, Nat.mul_div_cancel_left _ hws]
  have hgroup : config.num_attention_heads = config.num_key_value_heads * group := by
    rw [h.num_attention_heads, h.num_key_value_heads]
  have hqw := projection_width (x := x) hw.q_proj hw.q_bias
  have hkw := projection_width (x := x) hw.k_proj hw.k_bias
  have hvw := projection_width (x := x) hw.v_proj hw.v_bias
  rw [hdim] at hqw hkw hvw
  have hend : (rank + 1) * kv_heads ≤ config.num_key_value_heads := by
    rw [h.num_key_value_heads]
    exact Nat.mul_le_mul_right _ hrank
  have hqend : (rank + 1) * (kv_heads * group) ≤ config.num_attention_heads := by
    rw [hgroup, ← Nat.mul_assoc]
    exact Nat.mul_le_mul_right _ hend
  have hs := hshard rank hrank
  unfold attn_output whole_output
  simp only [hheads, hkv, hdim]
  rw [ColumnParallelLinear.forward_shard (whole.q_bias.map Tensor.items) hs.q_proj hs.q_bias (hhidden rank hrank),
    ColumnParallelLinear.forward_shard (whole.k_bias.map Tensor.items) hs.k_proj hs.k_bias (hhidden rank hrank),
    ColumnParallelLinear.forward_shard (whole.v_bias.map Tensor.items) hs.v_proj hs.v_bias (hhidden rank hrank),
    rotate_rows_shard hd hqw hqend, rotate_rows_shard hd hkw hend, hcaches rank hrank]
  rw [hgroup] at hqw ⊢
  -- the same ranges, counted in heads
  have hfrom : rank * (kv_heads * group * head_dim) = rank * kv_heads * group * head_dim := by
    rw [Nat.mul_assoc, Nat.mul_assoc, Nat.mul_assoc]
  have hto : (rank + 1) * (kv_heads * group * head_dim) = (rank * kv_heads + kv_heads) * group * head_dim := by
    rw [← Nat.succ_mul, Nat.mul_assoc, Nat.mul_assoc, Nat.mul_assoc]
  have hfrom' : rank * (kv_heads * head_dim) = rank * kv_heads * head_dim := (Nat.mul_assoc _ _ _).symm
  have hto' : (rank + 1) * (kv_heads * head_dim) = (rank * kv_heads + kv_heads) * head_dim := by
    rw [← Nat.succ_mul, Nat.mul_assoc]
  rw [Nat.succ_mul] at hend
  rw [hfrom, hto, hfrom', hto', show (rank + 1) * kv_heads = rank * kv_heads + kv_heads from Nat.succ_mul _ _]
  exact Attention.forward_shard hkernels (garbage rank) (fun hsome => (hcovers hsome).mono rows_le) hend hcache
    (fun row hrow => length_of_mem_rotate_rows hd hqw hrow) (fun row hrow => length_of_mem_rotate_rows hd hkw hrow) hvw

theorem LlamaAttention.forward_whole (hrank : rank < world_size) :
    forward kernels config world_size garbage weights hidden_states input_params kv_caches rank =
      ((LlamaAttention.whole kernels config whole x input_params kv_cache).1,
        (LlamaAttention.whole kernels config whole x input_params kv_cache).2.map
          (slice · (rank * kv_heads) ((rank + 1) * kv_heads))) := by
  have hattn : ∀ rank < world_size, _ := fun rank hrank =>
    attn_output_shard h hkernels hw garbage hshard hhidden hcaches hcache hcovers hrank
  unfold forward LlamaAttention.whole
  refine Prod.ext ?_ (show (attn_output _ _ _ _ _ _ _ _ rank).2 = _ by rw [hattn rank hrank])
  show RowParallelLinear.forward _ _ (fun _ => none) _ rank = linear _ _ none
  refine RowParallelLinear.forward_whole
    (fun rank hrank => (hshard rank hrank).o_proj) rfl (fun rank hrank => congrArg Prod.fst (hattn rank hrank)) hrank
    (fun row hrow => ?_) fun row hrow => ?_
  · rw [(whole_output_shape h hkernels hcovers).1 row hrow, h.hidden]
  · rw [Tensor.length_of_mem_rows hw.o_proj row hrow, h.hidden]

theorem LlamaDecoderLayer.forward_whole (hrank : rank < world_size) :
    forward kernels config world_size garbage weights hidden_states input_params kv_caches rank =
      ((LlamaDecoderLayer.whole kernels config whole x input_params kv_cache).1,
        (LlamaDecoderLayer.whole kernels config whole x input_params kv_cache).2.map
          (slice · (rank * kv_heads) ((rank + 1) * kv_heads))) := by
  have hlen : ∀ (weight : Tensor R) (x : Rows R), (LlamaRMSNorm.forward kernels config weight x).length = x.length :=
    fun _ _ => List.length_map _
  have hattn : ∀ rank < world_size, LlamaAttention.forward kernels config world_size garbage weights
      (fun rank => LlamaRMSNorm.forward kernels config (weights rank).input_layernorm (hidden_states rank)) input_params
      kv_caches rank = _ := fun rank hrank =>
    LlamaAttention.forward_whole (x := LlamaRMSNorm.forward kernels config whole.input_layernorm x) h hkernels hw garbage hshard
      (fun rank hrank => by rw [(hshard rank hrank).input_layernorm, hhidden rank hrank]) hcaches hcache
      (fun hsome => (hlen _ x).symm ▸ hcovers hsome) hrank
  have hresidual : ∀ rank < world_size, add (hidden_states rank) (LlamaAttention.forward kernels config world_size garbage
      weights (fun rank => LlamaRMSNorm.forward kernels config (weights rank).input_layernorm (hidden_states rank))
      input_params kv_caches rank).1 = add x (LlamaAttention.whole kernels config whole
        (LlamaRMSNorm.forward kernels config whole.input_layernorm x) input_params kv_cache).1 := fun rank hrank => by
    rw [hattn rank hrank, hhidden rank hrank]
  refine Prod.ext ?_ (show (LlamaAttention.forward _ _ _ _ _ _ _ _ rank).2 = _ by rw [hattn rank hrank]; rfl)
  show add (add (hidden_states rank) (LlamaAttention.forward _ _ _ _ _ _ _ _ rank).1) (LlamaMLP.forward _ _ _ _ rank) = _
  have hmlp := LlamaMLP.forward_whole kernels h hw hshard (fun rank hrank =>
    (congrArg₂ (LlamaRMSNorm.forward kernels config) (hshard rank hrank).post_attention_layernorm (hresidual rank hrank) :))
    hrank
  rw [hresidual rank hrank]
  exact congrArg (add _) hmlp

end

variable (whole) in
theorem LlamaDecoderLayer.whole_shape (h : config.Splits world_size kv_heads group head_dim intermediate vocab)
    (hkernels : kernels.toFlashInfer.Headwise) {kv_cache : Option (List C)}
    (hcovers : kv_cache.isSome → input_params.Covers x.length) :
    (LlamaDecoderLayer.whole kernels config whole x input_params kv_cache).1.length ≤ x.length ∧
      (LlamaDecoderLayer.whole kernels config whole x input_params kv_cache).2.map List.length = kv_cache.map List.length := by
  constructor
  · simp only [LlamaDecoderLayer.whole, add, List.length_zipWith]
    exact Nat.le_trans (Nat.min_le_left _ _) (Nat.min_le_left _ _)
  · have hlen : (LlamaRMSNorm.forward kernels config whole.input_layernorm x).length = x.length := List.length_map _
    exact (LlamaAttention.whole_output_shape h hkernels fun hsome => hlen.symm ▸ hcovers hsome).2

/-! ### The model -/

/-- The ranks' hidden states and caches are those of one device. -/
structure RanksAgree (config : LlamaConfig R) (world_size kv_heads num_rows : Nat)
    (ranks : (Nat → Rows R) × (Nat → Option (List (List C)))) (one : Rows R × Option (List (List C))) : Prop where
  hidden : ∀ rank < world_size, ranks.1 rank = one.1
  caches : ∀ rank < world_size, ranks.2 rank = one.2.map (List.map (slice · (rank * kv_heads) ((rank + 1) * kv_heads)))
  layers : ∀ caches ∈ one.2, caches.length = config.num_hidden_layers ∧ ∀ c ∈ caches, c.length = config.num_key_value_heads
  rows : one.1.length ≤ num_rows

variable {parts : Nat → CausalWeights R} {checkpoint : CausalWeights R} {garbage : Nat → Nat → Nat → List R} {num_rows i : Nat}
  {ranks : (Nat → Rows R) × (Nat → Option (List (List C)))} {one : Rows R × Option (List (List C))}

theorem slice_nil (a b : Nat) : slice ([] : List C) a b = [] := by simp [slice]

theorem getD_map_slice (caches : List (List C)) (i a b : Nat) :
    (caches.map (slice · a b)).getD i [] = slice (caches.getD i []) a b := by
  simpa only [slice_nil] using List.getD_map (l := caches) (d := []) (n := i) (slice · a b)

theorem set_map_slice (caches : List (List C)) (out : Option (List C)) (i a b : Nat) :
    (caches.map (slice · a b)).set i ((out.map (slice · a b)).getD []) = (caches.set i (out.getD [])).map (slice · a b) := by
  rw [List.map_set]
  cases out with
  | none => exact congrArg _ (slice_nil a b).symm
  | some c => rfl

theorem RanksAgree.layer (h : config.Splits world_size kv_heads group head_dim intermediate vocab)
    (hkernels : kernels.toFlashInfer.Headwise) (hw : checkpoint.Wellformed config)
    (hshard : ∀ rank < world_size, checkpoint.IsShard kv_heads group head_dim intermediate vocab rank (parts rank))
    (hi : i < config.num_hidden_layers) (hcovers : one.2.isSome → input_params.Covers num_rows)
    (hagree : RanksAgree config world_size kv_heads num_rows ranks one) :
    RanksAgree config world_size kv_heads num_rows (LlamaModel.layer kernels config world_size garbage parts input_params i ranks)
      (LlamaModel.whole_layer kernels config checkpoint input_params i one) := by
  obtain ⟨hhidden, hcaches, hlayers, hrows⟩ := hagree
  have hlen : i < checkpoint.layers.length := hw.num_layers ▸ hi
  have hlayer : (checkpoint.layers.getD i default).Wellformed config := by
    rw [List.getD_eq_getElem _ _ hlen]
    exact hw.layers _ (List.getElem_mem hlen)
  have hshards : ∀ rank < world_size, (checkpoint.layers.getD i default).IsShard kv_heads group head_dim intermediate rank
      ((parts rank).layers.getD i default) := fun rank hrank => by
    have hall := (hshard rank hrank).layers
    have hlen' : i < (parts rank).layers.length := hall.length_eq ▸ hlen
    rw [List.getD_eq_getElem _ _ hlen, List.getD_eq_getElem _ _ hlen']
    exact List.forall₂_iff_get.1 hall |>.2 i hlen hlen'
  have hcovers' : (one.2.map (·.getD i [])).isSome → input_params.Covers one.1.length := fun hsome =>
    (hcovers (by simpa using hsome)).mono hrows
  have hcaches' : ∀ rank < world_size, (ranks.2 rank).map (·.getD i []) =
      (one.2.map (·.getD i [])).map (slice · (rank * kv_heads) ((rank + 1) * kv_heads)) := fun rank hrank => by
    rw [hcaches rank hrank, Option.map_map, Option.map_map]
    exact congrArg (one.2.map ·) (funext fun caches => getD_map_slice caches i _ _)
  have hcache : ∀ c ∈ one.2.map (·.getD i []), c.length = config.num_key_value_heads := fun c hc => by
    obtain ⟨caches, hcaches, rfl⟩ := Option.map_eq_some_iff.1 hc
    obtain ⟨hnum, hheads⟩ := hlayers caches hcaches
    have hi' : i < caches.length := hnum ▸ hi
    rw [List.getD_eq_getElem _ _ hi']
    exact hheads _ (List.getElem_mem hi')
  have hout : ∀ rank < world_size, _ := fun rank hrank =>
    LlamaDecoderLayer.forward_whole h hkernels hlayer (garbage i) hshards hhidden hcaches' hcache hcovers' hrank
  obtain ⟨hshrink, hheads⟩ := LlamaDecoderLayer.whole_shape (checkpoint.layers.getD i default) h hkernels hcovers'
  constructor
  · intro rank hrank
    show (LlamaDecoderLayer.forward _ _ _ _ _ _ _ _ rank).1 = _
    rw [hout rank hrank]
    rfl
  · intro rank hrank
    simp only [LlamaModel.layer, LlamaModel.whole_layer]
    rw [hout rank hrank, hcaches rank hrank, Option.map_map, Option.map_map]
    exact congrArg (one.2.map ·) (funext fun caches => set_map_slice caches _ i _ _)
  · intro caches hcaches
    obtain ⟨old, hold, rfl⟩ := Option.map_eq_some_iff.1 hcaches
    obtain ⟨hnum, hheads_old⟩ := hlayers old hold
    have hi' : i < old.length := hnum ▸ hi
    refine ⟨by rw [List.length_set, hnum], fun c hc => ?_⟩
    rcases List.mem_or_eq_of_mem_set hc with hc | rfl
    · exact hheads_old c hc
    · rw [hold, Option.map_some, Option.map_some, List.getD_eq_getElem _ _ hi'] at hheads
      obtain ⟨c, hc, hlen⟩ := Option.map_eq_some_iff.1 hheads
      rw [hold, Option.map_some, List.getD_eq_getElem _ _ hi', hc]
      exact hlen.trans (hheads_old _ (List.getElem_mem hi'))
  · exact hshrink.trans hrows

variable (garbage) in
theorem RanksAgree.layers_run (h : config.Splits world_size kv_heads group head_dim intermediate vocab)
    (hkernels : kernels.toFlashInfer.Headwise) (hw : checkpoint.Wellformed config)
    (hshard : ∀ rank < world_size, checkpoint.IsShard kv_heads group head_dim intermediate vocab rank (parts rank))
    (hcovers : one.2.isSome → input_params.Covers num_rows)
    (hagree : RanksAgree config world_size kv_heads num_rows ranks one) : ∀ {k : Nat}, k ≤ config.num_hidden_layers →
      RanksAgree config world_size kv_heads num_rows
        ((List.range k).foldl (fun state i => LlamaModel.layer kernels config world_size garbage parts input_params i state) ranks)
        ((List.range k).foldl (fun state i => LlamaModel.whole_layer kernels config checkpoint input_params i state) one) ∧
      ((List.range k).foldl (fun state i => LlamaModel.whole_layer kernels config checkpoint input_params i state)
        one).2.isSome = one.2.isSome
  | 0, _ => ⟨hagree, rfl⟩
  | k + 1, hk => by
    obtain ⟨hrun, hsome⟩ := layers_run h hkernels hw hshard hcovers hagree (Nat.le_of_succ_le hk)
    rw [List.range_succ, List.foldl_append, List.foldl_append]
    refine ⟨hrun.layer h hkernels hw hshard hk fun hs => hcovers (hsome ▸ hs), ?_⟩
    exact Option.isSome_map.trans hsome

/-- Caches of the whole model, a layer after the other -/
def CachesFit (config : LlamaConfig R) (caches : List (List C)) : Prop :=
  caches.length = config.num_hidden_layers ∧ ∀ c ∈ caches, c.length = config.num_key_value_heads

/-- The heads of a rank, in every layer -/
def cache_shard (kv_heads rank : Nat) (caches : List (List C)) : List (List C) :=
  caches.map (slice · (rank * kv_heads) ((rank + 1) * kv_heads))

section
variable (h : config.Splits world_size kv_heads group head_dim intermediate vocab)
  (hkernels : kernels.toFlashInfer.Headwise) (hw : checkpoint.Wellformed config)
  (hshard : ∀ rank < world_size, checkpoint.IsShard kv_heads group head_dim intermediate vocab rank (parts rank))
include h hkernels hw hshard

variable (garbage) in
theorem LlamaModel.forward_agrees {input_ids : List Nat} {kv_caches : Nat → Option (List (List C))}
    {caches : Option (List (List C))} (hcaches : ∀ rank < world_size, kv_caches rank = caches.map (cache_shard kv_heads rank))
    (hfit : ∀ c ∈ caches, CachesFit config c) (hcovers : caches.isSome → input_params.Covers input_ids.length) :
    RanksAgree config world_size kv_heads input_ids.length
      (forward kernels config world_size garbage parts input_params input_ids kv_caches)
      (LlamaModel.whole kernels config checkpoint input_params input_ids caches) := by
  have hws : ∀ rank < world_size, config.vocab_size / world_size = vocab := fun rank hrank => by
    rw [h.vocab_size, Nat.mul_div_cancel_left _ (Nat.lt_of_le_of_lt (Nat.zero_le rank) hrank)]
  have hstart : RanksAgree config world_size kv_heads input_ids.length
      (VocabParallelEmbedding.forward config.hidden_size (config.vocab_size / world_size) world_size
        (fun rank => (parts rank).embed_tokens.rows) (fun _ => input_ids), kv_caches)
      (embedding_or_zeros config.hidden_size checkpoint.embed_tokens.rows input_ids, caches) := by
    refine ⟨fun rank hrank => ?_, hcaches, hfit, (List.length_map _).le⟩
    rw [hws rank hrank]
    exact VocabParallelEmbedding.forward_whole (fun rank hrank => (hshard rank hrank).embed_tokens) (fun _ _ => rfl) hrank
      ((Tensor.length_rows hw.embed_tokens).trans h.vocab_size) (Tensor.length_of_mem_rows hw.embed_tokens)
  obtain ⟨⟨hhidden, hcaches', hlayers, hrows⟩, _⟩ :=
    hstart.layers_run garbage h hkernels hw hshard hcovers (Nat.le_refl _)
  refine ⟨fun rank hrank => ?_, hcaches', hlayers, (List.length_map _).le.trans hrows⟩
  exact congrArg₂ (LlamaRMSNorm.forward kernels config) (hshard rank hrank).norm (hhidden rank hrank)

variable (garbage) in
theorem LlamaForCausalLM.forward_whole {input_ids : List Nat} {kv_caches : Nat → Option (List (List C))}
    {caches : Option (List (List C))} (hcaches : ∀ rank < world_size, kv_caches rank = caches.map (cache_shard kv_heads rank))
    (hfit : ∀ c ∈ caches, CachesFit config c) (hcovers : caches.isSome → input_params.Covers input_ids.length)
    (hrank : rank < world_size) :
    forward kernels config world_size garbage parts input_params input_ids kv_caches rank =
      ((LlamaForCausalLM.whole kernels config checkpoint input_params input_ids caches).1,
        (LlamaForCausalLM.whole kernels config checkpoint input_params input_ids caches).2.map (cache_shard kv_heads rank)) := by
  have hagree := LlamaModel.forward_agrees garbage h hkernels hw hshard hcaches hfit hcovers
  have hlogits : ColumnParallelLinear.forward true world_size (fun rank => (parts rank).lm_head.rows) (fun _ => none)
      (fun rank => (last_rows input_params ((LlamaModel.forward kernels config world_size garbage parts input_params
        input_ids kv_caches).1 rank)).toOption.getD []) rank = _ := ColumnParallelLinear.forward_whole none
    (fun rank hrank => (hshard rank hrank).lm_head) (fun _ _ => rfl)
    (fun rank hrank => by rw [hagree.hidden rank hrank]) hrank ((Tensor.length_rows hw.lm_head).trans h.vocab_size)
    (fun _ hv => nomatch hv)
  refine Prod.ext ?_ (hagree.caches rank hrank)
  show (last_rows input_params _).map (fun _ => ColumnParallelLinear.forward _ _ _ _ _ _) = (last_rows input_params _).map _
  rw [hlogits, hagree.hidden rank hrank]
  cases last_rows input_params (LlamaModel.whole kernels config checkpoint input_params input_ids caches).1 with
  | error e => rfl
  | ok rows => rfl

theorem serve_eq_whole : ∀ {batches : List (ModelBatch R)} {kv_caches : Nat → List (List C)} {caches : List (List C)},
    (∀ rank < world_size, kv_caches rank = cache_shard kv_heads rank caches) → CachesFit config caches →
    (∀ batch ∈ batches, batch.use_cache → batch.input_params.Covers batch.input_ids.length) →
    ∀ rank < world_size, serve kernels config world_size parts kv_caches batches rank =
      serve_whole kernels config checkpoint caches batches
  | [], _, _, _, _, _, _, _ => rfl
  | batch :: batches, kv_caches, caches, hcaches, hfit, hcovers, rank, hrank => by
    have hpassed : ∀ rank < world_size, (if batch.use_cache then some (kv_caches rank) else none) =
        (if batch.use_cache then some caches else none).map (cache_shard kv_heads rank) := fun rank hrank => by
      split_ifs
      · rw [hcaches rank hrank, Option.map_some]
      · rfl
    have hpassed_fit : ∀ c ∈ (if batch.use_cache then some caches else none), CachesFit config c := fun c hc => by
      split_ifs at hc
      · exact Option.some.inj hc ▸ hfit
      · cases hc
    have hbatch : (if batch.use_cache then some caches else none).isSome →
        batch.input_params.Covers batch.input_ids.length := fun hsome => by
      split_ifs at hsome with huse
      · exact hcovers batch List.mem_cons_self huse
      · cases hsome
    have hout : ∀ rank < world_size, _ := fun rank hrank =>
      LlamaForCausalLM.forward_whole batch.garbage h hkernels hw hshard hpassed hpassed_fit hbatch hrank
    have hagree := LlamaModel.forward_agrees batch.garbage h hkernels hw hshard hpassed hpassed_fit hbatch
    have hnext : CachesFit config ((LlamaForCausalLM.whole kernels config checkpoint batch.input_params batch.input_ids
        (if batch.use_cache then some caches else none)).2.getD caches) := by
      cases hsome : (LlamaForCausalLM.whole kernels config checkpoint batch.input_params batch.input_ids
        (if batch.use_cache then some caches else none)).2 with
      | none => exact hfit
      | some c => exact hagree.layers c hsome
    rw [serve, serve_whole]
    refine congrArg₂ List.cons (by rw [hout rank hrank]) ?_
    refine serve_eq_whole (fun rank hrank => ?_) hnext (fun b hb => hcovers b (List.mem_cons_of_mem batch hb)) rank hrank
    rw [hout rank hrank, hcaches rank hrank]
    exact Option.getD_map _ _ _

end

end

/-! ### Any world size -/

theorem CausalWeights.Wellformed.tied {config : LlamaConfig R} {checkpoint : CausalWeights R}
    (h : checkpoint.Wellformed config) : (checkpoint.tied config).Wellformed config := by
  refine ⟨h.embed_tokens, h.num_layers, h.layers, h.norm, ?_⟩
  rw [CausalWeights.tied]
  split_ifs
  · exact h.embed_tokens
  · exact h.lm_head

theorem cache_shard_alone {config : LlamaConfig R} {caches : List (List C)} (hfit : CachesFit config caches) :
    cache_shard config.num_key_value_heads 0 caches = caches := by
  refine (List.map_congr_left fun c hc => ?_).trans (List.map_id caches)
  rw [Nat.zero_mul, Nat.zero_add, Nat.one_mul]
  exact slice_all (hfit.2 c hc).le

/-- The world size is of no consequence: the ranks load their shards, and every rank computes the logits that one rank
computes alone, batch after batch. -/
theorem tensor_parallel_logits [Field R] (kernels : Kernels R C) (config : LlamaConfig R) (world_size : Nat)
    (checkpoint : CausalWeights R) (caches : List (List C)) (batches : List (ModelBatch R))
    (hkernels : kernels.toFlashInfer.Headwise) (hhidden : 0 < config.hidden_size)
    (hdim : config.num_attention_heads ∣ config.hidden_size)
    (hgroup : config.num_key_value_heads ∣ config.num_attention_heads) (hkv : world_size ∣ config.num_key_value_heads)
    (hintermediate : world_size ∣ config.intermediate_size) (hvocab : world_size ∣ config.vocab_size)
    (hw : checkpoint.Wellformed config) (hfit : CachesFit config caches)
    (hcovers : ∀ batch ∈ batches, batch.use_cache → batch.input_params.Covers batch.input_ids.length) :
    ∃ (parts : Nat → CausalWeights R) (alone : CausalWeights R),
      (∀ rank < world_size, checkpoint.load config world_size rank = .ok (parts rank)) ∧
      checkpoint.load config 1 0 = .ok alone ∧
      ∀ rank < world_size,
        serve kernels config world_size parts
          (fun rank => cache_shard (config.num_key_value_heads / world_size) rank caches) batches rank =
        serve kernels config 1 (fun _ => alone) (fun _ => caches) batches 0 := by
  obtain ⟨d, hd⟩ := hdim
  obtain ⟨g, hg⟩ := hgroup
  obtain ⟨k, hk⟩ := hkv
  obtain ⟨m, hm⟩ := hintermediate
  obtain ⟨v, hv⟩ := hvocab
  have hsplits : config.Splits world_size k g d m v := ⟨hhidden, hk, by rw [hg, hk], by rw [hd, hg, hk], hm, hv⟩
  have halone : config.Splits 1 config.num_key_value_heads g d config.intermediate_size config.vocab_size :=
    ⟨hhidden, (Nat.one_mul _).symm, by rw [hg, Nat.one_mul], by rw [hd, hg, Nat.one_mul], (Nat.one_mul _).symm,
      (Nat.one_mul _).symm⟩
  have : Nonempty (CausalWeights R) := ⟨checkpoint⟩
  choose! parts hload hshard using fun rank (hrank : rank < world_size) => checkpoint.load_shard hsplits hrank hw
  obtain ⟨alone, hload_alone, hshard_alone⟩ := checkpoint.load_shard halone Nat.one_pos hw
  refine ⟨parts, alone, hload, hload_alone, fun rank hrank => ?_⟩
  have hws : 0 < world_size := Nat.lt_of_le_of_lt (Nat.zero_le rank) hrank
  rw [hk, Nat.mul_div_cancel_left k hws]
  have hranks := serve_eq_whole hsplits hkernels hw.tied hshard (fun _ _ => rfl) hfit hcovers rank hrank
  refine hranks.trans (Eq.symm ?_)
  refine serve_eq_whole halone hkernels hw.tied (fun rank hrank => ?_) (fun rank hrank => ?_) hfit
    hcovers 0 Nat.one_pos
  · obtain rfl : rank = 0 := by omega
    exact hshard_alone
  · obtain rfl : rank = 0 := by omega
    exact (cache_shard_alone hfit).symm

/-- What the heads get where a single position is filled: the value of their key-value head. A head's cache is the
value written last. -/
def read_values (num_heads num_kv_heads head_size : Nat) (query : Rows Rat) (kv_cache : List (List Rat)) : Rows Rat :=
  query.map fun _ => (List.range num_heads).flatMap fun head => (List.range head_size).map fun j =>
    (kv_cache[head / (num_heads / num_kv_heads)]?.getD [])[j]?.getD 0

def write_values (head_size : Nat) (value : Rows Rat) (kv_cache : List (List Rat)) : List (List Rat) :=
  match value.getLast? with
  | some row => (List.range kv_cache.length).map fun head => slice row (head * head_size) ((head + 1) * head_size)
  | none => kv_cache

theorem read_values_by_head : AttendsByHead read_values where
  shard {n g d a k query kv_cache} hak hcache _ := by
    simp only [read_values, cols, List.map_map, Function.comp_def]
    refine List.map_congr_left fun row _ => ?_
    rw [slice_pieces (fun _ _ => by rw [List.length_map, List.length_range])
      (Nat.mul_le_mul_right g (Nat.le_add_right a k)) (Nat.mul_le_mul_right g hak), Nat.add_mul, Nat.add_sub_cancel_left]
    rw [List.flatMap_def, List.flatMap_def]
    refine congrArg List.flatten (List.map_congr_left fun head hhead => List.map_congr_left fun j _ => ?_)
    have hhead := List.mem_range.1 hhead
    have hg : 0 < g := Nat.pos_of_mul_pos_left (Nat.zero_lt_of_lt hhead)
    have hk : 0 < k := Nat.pos_of_mul_pos_right (Nat.zero_lt_of_lt hhead)
    have hlt : head / g < k := Nat.div_lt_of_lt_mul (Nat.mul_comm k g ▸ hhead)
    rw [Nat.mul_div_cancel_left g hk, Nat.mul_div_cancel_left g (by omega : 0 < n), Nat.mul_comm a g,
      Nat.mul_add_div hg, getElem?_slice, if_pos (Nat.add_lt_add_left hlt a)]
  length_eq _ _ _ query _ := List.length_map _
  width_eq num_heads _ d query _ row hrow := by
    obtain ⟨_, _, rfl⟩ := List.mem_map.1 hrow
    rw [length_pieces fun _ _ => by rw [List.length_map, List.length_range], List.length_range]

theorem length_write_values {d : Nat} {value : Rows Rat} {kv_cache : List (List Rat)} :
    (write_values d value kv_cache).length = kv_cache.length := by
  unfold write_values
  split
  · rw [List.length_map, List.length_range]
  · rfl

theorem write_values_slice {n d a k : Nat} {value : Rows Rat} {kv_cache : List (List Rat)} (hak : a + k ≤ n)
    (hcache : kv_cache.length = n) :
    write_values d (cols (a * d) ((a + k) * d) value) (slice kv_cache a (a + k)) =
      slice (write_values d value kv_cache) a (a + k) := by
  have hlen : (slice kv_cache a (a + k)).length = k := by rw [length_slice]; omega
  rw [write_values, write_values, cols, List.getLast?_map]
  cases value.getLast? with
  | none => rfl
  | some row =>
    simp only [Option.map_some, hlen, hcache, slice_map]
    refine List.ext_getElem? fun i => ?_
    rw [List.getElem?_map, List.getElem?_map, getElem?_slice]
    by_cases hi : i < k
    · rw [if_pos (Nat.add_lt_add_left hi a), List.getElem?_range hi, List.getElem?_range (by omega)]
      have hend : a * d + (i + 1) * d ≤ (a + k) * d := by rw [← Nat.add_mul]; exact Nat.mul_le_mul_right d (by omega)
      exact congrArg some ((slice_slice hend).trans (by rw [← Nat.add_mul, ← Nat.add_mul]; rfl))
    · rw [if_neg (by omega), List.getElem?_eq_none (by simpa using hi)]
      rfl

def last_value : Kernels Rat (List Rat) where
  append_paged_kv_cache _ head_size _ value _ _ kv_cache _ _ _ := write_values head_size value kv_cache
  prefill_run _ := read_values
  decode_run _ := read_values
  single_prefill_with_kv_cache num_heads num_kv_heads head_size query _ value :=
    read_values num_heads num_kv_heads head_size query (write_values head_size value (List.replicate num_kv_heads []))
  rsqrt x := if x = 1 then 1 else 0
  activation_fn x := max x 0

theorem last_value_headwise : last_value.toFlashInfer.Headwise where
  append _ _ _ _ _ hak hcache _ _ := write_values_slice hak hcache
  length_append _ _ _ _ _ _ _ _ _ _ := length_write_values
  prefill _ := read_values_by_head
  decode _ := read_values_by_head
  single {n g d a k query key value} hak hquery _ _ := by
    have hnone : slice (List.replicate n ([] : List Rat)) a (a + k) = List.replicate k [] := by
      rw [slice_replicate _ hak, Nat.add_sub_cancel_left]
    show read_values _ _ _ _ (write_values d _ (List.replicate k [])) = _
    rw [← hnone, write_values_slice hak List.length_replicate]
    exact read_values_by_head.shard hak (length_write_values.trans List.length_replicate) hquery
  width_single _ _ _ query _ _ := read_values_by_head.width_eq _ _ _ query _

def two_heads : LlamaConfig Rat where
  vocab_size := 2
  hidden_size := 4
  intermediate_size := 2
  num_attention_heads := 2
  num_key_value_heads := 2
  num_hidden_layers := 1
  rms_norm_eps := 0
  attention_bias := false
  tie_word_embeddings := true
  cos_sin_cached := [[1, 1, 0, 0]]

def identity : Tensor Rat := .matrix 4 [[1, 0, 0, 0], [0, 1, 0, 0], [0, 0, 1, 0], [0, 0, 0, 1]] (by decide)

def two_heads_weights : CausalWeights Rat where
  embed_tokens := .matrix 4 [[1, 1, 1, 1], [1, -1, 1, -1]] (by decide)
  layers := [{
    q_proj := identity
    k_proj := identity
    v_proj := .matrix 4 [[1, -1, 0, 0], [-1, -1, 0, 0], [0, 0, -2, 0], [0, 1, 0, -1]] (by decide)
    o_proj := identity
    gate_proj := .matrix 4 [[1, 0, 0, 0], [0, 1, 0, 0]] (by decide)
    up_proj := .matrix 4 [[1, 0, 0, 0], [0, 1, 0, 0]] (by decide)
    down_proj := .matrix 2 [[0, 3], [0, 0], [2, 1], [-2, 0]] (by decide)
    input_layernorm := .vector [1, 1, 1, 1]
    post_attention_layernorm := .vector [1, 1, 1, 1] }]
  norm := .vector [1, 1, 1, 1]
  lm_head := .matrix 4 [[0, 0, 0, 0], [0, 0, 0, 0]] (by decide)

/-- One decoded token -/
def one_token : ModelBatch Rat where
  input_ids := [0]
  input_params := { position_ids := [0], cu_seqlens_q := [0, 1], prefill_input_len := 0, decode_wrapper := some ⟨[0, 1], [0], [1]⟩ }
  use_cache := true
  garbage _ _ _ := [7]

/-- Two ranks, one head each; the logits are what the value of the token makes of them. -/
theorem tensor_parallel_logits_two :
    ∃ (parts : Nat → CausalWeights Rat) (alone : CausalWeights Rat),
      (∀ rank < 2, two_heads_weights.load two_heads 2 rank = .ok (parts rank)) ∧
      two_heads_weights.load two_heads 1 0 = .ok alone ∧
      ∀ rank < 2,
        serve last_value two_heads 2 parts (fun rank => cache_shard (2 / 2) rank [[[], []]]) [one_token] rank =
          serve last_value two_heads 1 (fun _ => alone) (fun _ => [[[], []]]) [one_token] 0 :=
  tensor_parallel_logits last_value two_heads 2 two_heads_weights [[[], []]] [one_token] last_value_headwise (by decide)
    (by decide) (by decide) (by decide) (by decide) (by decide)
    ⟨rfl, rfl, fun layer hlayer => by
      obtain rfl := List.mem_singleton.1 hlayer
      have hnone : ∀ {p : Tensor Rat → Prop}, ∀ bias ∈ (none : Option (Tensor Rat)), p bias := fun _ h => nomatch h
      exact ⟨rfl, rfl, rfl, rfl, hnone, hnone, hnone, rfl, rfl, rfl, rfl, rfl⟩, rfl, rfl⟩
    ⟨rfl, by decide⟩
    fun batch hbatch _ => by
      obtain rfl := List.mem_singleton.1 hbatch
      exact ⟨fun _ => .inr rfl, fun h => nomatch h⟩

end LMServe
