import LMServe.Lib.Scatter
import LMServe.Llama

/-!
# Loading a checkpoint into a model

The `load_weights` of a model class goes through the named tensors of a checkpoint and cuts each rank's shard out of
them. Some names are passed over, and in the end `embed_tokens` may be copied into `lm_head`: by Llama and Qwen2 when
the two are tied, by OPT always (`models/opt.py`, `models/llama.py`, `models/qwen2.py`).
-/

namespace LMServe

/-- A name, split at the dots. -/
abbrev DottedName := List String

def ParamType.of : String → Option ParamType
  | "weight" => some .weight
  | "bias" => some .bias
  | _ => none

/-- `params_dict[param_name]` and `get_layer_type` look the same parameter up. -/
def get_layer_type (modules : DottedName → Option Layer) (param_name : DottedName) : Option (Layer × ParamType) := do
  let param_type ← ParamType.of (← param_name.getLast?)
  let layer ← modules param_name.dropLast
  return (layer, param_type)

def lm_head_weight : DottedName := ["lm_head", "weight"]

/-- What the `load_weights` of a model class goes by. `lm_head` has the vocabulary and the width of `embed_tokens`. -/
structure CausalLM where
  modules : DottedName → Option Layer
  /-- the names that the loop passes over -/
  skips : DottedName → Bool
  rename : DottedName → DottedName
  embed_tokens : DottedName
  /-- whether `embed_tokens` is copied into `lm_head` -/
  copies : Bool
  vocab_size : Nat
  embed_dim : Nat
  embed_tokens_module : modules embed_tokens = some (.vocabParallelEmbedding vocab_size embed_dim)
  lm_head_module : modules ["lm_head"] = some (.columnParallelLinear embed_dim vocab_size false)
  skipped : ∀ name p, skips name = true → get_layer_type modules (rename name) = some p →
    rename name = lm_head_weight ∧ copies = true

namespace CausalLM
variable {α : Type} (model : CausalLM) (world_size rank : Nat)

/-- The parameter that a name of a checkpoint stands for -/
def param (name : DottedName) : Option (Layer × ParamType) := get_layer_type model.modules (model.rename name)

def embed_tokens_weight : DottedName := model.embed_tokens ++ ["weight"]

/-- One turn of the loop; `data` is what the parameters of the rank hold. -/
def load_param (data : DottedName → Tensor α) (weight : DottedName × Tensor α) :
    Except LoadError (DottedName → Tensor α) :=
  let (name, loaded_weight) := weight
  if model.skips name then .ok data
  else
    match model.param name with
    | none => .error .no_parameter
    | some (layer, param_type) => do
      let shard ← load_rank layer param_type loaded_weight world_size rank
      return Function.update data (model.rename name) shard

/-- `self.lm_head.weight.data.copy_(...)` behind its guard -/
def copy_embed_tokens (data : DottedName → Tensor α) : DottedName → Tensor α :=
  if model.copies then Function.update data lm_head_weight (data model.embed_tokens_weight) else data

def load_weights (weights : List (DottedName × Tensor α)) (data : DottedName → Tensor α) :
    Except LoadError (DottedName → Tensor α) := do
  let data ← weights.foldlM (model.load_param world_size rank) data
  return model.copy_embed_tokens data

end CausalLM

/-! ### The model classes -/

structure OPTConfig where
  vocab_size : Nat
  hidden_size : Nat
  word_embed_proj_dim : Nat
  ffn_dim : Nat
  max_position_embeddings : Nat
  num_hidden_layers : Nat
  enable_bias : Bool
  layer_norm_elementwise_affine : Bool
  do_layer_norm_before : Bool
  remove_final_layer_norm : Bool
  tie_word_embeddings : Bool

/-- `nn.LayerNorm`; without `elementwise_affine` it has no parameters. -/
def layer_norm (hidden_size : Nat) (elementwise_affine : Bool) : Option Layer :=
  if elementwise_affine then some (.other ⟨[hidden_size], some [hidden_size]⟩) else none

/-- The entries of a `ModuleList` go by their index. -/
def in_module_list (size : Nat) (i : String) : Bool := i ∈ (List.range size).map toString

def OPTDecoderLayer (config : OPTConfig) : DottedName → Option Layer
  | ["self_attn", "q_proj"] | ["self_attn", "k_proj"] | ["self_attn", "v_proj"] =>
    some (.columnParallelLinear config.hidden_size config.hidden_size config.enable_bias)
  | ["self_attn", "out_proj"] => some (.rowParallelLinear config.hidden_size config.hidden_size config.enable_bias)
  | ["self_attn_layer_norm"] => layer_norm config.hidden_size config.layer_norm_elementwise_affine
  | ["fc1"] => some (.columnParallelLinear config.hidden_size config.ffn_dim config.enable_bias)
  | ["fc2"] => some (.rowParallelLinear config.ffn_dim config.hidden_size config.enable_bias)
  | ["final_layer_norm"] => layer_norm config.hidden_size config.layer_norm_elementwise_affine
  | _ => none

def OPTDecoder (config : OPTConfig) : DottedName → Option Layer
  | ["embed_tokens"] => some (.vocabParallelEmbedding config.vocab_size config.word_embed_proj_dim)
  | ["embed_positions"] => some (.other ⟨[config.max_position_embeddings + 2, config.hidden_size], none⟩)
  | ["project_out"] =>
    if config.word_embed_proj_dim ≠ config.hidden_size then
      some (.other ⟨[config.word_embed_proj_dim, config.hidden_size], none⟩)
    else none
  | ["project_in"] =>
    if config.word_embed_proj_dim ≠ config.hidden_size then
      some (.other ⟨[config.hidden_size, config.word_embed_proj_dim], none⟩)
    else none
  | ["final_layer_norm"] =>
    if config.do_layer_norm_before && !config.remove_final_layer_norm then
      layer_norm config.hidden_size config.layer_norm_elementwise_affine
    else none
  | "layers" :: i :: path =>
    if in_module_list config.num_hidden_layers i then OPTDecoderLayer config path else none
  | _ => none

def OPTForCausalLM.modules (config : OPTConfig) : DottedName → Option Layer
  | ["lm_head"] => some (.columnParallelLinear config.word_embed_proj_dim config.vocab_size false)
  | "model" :: "decoder" :: path => OPTDecoder config path
  | _ => none

section
variable {config : OPTConfig} {path : DottedName} {layer : Layer}

theorem OPTDecoderLayer_last (h : OPTDecoderLayer config path = some layer) :
    ∃ x, path.getLast? = some x ∧ x ≠ "lm_head" := by
  unfold OPTDecoderLayer at h
  split at h <;> first | exact ⟨_, rfl, by decide⟩ | cases h

theorem OPTDecoder_last (h : OPTDecoder config path = some layer) : ∃ x, path.getLast? = some x ∧ x ≠ "lm_head" := by
  unfold OPTDecoder at h
  split at h
  case h_6 =>
    split at h
    · obtain ⟨x, hx, hne⟩ := OPTDecoderLayer_last h
      exact ⟨x, by simp [List.getLast?_cons, hx], hne⟩
    · cases h
  all_goals first | exact ⟨_, rfl, by decide⟩ | cases h

theorem OPTForCausalLM.modules_lm_head (h : modules config (path ++ ["lm_head"]) = some layer) : path = [] := by
  have hlast : (path ++ ["lm_head"]).getLast? = some "lm_head" := List.getLast?_concat
  unfold modules at h
  split at h
  · rename_i heq
    simpa using heq
  · rename_i heq
    obtain ⟨x, hx, hne⟩ := OPTDecoder_last h
    rw [heq] at hlast
    simp [List.getLast?_cons, hx] at hlast
    exact absurd hlast hne
  · cases h

end

/-- `decoder.` is what the names of the base model begin with. -/
def OPTForCausalLM.rename : DottedName → DottedName
  | "decoder" :: path => "model" :: "decoder" :: path
  | name => name

/-- The head is under its own name only. -/
theorem OPTForCausalLM.param_lm_head {config : OPTConfig} {name : DottedName} {p : Layer × ParamType}
    (hsuffix : lm_head_weight <:+ name) (hparam : get_layer_type (modules config) (rename name) = some p) :
    rename name = lm_head_weight := by
  have hrename : ∃ l, rename name = l ++ ["lm_head"] ++ ["weight"] := by
    obtain ⟨l, rfl⟩ := hsuffix
    unfold rename
    split
    · rename_i path heq
      exact ⟨"model" :: l, by rw [← heq]; simp [lm_head_weight]⟩
    · exact ⟨l, by rw [List.append_assoc]; rfl⟩
  obtain ⟨l, hl⟩ := hrename
  obtain ⟨x, -, hparam⟩ := Option.bind_eq_some_iff.1 hparam
  obtain ⟨param_type, -, hparam⟩ := Option.bind_eq_some_iff.1 hparam
  obtain ⟨layer, hmodule, -⟩ := Option.bind_eq_some_iff.1 hparam
  rw [hl, List.dropLast_concat] at hmodule
  rw [hl, modules_lm_head hmodule]
  rfl

def OPTForCausalLM (config : OPTConfig) : CausalLM where
  modules := OPTForCausalLM.modules config
  skips name := lm_head_weight.isSuffixOf name && config.tie_word_embeddings
  rename := OPTForCausalLM.rename
  embed_tokens := ["model", "decoder", "embed_tokens"]
  copies := true
  vocab_size := config.vocab_size
  embed_dim := config.word_embed_proj_dim
  embed_tokens_module := rfl
  lm_head_module := rfl
  skipped name p hskip hparam := by
    rw [Bool.and_eq_true, List.isSuffixOf_iff_suffix] at hskip
    exact ⟨OPTForCausalLM.param_lm_head hskip.1 hparam, rfl⟩

section
variable {R : Type}

/-- `LlamaDecoderLayer` and `Qwen2DecoderLayer` -/
def LlamaDecoderLayer (config : LlamaConfig R) : DottedName → Option Layer
  | ["self_attn", "q_proj"] =>
    some (.columnParallelLinear config.hidden_size (config.num_attention_heads * config.head_dim) config.attention_bias)
  | ["self_attn", "k_proj"] | ["self_attn", "v_proj"] =>
    some (.columnParallelLinear config.hidden_size (config.num_key_value_heads * config.head_dim) config.attention_bias)
  | ["self_attn", "o_proj"] => some (.rowParallelLinear config.hidden_size config.hidden_size false)
  | ["mlp", "gate_proj"] | ["mlp", "up_proj"] =>
    some (.columnParallelLinear config.hidden_size config.intermediate_size false)
  | ["mlp", "down_proj"] => some (.rowParallelLinear config.intermediate_size config.hidden_size false)
  | ["input_layernorm"] | ["post_attention_layernorm"] => some (.other ⟨[config.hidden_size], none⟩)
  | _ => none

def LlamaForCausalLM.modules (config : LlamaConfig R) : DottedName → Option Layer
  | ["lm_head"] => some (.columnParallelLinear config.hidden_size config.vocab_size false)
  | ["model", "embed_tokens"] => some (.vocabParallelEmbedding config.vocab_size config.hidden_size)
  | ["model", "norm"] => some (.other ⟨[config.hidden_size], none⟩)
  | "model" :: "layers" :: i :: path =>
    if in_module_list config.num_hidden_layers i then LlamaDecoderLayer config path else none
  | _ => none

/-- `LlamaForCausalLM` and `Qwen2ForCausalLM` -/
def LlamaForCausalLM (config : LlamaConfig R) : CausalLM where
  modules := LlamaForCausalLM.modules config
  skips name := ["rotary_emb", "inv_freq"].isSuffixOf name
  rename name := name
  embed_tokens := ["model", "embed_tokens"]
  copies := config.tie_word_embeddings
  vocab_size := config.vocab_size
  embed_dim := config.hidden_size
  embed_tokens_module := rfl
  lm_head_module := rfl
  skipped name p hskip hparam := by
    obtain ⟨l, rfl⟩ := List.isSuffixOf_iff_suffix.1 hskip
    have hlast : (l ++ ["rotary_emb", "inv_freq"]).getLast? = some "inv_freq" := by simp
    simp [get_layer_type, hlast, ParamType.of] at hparam

end

namespace CausalLM
variable {α : Type} {model : CausalLM} {weights : List (DottedName × Tensor α)} {data data' : DottedName → Tensor α}
  {tp rank : Nat}

/-- The tensors of a checkpoint have the shapes of the unsharded parameters, one for each name, and the embedding is
among them. -/
structure IsCheckpoint (model : CausalLM) (weights : List (DottedName × Tensor α)) : Prop where
  known : ∀ w ∈ weights, model.skips w.1 = false → (model.param w.1).isSome
  shape : ∀ w ∈ weights, ∀ layer param_type, model.param w.1 = some (layer, param_type) →
    layer.whole.get param_type = some w.2.shape
  nodup : (weights.map fun w => model.rename w.1).Nodup
  embed_tokens : ∃ w ∈ weights, model.rename w.1 = model.embed_tokens_weight

/-- The ranks divide the sizes that the constructors divide. -/
def Divides (model : CausalLM) (tp : Nat) : Prop :=
  ∀ path layer, model.modules path = some layer → ∀ n ∈ layer.sharded_size, tp ∣ n

/-- The loading succeeds on every rank, whatever the parameters hold at first, and the shards under each name make
the tensor of the checkpoint. -/
def LoadsWhole (model : CausalLM) (weights : List (DottedName × Tensor α)) (init : Nat → DottedName → Tensor α)
    (tp : Nat) : Prop :=
  ∃ data : Nat → DottedName → Tensor α, (∀ rank < tp, model.load_weights tp rank weights (init rank) = .ok (data rank)) ∧
    ∀ w ∈ weights, ∀ layer param_type, model.param w.1 = some (layer, param_type) →
      Reassembles (layer.partition_dim param_type) ((List.range tp).map fun rank => data rank (model.rename w.1)) w.2

theorem param_embed_tokens {name : DottedName} (h : model.rename name = model.embed_tokens_weight) :
    model.param name = some (.vocabParallelEmbedding model.vocab_size model.embed_dim, .weight) := by
  simp [param, get_layer_type, h, embed_tokens_weight, ParamType.of, model.embed_tokens_module]

theorem param_lm_head {name : DottedName} (h : model.rename name = lm_head_weight) :
    model.param name = some (.columnParallelLinear model.embed_dim model.vocab_size false, .weight) := by
  simp [param, get_layer_type, h, lm_head_weight, ParamType.of, model.lm_head_module]

theorem embed_tokens_ne_lm_head : model.embed_tokens_weight ≠ lm_head_weight := by
  intro h
  have hpath : model.embed_tokens = ["lm_head"] := by
    have hdrop := congrArg List.dropLast h
    simpa [embed_tokens_weight, lm_head_weight] using hdrop
  have hmodule := model.embed_tokens_module
  rw [hpath, model.lm_head_module] at hmodule
  cases Option.some.inj hmodule

theorem skips_embed_tokens {name : DottedName} (h : model.rename name = model.embed_tokens_weight) :
    model.skips name = false := by
  by_contra hskip
  obtain ⟨hhead, -⟩ := model.skipped name _ (by simpa using hskip) (param_embed_tokens h)
  exact embed_tokens_ne_lm_head (h.symm.trans hhead)

/-! ### The loop -/

theorem load_param_of_skips {w : DottedName × Tensor α} (h : model.skips w.1 = true) :
    model.load_param tp rank data w = .ok data := if_pos h

/-- The tensors that are passed over do nothing. -/
theorem load_loop_filter : weights.foldlM (model.load_param tp rank) data =
    (weights.filter fun w => !model.skips w.1).foldlM (model.load_param tp rank) data := by
  induction weights generalizing data with
  | nil => rfl
  | cons w weights ih =>
    rw [List.foldlM_cons]
    cases hskip : model.skips w.1 with
    | true =>
      rw [load_param_of_skips hskip, List.filter_cons_of_neg (by simp [hskip])]
      exact ih
    | false =>
      rw [List.filter_cons_of_pos (by simp [hskip]), List.foldlM_cons]
      exact bind_congr fun _ => ih

/-- `part` is what the loop puts where `weight` belongs. -/
structure IsPart (model : CausalLM) (tp rank : Nat) (weight part : DottedName × Tensor α) : Prop where
  name : part.1 = model.rename weight.1
  not_skipped : model.skips weight.1 = false
  loaded : ∃ layer param_type, model.param weight.1 = some (layer, param_type) ∧
    load_rank layer param_type weight.2 tp rank = .ok part.2

theorem IsPart.load_param {w part : DottedName × Tensor α} (h : model.IsPart tp rank w part) :
    model.load_param tp rank data w = .ok (Function.update data part.1 part.2) := by
  obtain ⟨layer, param_type, hparam, hload⟩ := h.loaded
  simp only [CausalLM.load_param, h.not_skipped, Bool.false_eq_true, if_false, hparam, hload, h.name]
  rfl

/-- The parts go under their names one after the other. -/
theorem load_loop_parts {parts : List (DottedName × Tensor α)} (h : List.Forall₂ (model.IsPart tp rank) weights parts) :
    weights.foldlM (model.load_param tp rank) data = .ok (Scatter.run parts data) := by
  induction h generalizing data with
  | nil => rfl
  | cons hpart _ ih =>
    rw [List.foldlM_cons, hpart.load_param]
    exact ih

theorem load_loop_ok (shard : DottedName × Tensor α → Tensor α)
    (h : ∀ w ∈ weights, model.skips w.1 = false → ∃ layer param_type, model.param w.1 = some (layer, param_type) ∧
      load_rank layer param_type w.2 tp rank = .ok (shard w)) :
    weights.foldlM (model.load_param tp rank) data = .ok (Scatter.run
      ((weights.filter fun w => !model.skips w.1).map fun w => (model.rename w.1, shard w)) data) := by
  rw [load_loop_filter]
  refine load_loop_parts (List.forall₂_map_right_iff.2 (List.forall₂_same.2 fun w hw => ?_))
  obtain ⟨hw, hskip⟩ := List.mem_filter.1 hw
  have hskip : model.skips w.1 = false := by simpa using hskip
  exact ⟨rfl, hskip, h w hw hskip⟩

theorem load_loop_mem (h : weights.foldlM (model.load_param tp rank) data = .ok data') :
    ∀ w ∈ weights, model.skips w.1 = false → ∀ layer param_type, model.param w.1 = some (layer, param_type) →
      ∃ shard, load_rank layer param_type w.2 tp rank = .ok shard := by
  induction weights generalizing data with
  | nil => intro w hw; cases hw
  | cons w weights ih =>
    rw [List.foldlM_cons] at h
    obtain ⟨data₁, hw, h⟩ := except_bind_ok.1 h
    refine List.forall_mem_cons.2 ⟨fun hskip layer param_type hparam => ?_, ih h⟩
    simp only [load_param, hskip, Bool.false_eq_true, if_false, hparam] at hw
    obtain ⟨shard, hload, -⟩ := except_bind_ok.1 hw
    exact ⟨shard, hload⟩

theorem copy_embed_tokens_head (h : model.copies = true) :
    model.copy_embed_tokens data lm_head_weight = data model.embed_tokens_weight := by
  rw [copy_embed_tokens, if_pos h, Function.update_self]

theorem copy_embed_tokens_other {name : DottedName} (h : ¬ (model.copies = true ∧ name = lm_head_weight)) :
    model.copy_embed_tokens data name = data name := by
  rw [copy_embed_tokens]
  split
  · rename_i hcopies
    exact Function.update_of_ne (fun hname => h ⟨hcopies, hname⟩) ..
  · rfl

theorem load_weights_eq (h : weights.foldlM (model.load_param tp rank) data = .ok data') :
    model.load_weights tp rank weights data = .ok (model.copy_embed_tokens data') := by
  rw [load_weights, h]
  rfl

theorem exists_of_load_weights (h : model.load_weights tp rank weights data = .ok data') :
    ∃ data₀, weights.foldlM (model.load_param tp rank) data = .ok data₀ ∧ data' = model.copy_embed_tokens data₀ := by
  obtain ⟨data₀, hloop, hdata⟩ := except_bind_ok.1 h
  exact ⟨data₀, hloop, (Except.ok.inj hdata).symm⟩

/-! ### All the ranks -/

theorem Divides.param (h : model.Divides tp) {name : DottedName} {layer : Layer} {param_type : ParamType}
    (hparam : model.param name = some (layer, param_type)) : ∀ n ∈ layer.sharded_size, tp ∣ n := by
  obtain ⟨x, -, hparam⟩ := Option.bind_eq_some_iff.1 hparam
  obtain ⟨kind, -, hparam⟩ := Option.bind_eq_some_iff.1 hparam
  obtain ⟨module, hmodule, hpair⟩ := Option.bind_eq_some_iff.1 hparam
  obtain ⟨rfl, -⟩ : module = layer ∧ _ := by simpa using hpair
  exact h _ _ hmodule

/-- The loop passes over no tensor that has a parameter of its own. -/
theorem not_skips {name : DottedName} {p : Layer × ParamType} (hparam : model.param name = some p)
    (h : ¬ (model.copies = true ∧ model.rename name = lm_head_weight)) : model.skips name = false := by
  by_contra hskip
  obtain ⟨hhead, hcopies⟩ := model.skipped name p (by simpa using hskip) hparam
  exact h ⟨hcopies, hhead⟩

/-- Where every tensor has its shards, a rank's loop puts them under the tensors' names. -/
theorem load_loop_shards (hck : model.IsCheckpoint weights) {shard : DottedName × Tensor α → Nat → Tensor α}
    (hshard : ∀ w ∈ weights, ∀ layer param_type, model.param w.1 = some (layer, param_type) →
      load_rank layer param_type w.2 tp rank = .ok (shard w rank)) (data : DottedName → Tensor α) :
    ∃ data', weights.foldlM (model.load_param tp rank) data = .ok data' ∧
      ∀ w ∈ weights, model.skips w.1 = false → data' (model.rename w.1) = shard w rank := by
  refine ⟨_, load_loop_ok (shard · rank) fun w hw hskip => ?_, fun w hw hskip => ?_⟩
  · obtain ⟨⟨layer, param_type⟩, hparam⟩ := Option.isSome_iff_exists.1 (hck.known w hw hskip)
    exact ⟨layer, param_type, hparam, hshard w hw layer param_type hparam⟩
  · refine Scatter.run_of_mem (List.mem_map.2 ⟨w, List.mem_filter.2 ⟨hw, by simp [hskip]⟩, rfl⟩) fun v hv => ?_
    obtain ⟨w', hw', hpair⟩ := List.mem_map.1 hv
    obtain ⟨hname, rfl⟩ := Prod.mk.inj hpair
    rw [List.inj_on_of_nodup_map hck.nodup (List.mem_of_mem_filter hw') hw hname]

theorem loadsWhole_of_shards (hck : model.IsCheckpoint weights) (init : Nat → DottedName → Tensor α)
    (htensors : ∀ w ∈ weights, ∀ layer param_type, model.param w.1 = some (layer, param_type) →
      LMServe.LoadsWhole layer param_type w.2 tp)
    (hcopies : model.copies = true → ∀ head ∈ weights, model.rename head.1 = lm_head_weight →
      ∀ embed ∈ weights, model.rename embed.1 = model.embed_tokens_weight → head.2 = embed.2) :
    model.LoadsWhole weights init tp := by
  have hshards : ∀ w : DottedName × Tensor α, ∃ shard : Nat → Tensor α, w ∈ weights → ∀ layer param_type,
      model.param w.1 = some (layer, param_type) →
      (∀ rank < tp, load_rank layer param_type w.2 tp rank = .ok (shard rank)) ∧
        Reassembles (layer.partition_dim param_type) ((List.range tp).map shard) w.2 := by
    intro w
    by_cases hw : w ∈ weights ∧ (model.param w.1).isSome
    · obtain ⟨hw, hsome⟩ := hw
      obtain ⟨⟨layer, param_type⟩, hparam⟩ := Option.isSome_iff_exists.1 hsome
      obtain ⟨shard, hload⟩ := loadsWhole_iff_shards.1 (htensors w hw layer param_type hparam)
      refine ⟨shard, fun _ layer' param_type' hparam' => ?_⟩
      obtain ⟨rfl, rfl⟩ := Prod.mk.inj (Option.some.inj (hparam.symm.trans hparam'))
      exact hload
    · exact ⟨fun _ => default, fun hmem layer param_type hparam => absurd ⟨hmem, by rw [hparam]; rfl⟩ hw⟩
  choose shard hshard using hshards
  have hloops : ∀ rank, ∃ data, rank < tp →
      weights.foldlM (model.load_param tp rank) (init rank) = .ok data ∧
        ∀ w ∈ weights, model.skips w.1 = false → data (model.rename w.1) = shard w rank := by
    intro rank
    by_cases hrank : rank < tp
    · obtain ⟨data, hdata⟩ := load_loop_shards hck (fun w hw layer param_type hparam =>
        (hshard w hw layer param_type hparam).1 rank hrank) (init rank)
      exact ⟨data, fun _ => hdata⟩
    · exact ⟨init rank, fun h => absurd h hrank⟩
  choose data hdata using hloops
  refine ⟨fun rank => model.copy_embed_tokens (data rank),
    fun rank hrank => load_weights_eq (hdata rank hrank).1, fun w hw layer param_type hparam => ?_⟩
  show Reassembles _ ((List.range tp).map fun rank => model.copy_embed_tokens (data rank) (model.rename w.1)) w.2
  -- a copied head has the shards of the embedding, any other parameter its own
  by_cases hhead : model.copies = true ∧ model.rename w.1 = lm_head_weight
  · obtain ⟨e, he, hname⟩ := hck.embed_tokens
    have hlayer := (param_lm_head hhead.2).symm.trans hparam
    obtain ⟨rfl, rfl⟩ := Prod.mk.inj (Option.some.inj hlayer)
    have hsame : (List.range tp).map (fun rank => model.copy_embed_tokens (data rank) (model.rename w.1)) =
        (List.range tp).map (shard e) := List.map_congr_left fun rank hrank => by
      rw [hhead.2, copy_embed_tokens_head hhead.1, ← hname]
      exact (hdata rank (List.mem_range.1 hrank)).2 e he (skips_embed_tokens hname)
    rw [hsame, hcopies hhead.1 w hw hhead.2 e he hname]
    exact (hshard e he _ _ (param_embed_tokens hname)).2
  · have hsame : (List.range tp).map (fun rank => model.copy_embed_tokens (data rank) (model.rename w.1)) =
        (List.range tp).map (shard w) := List.map_congr_left fun rank hrank =>
      (copy_embed_tokens_other hhead).trans
        ((hdata rank (List.mem_range.1 hrank)).2 w hw (not_skips hparam hhead))
    rw [hsame]
    exact (hshard w hw _ _ hparam).2

/-- After the copy the head has the embedding's shards. -/
theorem LoadsWhole.head_eq {init : Nat → DottedName → Tensor α} (h : model.LoadsWhole weights init tp)
    (hcopies : model.copies = true) {head embed : DottedName × Tensor α} (hhead : head ∈ weights)
    (hhead_name : model.rename head.1 = lm_head_weight) (hembed : embed ∈ weights)
    (hembed_name : model.rename embed.1 = model.embed_tokens_weight) : head.2 = embed.2 := by
  obtain ⟨data, hload, hwhole⟩ := h
  have hhead_whole := hwhole head hhead _ _ (param_lm_head hhead_name)
  have hembed_whole := hwhole embed hembed _ _ (param_embed_tokens hembed_name)
  have hsame : (List.range tp).map (fun rank => data rank (model.rename head.1)) =
      (List.range tp).map fun rank => data rank (model.rename embed.1) := by
    refine List.map_congr_left fun rank hrank => ?_
    obtain ⟨data₀, -, hdata⟩ := exists_of_load_weights (hload rank (List.mem_range.1 hrank))
    rw [hdata, hhead_name, hembed_name, copy_embed_tokens_head hcopies,
      copy_embed_tokens_other fun hname => embed_tokens_ne_lm_head hname.2]
  rw [hsame] at hhead_whole
  exact Option.some.inj (hhead_whole.symm.trans hembed_whole)

theorem LoadsWhole.not_row_bias {init : Nat → DottedName → Tensor α} (h : model.LoadsWhole weights init tp) (htp : 0 < tp)
    (hdvd : model.Divides tp) (hck : model.IsCheckpoint weights) {w : DottedName × Tensor α} (hw : w ∈ weights)
    {layer : Layer} {param_type : ParamType} (hparam : model.param w.1 = some (layer, param_type)) :
    ¬ (layer.layer_type = .rowParallelLinear ∧ param_type = .bias) := by
  rintro ⟨htype, rfl⟩
  obtain ⟨data, hload, -⟩ := h
  obtain ⟨data₀, hloop, -⟩ := exists_of_load_weights (hload 0 htp)
  have hskip : model.skips w.1 = false := not_skips hparam fun hhead => by
    cases Option.some.inj ((param_lm_head hhead.2).symm.trans hparam)
  obtain ⟨shard, hshard⟩ := load_loop_mem hloop w hw hskip _ _ hparam
  cases layer with
  | vocabParallelEmbedding => cases htype
  | columnParallelLinear => cases htype
  | rowParallelLinear in_features out_features bias =>
    rw [row_parallel_linear_bias_fails htp (hdvd.param hparam _ rfl) (hck.shape w hw _ _ hparam)] at hshard
    cases hshard
  | other => cases htype

end CausalLM

/-! ### The sizes that are divided -/

section
variable {tp : Nat}

theorem OPTForCausalLM.divides {config : OPTConfig} (hvocab : tp ∣ config.vocab_size) (hhidden : tp ∣ config.hidden_size)
    (hffn : tp ∣ config.ffn_dim) : (OPTForCausalLM config).Divides tp := by
  have hlayer : ∀ path layer, OPTDecoderLayer config path = some layer → ∀ n ∈ layer.sharded_size, tp ∣ n := by
    intro path layer h n hn
    unfold OPTDecoderLayer layer_norm at h
    repeat' split at h
    all_goals cases h
    all_goals cases hn
    all_goals assumption
  have hdecoder : ∀ path layer, OPTDecoder config path = some layer → ∀ n ∈ layer.sharded_size, tp ∣ n := by
    intro path layer h n hn
    unfold OPTDecoder layer_norm at h
    split at h
    case h_6 =>
      split at h
      · exact hlayer _ _ h n hn
      · cases h
    all_goals repeat' split at h
    all_goals cases h
    all_goals cases hn
    exact hvocab
  intro path layer h n hn
  change OPTForCausalLM.modules config path = some layer at h
  unfold OPTForCausalLM.modules at h
  split at h
  · cases h; cases hn; exact hvocab
  · exact hdecoder _ _ h n hn
  · cases h

end

section
variable {α : Type}

/-- Each call of `load_weights` loads a tensor whole, the bias of a row-parallel layer excepted. A model loads its
checkpoint whole exactly when there is no such bias and the head that is overwritten is the embedding. -/
theorem load_weights_reassembles_iff {tp : Nat} (htp : 0 < tp) :
    (∀ (layer : Layer) (param_type : ParamType) (checkpoint : Tensor α), (∀ n ∈ layer.sharded_size, tp ∣ n) →
      layer.whole.get param_type = some checkpoint.shape → (LoadsWhole layer param_type checkpoint tp ↔
        ¬ (layer.layer_type = .rowParallelLinear ∧ param_type = .bias))) ∧
    ∀ (model : CausalLM) (weights : List (DottedName × Tensor α)) (init : Nat → DottedName → Tensor α),
      model.Divides tp → model.IsCheckpoint weights → (model.LoadsWhole weights init tp ↔
        (∀ w ∈ weights, ∀ layer param_type, model.param w.1 = some (layer, param_type) →
          ¬ (layer.layer_type = .rowParallelLinear ∧ param_type = .bias)) ∧
        (model.copies = true → ∀ head ∈ weights, model.rename head.1 = lm_head_weight →
          ∀ embed ∈ weights, model.rename embed.1 = model.embed_tokens_weight → head.2 = embed.2)) := by
  refine ⟨fun layer param_type checkpoint hdvd hshape => loads_whole_iff htp hdvd hshape,
    fun model weights init hdvd hck => ⟨fun h => ⟨fun w hw layer param_type hparam =>
      h.not_row_bias htp hdvd hck hw hparam, fun hcopies head hhead hname embed hembed hembed_name =>
      h.head_eq hcopies hhead hname hembed hembed_name⟩, ?_⟩⟩
  rintro ⟨hrow, hcopies⟩
  exact CausalLM.loadsWhole_of_shards hck init (fun w hw layer param_type hparam =>
    (loads_whole_iff htp (hdvd.param hparam) (hck.shape w hw _ _ hparam)).2 (hrow w hw _ _ hparam)) hcopies

end

/-! ### A small OPT -/

/-- One layer, without biases, embeddings of half the width -/
def smallOPT (tie_word_embeddings : Bool) : CausalLM :=
  OPTForCausalLM ⟨2, 2, 1, 2, 4, 1, false, true, true, false, tie_word_embeddings⟩

/-- The embedding, a column-parallel and a row-parallel weight, and the head -/
def smallCheckpoint (embed_tokens lm_head : Tensor Nat) : List (DottedName × Tensor Nat) :=
  [(["decoder", "embed_tokens", "weight"], embed_tokens),
    (["decoder", "layers", "0", "fc1", "weight"], .matrix 2 [[1, 2], [3, 4]] (by decide)),
    (["decoder", "layers", "0", "fc2", "weight"], .matrix 2 [[5, 6], [7, 8]] (by decide)),
    (lm_head_weight, lm_head)]

theorem smallOPT_divides {tp : Nat} (h : tp ∣ 2) (tie : Bool) : (smallOPT tie).Divides tp :=
  OPTForCausalLM.divides h h h

theorem smallCheckpoint_isCheckpoint {embed_tokens lm_head : Tensor Nat} (hembed : embed_tokens.shape = [2, 1])
    (hhead : lm_head.shape = [2, 1]) (tie : Bool) : (smallOPT tie).IsCheckpoint (smallCheckpoint embed_tokens lm_head) := by
  have hparams : ∀ w ∈ smallCheckpoint embed_tokens lm_head, ∃ layer, (smallOPT tie).param w.1 = some (layer, .weight) ∧
      layer.whole.weight = w.2.shape := by
    simp only [smallCheckpoint, List.forall_mem_cons, List.not_mem_nil, false_implies, implies_true, and_true]
    refine ⟨⟨_, rfl, hembed.symm⟩, ⟨_, rfl, rfl⟩, ⟨_, rfl, rfl⟩, ⟨_, rfl, hhead.symm⟩⟩
  refine ⟨fun w hw _ => ?_, fun w hw layer param_type hparam => ?_, ?_, ⟨_, List.mem_cons_self, rfl⟩⟩
  · obtain ⟨layer, hlayer, -⟩ := hparams w hw
    rw [hlayer]; rfl
  · obtain ⟨layer', hlayer, hshape⟩ := hparams w hw
    obtain ⟨rfl, rfl⟩ := Prod.mk.inj (Option.some.inj (hlayer.symm.trans hparam))
    exact congrArg some hshape
  · show List.Nodup [["model", "decoder", "embed_tokens", "weight"], ["model", "decoder", "layers", "0", "fc1", "weight"],
      ["model", "decoder", "layers", "0", "fc2", "weight"], lm_head_weight]
    decide

theorem lm_head_mem_smallCheckpoint {embed_tokens lm_head : Tensor Nat} :
    (lm_head_weight, lm_head) ∈ smallCheckpoint embed_tokens lm_head := List.mem_of_getLast? rfl

/-- A bias in two halves; and a model whose head is tied, on two ranks -/
theorem load_weights_reassembles_iff_column :
    LoadsWhole (.columnParallelLinear 1 2 true) .bias (.vector [5, 7]) 2 ∧
      let embed_tokens := Tensor.matrix 1 [[1], [2]] (by decide)
      (smallOPT true).LoadsWhole (smallCheckpoint embed_tokens embed_tokens) (fun _ _ => .vector []) 2 := by
  have htwo : 0 < 2 := Nat.two_pos
  have hone := (@load_weights_reassembles_iff Nat 2 htwo).1
  have hall := (@load_weights_reassembles_iff Nat 2 htwo).2
  constructor
  · refine (hone _ _ _ (fun n hn => ?_) rfl).2 fun h => nomatch h.1
    obtain rfl := Option.some.inj hn
    exact dvd_refl 2
  · intro embed_tokens
    refine (hall _ _ _ (smallOPT_divides (dvd_refl 2) true) (smallCheckpoint_isCheckpoint rfl rfl true)).2
      ⟨?_, fun _ head hhead hname embed hembed hembed_name => ?_⟩
    · rintro w hw layer param_type hparam ⟨-, rfl⟩
      simp only [smallCheckpoint, List.mem_cons, List.not_mem_nil, or_false] at hw
      rcases hw with rfl | rfl | rfl | rfl <;> cases hparam
    · simp only [smallCheckpoint, List.mem_cons, List.not_mem_nil, or_false] at hhead hembed
      rcases hhead with rfl | rfl | rfl | rfl
      · exact absurd hname (by decide)
      · exact absurd hname (by decide)
      · exact absurd hname (by decide)
      rcases hembed with rfl | rfl | rfl | rfl
      · rfl
      all_goals exact absurd hembed_name (by decide)

/-- The bias of OPT's output projection on a single rank, and the head of an OPT model that is not tied -/
theorem row_bias_not_loaded :
    ((Layer.rowParallelLinear 2 2 true).whole.get .bias = some (Tensor.vector [5, 7]).shape ∧
      ¬ LoadsWhole (.rowParallelLinear 2 2 true) .bias (.vector [5, 7]) 1) ∧
    let weights := smallCheckpoint (.matrix 1 [[1], [2]] (by decide)) (.matrix 1 [[3], [4]] (by decide))
    (smallOPT false).Divides 1 ∧ (smallOPT false).IsCheckpoint weights ∧
      ∀ init, ¬ (smallOPT false).LoadsWhole weights init 1 := by
  refine ⟨⟨rfl, ?_⟩, smallOPT_divides (one_dvd 2) false, smallCheckpoint_isCheckpoint rfl rfl false, fun init h => ?_⟩
  · rintro ⟨shards, hload, _⟩
    have hfail : load_ranks (.rowParallelLinear 2 2 true) .bias (Tensor.vector [5, 7]) 1 = .error .index := rfl
    rw [hfail] at hload
    cases hload
  · cases h.head_eq rfl lm_head_mem_smallCheckpoint rfl List.mem_cons_self rfl

end LMServe
