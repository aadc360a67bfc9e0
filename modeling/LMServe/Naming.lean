import LMServe.Checkpoint

/-!
# Llama's parameters under their names

The forward pass takes its weights as a record, and the loop of `load_weights` goes through names. What
`CausalWeights.load` makes of a record of tensors is what the loop leaves under their names.
-/

namespace LMServe

section
variable {R : Type}

/-- The parameters of a decoder layer -/
def DecoderWeights.named (weights : DecoderWeights R) : List (DottedName × Tensor R) :=
  [(["self_attn", "q_proj", "weight"], weights.q_proj), (["self_attn", "k_proj", "weight"], weights.k_proj),
    (["self_attn", "v_proj", "weight"], weights.v_proj), (["self_attn", "o_proj", "weight"], weights.o_proj)] ++
  weights.q_bias.toList.map (Prod.mk ["self_attn", "q_proj", "bias"]) ++
  weights.k_bias.toList.map (Prod.mk ["self_attn", "k_proj", "bias"]) ++
  weights.v_bias.toList.map (Prod.mk ["self_attn", "v_proj", "bias"]) ++
  [(["mlp", "gate_proj", "weight"], weights.gate_proj), (["mlp", "up_proj", "weight"], weights.up_proj),
    (["mlp", "down_proj", "weight"], weights.down_proj), (["input_layernorm", "weight"], weights.input_layernorm),
    (["post_attention_layernorm", "weight"], weights.post_attention_layernorm)]

/-- The name of a parameter of the `i`-th decoder layer in the model -/
def in_layer (i : Nat) (weight : DottedName × Tensor R) : DottedName × Tensor R :=
  ("model" :: "layers" :: toString i :: weight.1, weight.2)

/-- The parameters of the layers from the `n`-th on -/
def layers_named (layers : List (DecoderWeights R)) (n : Nat) : List (DottedName × Tensor R) :=
  (layers.zipIdx n).flatMap fun (layer, i) => layer.named.map (in_layer i)

def CausalWeights.named (weights : CausalWeights R) : List (DottedName × Tensor R) :=
  [(["model", "embed_tokens", "weight"], weights.embed_tokens)] ++ layers_named weights.layers 0 ++
    [(["model", "norm", "weight"], weights.norm), (lm_head_weight, weights.lm_head)]

variable {config : LlamaConfig R} {tp rank i : Nat}

theorem in_module_list_toString {size : Nat} (h : i < size) : in_module_list size (toString i) = true :=
  decide_eq_true (List.mem_map_of_mem (List.mem_range.2 h))

theorem param_in_layer {name : DottedName} {p : Layer × ParamType} (hi : i < config.num_hidden_layers)
    (h : get_layer_type (LlamaDecoderLayer config) name = some p) :
    (LlamaForCausalLM config).param ("model" :: "layers" :: toString i :: name) = some p := by
  obtain ⟨x, hx, hrest⟩ := Option.bind_eq_some_iff.1 h
  obtain ⟨path, rfl⟩ := List.getLast?_eq_some_iff.1 hx
  have hmodules : (LlamaForCausalLM config).modules ("model" :: "layers" :: toString i :: path) =
      LlamaDecoderLayer config path := if_pos (in_module_list_toString hi)
  rw [List.dropLast_concat] at hrest
  rw [← hmodules] at hrest
  have hname : (LlamaForCausalLM config).rename ("model" :: "layers" :: toString i :: (path ++ [x])) =
      ("model" :: "layers" :: toString i :: path) ++ [x] := rfl
  rw [CausalLM.param, hname, get_layer_type, List.getLast?_concat, List.dropLast_concat]
  exact hrest

theorem load_parameter_ok {layer : Layer} {param_type : ParamType} {checkpoint part : Tensor R}
    (h : load_parameter tp rank layer param_type checkpoint = .ok part) :
    load_rank layer param_type checkpoint tp rank = .ok part := by
  unfold load_parameter at h
  cases hload : load_rank layer param_type checkpoint tp rank with
  | error e => rw [hload] at h; cases h
  | ok t => rw [hload] at h; exact congrArg _ (Except.ok.inj h)

/-- One parameter of a decoder layer -/
theorem isPart_in_layer {name : DottedName} {layer : Layer} {param_type : ParamType} {checkpoint part : Tensor R}
    (hi : i < config.num_hidden_layers)
    (hparam : get_layer_type (LlamaDecoderLayer config) name = some (layer, param_type))
    (hload : load_parameter tp rank layer param_type checkpoint = .ok part) :
    (LlamaForCausalLM config).IsPart tp rank (in_layer i (name, checkpoint)) (in_layer i (name, part)) := by
  have hparam := param_in_layer hi hparam
  refine ⟨rfl, CausalLM.not_skips hparam ?_, layer, param_type, hparam, load_parameter_ok hload⟩
  rintro ⟨-, hhead⟩
  exact absurd (List.cons.inj hhead).1 (by decide)

/-- An optional bias -/
theorem isPart_bias {name : DottedName} {layer : Layer} {checkpoint part : Option (Tensor R)}
    (hi : i < config.num_hidden_layers) (hparam : get_layer_type (LlamaDecoderLayer config) name = some (layer, .bias))
    (hload : checkpoint.mapM (load_parameter tp rank layer .bias) = .ok part) :
    List.Forall₂ ((LlamaForCausalLM config).IsPart tp rank) ((checkpoint.toList.map (Prod.mk name)).map (in_layer i))
      ((part.toList.map (Prod.mk name)).map (in_layer i)) := by
  cases checkpoint with
  | none =>
    obtain rfl : none = part := Except.ok.inj hload
    exact .nil
  | some checkpoint =>
    obtain ⟨t, ht, hpart⟩ := except_bind_ok.1 hload
    obtain rfl : some t = part := Except.ok.inj hpart
    exact .cons (isPart_in_layer hi hparam ht) .nil

theorem DecoderWeights.load_named {checkpoint part : DecoderWeights R} (hi : i < config.num_hidden_layers)
    (hload : checkpoint.load config tp rank = .ok part) :
    List.Forall₂ ((LlamaForCausalLM config).IsPart tp rank) (checkpoint.named.map (in_layer i))
      (part.named.map (in_layer i)) := by
  unfold load at hload
  dsimp only at hload
  split at hload
  · cases hload
  simp only [except_bind_ok] at hload
  obtain ⟨q_proj, hq, k_proj, hk, v_proj, hv, o_proj, ho, q_bias, hq_bias, k_bias, hk_bias, v_bias, hv_bias, gate_proj,
    hgate, up_proj, hup, down_proj, hdown, input_layernorm, hinput, post_attention_layernorm, hpost, hpart⟩ := hload
  obtain rfl := Except.ok.inj hpart
  simp only [named, List.map_append]
  refine List.rel_append (List.rel_append (List.rel_append (List.rel_append ?_ (isPart_bias hi rfl hq_bias))
    (isPart_bias hi rfl hk_bias)) (isPart_bias hi rfl hv_bias)) ?_
  · exact .cons (isPart_in_layer hi rfl hq) (.cons (isPart_in_layer hi rfl hk) (.cons (isPart_in_layer hi rfl hv)
      (.cons (isPart_in_layer hi rfl ho) .nil)))
  · exact .cons (isPart_in_layer hi rfl hgate) (.cons (isPart_in_layer hi rfl hup) (.cons (isPart_in_layer hi rfl hdown)
      (.cons (isPart_in_layer hi rfl hinput) (.cons (isPart_in_layer hi rfl hpost) .nil))))

theorem layers_load_named {layers parts : List (DecoderWeights R)} {n : Nat}
    (hlen : n + layers.length ≤ config.num_hidden_layers)
    (hload : layers.mapM (DecoderWeights.load config tp rank) = .ok parts) :
    List.Forall₂ ((LlamaForCausalLM config).IsPart tp rank) (layers_named layers n) (layers_named parts n) := by
  induction layers generalizing parts n with
  | nil =>
    obtain rfl : [] = parts := Except.ok.inj hload
    exact .nil
  | cons layer layers ih =>
    rw [List.mapM_cons] at hload
    simp only [except_bind_ok] at hload
    obtain ⟨part, hpart, rest, hrest, hparts⟩ := hload
    obtain rfl := Except.ok.inj hparts
    rw [List.length_cons] at hlen
    rw [layers_named, layers_named, List.zipIdx_cons, List.zipIdx_cons, List.flatMap_cons, List.flatMap_cons]
    exact List.rel_append (DecoderWeights.load_named (by omega) hpart) (ih (by omega) hrest)

theorem toString_injective : Function.Injective (toString : Nat → String) := by
  intro m n h
  have hdigits := congrArg String.toList h
  rw [Nat.toString_eq_repr, Nat.toString_eq_repr, Nat.toList_repr, Nat.toList_repr] at hdigits
  rw [← Nat.ofDigitChars_toDigits (b := 10) (n := m) (by decide) (by decide), hdigits,
    Nat.ofDigitChars_toDigits (by decide) (by decide)]

theorem DecoderWeights.names_nodup (weights : DecoderWeights R) : (weights.named.map Prod.fst).Nodup := by
  unfold named
  cases weights.q_bias <;> cases weights.k_bias <;> cases weights.v_bias <;> simp

theorem name_of_mem_layers {layers : List (DecoderWeights R)} {n : Nat} {w : DottedName × Tensor R}
    (hw : w ∈ layers_named layers n) : ∃ i ≥ n, ∃ path, w.1 = "model" :: "layers" :: toString i :: path := by
  obtain ⟨⟨layer, i⟩, hi, hw⟩ := List.mem_flatMap.1 hw
  obtain ⟨v, -, rfl⟩ := List.mem_map.1 hw
  exact ⟨i, List.le_snd_of_mem_zipIdx hi, v.1, rfl⟩

theorem layers_names_nodup (layers : List (DecoderWeights R)) (n : Nat) :
    ((layers_named layers n).map Prod.fst).Nodup := by
  induction layers generalizing n with
  | nil => exact .nil
  | cons layer layers ih =>
    rw [layers_named, List.zipIdx_cons, List.flatMap_cons, List.map_append, List.nodup_append]
    refine ⟨?_, ih (n + 1), ?_⟩
    · rw [List.map_map]
      have hnames : Prod.fst ∘ in_layer (R := R) n = ("model" :: "layers" :: toString n :: ·) ∘ Prod.fst := rfl
      rw [hnames, ← List.map_map]
      exact layer.names_nodup.map fun a b h => by simpa using h
    · rintro name hname _ hrest rfl
      obtain ⟨w, hw, rfl⟩ := List.mem_map.1 hname
      obtain ⟨v, -, rfl⟩ := List.mem_map.1 hw
      obtain ⟨w', hw', heq⟩ := List.mem_map.1 hrest
      obtain ⟨i, hi, path, hname⟩ := name_of_mem_layers hw'
      rw [heq] at hname
      have hsame : n = i := toString_injective (by simpa using (List.cons.inj (List.cons.inj (List.cons.inj hname).2).2).1)
      omega

theorem CausalWeights.names_nodup (weights : CausalWeights R) : (weights.named.map Prod.fst).Nodup := by
  rw [named, List.map_append, List.map_append, List.nodup_append, List.nodup_append]
  refine ⟨⟨List.nodup_singleton _, layers_names_nodup _ _, ?_⟩, ?_, ?_⟩
  · rintro name hname _ hlayer rfl
    obtain rfl := List.mem_singleton.1 hname
    obtain ⟨w, hw, heq⟩ := List.mem_map.1 hlayer
    obtain ⟨i, -, path, hname⟩ := name_of_mem_layers hw
    rw [heq] at hname
    simp at hname
  · simp [lm_head_weight]
  · rintro name hname _ hlast rfl
    rcases List.mem_append.1 hname with hname | hlayer
    · obtain rfl := List.mem_singleton.1 hname
      simp [lm_head_weight] at hlast
    · obtain ⟨w, hw, heq⟩ := List.mem_map.1 hlayer
      obtain ⟨i, -, path, hname⟩ := name_of_mem_layers hw
      rw [← heq, hname] at hlast
      simp [lm_head_weight] at hlast

/-- The record that a rank loads is what the loop and the copy after it leave under the names. -/
theorem CausalWeights.load_named {checkpoint part : CausalWeights R}
    (hlayers : checkpoint.layers.length ≤ config.num_hidden_layers)
    (hload : checkpoint.load config tp rank = .ok part) (data : DottedName → Tensor R) :
    ∃ data', (LlamaForCausalLM config).load_weights tp rank checkpoint.named data = .ok data' ∧
      ∀ w ∈ part.named, data' w.1 = w.2 := by
  unfold load at hload
  simp only [except_bind_ok] at hload
  obtain ⟨embed_tokens, hembed, layers, hmap, norm, hnorm, lm_head, hhead, hpart⟩ := hload
  obtain rfl := Except.ok.inj hpart
  -- before the copy the head has its own shard
  let loaded : CausalWeights R := ⟨embed_tokens, layers, norm, lm_head⟩
  have hparts : List.Forall₂ ((LlamaForCausalLM config).IsPart tp rank) checkpoint.named loaded.named := by
    refine List.rel_append (List.rel_append (.cons ?_ .nil) (layers_load_named ?_ hmap)) (.cons ?_ (.cons ?_ .nil))
    · exact ⟨rfl, rfl, _, _, rfl, load_parameter_ok hembed⟩
    · rw [Nat.zero_add]; exact hlayers
    · exact ⟨rfl, rfl, _, _, rfl, load_parameter_ok hnorm⟩
    · exact ⟨rfl, rfl, _, _, rfl, load_parameter_ok hhead⟩
  have hleft : ∀ v ∈ loaded.named, Scatter.run loaded.named data v.1 = v.2 := fun v hv =>
    Scatter.run_of_mem hv fun t ht => congrArg Prod.snd (List.inj_on_of_nodup_map loaded.names_nodup ht hv rfl)
  refine ⟨_, CausalLM.load_weights_eq (CausalLM.load_loop_parts hparts), fun w hw => ?_⟩
  rcases List.mem_append.1 hw with hbefore | hw
  · have hname : w.1 ≠ lm_head_weight := fun hname => by
      have hnodup := loaded.names_nodup
      rw [named, List.map_append, List.nodup_append] at hnodup
      exact hnodup.2.2 _ (List.mem_map_of_mem hbefore) lm_head_weight (by simp) hname
    rw [CausalLM.copy_embed_tokens_other fun h => hname h.2]
    exact hleft w (List.mem_append_left _ hbefore)
  · simp only [List.mem_cons, List.not_mem_nil, or_false] at hw
    rcases hw with rfl | rfl
    · rw [CausalLM.copy_embed_tokens_other fun h => absurd h.2 (by simp [lm_head_weight])]
      exact hleft (_, norm) (List.mem_append_right _ List.mem_cons_self)
    · cases htie : config.tie_word_embeddings with
      | true =>
        rw [CausalLM.copy_embed_tokens_head htie]
        exact hleft (_, embed_tokens) List.mem_cons_self
      | false =>
        rw [CausalLM.copy_embed_tokens_other fun h => absurd (htie.symm.trans h.1) (by decide)]
        exact hleft (_, lm_head) (List.mem_append_right _ (List.mem_cons_of_mem _ List.mem_cons_self))

end

end LMServe
