import LMServe.System

/-!
# Disaggregated serving (`router.rs`, `Controller::generate`)

With prefill nodes, a request is served twice: a prefill node generates its first token, and a
decode node continues from the prompt with that token appended. Each node applies the stop rule of
`Scheduler::update` to the request it is given. An engine is seen here from one sequence: a batch
either leaves the sequence alone, fills another chunk of it, or appends the model's next token.

`next_tokens` says what an engine generates, without sequences and batches; both nodes are compared
through it.
-/

namespace LMServe

/-- `GenerateResponse` of `llm.proto`, without the latencies. -/
structure GenerateResponse where
  session_id : Nat
  output_ids : List Nat
deriving DecidableEq, Repr

/-- The model's answer for a token prefix. -/
abbrev Model := List Nat → InferOutput

/-! ### The engine -/

namespace LLMEngine

variable (model : Model) (max_seq_len : Nat)

/-- The sequences of a request once they are admitted. -/
def admitted (request : GenerateRequest) : List Sequence :=
  (request.to_task 0 0).seqs.map ({ · with status := .Allocated })

/-- A batch that reaches the last token of the sequence, and its update. -/
def decode_step (seq : Sequence) : Sequence :=
  Scheduler.update_seq max_seq_len (AList.singleton seq.seq_id ⟨false⟩)
    (AList.singleton seq.seq_id (model seq.token_ids)) 0 seq

/-- Batches until the sequence is finished. -/
def decode : Nat → Sequence → Option Sequence
  | 0, _ => none
  | fuel + 1, seq =>
    let seq := decode_step model max_seq_len seq
    if seq.status = .Finished then some seq else decode fuel seq

/-- The response of one engine. An empty prompt is admitted but never dispatched, since it has no chunk to take,
so the call does not return. Otherwise `max_seq_len` bounds the
number of tokens and with it the batches (`exists_decode`). The samples of a model that is a
function of the prefix all have the same tokens, so it does not matter which one
`GenerateOutput::from_task` selects. -/
def generate (request : GenerateRequest) : Option GenerateResponse :=
  if request.input_ids.isEmpty then none
  else do
    let seq ← (admitted request).head?
    let seq ← decode model max_seq_len (max_seq_len + 1) seq
    some ⟨request.session_id, seq.get_output_ids⟩

end LLMEngine

/-! ### The router and the controller -/

namespace LlmRouter

variable (model : Model) (max_seq_len : Nat)

def route (request : GenerateRequest) : Option GenerateResponse :=
  LLMEngine.generate model max_seq_len request

/-- The reserve request of `forward` repeats the fields of the request, and the trigger starts the
sequence built from it. The blocks transferred in between change which tokens are computed again,
not which are generated. -/
def forward (request : GenerateRequest) : Option GenerateResponse :=
  LLMEngine.generate model max_seq_len
    { session_id := request.session_id
      input_ids := request.input_ids
      num_samples := request.num_samples
      max_output_len := request.max_output_len
      ignore_eos := request.ignore_eos
      disable_cache := request.disable_cache }

end LlmRouter

namespace Controller

variable (model : Model) (max_seq_len : Nat)

def generate (num_prefill_nodes : Nat) (request : GenerateRequest) : Option GenerateResponse :=
  if 0 < num_prefill_nodes then do
    let p_gen_req := { request with num_samples := 1, max_output_len := some 1 }
    let p_gen_res ← LlmRouter.route model max_seq_len p_gen_req
    let d_gen_req := { request with
      input_ids := request.input_ids ++ p_gen_res.output_ids
      max_output_len := request.max_output_len.map (· - 1) }
    let d_gen_res ← LlmRouter.forward model max_seq_len d_gen_req
    some { p_gen_res with output_ids := p_gen_res.output_ids ++ d_gen_res.output_ids }
  else LlmRouter.route model max_seq_len request

end Controller

/-! ### What an engine generates -/

section next_tokens
variable (model : Model) (max_seq_len : Nat)

/-- The stop rule of `Scheduler::update`, for a sequence that has just reached `output_len` generated
tokens and `total` tokens. -/
def stops (max_output_len : Option Nat) (ignore_eos is_eos : Bool) (output_len total : Nat) : Bool :=
  (!ignore_eos && is_eos) || (max_output_len.any (· ≤ output_len) || decide (max_seq_len ≤ total))

/-- The tokens generated after `token_ids`, `output_len` of which were generated already. -/
def next_tokens (max_output_len : Option Nat) (ignore_eos : Bool) :
    Nat → List Nat → Nat → List Nat
  | 0, _, _ => []
  | fuel + 1, token_ids, output_len =>
    let output := model token_ids
    output.output_id ::
      if stops max_seq_len max_output_len ignore_eos output.is_eos (output_len + 1)
        (token_ids.length + 1) then []
      else next_tokens max_output_len ignore_eos fuel (token_ids ++ [output.output_id])
        (output_len + 1)

variable {model max_seq_len}

theorem next_tokens_succ (max_output_len : Option Nat) (ignore_eos : Bool) (fuel : Nat)
    (token_ids : List Nat) (output_len : Nat) :
    next_tokens model max_seq_len max_output_len ignore_eos (fuel + 1) token_ids output_len =
      (model token_ids).output_id ::
        if stops max_seq_len max_output_len ignore_eos (model token_ids).is_eos (output_len + 1)
          (token_ids.length + 1) then []
        else next_tokens model max_seq_len max_output_len ignore_eos fuel
          (token_ids ++ [(model token_ids).output_id]) (output_len + 1) := rfl

theorem length_lt_of_not_stops {max_output_len : Option Nat} {ignore_eos is_eos : Bool}
    {output_len total : Nat}
    (h : ¬ stops max_seq_len max_output_len ignore_eos is_eos output_len total = true) :
    total < max_seq_len := by
  by_contra hge
  exact h (by simp [stops, Nat.not_lt.1 hge])

/-- Past the length limit more fuel changes nothing. -/
theorem next_tokens_fuel {max_output_len : Option Nat} {ignore_eos : Bool} :
    ∀ {fuel fuel' : Nat} {token_ids : List Nat} {output_len : Nat}, 0 < fuel → 0 < fuel' →
      max_seq_len ≤ token_ids.length + fuel → max_seq_len ≤ token_ids.length + fuel' →
      next_tokens model max_seq_len max_output_len ignore_eos fuel token_ids output_len =
        next_tokens model max_seq_len max_output_len ignore_eos fuel' token_ids output_len
  | fuel + 1, fuel' + 1, token_ids, output_len, _, _, h, h' => by
    simp only [next_tokens, List.cons.injEq, true_and]
    split
    · rfl
    · rename_i hstop
      have hlen := length_lt_of_not_stops hstop
      exact next_tokens_fuel (by omega) (by omega) (by simp; omega) (by simp; omega)

/-- Moving one generated token into the prompt and lowering the limit by one. -/
theorem stops_pred {max_output_len : Option Nat} {ignore_eos is_eos : Bool} {output_len total : Nat}
    (h : max_output_len ≠ some 0) :
    stops max_seq_len (max_output_len.map (· - 1)) ignore_eos is_eos output_len total =
      stops max_seq_len max_output_len ignore_eos is_eos (output_len + 1) total := by
  unfold stops
  congr 2
  cases max_output_len with
  | none => rfl
  | some limit =>
    have hpos : 0 < limit := Nat.pos_of_ne_zero fun h0 => h (by rw [h0])
    simp only [Option.map_some, Option.any_some, decide_eq_decide]
    omega

theorem next_tokens_pred {max_output_len : Option Nat} {ignore_eos : Bool}
    (h : max_output_len ≠ some 0) (fuel : Nat) :
    ∀ (token_ids : List Nat) (output_len : Nat),
      next_tokens model max_seq_len (max_output_len.map (· - 1)) ignore_eos fuel token_ids output_len =
        next_tokens model max_seq_len max_output_len ignore_eos fuel token_ids (output_len + 1) := by
  induction fuel with
  | zero => intro _ _; rfl
  | succ fuel ih =>
    intro token_ids output_len
    simp only [next_tokens, stops_pred h, ih]

end next_tokens

namespace LLMEngine
variable {model : Model} {max_seq_len : Nat}

theorem update_seq_output {running_batch : Table BatchEntry} {infer_outputs : Table InferOutput}
    {now : Nat} {seq : Sequence} (output : InferOutput) (entry : BatchEntry)
    (ho : infer_outputs.lookup seq.seq_id = some output)
    (he : running_batch.lookup seq.seq_id = some entry) (hc : entry.chunked = false) :
    Scheduler.update_seq max_seq_len running_batch infer_outputs now seq =
      { seq.append_output_id output.output_id output.prob output.output_word now with
        status := if stops max_seq_len seq.max_output_len seq.ignore_eos output.is_eos
          (seq.output_len + 1) (seq.token_ids.length + 1) then .Finished else seq.status } := by
  by_cases hs : stops max_seq_len seq.max_output_len seq.ignore_eos output.is_eos
    (seq.output_len + 1) (seq.token_ids.length + 1) = true
  · have hs' := hs
    unfold stops at hs'
    simp only [Scheduler.update_seq, ho, he, hc, Bool.false_eq_true, ↓reduceIte,
      Sequence.append_output_id, List.length_append, List.length_singleton, hs]
    exact if_pos hs'
  · have hs' := hs
    unfold stops at hs'
    simp only [Scheduler.update_seq, ho, he, hc, Bool.false_eq_true, ↓reduceIte,
      Sequence.append_output_id, List.length_append, List.length_singleton, hs]
    exact if_neg hs'

variable (model max_seq_len) in
/-- Decoding ends, with the tokens `next_tokens` appended. -/
theorem exists_decode (fuel : Nat) : ∀ seq : Sequence, 0 < fuel →
    max_seq_len ≤ seq.token_ids.length + fuel → seq.status = .Allocated →
    ∃ seq', decode model max_seq_len fuel seq = some seq' ∧ seq'.prompt_len = seq.prompt_len ∧
      seq'.token_ids = seq.token_ids ++ next_tokens model max_seq_len seq.max_output_len
        seq.ignore_eos fuel seq.token_ids seq.output_len := by
  induction fuel with
  | zero => intro _ h; exact absurd h (Nat.lt_irrefl 0)
  | succ fuel ih =>
    intro seq _ hfuel hst
    have hupd : decode_step model max_seq_len seq = _ := update_seq_output
      (model seq.token_ids) ⟨false⟩ (by simp [AList.singleton, AList.lookup])
      (by simp [AList.singleton, AList.lookup]) rfl
    simp only [decode, next_tokens, hupd]
    by_cases hs : stops max_seq_len seq.max_output_len seq.ignore_eos (model seq.token_ids).is_eos
      (seq.output_len + 1) (seq.token_ids.length + 1)
    · simp only [hs, ↓reduceIte]
      exact ⟨_, rfl, rfl, rfl⟩
    · have hlen := length_lt_of_not_stops hs
      have hne : ¬ (SeqStatus.Allocated = .Finished) := by decide
      simp only [hs, hst, hne, ↓reduceIte, Bool.false_eq_true]
      obtain ⟨seq', hdec, hprompt, htok⟩ := ih { seq.append_output_id
        (model seq.token_ids).output_id (model seq.token_ids).prob (model seq.token_ids).output_word 0
        with status := .Allocated } (by omega) (by simp [Sequence.append_output_id]; omega) rfl
      refine ⟨seq', hdec, hprompt, ?_⟩
      rw [htok]; simp [Sequence.append_output_id]

theorem admitted_one {request : GenerateRequest} (hs : request.num_samples = 1) :
    admitted request = [{ Sequence.new 0 request.session_id request.input_ids request.max_output_len
      request.ignore_eos request.disable_cache with status := .Allocated }] := by
  simp [admitted, GenerateRequest.to_task, hs]

theorem generate_eq (request : GenerateRequest) (hs : request.num_samples = 1)
    (h : request.input_ids ≠ []) :
    generate model max_seq_len request = some ⟨request.session_id,
      next_tokens model max_seq_len request.max_output_len request.ignore_eos (max_seq_len + 1)
        request.input_ids 0⟩ := by
  obtain ⟨seq', hdec, hprompt, htok⟩ := exists_decode model max_seq_len (max_seq_len + 1)
    { Sequence.new 0 request.session_id request.input_ids
      request.max_output_len request.ignore_eos request.disable_cache with status := .Allocated }
    (by omega) (by omega) rfl
  have hprompt' : seq'.prompt_len = request.input_ids.length := hprompt
  have htok' : seq'.token_ids = request.input_ids ++ _ := htok
  unfold generate
  rw [if_neg (by simpa using h), admitted_one hs]
  simp only [List.head?_cons, Option.bind_eq_bind, Option.bind_some, hdec, Sequence.get_output_ids,
    hprompt', htok', List.drop_left]
  rfl

theorem generate_nil {request : GenerateRequest} (h : request.input_ids = []) :
    generate model max_seq_len request = none := by
  unfold generate; rw [h]; rfl

/-! ### Any batching gives the same tokens -/

/-- One batch and its update as a sequence sees them: the sequence may be left out of the batch or be
given a chunk, and an output it is given for its last token is the model's. -/
def Batched (model : Model) (max_seq_len : Nat) (seq seq' : Sequence) : Prop :=
  seq.status = .Allocated ∧ ∃ running_batch infer_outputs now,
    (∀ entry output, running_batch.lookup seq.seq_id = some entry → entry.chunked = false →
      infer_outputs.lookup seq.seq_id = some output →
      output.output_id = (model seq.token_ids).output_id ∧
        output.is_eos = (model seq.token_ids).is_eos) ∧
    seq' = Scheduler.update_seq max_seq_len running_batch infer_outputs now seq

/-- What a sequence has generated when it is finished, and will have generated before. -/
def total_tokens (model : Model) (max_seq_len : Nat) (seq : Sequence) : List Nat :=
  seq.token_ids ++ if seq.status = .Finished then []
    else next_tokens model max_seq_len seq.max_output_len seq.ignore_eos (max_seq_len + 1)
      seq.token_ids seq.output_len

theorem Batched.total_tokens {seq seq' : Sequence} (h : Batched model max_seq_len seq seq') :
    total_tokens model max_seq_len seq' = total_tokens model max_seq_len seq ∧
      seq'.prompt_len = seq.prompt_len := by
  obtain ⟨hst, running_batch, infer_outputs, now, hmodel, rfl⟩ := h
  have hne : ¬ (SeqStatus.Allocated = .Finished) := by decide
  cases ho : infer_outputs.lookup seq.seq_id with
  | none => simp only [Scheduler.update_seq, ho]; trivial
  | some output =>
    cases he : running_batch.lookup seq.seq_id with
    | none => simp only [Scheduler.update_seq, ho, he]; trivial
    | some entry =>
      cases hc : entry.chunked with
      | true => simp only [Scheduler.update_seq, ho, he, hc, ↓reduceIte]; trivial
      | false =>
        obtain ⟨hid, heos⟩ := hmodel entry output he hc ho
        rw [update_seq_output output entry ho he hc]
        refine ⟨?_, rfl⟩
        by_cases hs : stops max_seq_len seq.max_output_len seq.ignore_eos
          (model seq.token_ids).is_eos (seq.output_len + 1) (seq.token_ids.length + 1)
        · simp [LLMEngine.total_tokens, Sequence.append_output_id, next_tokens, hid, heos, hs, hst]
        · have hlen := length_lt_of_not_stops hs
          have hfuel : next_tokens model max_seq_len seq.max_output_len seq.ignore_eos (max_seq_len + 1)
              (seq.token_ids ++ [(model seq.token_ids).output_id]) (seq.output_len + 1) =
              next_tokens model max_seq_len seq.max_output_len seq.ignore_eos max_seq_len _ _ :=
            next_tokens_fuel (by omega) (by omega) (by omega) (by omega)
          rw [LLMEngine.total_tokens, LLMEngine.total_tokens,
            next_tokens_succ _ _ _ seq.token_ids seq.output_len]
          simp [Sequence.append_output_id, hid, heos, hs, hst, hfuel]

theorem total_tokens_of_batches {seq₀ seq : Sequence}
    (h : Relation.ReflTransGen (Batched model max_seq_len) seq₀ seq) :
    total_tokens model max_seq_len seq = total_tokens model max_seq_len seq₀ ∧
      seq.prompt_len = seq₀.prompt_len := by
  induction h with
  | refl => exact ⟨rfl, rfl⟩
  | tail _ hstep ih =>
    have hinv := hstep.total_tokens
    exact ⟨hinv.1.trans ih.1, hinv.2.trans ih.2⟩

/-- However an engine batches and chunks the sequence of a request, what it has generated when the
sequence is finished is what `generate` returns. -/
theorem generate_of_batches {request : GenerateRequest} {seq₀ seq : Sequence}
    (hs : request.num_samples = 1) (hne : request.input_ids ≠ []) (h₀ : seq₀ ∈ admitted request)
    (h : Relation.ReflTransGen (Batched model max_seq_len) seq₀ seq)
    (hfin : seq.status = .Finished) :
    generate model max_seq_len request = some ⟨request.session_id, seq.get_output_ids⟩ := by
  rw [admitted_one hs, List.mem_singleton] at h₀
  have hinv := total_tokens_of_batches h
  have htok := hinv.1
  simp only [total_tokens, hfin, ↓reduceIte, List.append_nil] at htok
  rw [generate_eq _ hs hne, Sequence.get_output_ids, hinv.2, htok, h₀]
  simp [Sequence.new]

end LLMEngine

namespace Controller

/-- The first token generated for the request ends it. -/
def first_token_stops (model : Model) (max_seq_len : Nat) (request : GenerateRequest) : Prop :=
  (request.ignore_eos = false ∧ (model request.input_ids).is_eos = true) ∨
    request.max_output_len = some 0 ∨ request.max_output_len = some 1 ∨
    max_seq_len ≤ request.input_ids.length + 1

theorem first_token_stops_iff {model : Model} {max_seq_len : Nat} {request : GenerateRequest} :
    first_token_stops model max_seq_len request ↔
      stops max_seq_len request.max_output_len request.ignore_eos (model request.input_ids).is_eos 1
        (request.input_ids.length + 1) = true := by
  simp only [first_token_stops, stops, Bool.or_eq_true, Bool.and_eq_true, Bool.not_eq_true',
    decide_eq_true_eq]
  cases request.max_output_len with
  | none => simp
  | some limit =>
    simp only [Option.any_some, decide_eq_true_eq, Option.some.injEq]
    have : limit ≤ 1 ↔ limit = 0 ∨ limit = 1 := by omega
    tauto

/-- The response with prefill nodes: the first token, then what the decode node adds. -/
theorem generate_prefill {model : Model} {max_seq_len nodes : Nat} {request : GenerateRequest}
    (hn : 0 < nodes) (hs : request.num_samples = 1) (h : request.input_ids ≠ []) :
    let first := (model request.input_ids).output_id
    generate model max_seq_len nodes request = some ⟨request.session_id,
      first :: next_tokens model max_seq_len (request.max_output_len.map (· - 1)) request.ignore_eos
        (max_seq_len + 1) (request.input_ids ++ [first]) 0⟩ := by
  intro first
  have hp : LlmRouter.route model max_seq_len
      { request with num_samples := 1, max_output_len := some 1 } =
      some ⟨request.session_id, [first]⟩ := by
    refine (LLMEngine.generate_eq { request with num_samples := 1, max_output_len := some 1 }
      rfl h).trans ?_
    simp [next_tokens, stops, first]
  have hd : LlmRouter.forward model max_seq_len
      { request with
        input_ids := request.input_ids ++ [first]
        max_output_len := request.max_output_len.map (· - 1) } = _ :=
    LLMEngine.generate_eq _ hs (by simp)
  simp only [generate, hn, ↓reduceIte, hp, Option.bind_eq_bind, Option.bind_some, hd]
  rfl

/-- Serving a request on a prefill and a decode node gives the response of a single node exactly if
the first token does not end the request; for an empty prompt neither returns. -/
theorem generate_prefill_eq_iff (model : Model) (max_seq_len nodes : Nat) (hn : 0 < nodes)
    (request : GenerateRequest) (hs : request.num_samples = 1) :
    generate model max_seq_len nodes request = generate model max_seq_len 0 request ↔
      request.input_ids = [] ∨ ¬ first_token_stops model max_seq_len request := by
  by_cases hnil : request.input_ids = []
  · have hp : LlmRouter.route model max_seq_len
        { request with num_samples := 1, max_output_len := some 1 } = none :=
      LLMEngine.generate_nil hnil
    have hmono : LlmRouter.route model max_seq_len request = none := LLMEngine.generate_nil hnil
    simp only [generate, hn, ↓reduceIte, hp, hmono, Nat.lt_irrefl, Option.bind_eq_bind,
      Option.bind_none, true_iff]
    exact .inl hnil
  · have hmono : generate model max_seq_len 0 request = _ := LLMEngine.generate_eq _ hs hnil
    rw [generate_prefill hn hs hnil, hmono, first_token_stops_iff,
      next_tokens_succ _ _ _ request.input_ids 0]
    simp only [hnil, false_or, Option.some.injEq, GenerateResponse.mk.injEq, true_and,
      List.cons.injEq, Nat.zero_add]
    by_cases hstop : stops max_seq_len request.max_output_len request.ignore_eos
      (model request.input_ids).is_eos 1 (request.input_ids.length + 1) = true
    · -- the decode node generates at least one token more
      simp [hstop, next_tokens]
    · have hzero : request.max_output_len ≠ some 0 := fun h0 => hstop (by simp [stops, h0])
      have hlen := length_lt_of_not_stops hstop
      simp only [hstop, not_false_eq_true, Bool.false_eq_true, ↓reduceIte, iff_true]
      rw [next_tokens_pred hzero]
      exact next_tokens_fuel (by omega) (by omega) (by omega) (by omega)

/-- A model that counts on from the last token and ends with `9`. -/
def counting : Model := fun token_ids =>
  let next := token_ids.getLastD 0 + 1
  ⟨next, 1, "", decide (next = 9)⟩

theorem generate_prefill_eq_counting :
    let request : GenerateRequest := ⟨0, [4, 5], 1, some 3, false, false⟩
    generate counting 64 1 request = generate counting 64 0 request ∧
      generate counting 64 0 request = some ⟨0, [6, 7, 8]⟩ := by
  refine ⟨(generate_prefill_eq_iff counting 64 1 (by decide) _ rfl).2 (.inr ?_), by decide +kernel⟩
  simp [first_token_stops, counting]

/-- A request for a single token gets two from a pair of nodes. -/
theorem generate_prefill_ne_limit_one :
    let request : GenerateRequest := ⟨0, [4, 5], 1, some 1, false, false⟩
    generate counting 64 1 request ≠ generate counting 64 0 request ∧
      generate counting 64 0 request = some ⟨0, [6]⟩ ∧
      generate counting 64 1 request = some ⟨0, [6, 7]⟩ := by
  decide +kernel

end Controller

end LMServe
