import LMServe.Coverage

/-!
# What a batch hands out

`dispatch` takes the sequences in status `Allocated` in queue order and builds at most one input for each, as long
as there is room in the batch and a token left in the budget. Every input is the chunk of its sequence that
begins at the fill level on the GPU, or with the last token, and the entry of the batch says whether tokens are
left behind it.
-/

namespace LMServe
open Hoare Chunk BlockManager

/-- `x` carries the tokens of `seq` from `filled_token_len` up to `context_len`. -/
structure InferInput.ChunkOf (x : InferInput) (seq : Sequence) : Prop where
  seq_id : x.seq_id = seq.seq_id
  pos : 1 ≤ x.input_len
  context_len : x.context_len = x.filled_token_len + x.input_len
  le_tokens : x.context_len ≤ seq.token_ids.length
  input_ids : x.input_ids = slice seq.token_ids x.filled_token_len x.context_len

namespace Scheduler

/-- The sequences that `dispatch` goes through. -/
def candidates (s : Scheduler) : List Sequence := s.allocated.flatMap (·.get_seqs .Allocated)

theorem mem_candidates {s : Scheduler} {seq : Sequence} :
    seq ∈ s.candidates ↔ ∃ t ∈ s.allocated, seq ∈ t.seqs ∧ seq.status = .Allocated := by
  simp [candidates, InferTask.get_seqs]

theorem candidates_congr {s s' : Scheduler} (h : s'.allocated = s.allocated) : s'.candidates = s.candidates := by
  rw [candidates, h, candidates]

/-- No two of them have an id in common, if no two sequences of the queues have. -/
theorem candidates_nodup {s : Scheduler} (h : ((keys s.allocated).map Prod.fst).Nodup) :
    (s.candidates.map (·.seq_id)).Nodup := by
  have hsub : (s.candidates.map (·.seq_id)).Sublist ((keys s.allocated).map Prod.fst) := by
    unfold candidates keys
    rw [List.map_flatMap, List.map_flatMap]
    induction s.allocated with
    | nil => exact .slnil
    | cons t l ih =>
      have hkeys : t.keys.map Prod.fst = t.seqs.map (·.seq_id) := List.map_map
      have hhead : ((t.get_seqs .Allocated).map (·.seq_id)).Sublist (t.keys.map Prod.fst) := by
        rw [hkeys]
        exact List.filter_sublist.map _
      exact hhead.append ih
  exact hsub.nodup h

theorem chunk_of (s : Scheduler) (seq : Sequence) {token_budget : Nat} (ids : List Nat)
    (hlen : 0 < s.chunk_len seq token_budget) : (s.chunk_input seq token_budget ids).ChunkOf seq where
  seq_id := rfl
  pos := by
    show 1 ≤ (slice seq.token_ids _ _).length
    rw [s.length_chunk]
    exact hlen
  context_len := congrArg (s.chunk_start seq + ·) (s.length_chunk seq token_budget).symm
  le_tokens := by
    show s.chunk_start seq + s.chunk_len seq token_budget ≤ _
    unfold chunk_len chunk_start
    omega
  input_ids := rfl

/-! ### At every point of the loop -/

/-- What `acc` owes to the sequences `dispatch` has gone through, `rest` being those it has not. -/
structure Handed (σ : Scheduler) (rest : List Sequence) (acc : Batch) : Prop where
  order : (acc.infer_inputs.map (·.seq_id) ++ rest.map (·.seq_id)).Sublist (σ.candidates.map (·.seq_id))
  rest : rest ⊆ σ.candidates
  keys : acc.running_batch.keys.Perm (acc.infer_inputs.map (·.seq_id))
  number : acc.infer_inputs.length ≤ σ.max_batch_size
  tokens : (acc.infer_inputs.map (·.input_len)).sum + acc.token_budget = σ.max_num_batched_tokens
  chunks : ∀ x ∈ acc.infer_inputs, ∃ seq ∈ σ.candidates, x.ChunkOf seq ∧
    acc.running_batch.lookup x.seq_id = some ⟨x.context_len < seq.token_ids.length⟩

section
variable {σ s s' : Scheduler} {seq : Sequence} {rest : List Sequence} {acc acc' : Batch}

theorem Handed.fetched (h : Handed σ (seq :: rest) acc) {fetch : List BlockMapping} :
    Handed σ (seq :: rest) { acc with fetch_block_mappings := fetch } := ⟨h.1, h.2, h.3, h.4, h.5, h.6⟩

theorem Handed.input (hnd : (σ.candidates.map (·.seq_id)).Nodup) (h : Handed σ (seq :: rest) acc)
    (hroom : acc.running_batch.entries.length < σ.max_batch_size)
    (hrun : dispatch_input seq acc s = .ok acc' s') : Handed σ rest acc' := by
  have hrest : rest ⊆ σ.candidates := fun x hx => h.rest (List.mem_cons_of_mem _ hx)
  rcases dispatch_input_ok hrun with ⟨rfl, -, -⟩ | ⟨ids, k, s₁, write_through, hpos, -, -, -, rfl⟩
  · exact ⟨(List.Sublist.append_left (List.sublist_cons_self _ _) _).trans h.order, hrest, h.keys, h.number,
      h.tokens, h.chunks⟩
  · have hdistinct := h.order.nodup hnd
    have hfresh : seq.seq_id ∉ acc.infer_inputs.map (·.seq_id) := fun hmem =>
      (List.nodup_append.1 hdistinct).2.2 _ hmem _ List.mem_cons_self rfl
    have hnew : seq.seq_id ∉ acc.running_batch := fun hmem => hfresh (h.keys.mem_iff.1 hmem)
    have hnumber : acc.running_batch.entries.length = acc.infer_inputs.length := by
      have := h.keys.length_eq
      simpa [AList.keys, List.keys] using this
    refine ⟨?_, hrest, ?_, ?_, ?_, fun x hx => ?_⟩
    · simpa [chunk_input, InferInput.new] using h.order
    · show (acc.running_batch.insert seq.seq_id _).keys.Perm _
      rw [AList.keys_insert, List.erase_of_not_mem (fun hmem => hnew hmem), List.map_append]
      exact (h.keys.cons _).trans (List.perm_append_singleton _ _).symm
    · rw [List.length_append, List.length_singleton]
      omega
    · have hlen := s.length_chunk seq acc.token_budget
      have hle : s.chunk_len seq acc.token_budget ≤ acc.token_budget := Nat.min_le_right _ _
      have htokens := h.tokens
      simp only [chunk_input, InferInput.new, List.map_append, List.sum_append, List.map_cons, List.map_nil,
        List.sum_singleton, hlen]
      omega
    · rcases List.mem_append.1 hx with hx | hx
      · obtain ⟨seq', hseq', hchunk, hentry⟩ := h.chunks x hx
        refine ⟨seq', hseq', hchunk, ?_⟩
        rw [Table.lookup_insert_eq, if_neg]
        · exact hentry
        · rintro hid
          exact hfresh (hid ▸ List.mem_map.2 ⟨x, hx, rfl⟩)
      · obtain rfl := List.mem_singleton.1 hx
        refine ⟨seq, h.rest List.mem_cons_self, s.chunk_of seq ids hpos, ?_⟩
        exact (Table.lookup_insert_eq ..).trans (if_pos rfl)

theorem LoopAt.control (h : LoopAt σ rest acc s) : s.control = σ.control := by
  induction h with
  | start => rfl
  | next _ _ hfetch hinput ih =>
    exact ((dispatch_input_keeps _ _).of_ok hinput).trans (((plan_copy_keeps _ _ _ _ _).of_ok hfetch).trans ih)

theorem LoopAt.handed (hnd : (σ.candidates.map (·.seq_id)).Nodup) (h : LoopAt σ rest acc s) :
    Handed σ rest acc := by
  induction h with
  | start => exact ⟨List.Sublist.refl _, List.Subset.refl _, .nil, Nat.zero_le _, Nat.zero_add _, nofun⟩
  | @next seq rest acc acc' fetch s s₁ s₂ hat hgo hfetch hinput ih =>
    have hsize : s.max_batch_size = σ.max_batch_size := by
      have := (control_eq hat.control).2.2.2
      simp only [settings, Prod.mk.injEq] at this
      exact this.1
    exact ih.fetched.input hnd (by rw [← hsize]; exact Nat.lt_of_not_le fun hle => hgo (.inl hle)) hinput

end

/-! ### The batch -/

/-- The batch keeps to the limits of `c`, and its inputs are chunks of distinct sequences in status `Allocated`
of the scheduler `σ` it leaves behind. -/
structure Budgeted (c : SchedulerConfig) (σ : Scheduler) (batch : Batch) : Prop where
  distinct : (batch.infer_inputs.map (·.seq_id)).Nodup
  number : batch.infer_inputs.length ≤ c.max_batch_size
  tokens : (batch.infer_inputs.map (·.input_len)).sum ≤ c.max_num_batched_tokens
  stored : σ.running_batch = batch.running_batch
  keys : batch.running_batch.keys.Perm (batch.infer_inputs.map (·.seq_id))
  chunks : ∀ x ∈ batch.infer_inputs, ∃ t ∈ σ.allocated, ∃ seq ∈ t.seqs, seq.status = .Allocated ∧ x.ChunkOf seq ∧
    ∃ entry, batch.running_batch.lookup x.seq_id = some entry ∧
      (entry.chunked = true ↔ x.context_len < seq.token_ids.length)

section
variable [Hasher] [Watch] {s σ : Scheduler} {batch : Batch}

theorem schedule_ok (h : schedule s = .ok batch σ) : ∃ σ₁ s₁ rest, phases s = .ok .unit σ₁ ∧
    LoopAt σ₁ rest batch s₁ ∧ σ = { s₁ with running_batch := batch.running_batch } := by
  rw [schedule_eq] at h
  obtain ⟨_, σ₁, hphases, h⟩ := bind_ok.1 h
  obtain ⟨batch', s₁, hdispatch, h⟩ := bind_ok.1 h
  obtain ⟨_, s₂, hmod, h⟩ := bind_ok.1 h
  obtain rfl : { s₁ with running_batch := batch'.running_batch } = s₂ := by simpa using hmod
  obtain ⟨rfl, rfl⟩ : batch' = batch ∧ _ = σ := by simpa using h
  obtain ⟨rest, hat⟩ := LoopAt.start.of_dispatch_loop (get_ok hdispatch)
  exact ⟨σ₁, s₁, rest, hphases, hat, rfl⟩

theorem schedule_keys (h : schedule s = .ok batch σ) :
    (LMServe.keys (σ.waiting ++ σ.allocated)).Subperm (LMServe.keys (s.waiting ++ s.allocated)) := by
  refine keys_subperm_of_tally fun a => ?_
  rw [tally_append, tally_append]
  exact ((schedule_tally h).2.2 a).1

theorem candidates_nodup_of_schedule (hnd : ((LMServe.keys (s.waiting ++ s.allocated)).map Prod.fst).Nodup)
    (h : schedule s = .ok batch σ) : (σ.candidates.map (·.seq_id)).Nodup := by
  obtain ⟨l, hl, hsub⟩ := schedule_keys h
  have hall := (hl.map Prod.fst).nodup_iff.1 ((hsub.map Prod.fst).nodup hnd)
  rw [keys_append, List.map_append] at hall
  exact candidates_nodup (List.nodup_append.1 hall).2.1

theorem schedule_budgeted {c : SchedulerConfig} (hsettings : s.settings = (new c).settings)
    (hnd : ((LMServe.keys (s.waiting ++ s.allocated)).map Prod.fst).Nodup) (h : schedule s = .ok batch σ) :
    Budgeted c σ batch := by
  have hnd' := candidates_nodup_of_schedule hnd h
  have hset := (schedule_tally h).2.1.trans hsettings
  obtain ⟨σ₁, s₁, rest, -, hat, rfl⟩ := schedule_ok h
  obtain ⟨-, hA, -, hS⟩ := control_eq hat.control
  have hsame : σ₁.settings = (new c).settings := hS.symm.trans hset
  simp only [settings, new, Prod.mk.injEq] at hsame
  have hA' : ({ s₁ with running_batch := batch.running_batch } : Scheduler).allocated = σ₁.allocated := hA
  rw [candidates_congr hA'] at hnd'
  have hhanded := hat.handed hnd'
  have hdistinct := hhanded.order.nodup hnd'
  refine ⟨(List.nodup_append.1 hdistinct).1, hsame.1 ▸ hhanded.number, ?_, rfl, hhanded.keys, fun x hx => ?_⟩
  · have := hhanded.tokens
    omega
  · obtain ⟨seq, hseq, hchunk, hentry⟩ := hhanded.chunks x hx
    obtain ⟨t, ht, hmem, hstatus⟩ := mem_candidates.1 hseq
    exact ⟨t, hA'.symm ▸ ht, seq, hmem, hstatus, hchunk, _, hentry, by simp⟩

end

end Scheduler

end LMServe
