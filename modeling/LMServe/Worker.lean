import LMServe.SystemSteps
import LMServe.Watching

/-!
# What a worker makes of an input (`model_worker.py`)

The worker gets the block ids, the filled length and the context length of each sequence in the
batch. Attention works on the length rebuilt from the number of blocks and the fill of the last one
(`flashinfer.get_seq_lens`), and new keys and values are appended at the positions counted back from
it (`get_batch_indices_positions`); rotary embeddings use the positions the scheduler sent. The two
agree unless the chunk ends on a block boundary before the last allocated slot: there
`get_block_ids_range` adds the block behind the boundary as a partial one.
-/

namespace LMServe
open Hoare Chunk BlockManager

namespace InferInput

/-- `last_block_len` of `_make_inputs`. -/
def last_block_len (page_size : Nat) (x : InferInput) : Nat := (x.context_len - 1) % page_size + 1

/-- The length `flashinfer.get_seq_lens` computes from the number of blocks and `last_block_len`. -/
def seq_len (page_size : Nat) (x : InferInput) : Nat :=
  (x.block_ids.length - 1) * page_size + x.last_block_len page_size

/-- The positions `get_batch_indices_positions` computes for the new tokens. -/
def append_positions (page_size : Nat) (x : InferInput) : List Int :=
  (List.range x.input_len).map fun i => (x.seq_len page_size : Int) - x.input_len + i

/-- `range(cache_seqlen, seqlen_k)` -/
def position_ids (x : InferInput) : List Int :=
  (List.range (x.context_len - x.filled_token_len)).map fun i => (x.filled_token_len : Int) + i

/-- Scheduler and worker agree on the context. -/
structure Agrees (page_size : Nat) (x : InferInput) : Prop where
  num_blocks : x.block_ids.length = div_ceil x.context_len page_size
  seq_len : x.seq_len page_size = x.context_len
  positions : x.append_positions page_size = x.position_ids

/-- What `dispatch` makes of a sequence with `slots` allocated slots. -/
structure Emitted (block_size slots : Nat) (x : InferInput) : Prop where
  pos : 0 < x.input_len
  context : x.context_len = x.filled_token_len + x.input_len
  context_le : x.context_len ≤ slots
  num_blocks : x.block_ids.length = min (x.context_len / block_size + 1) (div_ceil slots block_size)

section
variable {bs slots : Nat} {x : InferInput}

theorem seq_len_of_num_blocks (hbs : 0 < bs) (hpos : 0 < x.context_len)
    (h : x.block_ids.length = div_ceil x.context_len bs) : x.seq_len bs = x.context_len := by
  unfold seq_len last_block_len
  rw [h, div_ceil_eq_succ hbs hpos, Nat.add_sub_cancel]
  have := Nat.div_add_mod (x.context_len - 1) bs
  rw [Nat.mul_comm] at this
  omega

theorem append_positions_eq (hctx : x.context_len = x.filled_token_len + x.input_len)
    (h : x.seq_len bs = x.context_len) : x.append_positions bs = x.position_ids := by
  unfold append_positions position_ids
  rw [h, hctx, Nat.add_sub_cancel_left]
  refine List.map_congr_left fun i _ => ?_
  push_cast; omega

/-- The two sides agree except at a block boundary inside the allocated slots. -/
theorem Emitted.agrees_iff (hbs : 0 < bs) (h : Emitted bs slots x) :
    Agrees bs x ↔ ¬ (bs ∣ x.context_len ∧ x.context_len < slots) := by
  have hpos : 0 < x.context_len := by have := h.pos; have := h.context; omega
  have hceil := div_ceil_eq_div (a := x.context_len) hbs
  have hle := div_ceil_mono hbs h.context_le
  constructor
  · rintro hagree ⟨hdvd, hlt⟩
    -- one block too many
    rw [if_pos hdvd, Nat.add_zero] at hceil
    have hmul : x.context_len / bs * bs = x.context_len := Nat.div_mul_cancel hdvd
    have hmore : x.context_len / bs < div_ceil slots bs := by
      rw [lt_div_ceil_iff hbs, hmul]; exact hlt
    have h1 := h.num_blocks
    have h2 := hagree.num_blocks
    omega
  · intro hcond
    have hnum : x.block_ids.length = div_ceil x.context_len bs := by
      rw [h.num_blocks]
      by_cases hdvd : bs ∣ x.context_len
      · have hslots : x.context_len = slots := by
          have := h.context_le
          by_contra hne
          exact hcond ⟨hdvd, by omega⟩
        rw [← hslots] at hle ⊢
        rw [if_pos hdvd] at hceil
        omega
      · rw [if_neg hdvd] at hceil
        omega
    have hlen := seq_len_of_num_blocks hbs hpos hnum
    exact ⟨hnum, hlen, append_positions_eq h.context hlen⟩

end

end InferInput

/-! ### Dispatch -/

/-- The block size, and the blocks and slots of each sequence: what dispatch reads and does not
change. -/
def BlockManager.layout (m : BlockManager) : Nat × (Nat → Option (List Nat × Nat)) :=
  (m.block_size, fun i => (m.get_block_map i).map fun b => (b.block_ids, b.num_allocated_slots))

theorem BlockManager.update_filled_len_layout (i len : Nat) :
    Keeps layout (update_filled_len i len) := by
  intro m
  unfold update_filled_len
  rw [bind_apply, get_apply]
  dsimp only
  cases hm : m.get_block_map i with
  | none => rfl
  | some b =>
    by_cases hle : len ≤ b.num_allocated_slots
    · simp only [hle, ↓reduceIte, modify_apply]
      refine Prod.ext rfl (funext fun j => ?_)
      show (BlockManager.get_block_map (m.set_block_map i _) j).map _ = (m.get_block_map j).map _
      rw [get_block_map_set_block_map]
      split
      · rename_i hj; rw [hj, hm]; rfl
      · rfl
    · simp only [hle, ↓reduceIte, throw_apply]

theorem BlockManager.update_filled_len_le {i len : Nat} {m m' : BlockManager} {b : BlockMap}
    (h : update_filled_len i len m = .ok .unit m') (hb : m.get_block_map i = some b) :
    len ≤ b.num_allocated_slots := by
  unfold update_filled_len at h
  rw [bind_apply, get_apply] at h
  by_contra hle
  simp [hb, hle] at h

namespace Scheduler

def gpu_layout (s : Scheduler) : Nat × (Nat → Option (List Nat × Nat)) := s.gpu_block_manager.layout

theorem update_filled_len_layout (d : Device) (i len : Nat) :
    Keeps gpu_layout (on_device d (BlockManager.update_filled_len i len)) := by
  intro s
  have h := BlockManager.update_filled_len_layout i len (s.get_block_manager d)
  unfold on_device zoom
  cases hrun : BlockManager.update_filled_len i len (s.get_block_manager d) with
  | ok _ m => rw [hrun] at h; cases d <;> first | exact h | rfl
  | error _ m => rw [hrun] at h; cases d <;> first | exact h | rfl

theorem plan_copy_layout (seq : Sequence) (d d' : Device) (p : Bool) (l : List BlockMapping) :
    Keeps gpu_layout (plan_copy seq d d' p l) := by
  refine Keeps.get.bind fun s => ?_
  split
  · exact (update_filled_len_layout _ _ _).bind fun _ => Keeps.pure _
  · exact Keeps.pure _

theorem dispatch_input_layout (seq : Sequence) (acc : Batch) :
    Keeps gpu_layout (dispatch_input seq acc) := by
  refine Keeps.get.bind fun s => Keeps.ite ?_ (Keeps.pure _)
  split
  · exact Keeps.pure _
  · refine (update_filled_len_layout _ _ _).bind fun _ => ?_
    exact (plan_copy_layout _ _ _ _ _).bind fun _ => Keeps.pure _

theorem dispatch_loop_layout (seqs : List Sequence) (acc : Batch) :
    Keeps gpu_layout (dispatch_loop seqs acc) := by
  induction seqs generalizing acc with
  | nil => exact Keeps.pure _
  | cons seq seqs ih =>
    refine Keeps.get.bind fun s => Keeps.ite (Keeps.pure _) ?_
    refine (plan_copy_layout _ _ _ _ _).bind fun _ => ?_
    exact (dispatch_input_layout _ _).bind fun _ => ih _

/-- `dispatch`, begun in `σ`, comes to the sequences `seqs` with `acc`. -/
inductive LoopAt (σ : Scheduler) : List Sequence → Batch → Scheduler → Prop where
  | start : LoopAt σ (σ.allocated.flatMap (·.get_seqs .Allocated)) ⟨σ.max_num_batched_tokens, ∅, [], [], []⟩ σ
  | next {seq : Sequence} {rest : List Sequence} {acc acc' : Batch} {fetch : List BlockMapping} {s s₁ s₂ : Scheduler}
      (at_seq : LoopAt σ (seq :: rest) acc s)
      (goes_on : ¬ (s.max_batch_size ≤ acc.running_batch.entries.length ∨ acc.token_budget = 0))
      (fetched : plan_copy seq .Host .Gpu true acc.fetch_block_mappings s = .ok fetch s₁)
      (built : dispatch_input seq { acc with fetch_block_mappings := fetch } s₁ = .ok acc' s₂) : LoopAt σ rest acc' s₂

/-- In a scheduling round begun in `σ`, `dispatch` builds the input of `seq` in `s`, with this much of the budget
left. -/
inductive Builds [Hasher] [Watch] (σ : Scheduler) (seq : Sequence) (token_budget : Nat) (s : Scheduler) : Prop where
  | intro {σ₁ s₁ : Scheduler} {rest : List Sequence} {acc : Batch} {fetch : List BlockMapping}
      (phases_ok : phases σ = .ok .unit σ₁)
      (at_seq : LoopAt σ₁ (seq :: rest) acc s₁)
      (goes_on : ¬ (s₁.max_batch_size ≤ acc.running_batch.entries.length ∨ acc.token_budget = 0))
      (fetched : plan_copy seq .Host .Gpu true acc.fetch_block_mappings s₁ = .ok fetch s)
      (budget : acc.token_budget = token_budget)

/-- An input that fits the layout. -/
def Fits (l : Nat × (Nat → Option (List Nat × Nat))) (x : InferInput) : Prop :=
  ∃ ids slots, l.2 x.seq_id = some (ids, slots) ∧ 0 < x.input_len ∧
    x.context_len = x.filled_token_len + x.input_len ∧ x.context_len ≤ slots ∧
    x.block_ids.length = min (x.context_len / l.1 + 1) ids.length

theorem get_block_ids_range_zero {m : BlockManager} {i stop k : Nat} {ids : List Nat}
    (h : m.get_block_ids_range i 0 stop true = some (ids, k)) :
    ∃ b, m.get_block_map i = some b ∧ ids.length = min (stop / m.block_size + 1) b.block_ids.length := by
  unfold get_block_ids_range at h
  simp only [Nat.zero_div, Bool.toNat_true] at h
  rw [if_neg (Nat.not_le.2 (Nat.succ_pos _))] at h
  cases hb : m.get_block_map i with
  | none => simp only [hb] at h; cases h
  | some b =>
    simp only [hb] at h
    split at h
    · cases h
    · simp only [Option.some.injEq, Prod.mk.injEq] at h
      refine ⟨b, rfl, ?_⟩
      rw [← h.1, length_slice, Nat.sub_zero]
      exact Nat.min_eq_left (Nat.min_le_right _ _)

theorem dispatch_input_fits {seq : Sequence} {acc acc' : Batch} {s s' : Scheduler}
    (h : dispatch_input seq acc s = .ok acc' s') :
    ∀ x ∈ acc'.infer_inputs, x ∈ acc.infer_inputs ∨
      (∃ ids, x = s.chunk_input seq acc.token_budget ids) ∧ Fits s.gpu_layout x := by
  intro x hx
  rcases dispatch_input_ok h with ⟨rfl, -, -⟩ | ⟨ids, k, s₁, wt, hpos, hrange, hfill, -, rfl⟩
  · exact .inl hx
  · simp only [List.mem_append, List.mem_singleton] at hx
    refine hx.imp id fun hx => ⟨⟨ids, hx⟩, ?_⟩
    obtain ⟨b, hb, hids⟩ := get_block_ids_range_zero hrange
    obtain ⟨m', hm', -⟩ := on_device_ok hfill
    have hle := BlockManager.update_filled_len_le hm' hb
    have hlen : x.input_len = s.chunk_len seq acc.token_budget := by
      rw [hx]; exact s.length_chunk seq acc.token_budget
    refine ⟨b.block_ids, b.num_allocated_slots, ?_, ?_, ?_, ?_, ?_⟩
    · rw [hx]; simp [gpu_layout, BlockManager.layout, chunk_input, InferInput.new, hb]
    · rw [hlen]; exact hpos
    · rw [hlen, hx]; rfl
    · rw [hx]; exact hle
    · rw [hx]; exact hids

section
variable [Hasher] [Watch] {s σ s' : Scheduler} {batch : Batch}

theorem dispatch_loop_fits (hσ : phases s = .ok .unit σ) (seqs : List Sequence) : ∀ {acc acc' : Batch} {s₁ : Scheduler},
    LoopAt σ seqs acc s₁ → dispatch_loop seqs acc s₁ = .ok acc' s' →
    ∀ x ∈ acc'.infer_inputs, x ∈ acc.infer_inputs ∨ ∃ seq token_budget s₂ ids, s.Builds seq token_budget s₂ ∧
      x = s₂.chunk_input seq token_budget ids ∧ s₂.gpu_layout = s'.gpu_layout ∧ Fits s'.gpu_layout x := by
  induction seqs with
  | nil =>
    intro acc acc' s₁ hat h x hx
    obtain ⟨rfl, -⟩ : acc = acc' ∧ _ := by simpa [dispatch_loop] using h
    exact .inl hx
  | cons seq seqs ih =>
    intro acc acc' s₁ hat h x hx
    obtain ⟨_, _, hget, h⟩ := bind_ok.1 h
    obtain ⟨rfl, rfl⟩ : _ ∧ _ := by simpa using hget
    split at h
    · obtain ⟨rfl, -⟩ : acc = acc' ∧ _ := by simpa using h
      exact .inl hx
    · rename_i hgoes
      obtain ⟨fetch, s₂, hcopy, h⟩ := bind_ok.1 h
      obtain ⟨acc₁, s₃, hin, h⟩ := bind_ok.1 h
      rcases ih (hat.next hgoes hcopy hin) h x hx with hx | hx
      · refine (dispatch_input_fits hin x hx).imp id ?_
        rintro ⟨⟨ids, hids⟩, hfits⟩
        have hlayout : s₂.gpu_layout = s'.gpu_layout := by
          rw [(dispatch_loop_layout _ _).of_ok h, (dispatch_input_layout _ _).of_ok hin]
        exact ⟨seq, _, s₂, ids, .intro hσ hat hgoes hcopy rfl, hids, hlayout, hlayout ▸ hfits⟩
      · exact .inr hx

/-- Every input of a batch is built on the way and fits the layout the scheduling round leaves. -/
theorem schedule_fits (h : schedule s = .ok batch s') :
    ∀ x ∈ batch.infer_inputs, ∃ seq token_budget s₂ ids, s.Builds seq token_budget s₂ ∧
      x = s₂.chunk_input seq token_budget ids ∧ s₂.gpu_layout = s'.gpu_layout ∧ Fits s'.gpu_layout x := by
  intro x hx
  rw [schedule_eq] at h
  obtain ⟨_, s₁, hphases, h⟩ := bind_ok.1 h
  obtain ⟨batch', s₃, hdis, h⟩ := bind_ok.1 h
  obtain ⟨_, s₄, hmod, h⟩ := bind_ok.1 h
  obtain rfl : { s₃ with running_batch := batch'.running_batch } = s₄ := by simpa using hmod
  obtain ⟨rfl, rfl⟩ : batch' = batch ∧ _ = s' := by simpa using h
  obtain ⟨_, _, hget, hdis⟩ := bind_ok.1 hdis
  obtain ⟨rfl, rfl⟩ : _ ∧ _ := by simpa using hget
  exact (dispatch_loop_fits hphases _ .start hdis x hx).resolve_left (by simp)

end

end Scheduler

/-! ### Reachable states -/

namespace System

section
variable [Hasher] {c : SchedulerConfig}

/-- The GPU page tables of a reachable state; nothing is asked of the hash function. -/
theorem reachable_gpu {s : System} (h : Reachable c s) :
    ∃ tok, SysInv SameLength AnyPrefix (· = .Gpu) c tok s := by
  obtain ⟨ops, hrun⟩ := h
  refine SysInv.run (TokenRel.lengths _) (fun d hd hne => absurd hd hne)
    (hrun.mono fun s op s' hs => ⟨hs, ?_⟩)
  exact fun _ _ _ _ _ => trivial

/-- Scheduler and worker agree on an input exactly when its chunk, as the state in which `dispatch` comes to the
sequence has it, does not end on a block boundary before the last slot allocated to the sequence. -/
theorem dispatched_agrees_iff {s : System} (h : Reachable c s) {batch : Scheduler.Batch}
    {σ : Scheduler} (hrun : Scheduler.schedule s.scheduler = .ok batch σ) {x : InferInput}
    (hx : x ∈ batch.infer_inputs) :
    (∃ seq token_budget σ₁, s.scheduler.Builds seq token_budget σ₁ ∧
      x = σ₁.chunk_input seq token_budget x.block_ids ∧ (x.Agrees c.block_size ↔
        ¬ (c.block_size ∣ σ₁.chunk_start seq + σ₁.chunk_len seq token_budget ∧
          σ₁.chunk_start seq + σ₁.chunk_len seq token_budget <
            σ₁.gpu_block_manager.get_num_allocated_slots seq.seq_id))) ∧
    (x.Agrees c.block_size ↔ ¬ (c.block_size ∣ x.context_len ∧
      x.context_len < σ.gpu_block_manager.get_num_allocated_slots x.seq_id)) := by
  obtain ⟨tok, hinv⟩ := reachable_gpu h
  have hdev := (hinv.schedule (TokenRel.lengths _) hrun).devices .Gpu rfl
  obtain ⟨seq, token_budget, σ₁, ids₁, hbuilds, hchunk, hlayout, ids, slots, hl, hpos, hctx, hle, hnum⟩ :=
    Scheduler.schedule_fits hrun x hx
  have hsize : σ.gpu_block_manager.block_size = c.block_size := hdev.block_size
  have hsame := hl
  simp only [Scheduler.gpu_layout, BlockManager.layout, Option.map_eq_some_iff, Prod.mk.injEq] at hl hnum
  obtain ⟨b, hb, rfl, rfl⟩ := hl
  have hlen := (hdev.page.maps x.seq_id b (by simp) hb).len
  have hslots : σ.gpu_block_manager.get_num_allocated_slots x.seq_id = b.num_allocated_slots := by
    simp only [get_num_allocated_slots, hb]
  have hagrees : x.Agrees c.block_size ↔ ¬ (c.block_size ∣ x.context_len ∧ x.context_len < b.num_allocated_slots) := by
    refine InferInput.Emitted.agrees_iff c.block_size_pos ⟨hpos, hctx, hle, ?_⟩
    rw [hnum, hsize, hlen]
    show min _ (div_ceil _ σ.gpu_block_manager.block_size) = _
    rw [hsize]
  rw [hslots]
  refine ⟨⟨seq, token_budget, σ₁, hbuilds, by rw [hchunk]; rfl, ?_⟩, hagrees⟩
  have hend : x.context_len = σ₁.chunk_start seq + σ₁.chunk_len seq token_budget := by rw [hchunk]; rfl
  have hid : x.seq_id = seq.seq_id := by rw [hchunk]; rfl
  rw [← hlayout] at hsame
  obtain ⟨b₁, hb₁, hpair⟩ := Option.map_eq_some_iff.1 hsame
  rw [hid] at hb₁
  have hslots₁ : σ₁.gpu_block_manager.get_num_allocated_slots seq.seq_id = b.num_allocated_slots := by
    simp only [get_num_allocated_slots, hb₁]
    exact congrArg Prod.snd hpair
  rw [← hend, hslots₁]
  exact hagrees

end

/-- Block size 2 and one request of four tokens. -/
def chunkedConfig (max_num_batched_tokens : Nat) : SchedulerConfig :=
  ⟨4, 64, max_num_batched_tokens, 2, Nat.two_pos, 8, 0, 0, false, Scheduler.defaultWatermark⟩

def fourTokens : List Op := [.add_request ⟨0, [1, 2, 3, 4], 1, none, false, false⟩ 0]

/-- The first input of the next scheduling round. -/
def first_input [Hasher] (s : System) : Option InferInput :=
  match Scheduler.schedule s.scheduler with
  | .ok batch _ => batch.infer_inputs.head?
  | .error _ _ => none

theorem exists_first_input [Hasher] {c : SchedulerConfig} (ops : List Op) (p : InferInput → Bool)
    (h : (Run.follow Op.next (System.new c) ops).any (fun s => (first_input s).any p) = true) :
    ∃ s batch σ x, Reachable c s ∧ Scheduler.schedule s.scheduler = .ok batch σ ∧
      x ∈ batch.infer_inputs ∧ p x = true := by
  obtain ⟨s, hrun, hs⟩ := Run.exists_of_follow (fun _ _ _ => Op.step_of_next) h
  cases hf : first_input s with
  | none => rw [hf] at hs; cases hs
  | some x =>
    rw [hf] at hs
    unfold first_input at hf
    cases hsch : Scheduler.schedule s.scheduler with
    | error e σ => rw [hsch] at hf; cases hf
    | ok batch σ =>
      rw [hsch] at hf
      exact ⟨s, batch, σ, x, ⟨ops, hrun⟩, hsch, List.mem_of_mem_head? hf, hs⟩

/-- A budget of three tokens: the chunk ends inside a block. -/
theorem dispatched_agrees_inside :
    let _ := decimalHasher
    ∃ s batch σ x, Reachable (chunkedConfig 3) s ∧ Scheduler.schedule s.scheduler = .ok batch σ ∧
      x ∈ batch.infer_inputs ∧ x.Agrees 2 := by
  let _ := decimalHasher
  obtain ⟨s, batch, σ, x, hs, hsch, hx, hp⟩ := exists_first_input (c := chunkedConfig 3)
    fourTokens (fun x => x.context_len = 3) (by decide +kernel)
  refine ⟨s, batch, σ, x, hs, hsch, hx, (dispatched_agrees_iff hs hsch hx).2.2 ?_⟩
  have hctx : x.context_len = 3 := by simpa using hp
  rintro ⟨hdvd, -⟩
  rw [hctx] at hdvd
  exact absurd hdvd (by decide)

/-- A budget of two: the chunk ends on the first block boundary, and the input carries two blocks. -/
theorem dispatched_not_agrees_chunk :
    let _ := decimalHasher
    ∃ s batch σ x, Reachable (chunkedConfig 2) s ∧ Scheduler.schedule s.scheduler = .ok batch σ ∧
      x ∈ batch.infer_inputs ∧ ¬ x.Agrees 2 ∧
      (x.context_len, x.block_ids.length, x.seq_len 2) = (2, 2, 4) := by
  let _ := decimalHasher
  obtain ⟨s, batch, σ, x, hs, hsch, hx, hp⟩ := exists_first_input (c := chunkedConfig 2)
    fourTokens (fun x => (x.context_len, x.block_ids.length, x.seq_len 2) = (2, 2, 4))
    (by decide +kernel)
  have hp : (x.context_len, x.block_ids.length, x.seq_len 2) = (2, 2, 4) := by simpa using hp
  refine ⟨s, batch, σ, x, hs, hsch, hx, fun h => ?_, hp⟩
  simp only [Prod.mk.injEq] at hp
  have := h.seq_len
  omega

end System

end LMServe
