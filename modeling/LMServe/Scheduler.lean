import LMServe.BlockManager

/-!
# The scheduler (`scheduler.rs`)

Three block managers (GPU, host, disk), the queues of tasks, and the batch in flight. Each function
is a stateful computation on the scheduler that can panic. Logging and the statistics returned with
a batch are left out.

Some points of the code are marked with `watch`, for theorems about runs in which a condition holds
whenever these points are passed. The code itself watches nothing: without a `Watch` in scope the
marks do nothing (`Watch.nothing`).
-/

namespace LMServe
open Chunk

/-- Conditions to stop at. -/
class Watch where
  /-- looked at before `try_alloc_infer_task` takes blocks for a sequence -/
  admission : BlockManager → Sequence → Bool := fun _ _ => true
  /-- looked at when the preemption loop of `schedule_waiting_with_reorder` ends without having
  admitted the waiting task -/
  dropped : InferTask → Bool := fun _ => true
  /-- looked at when the loop of `try_alloc_infer_task` or `try_extend_infer_task` has given blocks to
  this many active sequences of the task -/
  pass : Device → InferTask → Nat → Bool := fun _ _ _ => true
  /-- looked at before `preempt_infer_task` frees the blocks of a task -/
  preempted : InferTask → Bool := fun _ => true
  /-- looked at when the extension loop of `schedule` puts a task back that it cannot extend -/
  stuck : InferTask → Bool := fun _ => true

instance (priority := low) Watch.nothing : Watch := {}

/-- Stop unless the condition holds. -/
def watch {σ : Type} (c : Bool) : EStateM Panic σ PUnit :=
  if c then pure .unit else throw .watched

/-- `BatchEntry`: whether the dispatched chunk ends before the last token of the sequence. -/
structure BatchEntry where
  chunked : Bool
deriving DecidableEq, Repr

structure DeviceBlockRegion where
  device : Device
  block_region : BlockRegion
deriving DecidableEq, Repr

def DISK_RECOMPUTE_THRESHOLD : Nat := 2048

/-- `insert_sorted_by` with the key `get_arrival_time`: before the first task that arrived later. -/
def insert_sorted (queue : List InferTask) (item : InferTask) : List InferTask :=
  match queue with
  | [] => [item]
  | t :: rest => if item.arrival_time < t.arrival_time then item :: t :: rest
    else t :: insert_sorted rest item

structure Scheduler where
  max_batch_size : Nat
  max_seq_len : Nat
  max_num_batched_tokens : Nat
  gpu_block_manager : BlockManager
  host_block_manager : BlockManager
  disk_block_manager : BlockManager
  enable_reorder : Bool
  watermark_blocks : Watermark
  waiting : List InferTask
  allocated : List InferTask
  /-- by session id -/
  pending : Table InferTask
  /-- by sequence id -/
  running_batch : Table BatchEntry

/-- Operations of the scheduler. -/
abbrev SM := EStateM Panic Scheduler

/-- The parameters of `Scheduler::new`, and the watermark it sets. -/
structure SchedulerConfig where
  max_batch_size : Nat
  max_seq_len : Nat
  max_num_batched_tokens : Nat
  block_size : Nat
  block_size_pos : 0 < block_size
  num_gpu_blocks : Nat
  num_host_blocks : Nat
  num_disk_blocks : Nat
  enable_reorder : Bool
  watermark_blocks : Watermark

/-- The number of blocks of a device. -/
def SchedulerConfig.num_blocks (c : SchedulerConfig) : Device → Nat
  | .Gpu => c.num_gpu_blocks
  | .Host => c.num_host_blocks
  | .Disk => c.num_disk_blocks

namespace Scheduler

/-- `0.97` -/
def defaultWatermark : Watermark := .floor 97 100 (by decide)

def new (c : SchedulerConfig) : Scheduler where
  max_batch_size := c.max_batch_size
  max_seq_len := c.max_seq_len
  max_num_batched_tokens := c.max_num_batched_tokens
  gpu_block_manager := BlockManager.new c.block_size c.block_size_pos c.num_gpu_blocks
  host_block_manager := BlockManager.new c.block_size c.block_size_pos c.num_host_blocks
  disk_block_manager := BlockManager.new c.block_size c.block_size_pos c.num_disk_blocks
  enable_reorder := c.enable_reorder
  watermark_blocks := c.watermark_blocks
  waiting := []
  allocated := []
  pending := ∅
  running_batch := ∅

def is_task_queue_empty (s : Scheduler) : Bool :=
  s.allocated.isEmpty && s.waiting.isEmpty && s.pending.entries.isEmpty

def get_block_manager (s : Scheduler) : Device → BlockManager
  | .Gpu => s.gpu_block_manager
  | .Host => s.host_block_manager
  | .Disk => s.disk_block_manager

def set_block_manager (s : Scheduler) (d : Device) (m : BlockManager) : Scheduler :=
  match d with
  | .Gpu => { s with gpu_block_manager := m }
  | .Host => { s with host_block_manager := m }
  | .Disk => { s with disk_block_manager := m }

/-- Run an operation of one device's manager. -/
def on_device {α : Type} (d : Device) (x : BM α) : SM α :=
  Hoare.zoom (get_block_manager · d) (fun m s => s.set_block_manager d m) x

def add (infer_task : InferTask) : SM PUnit :=
  modify fun s => { s with waiting := s.waiting ++ [infer_task] }

section
variable [Hasher]

def init_prefix_cache_blocks (infer_task : InferTask) (devices : List Device) : SM PUnit :=
  forM infer_task.get_active_seqs fun seq =>
    forM devices fun d => on_device d do let _ ← BlockManager.init_prefix_cache_blocks seq

/-! ### Copy plans -/

/-- Reserve blocks on `dst_dev` for the blocks filled on `src_dev` beyond those filled on
`dst_dev`. -/
def reserve_copy_blocks (region_id : Nat) (seq : Sequence) (src_dev dst_dev : Device) :
    SM (Option (DeviceBlockRegion × BlockMapping)) := do
  let s ← get
  let src := s.get_block_manager src_dev
  let dst := s.get_block_manager dst_dev
  let src_filled := src.get_filled_token_len seq.seq_id
  let dst_filled := dst.get_filled_token_len seq.seq_id
  if src_filled ≤ dst_filled then pure none
  else
    match src.get_block_ids_range seq.seq_id dst_filled src_filled false with
    | none => pure none
    | some (src_block_ids, _) =>
      if dst.can_alloc_blocks src_block_ids.length .full then
        let region ← on_device dst_dev
          (BlockManager.reserve_blocks region_id (seq.token_ids.take src_filled) dst_filled)
        pure (region.map fun region =>
          (⟨dst_dev, region⟩, src_block_ids.zipWith BlockMappingEntry.mk region.block_ids))
      else pure none

/-- The blocks to copy so that `dst_dev` has what `src_dev` has filled, and the fill level of
`dst_dev` after the copy. -/
def copy_blocks (s : Scheduler) (seq : Sequence) (src_dev dst_dev : Device)
    (include_partial_block : Bool) : Option (BlockMapping × Nat) :=
  let src := s.get_block_manager src_dev
  let dst := s.get_block_manager dst_dev
  let src_filled := src.get_filled_token_len seq.seq_id
  let dst_filled := dst.get_filled_token_len seq.seq_id
  let stop := min src_filled (dst.get_num_allocated_slots seq.seq_id)
  if dst_filled < stop then
    match src.get_block_ids_range seq.seq_id dst_filled stop include_partial_block,
        dst.get_block_ids_range seq.seq_id dst_filled stop include_partial_block with
    | some (src_block_ids, src_last_filled_token_idx), some (dst_block_ids, _) =>
      some (src_block_ids.zipWith BlockMappingEntry.mk dst_block_ids, src_last_filled_token_idx)
    | _, _ => none
  else none

/-! ### Requests -/

def plan_stage (region_id : Nat) (infer_task : InferTask) :
    SM (Option (DeviceBlockRegion × BlockMapping)) := do
  init_prefix_cache_blocks infer_task [.Host, .Disk]
  let s ← get
  match infer_task.get_head_seq with
  | none => throw .noActiveSeq
  | some head_seq =>
    let host_filled := s.host_block_manager.get_filled_token_len head_seq.seq_id
    let disk_filled := s.disk_block_manager.get_filled_token_len head_seq.seq_id
    if s.waiting.isEmpty ∨ disk_filled - host_filled < DISK_RECOMPUTE_THRESHOLD then pure none
    else reserve_copy_blocks region_id head_seq .Disk .Host

def backup (region_id : Nat) (infer_task : InferTask) :
    SM (Option (DeviceBlockRegion × BlockMapping)) :=
  match (infer_task.get_seqs .Finished).head? with
  | none => throw .noFinishedSeq
  | some head_finished_seq => reserve_copy_blocks region_id head_finished_seq .Host .Disk

/-- The new task replaces the old one before the duplicate is reported. -/
def pend (infer_task : InferTask) : SM PUnit := do
  let old := (← get).pending.lookup infer_task.session_id
  modify fun s => { s with pending := s.pending.insert infer_task.session_id infer_task }
  match old with
  | some _ => throw .duplicatePending
  | none => pure .unit

/-- Activate the region named by a trigger, if there is one. -/
def activate_region (region_id : Option Nat) (hash_values : List Nat) : SM PUnit :=
  match region_id with
  | some r => on_device .Host do let _ ← BlockManager.activate_reserved_blocks r hash_values
  | none => pure .unit

def trigger_pend_task (session_id : Nat) (region_id : Option Nat) (hash_values : List Nat) :
    SM PUnit := do
  match (← get).pending.lookup session_id with
  | none => throw (.noPendingTask session_id)
  | some infer_task =>
    modify fun s => { s with pending := s.pending.erase session_id }
    activate_region region_id hash_values
    match infer_task.get_head_seq with
    | none => throw .noActiveSeq
    | some head_seq =>
      on_device .Host do let _ ← BlockManager.update_prefix_cache_blocks head_seq
      modify fun s => { s with waiting := insert_sorted s.waiting infer_task }

def reserve_blocks (region_id : Nat) (infer_task : InferTask) (device : Device) :
    SM (Option DeviceBlockRegion) := do
  match infer_task.get_head_seq with
  | none => throw .noActiveSeq
  | some head_seq =>
    let filled := ((← get).get_block_manager device).get_filled_token_len head_seq.seq_id
    let region ← on_device device (BlockManager.reserve_blocks region_id head_seq.token_ids filled)
    pure (region.map fun r => ⟨device, r⟩)

def commit_reserved_blocks (region : DeviceBlockRegion) : SM Nat :=
  on_device region.device
    (BlockManager.activate_reserved_blocks region.block_region.id region.block_region.hashes)

def pin_blocks (region_id : Nat) (hash_values : List Nat) (device : Device) :
    SM DeviceBlockRegion := do
  let r ← on_device device (BlockManager.pin_blocks_by_hashes region_id hash_values)
  pure ⟨device, r⟩

def unpin_blocks (region : DeviceBlockRegion) : SM PUnit :=
  on_device region.device do let _ ← BlockManager.unpin_blocks region.block_region.id

end

section
variable [Hasher] [Watch]

/-! ### Admission, extension, preemption -/

/-- The loop of `can_alloc_infer_task`: how many active sequences in a row pass the check. -/
def can_alloc_loop (num_extra_blocks : Nat) (watermark : Watermark) : List Sequence → BM Nat
  | [] => pure 0
  | seq :: rest => do
    let num_required_blocks ← BlockManager.get_num_required_blocks seq
    if (← get).can_alloc_blocks (num_required_blocks - num_extra_blocks) watermark then
      return (← can_alloc_loop num_extra_blocks watermark rest) + 1
    else pure 0

def can_alloc_infer_task (infer_task : InferTask) (num_extra_blocks : Nat) (watermark : Watermark)
    (device : Device) : SM Bool := do
  let n ← on_device device (can_alloc_loop num_extra_blocks watermark infer_task.get_active_seqs)
  pure (0 < n)

def get_reclaimable_blocks (s : Scheduler) (infer_task : InferTask) (device : Device) : Nat :=
  (infer_task.get_active_seqs.map fun seq =>
    (s.get_block_manager device).get_num_allocated_unique_blocks seq.seq_id).sum

/-- The loop of `try_alloc_infer_task` over all sequences of the task; it visits the active ones
and ends at the first that does not fit. Returns how many were admitted and the sequences with
their new status. -/
def try_alloc_loop (watermark : Watermark) : List Sequence → BM (Nat × List Sequence)
  | [] => pure (0, [])
  | seq :: rest => do
    if seq.is_active then
      let num_required_blocks ← BlockManager.get_num_required_blocks seq
      if (← get).can_alloc_blocks num_required_blocks watermark then
        watch (Watch.admission (← get) seq)
        let _ ← BlockManager.init_prefix_cache_blocks seq
        let _ ← BlockManager.alloc_blocks seq
        let (n, rest) ← try_alloc_loop watermark rest
        pure (n + 1, { seq with status := .Allocated } :: rest)
      else pure (0, seq :: rest)
    else
      let (n, rest) ← try_alloc_loop watermark rest
      pure (n, seq :: rest)

def try_alloc_infer_task (infer_task : InferTask) (watermark : Watermark) (device : Device) :
    SM (Bool × InferTask) := do
  let (n, seqs) ← on_device device (try_alloc_loop watermark infer_task.seqs)
  watch (Watch.pass device infer_task n)
  pure (decide (0 < n), { infer_task with seqs := seqs })

/-- The loop of `try_extend_infer_task`, over the active sequences. -/
def try_extend_loop (watermark : Watermark) : List Sequence → BM Nat
  | [] => pure 0
  | seq :: rest => do
    if ← BlockManager.can_alloc_seq seq watermark then
      let _ ← BlockManager.alloc_blocks seq
      return (← try_extend_loop watermark rest) + 1
    else pure 0

def try_extend_infer_task (infer_task : InferTask) (watermark : Watermark) (device : Device) :
    SM Bool := do
  let n ← on_device device (try_extend_loop watermark infer_task.get_active_seqs)
  watch (Watch.pass device infer_task n)
  pure (0 < n)

/-- Free the GPU blocks of the active sequences and set them back to `Waiting`. -/
def preempt_infer_task (infer_task : InferTask) : SM InferTask := do
  watch (Watch.preempted infer_task)
  forM infer_task.get_active_seqs fun seq => on_device .Gpu (BlockManager.free seq.seq_id)
  pure { infer_task with
    seqs := infer_task.seqs.map fun seq =>
      if seq.is_active then { seq with status := .Waiting } else seq }

/-! ### Dispatch -/

/-- What `dispatch` collects, and the token budget left. -/
structure Batch where
  token_budget : Nat
  running_batch : Table BatchEntry
  infer_inputs : List InferInput
  fetch_block_mappings : List BlockMapping
  write_through_block_mappings : List BlockMapping

/-- Bring a device up to date with what a copy plan brings in: the mapping joins the list and the
fill level of the destination moves. -/
def plan_copy (seq : Sequence) (src_dev dst_dev : Device) (include_partial_block : Bool)
    (mappings : List BlockMapping) : SM (List BlockMapping) := do
  match (← get).copy_blocks seq src_dev dst_dev include_partial_block with
  | some (block_mapping, filled_end) =>
    on_device dst_dev (BlockManager.update_filled_len seq.seq_id filled_end)
    pure (mappings ++ [block_mapping])
  | none => pure mappings

/-- The second half of the loop body of `dispatch`: the input of one sequence, from its fill level
to as far as the budget reaches. -/
def dispatch_input (seq : Sequence) (acc : Batch) : SM Batch := do
  let s ← get
  let total := seq.token_ids.length
  -- Although all tokens are filled, we use last token to generate an output token.
  let filled := min (s.gpu_block_manager.get_filled_token_len seq.seq_id) (total - 1)
  let input_len := min (total - filled) acc.token_budget
  if 0 < input_len then
    let input_ids := slice seq.token_ids filled (filled + input_len)
    match s.gpu_block_manager.get_block_ids_range seq.seq_id 0 (filled + input_len) true with
    | none => pure acc
    | some (block_ids, _) =>
      let input_len := input_ids.length
      let context_len := input_len + filled
      let infer_input := InferInput.new seq.seq_id input_ids filled context_len block_ids
      on_device .Gpu (BlockManager.update_filled_len seq.seq_id context_len)
      let write_through ← plan_copy seq .Gpu .Host false acc.write_through_block_mappings
      pure { acc with
        token_budget := acc.token_budget - input_len
        infer_inputs := acc.infer_inputs ++ [infer_input]
        write_through_block_mappings := write_through
        running_batch := acc.running_batch.insert seq.seq_id ⟨filled + input_len < total⟩ }
  else pure acc

/-- The loop of `dispatch` over the sequences in status `Allocated`, in queue order. -/
def dispatch_loop : List Sequence → Batch → SM Batch
  | [], acc => pure acc
  | seq :: rest, acc => do
    if (← get).max_batch_size ≤ acc.running_batch.entries.length ∨ acc.token_budget = 0 then
      pure acc
    else
      let fetch ← plan_copy seq .Host .Gpu true acc.fetch_block_mappings
      let acc ← dispatch_input seq { acc with fetch_block_mappings := fetch }
      dispatch_loop rest acc

def dispatch : SM Batch := do
  let s ← get
  dispatch_loop (s.allocated.flatMap (·.get_seqs .Allocated))
    ⟨s.max_num_batched_tokens, ∅, [], [], []⟩

/-! ### Scheduling -/

/-- The extension loop of `schedule`: `extended` is the local queue of the source. A task that
cannot grow takes the blocks of the last one in the queue; when there is no other, it goes back to
`waiting`. Every round shortens `allocated` by one, so its length bounds the rounds. -/
def extend_allocated : Nat → List InferTask → SM (List InferTask)
  | 0, _ => throw .outOfFuel
  | fuel + 1, extended => do
    match (← get).allocated with
    | [] => pure extended
    | infer_task :: queue =>
      modify fun s => { s with allocated := queue }
      if ← try_extend_infer_task infer_task .full .Gpu then
        let _ ← try_extend_infer_task infer_task .full .Host
        extend_allocated fuel (extended ++ [infer_task])
      else
        match queue.getLast? with
        | some last =>
          modify fun s => { s with allocated := queue.dropLast }
          let preempted ← preempt_infer_task last
          modify fun s => { s with
            waiting := insert_sorted s.waiting preempted
            allocated := infer_task :: s.allocated }
          extend_allocated fuel extended
        | none =>
          watch (Watch.stuck infer_task)
          modify fun s => { s with waiting := insert_sorted s.waiting infer_task }
          pure extended

/-- Admission in queue order: the first waiting task that does not fit ends it. The argument bounds
the rounds by the number of waiting tasks. -/
def admit_in_order : Nat → SM PUnit
  | 0 => throw .outOfFuel
  | fuel + 1 => do
    let s ← get
    match s.waiting with
    | [] => pure .unit
    | infer_task :: queue =>
      modify fun s => { s with waiting := queue }
      let (admitted, infer_task) ← try_alloc_infer_task infer_task s.watermark_blocks .Gpu
      if admitted then
        let _ ← try_extend_infer_task infer_task .full .Host
        modify fun s => { s with allocated := s.allocated ++ [infer_task] }
        admit_in_order fuel
      else modify fun s => { s with waiting := infer_task :: s.waiting }

/-- Split off the tasks at the end of `allocated` that arrived after `waiting_task`. -/
def split_promoted (waiting_task : InferTask) (allocated : List InferTask) :
    List InferTask × List InferTask :=
  let later := fun t : InferTask => decide (waiting_task.arrival_time < t.arrival_time)
  ((allocated.reverse.dropWhile later).reverse, (allocated.reverse.takeWhile later).reverse)

/-- The preemption loop of `schedule_waiting_with_reorder`: `promoted` is given in reverse, so the
newest task comes first. When the waiting task fits, it and the promoted tasks left are put back
into `allocated`; when it never fits, it is in no queue any more. -/
def preempt_promoted (waiting_task : InferTask) : List InferTask → SM PUnit
  | [] => watch (Watch.dropped waiting_task)
  | promoted_task :: promoted => do
    let preempted ← preempt_infer_task promoted_task
    modify fun s => { s with waiting := insert_sorted s.waiting preempted }
    let (admitted, task) ← try_alloc_infer_task waiting_task (← get).watermark_blocks .Gpu
    if admitted then
      let _ ← try_extend_infer_task task .full .Host
      modify fun s => { s with allocated := s.allocated ++ task :: promoted.reverse }
    else preempt_promoted task promoted

/-- One round of `schedule_waiting_with_reorder` for the task taken from `waiting`; returns what
it adds to `next_waiting`. -/
def reorder_round (waiting_task : InferTask) : SM (List InferTask) := do
  let (admitted, waiting_task) ← try_alloc_infer_task waiting_task (← get).watermark_blocks .Gpu
  if admitted then
    let _ ← try_extend_infer_task waiting_task .full .Host
    modify fun s => { s with allocated := insert_sorted s.allocated waiting_task }
    pure []
  else
    let s ← get
    let (kept, promoted) := split_promoted waiting_task s.allocated
    if promoted.isEmpty then pure [waiting_task]
    else
      modify fun s => { s with allocated := kept }
      let num_reclaimable_blocks := (promoted.map (s.get_reclaimable_blocks · .Gpu)).sum
      if ← can_alloc_infer_task waiting_task num_reclaimable_blocks s.watermark_blocks .Gpu then
        preempt_promoted waiting_task promoted.reverse
        pure []
      else
        modify fun s => { s with allocated := s.allocated ++ promoted }
        pure [waiting_task]

/-- The loop of `schedule_waiting_with_reorder`. -/
def reorder_loop : Nat → List InferTask → SM (List InferTask)
  | 0, _ => throw .outOfFuel
  | fuel + 1, next_waiting => do
    match (← get).waiting with
    | [] => pure next_waiting
    | waiting_task :: queue =>
      modify fun s => { s with waiting := queue }
      let back ← reorder_round waiting_task
      reorder_loop fuel (next_waiting ++ back)

/-- A bound on the rounds of the reordering loop: a round puts tasks back into the queue only in
exchange for a task that arrived before all of them. -/
def reorder_fuel (s : Scheduler) : Nat :=
  let tasks := s.waiting.length + s.allocated.length
  (tasks + 1) ^ (tasks + 1) + 1

/-- The `debug_assert` on the number of tasks is compiled out of release builds and left out. -/
def schedule_waiting_with_reorder : SM PUnit := do
  let next_waiting ← reorder_loop (reorder_fuel (← get)) []
  modify fun s => { s with waiting := next_waiting }

/-- Second phase of `schedule`: allocate prefill tasks. -/
def admit_waiting : SM PUnit := do
  let s ← get
  if s.enable_reorder then schedule_waiting_with_reorder
  else admit_in_order (s.waiting.length + 1)

/-- First phase of `schedule`: allocate decode tasks. -/
def extend_tasks : SM PUnit := do
  let allocated ← extend_allocated ((← get).allocated.length + 1) []
  modify fun s => { s with allocated := allocated }

def schedule : SM Batch := do
  extend_tasks
  admit_waiting
  let batch ← dispatch
  modify fun s => { s with running_batch := batch.running_batch }
  pure batch

end

/-! ### Results of a batch -/

/-- The update of one sequence in status `Allocated`. -/
def update_seq (max_seq_len : Nat) (running_batch : Table BatchEntry)
    (infer_outputs : Table InferOutput) (now : Nat) (seq : Sequence) : Sequence :=
  match infer_outputs.lookup seq.seq_id, running_batch.lookup seq.seq_id with
  | some output, some entry =>
    if entry.chunked then seq
    else
      let seq := seq.append_output_id output.output_id output.prob output.output_word now
      let reached_max_len := seq.max_output_len.any (· ≤ seq.output_len) ||
        decide (max_seq_len ≤ seq.token_ids.length)
      if (!seq.ignore_eos && output.is_eos) || reached_max_len then
        { seq with status := .Finished }
      else seq
  | _, _ => seq

def update_task (max_seq_len : Nat) (running_batch : Table BatchEntry)
    (infer_outputs : Table InferOutput) (now : Nat) (t : InferTask) : InferTask :=
  { t with seqs := t.seqs.map fun seq =>
      if seq.status = .Allocated then update_seq max_seq_len running_batch infer_outputs now seq
      else seq }

def update (infer_outputs : Table InferOutput) (now : Nat) : SM (List InferTask) := do
  let s ← get
  let tasks := s.allocated.map (update_task s.max_seq_len s.running_batch infer_outputs now)
  modify fun s => { s with
    allocated := tasks.filter (!·.is_finished)
    running_batch := ∅ }
  pure (tasks.filter (·.is_finished))

/-- Free one finished sequence on one device. -/
def remove_seq (seq : Sequence) (d : Device) : SM PUnit :=
  on_device d (if seq.disable_cache then BlockManager.free_and_drop_cache seq.seq_id
    else BlockManager.free seq.seq_id)

def remove_task (infer_task : InferTask) : SM PUnit :=
  forM (infer_task.get_seqs .Finished) fun seq =>
    forM [Device.Gpu, .Host, .Disk] fun d => remove_seq seq d

def clear_cache : SM PUnit :=
  forM [Device.Gpu, .Host, .Disk] fun d => on_device d BlockManager.clear_cache

end Scheduler

end LMServe
