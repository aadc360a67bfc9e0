import LMServe.Scheduler
import LMServe.Lib.Run

/-!
# The scheduler in use

Everything the engine does to the scheduler while it holds its lock, as the steps of a transition
system: accepting a request (`add_request`), the two halves of `reserve_request`, a trigger, a
scheduling round, the results of a batch, backing up and removing finished tasks, committing,
pinning and unpinning regions, clearing the cache. Steps may come in any order; a step only takes
tasks that exist. Sequence ids come from the process-wide counter, region ids are drawn fresh.
-/

namespace LMServe

/-- `GenerateRequest` (and `ReserveRequest`) of `llm.proto`. -/
structure GenerateRequest where
  session_id : Nat
  input_ids : List Nat
  num_samples : Nat
  max_output_len : Option Nat
  ignore_eos : Bool
  disable_cache : Bool
deriving DecidableEq, Repr

/-- The task built for a request: one sequence per sample. -/
def GenerateRequest.to_task (request : GenerateRequest) (first_seq_id arrival_time : Nat) :
    InferTask where
  session_id := request.session_id
  seqs := (List.range request.num_samples).map fun k =>
    Sequence.new (first_seq_id + k) request.session_id request.input_ids request.max_output_len
      request.ignore_eos request.disable_cache
  arrival_time := arrival_time

structure System where
  scheduler : Scheduler
  /-- `GLOBAL_COUNTER` behind `generate_seq_id` -/
  next_seq_id : Nat
  next_region_id : Nat
  /-- tasks of `reserve_request` calls that have reserved blocks and not yet pended the task -/
  reserving : List InferTask
  /-- tasks returned by `update` and not yet removed -/
  finished : List InferTask

abbrev SysM := EStateM Panic System

namespace System

def new (c : SchedulerConfig) : System := ⟨Scheduler.new c, 0, 0, [], []⟩

/-- Run an operation of the scheduler. -/
def on_scheduler {α : Type} (x : SM α) : SysM α :=
  Hoare.zoom scheduler (fun a s => { s with scheduler := a }) x

/-- The task of a new request, with its sequence ids. -/
def create_task (request : GenerateRequest) (arrival_time : Nat) : SysM InferTask := do
  let task := request.to_task (← get).next_seq_id arrival_time
  modify fun s => { s with next_seq_id := s.next_seq_id + request.num_samples }
  pure task

/-- `generate_id` -/
def generate_id : SysM Nat := do
  let id := (← get).next_region_id
  modify fun s => { s with next_region_id := s.next_region_id + 1 }
  pure id

variable [Hasher]

/-- The critical section of `LLMEngine::add_request`; returns the swap-in plan. -/
def add_request (request : GenerateRequest) (arrival_time : Nat) :
    SysM (Option (DeviceBlockRegion × BlockMapping)) := do
  let task ← create_task request arrival_time
  on_scheduler (Scheduler.init_prefix_cache_blocks task [.Host, .Disk])
  let plan ← on_scheduler (Scheduler.plan_stage (← generate_id) task)
  match plan with
  | some _ => on_scheduler (Scheduler.pend task)
  | none => on_scheduler (Scheduler.add task)
  pure plan

/-- First critical section of `LLMEngine::reserve_request`. -/
def reserve_request (request : GenerateRequest) (arrival_time : Nat) :
    SysM (Option DeviceBlockRegion) := do
  let task ← create_task request arrival_time
  let region ← on_scheduler (Scheduler.reserve_blocks (← generate_id) task .Host)
  modify fun s => { s with reserving := s.reserving ++ [task] }
  pure region

/-- Second critical section of `LLMEngine::reserve_request`, of the `i`-th call in progress. -/
def pend_reserved (i : Nat) : SysM PUnit := do
  match (← get).reserving[i]? with
  | none => pure .unit
  | some task =>
    modify fun s => { s with reserving := s.reserving.eraseIdx i }
    on_scheduler (Scheduler.pend task)

def update (infer_outputs : Table InferOutput) (now : Nat) : SysM (List InferTask) := do
  let finished ← on_scheduler (Scheduler.update infer_outputs now)
  modify fun s => { s with finished := s.finished ++ finished }
  pure finished

/-- Plan the swap-out of the `i`-th finished task. -/
def backup (i : Nat) : SysM (Option (DeviceBlockRegion × BlockMapping)) := do
  match (← get).finished[i]? with
  | none => pure none
  | some task => on_scheduler (Scheduler.backup (← generate_id) task)

def remove_task (i : Nat) : SysM PUnit := do
  match (← get).finished[i]? with
  | none => pure .unit
  | some task =>
    on_scheduler (Scheduler.remove_task task)
    modify fun s => { s with finished := s.finished.eraseIdx i }

def pin_blocks (hash_values : List Nat) : SysM DeviceBlockRegion := do
  on_scheduler (Scheduler.pin_blocks (← generate_id) hash_values .Host)

end System

/-- The steps, with their arguments. -/
inductive Op where
  | add_request (request : GenerateRequest) (arrival_time : Nat)
  | reserve_request (request : GenerateRequest) (arrival_time : Nat)
  | pend_reserved (i : Nat)
  | trigger (session_id : Nat) (region_id : Option Nat) (hash_values : List Nat)
  | schedule
  | update (infer_outputs : Table InferOutput) (now : Nat)
  | backup (i : Nat)
  | remove_task (i : Nat)
  | commit (region : DeviceBlockRegion)
  | pin (hash_values : List Nat)
  | unpin (region : DeviceBlockRegion)
  | clear_cache

namespace Op

section
variable [Hasher] [Watch]

def exec : Op → SysM PUnit
  | add_request request arrival_time => do let _ ← System.add_request request arrival_time
  | reserve_request request arrival_time => do
    let _ ← System.reserve_request request arrival_time
  | pend_reserved i => System.pend_reserved i
  | trigger session_id region_id hash_values =>
    System.on_scheduler (Scheduler.trigger_pend_task session_id region_id hash_values)
  | schedule => do let _ ← System.on_scheduler Scheduler.schedule
  | update infer_outputs now => do let _ ← System.update infer_outputs now
  | backup i => do let _ ← System.backup i
  | remove_task i => System.remove_task i
  | commit region => do let _ ← System.on_scheduler (Scheduler.commit_reserved_blocks region)
  | pin hash_values => do let _ ← System.pin_blocks hash_values
  | unpin region => System.on_scheduler (Scheduler.unpin_blocks region)
  | clear_cache => System.on_scheduler Scheduler.clear_cache

/-- One step that returns normally. -/
def Step (s : System) (op : Op) (s' : System) : Prop := op.exec s = .ok .unit s'

/-- `Step` as a function. -/
def next (s : System) (op : Op) : Option System :=
  match op.exec s with
  | .ok _ s' => some s'
  | .error _ _ => none

theorem step_of_next {s s' : System} {op : Op} (h : next s op = some s') : Step s op s' := by
  unfold next at h
  split at h
  · rename_i s₁ hexec
    obtain rfl := Option.some.inj h
    exact hexec
  · cases h

theorem next_of_step {s s' : System} {op : Op} (h : Step s op s') : next s op = some s' := by
  unfold next
  rw [show op.exec s = .ok .unit s' from h]

end

end Op

/-- The states reached from an empty scheduler. -/
def Reachable [Hasher] (c : SchedulerConfig) (s : System) : Prop :=
  ∃ ops, Run Op.Step (System.new c) ops s

end LMServe
