import LMServe.System

/-!
# The engine around the scheduler (`engine.rs`, `background_manager.rs`)

The scheduler lock, the background thread with its queue of copies, the engine loop, the request
handlers and the callers of `clear_cache`. Each critical section is one step: it starts when the
lock is free and gives it up at its end. The one holder that keeps the lock over an `await` is
`clear_cache`, between submitting its sync entry and being notified. Copies, batches and transfers
run between steps, with the lock free. Publishing statistics takes no lock and is left out.

A panic ends the task it happens in and releases the lock (the mutex is not poisoned), so the next
section starts from the state the panic left behind. A panic in a copy or in a callback takes the
background thread with it, a panic in `iter` the engine loop.
-/

namespace LMServe
open Scheduler (Batch)

/-- An entry of the background queue: a copy and the data of its callback, or the event of
`BackgroundTaskManager::wait`. -/
inductive Entry where
  | swap_in (session_id : Nat) (region : DeviceBlockRegion) (mapping : BlockMapping)
  | swap_out (region : DeviceBlockRegion) (mapping : BlockMapping)
  | sync
deriving DecidableEq, Repr

/-- Whether the callback of the entry takes the scheduler lock. -/
def Entry.is_copy : Entry → Bool
  | sync => false
  | _ => true

/-- Where `iter` stands. -/
inductive LoopState where
  | idle
  /-- the batch and its copies are with the workers -/
  | executing (batch : Batch)
  /-- finished tasks are still to be backed up and removed -/
  | finishing
  | dead

/-- The scheduler lock between two steps. -/
inductive Lock where
  | free
  /-- held by a `clear_cache` caller that waits for its sync entry -/
  | waiting
  /-- held by a `clear_cache` caller whose sync entry has run -/
  | notified
deriving DecidableEq, Repr

structure Engine where
  system : System
  lock : Lock
  /-- the background queue; the first entry is the one being worked on -/
  queue : List Entry
  /-- the copy of the first entry is done, its callback comes next -/
  copied : Bool
  /-- the background thread is running -/
  alive : Bool
  loop : LoopState
  /-- regions pinned by `push_kv` calls whose transfer is under way -/
  pushing : List DeviceBlockRegion
  /-- sessions and regions of the `reserve_request` calls in progress, in the order of
  `System.reserving` -/
  reserved : List (Nat × Option DeviceBlockRegion)
  /-- what `reserve_request` returned and nobody has triggered yet; a peer may write the blocks -/
  remote : List (Nat × Option DeviceBlockRegion)
  /-- `clear_cache` callers that do not hold the lock -/
  clearing : Nat

/-- Run a critical section to its end or to its panic. -/
def attempt {α : Type} (x : SysM α) (s : System) : Option α × System :=
  match x s with
  | .ok a s' => (some a, s')
  | .error _ s' => (none, s')

namespace Engine

def new (c : SchedulerConfig) : Engine :=
  ⟨System.new c, .free, [], false, true, .idle, [], [], [], 0⟩

/-- `BackgroundTaskManager::submit`; the channel of a thread that has died refuses the entry. -/
def submit (entry : Entry) (e : Engine) : Engine :=
  if e.alive then { e with queue := e.queue ++ [entry] } else e

/-- The background thread goes on to the next entry. -/
def next_entry (e : Engine) : Engine := { e with queue := e.queue.tail, copied := false }

/-- The background thread dies and the queue with it. -/
def die (e : Engine) : Engine := { e with alive := false, queue := [], copied := false }

variable [Hasher]

/-! ### Request handlers -/

def add_request (request : GenerateRequest) (arrival_time : Nat) (e : Engine) : Engine :=
  match attempt (System.add_request request arrival_time) e.system with
  | (some (some (region, mapping)), s) =>
    submit (.swap_in request.session_id region mapping) { e with system := s }
  | (_, s) => { e with system := s }

def reserve_request (request : GenerateRequest) (arrival_time : Nat) (e : Engine) : Engine :=
  match attempt (System.reserve_request request arrival_time) e.system with
  | (some region, s) =>
    { e with
      system := s
      reserved := e.reserved ++ [(request.session_id, region)] }
  | (none, s) => { e with system := s }

/-- The second section of the `i`-th `reserve_request` call in progress; when it returns, the
caller gets the region. -/
def pend_reserved (i : Nat) (e : Engine) : Option Engine :=
  match e.reserved[i]? with
  | some output =>
    match attempt (System.pend_reserved i) e.system with
    | (some _, s) => some { e with
        system := s
        reserved := e.reserved.eraseIdx i
        remote := e.remote ++ [output] }
    | (none, s) => some { e with system := s, reserved := e.reserved.eraseIdx i }
  | none => none

/-- `trigger_request` for what the `k`-th reservation not yet triggered returned; the hash values
are those of the blocks the sender has transferred. -/
def trigger_request (k : Nat) (hash_values : List Nat) (e : Engine) : Option Engine :=
  match e.remote[k]? with
  | some (session_id, region) =>
    let (_, s) := attempt (System.on_scheduler (Scheduler.trigger_pend_task session_id
      (region.map (·.block_region.id)) hash_values)) e.system
    some { e with system := s, remote := e.remote.eraseIdx k }
  | none => none

/-- First section of `push_kv`. -/
def push_kv (hash_values : List Nat) (e : Engine) : Engine :=
  match attempt (System.pin_blocks hash_values) e.system with
  | (some region, s) => { e with system := s, pushing := e.pushing ++ [region] }
  | (none, s) => { e with system := s }

/-- Second section of `push_kv`, after the transfer. -/
def push_done (i : Nat) (e : Engine) : Option Engine :=
  match e.pushing[i]? with
  | some region =>
    let (_, s) := attempt (System.on_scheduler (Scheduler.unpin_blocks region)) e.system
    some { e with system := s, pushing := e.pushing.eraseIdx i }
  | none => none

/-! ### The engine loop -/

/-- First section of `iter`. -/
def schedule (e : Engine) : Option Engine :=
  match e.loop with
  | .idle =>
    if e.system.scheduler.is_task_queue_empty then some e
    else
      match attempt (System.on_scheduler Scheduler.schedule) e.system with
      | (some batch, s) => some { e with
          system := s
          loop := if batch.infer_inputs.isEmpty then .idle else .executing batch }
      | (none, s) => some { e with system := s, loop := .dead }
  | _ => none

/-- The batch failed on a worker: `iter` panics. -/
def execute_failed (e : Engine) : Option Engine :=
  match e.loop with
  | .executing _ => some { e with loop := .dead }
  | _ => none

/-- Go on to the next finished task, or to the next iteration. -/
def next_finished (e : Engine) : Engine :=
  { e with loop := if e.system.finished.isEmpty then .idle else .finishing }

/-- Second section of `iter`, after the batch and its copies. -/
def update (infer_outputs : Table InferOutput) (now : Nat) (e : Engine) : Option Engine :=
  match e.loop with
  | .executing _ =>
    match attempt (System.update infer_outputs now) e.system with
    | (some _, s) => some (next_finished { e with system := s })
    | (none, s) => some { e with system := s, loop := .dead }
  | _ => none

def submit_swap_out (plan : Option (DeviceBlockRegion × BlockMapping)) (e : Engine) : Engine :=
  match plan with
  | some (region, mapping) => submit (.swap_out region mapping) e
  | none => e

/-- The section of `iter` for one finished task: plan and submit the swap-out, remove the task. -/
def finish (e : Engine) : Option Engine :=
  match e.loop with
  | .finishing =>
    match attempt (System.backup 0) e.system with
    | (some plan, s) =>
      let e := submit_swap_out plan { e with system := s }
      match attempt (System.remove_task 0) e.system with
      | (some _, s) => some (next_finished { e with system := s })
      | (none, s) => some { e with system := s, loop := .dead }
    | (none, s) => some { e with system := s, loop := .dead }
  | _ => none

/-! ### The background thread (`run_async`) -/

/-- A copy is under way. -/
def copying (e : Engine) : Bool := e.queue.head?.any Entry.is_copy && !e.copied

/-- The copy of the first entry completes. -/
def copy_done (e : Engine) : Option Engine :=
  if e.copying then some { e with copied := true } else none

/-- The copy fails: its callback is skipped. -/
def copy_failed (e : Engine) : Option Engine :=
  if e.copying then some (next_entry e) else none

/-- The copy panics, as `run_workers_gather` does when a worker fails: the thread dies. -/
def copy_panicked (e : Engine) : Option Engine :=
  if e.copying then some (die e) else none

/-- Run a callback. -/
def complete {α : Type} (x : SysM α) (e : Engine) : Engine :=
  match attempt x e.system with
  | (some _, s) => next_entry { e with system := s }
  | (none, s) => die { e with system := s }

/-- The callback of the first entry. -/
def callback (e : Engine) : Option Engine :=
  if e.copied then
    match e.queue with
    | .swap_in session_id region _ :: _ =>
      some (complete (System.on_scheduler (Scheduler.trigger_pend_task session_id
        (some region.block_region.id) region.block_region.hashes)) e)
    | .swap_out region _ :: _ =>
      some (complete (System.on_scheduler (Scheduler.commit_reserved_blocks region)) e)
    | _ => none
  else none

/-- The event of a sync entry. -/
def notify (e : Engine) : Option Engine :=
  match e.queue with
  | .sync :: _ => some (next_entry { e with lock := .notified })
  | _ => none

/-! ### `clear_cache` -/

/-- One round of the loop of `clear_cache`: with tasks in the queues the caller gives up the lock
and tries again later; else it keeps it and waits for the background queue. -/
def clear_try (e : Engine) : Option Engine :=
  if e.clearing = 0 then none
  else if e.system.scheduler.is_task_queue_empty then
    some (submit .sync { e with lock := .waiting, clearing := e.clearing - 1 })
  else some e

def clear_done (e : Engine) : Option Engine :=
  if e.lock = .notified then
    let (_, s) := attempt (System.on_scheduler Scheduler.clear_cache) e.system
    some { e with system := s, lock := .free }
  else none

end Engine

/-- The steps of the engine. -/
inductive EngineOp where
  | add_request (request : GenerateRequest) (arrival_time : Nat)
  | reserve_request (request : GenerateRequest) (arrival_time : Nat)
  | pend_reserved (i : Nat)
  | trigger_request (k : Nat) (hash_values : List Nat)
  | push_kv (hash_values : List Nat)
  | push_done (i : Nat)
  | schedule
  | execute_failed
  | update (infer_outputs : Table InferOutput) (now : Nat)
  | finish
  | copy_done
  | copy_failed
  | copy_panicked
  | callback
  | notify
  /-- a caller of `clear_cache` arrives -/
  | clear_cache
  | clear_try
  | clear_done

namespace EngineOp

/-- The steps that are a critical section of the scheduler lock. -/
def takes_lock : EngineOp → Bool
  | execute_failed | copy_done | copy_failed | copy_panicked | notify | clear_cache | clear_done =>
    false
  | _ => true

variable [Hasher]

/-- What a step does, the lock aside. -/
def exec : EngineOp → Engine → Option Engine
  | add_request request arrival_time, e => some (e.add_request request arrival_time)
  | reserve_request request arrival_time, e => some (e.reserve_request request arrival_time)
  | pend_reserved i, e => e.pend_reserved i
  | trigger_request k hash_values, e => e.trigger_request k hash_values
  | push_kv hash_values, e => some (e.push_kv hash_values)
  | push_done i, e => e.push_done i
  | schedule, e => e.schedule
  | execute_failed, e => e.execute_failed
  | update infer_outputs now, e => e.update infer_outputs now
  | finish, e => e.finish
  | copy_done, e => e.copy_done
  | copy_failed, e => e.copy_failed
  | copy_panicked, e => e.copy_panicked
  | callback, e => e.callback
  | notify, e => e.notify
  | clear_cache, e => some { e with clearing := e.clearing + 1 }
  | clear_try, e => e.clear_try
  | clear_done, e => e.clear_done

/-- One step, if it is enabled. -/
def next (e : Engine) (op : EngineOp) : Option Engine :=
  if op.takes_lock ∧ e.lock ≠ .free then none else op.exec e

def Step (e : Engine) (op : EngineOp) (e' : Engine) : Prop := next e op = some e'

end EngineOp

end LMServe
