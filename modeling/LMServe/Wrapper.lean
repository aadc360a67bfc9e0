import LMServe.Census

/-!
# The callers of the engine (`engine.rs`, `LLMEngineWrapper`)

A `generate` or `trigger` call registers an event under its session id, hands its request to the
engine, and waits for the event; `run_engine` puts the outputs of finished tasks into
`request_outputs` and fires their events. Every stretch between two awaits is a step of its own.
Publishing statistics is an await that may fail. `notify_waiters` wakes the `Notified` futures that
exist at that moment and leaves nothing behind for later ones.
-/

namespace LMServe

inductive CallKind where
  | generate (request : GenerateRequest)
  | trigger (session_id : Nat)
deriving DecidableEq, Repr

def CallKind.session_id : CallKind → Nat
  | generate request => request.session_id
  | trigger session_id => session_id

/-- Where a call stands. -/
inductive CallState where
  /-- its event is in `request_events` -/
  | registered
  /-- the engine has its request; `generate` publishes the statistics -/
  | added
  /-- its `Notified` future exists -/
  | waiting
  | woken
  | returned (request_output : InferTask)
  /-- it returned an error, or panicked -/
  | failed
deriving DecidableEq

structure Call where
  kind : CallKind
  state : CallState
  /-- the task that `add_request` built, or `trigger_request` found -/
  infer_task : Option InferTask
deriving DecidableEq

def Call.session_id (call : Call) : Nat := call.kind.session_id

/-- Events are named after the call that waits for them, by its place in `calls`. -/
structure Wrapper where
  engine : Engine
  request_events : Table Nat
  request_outputs : Table InferTask
  calls : List Call
  /-- what `iter` has returned, or will return, and `run_engine` has still to hand out -/
  outputs : List InferTask
  /-- the session whose output has been handed out and whose event comes next -/
  notifying : Option Nat
  /-- `run_engine` has panicked on a missing event -/
  panicked : Bool

inductive WrapperOp where
  /-- a step of the engine that is not part of a call -/
  | engine (op : EngineOp)
  /-- a call arrives and registers its event -/
  | generate (request : GenerateRequest)
  /-- the same, for what the `k`-th reservation returned -/
  | trigger (k : Nat)
  | add_request (i : Nat) (arrival_time : Nat)
  | trigger_request (i k : Nat) (hash_values : List Nat)
  | publish_failed (i : Nat)
  /-- the call has published and starts to wait -/
  | notified (i : Nat)
  /-- a woken call takes its output -/
  | take_output (i : Nat)
  /-- `run_engine` puts the next output into `request_outputs` -/
  | put_output
  /-- `run_engine` removes the event of that output and fires it -/
  | notify_waiters

def LoopState.is_idle : LoopState → Bool
  | .idle => true
  | _ => false

namespace Wrapper

def new (c : SchedulerConfig) : Wrapper := ⟨Engine.new c, ∅, ∅, [], [], none, false⟩

/-- A call arrives. -/
def register (kind : CallKind) (x : Wrapper) : Wrapper :=
  { x with
    request_events := x.request_events.insert kind.session_id x.calls.length
    calls := x.calls ++ [⟨kind, .registered, none⟩] }

def set_state (i : Nat) (call : Call) (state : CallState) (x : Wrapper) : Wrapper :=
  { x with calls := x.calls.set i { call with state } }

/-- `notify_waiters` on the event of the `i`-th call. -/
def wake (i : Nat) (x : Wrapper) : Wrapper :=
  match x.calls[i]? with
  | some call => if call.state = .waiting then x.set_state i call .woken else x
  | none => x

section
variable [Hasher]

/-- A step of the engine, with what `iter` is going to return after it. -/
def on_engine (op : EngineOp) (x : Wrapper) : Option Wrapper :=
  (EngineOp.next x.engine op).map fun e =>
    { x with engine := e, outputs := x.outputs ++ op.returned x.engine e }

/-- The part of `generate` that is in `LLMEngine::add_request`, up to publishing. -/
def add_request (i : Nat) (arrival_time : Nat) (x : Wrapper) : Option Wrapper :=
  match x.calls[i]? with
  | some ⟨.generate request, .registered, _⟩ =>
    let added := (attempt (System.add_request request arrival_time) x.engine.system).1.isSome
    (x.on_engine (.add_request request arrival_time)).map (·.set_state i
      ⟨.generate request, .registered,
        some (request.to_task x.engine.system.next_seq_id arrival_time)⟩
      (if added then .added else .failed))
  | _ => none

def trigger_request (i k : Nat) (hash_values : List Nat) (x : Wrapper) : Option Wrapper :=
  match x.calls[i]?, x.engine.remote[k]? with
  | some ⟨.trigger session_id, .registered, _⟩, some (session, region) =>
    if session = session_id then
      let triggered := (attempt (System.on_scheduler (Scheduler.trigger_pend_task session_id
        (region.map (·.block_region.id)) hash_values)) x.engine.system).1.isSome
      (x.on_engine (.trigger_request k hash_values)).map (·.set_state i
        ⟨.trigger session_id, .registered, x.engine.pending.lookup session_id⟩
        (if triggered then .added else .failed))
    else none
  | _, _ => none

def next (x : Wrapper) : WrapperOp → Option Wrapper
  | .engine op =>
    match op with
    | .add_request _ _ | .trigger_request _ _ => none
    -- `iter` is called again only after the outputs have been handed out
    | .schedule => if x.outputs.isEmpty ∧ x.notifying = none then x.on_engine .schedule else none
    | op => x.on_engine op
  | .generate request => some (x.register (.generate request))
  | .trigger k => x.engine.remote[k]?.map fun output => x.register (.trigger output.1)
  | .add_request i arrival_time => x.add_request i arrival_time
  | .trigger_request i k hash_values => x.trigger_request i k hash_values
  | .publish_failed i =>
    match x.calls[i]? with
    | some ⟨.generate request, .added, t⟩ => some (x.set_state i ⟨.generate request, .added, t⟩ .failed)
    | _ => none
  | .notified i =>
    match x.calls[i]? with
    | some call => if call.state = .added then some (x.set_state i call .waiting) else none
    | none => none
  | .take_output i =>
    match x.calls[i]? with
    | some call =>
      if call.state = .woken then
        match x.request_outputs.lookup call.session_id with
        | some request_output => some (set_state i call (.returned request_output)
            { x with request_outputs := x.request_outputs.erase call.session_id })
        | none => some (x.set_state i call .failed)
      else none
    | none => none
  | .put_output =>
    match x.outputs with
    | infer_task :: outputs =>
      if x.engine.loop.is_idle ∧ x.notifying = none then
        some { x with
          request_outputs := x.request_outputs.insert infer_task.session_id infer_task
          outputs := outputs
          notifying := some infer_task.session_id }
      else none
    | [] => none
  | .notify_waiters =>
    match x.notifying with
    | some session_id =>
      match x.request_events.lookup session_id with
      | some i => some (wake i
          { x with request_events := x.request_events.erase session_id, notifying := none })
      | none => some { x with
          engine := { x.engine with loop := .dead }
          notifying := none
          panicked := true }
    | none => none

def Step (x : Wrapper) (op : WrapperOp) (x' : Wrapper) : Prop := next x op = some x'

end

end Wrapper

end LMServe
