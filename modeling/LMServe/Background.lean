import LMServe.Lib.Run
import Mathlib.Data.List.Infix
import Mathlib.Data.List.Nodup

/-!
# The background thread (`background_manager.rs`)

Any number of threads call `submit` and `wait`. Reading `is_shutdown`, sending to the channel and every
poll of a `Notified` future are steps of their own. The consumer takes one entry at a time: it awaits the
future, then, unless that failed, the callback. How futures and callbacks end is not known.
-/

namespace LMServe

inductive Ending where
  | ok
  | err
  | panicked
deriving DecidableEq, Repr

inductive BackgroundCallKind where
  | submit
  | wait
deriving DecidableEq, Repr

/-- Where a call of `submit` or `wait` stands. -/
inductive Progress where
  | called
  /-- `is_shutdown` was false -/
  | accepted
  /-- the `submit` inside `wait` has returned -/
  | submitted
  /-- the `Notified` future is registered -/
  | waiting
  | woken
  | returned
deriving DecidableEq, Repr

/-- The call's `submit` is done. -/
def Progress.is_submitted : Progress → Bool
  | .called | .accepted => false
  | _ => true

structure BackgroundCall where
  kind : BackgroundCallKind
  progress : Progress
  /-- the permit that `notify_one` has stored in the call's `Notify` -/
  permit : Bool
deriving DecidableEq, Repr

/-- The position of `run_async`; an entry is named after its call. -/
inductive Consumer where
  | idle
  | future (i : Nat)
  | callback (i : Nat)
  /-- the loop has ended, or an entry has panicked; the receiver is dropped -/
  | stopped
deriving DecidableEq, Repr

inductive BackgroundEvent where
  | started (i : Nat)
  | future_ended (i : Nat) (ok : Bool)
  | callback_ended (i : Nat) (ok : Bool)
deriving DecidableEq, Repr

structure BackgroundTaskManager where
  calls : List BackgroundCall
  is_shutdown : Bool
  queue : List Nat
  consumer : Consumer
  /-- the entries that `send` has put into the channel, in that order -/
  sent : List Nat
  /-- what the consumer has done -/
  log : List BackgroundEvent
deriving DecidableEq, Repr

inductive BackgroundOp where
  | call (kind : BackgroundCallKind)
  /-- `submit` reads `is_shutdown` -/
  | check (i : Nat)
  | send (i : Nat)
  /-- `notify.notified().await` is polled -/
  | poll (i : Nat)
  | shutdown
  /-- the consumer sees the shutdown -/
  | stop
  | recv
  /-- the future of the current entry ends -/
  | future (ending : Ending)
  /-- its callback ends -/
  | callback (ending : Ending)
deriving DecidableEq, Repr

/-- Where the call goes on when `submit` is done. -/
def BackgroundCallKind.after_submit : BackgroundCallKind → Progress
  | .submit => .returned
  | .wait => .submitted

/-- `notify_one`: a registered waiter is woken, else the permit is kept. -/
def BackgroundCall.notify_one (call : BackgroundCall) : BackgroundCall :=
  if call.progress = .waiting then { call with progress := .woken } else { call with permit := true }

namespace BackgroundTaskManager

def new : BackgroundTaskManager := ⟨[], false, [], .idle, [], []⟩

def set_progress (i : Nat) (call : BackgroundCall) (progress : Progress) (s : BackgroundTaskManager) :
    BackgroundTaskManager :=
  { s with calls := s.calls.set i { call with progress } }

/-- The thread is gone, and the receiver with all that is still in the channel. -/
def stop (s : BackgroundTaskManager) : BackgroundTaskManager :=
  { s with consumer := .stopped, queue := [] }

/-- The future of the entry is done: `sync_event` calls `notify_one`. -/
def complete (i : Nat) (call : BackgroundCall) (s : BackgroundTaskManager) : BackgroundTaskManager :=
  { s with
    calls := if call.kind = .wait then s.calls.set i call.notify_one else s.calls
    consumer := .callback i
    log := s.log ++ [.future_ended i true] }

def next (s : BackgroundTaskManager) : BackgroundOp → Option BackgroundTaskManager
  | .call kind => some { s with calls := s.calls ++ [⟨kind, .called, false⟩] }
  | .check i =>
    match s.calls[i]? with
    | some call =>
      if call.progress = .called then
        some (s.set_progress i call (if s.is_shutdown then call.kind.after_submit else .accepted))
      else none
    | none => none
  | .send i =>
    match s.calls[i]? with
    | some call =>
      if call.progress = .accepted then
        -- `send` fails when there is no receiver; `submit` prints the error and returns
        if s.consumer = .stopped then some (s.set_progress i call call.kind.after_submit)
        else some (set_progress i call call.kind.after_submit
          { s with queue := s.queue ++ [i], sent := s.sent ++ [i] })
      else none
    | none => none
  | .poll i =>
    match s.calls[i]? with
    | some call =>
      match call.progress with
      | .submitted =>
        if call.permit then some (s.set_progress i { call with permit := false } .returned)
        else some (s.set_progress i call .waiting)
      | .woken => some (s.set_progress i call .returned)
      | _ => none
    | none => none
  | .shutdown => some { s with is_shutdown := true }
  | .stop => if s.consumer = .idle ∧ s.is_shutdown then some s.stop else none
  | .recv =>
    match s.consumer, s.queue with
    | .idle, i :: queue =>
      some { s with queue := queue, consumer := .future i, log := s.log ++ [.started i] }
    | _, _ => none
  | .future ending =>
    match s.consumer with
    | .future i =>
      match s.calls[i]?, ending with
      | some call, .ok => some (s.complete i call)
      -- `sync_event` only notifies, and cannot fail
      | some ⟨.submit, _, _⟩, .err =>
        some { s with consumer := .idle, log := s.log ++ [.future_ended i false] }
      | some ⟨.submit, _, _⟩, .panicked => some s.stop
      | _, _ => none
    | _ => none
  | .callback ending =>
    match s.consumer with
    | .callback i =>
      match s.calls[i]?, ending with
      | some _, .ok => some { s with consumer := .idle, log := s.log ++ [.callback_ended i true] }
      | some ⟨.submit, _, _⟩, .err =>
        some { s with consumer := .idle, log := s.log ++ [.callback_ended i false] }
      | some ⟨.submit, _, _⟩, .panicked => some s.stop
      | _, _ => none
    | _ => none

def Step (s : BackgroundTaskManager) (op : BackgroundOp) (s' : BackgroundTaskManager) : Prop :=
  next s op = some s'

/-- What the consumer does with an entry whose future fails (`none`) or whose callback ends. -/
def trace : Nat × Option Bool → List BackgroundEvent
  | (i, none) => [.started i, .future_ended i false]
  | (i, some ok) => [.started i, .future_ended i true, .callback_ended i ok]

/-- The entry the consumer has begun with, if there is one, and what it has done with it. -/
inductive Unfinished : List Nat → List BackgroundEvent → Prop
  | nil : Unfinished [] []
  | future (i : Nat) : Unfinished [i] [.started i]
  | callback (i : Nat) : Unfinished [i] [.started i, .future_ended i true]

/-- The entries are processed one at a time, each once, in the order in which they were sent. -/
def InOrder (s : BackgroundTaskManager) : Prop :=
  s.sent.Nodup ∧ ∃ (outcomes : List (Nat × Option Bool)) (current : List Nat)
    (events : List BackgroundEvent) (rest : List Nat), Unfinished current events ∧
      s.log = outcomes.flatMap trace ++ events ∧ s.sent = outcomes.map Prod.fst ++ (current ++ rest)

/-- The future has ended and, if it succeeded, the callback has ended too. -/
def Processed (s : BackgroundTaskManager) (i : Nat) : Prop :=
  ∃ ok, .future_ended i ok ∈ s.log ∧ (ok = true → ∃ ok', .callback_ended i ok' ∈ s.log)

/-- The `submit` of the `i`-th call, or the one inside it, is done. -/
def Submitted (s : BackgroundTaskManager) (i : Nat) : Prop :=
  ∃ call, s.calls[i]? = some call ∧ call.progress.is_submitted = true

def WaitReturned (s : BackgroundTaskManager) (i : Nat) : Prop :=
  ∃ call, s.calls[i]? = some call ∧ call.kind = .wait ∧ call.progress = .returned

variable {s s' s'' : BackgroundTaskManager} {op : BackgroundOp} {ops : List BackgroundOp}

/-- What a step can do. -/
inductive Does (s : BackgroundTaskManager) : BackgroundTaskManager → Prop
  | call (kind : BackgroundCallKind) : Does s { s with calls := s.calls ++ [⟨kind, .called, false⟩] }
  | check {i : Nat} {call : BackgroundCall} (hi : s.calls[i]? = some call)
      (hp : call.progress = .called) :
      Does s (s.set_progress i call (if s.is_shutdown then call.kind.after_submit else .accepted))
  | unsent {i : Nat} {call : BackgroundCall} (hi : s.calls[i]? = some call)
      (hp : call.progress = .accepted) (hc : s.consumer = .stopped) :
      Does s (s.set_progress i call call.kind.after_submit)
  | send {i : Nat} {call : BackgroundCall} (hi : s.calls[i]? = some call)
      (hp : call.progress = .accepted) (hc : s.consumer ≠ .stopped) :
      Does s (set_progress i call call.kind.after_submit
        { s with queue := s.queue ++ [i], sent := s.sent ++ [i] })
  | take {i : Nat} {call : BackgroundCall} (hi : s.calls[i]? = some call)
      (hp : call.progress = .submitted) (hpermit : call.permit = true) :
      Does s (s.set_progress i { call with permit := false } .returned)
  | register {i : Nat} {call : BackgroundCall} (hi : s.calls[i]? = some call)
      (hp : call.progress = .submitted) : Does s (s.set_progress i call .waiting)
  | wake {i : Nat} {call : BackgroundCall} (hi : s.calls[i]? = some call)
      (hp : call.progress = .woken) : Does s (s.set_progress i call .returned)
  | shutdown : Does s { s with is_shutdown := true }
  | stop : Does s s.stop
  | recv {i : Nat} {queue : List Nat} (hc : s.consumer = .idle) (hq : s.queue = i :: queue) :
      Does s { s with queue := queue, consumer := .future i, log := s.log ++ [.started i] }
  | complete {i : Nat} {call : BackgroundCall} (hc : s.consumer = .future i)
      (hi : s.calls[i]? = some call) : Does s (s.complete i call)
  | fail {i : Nat} (hc : s.consumer = .future i) :
      Does s { s with consumer := .idle, log := s.log ++ [.future_ended i false] }
  | called_back {i : Nat} (ok : Bool) (hc : s.consumer = .callback i) :
      Does s { s with consumer := .idle, log := s.log ++ [.callback_ended i ok] }

theorem does_of_step (h : Step s op s') : Does s s' := by
  unfold Step next at h
  cases op with
  | call kind => obtain rfl := Option.some.inj h; exact .call kind
  | check i =>
    simp only at h
    split at h
    · rename_i call hi
      split at h
      · rename_i hp
        obtain rfl := Option.some.inj h
        exact .check hi hp
      · cases h
    · cases h
  | send i =>
    simp only at h
    split at h
    · rename_i call hi
      split at h
      · rename_i hp
        split at h
        · rename_i hc
          obtain rfl := Option.some.inj h
          exact .unsent hi hp hc
        · rename_i hc
          obtain rfl := Option.some.inj h
          exact .send hi hp hc
      · cases h
    · cases h
  | poll i =>
    simp only at h
    split at h
    · rename_i call hi
      split at h
      · rename_i hp
        split at h
        · rename_i hpermit
          obtain rfl := Option.some.inj h
          exact .take hi hp hpermit
        · obtain rfl := Option.some.inj h
          exact .register hi hp
      · rename_i hp
        obtain rfl := Option.some.inj h
        exact .wake hi hp
      · cases h
    · cases h
  | shutdown => obtain rfl := Option.some.inj h; exact .shutdown
  | stop =>
    simp only at h
    split at h
    · obtain rfl := Option.some.inj h; exact .stop
    · cases h
  | recv =>
    simp only at h
    split at h
    · rename_i i queue hc hq
      obtain rfl := Option.some.inj h
      exact .recv hc hq
    · cases h
  | future ending =>
    simp only at h
    split at h
    · rename_i i hc
      split at h
      · rename_i call hi
        obtain rfl := Option.some.inj h
        exact .complete hc hi
      · obtain rfl := Option.some.inj h; exact .fail hc
      · obtain rfl := Option.some.inj h; exact .stop
      · cases h
    · cases h
  | callback ending =>
    simp only at h
    split at h
    · rename_i i hc
      split at h
      · obtain rfl := Option.some.inj h; exact .called_back true hc
      · obtain rfl := Option.some.inj h; exact .called_back false hc
      · obtain rfl := Option.some.inj h; exact .stop
      · cases h
    · cases h

/-- What later states keep of earlier ones. -/
structure Extends (s s' : BackgroundTaskManager) : Prop where
  sent : s.sent <+: s'.sent
  log : s.log <+: s'.log
  is_shutdown : s.is_shutdown = true → s'.is_shutdown = true
  stopped : s.consumer = .stopped → s'.consumer = .stopped ∧ s'.sent = s.sent
  length_calls : s.calls.length ≤ s'.calls.length

theorem Extends.refl : s.Extends s :=
  ⟨List.prefix_rfl, List.prefix_rfl, id, fun h => ⟨h, rfl⟩, le_rfl⟩

theorem Extends.trans (h : s.Extends s') (h' : s'.Extends s'') : s.Extends s'' where
  sent := h.sent.trans h'.sent
  log := h.log.trans h'.log
  is_shutdown hs := h'.is_shutdown (h.is_shutdown hs)
  stopped hs := by
    obtain ⟨hs', heq⟩ := h.stopped hs
    obtain ⟨hs'', heq'⟩ := h'.stopped hs'
    exact ⟨hs'', heq'.trans heq⟩
  length_calls := h.length_calls.trans h'.length_calls

theorem Extends.set_progress {i : Nat} {call : BackgroundCall} {progress : Progress} (h : s.Extends s') :
    s.Extends (s'.set_progress i call progress) :=
  ⟨h.sent, h.log, h.is_shutdown, h.stopped, h.length_calls.trans (List.length_set ..).ge⟩

theorem Does.extends (h : Does s s') : s.Extends s' := by
  cases h with
  | call kind => exact ⟨List.prefix_rfl, List.prefix_rfl, id, fun h => ⟨h, rfl⟩, by simp⟩
  | check hi hp => exact Extends.refl.set_progress
  | unsent hi hp hc => exact Extends.refl.set_progress
  | send hi hp hc =>
    exact Extends.set_progress ⟨List.prefix_append .., List.prefix_rfl, id, fun h => absurd h hc, le_rfl⟩
  | take hi hp hpermit => exact Extends.refl.set_progress
  | register hi hp => exact Extends.refl.set_progress
  | wake hi hp => exact Extends.refl.set_progress
  | shutdown => exact ⟨List.prefix_rfl, List.prefix_rfl, fun _ => rfl, fun h => ⟨h, rfl⟩, le_rfl⟩
  | stop => exact ⟨List.prefix_rfl, List.prefix_rfl, id, fun _ => ⟨rfl, rfl⟩, le_rfl⟩
  | recv hc hq =>
    exact ⟨List.prefix_rfl, List.prefix_append .., id, fun h => absurd (hc.symm.trans h) nofun, le_rfl⟩
  | complete hc hi =>
    refine ⟨List.prefix_rfl, List.prefix_append .., id, fun h => absurd (hc.symm.trans h) nofun, ?_⟩
    show _ ≤ (ite _ _ _ : List BackgroundCall).length
    split
    · exact (List.length_set ..).ge
    · exact le_rfl
  | fail hc =>
    exact ⟨List.prefix_rfl, List.prefix_append .., id, fun h => absurd (hc.symm.trans h) nofun, le_rfl⟩
  | called_back ok hc =>
    exact ⟨List.prefix_rfl, List.prefix_append .., id, fun h => absurd (hc.symm.trans h) nofun, le_rfl⟩

theorem extends_of_run (h : Run Step s ops s') : s.Extends s' :=
  h.invariant (I := s.Extends) .refl fun _ _ _ ht hs => ht.trans (does_of_step hs).extends

/-- What is true of a call wherever it stands. -/
structure CallInv (s : BackgroundTaskManager) (i : Nat) (call : BackgroundCall) : Prop where
  unsent : call.progress.is_submitted = false → i ∉ s.sent
  sent : call.progress.is_submitted = true →
    i ∈ s.sent ∨ s.is_shutdown = true ∨ s.consumer = .stopped
  /-- nobody but `sync_event` gives a waiting call leave to go on -/
  notified : call.kind = .wait →
    call.permit = true ∨ call.progress = .woken ∨ call.progress = .returned →
      .future_ended i true ∈ s.log

theorem CallInv.extend {i : Nat} {call : BackgroundCall} (h : s.CallInv i call) (he : s.Extends s')
    (hsent : i ∈ s'.sent → i ∈ s.sent) : s'.CallInv i call where
  unsent hp hi := h.unsent hp (hsent hi)
  sent hp := (h.sent hp).imp (he.sent.subset ·) (.imp he.is_shutdown (he.stopped · |>.1))
  notified hkind hp := he.log.subset (h.notified hkind hp)

/-- How far the consumer has come with the entry it has begun with. -/
inductive Pending : Consumer → List Nat → List BackgroundEvent → Prop
  | idle : Pending .idle [] []
  | future (i : Nat) : Pending (.future i) [i] [.started i]
  | callback (i : Nat) : Pending (.callback i) [i] [.started i, .future_ended i true]
  | stopped {c : Consumer} {current : List Nat} {events : List BackgroundEvent} :
      Pending c current events → Pending .stopped current events

theorem Pending.unfinished {c : Consumer} {current : List Nat} {events : List BackgroundEvent}
    (h : Pending c current events) : Unfinished current events := by
  induction h with
  | idle => exact .nil
  | future i => exact .future i
  | callback i => exact .callback i
  | stopped _ ih => exact ih

/-- What has been sent is what the consumer has taken, and then what is still in the channel. -/
def Ordered (s : BackgroundTaskManager) : Prop :=
  ∃ (outcomes : List (Nat × Option Bool)) (current : List Nat) (events : List BackgroundEvent)
    (rest : List Nat), Pending s.consumer current events ∧ s.log = outcomes.flatMap trace ++ events ∧
      s.sent = outcomes.map Prod.fst ++ (current ++ rest) ∧ (s.consumer ≠ .stopped → rest = s.queue)

structure Inv (s : BackgroundTaskManager) : Prop where
  ordered : s.Ordered
  nodup : s.sent.Nodup
  lt_length : ∀ i ∈ s.sent, i < s.calls.length
  calls : ∀ (i : Nat) (call : BackgroundCall), s.calls[i]? = some call → s.CallInv i call

theorem Inv.new : new.Inv where
  ordered := ⟨[], [], [], [], .idle, rfl, rfl, fun _ => rfl⟩
  nodup := List.nodup_nil
  lt_length _ h := absurd h (List.not_mem_nil)
  calls _ _ h := absurd h (by simp [BackgroundTaskManager.new])

theorem Inv.set_call (h : s.Inv) {i : Nat} {call call' : BackgroundCall} (hi : s.calls[i]? = some call)
    (he : s.Extends s') (hcalls : s'.calls = s.calls.set i call') (hordered : s'.Ordered)
    (hsent : s'.sent = s.sent ∨ s'.sent = s.sent ++ [i] ∧ i ∉ s.sent) (hi' : s'.CallInv i call') :
    s'.Inv := by
  have hlt : i < s.calls.length := (List.getElem?_eq_some_iff.1 hi).1
  refine ⟨hordered, ?_, fun j hj => ?_, fun j c hj => ?_⟩
  · rcases hsent with hsent | ⟨hsent, hnot⟩
    · exact hsent ▸ h.nodup
    · rw [hsent]
      exact List.nodup_append.2 ⟨h.nodup, List.nodup_singleton i, fun a ha b hb hab =>
        hnot (List.mem_singleton.1 hb ▸ hab ▸ ha)⟩
  · rw [hcalls, List.length_set]
    rcases hsent with hsent | ⟨hsent, -⟩
    · exact h.lt_length j (hsent ▸ hj)
    · rw [hsent, List.mem_append, List.mem_singleton] at hj
      rcases hj with hj | rfl
      · exact h.lt_length j hj
      · exact hlt
  · rw [hcalls] at hj
    rcases eq_or_ne i j with rfl | hne
    · rw [List.getElem?_set_self hlt] at hj
      obtain rfl := Option.some.inj hj
      exact hi'
    · rw [List.getElem?_set_ne hne] at hj
      refine (h.calls j c hj).extend he fun hmem => ?_
      rcases hsent with hsent | ⟨hsent, -⟩
      · exact hsent ▸ hmem
      · rw [hsent, List.mem_append, List.mem_singleton] at hmem
        exact hmem.resolve_right hne.symm

theorem Inv.consume (h : s.Inv) (he : s.Extends s') (hcalls : s'.calls = s.calls) (hordered : s'.Ordered)
    (hsent : s'.sent = s.sent) : s'.Inv where
  ordered := hordered
  nodup := hsent ▸ h.nodup
  lt_length i hi := hcalls ▸ h.lt_length i (hsent ▸ hi)
  calls i call hi := (h.calls i call (hcalls ▸ hi)).extend he fun hmem => hsent ▸ hmem

theorem Ordered.stop (h : s.Ordered) : s.stop.Ordered := by
  obtain ⟨outcomes, current, events, rest, hp, hlog, hsent, -⟩ := h
  exact ⟨outcomes, current, events, rest, hp.stopped, hlog, hsent, fun h => absurd rfl h⟩

theorem Ordered.recv {i : Nat} {queue : List Nat} (h : s.Ordered) (hc : s.consumer = .idle)
    (hq : s.queue = i :: queue) :
    Ordered { s with queue := queue, consumer := .future i, log := s.log ++ [.started i] } := by
  obtain ⟨outcomes, current, events, rest, hp, hlog, hsent, hrest⟩ := h
  rw [hc] at hp
  cases hp
  refine ⟨outcomes, [i], [.started i], queue, .future i, by rw [hlog, List.append_nil], ?_, fun _ => rfl⟩
  show s.sent = _
  rw [hsent, hrest (by rw [hc]; nofun), hq]
  rfl

theorem Ordered.complete {i : Nat} {call : BackgroundCall} (h : s.Ordered) (hc : s.consumer = .future i) :
    (s.complete i call).Ordered := by
  obtain ⟨outcomes, current, events, rest, hp, hlog, hsent, hrest⟩ := h
  rw [hc] at hp
  cases hp
  refine ⟨outcomes, [i], [.started i, .future_ended i true], rest, .callback i, ?_, hsent,
    fun _ => hrest (by rw [hc]; nofun)⟩
  show s.log ++ _ = _
  rw [hlog, List.append_assoc]
  rfl

theorem Ordered.finish {event : BackgroundEvent} (i : Nat) (outcome : Option Bool) (done : List BackgroundEvent)
    (h : s.Ordered) (hc : s.consumer ≠ .stopped)
    (hp : ∀ {current events}, Pending s.consumer current events → current = [i] ∧ events = done)
    (htrace : trace (i, outcome) = done ++ [event]) :
    Ordered { s with consumer := .idle, log := s.log ++ [event] } := by
  obtain ⟨outcomes, current, events, rest, hpending, hlog, hsent, hrest⟩ := h
  obtain ⟨rfl, rfl⟩ := hp hpending
  refine ⟨outcomes ++ [(i, outcome)], [], [], rest, .idle, ?_, ?_, fun _ => hrest hc⟩
  · show s.log ++ _ = _
    rw [hlog, List.flatMap_append, List.append_assoc, ← htrace]
    simp
  · show s.sent = _
    rw [hsent]
    simp

theorem Ordered.send {i : Nat} {call : BackgroundCall} {progress : Progress} (h : s.Ordered)
    (hc : s.consumer ≠ .stopped) : (set_progress i call progress
      { s with queue := s.queue ++ [i], sent := s.sent ++ [i] }).Ordered := by
  obtain ⟨outcomes, current, events, rest, hp, hlog, hsent, hrest⟩ := h
  refine ⟨outcomes, current, events, rest ++ [i], hp, hlog, ?_, fun _ => ?_⟩
  · show s.sent ++ [i] = _
    rw [hsent]
    simp
  · show _ = s.queue ++ [i]
    rw [hrest hc]

theorem Inv.move (h : s.Inv) {i : Nat} {call : BackgroundCall} {progress : Progress}
    (hi : s.calls[i]? = some call) (hi' : s.CallInv i { call with progress }) :
    (s.set_progress i call progress).Inv :=
  h.set_call hi (.set_progress .refl) rfl h.ordered (.inl rfl)
    ⟨hi'.unsent, hi'.sent, hi'.notified⟩

theorem CallInv.after_submit {i : Nat} {call : BackgroundCall} (h : s.CallInv i call)
    (hsent : i ∈ s.sent ∨ s.is_shutdown = true ∨ s.consumer = .stopped) :
    s.CallInv i { call with progress := call.kind.after_submit } := by
  obtain ⟨kind, progress, permit⟩ := call
  cases kind with
  | submit => exact ⟨nofun, fun _ => hsent, nofun⟩
  | wait =>
    refine ⟨nofun, fun _ => hsent, fun hkind hp => h.notified hkind (.inl ?_)⟩
    rcases hp with hp | hp | hp
    · exact hp
    · cases hp
    · cases hp

theorem Inv.complete {i : Nat} {call : BackgroundCall} (h : s.Inv) (hc : s.consumer = .future i)
    (hi : s.calls[i]? = some call) : (s.complete i call).Inv := by
  have he := (Does.complete hc hi).extends
  by_cases hk : call.kind = .wait
  · have hcall := (h.calls i call hi).extend he id
    refine h.set_call hi he (show _ = s.calls.set i call.notify_one from if_pos hk) (h.ordered.complete hc) (.inl rfl)
      ⟨fun hp => ?_, fun hp => ?_,
        fun _ _ => List.mem_append_right _ (List.mem_singleton_self _)⟩
    · unfold BackgroundCall.notify_one at hp
      split at hp
      · cases hp
      · exact hcall.unsent hp
    · unfold BackgroundCall.notify_one at hp
      split at hp
      · rename_i hw
        exact hcall.sent (by rw [hw]; rfl)
      · exact hcall.sent hp
  · exact h.consume he (if_neg hk) (h.ordered.complete hc) rfl

theorem Inv.of_does (h : s.Inv) (hs : Does s s') : s'.Inv := by
  have he := hs.extends
  cases hs with
  | call kind =>
    refine ⟨h.ordered, h.nodup, fun i hi => (h.lt_length i hi).trans_le he.length_calls, fun i c hi => ?_⟩
    rw [List.getElem?_append] at hi
    split at hi
    · exact (h.calls i c hi).extend he id
    · rename_i hge
      have hi0 : i - s.calls.length = 0 := by simpa using (List.getElem?_eq_some_iff.1 hi).1
      obtain rfl : ⟨kind, .called, false⟩ = c := by simpa [hi0] using hi
      refine ⟨fun _ hmem => hge (h.lt_length i hmem), nofun, fun _ hp => ?_⟩
      rcases hp with hp | hp | hp <;> cases hp
  | @check i call hi hp =>
    refine h.move hi ?_
    split
    · rename_i hshutdown
      exact (h.calls i call hi).after_submit (.inr (.inl hshutdown))
    · have hcall := h.calls i call hi
      refine ⟨fun _ => hcall.unsent (by rw [hp]; rfl), nofun, fun hkind hp => hcall.notified hkind (.inl ?_)⟩
      rcases hp with hp | hp | hp
      · exact hp
      · cases hp
      · cases hp
  | @unsent i call hi hp hc => exact h.move hi ((h.calls i call hi).after_submit (.inr (.inr hc)))
  | @send i call hi hp hc =>
    have hcall := h.calls i call hi
    have hnew : CallInv { s with queue := s.queue ++ [i], sent := s.sent ++ [i] } i
        { call with progress := call.kind.after_submit } := by
      have hmem : i ∈ s.sent ++ [i] := List.mem_append_right _ (List.mem_singleton_self i)
      obtain ⟨kind, progress, permit⟩ := call
      cases kind with
      | submit => exact ⟨nofun, fun _ => .inl hmem, nofun⟩
      | wait =>
        refine ⟨nofun, fun _ => .inl hmem, fun hkind hp => hcall.notified hkind (.inl ?_)⟩
        rcases hp with hp | hp | hp
        · exact hp
        · cases hp
        · cases hp
    exact h.set_call hi he rfl (h.ordered.send hc) (.inr ⟨rfl, hcall.unsent (by rw [hp]; rfl)⟩)
      ⟨hnew.unsent, hnew.sent, hnew.notified⟩
  | @take i call hi hp hpermit =>
    have hcall := h.calls i call hi
    exact h.set_call hi he rfl h.ordered (.inl rfl)
      ⟨nofun, fun _ => hcall.sent (by rw [hp]; rfl), fun hkind _ => hcall.notified hkind (.inl hpermit)⟩
  | @register i call hi hp =>
    have hcall := h.calls i call hi
    refine h.move hi ⟨nofun, fun _ => hcall.sent (by rw [hp]; rfl), fun hkind hp =>
      hcall.notified hkind (.inl ?_)⟩
    rcases hp with hp | hp | hp
    · exact hp
    · cases hp
    · cases hp
  | @wake i call hi hp =>
    have hcall := h.calls i call hi
    exact h.move hi ⟨nofun, fun _ => hcall.sent (by rw [hp]; rfl),
      fun hkind _ => hcall.notified hkind (.inr (.inl hp))⟩
  | shutdown => exact ⟨h.ordered, h.nodup, h.lt_length, fun i call hi => (h.calls i call hi).extend he id⟩
  | stop => exact h.consume he rfl h.ordered.stop rfl
  | recv hc hq => exact h.consume he rfl (h.ordered.recv hc hq) rfl
  | complete hc hi => exact h.complete hc hi
  | @fail i hc =>
    refine h.consume he rfl (h.ordered.finish i none [.started i] (by rw [hc]; nofun) (fun hp => ?_) rfl) rfl
    rw [hc] at hp
    cases hp
    exact ⟨rfl, rfl⟩
  | @called_back i ok hc =>
    refine h.consume he rfl (h.ordered.finish i (some ok)
      [.started i, .future_ended i true] (by rw [hc]; nofun) (fun hp => ?_) rfl) rfl
    rw [hc] at hp
    cases hp
    exact ⟨rfl, rfl⟩

theorem Inv.of_run (h : s.Inv) (hr : Run Step s ops s') : s'.Inv :=
  hr.invariant h fun _ _ _ ht hs => ht.of_does (does_of_step hs)

theorem Inv.in_order (h : s.Inv) : s.InOrder := by
  obtain ⟨outcomes, current, events, rest, hp, hlog, hsent, -⟩ := h.ordered
  exact ⟨h.nodup, outcomes, current, events, rest, hp.unfinished, hlog, hsent⟩

/-- No call from the `n`-th on gets through `submit`. -/
structure Refused (n : Nat) (s : BackgroundTaskManager) : Prop where
  is_shutdown : s.is_shutdown = true
  calls : ∀ (i : Nat) (call : BackgroundCall), s.calls[i]? = some call → n ≤ i → call.progress ≠ .accepted
  unsent : ∀ i ∈ s.sent, i < n

theorem Inv.refused (h : s.Inv) (hs : s.is_shutdown = true) : s.Refused s.calls.length where
  is_shutdown := hs
  calls _ _ hi hn := absurd (List.getElem?_eq_some_iff.1 hi).1 (not_lt.2 hn)
  unsent := h.lt_length

theorem Refused.set_call {n i : Nat} {call' : BackgroundCall} (h : s.Refused n)
    (hs : s'.is_shutdown = true) (hcalls : s'.calls = s.calls.set i call') (hsent : s'.sent = s.sent)
    (hp : n ≤ i → call'.progress ≠ .accepted) : s'.Refused n := by
  refine ⟨hs, fun j c hj hn => ?_, hsent ▸ h.unsent⟩
  rw [hcalls, List.getElem?_set] at hj
  split at hj
  · split at hj
    · rename_i hij _
      obtain rfl := Option.some.inj hj
      exact hp (hij ▸ hn)
    · cases hj
  · exact h.calls j c hj hn

theorem after_submit_ne (kind : BackgroundCallKind) : kind.after_submit ≠ .accepted := by
  cases kind <;> nofun

theorem Refused.of_does {n : Nat} (h : s.Refused n) (hs : Does s s') : s'.Refused n := by
  have hshutdown := hs.extends.is_shutdown h.is_shutdown
  cases hs with
  | call kind =>
    refine ⟨hshutdown, fun i c hi hni => ?_, h.unsent⟩
    rw [List.getElem?_append] at hi
    split at hi
    · exact h.calls i c hi hni
    · have hi0 : i - s.calls.length = 0 := by simpa using (List.getElem?_eq_some_iff.1 hi).1
      obtain rfl : ⟨kind, .called, false⟩ = c := by simpa [hi0] using hi
      nofun
  | @check i call hi hp =>
    refine h.set_call hshutdown rfl rfl fun _ => ?_
    rw [if_pos h.is_shutdown]
    exact after_submit_ne call.kind
  | @unsent i call hi hp hc =>
    exact h.set_call hshutdown rfl rfl fun _ => after_submit_ne call.kind
  | @send i call hi hp hc =>
    have hlt : i < n := not_le.1 fun hle => h.calls i call hi hle hp
    refine ⟨hshutdown, fun j c hj hnj => ?_, fun j hj => ?_⟩
    · rw [show (set_progress _ _ _ _).calls = _ from rfl] at hj
      exact h.calls j c ((List.getElem?_set_ne (by omega)).symm.trans hj) hnj
    · rcases List.mem_append.1 hj with hj | hj
      · exact h.unsent j hj
      · exact List.mem_singleton.1 hj ▸ hlt
  | take hi hp hpermit => exact h.set_call hshutdown rfl rfl fun _ => nofun
  | register hi hp => exact h.set_call hshutdown rfl rfl fun _ => nofun
  | wake hi hp => exact h.set_call hshutdown rfl rfl fun _ => nofun
  | @complete i call hc hi =>
    by_cases hk : call.kind = .wait
    · refine h.set_call hshutdown (show _ = s.calls.set i call.notify_one from if_pos hk) rfl fun hni => ?_
      unfold BackgroundCall.notify_one
      split
      · nofun
      · exact h.calls i call hi hni
    · exact ⟨hshutdown, by rw [show (complete i call s).calls = _ from if_neg hk]; exact h.calls, h.unsent⟩
  | shutdown | stop | recv | fail | called_back => exact ⟨hshutdown, h.calls, h.unsent⟩

theorem Refused.of_run {n : Nat} (h : s.Refused n) (hr : Run Step s ops s') : s'.Refused n :=
  hr.invariant h fun _ _ _ ht hs => ht.of_does (does_of_step hs)

theorem trace_ended {o : Nat × Option Bool} {l : List BackgroundEvent} (h : ∀ e ∈ trace o, e ∈ l) :
    ∃ ok, .future_ended o.1 ok ∈ l ∧ (ok = true → ∃ ok', .callback_ended o.1 ok' ∈ l) := by
  obtain ⟨i, _ | ok⟩ := o
  · exact ⟨false, h _ (by simp [trace]), nofun⟩
  · exact ⟨true, h _ (by simp [trace]), fun _ => ⟨ok, h _ (by simp [trace])⟩⟩

/-- An entry whose future has ended is done with, or in its callback. -/
theorem Unfinished.taken {current : List Nat} {events : List BackgroundEvent} (h : Unfinished current events)
    (outcomes : List (Nat × Option Bool)) {w : Nat} {ok : Bool}
    (hended : .future_ended w ok ∈ outcomes.flatMap trace ++ events) :
    w ∈ outcomes.map Prod.fst ∨ current = [w] := by
  rw [List.mem_append, List.mem_flatMap] at hended
  rcases hended with ⟨⟨j, outcome⟩, ho, hmem⟩ | hmem
  · refine .inl (List.mem_map.2 ⟨_, ho, ?_⟩)
    cases outcome <;> simp [trace] at hmem <;> exact hmem.1.symm
  · cases h with
    | nil => cases hmem
    | future j => simp at hmem
    | callback j =>
      obtain ⟨rfl, -⟩ : w = j ∧ ok = true := by simpa using hmem
      exact .inr rfl

/-- What had been sent before an entry whose future has ended has been processed. -/
theorem Inv.processed (h : s.Inv) {before : List Nat} (hb : before <+: s.sent) {i w : Nat} {ok : Bool}
    (hi : i ∈ before) (hw : w ∉ before) (hended : .future_ended w ok ∈ s.log) : s.Processed i := by
  obtain ⟨outcomes, current, events, rest, hp, hlog, hsent, -⟩ := h.ordered
  have htaken := hp.unfinished.taken outcomes (hlog ▸ hended)
  have hdone : before <+: outcomes.map Prod.fst := by
    rcases htaken with hmem | rfl
    · have hpre : outcomes.map Prod.fst <+: s.sent := hsent ▸ List.prefix_append ..
      exact (List.prefix_or_prefix_of_prefix hb hpre).resolve_right fun hle => hw (hle.subset hmem)
    · have hpre : outcomes.map Prod.fst ++ [w] <+: s.sent := by
        rw [hsent, ← List.append_assoc]
        exact List.prefix_append ..
      have hlast : w ∈ outcomes.map Prod.fst ++ [w] := List.mem_append_right _ (List.mem_singleton_self w)
      have hle := (List.prefix_or_prefix_of_prefix hb hpre).resolve_right fun hle => hw (hle.subset hlast)
      exact (List.prefix_concat_iff.1 hle).resolve_left fun heq => hw (heq ▸ hlast)
  obtain ⟨o, ho, rfl⟩ := List.mem_map.1 (hdone.subset hi)
  refine trace_ended fun e he => ?_
  rw [hlog]
  exact List.mem_append_left _ (List.mem_flatMap.2 ⟨o, ho, he⟩)

/-- An entry submitted before a call was made is sent before that call's entry, if this is sent at all. -/
theorem Inv.sent_before (h : s.Inv) (hr : Run Step s ops s') {i j : Nat} (hi : s.Submitted i)
    (hj : s.calls.length ≤ j) (hsent : j ∈ s'.sent) : i ∈ s.sent ∧ j ∉ s.sent := by
  have hnew : j ∉ s.sent := fun hmem => absurd (h.lt_length j hmem) (not_lt.2 hj)
  obtain ⟨call, hcall, hp⟩ := hi
  refine ⟨?_, hnew⟩
  rcases (h.calls i call hcall).sent hp with hmem | hshutdown | hstopped
  · exact hmem
  · exact absurd (((h.refused hshutdown).of_run hr).unsent j hsent) (not_lt.2 hj)
  · exact absurd (((extends_of_run hr).stopped hstopped).2 ▸ hsent) hnew

theorem Inv.mem_sent (h : s.Inv) {w : Nat} {ok : Bool} (hended : .future_ended w ok ∈ s.log) :
    w ∈ s.sent := by
  obtain ⟨outcomes, current, events, rest, hp, hlog, hsent, -⟩ := h.ordered
  rw [hsent]
  rcases hp.unfinished.taken outcomes (hlog ▸ hended) with hmem | rfl
  · exact List.mem_append_left _ hmem
  · exact List.mem_append_right _ (List.mem_append_left _ (List.mem_singleton_self w))

/-- Between any two states of a run: an entry whose `submit` was done in the first is sent before those of
all calls made later, and processed when a `wait` called later has returned. -/
theorem wait_is_barrier {ops₁ ops₂ : List BackgroundOp} {s₁ s₂ : BackgroundTaskManager}
    (h₁ : Run Step new ops₁ s₁) (h₂ : Run Step s₁ ops₂ s₂) :
    s₂.InOrder ∧ ∀ i, s₁.Submitted i → ∀ j, s₁.calls.length ≤ j →
      (j ∈ s₂.sent → s₂.sent.idxOf i < s₂.sent.idxOf j) ∧ (s₂.WaitReturned j → s₂.Processed i) := by
  have hs₁ := Inv.new.of_run h₁
  have hs₂ := hs₁.of_run h₂
  have hpre := (extends_of_run h₂).sent
  refine ⟨hs₂.in_order, fun i hi j hj => ⟨fun hmem => ?_, fun ⟨call, hcall, hkind, hp⟩ => ?_⟩⟩
  · obtain ⟨hold, hnew⟩ := hs₁.sent_before h₂ hi hj hmem
    obtain ⟨later, heq⟩ := hpre
    rw [← heq, List.idxOf_append_of_mem hold, List.idxOf_append_of_notMem hnew]
    exact (List.idxOf_lt_length_of_mem hold).trans_le (Nat.le_add_right ..)
  · have hended := (hs₂.calls j call hcall).notified hkind (.inr (.inr hp))
    obtain ⟨hold, hnew⟩ := hs₁.sent_before h₂ hi hj (hs₂.mem_sent hended)
    exact hs₂.processed hpre hold hnew hended

/-- A copy fails, the next one succeeds, and the `wait` behind them returns. -/
theorem wait_is_barrier_returned :
    ∃ ops₁ s₁ ops₂ s₂, Run Step new ops₁ s₁ ∧ Run Step s₁ ops₂ s₂ ∧ s₂.WaitReturned 2 ∧
      s₂.InOrder ∧ s₂.Processed 0 ∧ s₂.Processed 1 := by
  let submitted : BackgroundTaskManager :=
    ⟨[⟨.submit, .returned, false⟩, ⟨.submit, .returned, false⟩], false, [0, 1], .idle, [0, 1], []⟩
  let ops : List BackgroundOp := [.call .wait, .recv, .check 2, .send 2, .future .err, .recv, .poll 2,
    .future .ok, .callback .ok, .recv, .future .ok, .poll 2, .callback .ok]
  have h₁ : Run Step new [.call .submit, .check 0, .send 0, .call .submit, .check 1, .send 1] submitted :=
    Run.of_follow (fun _ _ _ h => h) rfl
  have hrun : ∃ s₂, Run Step submitted ops s₂ ∧ (s₂.calls[2]? == some ⟨.wait, .returned, false⟩) = true :=
    Run.exists_of_follow (fun _ _ _ h => h) (by decide)
  obtain ⟨s₂, h₂, hp⟩ := hrun
  have hret : s₂.WaitReturned 2 := ⟨_, eq_of_beq hp, rfl, rfl⟩
  obtain ⟨horder, hbarrier⟩ := wait_is_barrier h₁ h₂
  exact ⟨_, submitted, ops, s₂, h₁, h₂, hret, horder, (hbarrier 0 ⟨_, rfl, rfl⟩ 2 le_rfl).2 hret,
    (hbarrier 1 ⟨_, rfl, rfl⟩ 2 le_rfl).2 hret⟩

end BackgroundTaskManager

end LMServe
