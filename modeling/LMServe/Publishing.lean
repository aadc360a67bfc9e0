import LMServe.Idle
import LMServe.Census
import Mathlib.Algebra.Order.Ring.Unbundled.Rat

/-!
# The statistics of an engine (`stats.rs`, `monitor.rs`, `router.rs`)

The handlers and the engine loop compute the statistics under the scheduler lock and hand them to NATS
after they have given it up; the monitor keeps what has come in last, and the router asks it. A handler may
be overtaken between its section and its publish: the message that comes in last is then not the one that
was computed last.
-/

namespace LMServe
open Hoare

/-- The usages are the exact quotients; `none` is the NaN of an empty pool. -/
structure Stats where
  num_running_reqs : Nat
  num_allocated_reqs : Nat
  num_waiting_reqs : Nat
  num_pending_reqs : Nat
  num_promoted_reqs : Nat
  gpu_kv_block_usage : Option Rat
  host_kv_block_usage : Option Rat
deriving DecidableEq

def BlockAllocator.get_block_usage (a : BlockAllocator) : Option Rat :=
  let num_use_blocks := a.num_total_blocks - a.free_block_ids.length
  if a.num_total_blocks = 0 then none else some (num_use_blocks / a.num_total_blocks)

def BlockManager.get_block_usage (m : BlockManager) : Option Rat := m.block_allocator.get_block_usage

/-- With nothing waiting, no arrival time is greater than `u64::MAX`. -/
def Scheduler.get_stats (s : Scheduler) : Stats where
  num_running_reqs := s.running_batch.entries.length
  num_allocated_reqs := s.allocated.length
  num_waiting_reqs := s.waiting.length
  num_pending_reqs := s.pending.entries.length
  num_promoted_reqs := match s.waiting.head? with
    | some head => s.allocated.countP fun t => decide (head.arrival_time < t.arrival_time)
    | none => 0
  gpu_kv_block_usage := s.gpu_block_manager.get_block_usage
  host_kv_block_usage := s.host_block_manager.get_block_usage

namespace Stats

/-- JSON has no NaN: `to_vec` writes `null` for it, which `from_slice` does not take for a number. -/
def readable (st : Stats) : Bool := st.gpu_kv_block_usage.isSome && st.host_kv_block_usage.isSome

/-- What the router compares first. -/
def num_wait_reqs (st : Stats) : Nat := st.num_waiting_reqs + st.num_pending_reqs

/-- The statistics of an engine without tasks in its queues. -/
def Idle (st : Stats) : Prop :=
  st.num_waiting_reqs = 0 ∧ st.num_allocated_reqs = 0 ∧ st.num_pending_reqs = 0

instance (st : Stats) : Decidable st.Idle := inferInstanceAs (Decidable (_ ∧ _ ∧ _))

/-- `partial_cmp`, where a NaN counts as equal -/
def compare_usage : Option Rat → Option Rat → Ordering
  | some a, some b => compare a b
  | _, _ => .eq

def compare (a b : Stats) : Ordering :=
  (Ord.compare a.num_wait_reqs b.num_wait_reqs).then (compare_usage a.gpu_kv_block_usage b.gpu_kv_block_usage)

end Stats

/-- `LoadBalanceNodeScheduler::select` over the answer of the monitor, in the order of its map: `min_by`
takes the later one only if it compares less. -/
def select {ν : Type} : List (ν × Stats) → Option ν
  | [] => none
  | first :: rest => some (rest.foldl (fun a b => if a.2.compare b.2 = .gt then b else a) first).1

theorem Stats.num_wait_reqs_le {a b : Stats} :
    (if a.compare b = .gt then b else a).num_wait_reqs ≤ min a.num_wait_reqs b.num_wait_reqs := by
  split
  · rename_i hgt
    have hle : b.num_wait_reqs ≤ a.num_wait_reqs := by
      rcases Ordering.then_eq_gt.1 hgt with h | ⟨h, -⟩
      · exact (Nat.compare_eq_gt.1 h).le
      · exact (Nat.compare_eq_eq.1 h).ge
    exact le_min hle le_rfl
  · rename_i hgt
    refine le_min le_rfl (Nat.le_of_not_lt fun hlt => hgt ?_)
    exact Ordering.then_eq_gt.2 (.inl (Nat.compare_eq_gt.2 hlt))

theorem select_min {ν : Type} {answer : List (ν × Stats)} {node : ν} (h : select answer = some node) :
    ∃ st, (node, st) ∈ answer ∧ ∀ p ∈ answer, st.num_wait_reqs ≤ p.2.num_wait_reqs := by
  have hfold : ∀ (rest : List (ν × Stats)) (a : ν × Stats),
      rest.foldl (fun a b => if a.2.compare b.2 = .gt then b else a) a ∈ a :: rest ∧
        ∀ p ∈ a :: rest, (rest.foldl (fun a b => if a.2.compare b.2 = .gt then b else a) a).2.num_wait_reqs ≤
          p.2.num_wait_reqs := by
    intro rest
    induction rest with
    | nil => exact fun a => ⟨List.mem_cons_self, fun p hp => by rw [List.mem_singleton.1 hp]; exact le_rfl⟩
    | cons b rest ih =>
      intro a
      obtain ⟨c, hc⟩ : ∃ c, c = if a.2.compare b.2 = .gt then b else a := ⟨_, rfl⟩
      have hle : c.2.num_wait_reqs ≤ min a.2.num_wait_reqs b.2.num_wait_reqs := by
        have hmin := Stats.num_wait_reqs_le (a := a.2) (b := b.2)
        rwa [← apply_ite Prod.snd, ← hc] at hmin
      obtain ⟨hmem, hleast⟩ := ih c
      rw [List.foldl_cons, ← hc]
      refine ⟨?_, fun p hp => ?_⟩
      · rcases List.mem_cons.1 hmem with heq | hmem
        · rw [heq, hc]
          split
          · exact .tail _ List.mem_cons_self
          · exact List.mem_cons_self
        · exact .tail _ (.tail _ hmem)
      · rcases List.mem_cons.1 hp with rfl | hp
        · exact (hleast c List.mem_cons_self).trans (hle.trans (min_le_left _ _))
        · rcases List.mem_cons.1 hp with rfl | hp
          · exact (hleast c List.mem_cons_self).trans (hle.trans (min_le_right _ _))
          · exact hleast p (.tail _ hp)
  cases answer with
  | nil => cases h
  | cons first rest =>
    obtain rfl := Option.some.inj h
    exact ⟨_, hfold rest first⟩

/-- Who is to publish. -/
inductive Publisher where
  | handler
  | loop
deriving DecidableEq

/-- An engine with its statistics on their way to the monitor. -/
structure Publishing where
  engine : Engine
  /-- computed and not yet handed to NATS, in the order in which they were computed -/
  outstanding : List (Publisher × Stats)
  /-- handed to NATS and not yet delivered -/
  connection : List Stats
  /-- the monitor's entry for the engine -/
  stored : Option Stats

namespace EngineOp
variable [Hasher]

/-- The statistics that the step is to publish, if any, are those of the state it leaves. -/
def reports (e : Engine) : EngineOp → Option Publisher
  | add_request request arrival_time =>
    if (attempt (System.add_request request arrival_time) e.system).1.isSome then some .handler else none
  | schedule =>
    if e.system.scheduler.is_task_queue_empty then none
    else match attempt (System.on_scheduler Scheduler.schedule) e.system with
      | (some batch, _) => if batch.infer_inputs.isEmpty then none else some .loop
      | (none, _) => none
  | update infer_outputs now => match attempt (System.update infer_outputs now) e.system with
    | (some finished, _) => if finished.isEmpty then none else some .loop
    | (none, _) => none
  | _ => none

/-- The steps of `iter` that come after a publish of its own: `join!` and `await` wait for it. -/
def awaits : EngineOp → Bool
  | schedule | update .. | finish => true
  | _ => false

end EngineOp

/-- A batch is with the workers, or `iter` has panicked. -/
def LoopState.is_running : LoopState → Bool
  | .executing _ | .dead => true
  | _ => false

inductive PublishingOp where
  | engine (op : EngineOp)
  | publish (k : Nat)
  /-- the future that was to publish is dropped: a client has gone, or `iter` has panicked -/
  | cancel (k : Nat)
  | deliver

namespace Publishing

/-- `LLMEngine::new` registers the engine with its first statistics. -/
def new (c : SchedulerConfig) : Publishing :=
  ⟨Engine.new c, [(.loop, (Scheduler.new c).get_stats)], [], none⟩

def publish (k : Nat) (x : Publishing) : Option Publishing :=
  x.outstanding[k]?.map fun (_, st) =>
    { x with outstanding := x.outstanding.eraseIdx k, connection := x.connection ++ [st] }

def cancel (k : Nat) (x : Publishing) : Option Publishing :=
  match x.outstanding[k]? with
  | some (.handler, _) => some { x with outstanding := x.outstanding.eraseIdx k }
  | some (.loop, _) =>
    if x.engine.dead then some { x with outstanding := x.outstanding.eraseIdx k } else none
  | none => none

/-- One round of the updates loop of the monitor. -/
def deliver (x : Publishing) : Option Publishing :=
  match x.connection with
  | [] => none
  | st :: rest => some { x with connection := rest, stored := if st.readable then some st else x.stored }

variable [Hasher]

def engine_step (op : EngineOp) (x : Publishing) : Option Publishing :=
  if op.awaits && x.outstanding.any (·.1 = .loop) then none
  else (EngineOp.next x.engine op).map fun e => { x with
    engine := e
    outstanding := x.outstanding ++
      ((EngineOp.reports x.engine op).map fun p => (p, e.system.scheduler.get_stats)).toList }

def next (x : Publishing) : PublishingOp → Option Publishing
  | .engine op => x.engine_step op
  | .publish k => x.publish k
  | .cancel k => x.cancel k
  | .deliver => x.deliver

def Step (x : Publishing) (op : PublishingOp) (x' : Publishing) : Prop := next x op = some x'

/-- Statistics are handed to NATS in the order in which they were computed, and the monitor can read them;
and no panic takes the last task out of the queues. -/
def timely (x : Publishing) : PublishingOp → Bool
  | .engine op => !(op.panics x.engine &&
      (op.exec x.engine).any fun e => e.system.scheduler.is_task_queue_empty)
  | .publish k => k == 0 && x.outstanding[k]?.all (·.2.readable)
  | _ => true

omit [Hasher] in
/-- Everything that was computed has been published and delivered. -/
def Settled (x : Publishing) : Prop := x.outstanding = [] ∧ x.connection = []

end Publishing

/-! ### What is published -/

theorem Scheduler.get_stats_idle {s : Scheduler} : s.get_stats.Idle ↔ ¬ s.Busy := by
  rw [Scheduler.busy_iff]
  simp only [Stats.Idle, Scheduler.get_stats, List.length_eq_zero_iff]
  tauto

namespace EngineOp

section
variable [Hasher] {e e' : Engine} {op : EngineOp}

/-- Only `iter` itself moves between its sections. -/
theorem running_of_step (h : Step e op e') (hop : op.awaits = false) :
    e'.loop.is_running = e.loop.is_running := by
  obtain ⟨-, h⟩ := next_eq h
  cases op with
  | add_request request arrival_time =>
    obtain rfl := Option.some.inj h
    unfold Engine.add_request
    split
    · rw [submit_loop]
    · rfl
  | reserve_request request arrival_time =>
    obtain rfl := Option.some.inj h
    unfold Engine.reserve_request
    split <;> rfl
  | pend_reserved i =>
    simp only [exec, Engine.pend_reserved] at h
    split at h
    · split at h <;> obtain rfl := Option.some.inj h <;> rfl
    · cases h
  | trigger_request k hash_values =>
    simp only [exec, Engine.trigger_request] at h
    split at h
    · obtain rfl := Option.some.inj h; rfl
    · cases h
  | push_kv hash_values =>
    obtain rfl := Option.some.inj h
    unfold Engine.push_kv
    split <;> rfl
  | push_done i =>
    simp only [exec, Engine.push_done] at h
    split at h
    · obtain rfl := Option.some.inj h; rfl
    · cases h
  | schedule | update infer_outputs now | finish => cases hop
  | execute_failed =>
    simp only [exec, Engine.execute_failed] at h
    split at h
    · rename_i heq
      obtain rfl := Option.some.inj h
      rw [heq]
      rfl
    · cases h
  | copy_done | copy_failed | copy_panicked =>
    simp only [exec, Engine.copy_done, Engine.copy_failed, Engine.copy_panicked] at h
    split at h
    · obtain rfl := Option.some.inj h; rfl
    · cases h
  | callback =>
    have hcomplete : ∀ {α : Type} (x : SysM α), (Engine.complete x e).loop = e.loop := fun x => by
      unfold Engine.complete
      split <;> rfl
    simp only [exec, Engine.callback] at h
    split at h
    · split at h
      · obtain rfl := Option.some.inj h; rw [hcomplete]
      · obtain rfl := Option.some.inj h; rw [hcomplete]
      · cases h
    · cases h
  | notify =>
    simp only [exec, Engine.notify] at h
    split at h
    · obtain rfl := Option.some.inj h; rfl
    · cases h
  | clear_cache => obtain rfl := Option.some.inj h; rfl
  | clear_try =>
    simp only [exec, Engine.clear_try] at h
    split at h
    · cases h
    · split at h
      · obtain rfl := Option.some.inj h; rw [submit_loop]
      · obtain rfl := Option.some.inj h; rfl
  | clear_done =>
    simp only [exec, Engine.clear_done] at h
    split at h
    · obtain rfl := Option.some.inj h; rfl
    · cases h

theorem schedule_busy {batch : Scheduler.Batch} {s : System}
    (h : attempt (System.on_scheduler Scheduler.schedule) e.system = (some batch, s)) (hb : e.system.Busy) :
    s.Busy := by
  obtain ⟨σ, hσ, rfl⟩ := System.on_scheduler_ok (attempt_some h)
  exact Scheduler.schedule_busy hσ hb

theorem trigger_busy {session_id : Nat} {region_id : Option Nat} {hash_values : List Nat} {s : System}
    (h : attempt (System.on_scheduler (Scheduler.trigger_pend_task session_id region_id hash_values)) e.system =
      (some .unit, s)) : s.Busy := by
  obtain ⟨σ, hσ, rfl⟩ := System.on_scheduler_ok (attempt_some h)
  exact Scheduler.trigger_pend_task_busy hσ

/-- A handler that has statistics to publish has just queued its task. -/
theorem busy_of_handler (h : Step e op e') (hr : op.reports e = some .handler) : e'.system.Busy := by
  obtain ⟨-, h⟩ := next_eq h
  cases op with
  | add_request request arrival_time =>
    obtain rfl := Option.some.inj h
    simp only [reports] at hr
    split at hr
    · rename_i hsome
      unfold Engine.add_request
      obtain ⟨⟨plan, s⟩, hatt⟩ : ∃ r, attempt (System.add_request request arrival_time) e.system = r := ⟨_, rfl⟩
      rw [hatt] at hsome ⊢
      obtain ⟨plan, rfl⟩ := Option.isSome_iff_exists.1 hsome
      have hb := System.busy_of_add_request (attempt_some hatt)
      split
      · rename_i heq
        obtain ⟨-, rfl⟩ := Prod.mk.inj heq
        rw [submit_system]
        exact hb
      · rename_i heq
        obtain ⟨-, rfl⟩ := Prod.mk.inj heq
        exact hb
    · cases hr
  | schedule =>
    simp only [reports] at hr
    split at hr
    · cases hr
    · split at hr
      · split at hr <;> cases hr
      · cases hr
  | update infer_outputs now =>
    simp only [reports] at hr
    split at hr
    · split at hr <;> cases hr
    · cases hr
  | _ => cases hr

/-- The loop has statistics to publish when a batch goes to the workers, or when tasks are finished. -/
theorem busy_of_loop (h : Step e op e') (hr : op.reports e = some .loop) :
    e'.system.Busy ∨ e'.loop.is_running = false := by
  obtain ⟨-, h⟩ := next_eq h
  cases op with
  | add_request request arrival_time =>
    simp only [reports] at hr
    split at hr <;> cases hr
  | schedule =>
    simp only [reports] at hr
    split at hr
    · cases hr
    · rename_i hempty
      simp only [exec, Engine.schedule] at h
      split at h
      · rw [if_neg hempty] at h
        split at h
        · rename_i hatt
          obtain rfl := Option.some.inj h
          exact .inl (schedule_busy hatt (Bool.eq_false_iff.2 hempty))
        · rename_i hatt
          rw [hatt] at hr
          cases hr
      · cases h
  | update infer_outputs now =>
    simp only [exec, Engine.update] at h
    split at h
    · split at h
      · obtain rfl := Option.some.inj h
        refine .inr ?_
        unfold Engine.next_finished
        dsimp only
        split <;> rfl
      · rename_i hatt
        simp only [reports] at hr
        rw [hatt] at hr
        cases hr
    · cases h
  | _ => cases hr

/-- Only a panic empties the queues behind the monitor's back. -/
theorem busy_of_step (h : Step e op e') (hr : op.reports e = none) (hb : e.system.Busy)
    (hp : op.panics e = true → e'.system.Busy) : e'.system.Busy := by
  have hs := h
  obtain ⟨-, h⟩ := next_eq h
  cases hop : op.moves_tasks with
  | false => exact step_preserves (fun hx => hx.busy hop) hs hb
  | true =>
    cases op with
    | trigger_request k hash_values =>
      simp only [exec, Engine.trigger_request] at h
      split at h
      · rename_i session_id region hk
        obtain rfl := Option.some.inj h
        obtain ⟨⟨r, s⟩, hatt⟩ : ∃ r, attempt (System.on_scheduler (Scheduler.trigger_pend_task session_id
          (region.map (·.block_region.id)) hash_values)) e.system = r := ⟨_, rfl⟩
        simp only [hatt] at hp ⊢
        cases r with
        | none => exact hp (by simp [panics, hk, hatt])
        | some r => exact trigger_busy hatt
      · cases h
    | schedule =>
      simp only [exec, Engine.schedule] at h
      split at h
      · split at h
        · obtain rfl := Option.some.inj h; exact hb
        · split at h
          · rename_i hatt
            obtain rfl := Option.some.inj h
            exact schedule_busy hatt hb
          · rename_i hatt
            obtain rfl := Option.some.inj h
            exact hp (by simp [panics, hatt])
      · cases h
    | update infer_outputs now =>
      simp only [exec, Engine.update] at h
      split at h
      · split at h
        · rename_i finished s hatt
          obtain rfl := Option.some.inj h
          simp only [reports] at hr
          rw [hatt] at hr
          have hnil : finished = [] := by
            cases finished with
            | nil => rfl
            | cons t rest => cases hr
          subst hnil
          exact System.update_busy (attempt_some hatt) hb
        · rename_i hatt
          obtain ⟨finished, s, hok⟩ := System.update_total infer_outputs now e.system
          simp [attempt, hok] at hatt
      · cases h
    | callback =>
      simp only [exec, Engine.callback] at h
      split at h
      · split at h
        · rename_i session_id region mapping rest hq
          obtain rfl := Option.some.inj h
          unfold Engine.complete at hp ⊢
          split
          · rename_i hatt
            exact trigger_busy hatt
          · rename_i hatt
            simp only [hatt] at hp
            exact hp (by simp [panics, hq, hatt])
        · rename_i region mapping rest hq
          obtain rfl := Option.some.inj h
          have hkeep := attempt_preserves (System.commit_busy region) hb
          unfold Engine.complete
          split <;> rename_i hatt <;> rw [hatt] at hkeep <;> exact hkeep
        · cases h
      · cases h
    | _ => cases hop

end

end EngineOp

namespace Publishing

section
variable {x x' : Publishing}

/-- The statistics that were computed last, among those on their way and those that have arrived. -/
def latest (x : Publishing) : Option Stats :=
  (x.connection ++ x.outstanding.map (·.2)).getLast?.or x.stored

/-- With the queues empty the statistics computed last say so. Statistics that may be dropped do not. -/
structure Inv (x : Publishing) : Prop where
  recent : ¬ x.engine.system.Busy → ∃ st, x.latest = some st ∧ st.Idle
  readable : ∀ st ∈ x.connection, st.readable = true
  handler : ∀ st, (.handler, st) ∈ x.outstanding → ¬ st.Idle
  loop : x.engine.loop.is_running = true → ∀ st, (.loop, st) ∈ x.outstanding → ¬ st.Idle

theorem Inv.new (c : SchedulerConfig) : Inv (new c) where
  recent _ := ⟨_, rfl, rfl, rfl, rfl⟩
  readable := by simp [Publishing.new]
  handler := by simp [Publishing.new]
  loop := by simp [Publishing.new, Engine.new, LoopState.is_running]

theorem getLast?_eraseIdx {α : Type} {l : List α} {k : Nat} (h : k + 1 < l.length) :
    (l.eraseIdx k).getLast? = l.getLast? := by
  have hne : l ≠ [] := List.ne_nil_of_length_pos (by omega)
  rw [List.eraseIdx_eq_take_drop_succ, List.getLast?_append, List.getLast?_drop,
    if_neg (Nat.not_le_of_lt h), List.getLast?_eq_some_getLast hne]
  rfl

theorem Inv.publish {k : Nat} (h : x.Inv) (hs : x.publish k = some x') (hk : k = 0)
    (hr : ∀ p st, x.outstanding[k]? = some (p, st) → st.readable = true) : x'.Inv := by
  subst hk
  obtain ⟨⟨p, st⟩, hget, rfl⟩ := Option.map_eq_some_iff.1 hs
  obtain ⟨rest, hout⟩ : ∃ rest, x.outstanding = (p, st) :: rest := by
    cases hx : x.outstanding with
    | nil => rw [hx] at hget; cases hget
    | cons q rest =>
      rw [hx] at hget
      obtain rfl := Option.some.inj hget
      exact ⟨rest, rfl⟩
  have hlatest : latest { x with
      outstanding := x.outstanding.eraseIdx 0, connection := x.connection ++ [st] } = x.latest := by
    simp only [latest, hout, List.eraseIdx_cons_zero, List.map_cons, List.append_assoc, List.singleton_append]
  refine ⟨fun hb => ?_, fun st' hst' => ?_, fun st' hst' => ?_, fun hrun st' hst' => ?_⟩
  · rw [hlatest]; exact h.recent hb
  · rcases List.mem_append.1 hst' with hst' | hst'
    · exact h.readable st' hst'
    · obtain rfl := List.mem_singleton.1 hst'
      exact hr p st' hget
  · exact h.handler st' (List.mem_of_mem_eraseIdx hst')
  · exact h.loop hrun st' (List.mem_of_mem_eraseIdx hst')

/-- What has been dropped was not the last, if the queues are empty. -/
theorem Inv.erase {k : Nat} {p : Publisher} {st : Stats} (h : x.Inv) (hk : x.outstanding[k]? = some (p, st))
    (hst : ¬ st.Idle) : Inv { x with outstanding := x.outstanding.eraseIdx k } := by
  refine ⟨fun hb => ?_, h.readable, fun st' hst' => ?_, fun hrun st' hst' => ?_⟩
  · obtain ⟨last, hlast, hidle⟩ := h.recent hb
    have hlt : k < x.outstanding.length := (List.getElem?_eq_some_iff.1 hk).1
    have hmore : k + 1 < x.outstanding.length := by
      refine Nat.lt_of_le_of_ne hlt fun hend => hst ?_
      -- the entry would be the last one
      have hget : x.outstanding.getLast? = some (p, st) := by
        rw [List.getLast?_eq_getElem?, ← hend]
        exact hk
      rw [latest, List.getLast?_append, List.getLast?_map, hget] at hlast
      obtain rfl := Option.some.inj hlast
      exact hidle
    refine ⟨last, ?_, hidle⟩
    rw [← hlast]
    simp only [latest, List.getLast?_append, List.getLast?_map, getLast?_eraseIdx hmore]
  · exact h.handler st' (List.mem_of_mem_eraseIdx hst')
  · exact h.loop hrun st' (List.mem_of_mem_eraseIdx hst')

theorem Inv.cancel {k : Nat} (h : x.Inv) (hs : x.cancel k = some x') : x'.Inv := by
  unfold Publishing.cancel at hs
  split at hs
  · rename_i st hk
    obtain rfl := Option.some.inj hs
    exact h.erase hk (h.handler st (List.mem_of_getElem? hk))
  · rename_i st hk
    split at hs
    · rename_i hdead
      obtain rfl := Option.some.inj hs
      refine h.erase hk (h.loop ?_ st (List.mem_of_getElem? hk))
      unfold Engine.dead at hdead
      cases hl : x.engine.loop with
      | dead => rfl
      | _ => rw [hl] at hdead; cases hdead
    · cases hs
  · cases hs

theorem Inv.deliver (h : x.Inv) (hs : x.deliver = some x') : x'.Inv := by
  unfold Publishing.deliver at hs
  cases hconn : x.connection with
  | nil => rw [hconn] at hs; cases hs
  | cons st rest =>
    have hread : st.readable = true := h.readable st (hconn ▸ List.mem_cons_self)
    rw [hconn] at hs
    simp only [hread, if_true] at hs
    obtain rfl := Option.some.inj hs
    have hlatest : latest { x with connection := rest, stored := some st } = x.latest := by
      simp only [latest, hconn, List.cons_append, List.getLast?_cons]
      cases (rest ++ x.outstanding.map (·.2)).getLast? <;> rfl
    refine ⟨fun hb => ?_, fun st' hst' => h.readable st' (hconn ▸ .tail _ hst'), h.handler, h.loop⟩
    rw [hlatest]
    exact h.recent hb

variable [Hasher]

theorem Inv.engine_step {op : EngineOp} (h : x.Inv) (hs : x.engine_step op = some x')
    (ht : x.timely (.engine op) = true) : x'.Inv := by
  unfold Publishing.engine_step at hs
  split at hs
  · cases hs
  rename_i hguard
  obtain ⟨e, hstep, rfl⟩ := Option.map_eq_some_iff.1 hs
  have hpanic : op.panics x.engine = true → e.system.Busy := fun hp => by
    obtain ⟨-, hexec⟩ := EngineOp.next_eq hstep
    simpa [timely, hp, hexec, System.Busy, Scheduler.Busy] using ht
  -- what `iter` has yet to publish is there only while it is running
  have hloop : e.loop.is_running = true → ∀ st, (.loop, st) ∈ x.outstanding → ¬ st.Idle := by
    intro hrun st hst
    cases haw : op.awaits with
    | true =>
      refine absurd ?_ hguard
      rw [haw, Bool.true_and, List.any_eq_true]
      exact ⟨_, hst, rfl⟩
    | false =>
      rw [EngineOp.running_of_step hstep haw] at hrun
      exact h.loop hrun st hst
  cases hr : op.reports x.engine with
  | none =>
    simp only [Option.map_none, Option.toList_none, List.append_nil]
    refine ⟨fun hb => ?_, h.readable, h.handler, hloop⟩
    exact h.recent fun hbusy => hb (EngineOp.busy_of_step hstep hr hbusy hpanic)
  | some p =>
    simp only [Option.map_some, Option.toList_some]
    refine ⟨fun hb => ⟨_, ?_, Scheduler.get_stats_idle.2 hb⟩, h.readable, fun st hst => ?_, fun hrun st hst => ?_⟩
    · simp [latest]
    · rcases List.mem_append.1 hst with hst | hst
      · exact h.handler st hst
      · obtain ⟨rfl, rfl⟩ := Prod.mk.inj (List.mem_singleton.1 hst)
        exact fun hidle => Scheduler.get_stats_idle.1 hidle (EngineOp.busy_of_handler hstep hr)
    · rcases List.mem_append.1 hst with hst | hst
      · exact hloop hrun st hst
      · obtain ⟨rfl, rfl⟩ := Prod.mk.inj (List.mem_singleton.1 hst)
        rcases EngineOp.busy_of_loop hstep hr with hb | hidle
        · exact fun hidle => Scheduler.get_stats_idle.1 hidle hb
        · rw [hidle] at hrun; cases hrun

theorem Inv.step {op : PublishingOp} (h : x.Inv) (hs : Step x op x') (ht : x.timely op = true) : x'.Inv := by
  cases op with
  | engine op => exact h.engine_step hs ht
  | publish k =>
    obtain ⟨hk, hr⟩ := Bool.and_eq_true_iff.1 ht
    refine h.publish hs (by simpa using hk) fun p st hget => ?_
    simpa [hget] using hr
  | cancel k => exact h.cancel hs
  | deliver => exact h.deliver hs

/-- When the queues are empty and everything has been delivered, the monitor's entry says that they are; so
the router does not go to a node with waiting requests instead. -/
theorem stats_converge (c : SchedulerConfig) {ops : List PublishingOp}
    (hrun : Run (fun x op x' => Step x op x' ∧ x.timely op = true) (new c) ops x)
    (hidle : x.engine.system.scheduler.is_task_queue_empty = true) (hsettled : x.Settled) :
    ∃ st, x.stored = some st ∧
      st.num_waiting_reqs = 0 ∧ st.num_allocated_reqs = 0 ∧ st.num_pending_reqs = 0 ∧
      ∀ (id node : Nat) (answer : List (Nat × Stats)), (id, st) ∈ answer → select answer = some node →
        ∃ st', (node, st') ∈ answer ∧ st'.num_wait_reqs = 0 := by
  have hinv : x.Inv := hrun.invariant (Inv.new c) fun _ _ _ h ⟨hs, ht⟩ => h.step hs ht
  have hbusy : ¬ x.engine.system.Busy := fun hb => by
    rw [System.Busy, Scheduler.Busy, hidle] at hb
    cases hb
  obtain ⟨st, hlatest, hwaiting, hallocated, hpending⟩ := hinv.recent hbusy
  rw [latest, hsettled.1, hsettled.2] at hlatest
  refine ⟨st, hlatest, hwaiting, hallocated, hpending, fun id node answer hid hnode => ?_⟩
  obtain ⟨st', hmem, hmin⟩ := select_min hnode
  have hzero : st.num_wait_reqs = 0 := by rw [Stats.num_wait_reqs, hwaiting, hpending]
  exact ⟨st', hmem, Nat.le_zero.1 ((hmin (id, st) hid).trans hzero.le)⟩

end

/-- One request, and a delivery after every publish. -/
def orderedRun : List PublishingOp :=
  [.publish 0, .deliver, .engine (.add_request ⟨0, [1, 2], 1, some 1, false, false⟩ 0), .publish 0, .engine .schedule,
    .publish 0, .engine (.update (AList.singleton 0 ⟨3, 1, "", false⟩) 1), .publish 0, .engine .finish,
    .deliver, .deliver, .deliver]

theorem stats_converge_ordered :
    let _ := decimalHasher
    ∃ x, Run (fun x op x' => Step x op x' ∧ x.timely op = true) (new EngineOp.diskConfig) orderedRun x ∧
      ∃ st, x.stored = some st ∧ st.num_waiting_reqs = 0 ∧ st.num_allocated_reqs = 0 ∧ st.num_pending_reqs = 0 := by
  let _ := decimalHasher
  have hfollow : (Run.follow (fun x op => if x.timely op then next x op else none) (new EngineOp.diskConfig)
      orderedRun).any (fun x => x.engine.system.scheduler.is_task_queue_empty && x.outstanding.isEmpty &&
        x.connection.isEmpty) = true := by
    decide +kernel
  have hnext : ∀ x op x', (if x.timely op then next x op else none) = some x' →
      Step x op x' ∧ x.timely op = true := fun x op x' h => by
    split at h
    · exact ⟨h, ‹_›⟩
    · cases h
  obtain ⟨x, hrun, hx⟩ := Run.exists_of_follow hnext hfollow
  simp only [Bool.and_eq_true, List.isEmpty_iff] at hx
  obtain ⟨st, hstored, hwaiting, hallocated, hpending, -⟩ := stats_converge _ hrun hx.1.1 ⟨hx.1.2, hx.2⟩
  exact ⟨x, hrun, st, hstored, hwaiting, hallocated, hpending⟩

/-- The handler of a request publishes after the engine loop has finished it. -/
def overtakenRun : List PublishingOp :=
  [.publish 0, .deliver, .engine (.add_request ⟨0, [1, 2], 1, some 1, false, false⟩ 0), .engine .schedule,
    .publish 1, .engine (.update (AList.singleton 0 ⟨3, 1, "", false⟩) 1), .publish 1, .engine .finish, .publish 0,
    .deliver, .deliver, .deliver]

/-- The monitor is left with a waiting request. -/
theorem overtaken_not_idle :
    let _ := decimalHasher
    ∃ x, Run Step (new EngineOp.diskConfig) overtakenRun x ∧
      x.engine.system.scheduler.is_task_queue_empty = true ∧ x.Settled ∧
      ∃ st, x.stored = some st ∧ st.num_waiting_reqs = 1 := by
  let _ := decimalHasher
  have hfollow : (Run.follow next (new EngineOp.diskConfig) overtakenRun).any
      (fun x => x.engine.system.scheduler.is_task_queue_empty && x.outstanding.isEmpty && x.connection.isEmpty &&
        x.stored.any fun st => decide (st.num_waiting_reqs = 1)) = true := by
    decide +kernel
  obtain ⟨x, hrun, hx⟩ := Run.exists_of_follow (fun _ _ _ h => h) hfollow
  simp only [Bool.and_eq_true, List.isEmpty_iff, Option.any_eq_true, decide_eq_true_eq] at hx
  exact ⟨x, hrun, hx.1.1.1, ⟨hx.1.1.2, hx.1.2⟩, hx.2⟩

end Publishing

end LMServe
