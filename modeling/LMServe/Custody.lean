import LMServe.Holdings
import LMServe.ClearCache

/-!
# Who holds what

What one step of the engine does to the pending tasks and the reserved regions, and to those who
are to release them: the copies in the background queue and the reservations not yet triggered.
`effect_of_step` says everything a step can do to these, for both endings of each section.
-/

namespace LMServe
open Hoare

/-- The session whose pending task the entry's callback triggers. -/
def Entry.session : Entry → Option Nat
  | swap_in session_id _ _ => some session_id
  | _ => none

/-- The region the entry's callback gives up. -/
def Entry.releases : Entry → Option (Device × Nat)
  | swap_in _ region _ => some (.Host, region.block_region.id)
  | swap_out region _ => some (region.device, region.block_region.id)
  | sync => none

namespace Engine

/-- The copies that are queued or running. -/
def copies (e : Engine) : List Entry := e.queue.filter (·.is_copy)

def holdings (e : Engine) := e.system.scheduler.holdings

def pending (e : Engine) : Table InferTask := e.system.scheduler.pending

def regions (e : Engine) (d : Device) : Table (List Nat) := e.system.scheduler.regions d

/-- Each `reserve_request` call in progress knows its own task. -/
def Parallel (e : Engine) : Prop := e.reserved.map (·.1) = e.system.reserving.map (·.session_id)

end Engine

namespace EngineOp

/-- The sequence ids a step draws. -/
def samples : EngineOp → Nat
  | add_request request _ | reserve_request request _ => request.num_samples
  | _ => 0

/-- The steps that accept a new request. -/
def accepts : EngineOp → Bool
  | add_request .. | reserve_request .. => true
  | _ => false

/-- The steps that plan a copy. -/
def plans_copy : EngineOp → Bool
  | add_request .. | finish => true
  | _ => false

/-- The counters and the calls in progress after a step. -/
structure Counts [Hasher] (e : Engine) (op : EngineOp) (e' : Engine) : Prop where
  next_seq_id : e'.system.next_seq_id = e.system.next_seq_id + op.samples
  next_region_id : e.system.next_region_id ≤ e'.system.next_region_id
  reserving : ∀ t ∈ e'.system.reserving, t ∈ e.system.reserving ∨
    ∃ request arrival_time, op = .reserve_request request arrival_time ∧
      t = request.to_task e.system.next_seq_id arrival_time
  reserved : (∀ i, op ≠ .pend_reserved i) → ∃ l, e'.reserved = e.reserved ++ l
  parallel : e.Parallel → e'.Parallel

/-- The copy plan of a step joins the queue, unless the thread has died. -/
def Submits (e : Engine) (entry : Entry) (e' : Engine) : Prop :=
  e'.copies = if e.alive then e.copies ++ [entry] else e.copies

/-- What a step does to pending tasks, regions and those who release them. -/
inductive Effect [Hasher] (e : Engine) : EngineOp → Engine → Prop
  | idle {op : EngineOp} {e' : Engine} : e'.holdings = e.holdings → e'.copies = e.copies →
      e'.remote = e.remote → e'.alive = e.alive → Effect e op e'
  | stages {request : GenerateRequest} {arrival_time : Nat} {e' : Engine} {region : DeviceBlockRegion}
      {mapping : BlockMapping} : e.pending.lookup request.session_id = none →
      region.block_region.id = e.system.next_region_id →
      e'.system.next_region_id = e.system.next_region_id + 1 →
      System.Stages (request.to_task e.system.next_seq_id arrival_time) e.system.next_region_id
        e.system.scheduler e'.system.scheduler →
      Submits e (.swap_in request.session_id region mapping) e' → e'.remote = e.remote →
      e'.alive = e.alive → Effect e (.add_request request arrival_time) e'
  | clashes {request : GenerateRequest} {arrival_time : Nat} {e' : Engine} {s : System} :
      System.add_request request arrival_time e.system = .error .duplicatePending s →
      (e.pending.lookup request.session_id).isSome →
      e'.system.next_region_id = e.system.next_region_id + 1 →
      System.Stages (request.to_task e.system.next_seq_id arrival_time) e.system.next_region_id
        e.system.scheduler e'.system.scheduler →
      e'.copies = e.copies → e'.remote = e.remote → e'.alive = e.alive →
      Effect e (.add_request request arrival_time) e'
  | backs_up {e' : Engine} {region : DeviceBlockRegion} {mapping : BlockMapping} :
      region.device = .Disk → region.block_region.id = e.system.next_region_id →
      e'.system.next_region_id = e.system.next_region_id + 1 →
      Scheduler.Reserves .Disk e.system.next_region_id e.system.scheduler e'.system.scheduler →
      Submits e (.swap_out region mapping) e' → e'.remote = e.remote → e'.alive = e.alive →
      Effect e .finish e'
  | reserves {op : EngineOp} {e' : Engine} : op.plans_copy = false →
      e'.system.next_region_id = e.system.next_region_id + 1 →
      Scheduler.Reserves .Host e.system.next_region_id e.system.scheduler e'.system.scheduler →
      e'.copies = e.copies → e'.remote = e.remote → e'.alive = e.alive → Effect e op e'
  | pends {i : Nat} {e' : Engine} {task : InferTask} : e.system.reserving[i]? = some task →
      e'.pending = e.pending.insert task.session_id task → e'.regions = e.regions →
      ((e.pending.lookup task.session_id).isSome ∧ e'.remote = e.remote ∨
        e.pending.lookup task.session_id = none ∧ ∃ output ∈ e.reserved[i]?,
          e'.remote = e.remote ++ [output]) →
      e'.copies = e.copies → e'.alive = e.alive → Effect e (.pend_reserved i) e'
  | triggers {k : Nat} {hash_values : List Nat} {e' : Engine} {output : Nat × Option DeviceBlockRegion} :
      e.remote[k]? = some output → e'.pending = e.pending.erase output.1 →
      Scheduler.Shrinks e.system.scheduler e'.system.scheduler →
      e'.remote = e.remote.eraseIdx k → e'.copies = e.copies → e'.alive = e.alive →
      Effect e (.trigger_request k hash_values) e'
  | gives_up {op : EngineOp} {e' : Engine} : e'.pending = e.pending →
      Scheduler.Shrinks e.system.scheduler e'.system.scheduler → e'.copies = e.copies →
      e'.remote = e.remote → e'.alive = e.alive → Effect e op e'
  | drops {e' : Engine} {entry : Entry} {rest : List Entry} : e.copies = entry :: rest →
      e'.copies = rest → e'.holdings = e.holdings → e'.remote = e.remote → e'.alive = e.alive →
      Effect e .copy_failed e'
  | calls_back {e' : Engine} {entry : Entry} {rest : List Entry} : e.copies = entry :: rest →
      e'.copies = rest → (e'.pending = match entry.session with
        | some session_id => e.pending.erase session_id
        | none => e.pending) →
      Scheduler.Shrinks e.system.scheduler e'.system.scheduler →
      (∀ d r, entry.releases = some (d, r) → (e'.regions d).lookup r = none) →
      e'.remote = e.remote → e'.alive = e.alive → Effect e .callback e'
  | dies {op : EngineOp} {e' : Engine} : op = .copy_panicked ∨ op = .callback → e'.copies = [] →
      e'.alive = false → (e'.pending = e.pending ∨ ∃ entry ∈ e.copies, ∃ session_id ∈ entry.session,
        e'.pending = e.pending.erase session_id) →
      Scheduler.Shrinks e.system.scheduler e'.system.scheduler → e'.remote = e.remote → Effect e op e'

theorem attempt_some {α : Type} {x : SysM α} {s s' : System} {a : α} (h : attempt x s = (some a, s')) :
    x s = .ok a s' := by
  unfold attempt at h
  split at h
  · rename_i b s₁ hx
    obtain ⟨hb, rfl⟩ := Prod.mk.inj h
    obtain rfl := Option.some.inj hb
    exact hx
  · cases (Prod.mk.inj h).1

/-- How a section ends, and the state it leaves. -/
theorem attempt_ends {α : Type} {x : SysM α} {s : System} {Q : α → System → Prop}
    {F : Panic → System → Prop} (h : Ends x s Q F) :
    (∃ a s', attempt x s = (some a, s') ∧ Q a s') ∨
      ∃ e s', attempt x s = (none, s') ∧ x s = .error e s' ∧ F e s' := by
  unfold attempt
  cases hx : x s with
  | ok a s' => exact .inl ⟨a, s', rfl, h.of_ok hx⟩
  | error e s' => exact .inr ⟨e, s', rfl, rfl, h.of_error hx⟩

theorem attempt_keeps {α γ : Type} {f : System → γ} {x : SysM α} (h : Keeps f x) (s : System) :
    f (attempt x s).2 = f s := by
  unfold attempt
  cases hx : x s with
  | ok a s' => exact h.of_ok hx
  | error e s' => exact h.of_error hx

section
variable [Hasher] {e e' : Engine} {op : EngineOp}

theorem Counts.of_after {n : Nat} {σ : Scheduler} (h : e'.system = e.system.after op.samples n σ)
    (hr : e'.reserved = e.reserved) : Counts e op e' := by
  refine ⟨?_, ?_, fun t ht => .inl ?_, fun _ => ⟨[], by rw [hr, List.append_nil]⟩, fun hp => ?_⟩
  · rw [h]; rfl
  · rw [h]; exact Nat.le_add_right _ _
  · rw [h] at ht; exact ht
  · unfold Engine.Parallel; rw [hr, h]; exact hp

theorem Counts.of_custody (hs : op.samples = 0) (h : e'.system.custody = e.system.custody)
    (hr : e'.reserved = e.reserved) : Counts e op e' := by
  simp only [System.custody, Prod.mk.injEq] at h
  obtain ⟨-, hseq, hregion, hres⟩ := h
  refine ⟨by omega, by omega, fun t ht => .inl (hres ▸ ht), fun _ => ⟨[], by rw [hr, List.append_nil]⟩,
    fun hp => ?_⟩
  unfold Engine.Parallel; rw [hr, hres]; exact hp

omit [Hasher] in
theorem holdings_of_custody {s s' : System} (h : s'.custody = s.custody) :
    s'.scheduler.holdings = s.scheduler.holdings := congrArg Prod.fst h

theorem effect_of_custody (hs : op.samples = 0) (h : e'.system.custody = e.system.custody) (hcopies : e'.copies = e.copies)
    (hremote : e'.remote = e.remote) (halive : e'.alive = e.alive) (hr : e'.reserved = e.reserved) :
    Counts e op e' ∧ Effect e op e' :=
  ⟨.of_custody hs h hr, .idle (holdings_of_custody h) hcopies hremote halive⟩

omit [Hasher] in
theorem submits_of_submit {entry : Entry} (h : entry.is_copy = true) {e₁ : Engine}
    (hq : e₁.queue = e.queue) (ha : e₁.alive = e.alive) : Submits e entry (e₁.submit entry) := by
  unfold Submits Engine.submit Engine.copies
  rw [ha]
  split
  · simp [hq, List.filter_append, h]
  · rw [hq]

omit [Hasher] in
@[simp] theorem submit_system (entry : Entry) (e : Engine) : (e.submit entry).system = e.system := by
  unfold Engine.submit; split <;> rfl

omit [Hasher] in
@[simp] theorem submit_remote (entry : Entry) (e : Engine) : (e.submit entry).remote = e.remote := by
  unfold Engine.submit; split <;> rfl

omit [Hasher] in
@[simp] theorem submit_reserved (entry : Entry) (e : Engine) :
    (e.submit entry).reserved = e.reserved := by
  unfold Engine.submit; split <;> rfl

omit [Hasher] in
@[simp] theorem submit_alive (entry : Entry) (e : Engine) : (e.submit entry).alive = e.alive := by
  unfold Engine.submit; split <;> rfl

omit [Hasher] in
@[simp] theorem submit_loop (entry : Entry) (e : Engine) : (e.submit entry).loop = e.loop := by
  unfold Engine.submit; split <;> rfl

/-! ### The request handlers -/

theorem add_request_effect (request : GenerateRequest) (arrival_time : Nat) (e : Engine) :
    Counts e (.add_request request arrival_time) (e.add_request request arrival_time) ∧
      Effect e (.add_request request arrival_time) (e.add_request request arrival_time) := by
  unfold Engine.add_request
  rcases attempt_ends (System.add_request_holdings request arrival_time e.system) with
    ⟨plan, s', heq, n, σ, rfl, hplan⟩ | ⟨err, s', heq, herr, n, σ, rfl, hend⟩
  · rw [heq]
    cases plan with
    | none => exact ⟨.of_after rfl rfl, .idle hplan rfl rfl rfl⟩
    | some plan =>
      obtain ⟨region, mapping⟩ := plan
      obtain ⟨hnone, rfl, hid, hstages⟩ := hplan
      refine ⟨.of_after (n := 1) (σ := σ) (by rw [submit_system]; rfl) (by rw [submit_reserved]), ?_⟩
      refine .stages hnone hid (by rw [submit_system]; rfl)
        (by rw [submit_system]; exact hstages) (submits_of_submit rfl rfl rfl) ?_ ?_
      · rw [submit_remote]
      · rw [submit_alive]
  · rw [heq]
    refine ⟨.of_after rfl rfl, ?_⟩
    rcases hend with ⟨rfl, hsome, rfl, hstages⟩ | hsame
    · exact .clashes herr hsome rfl hstages rfl rfl rfl
    · exact .idle hsame rfl rfl rfl

theorem reserve_request_effect (request : GenerateRequest) (arrival_time : Nat) (e : Engine) :
    Counts e (.reserve_request request arrival_time) (e.reserve_request request arrival_time) ∧
      Effect e (.reserve_request request arrival_time) (e.reserve_request request arrival_time) := by
  unfold Engine.reserve_request
  rcases attempt_ends (System.reserve_request_holdings request arrival_time e.system) with
    ⟨region, s', heq, σ, hplan, rfl⟩ | ⟨err, s', heq, -, n, σ, rfl, hsame⟩
  · rw [heq]
    refine ⟨⟨rfl, Nat.le_succ _, fun t ht => ?_, fun _ => ⟨_, rfl⟩, fun hp => ?_⟩, ?_⟩
    · rcases List.mem_append.1 ht with ht | ht
      · exact .inl ht
      · exact .inr ⟨request, arrival_time, rfl, List.mem_singleton.1 ht⟩
    · show List.map _ (e.reserved ++ _) = List.map _ (e.system.reserving ++ _)
      rw [List.map_append, List.map_append, show e.reserved.map (·.1) = _ from hp]; rfl
    · cases region with
      | none => exact .idle hplan rfl rfl rfl
      | some region => exact .reserves rfl rfl hplan.2.2 rfl rfl rfl
  · rw [heq]
    exact ⟨.of_after rfl rfl, .idle hsame rfl rfl rfl⟩

theorem pend_reserved_effect {i : Nat} (hp : e.Parallel) (h : e.pend_reserved i = some e') :
    Counts e (.pend_reserved i) e' ∧ Effect e (.pend_reserved i) e' := by
  unfold Engine.pend_reserved at h
  split at h
  · rename_i output houtput
    obtain ⟨task, htask, -⟩ : ∃ task, e.system.reserving[i]? = some task ∧ output.1 = task.session_id := by
      have := congrArg (·[i]?) hp
      simp only [List.getElem?_map, houtput, Option.map_some] at this
      obtain ⟨task, htask, hid⟩ := Option.map_eq_some_iff.1 this.symm
      exact ⟨task, htask, hid.symm⟩
    have hcounts : ∀ e₁ : Engine, e₁.system.next_seq_id = e.system.next_seq_id →
        e₁.system.next_region_id = e.system.next_region_id →
        e₁.system.reserving = e.system.reserving.eraseIdx i → e₁.reserved = e.reserved.eraseIdx i →
        Counts e (.pend_reserved i) e₁ := fun e₁ hs hr hres hout => by
      refine ⟨hs, by omega, fun t ht => .inl ?_, fun hno => absurd rfl (hno i), fun _ => ?_⟩
      · rw [hres] at ht; exact List.mem_of_mem_eraseIdx ht
      · unfold Engine.Parallel
        rw [hres, hout, ← List.eraseIdx_map, ← List.eraseIdx_map, show e.reserved.map (·.1) = _ from hp]
    rcases attempt_ends (System.pend_reserved_holdings htask) with
      ⟨_, s', heq, hnone, rfl⟩ | ⟨err, s', heq, -, hsome, rfl⟩
    · rw [heq] at h
      obtain rfl := Option.some.inj h
      exact ⟨hcounts _ rfl rfl rfl rfl,
        .pends htask rfl rfl (.inr ⟨hnone, output, houtput, rfl⟩) rfl rfl⟩
    · rw [heq] at h
      obtain rfl := Option.some.inj h
      exact ⟨hcounts _ rfl rfl rfl rfl, .pends htask rfl rfl (.inl ⟨hsome, rfl⟩) rfl rfl⟩
  · cases h

omit [Hasher] in
/-- A section of the scheduler of which both endings are described alike. -/
theorem attempt_scheduler {α : Type} {x : SM α} {P : Scheduler → Prop} {s : System}
    (h : Ends x s.scheduler (fun _ => P) (fun _ => P)) {r : Option α} {s' : System}
    (heq : attempt (System.on_scheduler x) s = (r, s')) : ∃ σ, s' = s.after 0 0 σ ∧ P σ := by
  have hends : Ends (System.on_scheduler x) (s.after 0 0 s.scheduler)
      (fun _ s' => ∃ σ, s' = s.after 0 0 σ ∧ P σ) (fun _ s' => ∃ σ, s' = s.after 0 0 σ ∧ P σ) :=
    System.on_scheduler_ends (h.conseq (fun _ σ h => ⟨σ, rfl, h⟩) fun _ σ h => ⟨σ, rfl, h⟩)
  rcases attempt_ends hends with ⟨_, _, hatt, hσ⟩ | ⟨_, _, hatt, -, hσ⟩
  · obtain ⟨-, rfl⟩ := Prod.mk.inj (hatt.symm.trans heq); exact hσ
  · obtain ⟨-, rfl⟩ := Prod.mk.inj (hatt.symm.trans heq); exact hσ

theorem trigger_request_effect {k : Nat} {hash_values : List Nat}
    (h : e.trigger_request k hash_values = some e') :
    Counts e (.trigger_request k hash_values) e' ∧ Effect e (.trigger_request k hash_values) e' := by
  unfold Engine.trigger_request at h
  split at h
  · rename_i session_id region hk
    cases hatt : attempt (System.on_scheduler (Scheduler.trigger_pend_task session_id
      (region.map (·.block_region.id)) hash_values)) e.system with
    | mk r s =>
      rw [hatt] at h
      obtain rfl := Option.some.inj h
      obtain ⟨σ, rfl, hpending, hshrinks⟩ := attempt_scheduler
        ((Scheduler.trigger_pend_task_holdings _ _ _ _).conseq (fun _ _ h => ⟨h.1, h.2.1⟩) fun _ _ h => h) hatt
      exact ⟨.of_after rfl rfl, .triggers hk hpending hshrinks rfl rfl rfl⟩
  · cases h

theorem push_kv_effect (hash_values : List Nat) (e : Engine) :
    Counts e (.push_kv hash_values) (e.push_kv hash_values) ∧
      Effect e (.push_kv hash_values) (e.push_kv hash_values) := by
  unfold Engine.push_kv
  rcases attempt_ends (System.pin_blocks_holdings hash_values e.system) with
    ⟨region, s', heq, σ, hplan, rfl⟩ | ⟨err, s', heq, -, σ, rfl, hsame⟩
  · rw [heq]
    exact ⟨.of_after rfl rfl, .reserves rfl rfl hplan.2.2 rfl rfl rfl⟩
  · rw [heq]
    exact ⟨.of_after rfl rfl, .idle hsame rfl rfl rfl⟩

theorem push_done_effect {i : Nat} (h : e.push_done i = some e') :
    Counts e (.push_done i) e' ∧ Effect e (.push_done i) e' := by
  unfold Engine.push_done at h
  split at h
  · rename_i region hi
    cases hatt : attempt (System.on_scheduler (Scheduler.unpin_blocks region)) e.system with
    | mk r s =>
      rw [hatt] at h
      obtain rfl := Option.some.inj h
      obtain ⟨σ, rfl, hrel⟩ := attempt_scheduler (Scheduler.unpin_blocks_holdings region _) hatt
      exact ⟨.of_after rfl rfl, .gives_up hrel.pending hrel.shrinks rfl rfl rfl⟩
  · cases h

/-! ### The engine loop -/

theorem schedule_effect (h : e.schedule = some e') : Counts e .schedule e' ∧ Effect e .schedule e' := by
  have hkeep := attempt_keeps (System.on_scheduler_custody Scheduler.schedule_holdings) e.system
  unfold Engine.schedule at h
  split at h
  · split at h
    · obtain rfl := Option.some.inj h; exact effect_of_custody rfl rfl rfl rfl rfl rfl
    · split at h
      · rename_i heq
        rw [heq] at hkeep
        obtain rfl := Option.some.inj h; exact effect_of_custody rfl hkeep rfl rfl rfl rfl
      · rename_i heq
        rw [heq] at hkeep
        obtain rfl := Option.some.inj h; exact effect_of_custody rfl hkeep rfl rfl rfl rfl
  · cases h

theorem update_effect {infer_outputs : Table InferOutput} {now : Nat}
    (h : e.update infer_outputs now = some e') :
    Counts e (.update infer_outputs now) e' ∧ Effect e (.update infer_outputs now) e' := by
  have hkeep := attempt_keeps (System.update_custody infer_outputs now) e.system
  unfold Engine.update at h
  split at h
  · split at h
    · rename_i heq
      rw [heq] at hkeep
      obtain rfl := Option.some.inj h; exact effect_of_custody rfl hkeep rfl rfl rfl rfl
    · rename_i heq
      rw [heq] at hkeep
      obtain rfl := Option.some.inj h; exact effect_of_custody rfl hkeep rfl rfl rfl rfl
  · cases h

/-- Removing the task comes after the plan and keeps everything. -/
theorem finish_effect (h : e.finish = some e') : Counts e .finish e' ∧ Effect e .finish e' := by
  unfold Engine.finish at h
  split at h
  · rcases attempt_ends (System.backup_holdings 0 e.system) with
      ⟨plan, s', heq, n, σ, rfl, hplan, hn⟩ | ⟨err, s', heq, -, n, σ, rfl, hsame⟩
    · rw [heq] at h
      -- the state between the two halves
      obtain ⟨e₁, he₁⟩ : ∃ e₁, e₁ = Engine.submit_swap_out plan { e with system := e.system.after 0 n σ } :=
        ⟨_, rfl⟩
      dsimp only at h
      rw [← he₁] at h
      have hkeep := attempt_keeps (System.remove_task_custody 0) e₁.system
      obtain ⟨hcustody, hcopies, hremote, halive, hreserved⟩ : e'.system.custody = e₁.system.custody ∧
          e'.copies = e₁.copies ∧ e'.remote = e₁.remote ∧ e'.alive = e₁.alive ∧
          e'.reserved = e₁.reserved := by
        split at h
        · rename_i heq₁
          rw [heq₁] at hkeep
          obtain rfl := Option.some.inj h; exact ⟨hkeep, rfl, rfl, rfl, rfl⟩
        · rename_i heq₁
          rw [heq₁] at hkeep
          obtain rfl := Option.some.inj h; exact ⟨hkeep, rfl, rfl, rfl, rfl⟩
      have hsystem : e₁.system = e.system.after 0 n σ := by
        rw [he₁]; unfold Engine.submit_swap_out; split <;> simp
      have hsame : e₁.remote = e.remote ∧ e₁.alive = e.alive ∧ e₁.reserved = e.reserved := by
        rw [he₁]; unfold Engine.submit_swap_out; split <;> simp
      have hcounts : Counts e .finish e' := by
        have h₁ : Counts e .finish e₁ := .of_after hsystem hsame.2.2
        have h₂ : Counts e₁ .finish e' := .of_custody rfl hcustody hreserved
        refine ⟨h₂.next_seq_id.trans h₁.next_seq_id,
          Nat.le_trans h₁.next_region_id h₂.next_region_id, fun t ht => ?_,
          fun _ => ⟨[], by rw [hreserved, hsame.2.2, List.append_nil]⟩,
          fun hp => h₂.parallel (h₁.parallel hp)⟩
        rcases h₂.reserving t ht with ht | ⟨_, _, hop, -⟩
        · exact h₁.reserving t ht
        · cases hop
      refine ⟨hcounts, ?_⟩
      have hholdings := holdings_of_custody hcustody
      have hids : e'.system.next_region_id = e.system.next_region_id + n := by
        have := congrArg (fun c => c.2.2.1) hcustody
        rw [hsystem] at this
        exact this
      rw [hsystem] at hholdings
      cases plan with
      | none =>
        refine .idle (hholdings.trans hplan) (hcopies.trans ?_) (hremote.trans hsame.1)
          (halive.trans hsame.2.1)
        rw [he₁]; rfl
      | some plan =>
        obtain ⟨region, mapping⟩ := plan
        obtain ⟨hd, hid, hres⟩ := hplan
        obtain rfl : n = 1 := hn rfl
        obtain ⟨hp, hr⟩ := Scheduler.holdings_eq hholdings
        have hsub : Submits e (.swap_out region mapping) e₁ := by
          rw [he₁]; exact submits_of_submit rfl rfl rfl
        have hsub' : Submits e (.swap_out region mapping) e' := hcopies.trans hsub
        exact .backs_up hd hid hids ⟨hp.trans hres.pending, hr ▸ hres.regions⟩ hsub'
          (hremote.trans hsame.1) (halive.trans hsame.2.1)
    · rw [heq] at h
      obtain rfl := Option.some.inj h
      exact ⟨.of_after rfl rfl, .idle hsame rfl rfl rfl⟩
  · cases h

/-! ### The background thread -/

omit [Hasher] in
theorem copies_of_queue {entry : Entry} {rest : List Entry} (hq : e.queue = entry :: rest)
    (h : entry.is_copy = true) : e.copies = entry :: rest.filter (·.is_copy) := by
  rw [Engine.copies, hq, List.filter_cons_of_pos h]

omit [Hasher] in
theorem copies_of_copying (h : e.copying = true) : ∃ entry, e.queue = entry :: e.queue.tail ∧
    entry.is_copy = true := by
  cases hq : e.queue with
  | nil => simp [Engine.copying, hq] at h
  | cons entry rest =>
    simp only [Engine.copying, hq, List.head?_cons, Option.any_some, Bool.and_eq_true] at h
    exact ⟨entry, rfl, h.1⟩

theorem copy_failed_effect (h : e.copy_failed = some e') :
    Counts e .copy_failed e' ∧ Effect e .copy_failed e' := by
  unfold Engine.copy_failed at h
  split at h
  · obtain ⟨entry, hq, hentry⟩ := copies_of_copying ‹_›
    obtain rfl := Option.some.inj h
    exact ⟨.of_custody rfl rfl rfl, .drops (copies_of_queue hq hentry) rfl rfl rfl rfl⟩
  · cases h

theorem copy_panicked_effect (h : e.copy_panicked = some e') :
    Counts e .copy_panicked e' ∧ Effect e .copy_panicked e' := by
  unfold Engine.copy_panicked at h
  split at h
  · obtain rfl := Option.some.inj h
    exact ⟨.of_custody rfl rfl rfl, .dies (.inl rfl) rfl rfl (.inl rfl) (.of_eq rfl) rfl⟩
  · cases h

theorem complete_effect {α : Type} {x : SM α} {entry : Entry} {rest : List Entry}
    (hq : e.queue = entry :: rest) (hentry : entry.is_copy = true)
    (hends : Ends x e.system.scheduler
      (fun _ σ => (σ.pending = match entry.session with
          | some session_id => e.pending.erase session_id
          | none => e.pending) ∧ Scheduler.Shrinks e.system.scheduler σ ∧
        ∀ d r, entry.releases = some (d, r) → (σ.regions d).lookup r = none)
      (fun _ σ => (σ.pending = match entry.session with
          | some session_id => e.pending.erase session_id
          | none => e.pending) ∧ Scheduler.Shrinks e.system.scheduler σ)) :
    Counts e .callback (e.complete (System.on_scheduler x)) ∧
      Effect e .callback (e.complete (System.on_scheduler x)) := by
  have hcopies := copies_of_queue hq hentry
  unfold Engine.complete
  have hsys : Ends (System.on_scheduler x) (e.system.after 0 0 e.system.scheduler) _ _ :=
    System.on_scheduler_ends (Q := fun _ s' => ∃ σ, s' = e.system.after 0 0 σ ∧
      (σ.pending = match entry.session with
          | some session_id => e.pending.erase session_id
          | none => e.pending) ∧ Scheduler.Shrinks e.system.scheduler σ ∧
        ∀ d r, entry.releases = some (d, r) → (σ.regions d).lookup r = none)
      (F := fun _ s' => ∃ σ, s' = e.system.after 0 0 σ ∧
      (σ.pending = match entry.session with
          | some session_id => e.pending.erase session_id
          | none => e.pending) ∧ Scheduler.Shrinks e.system.scheduler σ)
      (hends.conseq (fun _ σ h => ⟨σ, rfl, h⟩) fun _ σ h => ⟨σ, rfl, h⟩)
  rcases attempt_ends hsys with ⟨_, _, hatt, σ, rfl, hp, hs, hr⟩ | ⟨_, _, hatt, -, σ, rfl, hp, hs⟩
  · rw [show attempt (System.on_scheduler x) e.system = _ from hatt]
    refine ⟨.of_after rfl rfl, .calls_back hcopies ?_ hp hs hr rfl rfl⟩
    show List.filter _ e.queue.tail = _
    rw [hq]; rfl
  · rw [show attempt (System.on_scheduler x) e.system = _ from hatt]
    refine ⟨.of_after rfl rfl, .dies (.inr rfl) rfl rfl ?_ hs rfl⟩
    cases hsession : entry.session with
    | none => rw [hsession] at hp; exact .inl hp
    | some session_id =>
      rw [hsession] at hp
      exact .inr ⟨entry, by rw [hcopies]; simp, session_id, hsession, hp⟩

theorem callback_effect (h : e.callback = some e') : Counts e .callback e' ∧ Effect e .callback e' := by
  unfold Engine.callback at h
  split at h
  · split at h
    · rename_i session_id region mapping rest hq
      obtain rfl := Option.some.inj h
      refine complete_effect hq rfl ((Scheduler.trigger_pend_task_holdings _ _ _ _).conseq
        (fun _ σ hσ => ⟨hσ.1, hσ.2.1, fun d r hr => ?_⟩) fun _ σ hσ => hσ)
      obtain ⟨rfl, rfl⟩ : Device.Host = d ∧ region.block_region.id = r := by
        simpa [Entry.releases] using hr
      exact hσ.2.2 _ rfl
    · rename_i region mapping rest hq
      obtain rfl := Option.some.inj h
      refine complete_effect hq rfl ((Scheduler.commit_reserved_blocks_holdings _ _).conseq
        (fun _ σ hσ => ⟨hσ.pending, hσ.shrinks, fun d r hr => ?_⟩) fun _ σ hσ => ⟨hσ.pending, hσ.shrinks⟩)
      obtain ⟨rfl, rfl⟩ : region.device = d ∧ region.block_region.id = r := by
        simpa [Entry.releases] using hr
      exact hσ.lookup
    · cases h
  · cases h

/-- Everything a step can do to pending tasks and regions. -/
theorem effect_of_step (hp : e.Parallel) (h : Step e op e') : Counts e op e' ∧ Effect e op e' := by
  obtain ⟨-, h⟩ := next_eq h
  cases op with
  | add_request request arrival_time =>
    obtain rfl := Option.some.inj h; exact add_request_effect _ _ e
  | reserve_request request arrival_time =>
    obtain rfl := Option.some.inj h; exact reserve_request_effect _ _ e
  | pend_reserved i => exact pend_reserved_effect hp h
  | trigger_request k hash_values => exact trigger_request_effect h
  | push_kv hash_values => obtain rfl := Option.some.inj h; exact push_kv_effect _ e
  | push_done i => exact push_done_effect h
  | schedule => exact schedule_effect h
  | execute_failed =>
    simp only [exec, Engine.execute_failed] at h
    split at h
    · obtain rfl := Option.some.inj h; exact effect_of_custody rfl rfl rfl rfl rfl rfl
    · cases h
  | update infer_outputs now => exact update_effect h
  | finish => exact finish_effect h
  | copy_done =>
    simp only [exec, Engine.copy_done] at h
    split at h
    · obtain rfl := Option.some.inj h; exact effect_of_custody rfl rfl rfl rfl rfl rfl
    · cases h
  | copy_failed => exact copy_failed_effect h
  | copy_panicked => exact copy_panicked_effect h
  | callback => exact callback_effect h
  | notify =>
    simp only [exec, Engine.notify] at h
    split at h
    · rename_i rest hq
      obtain rfl := Option.some.inj h
      refine effect_of_custody rfl rfl ?_ rfl rfl rfl
      show List.filter _ e.queue.tail = List.filter _ e.queue
      rw [hq]; rfl
    · cases h
  | clear_cache => obtain rfl := Option.some.inj h; exact effect_of_custody rfl rfl rfl rfl rfl rfl
  | clear_try =>
    simp only [exec, Engine.clear_try] at h
    split at h
    · cases h
    · split at h
      · obtain rfl := Option.some.inj h
        refine effect_of_custody rfl (by simp) ?_ (by simp) (by simp) (by simp)
        unfold Engine.submit Engine.copies
        split
        · simp [List.filter_append, Entry.is_copy]
        · rfl
      · obtain rfl := Option.some.inj h; exact effect_of_custody rfl rfl rfl rfl rfl rfl
  | clear_done =>
    have hkeep := attempt_keeps (System.on_scheduler_custody Scheduler.clear_cache_holdings) e.system
    simp only [exec, Engine.clear_done] at h
    split at h
    · cases hatt : attempt (System.on_scheduler Scheduler.clear_cache) e.system with
      | mk r s =>
        rw [hatt] at h hkeep
        obtain rfl := Option.some.inj h; exact effect_of_custody rfl hkeep rfl rfl rfl rfl
    · cases h

end

end EngineOp

/-! ### Who a pending task is waiting for -/

namespace Engine

/-- The sessions that are pending on somebody's behalf. -/
def sessions (e : Engine) : List Nat := e.copies.filterMap Entry.session ++ e.remote.map (·.1)

/-- They are distinct, and each has a task. -/
structure Claimed (e : Engine) : Prop where
  parallel : e.Parallel
  nodup : e.sessions.Nodup
  pending : ∀ i ∈ e.sessions, e.pending.lookup i ≠ none

theorem Claimed.new (c : SchedulerConfig) : (Engine.new c).Claimed :=
  ⟨rfl, List.nodup_nil, fun _ hi => absurd hi List.not_mem_nil⟩

theorem Claimed.of_sublist {e e' : Engine} (h : e.Claimed) (hp : e'.Parallel)
    (hsub : e'.sessions.Sublist e.sessions)
    (hkeep : ∀ i ∈ e'.sessions, e.pending.lookup i ≠ none → e'.pending.lookup i ≠ none) : e'.Claimed :=
  ⟨hp, hsub.nodup h.nodup, fun i hi => hkeep i hi (h.pending i (hsub.subset hi))⟩

theorem Claimed.of_insert {e e' : Engine} {session_id : Nat} {task : InferTask} (h : e.Claimed)
    (hp : e'.Parallel) (hnone : e.pending.lookup session_id = none)
    (hperm : e'.sessions.Perm (session_id :: e.sessions))
    (hpending : e'.pending = e.pending.insert session_id task) : e'.Claimed := by
  refine ⟨hp, hperm.nodup_iff.2 (List.nodup_cons.2 ⟨fun hi => h.pending _ hi hnone, h.nodup⟩), ?_⟩
  intro i hi
  rw [hpending, Table.lookup_insert_eq]
  split
  · exact Option.some_ne_none _
  · rename_i hne
    exact h.pending i ((List.mem_cons.1 (hperm.subset hi)).resolve_left hne)

theorem Claimed.of_erase {e e' : Engine} {session_id : Nat} (h : e.Claimed) (hp : e'.Parallel)
    (hsub : (session_id :: e'.sessions).Subperm e.sessions)
    (hpending : e'.pending = e.pending.erase session_id) : e'.Claimed := by
  have hnodup : (session_id :: e'.sessions).Nodup := by
    obtain ⟨l, hperm, hsub⟩ := hsub
    exact hperm.nodup_iff.1 (hsub.nodup h.nodup)
  obtain ⟨hnot, hnodup⟩ := List.nodup_cons.1 hnodup
  refine ⟨hp, hnodup, fun i hi => ?_⟩
  have hne : i ≠ session_id := fun heq => hnot (heq ▸ hi)
  rw [hpending, Table.lookup_erase_eq, if_neg hne]
  exact h.pending i (hsub.subset (List.mem_cons_of_mem _ hi))

end Engine

namespace EngineOp
open Engine

section
variable [Hasher] {e e' : Engine} {op : EngineOp}

/-- A reservation joins those not yet triggered when its call returns, and leaves when triggered. -/
theorem remote_of_effect (h : Effect e op e') :
    (∃ k hash_values, op = .trigger_request k hash_values) ∨
      (∃ i output, op = .pend_reserved i ∧ e'.remote = e.remote ++ [output]) ∨
      e'.remote = e.remote := by
  cases h with
  | idle _ _ hr | stages _ _ _ _ _ hr | clashes _ _ _ _ _ hr | backs_up _ _ _ _ _ hr
  | reserves _ _ _ _ hr | gives_up _ _ _ hr | drops _ _ _ hr | calls_back _ _ _ _ _ hr
  | dies _ _ _ _ _ hr => exact .inr (.inr hr)
  | pends _ _ _ hr =>
    rcases hr with ⟨-, hr⟩ | ⟨-, output, -, hr⟩
    · exact .inr (.inr hr)
    · exact .inr (.inl ⟨_, output, rfl, hr⟩)
  | triggers => exact .inl ⟨_, _, rfl⟩

theorem remote_of_trigger {k : Nat} {hash_values : List Nat}
    (h : EngineOp.next e (.trigger_request k hash_values) = some e') :
    k < e.remote.length ∧ e'.remote = e.remote.eraseIdx k := by
  replace h : e.trigger_request k hash_values = some e' := (next_eq h).2
  unfold Engine.trigger_request at h
  split at h
  · rename_i hk
    obtain rfl := Option.some.inj h
    exact ⟨(List.getElem?_eq_some_iff.1 hk).1, rfl⟩
  · cases h

omit [Hasher] in
theorem sessions_congr (hc : e'.copies = e.copies) (hr : e'.remote = e.remote) :
    e'.sessions = e.sessions := by
  unfold Engine.sessions; rw [hc, hr]

omit [Hasher] in
theorem lookup_insert_ne {t : Table InferTask} {i k : Nat} {task : InferTask} (h : t.lookup i ≠ none) :
    (t.insert k task).lookup i ≠ none := by
  rw [Table.lookup_insert_eq]
  split
  · exact Option.some_ne_none _
  · exact h

theorem claimed_of_effect (h : e.Claimed) (hp : e'.Parallel) (heff : Effect e op e') : e'.Claimed := by
  -- nothing joins or leaves, and no task goes
  have hsame : e'.sessions = e.sessions →
      (∀ i, e.pending.lookup i ≠ none → e'.pending.lookup i ≠ none) → e'.Claimed :=
    fun hs hkeep => h.of_sublist hp (hs ▸ List.Sublist.refl _) fun i _ => hkeep i
  have heq : ∀ {t : Table InferTask}, e'.pending = t → (∀ i, e.pending.lookup i ≠ none → t.lookup i ≠ none) →
      ∀ i, e.pending.lookup i ≠ none → e'.pending.lookup i ≠ none :=
    fun ht hkeep i hi => by rw [ht]; exact hkeep i hi
  cases heff with
  | idle hh hc hr => exact hsame (sessions_congr hc hr) (heq (Scheduler.holdings_eq hh).1 fun _ => id)
  | @stages request arrival_time _ region mapping hnone _ _ hs hsub hr =>
    by_cases halive : e.alive = true
    · rw [Submits, if_pos halive] at hsub
      refine h.of_insert hp hnone ?_ hs.pending
      unfold Engine.sessions
      rw [hsub, hr, List.filterMap_append, List.append_assoc]
      exact List.perm_middle
    · rw [Submits, if_neg halive] at hsub
      exact hsame (sessions_congr hsub hr) (heq hs.pending fun _ => lookup_insert_ne)
  | clashes _ _ _ hs hc hr =>
    exact hsame (sessions_congr hc hr) (heq hs.pending fun _ => lookup_insert_ne)
  | @backs_up _ region mapping _ _ _ hs hsub hr =>
    refine hsame ?_ (heq hs.pending fun _ => id)
    unfold Engine.sessions
    rw [hsub, hr]
    split
    · rw [List.filterMap_append]; simp [Entry.session]
    · rfl
  | reserves _ _ hs hc hr => exact hsame (sessions_congr hc hr) (heq hs.pending fun _ => id)
  | @pends i _ task htask hpending _ hr hc =>
    rcases hr with ⟨-, hr⟩ | ⟨hnone, output, houtput, hr⟩
    · exact hsame (sessions_congr hc hr) (heq hpending fun _ => lookup_insert_ne)
    · have hid : output.1 = task.session_id := by
        have hpar := congrArg (·[i]?) h.parallel
        simp only [List.getElem?_map, htask, Option.mem_def.1 houtput, Option.map_some] at hpar
        exact Option.some.inj hpar
      refine h.of_insert hp hnone ?_ hpending
      unfold Engine.sessions
      rw [hc, hr, List.map_append, ← List.append_assoc, ← hid]
      exact List.perm_append_singleton _ _
  | @triggers k _ _ output hk hpending _ hr hc =>
    refine h.of_erase hp (List.Perm.subperm ?_) hpending
    unfold Engine.sessions
    rw [hc, hr, ← List.eraseIdx_map]
    obtain ⟨hlt, rfl⟩ := List.getElem?_eq_some_iff.1 hk
    have hremote : (e.remote[k].1 :: (e.remote.map (·.1)).eraseIdx k).Perm (e.remote.map (·.1)) := by
      have hlt' : k < (e.remote.map (·.1)).length := by rw [List.length_map]; exact hlt
      have hperm := List.getElem_cons_eraseIdx_perm hlt'
      rwa [List.getElem_map] at hperm
    exact List.perm_middle.symm.trans (hremote.append_left _)
  | gives_up hpending _ hc hr => exact hsame (sessions_congr hc hr) (heq hpending fun _ => id)
  | @drops _ entry rest hcopies hrest hh hr =>
    refine h.of_sublist hp ?_ fun i _ => heq (Scheduler.holdings_eq hh).1 (fun _ => id) i
    unfold Engine.sessions
    rw [hcopies, hrest, hr]
    exact ((List.sublist_cons_self entry rest).filterMap _).append_right _
  | @calls_back _ entry rest hcopies hrest hpending _ _ hr =>
    cases hsession : entry.session with
    | none =>
      rw [hsession] at hpending
      refine hsame ?_ (heq hpending fun _ => id)
      unfold Engine.sessions
      rw [hcopies, hrest, hr, List.filterMap_cons_none hsession]
    | some session_id =>
      rw [hsession] at hpending
      refine h.of_erase hp (List.Perm.subperm (List.Perm.of_eq ?_)) hpending
      unfold Engine.sessions
      rw [hcopies, hrest, hr, List.filterMap_cons_some hsession]
      rfl
  | dies _ hnil _ hpending _ hr =>
    have hsub : e'.sessions = e.remote.map (·.1) := by
      unfold Engine.sessions; rw [hnil, hr]; rfl
    rcases hpending with hpending | ⟨entry, hentry, session_id, hsession, hpending⟩
    · refine h.of_sublist hp ?_ fun i _ => heq hpending (fun _ => id) i
      rw [hsub]; exact List.sublist_append_right _ _
    · refine h.of_erase hp ?_ hpending
      rw [hsub]
      have hmem : [session_id].Sublist (e.copies.filterMap Entry.session) :=
        List.singleton_sublist.2 (List.mem_filterMap.2 ⟨entry, hentry, hsession⟩)
      exact (hmem.append_right (e.remote.map (·.1))).subperm

theorem claimed_step (h : e.Claimed) (hstep : EngineOp.Step e op e') : e'.Claimed ∧ Effect e op e' :=
  have ⟨hcounts, heff⟩ := effect_of_step h.parallel hstep
  ⟨claimed_of_effect h (hcounts.parallel h.parallel) heff, heff⟩

end

end EngineOp

end LMServe
