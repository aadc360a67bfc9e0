import LMServe.Queues
import LMServe.Watching
import LMServe.Lib.Run

/-!
# Where the tasks are

A ledger beside the scheduler notes every task it accepts (`add`, `pend`) and every task `update`
returns as finished. The books balance when each accepted task is in exactly one of `waiting`,
`allocated`, `pending` and the finished tasks. Every step keeps the balance except a `schedule` that
loses a task at the end of the preemption loop of `schedule_waiting_with_reorder`.
-/

namespace LMServe
open Hoare

/-- What no operation changes of a task: its session, its arrival and its sequences. -/
def InferTask.tag (t : InferTask) : Nat × Nat × List Nat :=
  (t.session_id, t.arrival_time, t.seqs.map (·.seq_id))

structure Ledger where
  scheduler : Scheduler
  accepted : List InferTask
  finished : List InferTask

/-- The operations of the scheduler that move tasks. -/
inductive QueueOp where
  | add (infer_task : InferTask)
  | pend (infer_task : InferTask)
  | trigger (session_id : Nat) (region_id : Option Nat) (hash_values : List Nat)
  | schedule
  | update (infer_outputs : Table InferOutput) (now : Nat)

namespace Ledger

def new (c : SchedulerConfig) : Ledger := ⟨Scheduler.new c, [], []⟩

/-- Run an operation of the scheduler. -/
def on_scheduler {α : Type} (x : SM α) : EStateM Panic Ledger α :=
  zoom scheduler (fun s l => { l with scheduler := s }) x

theorem on_scheduler_ok {α : Type} {x : SM α} {l l' : Ledger} {a : α}
    (h : on_scheduler x l = .ok a l') :
    ∃ s, x l.scheduler = .ok a s ∧ l' = { l with scheduler := s } :=
  zoom_ok.1 h

/-- How often a task is listed. -/
def listed (x : Nat × Nat × List Nat) (tasks : List InferTask) : Nat :=
  (tasks.map InferTask.tag).count x

/-- Every task is in the four places together as often as it was accepted. -/
def Balanced (l : Ledger) : Prop :=
  ∀ x, listed x l.accepted =
    listed x l.scheduler.waiting + listed x l.scheduler.allocated + listed x l.scheduler.pending_tasks +
      listed x l.finished

end Ledger

namespace QueueOp
open Ledger

section
variable [Hasher]

def exec : QueueOp → EStateM Panic Ledger PUnit
  | add infer_task => do
    on_scheduler (Scheduler.add infer_task)
    modify fun l => { l with accepted := infer_task :: l.accepted }
  | pend infer_task => do
    on_scheduler (Scheduler.pend infer_task)
    modify fun l => { l with accepted := infer_task :: l.accepted }
  | trigger session_id region_id hash_values =>
    on_scheduler (Scheduler.trigger_pend_task session_id region_id hash_values)
  | schedule => do let _ ← on_scheduler Scheduler.schedule
  | update infer_outputs now => do
    let finished ← on_scheduler (Scheduler.update infer_outputs now)
    modify fun l => { l with finished := l.finished ++ finished }

/-- One operation that returns. -/
def Step (l : Ledger) (op : QueueOp) (l' : Ledger) : Prop := op.exec l = .ok .unit l'

/-- `Step` as a function. -/
def next (l : Ledger) (op : QueueOp) : Option Ledger :=
  match op.exec l with
  | .ok _ l' => some l'
  | .error _ _ => none

theorem step_of_next {l l' : Ledger} {op : QueueOp} (h : next l op = some l') : Step l op l' := by
  unfold next at h
  split at h
  · rename_i l₁ hexec
    obtain rfl := Option.some.inj h
    exact hexec
  · cases h

/-- Stops when the preemption loop ends without having admitted the waiting task. -/
abbrev noDrops : Watch := { dropped := fun _ => false }

/-- The operation is not a `schedule` whose preemption loop gives the waiting task up. -/
def careful (l : Ledger) : QueueOp → Bool
  | schedule => !Scheduler.quits noDrops l.scheduler
  | _ => true

end

end QueueOp

/-! ### Counting -/

namespace Ledger

section
variable (x : Nat × Nat × List Nat)

@[simp] theorem listed_nil : listed x [] = 0 := rfl

@[simp] theorem listed_append (l l' : List InferTask) : listed x (l ++ l') = listed x l + listed x l' := by
  simp [listed]

theorem listed_cons (t : InferTask) (l : List InferTask) :
    listed x (t :: l) = listed x [t] + listed x l :=
  listed_append x [t] l

theorem listed_perm {l l' : List InferTask} (h : l.Perm l') : listed x l = listed x l' :=
  (h.map _).count_eq x

theorem listed_congr {l l' : List InferTask} (h : l.map InferTask.tag = l'.map InferTask.tag) :
    listed x l = listed x l' := by
  simp only [listed, h]

/-- The identities of the tasks determine their tags. -/
theorem listed_of_tally {l l' : List InferTask} (h : ∀ a, tally a l = tally a l') :
    listed x l = listed x l' := by
  have hp : (l.map InferTask.ident).Perm (l'.map InferTask.ident) := List.perm_iff_count.2 h
  have htag : InferTask.tag = (fun a => (a.1, a.2.1, a.2.2.map Prod.fst)) ∘ InferTask.ident := by
    funext t
    simp [InferTask.tag, InferTask.ident, InferTask.keys, Sequence.key, Function.comp_def]
  simp only [listed, htag, ← List.map_map]
  exact (hp.map _).count_eq x

theorem listed_pending (s : Scheduler) :
    listed x s.pending_tasks = s.pending.total fun t => listed x [t] := by
  unfold Scheduler.pending_tasks Table.values Table.total
  induction s.pending.entries with
  | nil => rfl
  | cons e l ih => rw [List.map_cons, listed_cons, ih, List.map_cons, List.sum_cons]

theorem listed_filter (p : InferTask → Bool) (l : List InferTask) :
    listed x l = listed x (l.filter p) + listed x (l.filter (!p ·)) := by
  rw [← listed_append]; exact (listed_perm x (List.filter_append_perm p l)).symm

end

end Ledger

/-! ### The steps -/

namespace Scheduler
open Ledger

theorem update_task_tag (max_seq_len : Nat) (running_batch : Table BatchEntry)
    (infer_outputs : Table InferOutput) (now : Nat) (t : InferTask) :
    (update_task max_seq_len running_batch infer_outputs now t).tag = t.tag := by
  have hseq : ∀ seq, (update_seq max_seq_len running_batch infer_outputs now seq).seq_id = seq.seq_id := by
    intro seq
    unfold update_seq
    split
    · split
      · rfl
      · dsimp only; split <;> rfl
    · rfl
  simp only [InferTask.tag, update_task, List.map_map, Prod.mk.injEq, true_and]
  refine List.map_congr_left fun seq _ => ?_
  simp only [Function.comp_apply]
  split
  · exact hseq seq
  · rfl

theorem update_listed {infer_outputs : Table InferOutput} {now : Nat} {finished : List InferTask}
    {s s' : Scheduler} (h : update infer_outputs now s = .ok finished s') :
    s'.waiting = s.waiting ∧ s'.pending = s.pending ∧
      ∀ x, listed x s'.allocated + listed x finished = listed x s.allocated := by
  obtain ⟨_, _, hget, h⟩ := bind_ok.1 h
  obtain ⟨rfl, rfl⟩ : _ ∧ _ := by simpa using hget
  obtain ⟨_, s₁, hmod, h⟩ := bind_ok.1 h
  simp only [modify_apply, EStateM.Result.ok.injEq, true_and] at hmod
  obtain ⟨rfl, rfl⟩ : _ = finished ∧ s₁ = s' := by simpa using h
  rw [← hmod]
  refine ⟨rfl, rfl, fun x => ?_⟩
  have hmap : listed x (s.allocated.map
      (update_task s.max_seq_len s.running_batch infer_outputs now)) = listed x s.allocated := by
    refine listed_congr x ?_
    rw [List.map_map]
    exact List.map_congr_left fun t _ => update_task_tag _ _ _ _ t
  have hsplit := listed_filter x (·.is_finished)
    (s.allocated.map (update_task s.max_seq_len s.running_batch infer_outputs now))
  dsimp only
  omega

end Scheduler

namespace QueueOp
open Ledger Scheduler

section
variable [Hasher]

/-- Scheduling without drops moves tasks between the two queues. -/
theorem schedule_same_tasks {s s' : Scheduler} {batch : Batch} (hq : quits noDrops s = false)
    (h : Scheduler.schedule s = .ok batch s') :
    s'.pending = s.pending ∧
      ((s'.waiting ++ s'.allocated).map InferTask.ident).Perm
        ((s.waiting ++ s.allocated).map InferTask.ident) := by
  let _ := noDrops
  obtain ⟨hP, -, hT⟩ := schedule_tally (schedule_watched noDrops hq h)
  refine ⟨hP, List.perm_iff_count.2 fun a => ?_⟩
  have := (hT a).2 fun _ => rfl
  rw [← tally, ← tally, tally_append, tally_append]
  exact this

theorem step_balanced {l l' : Ledger} {op : QueueOp} (h : l.Balanced) (hs : Step l op l')
    (hc : careful l op = true) : l'.Balanced := by
  intro x
  have hx := h x
  cases op with
  | add t =>
    obtain ⟨_, l₁, hadd, hs⟩ := bind_ok.1 hs
    obtain ⟨s, hs₁, rfl⟩ := on_scheduler_ok hadd
    obtain rfl : { l.scheduler with waiting := l.scheduler.waiting ++ [t] } = s := by
      simpa [Scheduler.add] using hs₁
    obtain rfl : _ = l' := by simpa using hs
    simp only [Scheduler.pending_tasks] at hx ⊢
    rw [listed_cons, listed_append]
    omega
  | pend t =>
    obtain ⟨_, l₁, hpend, hs⟩ := bind_ok.1 hs
    obtain ⟨s, hs₁, rfl⟩ := on_scheduler_ok hpend
    obtain ⟨hfresh, rfl⟩ := pend_ok hs₁
    obtain rfl : _ = l' := by simpa using hs
    simp only [listed_pending] at hx ⊢
    rw [Table.total_insert_fresh _ _ hfresh, listed_cons]
    omega
  | trigger session_id region_id hash_values =>
    obtain ⟨s, hs₁, rfl⟩ := on_scheduler_ok hs
    obtain ⟨t, ht, hW, hA, hP⟩ := trigger_pend_task_ok hs₁
    simp only [listed_pending, hW, hA, hP] at hx ⊢
    have herase := Table.total_erase (fun t => listed x [t]) ht
    have hins := listed_perm x (insert_sorted_perm l.scheduler.waiting t)
    rw [listed_cons] at hins
    omega
  | schedule =>
    obtain ⟨batch, l₁, hsch, hs⟩ := bind_ok.1 hs
    obtain ⟨s, hs₁, rfl⟩ := on_scheduler_ok hsch
    obtain rfl : _ = l' := by simpa using hs
    obtain ⟨hP, hperm⟩ := schedule_same_tasks (by simpa [careful] using hc) hs₁
    have hcount : listed x (s.waiting ++ s.allocated) =
        listed x (l.scheduler.waiting ++ l.scheduler.allocated) :=
      listed_of_tally x fun a => hperm.count_eq a
    rw [listed_append, listed_append] at hcount
    simp only [listed_pending, hP] at hx ⊢
    omega
  | update infer_outputs now =>
    obtain ⟨finished, l₁, hupd, hs⟩ := bind_ok.1 hs
    obtain ⟨s, hs₁, rfl⟩ := on_scheduler_ok hupd
    obtain rfl : _ = l' := by simpa using hs
    obtain ⟨hW, hP, hT⟩ := update_listed hs₁
    have := hT x
    simp only [listed_pending, hW, hP, listed_append] at hx ⊢
    omega

/-- In a run in which no preemption loop gives a waiting task up, every accepted task is in exactly
one place at each point between operations, and scheduling only moves tasks between `waiting` and
`allocated`. -/
theorem run_balanced (c : SchedulerConfig) {ops : List QueueOp} {l : Ledger}
    (h : Run (fun l op l' => Step l op l' ∧ careful l op = true) (Ledger.new c) ops l) :
    l.Balanced ∧
      ∀ batch s', careful l .schedule = true → Scheduler.schedule l.scheduler = .ok batch s' →
        ((s'.waiting ++ s'.allocated).map InferTask.ident).Perm
          ((l.scheduler.waiting ++ l.scheduler.allocated).map InferTask.ident) := by
  have h0 : (Ledger.new c).Balanced := fun x => rfl
  refine ⟨h.invariant h0 fun l op l' hb hs => step_balanced hb hs.1 hs.2, ?_⟩
  intro batch s' hc hs
  exact (schedule_same_tasks (by simpa [careful] using hc) hs).2

end

/-- A task with one sequence, of the same number. -/
def sampleTask (session_id : Nat) (input_ids : List Nat) (arrival_time : Nat) : InferTask :=
  ⟨session_id, [Sequence.new session_id session_id input_ids none false false], arrival_time⟩

/-- Task 1 waits for its trigger while task 2, which shares its first three tokens and arrived after
it, is dispatched with one of its three tokens; the triggered task then competes with it. -/
def lateTrigger (input_ids : List Nat) : List QueueOp :=
  [.add (sampleTask 0 [7, 8, 9] 0), .pend (sampleTask 1 input_ids 1), .add (sampleTask 2 [1, 2, 3] 2),
    .schedule, .update ((∅ : Table InferOutput).insert 0 ⟨5, 1, "", false⟩) 10, .trigger 1 none [],
    .schedule]

/-- Block size 1, nine GPU blocks, a budget of four tokens, reordering on. -/
def sampleConfig : SchedulerConfig := ⟨8, 64, 4, 1, Nat.one_pos, 9, 0, 0, true, Scheduler.defaultWatermark⟩

/-- Five tokens: preempting task 2 makes room for task 1. -/
theorem run_balanced_lateTrigger :
    let _ := decimalHasher
    ∃ l, Run (fun l op l' => Step l op l' ∧ careful l op = true) (Ledger.new sampleConfig)
        (lateTrigger [1, 2, 3, 4, 5]) l ∧
      (l.Balanced ∧ l.scheduler.allocated.map (·.session_id) = [0, 1]) := by
  let _ := decimalHasher
  have hfollow : (Run.follow (fun l op => if careful l op then next l op else none)
      (Ledger.new sampleConfig) (lateTrigger [1, 2, 3, 4, 5])).any
      (fun l => l.scheduler.allocated.map (·.session_id) = [0, 1]) = true := by decide +kernel
  have hnext : ∀ l op l', (if careful l op then next l op else none) = some l' →
      Step l op l' ∧ careful l op = true := fun l op l' h => by
    split at h
    · exact ⟨step_of_next h, ‹_›⟩
    · cases h
  obtain ⟨l, hrun, hl⟩ := Run.exists_of_follow hnext hfollow
  exact ⟨l, hrun, (run_balanced sampleConfig hrun).1, by simpa using hl⟩

/-- Six tokens: task 1 counted on the blocks of task 2 it shares. Preempting task 2 drops the two that
are not filled, task 1 no longer fits, and it is in none of the four places. -/
theorem run_not_balanced_lateTrigger :
    let _ := decimalHasher
    ∃ l, Run Step (Ledger.new sampleConfig) (lateTrigger [1, 2, 3, 4, 5, 6]) l ∧ ¬ l.Balanced := by
  let _ := decimalHasher
  have hfollow : (Run.follow next (Ledger.new sampleConfig) (lateTrigger [1, 2, 3, 4, 5, 6])).any
      (fun l => listed (1, 1, [1]) l.accepted = 1 ∧ listed (1, 1, [1]) l.scheduler.waiting = 0 ∧
        listed (1, 1, [1]) l.scheduler.allocated = 0 ∧
        listed (1, 1, [1]) l.scheduler.pending_tasks = 0 ∧ listed (1, 1, [1]) l.finished = 0) = true := by
    decide +kernel
  obtain ⟨l, hrun, hl⟩ := Run.exists_of_follow (fun _ _ _ => step_of_next) hfollow
  simp only [decide_eq_true_eq] at hl
  refine ⟨l, hrun, fun hb => ?_⟩
  have := hb (1, 1, [1])
  omega

end QueueOp

end LMServe
