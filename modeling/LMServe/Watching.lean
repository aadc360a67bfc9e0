import LMServe.Queues

/-!
# Watched scheduling

With a `Watch`, `schedule` does what the code does until a watched condition fails, where it stops.
So whether the condition fails during the next call is a predicate of the state before the call
(`quits`), and a call of the code from a state where it does not is a watched call.
-/

namespace LMServe
open Hoare

/-- `W` stops wherever `W'` stops. -/
structure Watch.Stricter (W W' : Watch) : Prop where
  admission : ∀ m seq, W.admission m seq = true → W'.admission m seq = true
  dropped : ∀ t, W.dropped t = true → W'.dropped t = true
  pass : ∀ d t n, W.pass d t n = true → W'.pass d t n = true
  preempted : ∀ t, W.preempted t = true → W'.preempted t = true
  stuck : ∀ t, W.stuck t = true → W'.stuck t = true

theorem Watch.stricter_nothing (W : Watch) : W.Stricter .nothing :=
  ⟨fun _ _ _ => rfl, fun _ _ => rfl, fun _ _ _ _ => rfl, fun _ _ => rfl, fun _ _ => rfl⟩

theorem watch_guarded {σ : Type} {c c' : Bool} (h : c = true → c' = true) :
    Guarded .watched (watch c : EStateM Panic σ PUnit) (watch c') := by
  cases c with
  | true => rw [h rfl]; exact Guarded.refl _
  | false => exact fun s => .inr ⟨s, rfl⟩

namespace Scheduler

section
variable [Hasher] {W W' : Watch} (hstricter : W.Stricter W')
include hstricter

theorem try_alloc_loop_guarded (w : Watermark) (l : List Sequence) :
    Guarded .watched (@try_alloc_loop _ W w l) (@try_alloc_loop _ W' w l) := by
  induction l with
  | nil => exact Guarded.refl _
  | cons seq l ih =>
    refine Guarded.ite ?_ (ih.bind fun _ => Guarded.refl _)
    refine (Guarded.refl _).bind fun k => (Guarded.refl _).bind fun m => ?_
    refine Guarded.ite ?_ (Guarded.refl _)
    refine (Guarded.refl _).bind fun m => (watch_guarded (hstricter.admission _ _)).bind fun _ => ?_
    refine (Guarded.refl _).bind fun _ => (Guarded.refl _).bind fun _ => ?_
    exact ih.bind fun _ => Guarded.refl _

theorem try_alloc_infer_task_guarded (t : InferTask) (w : Watermark) (d : Device) :
    Guarded .watched (@try_alloc_infer_task _ W t w d) (@try_alloc_infer_task _ W' t w d) :=
  (try_alloc_loop_guarded hstricter w t.seqs).zoom.bind fun _ => (watch_guarded (hstricter.pass _ _ _)).bind fun _ => Guarded.refl _

theorem try_extend_infer_task_guarded (t : InferTask) (w : Watermark) (d : Device) :
    Guarded .watched (@try_extend_infer_task _ W t w d) (@try_extend_infer_task _ W' t w d) :=
  (Guarded.refl _).bind fun _ => (watch_guarded (hstricter.pass _ _ _)).bind fun _ => Guarded.refl _

omit [Hasher] in
theorem preempt_infer_task_guarded (t : InferTask) :
    Guarded .watched (@preempt_infer_task W t) (@preempt_infer_task W' t) :=
  (watch_guarded (hstricter.preempted _)).bind fun _ => Guarded.refl _

theorem extend_allocated_guarded (fuel : Nat) : ∀ extended : List InferTask,
    Guarded .watched (@extend_allocated _ W fuel extended) (@extend_allocated _ W' fuel extended) := by
  induction fuel with
  | zero => exact fun _ => Guarded.refl _
  | succ fuel ih =>
    intro extended
    refine (Guarded.refl _).bind fun s => ?_
    cases hA : s.allocated with
    | nil => exact Guarded.refl _
    | cons t queue =>
      refine (Guarded.refl _).bind fun _ => (try_extend_infer_task_guarded hstricter t _ _).bind fun ok => ?_
      refine Guarded.ite ((try_extend_infer_task_guarded hstricter t _ _).bind fun _ => ih _) ?_
      cases hlast : queue.getLast? with
      | some last =>
        refine (Guarded.refl _).bind fun _ => (preempt_infer_task_guarded hstricter last).bind fun _ => ?_
        exact (Guarded.refl _).bind fun _ => ih _
      | none => exact (watch_guarded (hstricter.stuck _)).bind fun _ => Guarded.refl _

theorem admit_in_order_guarded (fuel : Nat) :
    Guarded .watched (@admit_in_order _ W fuel) (@admit_in_order _ W' fuel) := by
  induction fuel with
  | zero => exact Guarded.refl _
  | succ fuel ih =>
    refine (Guarded.refl _).bind fun s => ?_
    cases hW : s.waiting with
    | nil => exact Guarded.refl _
    | cons t queue =>
      refine (Guarded.refl _).bind fun _ => (try_alloc_infer_task_guarded hstricter t _ _).bind fun r => ?_
      refine Guarded.ite ?_ (Guarded.refl _)
      exact (try_extend_infer_task_guarded hstricter _ _ _).bind fun _ => (Guarded.refl _).bind fun _ => ih

theorem preempt_promoted_guarded (promoted : List InferTask) : ∀ t : InferTask,
    Guarded .watched (@preempt_promoted _ W t promoted) (@preempt_promoted _ W' t promoted) := by
  induction promoted with
  | nil => exact fun t => watch_guarded (hstricter.dropped _)
  | cons u promoted ih =>
    intro t
    refine (preempt_infer_task_guarded hstricter u).bind fun _ => (Guarded.refl _).bind fun _ => ?_
    refine (Guarded.refl _).bind fun s => (try_alloc_infer_task_guarded hstricter t _ _).bind fun r => ?_
    exact Guarded.ite ((try_extend_infer_task_guarded hstricter _ _ _).bind fun _ => Guarded.refl _) (ih _)

theorem reorder_round_guarded (t : InferTask) :
    Guarded .watched (@reorder_round _ W t) (@reorder_round _ W' t) := by
  refine (Guarded.refl _).bind fun s => (try_alloc_infer_task_guarded hstricter t _ _).bind fun r => ?_
  refine Guarded.ite ((try_extend_infer_task_guarded hstricter _ _ _).bind fun _ => Guarded.refl _)
    ((Guarded.refl _).bind fun s => ?_)
  refine Guarded.ite (Guarded.refl _) ((Guarded.refl _).bind fun _ => ?_)
  refine (Guarded.refl _).bind fun _ => Guarded.ite ?_ (Guarded.refl _)
  exact (preempt_promoted_guarded hstricter _ _).bind fun _ => Guarded.refl _

theorem reorder_loop_guarded (fuel : Nat) : ∀ next : List InferTask,
    Guarded .watched (@reorder_loop _ W fuel next) (@reorder_loop _ W' fuel next) := by
  induction fuel with
  | zero => exact fun _ => Guarded.refl _
  | succ fuel ih =>
    intro next
    refine (Guarded.refl _).bind fun s => ?_
    cases hW : s.waiting with
    | nil => exact Guarded.refl _
    | cons t queue =>
      exact (Guarded.refl _).bind fun _ => (reorder_round_guarded hstricter t).bind fun back => ih _

theorem extend_tasks_guarded : Guarded .watched (@extend_tasks _ W) (@extend_tasks _ W') :=
  (Guarded.refl _).bind fun _ => (extend_allocated_guarded hstricter _ _).bind fun _ => Guarded.refl _

theorem admit_waiting_guarded : Guarded .watched (@admit_waiting _ W) (@admit_waiting _ W') := by
  refine (Guarded.refl _).bind fun s => Guarded.ite ?_ (admit_in_order_guarded hstricter _)
  exact (Guarded.refl _).bind fun s => (reorder_loop_guarded hstricter _ _).bind fun _ => Guarded.refl _

theorem schedule_guarded : Guarded .watched (@schedule _ W) (@schedule _ W') :=
  (extend_tasks_guarded hstricter).bind fun _ => (admit_waiting_guarded hstricter).bind fun _ => Guarded.refl _

end

section
variable [Hasher]

/-- The two phases of `schedule` before `dispatch`. -/
def phases [Watch] : SM PUnit := do
  extend_tasks
  admit_waiting

theorem schedule_eq [Watch] : schedule = (do
    phases
    let batch ← dispatch
    modify fun s => { s with running_batch := batch.running_batch }
    pure batch) := by
  simp only [schedule, phases, bind_assoc]

theorem phases_guarded {W W' : Watch} (hstricter : W.Stricter W') :
    Guarded .watched (@phases _ W) (@phases _ W') :=
  (extend_tasks_guarded hstricter).bind fun _ => admit_waiting_guarded hstricter

variable (W : Watch)

/-- The next call of `schedule` runs into a state where the watched condition fails. -/
def quits (s : Scheduler) : Bool :=
  match @schedule _ W s with
  | .error .watched _ => true
  | _ => false

/-- Fewer conditions, fewer calls that run into one. -/
theorem quits_of_stricter {W W' : Watch} (hstricter : W.Stricter W') {s : Scheduler} (hq : quits W s = false) :
    quits W' s = false := by
  rcases schedule_guarded hstricter s with heq | ⟨s', herror⟩
  · rw [quits, ← heq]; exact hq
  · rw [quits, herror] at hq; cases hq

theorem schedule_watched {s s' : Scheduler} {batch : Batch} (hq : quits W s = false)
    (h : @schedule _ .nothing s = .ok batch s') : @schedule _ W s = .ok batch s' := by
  refine (schedule_guarded W.stricter_nothing).ok (fun t ht => ?_) h
  simp only [quits, ht] at hq
  cases hq

theorem phases_watched {s s' : Scheduler} (hq : quits W s = false)
    (h : @phases _ .nothing s = .ok .unit s') : @phases _ W s = .ok .unit s' := by
  refine (phases_guarded W.stricter_nothing).ok (fun t ht => ?_) h
  have hsch : @schedule _ W s = .error .watched t := by
    rw [@schedule_eq _ W]
    exact bind_error.2 (.inl ht)
  simp only [quits, hsch] at hq
  cases hq

end

/-! ### What the phases leave alone -/

/-- The phases get at `f` through the passes and preemptions only, and these leave it alone. -/
structure KeptByPasses [Hasher] [Watch] {γ : Type} (f : Scheduler → γ) : Prop where
  queues : ∀ s waiting allocated, f { s with waiting := waiting, allocated := allocated } = f s
  try_alloc : ∀ t w, Keeps f (try_alloc_infer_task t w .Gpu)
  try_extend : ∀ t w d, Keeps f (try_extend_infer_task t w d)
  can_alloc : ∀ t k w, Keeps f (can_alloc_infer_task t k w .Gpu)
  preempt : ∀ t, Keeps f (preempt_infer_task t)

section
variable [Hasher] [Watch] {γ : Type} {f : Scheduler → γ} (hf : KeptByPasses f)
include hf

theorem KeptByPasses.extend_allocated (fuel : Nat) : ∀ extended : List InferTask,
    Keeps f (extend_allocated fuel extended) := by
  induction fuel with
  | zero => exact fun _ => Keeps.throw _
  | succ fuel ih =>
    intro extended
    refine Keeps.get.bind fun s => ?_
    split
    · exact Keeps.pure _
    · refine Keeps.bind (Keeps.modify fun s => hf.queues s _ _) fun _ => ?_
      refine (hf.try_extend _ _ _).bind fun ok => Keeps.ite ?_ ?_
      · exact (hf.try_extend _ _ _).bind fun _ => ih _
      · split
        · refine Keeps.bind (Keeps.modify fun s => hf.queues s _ _) fun _ => ?_
          refine (hf.preempt _).bind fun _ => ?_
          exact Keeps.bind (Keeps.modify fun s => hf.queues s _ _) fun _ => ih _
        · refine (watch_keeps _ _).bind fun _ => ?_
          exact Keeps.bind (Keeps.modify fun s => hf.queues s _ _) fun _ => Keeps.pure _

theorem KeptByPasses.admit_in_order (fuel : Nat) : Keeps f (admit_in_order fuel) := by
  induction fuel with
  | zero => exact Keeps.throw _
  | succ fuel ih =>
    refine Keeps.get.bind fun s => ?_
    split
    · exact Keeps.pure _
    · refine Keeps.bind (Keeps.modify fun s => hf.queues s _ _) fun _ => ?_
      refine (hf.try_alloc _ _).bind fun _ => Keeps.ite ?_ (Keeps.modify fun s => hf.queues s _ _)
      refine (hf.try_extend _ _ _).bind fun _ => ?_
      exact Keeps.bind (Keeps.modify fun s => hf.queues s _ _) fun _ => ih

theorem KeptByPasses.preempt_promoted (promoted : List InferTask) : ∀ t : InferTask,
    Keeps f (preempt_promoted t promoted) := by
  induction promoted with
  | nil => exact fun _ => watch_keeps _ _
  | cons u promoted ih =>
    intro t
    refine (hf.preempt _).bind fun _ => Keeps.bind (Keeps.modify fun s => hf.queues s _ _) fun _ => ?_
    refine Keeps.get.bind fun _ => (hf.try_alloc _ _).bind fun _ => Keeps.ite ?_ (ih _)
    exact (hf.try_extend _ _ _).bind fun _ => Keeps.modify fun s => hf.queues s _ _

theorem KeptByPasses.reorder_round (t : InferTask) : Keeps f (reorder_round t) := by
  refine Keeps.get.bind fun _ => (hf.try_alloc _ _).bind fun _ => Keeps.ite ?_ ?_
  · refine (hf.try_extend _ _ _).bind fun _ => ?_
    exact Keeps.bind (Keeps.modify fun s => hf.queues s _ _) fun _ => Keeps.pure _
  · refine Keeps.get.bind fun _ => Keeps.ite (Keeps.pure _) ?_
    refine Keeps.bind (Keeps.modify fun s => hf.queues s _ _) fun _ => ?_
    refine (hf.can_alloc _ _ _).bind fun _ => Keeps.ite ?_ ?_
    · exact (hf.preempt_promoted _ _).bind fun _ => Keeps.pure _
    · exact Keeps.bind (Keeps.modify fun s => hf.queues s _ _) fun _ => Keeps.pure _

theorem KeptByPasses.reorder_loop (fuel : Nat) : ∀ next : List InferTask, Keeps f (reorder_loop fuel next) := by
  induction fuel with
  | zero => exact fun _ => Keeps.throw _
  | succ fuel ih =>
    intro next
    refine Keeps.get.bind fun s => ?_
    split
    · exact Keeps.pure _
    · exact Keeps.bind (Keeps.modify fun s => hf.queues s _ _) fun _ => (hf.reorder_round _).bind fun _ => ih _

theorem KeptByPasses.phases : Keeps f phases := by
  have hextend : Keeps f extend_tasks :=
    Keeps.get.bind fun _ => (hf.extend_allocated _ _).bind fun _ => Keeps.modify fun s => hf.queues s _ _
  refine hextend.bind fun _ => Keeps.get.bind fun _ => Keeps.ite ?_ (hf.admit_in_order _)
  exact Keeps.get.bind fun _ => (hf.reorder_loop _ _).bind fun _ => Keeps.modify fun s => hf.queues s _ _

end

end Scheduler

end LMServe
