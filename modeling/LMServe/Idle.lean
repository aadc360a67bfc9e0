import LMServe.FreeList
import LMServe.SystemSteps

/-!
# What empties the queues

A task leaves the queues when it is finished. It may also get lost: at the end of the preemption loop of
the reordering, or with a panic. The reordering never loses the last one, because the tasks it has
preempted meanwhile wait again. So it takes a finished task or a panic to empty the queues.
-/

namespace LMServe
open Hoare

theorem insert_sorted_ne_nil (queue : List InferTask) (t : InferTask) : insert_sorted queue t ≠ [] :=
  fun h => List.cons_ne_nil _ _ (List.nil_perm.1 (h ▸ insert_sorted_perm queue t))

theorem ne_nil_of_tally {l l' : List InferTask} (h : ∀ a, tally a l' = tally a l) (hl : l ≠ []) : l' ≠ [] := by
  rintro rfl
  obtain ⟨t, rest, rfl⟩ := List.exists_cons_of_ne_nil hl
  have ht := h t.ident
  rw [tally_nil, tally_cons, one, if_pos rfl] at ht
  omega

namespace Scheduler

/-- There are tasks in the queues. -/
def Busy (s : Scheduler) : Prop := s.is_task_queue_empty = false

section
variable {s s' : Scheduler}

theorem busy_iff : s.Busy ↔ s.allocated ≠ [] ∨ s.waiting ≠ [] ∨ s.pending.entries ≠ [] := by
  simp only [Busy, is_task_queue_empty, Bool.and_eq_false_iff, List.isEmpty_eq_false_iff, ne_eq, or_assoc]

theorem Busy.congr (h : s.Busy) (hc : s'.control = s.control) : s'.Busy := by
  obtain ⟨hW, hA, hP, -⟩ := control_eq hc
  rw [busy_iff] at h ⊢
  rwa [hW, hA, hP]

theorem busy_of_keeps {α : Type} {x : SM α} (h : Keeps control x) : Preserves Busy x :=
  h.preserves fun _ _ heq hb => hb.congr heq

theorem pend_busy (t : InferTask) (s : Scheduler) : Ends (pend t) s (fun _ => Busy) fun _ => Busy := by
  refine (System.pend_ends t s).conseq ?_ ?_
  · rintro _ _ ⟨-, rfl⟩; exact busy_iff.2 (.inr (.inr (List.cons_ne_nil _ _)))
  · rintro _ _ ⟨-, -, rfl⟩; exact busy_iff.2 (.inr (.inr (List.cons_ne_nil _ _)))

theorem add_busy (t : InferTask) (s : Scheduler) : Ends (add t) s (fun _ => Busy) fun _ => Busy :=
  Ends.modify (busy_iff.2 (.inr (.inl (by simp))))

section
variable [Hasher]

theorem trigger_pend_task_busy {session_id : Nat} {region_id : Option Nat} {hash_values : List Nat}
    (h : trigger_pend_task session_id region_id hash_values s = .ok .unit s') : s'.Busy := by
  obtain ⟨t, -, hW, -, -⟩ := trigger_pend_task_ok h
  exact busy_iff.2 (.inr (.inl (by rw [hW]; exact insert_sorted_ne_nil _ _)))

/-! ### Scheduling -/

variable [Watch]

theorem preempt_promoted_waiting (promoted : List InferTask) : ∀ {t : InferTask} {s s' : Scheduler},
    preempt_promoted t promoted s = .ok .unit s' → promoted ≠ [] ∨ s.waiting ≠ [] → s'.waiting ≠ [] := by
  induction promoted with
  | nil =>
    intro t s s' h hne
    obtain ⟨-, rfl⟩ := watch_ok h
    exact hne.resolve_left (fun hnil => hnil rfl)
  | cons u promoted ih =>
    intro t s s' h _
    obtain ⟨u', s₁, hpre, h⟩ := bind_ok.1 h
    obtain ⟨_, s₂, hmod, h⟩ := bind_ok.1 h
    obtain rfl : { s₁ with waiting := insert_sorted s₁.waiting u' } = s₂ := by simpa using hmod
    obtain ⟨_, _, hget, h⟩ := bind_ok.1 h
    obtain ⟨rfl, rfl⟩ : _ ∧ _ := by simpa using hget
    obtain ⟨⟨ok, t'⟩, s₃, halloc, h⟩ := bind_ok.1 h
    have hW₃ : s₃.waiting ≠ [] := by
      rw [(control_eq (try_alloc_infer_task_ok halloc).1).1]
      exact insert_sorted_ne_nil _ _
    dsimp only at h
    split at h
    · obtain ⟨_, s₄, hext, h⟩ := bind_ok.1 h
      have hW₄ := (control_eq ((try_extend_infer_task_keeps t' _ _).of_ok hext)).1
      obtain rfl : { s₄ with allocated := s₄.allocated ++ t' :: promoted.reverse } = s' := by
        simpa using h
      dsimp only
      rwa [hW₄]
    · exact ih h (.inr hW₃)

/-- A round leaves tasks in the two queues, unless nothing was allocated and the task did not fit. -/
theorem reorder_round_leaves {t : InferTask} {back : List InferTask} (h : reorder_round t s = .ok back s') :
    s'.waiting ≠ [] ∨ s'.allocated ≠ [] ∨ s.allocated = [] ∧ ∃ t',
      try_alloc_infer_task t s.watermark_blocks .Gpu s = .ok (false, t') s' ∧ back = [t'] := by
  obtain ⟨_, _, hget, h⟩ := bind_ok.1 h
  obtain ⟨rfl, rfl⟩ : _ ∧ _ := by simpa using hget
  obtain ⟨⟨ok, t'⟩, s₁, halloc, h⟩ := bind_ok.1 h
  dsimp only at h
  split at h
  · obtain ⟨_, s₂, hext, h⟩ := bind_ok.1 h
    obtain ⟨_, s₃, hmod, h⟩ := bind_ok.1 h
    obtain rfl : { s₂ with allocated := insert_sorted s₂.allocated t' } = s₃ := by simpa using hmod
    obtain ⟨-, rfl⟩ : [] = back ∧ _ = s' := by simpa using h
    exact .inr (.inl (insert_sorted_ne_nil _ _))
  · rename_i hok
    obtain ⟨_, _, hget, h⟩ := bind_ok.1 h
    obtain ⟨rfl, rfl⟩ : _ ∧ _ := by simpa using hget
    obtain ⟨⟨kept, promoted⟩, hpair⟩ : ∃ p, p = split_promoted t' s₁.allocated := ⟨_, rfl⟩
    rw [← hpair] at h
    dsimp only at h
    split at h
    · obtain ⟨rfl, rfl⟩ : [t'] = back ∧ s₁ = s' := by simpa using h
      by_cases hA : s₁.allocated = []
      · refine .inr (.inr ⟨?_, t', ?_, rfl⟩)
        · rw [← (control_eq (try_alloc_infer_task_ok halloc).1).2.1, hA]
        · rw [halloc, Bool.eq_false_iff.2 hok]
      · exact .inr (.inl hA)
    · rename_i hpromoted
      have hne : promoted ≠ [] := fun hnil => hpromoted (by rw [hnil]; rfl)
      obtain ⟨_, s₂, hmod, h⟩ := bind_ok.1 h
      obtain ⟨ok', s₃, hcan, h⟩ := bind_ok.1 h
      split at h
      · obtain ⟨_, s₄, hpre, h⟩ := bind_ok.1 h
        obtain ⟨-, rfl⟩ : [] = back ∧ s₄ = s' := by simpa using h
        exact .inl (preempt_promoted_waiting _ hpre (.inl (by simpa using hne)))
      · obtain ⟨_, s₄, hmod₄, h⟩ := bind_ok.1 h
        obtain rfl : { s₃ with allocated := s₃.allocated ++ promoted } = s₄ := by simpa using hmod₄
        obtain ⟨-, rfl⟩ : [t'] = back ∧ _ = s' := by simpa using h
        exact .inr (.inl (List.append_ne_nil_of_right_ne_nil _ hne))

theorem reorder_round_tasks {t : InferTask} {back : List InferTask} (h : reorder_round t s = .ok back s') :
    back ≠ [] ∨ s'.waiting ≠ [] ∨ s'.allocated ≠ [] := by
  rcases reorder_round_leaves h with hW | hA | ⟨-, t', -, rfl⟩
  · exact .inr (.inl hW)
  · exact .inr (.inr hA)
  · exact .inl (List.cons_ne_nil _ _)

theorem reorder_loop_tasks (fuel : Nat) : ∀ {next next' : List InferTask} {s s' : Scheduler},
    reorder_loop fuel next s = .ok next' s' → next ≠ [] ∨ s.waiting ≠ [] ∨ s.allocated ≠ [] →
      next' ≠ [] ∨ s'.allocated ≠ [] := by
  induction fuel with
  | zero => intro next next' s s' h; simp [reorder_loop] at h
  | succ fuel ih =>
    intro next next' s s' h hne
    obtain ⟨_, _, hget, h⟩ := bind_ok.1 h
    obtain ⟨rfl, rfl⟩ : _ ∧ _ := by simpa using hget
    cases hW : s.waiting with
    | nil =>
      rw [hW] at h
      obtain ⟨rfl, rfl⟩ : next = next' ∧ s = s' := by simpa using h
      exact hne.imp_right fun h => h.resolve_left (fun hne => hne hW)
    | cons t queue =>
      rw [hW] at h
      dsimp only at h
      obtain ⟨_, s₁, hmod, h⟩ := bind_ok.1 h
      obtain ⟨back, s₂, hround, h⟩ := bind_ok.1 h
      refine ih h ?_
      rcases reorder_round_tasks hround with hback | hrest
      · exact .inl (by simp [hback])
      · exact .inr hrest

theorem admit_waiting_tasks (h : admit_waiting s = .ok .unit s') (hne : s.waiting ++ s.allocated ≠ []) :
    s'.waiting ++ s'.allocated ≠ [] := by
  obtain ⟨_, _, hget, h⟩ := bind_ok.1 h
  obtain ⟨rfl, rfl⟩ : _ ∧ _ := by simpa using hget
  split at h
  · obtain ⟨_, _, hget, h⟩ := bind_ok.1 h
    obtain ⟨rfl, rfl⟩ : _ ∧ _ := by simpa using hget
    obtain ⟨next, s₁, hloop, h⟩ := bind_ok.1 h
    obtain rfl : { s₁ with waiting := next } = s' := by simpa using h
    have hne' : s.waiting ≠ [] ∨ s.allocated ≠ [] := by
      simpa only [ne_eq, List.append_eq_nil_iff, not_and_or] using hne
    simpa only [ne_eq, List.append_eq_nil_iff, not_and_or] using reorder_loop_tasks _ hloop (.inr hne')
  · obtain ⟨-, -, hT⟩ := admit_in_order_tally _ h
    exact ne_nil_of_tally (fun a => by rw [tally_append, tally_append]; exact hT a) hne

theorem schedule_busy {batch : Batch} (h : schedule s = .ok batch s') (hb : s.Busy) : s'.Busy := by
  obtain ⟨hpending, -, -⟩ := schedule_tally h
  obtain ⟨_, s₁, hext, h⟩ := bind_ok.1 h
  obtain ⟨_, s₂, hadm, h⟩ := bind_ok.1 h
  obtain ⟨batch', s₃, hdis, h⟩ := bind_ok.1 h
  obtain ⟨_, s₄, hmod, h⟩ := bind_ok.1 h
  obtain rfl : { s₃ with running_batch := batch'.running_batch } = s₄ := by simpa using hmod
  obtain ⟨-, rfl⟩ : batch' = batch ∧ _ = s' := by simpa using h
  obtain ⟨hW₃, hA₃, -, -⟩ := control_eq (dispatch_keeps.of_ok hdis)
  obtain ⟨-, -, hT₁⟩ := extend_tasks_tally hext
  rw [busy_iff] at hb ⊢
  rcases Classical.em (s.waiting ++ s.allocated = []) with hnil | hne
  · -- the tasks are all pending
    obtain ⟨hW, hA⟩ := List.append_eq_nil_iff.1 hnil
    refine .inr (.inr ?_)
    rw [hpending]
    exact (hb.resolve_left (fun hne => hne hA)).resolve_left (fun hne => hne hW)
  · have hne₁ : s₁.waiting ++ s₁.allocated ≠ [] :=
      ne_nil_of_tally (fun a => by rw [tally_append, tally_append]; exact hT₁ a) hne
    have hne₂ := admit_waiting_tasks hadm hne₁
    dsimp only
    rw [hW₃, hA₃]
    simp only [ne_eq, List.append_eq_nil_iff, not_and_or] at hne₂
    exact hne₂.elim (fun h => .inr (.inl h)) .inl

end

/-- Without a finished task the results of a batch leave all tasks where they are. -/
theorem update_busy {infer_outputs : Table InferOutput} {now : Nat}
    (h : update infer_outputs now s = .ok [] s') (hb : s.Busy) : s'.Busy := by
  obtain ⟨_, _, hget, h⟩ := bind_ok.1 h
  obtain ⟨rfl, rfl⟩ : _ ∧ _ := by simpa using hget
  obtain ⟨_, s₁, hmod, h⟩ := bind_ok.1 h
  obtain ⟨hfinished, rfl⟩ : _ = [] ∧ s₁ = s' := by
    simpa only [pure_apply, EStateM.Result.ok.injEq] using h
  simp only [modify_apply, EStateM.Result.ok.injEq, true_and] at hmod
  subst hmod
  rw [busy_iff] at hb ⊢
  refine hb.imp_left fun hA hnil => ?_
  obtain ⟨t, rest, hcons⟩ := List.exists_cons_of_ne_nil hA
  have ht : update_task s.max_seq_len s.running_batch infer_outputs now t ∈
      s.allocated.map (update_task s.max_seq_len s.running_batch infer_outputs now) :=
    List.mem_map_of_mem (by rw [hcons]; exact List.mem_cons_self)
  have hnot := List.filter_eq_nil_iff.1 hfinished _ ht
  exact List.filter_eq_nil_iff.1 hnil _ ht (by simpa using hnot)

end

end Scheduler

/-! ### The sections -/

namespace System

def Busy (s : System) : Prop := s.scheduler.Busy

section
variable {s s' : System}

theorem on_scheduler_busy {α : Type} {x : SM α} (h : Preserves Scheduler.Busy x) : Preserves Busy (on_scheduler x) :=
  Lowers.zoom h fun _ _ h => h

theorem generate_id_busy : Preserves Busy generate_id :=
  Lowers.get.bind fun _ => Lowers.bind (Preserves.modify fun _ h => h) fun _ => Lowers.pure _

theorem create_task_busy (request : GenerateRequest) (arrival_time : Nat) :
    Preserves Busy (create_task request arrival_time) :=
  Lowers.get.bind fun _ => Lowers.bind (Preserves.modify fun _ h => h) fun _ => Lowers.pure _

theorem pend_reserved_busy (i : Nat) : Preserves Busy (pend_reserved i) := by
  refine Lowers.get.bind fun s => ?_
  split
  · exact Lowers.pure _
  · exact Lowers.bind (Preserves.modify fun _ h => h) fun _ =>
      on_scheduler_busy (Preserves.of_ends fun s _ => Scheduler.pend_busy _ s)

theorem remove_task_busy (i : Nat) : Preserves Busy (remove_task i) := by
  refine Lowers.get.bind fun s => ?_
  split
  · exact Lowers.pure _
  · exact (on_scheduler_busy (Scheduler.busy_of_keeps (Scheduler.remove_task_keeps _))).bind fun _ =>
      Preserves.modify fun _ h => h

theorem update_busy {infer_outputs : Table InferOutput} {now : Nat}
    (h : update infer_outputs now s = .ok [] s') (hb : s.Busy) : s'.Busy := by
  obtain ⟨finished, s₁, hupdate, h⟩ := bind_ok.1 h
  obtain ⟨σ, hσ, rfl⟩ := on_scheduler_ok hupdate
  obtain ⟨_, s₂, hmod, h⟩ := bind_ok.1 h
  simp only [modify_apply, EStateM.Result.ok.injEq, true_and] at hmod
  obtain ⟨rfl, rfl⟩ : finished = [] ∧ s₂ = s' := by
    simpa only [pure_apply, EStateM.Result.ok.injEq] using h
  subst hmod
  exact Scheduler.update_busy hσ hb

theorem update_total (infer_outputs : Table InferOutput) (now : Nat) (s : System) :
    ∃ finished s', update infer_outputs now s = .ok finished s' := ⟨_, _, rfl⟩

variable [Hasher]

theorem add_request_busy (request : GenerateRequest) (arrival_time : Nat) :
    Preserves Busy (add_request request arrival_time) := by
  refine (create_task_busy _ _).bind fun t =>
    (on_scheduler_busy (Scheduler.busy_of_keeps (Scheduler.init_prefix_cache_blocks_keeps _ _))).bind fun _ =>
    generate_id_busy.bind fun r =>
    (on_scheduler_busy (Scheduler.busy_of_keeps (Scheduler.plan_stage_keeps _ _))).bind fun plan => ?_
  split
  · exact (on_scheduler_busy (Preserves.of_ends fun s _ => Scheduler.pend_busy _ s)).bind fun _ => Lowers.pure _
  · exact (on_scheduler_busy (Preserves.of_ends fun s _ => Scheduler.add_busy _ s)).bind fun _ => Lowers.pure _

theorem busy_of_add_request {request : GenerateRequest} {arrival_time : Nat}
    {plan : Option (DeviceBlockRegion × BlockMapping)}
    (h : add_request request arrival_time s = .ok plan s') : s'.Busy := by
  obtain ⟨t, s₁, -, h⟩ := bind_ok.1 h
  obtain ⟨_, s₂, -, h⟩ := bind_ok.1 h
  obtain ⟨r, s₃, -, h⟩ := bind_ok.1 h
  obtain ⟨plan', s₄, -, h⟩ := bind_ok.1 h
  split at h
  · obtain ⟨_, s₅, hpend, h⟩ := bind_ok.1 h
    obtain ⟨-, rfl⟩ : _ = plan ∧ s₅ = s' := by simpa using h
    obtain ⟨σ, hσ, rfl⟩ := on_scheduler_ok hpend
    exact (Scheduler.pend_busy _ _).of_ok hσ
  · obtain ⟨_, s₅, hadd, h⟩ := bind_ok.1 h
    obtain ⟨-, rfl⟩ : _ = plan ∧ s₅ = s' := by simpa using h
    obtain ⟨σ, hσ, rfl⟩ := on_scheduler_ok hadd
    exact (Scheduler.add_busy _ _).of_ok hσ

theorem reserve_request_busy (request : GenerateRequest) (arrival_time : Nat) :
    Preserves Busy (reserve_request request arrival_time) :=
  (create_task_busy _ _).bind fun _ => generate_id_busy.bind fun _ =>
    (on_scheduler_busy (Scheduler.busy_of_keeps (Scheduler.reserve_blocks_keeps _ _ _))).bind fun _ =>
    Lowers.bind (Preserves.modify fun _ h => h) fun _ => Lowers.pure _

omit [Hasher] in
theorem commit_busy (region : DeviceBlockRegion) :
    Preserves Busy (on_scheduler (Scheduler.commit_reserved_blocks region)) :=
  on_scheduler_busy (Scheduler.busy_of_keeps (Scheduler.on_device_keeps _ _))

theorem backup_busy (i : Nat) : Preserves Busy (backup i) := by
  refine Lowers.get.bind fun s => ?_
  split
  · exact Lowers.pure _
  · exact generate_id_busy.bind fun _ =>
      on_scheduler_busy (Scheduler.busy_of_keeps (Scheduler.backup_keeps _ _))

omit [Hasher] in
theorem pin_blocks_busy (hash_values : List Nat) : Preserves Busy (pin_blocks hash_values) :=
  generate_id_busy.bind fun _ => on_scheduler_busy (Scheduler.busy_of_keeps (Scheduler.pin_blocks_keeps _ _ _))

end

end System

/-! ### The steps of the engine -/

namespace EngineOp

/-- The steps that take tasks out of a queue. -/
def moves_tasks : EngineOp → Bool
  | trigger_request .. | schedule | update .. | callback => true
  | _ => false

variable [Hasher]

/-- The section of the step panics while tasks are out of the queues. -/
def panics (e : Engine) : EngineOp → Bool
  | trigger_request k hash_values => e.remote[k]?.any fun (session_id, region) =>
      (attempt (System.on_scheduler (Scheduler.trigger_pend_task session_id
        (region.map (·.block_region.id)) hash_values)) e.system).1.isNone
  | schedule => (attempt (System.on_scheduler Scheduler.schedule) e.system).1.isNone
  | callback => match e.queue with
    | .swap_in session_id region _ :: _ =>
      (attempt (System.on_scheduler (Scheduler.trigger_pend_task session_id (some region.block_region.id)
        region.block_region.hashes)) e.system).1.isNone
    | _ => false
  | _ => false

theorem Runs.busy {op : EngineOp} {α : Type} {x : SysM α} (h : Runs op x) (hop : op.moves_tasks = false) :
    Preserves System.Busy x := by
  cases h with
  | add_request request arrival => exact System.add_request_busy _ _
  | reserve_request request arrival => exact System.reserve_request_busy _ _
  | pend_reserved i => exact System.pend_reserved_busy _
  | backup => exact System.backup_busy _
  | remove_task => exact System.remove_task_busy _
  | pin hash_values => exact System.pin_blocks_busy _
  | unpin i region => exact System.on_scheduler_busy (Scheduler.busy_of_keeps (Scheduler.on_device_keeps _ _))
  | clear_cache => exact System.on_scheduler_busy (Scheduler.busy_of_keeps Scheduler.clear_cache_keeps)
  | _ => cases hop

end EngineOp

end LMServe
