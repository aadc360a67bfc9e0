import LMServe.MapFrame
import LMServe.Residency

/-!
# Nothing leaks

With `enable_reorder` off no task is dropped, so every task stays known until it is removed, and its
sequences have all finished by then. So every block map on every device belongs to a task the scheduler
knows (`mapStages`), and when there is no task and no region left, no block is in use.
-/

namespace LMServe
open Hoare BlockManager Ownership

/-- Stops when `schedule_waiting_with_reorder` drops a task. -/
abbrev noDrops : Watch where
  dropped := fun _ => false

/-! ### Without reordering -/

namespace Scheduler

section
variable [Hasher]

theorem try_alloc_loop_noDrops (w : Watermark) (l : List Sequence) :
    @try_alloc_loop _ noDrops w l = @try_alloc_loop _ .nothing w l := by
  induction l with
  | nil => rfl
  | cons seq l ih => simp only [try_alloc_loop, ih]; rfl

theorem try_alloc_infer_task_noDrops :
    @try_alloc_infer_task _ noDrops = @try_alloc_infer_task _ .nothing := by
  funext t w d
  simp only [try_alloc_infer_task, try_alloc_loop_noDrops]; rfl

theorem try_extend_infer_task_noDrops :
    @try_extend_infer_task _ noDrops = @try_extend_infer_task _ .nothing := rfl

omit [Hasher] in
theorem preempt_infer_task_noDrops : @preempt_infer_task noDrops = @preempt_infer_task .nothing := rfl

theorem extend_allocated_noDrops (fuel : Nat) : ∀ extended : List InferTask,
    @extend_allocated _ noDrops fuel extended = @extend_allocated _ .nothing fuel extended := by
  induction fuel with
  | zero => exact fun _ => rfl
  | succ fuel ih =>
    intro extended
    simp only [extend_allocated, ih, try_extend_infer_task_noDrops, preempt_infer_task_noDrops]; rfl

theorem admit_in_order_noDrops (fuel : Nat) :
    @admit_in_order _ noDrops fuel = @admit_in_order _ .nothing fuel := by
  induction fuel with
  | zero => rfl
  | succ fuel ih =>
    simp only [admit_in_order, ih, try_alloc_infer_task_noDrops, try_extend_infer_task_noDrops]

theorem extend_tasks_noDrops : @extend_tasks _ noDrops = @extend_tasks _ .nothing := by
  simp only [extend_tasks, extend_allocated_noDrops]

theorem admit_waiting_in_order [Watch] {s : Scheduler} (hs : s.enable_reorder = false) :
    admit_waiting s = admit_in_order (s.waiting.length + 1) s := by
  unfold admit_waiting
  rw [bind_apply, get_apply]
  simp [hs]

theorem schedule_noDrops {s s' : Scheduler} {batch : Batch} (hs : s.enable_reorder = false)
    (h : @schedule _ .nothing s = .ok batch s') : @schedule _ noDrops s = .ok batch s' := by
  obtain ⟨_, s₁, hext, h⟩ := bind_ok.1 h
  rw [← extend_tasks_noDrops] at hext
  obtain ⟨u, s₂, hadm, h⟩ := bind_ok.1 h
  have hs₁ : s₁.enable_reorder = false := by
    have hsettings := (@extend_tasks_tally _ noDrops _ _ hext).2.1
    simp only [settings, Prod.mk.injEq] at hsettings
    rw [hsettings.2.2.2.1, hs]
  have hadm' : @admit_waiting _ noDrops s₁ = .ok u s₂ := by
    rw [@admit_waiting_in_order _ noDrops _ hs₁, admit_in_order_noDrops]
    exact (@admit_waiting_in_order _ .nothing _ hs₁).symm.trans hadm
  exact bind_ok.2 ⟨_, s₁, hext, bind_ok.2 ⟨u, s₂, hadm', h⟩⟩

end

end Scheduler

/-! ### The stages -/

/-- The maps of every sequence belong to a known task. -/
def mapStages : @Lifecycle noDrops :=
  letI := noDrops
  { waiting := seqStage (fun seq _ => seq.status ≠ .Canceled) fun _ h => h
    allocated := seqStage (fun seq _ => seq.status ≠ .Canceled) fun _ h => h
    ready := seqStage (fun seq _ => seq.status ≠ .Canceled) fun _ h => h
    finished := seqStage (fun seq _ => seq.status = .Finished) fun _ h => h
    gone := fun m => m = fun _ => none
    gone_refilled := fun h hm => funext fun d => h.of_none (congrFun hm d)
    gone_none := rfl
    extend := fun h _ _ _ _ => h
    mirror := fun _ h _ => h
    admission := fun {t f f' n} h _ _ _ _ x hx => by
      rcases mem_mark_allocated hx with hx | ⟨seq, -, rfl⟩
      · exact h x hx
      · simp
    preempt := fun {t f f'} h _ _ x hx => by
      rcases t.mem_back hx with ⟨seq, -, rfl⟩ | ⟨hx, -⟩
      · simp
      · exact h x hx
    settle := fun h => h
    give_up := fun h _ => h
    drop := fun _ hdropped => absurd hdropped (by simp [Watch.dropped])
    create := fun h seq hseq => by simp [(h seq hseq).1]
    look_up := fun h _ => h
    update := @not_canceled_of_update
    remove := fun h seq hseq hne => absurd (h seq hseq) hne }

namespace System

section
variable [Hasher] {c : SchedulerConfig} {s s' : System}

theorem step_noDrops {op : Op} (hs : s.scheduler.enable_reorder = false)
    (hstep : @Op.Step _ .nothing s op s') : @Op.Step _ noDrops s op s' := by
  cases op with
  | schedule =>
    obtain ⟨batch, s₁, hrun, hstep⟩ := bind_ok.1 hstep
    obtain rfl : s₁ = s' := by simpa using hstep
    obtain ⟨σ, hσ, rfl⟩ := on_scheduler_ok hrun
    exact bind_ok.2 ⟨batch, _, zoom_ok.2 ⟨σ, Scheduler.schedule_noDrops hs hσ, rfl⟩, rfl⟩
  | _ => exact hstep

/-- A task between the two critical sections of `reserve_request` has no maps yet. -/
def Bare (s : System) : Prop := ∀ t ∈ s.reserving, ∀ i ∈ t.ids, s.scheduler.maps i = fun _ => none

theorem Bare.step [Watch] {L : Lifecycle} {op : Op} (h : Bare s) (hL : L.Inv s) (hfree : Op.NextFree s)
    (hs : op.Step s s') : Bare s' := by
  intro t ht i hi
  rcases (Op.Parks.of_step hs).mem_reserving ht with hold | ⟨request, arrival, rfl, rfl⟩
  · rw [Op.step_maps_other hfree hs (hL.parked_untouched (List.mem_append_right _ hold) ?_ hi)]
    · exact h t hold i hi
    · rintro session_id _ _ - u hu
      have hmem : u ∈ s.scheduler.pending_tasks := (Table.values_erase_perm hu).subset (List.mem_cons_self ..)
      exact hL.pending_apart_reserving hold hmem
  · rw [Op.step_maps_other hfree hs fun u hu => by simp [Op.acts_on] at hu]
    have hge : s.next_seq_id ≤ i := by
      rw [Lifecycle.ids_to_task] at hi
      obtain ⟨k, -, rfl⟩ := List.mem_map.1 hi
      exact Nat.le_add_right _ _
    refine (hL.rest i fun p hp hip => ?_).2 hge
    exact absurd (hL.inside p hp i hip) (Nat.not_lt.2 hge)

theorem mapStages_run (hc : c.enable_reorder = false) (h : Reachable c s) :
    @Lifecycle.Inv noDrops mapStages s ∧ Bare s := by
  obtain ⟨ops, h⟩ := h
  induction h with
  | nil => exact ⟨@Lifecycle.Inv.new noDrops mapStages c, fun t ht => absurd ht List.not_mem_nil⟩
  | snoc hprev hs ih =>
    have hsettings := settings_of_run hprev
    simp only [settings, Scheduler.settings, new, Scheduler.new, Prod.mk.injEq] at hsettings
    have hstep := step_noDrops (hsettings.2.2.2.1.trans hc) hs
    exact ⟨@Lifecycle.Inv.step noDrops _ _ _ _ ih.1 _ hstep,
      @Bare.step _ _ _ noDrops _ _ ih.2 ih.1 (regionsBelow hprev).nextFree hstep⟩

/-- The tasks the scheduler has accepted and not given up yet. -/
def live_tasks (s : System) : List InferTask :=
  s.scheduler.waiting ++ s.scheduler.allocated ++ s.scheduler.pending_tasks ++ s.finished

/-- With `enable_reorder` off, in every state that operations returning normally can reach, in any
order: every block map on every device is that of a sequence of a task that is waiting, allocated,
pending or finished and not yet removed; and when there is no such task and no region left, every block
of the three pools has reference count zero and is in the free list. -/
theorem run_no_leak (hc : c.enable_reorder = false) (h : Reachable c s) :
    (∀ d i, (s.scheduler.get_block_manager d).get_block_map i ≠ none → ∃ t ∈ s.live_tasks, i ∈ t.ids) ∧
    (s.live_tasks = [] →
      (∀ d r, (s.scheduler.get_block_manager d).reserved_blocks_table.lookup r = none) →
      ∀ d b, b < c.num_blocks d → ((s.scheduler.get_block_manager d).get_block b).ref_cnt = 0 ∧
        b ∈ (s.scheduler.get_block_manager d).block_allocator.free_block_ids) := by
  obtain ⟨hinv, hbare⟩ := mapStages_run hc h
  have howner : ∀ d i, (s.scheduler.get_block_manager d).get_block_map i ≠ none →
      ∃ t ∈ s.live_tasks, i ∈ t.ids := by
    intro d i hi
    by_contra hnone
    have hlive : ∀ t, t ∈ s.live_tasks → i ∉ t.ids := fun t ht hit => hnone ⟨t, ht, hit⟩
    simp only [live_tasks, List.mem_append] at hlive
    refine hi (congrFun (hinv.rest i fun p hp hip => ?_).1 d)
    simp only [Lifecycle.places, List.mem_append] at hp
    rcases hp with hp | hp | hp | hp
    · exact hlive p.2 (.inl (.inl (.inr (mem_tag.1 hp).2))) hip
    · exact hlive p.2 (.inl (.inl (.inl (mem_tag.1 hp).2))) hip
    · rcases List.mem_append.1 (mem_tag.1 hp).2 with hp | hp
      · exact hlive p.2 (.inl (.inr hp)) hip
      · exact hi (congrFun (hbare p.2 hp i hip) d)
    · exact hlive p.2 (.inr (mem_tag.1 hp).2) hip
  refine ⟨howner, fun hidle hregions d b hb => ?_⟩
  obtain ⟨ops, hrun⟩ := h
  obtain ⟨bm_ops, hbm⟩ := manager_reached hrun d
  have hcnt := (BmOp.ref_cnt_eq_refs hbm).1 b hb
  have hunmapped : ∀ i, (s.scheduler.get_block_manager d).get_block_map i = none := fun i => by
    by_contra hi
    obtain ⟨t, ht, -⟩ := howner d i hi
    rw [hidle] at ht
    exact absurd ht List.not_mem_nil
  have hrefs := refs_eq_zero_of_unmapped hunmapped (hregions d) b
  have hzero : ((s.scheduler.get_block_manager d).get_block b).ref_cnt = 0 := by rw [hcnt.1, hrefs]; rfl
  exact ⟨hzero, hcnt.2.1.2 (hcnt.2.2.2 hzero)⟩

end

/-- Four blocks of size 1 on each device. -/
def fourBlocks : SchedulerConfig := ⟨8, 64, 16, 1, Nat.one_pos, 4, 4, 4, false, Scheduler.defaultWatermark⟩

/-- One task, from its arrival to its removal, with its block copied to the disk. -/
theorem run_no_leak_single :
    let _ := decimalHasher
    ∃ s, Run Op.Step (new fourBlocks) [prompt 1 1, .schedule, results [(0, 0)] 0, .backup 0, .remove_task 0,
        .commit ⟨.Disk, 1, [0], [11]⟩] s ∧
      ∀ d b, b < 4 → ((s.scheduler.get_block_manager d).get_block b).ref_cnt = 0 := by
  let _ := decimalHasher
  have hfollow : (Run.follow Op.next (new fourBlocks) [prompt 1 1, .schedule, results [(0, 0)] 0, .backup 0,
      .remove_task 0, .commit ⟨.Disk, 1, [0], [11]⟩]).any (fun s => s.live_tasks.isEmpty &&
        [Device.Gpu, .Host, .Disk].all fun d =>
          (s.scheduler.get_block_manager d).reserved_blocks_table.keys.isEmpty) = true := by decide +kernel
  obtain ⟨s, hrun, hs⟩ := Run.exists_of_follow (fun _ _ _ => Op.step_of_next) hfollow
  simp only [Bool.and_eq_true, List.isEmpty_iff, List.all_eq_true] at hs
  have hregions : ∀ d r, (s.scheduler.get_block_manager d).reserved_blocks_table.lookup r = none := fun d r => by
    refine AList.lookup_eq_none.2 fun hr => ?_
    have hempty := hs.2 d (by cases d <;> simp)
    rw [AList.mem_keys, hempty] at hr
    exact absurd hr List.not_mem_nil
  have hfree := (run_no_leak rfl ⟨_, hrun⟩).2 hs.1 hregions
  exact ⟨s, hrun, fun d b hb => (hfree d b (by cases d <;> exact hb)).1⟩

end System

end LMServe
