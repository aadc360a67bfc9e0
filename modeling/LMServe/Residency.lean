import LMServe.LifecycleRun
import LMServe.Worker

/-!
# Who has blocks on the GPU

Two lifecycles. `gpuStages`: a task in `waiting` has no blocks on the GPU, so that all blocks there
belong to tasks in `allocated` and to finished tasks. A task goes back to `waiting` in three ways, and
two of them leave blocks behind: preemption frees the active sequences only, and the extension loop
of `schedule` frees nothing when it gives a task up.
-/

namespace LMServe
open Hoare Ownership

/-- Stops when a task goes back to `waiting` with blocks on the GPU: when the extension loop has no
other task to preempt, or when a preempted task has a finished sequence. -/
abbrev noLeftovers : Watch where
  preempted := fun t => t.seqs.all (·.is_active)
  stuck := fun _ => false

/-! ### The stages -/

section
variable {t : InferTask} {seq : Sequence}

theorem InferTask.is_finished_iff : t.is_finished = true ↔ ∀ seq ∈ t.seqs, seq.is_finished = true := by
  simp [InferTask.is_finished]

theorem InferTask.mem_back {x : Sequence} (hx : x ∈ t.back.seqs) :
    (∃ seq ∈ t.get_active_seqs, x = { seq with status := .Waiting }) ∨
      x ∈ t.seqs ∧ ¬ x.is_active = true := by
  obtain ⟨seq, hseq, rfl⟩ := List.mem_map.1 hx
  split
  · exact .inl ⟨seq, List.mem_filter.2 ⟨hseq, ‹_›⟩, rfl⟩
  · exact .inr ⟨hseq, ‹_›⟩

theorem Updated.not_canceled {t' : InferTask} (h : ∀ seq ∈ t.seqs, seq.status ≠ .Canceled)
    (hupd : ∀ seq' ∈ t'.seqs, ∃ seq ∈ t.seqs, Updated seq seq') :
    (∀ x ∈ t'.seqs, x.status ≠ .Canceled) ∧
      (t'.is_finished = true → ∀ x ∈ t'.seqs, x.status = .Finished) := by
  have hlive : ∀ x ∈ t'.seqs, x.status ≠ .Canceled := fun x hx => by
    obtain ⟨seq, hseq, hu⟩ := hupd x hx
    rcases hu.status with hst | ⟨-, hst⟩
    · rw [hst]; exact h seq hseq
    · rw [hst]; simp
  refine ⟨hlive, fun hfin x hx => ?_⟩
  have := InferTask.is_finished_iff.1 hfin x hx
  simpa [Sequence.is_finished, hlive x hx] using this

end

theorem not_canceled_of_update {t t' : InferTask} {f : Maps}
    (h : (seqStage (fun seq _ => seq.status ≠ .Canceled) fun _ h => h).holds t f)
    (hupd : ∀ seq' ∈ t'.seqs, ∃ seq ∈ t.seqs, Updated seq seq') :
    if t'.is_finished then (seqStage (fun seq _ => seq.status = .Finished) fun _ h => h).holds t' f
    else (seqStage (fun seq _ => seq.status ≠ .Canceled) fun _ h => h).holds t' f := by
  obtain ⟨hlive, hfinished⟩ := Updated.not_canceled h hupd
  split
  · exact hfinished ‹_›
  · exact hlive

/-- See the module doc. -/
def gpuStages : @Lifecycle noLeftovers :=
  letI := noLeftovers
  { waiting := seqStage (fun seq m => seq.status = .Waiting ∧ m .Gpu = none)
      fun href h => ⟨h.1, href.of_none h.2⟩
    allocated := seqStage (fun seq _ => seq.status ≠ .Canceled) fun _ h => h
    ready := seqStage (fun seq _ => seq.status ≠ .Canceled) fun _ h => h
    finished := seqStage (fun seq _ => seq.status = .Finished) fun _ h => h
    gone := fun m => m .Gpu = none
    gone_refilled := fun h hm => h.of_none hm
    gone_none := rfl
    extend := fun h _ _ _ _ => h
    mirror := fun _ h _ => h
    admission := fun {t f f' n} h _ _ _ _ x hx => by
      rcases mem_mark_allocated hx with hx | ⟨seq, -, rfl⟩
      · rw [(h x hx).1]; simp
      · simp
    preempt := fun {t f f'} _ hp hfreed x hx => by
      have hall : t.seqs.all (·.is_active) = true := hp
      rcases t.mem_back hx with ⟨seq, hseq, rfl⟩ | ⟨hx, hact⟩
      · exact ⟨rfl, hfreed.freed seq hseq⟩
      · exact absurd (List.all_eq_true.1 hall x hx) hact
    settle := fun h => h
    give_up := fun _ hstuck => absurd hstuck (by simp [Watch.stuck])
    drop := fun h _ i hi => by
      obtain ⟨seq, hseq, rfl⟩ := List.mem_map.1 hi
      exact (h seq hseq).2
    create := fun h seq hseq => ⟨(h seq hseq).1, by rw [(h seq hseq).2]⟩
    look_up := fun h hlook seq hseq => ⟨(h seq hseq).1, (hlook.gpu _).trans (h seq hseq).2⟩
    update := @not_canceled_of_update
    remove := fun h seq hseq hne => absurd (h seq hseq) hne }

namespace System

section
variable [Hasher] {c : SchedulerConfig} {s : System}

/-- A block in use on the GPU is in the map of a sequence. -/
theorem exists_map_of_ref_cnt (h : Reachable c s) {b : Nat}
    (hb : 0 < (s.scheduler.gpu_block_manager.get_block b).ref_cnt) :
    ∃ i m, s.scheduler.gpu_block_manager.get_block_map i = some m ∧ b ∈ m.block_ids := by
  obtain ⟨tok, hinv⟩ := reachable_gpu h
  have hdev := hinv.devices .Gpu rfl
  have href : s.scheduler.gpu_block_manager.RefInv c.num_gpu_blocks [] := hdev.page.ref
  have hlt : b < c.num_gpu_blocks := by
    by_contra hge
    have hnone : s.scheduler.gpu_block_manager.get_block b = Block.new := by
      simp only [BlockManager.get_block, BlockAllocator.get_block, List.getD_eq_getElem?_getD]
      rw [List.getElem?_eq_none (by rw [href.pool_len]; omega)]
      rfl
    rw [hnone] at hb
    exact absurd hb (by simp [Block.new])
  rw [href.ref_cnt hlt] at hb
  have hrefs : 0 < s.scheduler.gpu_block_manager.refs b := by simpa using hb
  unfold BlockManager.refs at hrefs
  rcases Nat.eq_zero_or_pos (s.scheduler.gpu_block_manager.seq_block_mapping_table.total
    fun m => m.block_ids.count b) with hzero | hpos
  · -- there are no regions on the GPU
    rw [hzero, Nat.zero_add] at hrefs
    obtain ⟨r, ids, hr, -⟩ := (Table.total_pos_iff _ _).1 hrefs
    have hfresh := hdev.fresh r (Nat.zero_le r)
    exact absurd (hr.symm.trans hfresh) (by simp)
  · obtain ⟨i, m, hm, hcount⟩ := (Table.total_pos_iff _ _).1 hpos
    exact ⟨i, m, hm, List.count_pos_iff.1 hcount⟩

/-- In every state of a run in which no task goes back to `waiting` with blocks on the GPU by one of
the two ways above: the active sequences of waiting tasks have status `Waiting`, no sequence of a
waiting task has a map on the GPU, and every map and every block in use there belongs to a task in
`allocated` or to a finished task that is not removed yet. -/
theorem run_residency {ops : List Op}
    (h : Run (fun s op s' => Op.Step s op s' ∧ op.careful noLeftovers s = true) (System.new c) ops s) :
    (∀ t ∈ s.scheduler.waiting, (∀ seq ∈ t.get_active_seqs, seq.status = .Waiting) ∧
      ∀ seq ∈ t.seqs, s.scheduler.gpu_block_manager.get_block_map seq.seq_id = none) ∧
    (∀ i, s.scheduler.gpu_block_manager.get_block_map i ≠ none →
      ∃ t ∈ s.scheduler.allocated ++ s.finished, i ∈ t.ids) ∧
    ∀ b, 0 < (s.scheduler.gpu_block_manager.get_block b).ref_cnt →
      ∃ t ∈ s.scheduler.allocated ++ s.finished, ∃ i ∈ t.ids, ∃ m,
        s.scheduler.gpu_block_manager.get_block_map i = some m ∧ b ∈ m.block_ids := by
  have hinv := Lifecycle.Inv.run noLeftovers gpuStages h
  have habsent : ∀ t ∈ s.scheduler.waiting ++ s.parked, ∀ seq ∈ t.seqs,
      seq.status = .Waiting ∧ s.scheduler.maps seq.seq_id .Gpu = none := by
    intro t ht
    refine hinv.holds ((@Lifecycle.waiting noLeftovers gpuStages), t) ?_
    rcases List.mem_append.1 ht with ht | ht
    · exact List.mem_append_right _ (List.mem_append_left _ (mem_tag.2 ⟨rfl, ht⟩))
    · exact List.mem_append_right _ (List.mem_append_right _ (List.mem_append_left _ (mem_tag.2 ⟨rfl, ht⟩)))
  have howner : ∀ i, s.scheduler.gpu_block_manager.get_block_map i ≠ none →
      ∃ t ∈ s.scheduler.allocated ++ s.finished, i ∈ t.ids := by
    intro i hi
    by_contra hnone
    refine hi (hinv.rest i fun p hp hip => ?_).1
    simp only [Lifecycle.places, List.mem_append] at hp
    rcases hp with hp | hp | hp | hp
    · exact hnone ⟨p.2, List.mem_append_left _ (mem_tag.1 hp).2, hip⟩
    · obtain ⟨seq, hseq, rfl⟩ := List.mem_map.1 hip
      exact hi (habsent p.2 (List.mem_append_left _ (mem_tag.1 hp).2) seq hseq).2
    · obtain ⟨seq, hseq, rfl⟩ := List.mem_map.1 hip
      exact hi (habsent p.2 (List.mem_append_right _ (mem_tag.1 hp).2) seq hseq).2
    · exact hnone ⟨p.2, List.mem_append_right _ (mem_tag.1 hp).2, hip⟩
  refine ⟨fun t ht => ⟨fun seq hseq => ?_, fun seq hseq => ?_⟩, howner, fun b hb => ?_⟩
  · exact (habsent t (List.mem_append_left _ ht) seq (List.mem_filter.1 hseq).1).1
  · exact (habsent t (List.mem_append_left _ ht) seq hseq).2
  · obtain ⟨i, m, hm, hbm⟩ := exists_map_of_ref_cnt ⟨ops, h.mono fun _ _ _ hs => hs.1⟩ hb
    obtain ⟨t, ht, hit⟩ := howner i (by rw [hm]; simp)
    exact ⟨t, ht, i, hit, m, hm, hbm⟩

end

/-- The results of a batch: a token for each sequence listed; token `0` ends it. -/
def results (l : List (Nat × Nat)) (now : Nat) : Op :=
  .update (l.foldl (fun table p => table.insert p.1 ⟨p.2, 1, "", p.2 = 0⟩) ∅) now

/-- A request of session `i` with prompt `[i]`. -/
def prompt (i num_samples : Nat) : Op := .add_request ⟨i, [i], num_samples, none, false, false⟩ i

/-- Block size 1. -/
def smallConfig (num_gpu_blocks : Nat) : SchedulerConfig :=
  ⟨8, 64, 16, 1, Nat.one_pos, num_gpu_blocks, 0, 0, false, Scheduler.defaultWatermark⟩

/-- Four blocks for two tasks: in the third round the first task takes the blocks of the second. -/
def contended (num_samples : Nat) (l l' : List (Nat × Nat)) : List Op :=
  [prompt 1 1, prompt 2 num_samples, .schedule, results l 0, .schedule, results l' 1, .schedule]

/-- One sample each. -/
theorem run_residency_contended :
    let _ := decimalHasher
    ∃ s, Run (fun s op s' => Op.Step s op s' ∧ op.careful noLeftovers s = true)
        (System.new (smallConfig 4)) (contended 1 [(0, 7), (1, 8)] [(0, 7), (1, 8)]) s ∧
      s.scheduler.waiting.map (·.ids) = [[1]] ∧
      ∀ t ∈ s.scheduler.waiting, ∀ seq ∈ t.seqs,
        s.scheduler.gpu_block_manager.get_block_map seq.seq_id = none := by
  let _ := decimalHasher
  have hfollow : (Run.follow (fun s op => if op.careful noLeftovers s then Op.next s op else none)
      (System.new (smallConfig 4)) (contended 1 [(0, 7), (1, 8)] [(0, 7), (1, 8)])).any
      (fun s => s.scheduler.waiting.map (·.ids) = [[1]]) = true := by decide +kernel
  obtain ⟨s, hrun, hs⟩ := Run.exists_of_follow (fun _ _ _ => Op.step_of_careful_next noLeftovers) hfollow
  exact ⟨s, hrun, by simpa using hs, fun t ht => ((run_residency hrun).1 t ht).2⟩

/-- One task, which comes to need a third block. -/
def growing : List Op :=
  [prompt 1 1, .schedule, results [(0, 7)] 0, .schedule, results [(0, 7)] 1, .schedule]

/-- A sequence of a waiting task that has blocks on the GPU. -/
def Leftover (s : System) (t : InferTask) (seq : Sequence) : Prop :=
  t ∈ s.scheduler.waiting ∧ seq ∈ t.seqs ∧
    s.scheduler.gpu_block_manager.get_block_map seq.seq_id ≠ none

/-- Two ways to leave blocks behind: two blocks for the growing task, with no other task to preempt, so
that it waits in status `Allocated`; and two samples for the second of the contending tasks, the first
of which ends before the task is preempted. -/
theorem run_leaves_blocks :
    let _ := decimalHasher
    (∃ s t seq, Run Op.Step (System.new (smallConfig 2)) growing s ∧ Leftover s t seq ∧
        seq.status = .Allocated) ∧
      ∃ s t seq, Run Op.Step (System.new (smallConfig 4))
          (contended 2 [(0, 7), (1, 0), (2, 8)] [(0, 7), (2, 8)]) s ∧ Leftover s t seq ∧
        seq.status = .Finished := by
  let _ := decimalHasher
  have hleft : ∀ {c : SchedulerConfig} {ops : List Op} {status : SeqStatus},
      (Run.follow Op.next (System.new c) ops).any (fun s => s.scheduler.waiting.any fun t => t.seqs.any
        fun seq => (s.scheduler.gpu_block_manager.get_block_map seq.seq_id).isSome &&
          seq.status = status) = true →
      ∃ s t seq, Run Op.Step (System.new c) ops s ∧ Leftover s t seq ∧ seq.status = status := by
    intro c ops status h
    obtain ⟨s, hrun, hs⟩ := Run.exists_of_follow (fun _ _ _ => Op.step_of_next) h
    simp only [List.any_eq_true, Bool.and_eq_true, decide_eq_true_eq] at hs
    obtain ⟨t, ht, seq, hseq, hmap, hstatus⟩ := hs
    exact ⟨s, t, seq, hrun, ⟨ht, hseq, fun hnone => by rw [hnone] at hmap; cases hmap⟩, hstatus⟩
  exact ⟨hleft (by decide +kernel), hleft (by decide +kernel)⟩

end System

end LMServe
