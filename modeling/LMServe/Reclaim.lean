import Mathlib.Algebra.Order.BigOperators.Group.List
import LMServe.Devices
import LMServe.Passes
import LMServe.Worker

/-!
# What preemption gives back (`get_reclaimable_blocks`, `preempt_infer_task`)

The estimate counts, sequence by sequence, the blocks of reference count one, all on the state before
any task is preempted. A block counted for a sequence is listed once, by that sequence, so it is not
counted for another one, and it keeps its count while others are freed. Freeing the sequence then takes
the last reference to it. Blocks that tasks of the list share come on top, once the last of them is freed.
-/

namespace LMServe
open Hoare

namespace BlockManager

variable {n : Nat} {held : List Nat} {s s' : BlockManager} {i j b : Nat}

def num_free_blocks (s : BlockManager) : Nat := s.block_allocator.free_block_ids.length

/-- The blocks of a sequence; none without a map. -/
def blocks_of (s : BlockManager) (i : Nat) : List Nat :=
  match s.get_block_map i with
  | some block_map => block_map.block_ids
  | none => []

theorem unique_blocks_eq (s : BlockManager) (i : Nat) :
    s.get_num_allocated_unique_blocks i = (s.blocks_of i).countP fun b => (s.get_block b).ref_cnt = 1 := by
  unfold get_num_allocated_unique_blocks blocks_of
  cases s.get_block_map i with
  | none => rfl
  | some m => rfl

theorem free_erases (h : s.RefInv n held) (i : Nat) :
    ∃ s', free i s = .ok .unit s' ∧ s'.RefInv n held ∧
      s'.seq_block_mapping_table = s.seq_block_mapping_table.erase i ∧
      s'.reserved_blocks_table = s.reserved_blocks_table := by
  have hfree : Triple (RefInv n held) (free i) (fun _ s => s.RefInv n held) fun _ => False := free_refInv i
  obtain ⟨_, s', hrun, hs'⟩ := hfree.returns h
  refine ⟨s', hrun, hs', ?_⟩
  replace hrun := get_ok hrun
  cases hm : s.get_block_map i with
  | none =>
    rw [hm] at hrun
    obtain rfl : s = s' := by simpa using hrun
    exact ⟨(Table.erase_of_none hm).symm, rfl⟩
  | some m =>
    rw [hm] at hrun
    have htables := (free_loop_tables _ _ _).of_ok (modify_ok hrun)
    simp only [tables, Prod.mk.injEq] at htables
    exact htables.2

theorem free_refs (htable : s'.seq_block_mapping_table = s.seq_block_mapping_table.erase i)
    (hregions : s'.reserved_blocks_table = s.reserved_blocks_table) (b : Nat) :
    (s.blocks_of i).count b + s'.refs b = s.refs b := by
  unfold refs blocks_of
  rw [htable, hregions]
  cases hm : s.get_block_map i with
  | none => rw [Table.total_erase_none _ hm, List.count_nil, Nat.zero_add]
  | some m =>
    have := Table.total_erase (fun m => m.block_ids.count b) hm
    dsimp only
    omega

theorem RefInv.mem_blocks_of (h : s.RefInv n held) (hb : b ∈ s.blocks_of i) :
    b < n ∧ (s.blocks_of i).count b ≤ s.refs b := by
  unfold blocks_of at hb ⊢
  cases hm : s.get_block_map i with
  | none => rw [hm] at hb; cases hb
  | some m =>
    rw [hm] at hb
    have hle := Table.le_total (fun m : BlockMap => m.block_ids.count b) hm
    exact ⟨h.lt_of_mem_map hm hb, Nat.le_trans hle (Nat.le_add_right _ _)⟩

/-- The blocks counted for a sequence are free after it. -/
theorem free_reclaims (h : s.RefInv n held) (h' : s'.RefInv n held)
    (htable : s'.seq_block_mapping_table = s.seq_block_mapping_table.erase i)
    (hregions : s'.reserved_blocks_table = s.reserved_blocks_table) :
    s.num_free_blocks + s.get_num_allocated_unique_blocks i ≤ s'.num_free_blocks := by
  have hrefs := free_refs htable hregions
  have hsole : ∀ b ∈ (s.blocks_of i).filter fun b => (s.get_block b).ref_cnt = 1,
      b < n ∧ (s.blocks_of i).count b = 1 ∧ s.refs b + held.count b = 1 := by
    intro b hb
    obtain ⟨hb, hone⟩ := List.mem_filter.1 hb
    obtain ⟨hlt, hle⟩ := h.mem_blocks_of hb
    have hpos := List.count_pos_iff.2 hb
    have href := h.ref_cnt hlt
    rw [of_decide_eq_true hone] at href
    omega
  rw [unique_blocks_eq, List.countP_eq_length_filter, num_free_blocks, ← List.length_append]
  refine (List.subperm_of_subset ?_ fun b hb => ?_).length_le
  · refine List.nodup_append.2 ⟨h.count.free_nodup, ?_, ?_⟩
    · refine List.nodup_iff_count_le_one.2 fun b => ?_
      by_cases hb : b ∈ (s.blocks_of i).filter fun b => (s.get_block b).ref_cnt = 1
      · exact Nat.le_trans (List.filter_sublist.count_le b) (hsole b hb).2.1.le
      · rw [List.count_eq_zero.2 hb]; exact Nat.zero_le 1
    · rintro b hfree c hc rfl
      have hzero := ((h.count.mem_free b).1 hfree).2
      have hone := (hsole b hc).2.2
      omega
  · rw [h'.count.mem_free, h'.total]
    have hb' := hrefs b
    rcases List.mem_append.1 hb with hb | hb
    · obtain ⟨hlt, hzero⟩ := (h.count.mem_free b).1 hb
      exact ⟨h.total ▸ hlt, by omega⟩
    · obtain ⟨hlt, hone, hsum⟩ := hsole b hb
      exact ⟨hlt, by omega⟩

/-- The blocks counted for another sequence are counted for it still. -/
theorem free_unique_blocks (h : s.RefInv n held) (h' : s'.RefInv n held)
    (htable : s'.seq_block_mapping_table = s.seq_block_mapping_table.erase i)
    (hregions : s'.reserved_blocks_table = s.reserved_blocks_table) (hij : j ≠ i) :
    s.get_num_allocated_unique_blocks j ≤ s'.get_num_allocated_unique_blocks j := by
  have hblocks : s'.blocks_of j = s.blocks_of j := by
    have hmap : s'.get_block_map j = s.get_block_map j := by
      rw [get_block_map, get_block_map, htable, Table.lookup_erase_eq, if_neg hij]
    rw [blocks_of, blocks_of, hmap]
  rw [unique_blocks_eq, unique_blocks_eq, hblocks]
  refine List.countP_mono_left fun b hb hone => ?_
  have hrefs := free_refs htable hregions b
  have hpos := List.count_pos_iff.2 hb
  have hlt := (h.mem_blocks_of hb).1
  have hle := (h'.mem_blocks_of (hblocks ▸ hb)).2
  have href := h.ref_cnt hlt
  have href' := h'.ref_cnt hlt
  rw [hblocks] at hle
  rw [of_decide_eq_true hone] at href
  exact decide_eq_true (by omega)

/-- The sequences `ids` were freed: what was counted for them is free, what is counted for others has
not become less. -/
structure Reclaimed (n : Nat) (held ids : List Nat) (m m' : BlockManager) : Prop where
  ref : m'.RefInv n held
  free : m.num_free_blocks + (ids.map m.get_num_allocated_unique_blocks).sum ≤ m'.num_free_blocks
  others : ∀ j, j ∉ ids → m.get_num_allocated_unique_blocks j ≤ m'.get_num_allocated_unique_blocks j

variable {ids ids' : List Nat} {m m' m'' : BlockManager}

theorem Reclaimed.nil (h : m.RefInv n held) : Reclaimed n held [] m m :=
  ⟨h, Nat.le_refl _, fun _ _ => Nat.le_refl _⟩

theorem Reclaimed.append (h : Reclaimed n held ids m m') (h' : Reclaimed n held ids' m' m'')
    (hdisj : ids.Disjoint ids') : Reclaimed n held (ids ++ ids') m m'' where
  ref := h'.ref
  free := by
    have hsum : (ids'.map m.get_num_allocated_unique_blocks).sum ≤
        (ids'.map m'.get_num_allocated_unique_blocks).sum :=
      List.sum_le_sum fun j hj => h.others j fun hmem => hdisj hmem hj
    have h₁ := h.free
    have h₂ := h'.free
    rw [List.map_append, List.sum_append]
    omega
  others := fun j hj => by
    rw [List.mem_append, not_or] at hj
    exact Nat.le_trans (h.others j hj.1) (h'.others j hj.2)

theorem exists_reclaimed (h : m.RefInv n held) (i : Nat) :
    ∃ m', free i m = .ok .unit m' ∧ Reclaimed n held [i] m m' := by
  obtain ⟨m', hrun, h', htable, hregions⟩ := free_erases h i
  refine ⟨m', hrun, h', by simpa using free_reclaims h h' htable hregions, fun j hj => ?_⟩
  exact free_unique_blocks h h' htable hregions (by simpa using hj)

end BlockManager

/-! ### Tasks -/

namespace Scheduler
open BlockManager

variable {n : Nat} {held : List Nat} {σ : Scheduler}

theorem exists_freed_all (h : σ.gpu_block_manager.RefInv n held) {seqs : List Sequence}
    (hnd : (seqs.map (·.seq_id)).Nodup) :
    ∃ σ', forM seqs (fun seq => on_device .Gpu (BlockManager.free seq.seq_id)) σ = .ok .unit σ' ∧
      Reclaimed n held (seqs.map (·.seq_id)) σ.gpu_block_manager σ'.gpu_block_manager := by
  induction seqs generalizing σ with
  | nil => exact ⟨σ, rfl, .nil h⟩
  | cons seq seqs ih =>
    rw [List.map_cons, List.nodup_cons] at hnd
    obtain ⟨m, hfree, hm⟩ := exists_reclaimed h seq.seq_id
    have hfree' : on_device .Gpu (BlockManager.free seq.seq_id) σ =
      .ok .unit (σ.set_block_manager .Gpu m) := zoom_ok.2 ⟨m, hfree, rfl⟩
    obtain ⟨σ', hrun, hσ'⟩ := ih (σ := σ.set_block_manager .Gpu m) hm.ref hnd.2
    refine ⟨σ', ?_, hm.append hσ' (by simpa using hnd.1)⟩
    rw [List.forM_cons, bind_apply, hfree']
    exact hrun

/-- `preempt_infer_task` returns, and gives back at least the estimate. -/
theorem exists_preempted (h : σ.gpu_block_manager.RefInv n held) {t : InferTask}
    (hnd : (t.get_active_seqs.map (·.seq_id)).Nodup) :
    ∃ σ', preempt_infer_task t σ = .ok t.back σ' ∧
      Reclaimed n held (t.get_active_seqs.map (·.seq_id)) σ.gpu_block_manager σ'.gpu_block_manager := by
  obtain ⟨σ', hrun, hσ'⟩ := exists_freed_all h hnd
  exact ⟨σ', bind_ok.2 ⟨.unit, σ, rfl, bind_ok.2 ⟨.unit, σ', hrun, rfl⟩⟩, hσ'⟩

theorem exists_preempted_all (h : σ.gpu_block_manager.RefInv n held) {tasks : List InferTask}
    (hnd : (active_ids tasks).Nodup) :
    ∃ σ', tasks.mapM preempt_infer_task σ = .ok (tasks.map InferTask.back) σ' ∧
      Reclaimed n held (active_ids tasks) σ.gpu_block_manager σ'.gpu_block_manager := by
  induction tasks generalizing σ with
  | nil => exact ⟨σ, rfl, .nil h⟩
  | cons t tasks ih =>
    rw [active_ids, List.flatMap_cons] at hnd
    obtain ⟨ht, htasks, hdisj⟩ := List.nodup_append'.1 hnd
    obtain ⟨σ₁, hrun₁, h₁⟩ := exists_preempted h ht
    obtain ⟨σ₂, hrun₂, h₂⟩ := ih h₁.ref htasks
    refine ⟨σ₂, ?_, h₁.append h₂ hdisj⟩
    rw [List.mapM_cons]
    exact bind_ok.2 ⟨_, σ₁, hrun₁, bind_ok.2 ⟨_, σ₂, hrun₂, rfl⟩⟩

theorem reclaimable_sum (σ : Scheduler) (tasks : List InferTask) :
    (tasks.map (σ.get_reclaimable_blocks · .Gpu)).sum =
      ((active_ids tasks).map σ.gpu_block_manager.get_num_allocated_unique_blocks).sum := by
  induction tasks with
  | nil => rfl
  | cons t tasks ih =>
    rw [active_ids, List.flatMap_cons, List.map_cons, List.sum_cons, List.map_append, List.sum_append, ih,
      List.map_map]
    rfl

/-- Sequences are told apart by their ids, also those of different tasks. -/
theorem active_ids_nodup {tasks l : List InferTask} (hkeys : ((keys l).map Prod.fst).Nodup)
    (hsub : tasks.Subperm l) : (active_ids tasks).Nodup := by
  obtain ⟨k, hperm, hk⟩ := hsub
  have hkl : ((keys k).map Prod.fst).Sublist ((keys l).map Prod.fst) := (hk.flatMap _).map _
  exact (hperm.flatMap_right _).nodup_iff.1 (hkeys.sublist ((active_ids_sublist k).trans hkl))

/-- Preempting the tasks one after the other returns, and the free blocks of the GPU become more by at
least the sum of the estimates. -/
def Reclaims (σ : Scheduler) (tasks : List InferTask) : Prop :=
  ∃ preempted σ', tasks.mapM preempt_infer_task σ = .ok preempted σ' ∧
    σ.gpu_block_manager.num_free_blocks + (tasks.map (σ.get_reclaimable_blocks · .Gpu)).sum ≤
      σ'.gpu_block_manager.num_free_blocks

theorem reclaims_of_ref (h : σ.gpu_block_manager.RefInv n held) {tasks : List InferTask}
    (hnd : (active_ids tasks).Nodup) : σ.Reclaims tasks := by
  obtain ⟨σ', hrun, hσ'⟩ := exists_preempted_all h hnd
  refine ⟨_, σ', hrun, ?_⟩
  rw [reclaimable_sum]
  exact hσ'.free

end Scheduler

namespace System

/-- In every reachable state the estimate is a lower bound for any tasks of the system, each taken once.
So it is wherever the operations of the GPU's manager lead, as in the middle of a scheduling round, for
any tasks without a common sequence. -/
theorem preempt_reclaims [Hasher] {c : SchedulerConfig} :
    (∀ s : System, Reachable c s → ∀ tasks : List InferTask, tasks.Subperm s.tasks →
      s.scheduler.Reclaims tasks) ∧
    ∀ (σ : Scheduler) (ops : List BmOp),
      Run BmOp.Step (BlockManager.new c.block_size c.block_size_pos c.num_gpu_blocks) ops
        σ.gpu_block_manager →
      ∀ tasks : List InferTask, (Scheduler.active_ids tasks).Nodup → σ.Reclaims tasks := by
  refine ⟨fun s hr tasks hsub => ?_, fun σ ops hrun tasks hnd => ?_⟩
  · obtain ⟨tok, hinv⟩ := reachable_gpu hr
    exact Scheduler.reclaims_of_ref (hinv.devices .Gpu rfl).page.ref
      (Scheduler.active_ids_nodup hinv.keys.nodup hsub)
  · exact Scheduler.reclaims_of_ref (BmOp.run_refInv hrun) hnd

/-- Two sequences with a common first block are preempted together: each counts the block it has alone,
and the common one becomes free as well. -/
theorem preempt_reclaims_shared :
    let _ := decimalHasher
    ∃ s, Reachable ⟨4, 64, 16, 2, by decide, 8, 0, 0, false, Scheduler.defaultWatermark⟩ s ∧
      s.scheduler.allocated.length = 2 ∧
      (s.scheduler.allocated.map (s.scheduler.get_reclaimable_blocks · .Gpu)).sum = 2 ∧
      s.scheduler.Reclaims s.scheduler.allocated := by
  intro _
  let ops : List Op := [.add_request ⟨0, [1, 2, 3], 1, none, false, false⟩ 0,
    .add_request ⟨1, [1, 2, 4], 1, none, false, false⟩ 1, .schedule]
  have hfollow : (Run.follow Op.next
      (System.new ⟨4, 64, 16, 2, by decide, 8, 0, 0, false, Scheduler.defaultWatermark⟩) ops).any (fun s =>
      s.scheduler.allocated.length = 2 ∧
        (s.scheduler.allocated.map (s.scheduler.get_reclaimable_blocks · .Gpu)).sum = 2) = true := by
    decide +kernel
  obtain ⟨s, hrun, hs⟩ := Run.exists_of_follow (fun _ _ _ => Op.step_of_next) hfollow
  obtain ⟨hlen, hsum⟩ := of_decide_eq_true hs
  have hsub : s.scheduler.allocated.Subperm s.tasks := by
    refine List.Sublist.subperm ?_
    simp [tasks]
  exact ⟨s, ⟨ops, hrun⟩, hlen, hsum, preempt_reclaims.1 s ⟨ops, hrun⟩ _ hsub⟩

end System

end LMServe
