import LMServe.Reservations
import LMServe.SystemInv
import LMServe.Watching

/-!
# What the sections do to regions and pending tasks

The reserved regions of the three devices and the tasks that wait for a trigger are what a request
holds outside the queues. Scheduling, the results of a batch and removing a task leave both alone; a
reservation adds one region, under the id drawn for it; a trigger, a commit or an unpinning takes
one region away. Each statement covers both endings of its section.
-/

namespace LMServe
open Hoare

namespace BlockManager

section
variable [Hasher]

theorem reserve_blocks_regions (r : Nat) (T : List Nat) (start : Nat) (m : BlockManager) :
    Ends (reserve_blocks r T start) m
      (fun region m' => match region with
        | some region => region.id = r ∧
            m'.reserved_blocks_table = m.reserved_blocks_table.insert r region.block_ids
        | none => m'.reserved_blocks_table = m.reserved_blocks_table)
      (fun _ m' => m'.reserved_blocks_table = m.reserved_blocks_table) := by
  refine Ends.get_bind (Ends.bind ((reserve_loop_regions _ _).ends m) fun pairs m' h => ?_)
  refine Ends.ite (fun _ => Ends.pure h) fun _ => Ends.modify_bind (Ends.pure ⟨rfl, ?_⟩)
  show (AList.insert _ _ m'.reserved_blocks_table) = _
  rw [h]

omit [Hasher] in
theorem pin_blocks_by_hashes_regions (r : Nat) (hash_values : List Nat) (m : BlockManager) :
    Ends (pin_blocks_by_hashes r hash_values) m
      (fun region m' => region.id = r ∧
        m'.reserved_blocks_table = m.reserved_blocks_table.insert r region.block_ids)
      (fun _ m' => m'.reserved_blocks_table = m.reserved_blocks_table) := by
  refine Ends.bind ((pin_loop_regions hash_values).ends m) fun pairs m' h => ?_
  refine Ends.modify_bind (Ends.pure ⟨rfl, ?_⟩)
  show (AList.insert _ _ m'.reserved_blocks_table) = _
  rw [h]

omit [Hasher] in
theorem activate_reserved_blocks_regions (r : Nat) (hash_values : List Nat) (m : BlockManager) :
    Ends (activate_reserved_blocks r hash_values) m
      (fun _ m' => m'.reserved_blocks_table = m.reserved_blocks_table.erase r)
      (fun _ m' => m'.reserved_blocks_table = m.reserved_blocks_table.erase r) := by
  refine Ends.get_bind ?_
  cases hr : m.reserved_blocks_table.lookup r with
  | none => exact Ends.pure (Table.erase_of_none hr).symm
  | some ids =>
    refine Ends.modify_bind (Ends.bind ((activate_all_regions hash_values ids).ends _) fun _ _ h => ?_)
    exact Ends.pure h

omit [Hasher] in
theorem unpin_blocks_regions (r : Nat) (m : BlockManager) :
    Ends (unpin_blocks r) m
      (fun _ m' => m'.reserved_blocks_table = m.reserved_blocks_table.erase r)
      (fun _ m' => m'.reserved_blocks_table = m.reserved_blocks_table.erase r) := by
  refine Ends.get_bind ?_
  cases hr : m.reserved_blocks_table.lookup r with
  | none => exact Ends.pure (Table.erase_of_none hr).symm
  | some ids =>
    have hfree : Keeps reserved_blocks_table
        (forM ids fun b => on_allocator (BlockAllocator.free_block b)) :=
      Keeps.forM (fun _ => on_allocator_keeps (fun _ _ => rfl) _) ids
    exact Ends.modify_bind (Ends.bind (hfree.ends _) fun _ _ h => Ends.pure h)

end

end BlockManager

namespace Scheduler

/-- The regions of a device. -/
def regions (s : Scheduler) (d : Device) : Table (List Nat) :=
  (s.get_block_manager d).reserved_blocks_table

/-- What is held outside the queues. -/
def holdings (s : Scheduler) : Table InferTask × (Device → Table (List Nat)) := (s.pending, s.regions)

theorem holdings_eq {s s' : Scheduler} (h : s'.holdings = s.holdings) :
    s'.pending = s.pending ∧ s'.regions = s.regions := Prod.mk.inj h

theorem regions_set_block_manager (s : Scheduler) (d : Device) (m : BlockManager) :
    (s.set_block_manager d m).regions = Function.update s.regions d m.reserved_blocks_table := by
  funext d'
  unfold regions Function.update
  rw [get_set_block_manager]
  split <;> simp [*]

theorem pending_set_block_manager (s : Scheduler) (d : Device) (m : BlockManager) :
    (s.set_block_manager d m).pending = s.pending := by cases d <;> rfl

theorem on_device_holdings {α : Type} (d : Device) {x : BM α}
    (h : Keeps BlockManager.reserved_blocks_table x) : Keeps holdings (on_device d x) := by
  have hset : ∀ (s : Scheduler) (m : BlockManager),
      m.reserved_blocks_table = (s.get_block_manager d).reserved_blocks_table →
      (s.set_block_manager d m).holdings = s.holdings := fun s m hm =>
    Prod.ext (pending_set_block_manager s d m) <| (regions_set_block_manager s d m).trans <| by
      rw [hm]; exact Function.update_eq_self d s.regions
  intro s
  have := h (s.get_block_manager d)
  unfold on_device zoom
  cases hx : x (s.get_block_manager d) with
  | ok a m => rw [hx] at this; exact hset s m this
  | error e m => rw [hx] at this; exact hset s m this

section
variable [Hasher]

/-! ### Sections that leave both alone -/

omit [Hasher] in
theorem discard_regions {α : Type} {x : BM α} (h : Keeps BlockManager.reserved_blocks_table x) :
    Keeps BlockManager.reserved_blocks_table (do let _ ← x) := h.bind fun _ => Keeps.pure _

theorem init_prefix_cache_blocks_holdings (t : InferTask) (devices : List Device) :
    Keeps holdings (init_prefix_cache_blocks t devices) :=
  Keeps.forM (fun _ => Keeps.forM (fun d => on_device_holdings d
    (discard_regions (BlockManager.init_prefix_cache_blocks_regions _))) _) _

theorem try_extend_infer_task_holdings [Watch] (t : InferTask) (w : Watermark) (d : Device) :
    Keeps holdings (try_extend_infer_task t w d) := by
  refine (on_device_holdings d ?_).bind fun _ => (watch_keeps _ _).bind fun _ => Keeps.pure _
  induction t.get_active_seqs with
  | nil => exact Keeps.pure _
  | cons seq l ih =>
    refine (BlockManager.can_alloc_seq_keeps _ seq _).bind fun ok => Keeps.ite ?_ (Keeps.pure _)
    exact (BlockManager.alloc_blocks_regions seq).bind fun _ => ih.bind fun _ => Keeps.pure _

theorem can_alloc_infer_task_holdings (t : InferTask) (k : Nat) (w : Watermark) (d : Device) :
    Keeps holdings (can_alloc_infer_task t k w d) := by
  refine (on_device_holdings d ?_).bind fun _ => Keeps.pure _
  induction t.get_active_seqs with
  | nil => exact Keeps.pure _
  | cons seq l ih =>
    refine (BlockManager.get_num_required_blocks_keeps _ seq).bind fun _ => Keeps.get.bind fun _ => Keeps.ite ?_ (Keeps.pure _)
    exact ih.bind fun _ => Keeps.pure _

omit [Hasher] in
theorem preempt_infer_task_holdings [Watch] (t : InferTask) : Keeps holdings (preempt_infer_task t) :=
  (watch_keeps _ _).bind fun _ =>
    (Keeps.forM (fun _ => on_device_holdings _ (BlockManager.free_regions _)) _).bind fun _ => Keeps.pure _

omit [Hasher] in
theorem plan_copy_holdings (seq : Sequence) (d d' : Device) (p : Bool) (l : List BlockMapping) :
    Keeps holdings (plan_copy seq d d' p l) := by
  refine Keeps.get.bind fun s => ?_
  split
  · exact (on_device_holdings _ (BlockManager.update_filled_len_regions _ _)).bind fun _ => Keeps.pure _
  · exact Keeps.pure _

omit [Hasher] in
theorem dispatch_holdings : Keeps holdings dispatch := by
  have hinput : ∀ seq acc, Keeps holdings (dispatch_input seq acc) := by
    intro seq acc
    refine Keeps.get.bind fun s => Keeps.ite ?_ (Keeps.pure _)
    split
    · exact Keeps.pure _
    · refine (on_device_holdings _ (BlockManager.update_filled_len_regions _ _)).bind fun _ => ?_
      exact (plan_copy_holdings _ _ _ _ _).bind fun _ => Keeps.pure _
  have hloop : ∀ seqs acc, Keeps holdings (dispatch_loop seqs acc) := by
    intro seqs
    induction seqs with
    | nil => exact fun _ => Keeps.pure _
    | cons seq seqs ih =>
      intro acc
      refine Keeps.get.bind fun s => Keeps.ite (Keeps.pure _) ?_
      exact (plan_copy_holdings _ _ _ _ _).bind fun _ => (hinput _ _).bind fun _ => ih _
  exact Keeps.get.bind fun _ => hloop _ _

section
variable [Watch]

theorem try_alloc_infer_task_holdings (t : InferTask) (w : Watermark) (d : Device) :
    Keeps holdings (try_alloc_infer_task t w d) := by
  refine (on_device_holdings d ?_).bind fun _ => (watch_keeps _ _).bind fun _ => Keeps.pure _
  induction t.seqs with
  | nil => exact Keeps.pure _
  | cons seq l ih =>
    refine Keeps.ite ?_ (ih.bind fun _ => Keeps.pure _)
    refine (BlockManager.get_num_required_blocks_keeps _ seq).bind fun _ => Keeps.get.bind fun _ => Keeps.ite ?_ (Keeps.pure _)
    refine Keeps.get.bind fun _ => (watch_keeps _ _).bind fun _ => ?_
    refine (BlockManager.init_prefix_cache_blocks_regions seq).bind fun _ => ?_
    exact (BlockManager.alloc_blocks_regions seq).bind fun _ => ih.bind fun _ => Keeps.pure _

theorem schedule_holdings : Keeps holdings schedule := by
  have hphases : KeptByPasses holdings :=
    { queues := fun _ _ _ => rfl
      try_alloc := fun t w => try_alloc_infer_task_holdings t w .Gpu
      try_extend := try_extend_infer_task_holdings
      can_alloc := fun t k w => can_alloc_infer_task_holdings t k w .Gpu
      preempt := preempt_infer_task_holdings }
  rw [schedule_eq]
  refine hphases.phases.bind fun _ => dispatch_holdings.bind fun _ => ?_
  exact Keeps.bind (Keeps.modify fun _ => rfl) fun _ => Keeps.pure _

end

omit [Hasher] in
theorem update_holdings (infer_outputs : Table InferOutput) (now : Nat) :
    Keeps holdings (update infer_outputs now) :=
  Keeps.get.bind fun _ => Keeps.bind (Keeps.modify fun _ => rfl) fun _ => Keeps.pure _

omit [Hasher] in
theorem remove_task_holdings (t : InferTask) : Keeps holdings (remove_task t) :=
  Keeps.forM (fun _ => Keeps.forM (fun d => on_device_holdings d
    (Keeps.ite (BlockManager.free_and_drop_cache_regions _) (BlockManager.free_regions _))) _) _

omit [Hasher] in
theorem clear_cache_holdings : Keeps holdings clear_cache :=
  Keeps.forM (fun d => on_device_holdings d (x := BlockManager.clear_cache) (Keeps.modify fun _ => rfl)) _

/-! ### Sections that change them -/

/-- One region more. -/
structure Reserves (d : Device) (r : Nat) (s s' : Scheduler) : Prop where
  pending : s'.pending = s.pending
  regions : ∃ ids, s'.regions = Function.update s.regions d ((s.regions d).insert r ids)

/-- What a function that plans a region does: nothing when it returns none. -/
def Plans (d : Device) (r : Nat) (s : Scheduler) (region : Option DeviceBlockRegion) (s' : Scheduler) :
    Prop :=
  match region with
  | some region => region.device = d ∧ region.block_region.id = r ∧ Reserves d r s s'
  | none => s'.holdings = s.holdings

/-- No region more. -/
def Shrinks (s s' : Scheduler) : Prop :=
  ∀ d r, (s.regions d).lookup r = none → (s'.regions d).lookup r = none

omit [Hasher] in
theorem Shrinks.of_eq {s s' : Scheduler} (h : s'.regions = s.regions) : Shrinks s s' := fun d r hr => by
  rw [h]; exact hr

omit [Hasher] in
theorem Plans.trans {d : Device} {r : Nat} {s s₁ s' : Scheduler} {region : Option DeviceBlockRegion}
    (h : s₁.holdings = s.holdings) (h' : Plans d r s₁ region s') : Plans d r s region s' := by
  cases region with
  | none => exact Eq.trans h' h
  | some region =>
    obtain ⟨hd, hid, hres⟩ := h'
    obtain ⟨hp, hr⟩ := holdings_eq h
    exact ⟨hd, hid, hres.pending.trans hp, hr ▸ hres.regions⟩

theorem reserve_on_device (d : Device) (r : Nat) (T : List Nat) (start : Nat) (s : Scheduler) :
    Ends (on_device d (BlockManager.reserve_blocks r T start)) s
      (fun region s' => Plans d r s (region.map fun x => ⟨d, x⟩) s')
      (fun _ s' => s'.holdings = s.holdings) := by
  have hkeep : ∀ m : BlockManager, m.reserved_blocks_table = s.regions d →
      (s.set_block_manager d m).holdings = s.holdings := fun m hm =>
    Prod.ext (pending_set_block_manager s d m) <| (regions_set_block_manager s d m).trans <| by
      rw [hm]; exact Function.update_eq_self d s.regions
  refine Ends.zoom ((BlockManager.reserve_blocks_regions r T start _).conseq ?_ fun _ m h => hkeep m h)
  rintro (_ | region) m h
  · exact hkeep m h
  · refine ⟨rfl, h.1, pending_set_block_manager s d m, region.block_ids, ?_⟩
    rw [regions_set_block_manager, h.2]; rfl

theorem reserve_copy_blocks_holdings (r : Nat) (seq : Sequence) (d d' : Device) (s : Scheduler) :
    Ends (reserve_copy_blocks r seq d d') s (fun plan s' => Plans d' r s (plan.map (·.1)) s')
      (fun _ s' => s'.holdings = s.holdings) := by
  refine Ends.get_bind (Ends.ite (fun _ => Ends.pure rfl) fun _ => ?_)
  split
  · exact Ends.pure rfl
  · refine Ends.ite (fun _ => ?_) fun _ => Ends.pure rfl
    refine Ends.bind (reserve_on_device d' r _ _ s) fun region s' h => Ends.pure ?_
    rw [Option.map_map]; exact h

theorem plan_stage_holdings (r : Nat) (t : InferTask) (s : Scheduler) :
    Ends (plan_stage r t) s (fun plan s' => Plans .Host r s (plan.map (·.1)) s')
      (fun _ s' => s'.holdings = s.holdings) := by
  refine Ends.bind ((init_prefix_cache_blocks_holdings t _).ends s) fun _ s₁ h => Ends.get_bind ?_
  split
  · exact Ends.throw h
  · refine Ends.ite (fun _ => Ends.pure h) fun _ => ?_
    exact (reserve_copy_blocks_holdings r _ _ _ s₁).conseq (fun _ _ hp => hp.trans h) fun _ _ he => he.trans h

theorem backup_holdings (r : Nat) (t : InferTask) (s : Scheduler) :
    Ends (backup r t) s (fun plan s' => Plans .Disk r s (plan.map (·.1)) s')
      (fun _ s' => s'.holdings = s.holdings) := by
  unfold backup
  split
  · exact Ends.throw rfl
  · exact reserve_copy_blocks_holdings r _ _ _ s

theorem reserve_blocks_holdings (r : Nat) (t : InferTask) (d : Device) (s : Scheduler) :
    Ends (reserve_blocks r t d) s (fun region s' => Plans d r s region s')
      (fun _ s' => s'.holdings = s.holdings) := by
  unfold reserve_blocks
  split
  · exact Ends.throw rfl
  · exact Ends.get_bind (Ends.bind (reserve_on_device d r _ _ s) fun region s' h => Ends.pure h)

omit [Hasher] in
theorem pin_blocks_holdings (r : Nat) (hash_values : List Nat) (d : Device) (s : Scheduler) :
    Ends (pin_blocks r hash_values d) s (fun region s' => Plans d r s (some region) s')
      (fun _ s' => s'.holdings = s.holdings) := by
  refine Ends.bind (R := fun region s' => Plans d r s (some ⟨d, region⟩) s') (Ends.zoom ?_)
    fun region s' h => Ends.pure h
  refine (BlockManager.pin_blocks_by_hashes_regions r hash_values _).conseq (fun region m h => ?_)
    fun _ m h => ?_
  · refine ⟨rfl, h.1, pending_set_block_manager s d m, region.block_ids, ?_⟩
    rw [regions_set_block_manager, h.2]; rfl
  · refine Prod.ext (pending_set_block_manager s d m) ((regions_set_block_manager s d m).trans ?_)
    rw [h]; exact Function.update_eq_self d s.regions

/-- One region less. -/
structure Releases (d : Device) (r : Nat) (s s' : Scheduler) : Prop where
  pending : s'.pending = s.pending
  regions : s'.regions = Function.update s.regions d ((s.regions d).erase r)

omit [Hasher] in
theorem Releases.shrinks {d : Device} {r : Nat} {s s' : Scheduler} (h : Releases d r s s') :
    Shrinks s s' := by
  intro d' r' hr'
  rw [h.regions, Function.update_apply]
  split
  · rename_i hd
    rw [Table.lookup_erase_eq]
    split
    · rfl
    · exact hd ▸ hr'
  · exact hr'

omit [Hasher] in
theorem Releases.lookup {d : Device} {r : Nat} {s s' : Scheduler} (h : Releases d r s s') :
    (s'.regions d).lookup r = none := by
  rw [h.regions, Function.update_self, Table.lookup_erase_eq, if_pos rfl]

omit [Hasher] in
theorem release_on_device {α : Type} {x : BM α} (d : Device) (r : Nat) {s : Scheduler}
    (h : Ends x (s.get_block_manager d)
      (fun _ m' => m'.reserved_blocks_table = (s.get_block_manager d).reserved_blocks_table.erase r)
      (fun _ m' => m'.reserved_blocks_table = (s.get_block_manager d).reserved_blocks_table.erase r)) :
    Ends (on_device d x) s (fun _ => Releases d r s) (fun _ => Releases d r s) := by
  have hset : ∀ m : BlockManager,
      m.reserved_blocks_table = (s.get_block_manager d).reserved_blocks_table.erase r →
      Releases d r s (s.set_block_manager d m) := fun m hm =>
    ⟨pending_set_block_manager s d m, by rw [regions_set_block_manager, hm]; rfl⟩
  exact Ends.zoom (h.conseq (fun _ m hm => hset m hm) fun _ m hm => hset m hm)

omit [Hasher] in
theorem commit_reserved_blocks_holdings (region : DeviceBlockRegion) (s : Scheduler) :
    Ends (commit_reserved_blocks region) s
      (fun _ => Releases region.device region.block_region.id s)
      (fun _ => Releases region.device region.block_region.id s) :=
  release_on_device _ _ (BlockManager.activate_reserved_blocks_regions _ _ _)

omit [Hasher] in
theorem unpin_blocks_holdings (region : DeviceBlockRegion) (s : Scheduler) :
    Ends (unpin_blocks region) s
      (fun _ => Releases region.device region.block_region.id s)
      (fun _ => Releases region.device region.block_region.id s) :=
  release_on_device _ _
    (Ends.bind (BlockManager.unpin_blocks_regions _ _) fun _ _ h => Ends.pure h)

/-- A trigger takes the pending task out, if there is one, and its region. -/
theorem trigger_pend_task_holdings (session_id : Nat) (region_id : Option Nat) (hash_values : List Nat)
    (s : Scheduler) :
    Ends (trigger_pend_task session_id region_id hash_values) s
      (fun _ s' => s'.pending = s.pending.erase session_id ∧ Shrinks s s' ∧
        ∀ r ∈ region_id, (s'.regions .Host).lookup r = none)
      (fun _ s' => s'.pending = s.pending.erase session_id ∧ Shrinks s s') := by
  refine Ends.get_bind ?_
  cases hlook : s.pending.lookup session_id with
  | none => exact Ends.throw ⟨(Table.erase_of_none hlook).symm, .of_eq rfl⟩
  | some t =>
    refine Ends.modify_bind ?_
    obtain ⟨s₁, hs₁⟩ : ∃ s₁ : Scheduler, s₁ = { s with pending := s.pending.erase session_id } := ⟨_, rfl⟩
    have hregions : s₁.regions = s.regions := by rw [hs₁]; rfl
    rw [← hs₁]
    -- the region first
    refine Ends.bind (R := fun _ s' => s'.pending = s.pending.erase session_id ∧ Shrinks s s' ∧
      ∀ r ∈ region_id, (s'.regions .Host).lookup r = none) ?_ fun _ s₂ h₂ => ?_
    · unfold activate_region
      split
      · rename_i r
        refine (release_on_device .Host r (Ends.bind
          (BlockManager.activate_reserved_blocks_regions _ _ _) fun _ _ h => Ends.pure h)).conseq
          (fun _ s' h => ?_) fun _ s' h => ?_
        · refine ⟨h.pending.trans (by rw [hs₁]), ?_, fun r' hr' => ?_⟩
          · intro d r' hr'; exact h.shrinks d r' (by rw [hregions]; exact hr')
          · obtain rfl : r = r' := by simpa using hr'
            exact h.lookup
        · exact ⟨h.pending.trans (by rw [hs₁]), fun d r' hr' => h.shrinks d r' (by rw [hregions]; exact hr')⟩
      · exact Ends.pure ⟨by rw [hs₁], .of_eq hregions, by simp⟩
    · cases t.get_head_seq with
      | none => exact Ends.throw ⟨h₂.1, h₂.2.1⟩
      | some head_seq =>
        have hkeep := on_device_holdings .Host
          (discard_regions (BlockManager.update_prefix_cache_blocks_regions head_seq))
        have hto : ∀ s' : Scheduler, s'.holdings = s₂.holdings → s'.pending = s.pending.erase session_id ∧
            Shrinks s s' ∧ ∀ r ∈ region_id, (s'.regions .Host).lookup r = none := fun s' h => by
          obtain ⟨hp, hr⟩ := holdings_eq h
          exact ⟨hp.trans h₂.1, fun d r hd => by rw [hr]; exact h₂.2.1 d r hd,
            fun r hd => by rw [hr]; exact h₂.2.2 r hd⟩
        refine Ends.bind ((hkeep.ends s₂).conseq (fun _ s' h => hto s' h) fun _ s' h => ?_)
          fun _ s' h => h
        exact ⟨(hto s' h).1, (hto s' h).2.1⟩

end

end Scheduler

namespace System

/-! ### The counters and the calls in progress -/

/-- `k` sequence ids and `n` region ids drawn, and the scheduler replaced. -/
def after (s : System) (k n : Nat) (σ : Scheduler) : System :=
  { s with
    next_seq_id := s.next_seq_id + k
    next_region_id := s.next_region_id + n
    scheduler := σ }

section
variable {Q : System → Prop} {k n : Nat} {s : System} {σ : Scheduler}

theorem on_scheduler_ends {α : Type} {x : SM α} {Q : α → System → Prop} {F : Panic → System → Prop}
    (h : Ends x σ (fun a σ' => Q a (s.after k n σ')) (fun e σ' => F e (s.after k n σ'))) :
    Ends (on_scheduler x) (s.after k n σ) Q F :=
  Ends.zoom h

theorem create_task_ends {request : GenerateRequest} {arrival_time : Nat} {Q : InferTask → System → Prop}
    {F : Panic → System → Prop}
    (h : Q (request.to_task s.next_seq_id arrival_time) (s.after request.num_samples 0 s.scheduler)) :
    Ends (create_task request arrival_time) s Q F := h

theorem generate_id_ends {Q : Nat → System → Prop} {F : Panic → System → Prop}
    (h : Q s.next_region_id (s.after k 1 σ)) : Ends generate_id (s.after k 0 σ) Q F := h

end

theorem pend_ends (t : InferTask) (s : Scheduler) :
    Ends (Scheduler.pend t) s
      (fun _ s' => s.pending.lookup t.session_id = none ∧
        s' = { s with pending := s.pending.insert t.session_id t })
      (fun e s' => e = .duplicatePending ∧ (s.pending.lookup t.session_id).isSome ∧
        s' = { s with pending := s.pending.insert t.session_id t }) := by
  refine Ends.get_bind (Ends.modify_bind ?_)
  split
  · rename_i u hu; exact Ends.throw ⟨rfl, by simp [hu], rfl⟩
  · rename_i hu; exact Ends.pure ⟨hu, rfl⟩

/-- The region `r` is new on the host, and the task is pending. -/
structure Stages (task : InferTask) (r : Nat) (σ σ' : Scheduler) : Prop where
  pending : σ'.pending = σ.pending.insert task.session_id task
  regions : ∃ ids, σ'.regions = Function.update σ.regions .Host ((σ.regions .Host).insert r ids)

section
variable [Hasher]

/-- `add_request` stages its task under a new region, or leaves regions and pending tasks alone; a
session that is pending already is reported after the fact. -/
theorem add_request_holdings (request : GenerateRequest) (arrival_time : Nat) (s : System) :
    Ends (add_request request arrival_time) s
      (fun plan s' => ∃ n σ, s' = s.after request.num_samples n σ ∧ match plan with
        | some (region, _) => s.scheduler.pending.lookup request.session_id = none ∧ n = 1 ∧
            region.block_region.id = s.next_region_id ∧
            Stages (request.to_task s.next_seq_id arrival_time) s.next_region_id s.scheduler σ
        | none => σ.holdings = s.scheduler.holdings)
      (fun e s' => ∃ n σ, s' = s.after request.num_samples n σ ∧
        ((e = .duplicatePending ∧ (s.scheduler.pending.lookup request.session_id).isSome ∧ n = 1 ∧
          Stages (request.to_task s.next_seq_id arrival_time) s.next_region_id s.scheduler σ) ∨
          σ.holdings = s.scheduler.holdings)) := by
  refine Ends.bind (create_task_ends (Q := fun task s' =>
    task = request.to_task s.next_seq_id arrival_time ∧
      s' = s.after request.num_samples 0 s.scheduler) ⟨rfl, rfl⟩) ?_
  rintro _ _ ⟨rfl, rfl⟩
  obtain ⟨task, htask⟩ : ∃ task, task = request.to_task s.next_seq_id arrival_time := ⟨_, rfl⟩
  rw [← htask]
  refine Ends.bind (R := fun _ s' => ∃ σ, σ.holdings = s.scheduler.holdings ∧
      s' = s.after request.num_samples 0 σ)
    (on_scheduler_ends (((Scheduler.init_prefix_cache_blocks_holdings task _).ends _).conseq
      (fun _ σ h => ⟨σ, h, rfl⟩) fun _ σ h => ⟨0, σ, rfl, .inr h⟩)) ?_
  rintro _ _ ⟨σ, hσ, rfl⟩
  refine Ends.bind (generate_id_ends (Q := fun id s' => id = s.next_region_id ∧
    s' = s.after request.num_samples 1 σ) ⟨rfl, rfl⟩) ?_
  rintro _ _ ⟨rfl, rfl⟩
  refine Ends.bind (R := fun plan s' => ∃ σ',
      Scheduler.Plans .Host s.next_region_id s.scheduler (plan.map (·.1)) σ' ∧
      s' = s.after request.num_samples 1 σ')
    (on_scheduler_ends ((Scheduler.plan_stage_holdings s.next_region_id task _).conseq
      (fun _ σ' h => ⟨σ', h.trans hσ, rfl⟩) fun _ σ' h => ⟨1, σ', rfl, .inr (h.trans hσ)⟩)) ?_
  rintro plan _ ⟨σ', hplan, rfl⟩
  cases plan with
  | none =>
    refine Ends.bind (R := fun _ s' => ∃ σ, σ.holdings = s.scheduler.holdings ∧
      s' = s.after request.num_samples 1 σ) (on_scheduler_ends ?_) ?_
    · exact Ends.modify ⟨{ σ' with waiting := σ'.waiting ++ [task] }, hplan, rfl⟩
    · rintro _ _ ⟨σ, h, rfl⟩; exact Ends.pure ⟨1, σ, rfl, h⟩
  | some plan =>
    obtain ⟨region, mapping⟩ := plan
    obtain ⟨-, hid, hres⟩ := hplan
    have hstages : Stages task s.next_region_id s.scheduler
        { σ' with pending := σ'.pending.insert task.session_id task } :=
      ⟨by rw [hres.pending], hres.regions⟩
    have hpend := pend_ends task σ'
    rw [hres.pending, show task.session_id = request.session_id by rw [htask]; rfl] at hpend hstages
    refine Ends.bind (R := fun _ s' => s.scheduler.pending.lookup request.session_id = none ∧
        ∃ σ, s' = s.after request.num_samples 1 σ ∧ Stages task s.next_region_id s.scheduler σ)
      (on_scheduler_ends (hpend.conseq ?_ ?_)) ?_
    · rintro _ _ ⟨hnone, rfl⟩; exact ⟨hnone, _, rfl, hstages⟩
    · rintro _ _ ⟨he, hsome, rfl⟩; exact ⟨1, _, rfl, .inl ⟨he, hsome, rfl, hstages⟩⟩
    · rintro _ _ ⟨hnone, σ, rfl, h⟩; exact Ends.pure ⟨1, σ, rfl, hnone, rfl, hid, h⟩

theorem reserve_request_holdings (request : GenerateRequest) (arrival_time : Nat) (s : System) :
    Ends (reserve_request request arrival_time) s
      (fun region s' => ∃ σ, Scheduler.Plans .Host s.next_region_id s.scheduler region σ ∧
        s' = { s.after request.num_samples 1 σ with
          reserving := s.reserving ++ [request.to_task s.next_seq_id arrival_time] })
      (fun _ s' => ∃ n σ, s' = s.after request.num_samples n σ ∧
        σ.holdings = s.scheduler.holdings) := by
  refine Ends.bind (create_task_ends (Q := fun task s' =>
    task = request.to_task s.next_seq_id arrival_time ∧
      s' = s.after request.num_samples 0 s.scheduler) ⟨rfl, rfl⟩) ?_
  rintro _ _ ⟨rfl, rfl⟩
  refine Ends.bind (generate_id_ends (Q := fun id s' => id = s.next_region_id ∧
    s' = s.after request.num_samples 1 s.scheduler) ⟨rfl, rfl⟩) ?_
  rintro _ _ ⟨rfl, rfl⟩
  refine Ends.bind (R := fun region s' => ∃ σ,
      Scheduler.Plans .Host s.next_region_id s.scheduler region σ ∧ s' = s.after request.num_samples 1 σ)
    (on_scheduler_ends ((Scheduler.reserve_blocks_holdings s.next_region_id _ _ _).conseq
      (fun _ σ h => ⟨σ, h, rfl⟩) fun _ σ h => ⟨1, σ, rfl, h⟩)) ?_
  rintro region _ ⟨σ, h, rfl⟩
  exact Ends.modify_bind (Ends.pure ⟨σ, h, rfl⟩)

omit [Hasher] in
/-- The second half: the task is pending afterwards, even if its session was pending before. -/
theorem pend_reserved_holdings {i : Nat} {s : System} {task : InferTask} (hi : s.reserving[i]? = some task) :
    Ends (pend_reserved i) s
      (fun _ s' => s.scheduler.pending.lookup task.session_id = none ∧
        s' = { s with
          reserving := s.reserving.eraseIdx i
          scheduler := { s.scheduler with
            pending := s.scheduler.pending.insert task.session_id task } })
      (fun _ s' => (s.scheduler.pending.lookup task.session_id).isSome ∧
        s' = { s with
          reserving := s.reserving.eraseIdx i
          scheduler := { s.scheduler with
            pending := s.scheduler.pending.insert task.session_id task } }) := by
  refine Ends.get_bind ?_
  rw [hi]
  refine Ends.modify_bind (Ends.zoom ((pend_ends task s.scheduler).conseq ?_ ?_))
  · rintro _ _ ⟨hnone, rfl⟩; exact ⟨hnone, rfl⟩
  · rintro _ _ ⟨-, hsome, rfl⟩; exact ⟨hsome, rfl⟩

omit [Hasher] in
theorem pin_blocks_holdings (hash_values : List Nat) (s : System) :
    Ends (pin_blocks hash_values) s
      (fun region s' => ∃ σ, Scheduler.Plans .Host s.next_region_id s.scheduler (some region) σ ∧
        s' = s.after 0 1 σ)
      (fun _ s' => ∃ σ, s' = s.after 0 1 σ ∧ σ.holdings = s.scheduler.holdings) := by
  refine Ends.bind (generate_id_ends (k := 0) (σ := s.scheduler) (Q := fun id s' =>
    id = s.next_region_id ∧ s' = s.after 0 1 s.scheduler) ⟨rfl, rfl⟩) ?_
  rintro _ _ ⟨rfl, rfl⟩
  exact on_scheduler_ends ((Scheduler.pin_blocks_holdings _ _ _ _).conseq (fun _ σ h => ⟨σ, h, rfl⟩)
    fun _ σ h => ⟨σ, rfl, h⟩)

theorem backup_holdings (i : Nat) (s : System) :
    Ends (backup i) s
      (fun plan s' => ∃ n σ, s' = s.after 0 n σ ∧
        Scheduler.Plans .Disk s.next_region_id s.scheduler (plan.map (·.1)) σ ∧ (plan.isSome → n = 1))
      (fun _ s' => ∃ n σ, s' = s.after 0 n σ ∧ σ.holdings = s.scheduler.holdings) := by
  refine Ends.get_bind ?_
  split
  · exact Ends.pure ⟨0, s.scheduler, rfl, rfl, by simp⟩
  · rename_i task _
    refine Ends.bind (generate_id_ends (k := 0) (σ := s.scheduler) (Q := fun id s' =>
      id = s.next_region_id ∧ s' = s.after 0 1 s.scheduler) ⟨rfl, rfl⟩) ?_
    rintro _ _ ⟨rfl, rfl⟩
    exact on_scheduler_ends ((Scheduler.backup_holdings _ task _).conseq
      (fun _ σ h => ⟨1, σ, rfl, h, fun _ => rfl⟩) fun _ σ h => ⟨1, σ, rfl, h⟩)

end

/-- Everything that regions and pending tasks are about. -/
def custody (s : System) :=
  (s.scheduler.holdings, s.next_seq_id, s.next_region_id, s.reserving)

theorem on_scheduler_custody {α : Type} {x : SM α} (h : Keeps Scheduler.holdings x) :
    Keeps custody (on_scheduler x) :=
  h.inside fun _ _ hσ => Prod.ext hσ rfl

theorem update_custody (infer_outputs : Table InferOutput) (now : Nat) :
    Keeps custody (update infer_outputs now) :=
  (on_scheduler_custody (Scheduler.update_holdings _ _)).bind fun _ =>
    Keeps.bind (Keeps.modify fun _ => rfl) fun _ => Keeps.pure _

theorem remove_task_custody (i : Nat) : Keeps custody (remove_task i) := by
  refine Keeps.get.bind fun s => ?_
  split
  · exact Keeps.pure _
  · exact (on_scheduler_custody (Scheduler.remove_task_holdings _)).bind fun _ => Keeps.modify fun _ => rfl

end System

end LMServe
