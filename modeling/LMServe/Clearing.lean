import LMServe.ClearCache
import LMServe.FreeList
import LMServe.LifecycleRun

/-!
# What comes back after `clear_cache`

`clear_cache` empties the hash tables once it has found the task queues empty and its sync entry has
run. A task that is finished and not yet removed is in no queue, and its backup is still to be planned;
neither is the task of a `reserve_request` call between its two sections. These two kinds of work are
all that can publish a block again without a new request (`Settled`).
-/

namespace LMServe
open Hoare

namespace BlockManager

/-- No block is published. -/
def Bare (m : BlockManager) : Prop := ∀ h, m.hash_block_table.lookup h = none

/-- What a copy plan depends on, the content of the blocks aside. -/
def outline (m : BlockManager) : Nat × (Nat → Option BlockMap) := (m.block_size, m.get_block_map)

section
variable {m m' : BlockManager}

theorem Bare.lookup (h : m.Bare) (k : Nat) : m.lookup_block_id k = none := by
  rw [lookup_block_id, h k]

theorem bare_of_keeps {α : Type} {x : BM α} (h : Keeps hash_block_table x) : Preserves Bare x :=
  h.preserves fun _ _ heq hbare k => by rw [heq]; exact hbare k

theorem Bare.erase (h : m.Bare) (k : Nat) : ∀ k', (m.hash_block_table.erase k).lookup k' = none := fun k' => by
  rw [Table.lookup_erase_eq, h k', ite_self]

theorem on_allocator_bare {α : Type} (x : EStateM Panic BlockAllocator α) : Preserves Bare (on_allocator x) :=
  bare_of_keeps (on_allocator_keeps (fun _ _ => rfl) x)

theorem drop_cache_bare (b : Nat) : Preserves Bare (drop_cache b) := by
  refine Lowers.bind (Lowers.get.bind fun s => ?_) fun block =>
    Lowers.ite (Preserves.modify fun m h => h.erase _) (Lowers.pure _)
  split
  · exact Lowers.pure _
  · exact Lowers.throw _

theorem free_bare (i : Nat) : Preserves Bare (free i) := by
  have hloop : ∀ (filled : Nat) (ids : List Nat) (cnt : Nat), Preserves Bare (free_loop filled cnt ids) := by
    intro filled ids
    induction ids with
    | nil => exact fun _ => Lowers.pure _
    | cons b ids ih =>
      exact fun cnt => (on_allocator_bare _).bind fun _ => Lowers.get.bind fun s =>
        (Lowers.ite (drop_cache_bare b) (Lowers.pure _)).bind fun _ => ih _
  refine Lowers.get.bind fun s => ?_
  split
  · exact Lowers.pure _
  · exact Lowers.bind (Preserves.modify fun _ h => h) fun _ => hloop _ _ _

theorem free_and_drop_cache_bare (i : Nat) : Preserves Bare (free_and_drop_cache i) := by
  refine Lowers.get.bind fun s => ?_
  split
  · exact Lowers.pure _
  · exact Lowers.bind (Preserves.modify fun _ h => h) fun _ => Lowers.forM fun b _ =>
      (on_allocator_bare _).bind fun _ => drop_cache_bare b

/-- Whether there is something in a range depends on the map of the sequence alone. -/
theorem get_block_ids_range_isNone {i : Nat} (hsize : m'.block_size = m.block_size)
    (hmap : m'.get_block_map i = m.get_block_map i) (start stop : Nat) (partial_block : Bool) :
    (m'.get_block_ids_range i start stop partial_block).isNone =
      (m.get_block_ids_range i start stop partial_block).isNone := by
  simp only [get_block_ids_range, hsize, hmap]
  split
  · rfl
  · cases m.get_block_map i with
    | none => rfl
    | some map => dsimp only; split <;> rfl

theorem unpin_blocks_outline (r : Nat) : Keeps outline (unpin_blocks r) := by
  refine Keeps.get.bind fun s => ?_
  split
  · exact Keeps.pure _
  · refine Keeps.bind (Keeps.modify fun _ => rfl) fun _ => Keeps.bind ?_ fun _ => Keeps.pure _
    exact Keeps.forM (fun _ => on_allocator_keeps (fun _ _ => rfl) _) _

theorem pin_blocks_by_hashes_outline (r : Nat) (hash_values : List Nat) :
    Keeps outline (pin_blocks_by_hashes r hash_values) := by
  have hloop : Keeps outline (pin_loop hash_values) := by
    induction hash_values with
    | nil => exact Keeps.pure _
    | cons hash rest ih =>
      refine Keeps.get.bind fun s => ?_
      split
      · exact (on_allocator_keeps (fun _ _ => rfl) _).bind fun _ => ih.bind fun _ => Keeps.pure _
      · exact Keeps.pure _
  exact hloop.bind fun _ => Keeps.bind (Keeps.modify fun _ => rfl) fun _ => Keeps.pure _

end

end BlockManager

/-! ### The scheduler -/

namespace Scheduler

/-- No block of the finished task is filled on the host and not on the disk. -/
def backed_up (s : Scheduler) (infer_task : InferTask) : Bool :=
  match (infer_task.get_seqs .Finished).head? with
  | none => true
  | some seq =>
    let host_filled := s.host_block_manager.get_filled_token_len seq.seq_id
    let disk_filled := s.disk_block_manager.get_filled_token_len seq.seq_id
    decide (host_filled ≤ disk_filled) ||
      (s.host_block_manager.get_block_ids_range seq.seq_id disk_filled host_filled false).isNone

/-- The queues are empty and no block is published. -/
structure Bare (s : Scheduler) : Prop where
  queues : s.is_task_queue_empty = true
  tables : ∀ d, (s.get_block_manager d).Bare

def outline (s : Scheduler) (d : Device) : Nat × (Nat → Option BlockMap) := (s.get_block_manager d).outline

section
variable {s s' : Scheduler} {t : InferTask}

theorem queue_empty_congr (h : s'.control = s.control) : s'.is_task_queue_empty = s.is_task_queue_empty := by
  obtain ⟨hW, hA, hP, -⟩ := control_eq h
  simp only [is_task_queue_empty, hW, hA, hP]

theorem queue_empty_iff : s.is_task_queue_empty = true ↔
    s.allocated = [] ∧ s.waiting = [] ∧ s.pending.entries = [] := by
  simp only [is_task_queue_empty, Bool.and_eq_true, List.isEmpty_iff, and_assoc]

theorem on_device_bare {α : Type} (d : Device) {x : BM α} (h : Preserves BlockManager.Bare x) :
    Preserves Bare (on_device d x) := by
  refine Lowers.zoom h fun m s hm hs => ⟨?_, fun d' => ?_⟩
  · rw [queue_empty_congr (control_aside s d m)]; exact hs.queues
  · rw [get_set_block_manager]
    split
    · exact hm (hs.tables d)
    · exact hs.tables d'

theorem on_device_part {α γ : Type} {g : BlockManager → γ} (d : Device) {x : BM α} (h : Keeps g x) :
    Keeps (fun s d => g (get_block_manager s d)) (on_device d x) := by
  intro s
  have hx := h (s.get_block_manager d)
  have hput : ∀ m : BlockManager, g m = g (s.get_block_manager d) →
      (fun d' => g ((s.set_block_manager d m).get_block_manager d')) = fun d' => g (s.get_block_manager d') :=
    fun m hm => by
      funext d'
      rw [get_set_block_manager]
      split
      · rename_i heq; rw [hm, heq]
      · rfl
  unfold on_device zoom
  cases hrun : x (s.get_block_manager d) with
  | ok a m => rw [hrun] at hx; exact hput m hx
  | error e m => rw [hrun] at hx; exact hput m hx

theorem backed_up_of (hsize : s'.host_block_manager.block_size = s.host_block_manager.block_size)
    (hmaps : ∀ i, s'.maps i = s.maps i ∨ s'.maps i = fun _ => none) (ht : s.backed_up t = true) :
    s'.backed_up t = true := by
  unfold backed_up at ht ⊢
  cases hhead : (t.get_seqs .Finished).head? with
  | none => rfl
  | some seq =>
    simp only [hhead] at ht
    dsimp only
    rcases hmaps seq.seq_id with hsame | hnone
    · have hhost : s'.host_block_manager.get_block_map seq.seq_id =
          s.host_block_manager.get_block_map seq.seq_id := congrFun hsame .Host
      have hdisk : s'.disk_block_manager.get_block_map seq.seq_id =
          s.disk_block_manager.get_block_map seq.seq_id := congrFun hsame .Disk
      have hhost_filled : s'.host_block_manager.get_filled_token_len seq.seq_id =
          s.host_block_manager.get_filled_token_len seq.seq_id := by
        rw [BlockManager.get_filled_token_len, BlockManager.get_filled_token_len, hhost]
      have hdisk_filled : s'.disk_block_manager.get_filled_token_len seq.seq_id =
          s.disk_block_manager.get_filled_token_len seq.seq_id := by
        rw [BlockManager.get_filled_token_len, BlockManager.get_filled_token_len, hdisk]
      rw [BlockManager.get_block_ids_range_isNone hsize hhost, hhost_filled, hdisk_filled]
      exact ht
    · have hhost : s'.host_block_manager.get_block_map seq.seq_id = none := congrFun hnone .Host
      simp [BlockManager.get_filled_token_len, hhost]

theorem backed_up_of_outline (h : s'.outline = s.outline) (ht : s.backed_up t = true) : s'.backed_up t = true := by
  refine backed_up_of (congrArg Prod.fst (congrFun h .Host)) (fun i => .inl (funext fun d => ?_)) ht
  exact congrFun (congrArg Prod.snd (congrFun h d)) i

theorem remove_task_block_size (t : InferTask) :
    Keeps (fun s d => (get_block_manager s d).block_size) (remove_task t) := by
  refine Keeps.forM (fun seq => Keeps.forM (fun d => on_device_part d (Keeps.ite ?_ ?_)) _) _
  · refine Keeps.get.bind fun m => ?_
    split
    · exact Keeps.pure _
    · exact Keeps.bind (Keeps.modify fun _ => rfl) fun _ => (BlockManager.release_and_drop_tables _).part (·.1)
  · refine Keeps.get.bind fun m => ?_
    split
    · exact Keeps.pure _
    · exact Keeps.bind (Keeps.modify fun _ => rfl) fun _ => (BlockManager.free_loop_tables _ _ _).part (·.1)

theorem remove_task_backed_up (h : remove_task t s = .ok .unit s') {u : InferTask} (hu : s.backed_up u = true) :
    s'.backed_up u = true := by
  refine backed_up_of (congrFun ((remove_task_block_size t).of_ok h) .Host) (fun i => ?_) hu
  rw [remove_task_maps h i]
  split
  · exact .inr rfl
  · exact .inl rfl

section
variable [Hasher]

theorem backup_of_backed_up (h : s.backed_up t = true) (r : Nat) :
    Ends (backup r t) s (fun plan s' => plan = none ∧ s' = s) fun _ s' => s' = s := by
  unfold backed_up at h
  unfold backup
  cases hhead : (t.get_seqs .Finished).head? with
  | none => exact Ends.throw rfl
  | some seq =>
    simp only [hhead, Bool.or_eq_true, decide_eq_true_eq, Option.isNone_iff_eq_none] at h
    refine Ends.get_bind ?_
    rcases h with hle | hrange
    · exact Ends.ite (fun _ => Ends.pure ⟨rfl, rfl⟩) fun hlt => absurd hle hlt
    · refine Ends.ite (fun _ => Ends.pure ⟨rfl, rfl⟩) fun _ => ?_
      dsimp only [get_block_manager]
      rw [hrange]
      exact Ends.pure ⟨rfl, rfl⟩

theorem trigger_pend_task_of_empty (h : s.is_task_queue_empty = true) (session_id : Nat) (region_id : Option Nat)
    (hash_values : List Nat) :
    trigger_pend_task session_id region_id hash_values s = .error (.noPendingTask session_id) s := by
  have hnil : s.pending.lookup session_id = none := by
    rw [AList.lookup_eq_none, AList.mem_keys, AList.keys, (queue_empty_iff.1 h).2.2]
    exact List.not_mem_nil
  unfold trigger_pend_task
  rw [bind_apply, get_apply]
  dsimp only
  rw [hnil]
  rfl

end

theorem remove_task_bare (t : InferTask) : Preserves Bare (remove_task t) :=
  Lowers.forM fun _ _ => Lowers.forM fun d _ => on_device_bare d
    (Lowers.ite (BlockManager.free_and_drop_cache_bare _) (BlockManager.free_bare _))

theorem update_bare (infer_outputs : Table InferOutput) (now : Nat) (hs : s.Bare) :
    Ends (update infer_outputs now) s (fun finished s' => finished = [] ∧ s'.Bare ∧ s'.outline = s.outline)
      fun _ _ => False := by
  obtain ⟨hA, hW, hP⟩ := queue_empty_iff.1 hs.queues
  refine Ends.get_bind (Ends.modify_bind ?_)
  rw [hA]
  refine Ends.pure ⟨rfl, ⟨queue_empty_iff.2 ⟨rfl, hW, hP⟩, fun d => ?_⟩, ?_⟩
  · have h := hs.tables d; cases d <;> exact h
  · funext d; cases d <;> rfl

theorem pin_blocks_bare (r : Nat) (hash_values : List Nat) (d : Device) :
    Preserves Bare (pin_blocks r hash_values d) :=
  (on_device_bare d (BlockManager.bare_of_keeps (BlockManager.pin_blocks_by_hashes_table _ _))).bind fun _ =>
    Lowers.pure _

theorem pin_blocks_outline (r : Nat) (hash_values : List Nat) (d : Device) : Keeps outline (pin_blocks r hash_values d) :=
  (on_device_part d (BlockManager.pin_blocks_by_hashes_outline _ _)).bind fun _ => Keeps.pure _

theorem unpin_blocks_bare (region : DeviceBlockRegion) : Preserves Bare (unpin_blocks region) :=
  on_device_bare _ ((BlockManager.bare_of_keeps (BlockManager.unpin_blocks_table _)).bind fun _ => Lowers.pure _)

theorem unpin_blocks_outline (region : DeviceBlockRegion) : Keeps outline (unpin_blocks region) :=
  on_device_part _ ((BlockManager.unpin_blocks_outline _).bind fun _ => Keeps.pure _)

theorem clear_cache_bare : Preserves Bare clear_cache :=
  Lowers.forM fun d _ => on_device_bare d (Preserves.modify fun _ _ => AList.lookup_empty)

theorem clear_cache_outline : Keeps outline clear_cache := fun s => by
  funext d; cases d <;> rfl

end

end Scheduler

/-! ### The engine -/

/-! ### The sections -/

namespace System

section
variable {s : System}

theorem on_scheduler_bare {α : Type} {x : SM α} (h : Preserves Scheduler.Bare x) :
    Preserves (·.scheduler.Bare) (on_scheduler x) :=
  Lowers.zoom h fun _ _ h => h

theorem on_scheduler_outline {α : Type} {x : SM α} (h : Keeps Scheduler.outline x) :
    Keeps (fun s => (s.finished, s.scheduler.outline)) (on_scheduler x) :=
  h.inside fun _ _ hσ => Prod.ext rfl hσ

theorem pin_blocks_bare (hash_values : List Nat) : Preserves (·.scheduler.Bare) (pin_blocks hash_values) :=
  Lowers.bind (Lowers.get.bind fun _ => Lowers.bind (Preserves.modify fun _ h => h) fun _ => Lowers.pure _)
    fun _ => on_scheduler_bare (Scheduler.pin_blocks_bare _ _ _)

theorem pin_blocks_outline (hash_values : List Nat) :
    Keeps (fun s => (s.finished, s.scheduler.outline)) (pin_blocks hash_values) :=
  Keeps.bind (Keeps.get.bind fun _ => Keeps.bind (Keeps.modify fun _ => rfl) fun _ => Keeps.pure _)
    fun _ => on_scheduler_outline (Scheduler.pin_blocks_outline _ _ _)

theorem remove_task_bare (i : Nat) : Preserves (·.scheduler.Bare) (remove_task i) := by
  refine Lowers.get.bind fun s => ?_
  split
  · exact Lowers.pure _
  · exact (on_scheduler_bare (Scheduler.remove_task_bare _)).bind fun _ => Preserves.modify fun _ h => h

theorem remove_task_backed_up {i : Nat} {s' : System} (h : remove_task i s = .ok .unit s')
    (hs : ∀ t ∈ s.finished, s.scheduler.backed_up t = true) :
    ∀ t ∈ s'.finished, s'.scheduler.backed_up t = true := by
  obtain ⟨_, _, hget, h⟩ := bind_ok.1 h
  obtain ⟨rfl, rfl⟩ : _ ∧ _ := by simpa using hget
  cases hi : s.finished[i]? with
  | none =>
    rw [hi] at h
    obtain rfl : s = s' := by simpa using h
    exact hs
  | some t =>
    rw [hi] at h
    obtain ⟨_, s₁, hrem, h⟩ := bind_ok.1 h
    obtain ⟨σ, hσ, rfl⟩ := on_scheduler_ok hrem
    obtain rfl : _ = s' := by simpa using h
    exact fun u hu => Scheduler.remove_task_backed_up hσ (hs u (List.mem_of_mem_eraseIdx hu))

theorem update_bare (infer_outputs : Table InferOutput) (now : Nat) (h : s.scheduler.Bare) :
    Ends (update infer_outputs now) s (fun _ s' => s'.scheduler.Bare ∧ s'.finished = s.finished ∧
      s'.scheduler.outline = s.scheduler.outline) fun _ _ => False := by
  refine Ends.bind (R := fun finished s' => finished = [] ∧ s'.scheduler.Bare ∧ s'.finished = s.finished ∧
    s'.scheduler.outline = s.scheduler.outline) (Ends.zoom ?_) ?_
  · exact (Scheduler.update_bare infer_outputs now h).conseq
      (fun _ _ ⟨hnil, hbare, houtline⟩ => ⟨hnil, hbare, rfl, houtline⟩) fun _ _ => id
  · rintro _ s₁ ⟨rfl, hbare, hfin, houtline⟩
    exact Ends.modify_bind (Ends.pure ⟨hbare, by simpa using hfin, houtline⟩)

section
variable [Hasher]

theorem backup_of_backed_up (h : ∀ t ∈ s.finished, s.scheduler.backed_up t = true) (i : Nat) :
    Ends (backup i) s (fun plan s' => plan = none ∧ s'.scheduler = s.scheduler ∧ s'.finished = s.finished)
      fun _ s' => s'.scheduler = s.scheduler ∧ s'.finished = s.finished := by
  refine Ends.get_bind ?_
  cases hi : s.finished[i]? with
  | none => exact Ends.pure ⟨rfl, rfl, rfl⟩
  | some t =>
    have ht := h t (List.mem_of_getElem? hi)
    refine Ends.bind (R := fun _ s' => s'.scheduler = s.scheduler ∧ s'.finished = s.finished)
      (Ends.get_bind (Ends.modify_bind (Ends.pure ⟨rfl, rfl⟩))) ?_
    rintro r s₁ ⟨hsched, hfin⟩
    refine Ends.zoom ((Scheduler.backup_of_backed_up (by rw [hsched]; exact ht) r).conseq ?_ ?_)
    · rintro _ _ ⟨rfl, rfl⟩; exact ⟨rfl, hsched, hfin⟩
    · rintro _ _ rfl; exact ⟨hsched, hfin⟩

end

end

end System

/-! ### The engine -/

namespace Engine

/-- The work left over from earlier requests publishes nothing: no `reserve_request` call is between its
two sections, and there is nothing to back up for the finished tasks that a running engine loop is still
to remove. -/
def settled (e : Engine) : Bool :=
  e.reserved.isEmpty && match e.loop with
    | .dead => true
    | _ => e.system.finished.all e.system.scheduler.backed_up

/-- `settled`, with empty queues. -/
structure Settled (e : Engine) : Prop where
  queues : e.system.scheduler.is_task_queue_empty = true
  reserved : e.reserved = []
  finished : e.loop ≠ .dead → ∀ t ∈ e.system.finished, e.system.scheduler.backed_up t = true

/-- Nothing is published, and there is no work left that would publish something. -/
structure Cleared (e : Engine) : Prop extends Settled e where
  tables : ∀ d, (e.system.scheduler.get_block_manager d).Bare
  queue : ∀ entry ∈ e.queue, entry = .sync

section
variable {e e' : Engine}

theorem Settled.of_settled (hqueues : e.system.scheduler.is_task_queue_empty = true) (h : e.settled = true) :
    e.Settled := by
  obtain ⟨hreserved, hfinished⟩ := Bool.and_eq_true_iff.1 h
  refine ⟨hqueues, List.isEmpty_iff.1 hreserved, fun hloop => ?_⟩
  cases hl : e.loop with
  | dead => exact absurd hl hloop
  | idle | executing | finishing => rw [hl] at hfinished; exact List.all_eq_true.1 hfinished

theorem Cleared.bare (h : e.Cleared) : e.system.scheduler.Bare := ⟨h.queues, h.tables⟩

theorem Settled.congr (h : e.Settled) (hs : e'.system = e.system) (hr : e'.reserved = e.reserved)
    (hl : e'.loop = e.loop ∨ e'.loop = .dead) : e'.Settled := by
  refine ⟨by rw [hs]; exact h.queues, hr.trans h.reserved, fun hloop => ?_⟩
  rw [hs]
  exact h.finished (by rwa [hl.resolve_right hloop] at hloop)

theorem Cleared.congr (h : e.Cleared) (hs : e'.system = e.system) (hr : e'.reserved = e.reserved)
    (hl : e'.loop = e.loop ∨ e'.loop = .dead) (hq : ∀ entry ∈ e'.queue, entry ∈ e.queue ∨ entry = .sync) :
    e'.Cleared :=
  ⟨h.toSettled.congr hs hr hl, by rw [hs]; exact h.tables, fun entry hentry =>
    (hq entry hentry).elim (h.queue entry) id⟩

theorem Cleared.of_system (h : e.Cleared) (hb : e'.system.scheduler.Bare)
    (hf : e'.system.finished = e.system.finished) (hm : e'.system.scheduler.outline = e.system.scheduler.outline)
    (hr : e'.reserved = e.reserved) (hl : e'.loop ≠ .dead → e.loop ≠ .dead) (hq : e'.queue = e.queue) :
    e'.Cleared := by
  refine ⟨⟨hb.queues, hr.trans h.reserved, fun hloop t ht => ?_⟩, hb.tables, by rw [hq]; exact h.queue⟩
  rw [hf] at ht
  exact Scheduler.backed_up_of_outline hm (h.finished (hl hloop) t ht)

end

end Engine

namespace EngineOp

section
variable [Hasher] {e e' : Engine} {op : EngineOp}

omit [Hasher] in
theorem exec_of_section {α : Type} {x : SysM α} (hb : Preserves (·.scheduler.Bare) x)
    (hk : Keeps (fun s => (s.finished, s.scheduler.outline)) x) (h : e.Cleared)
    (hs : e'.system = (attempt x e.system).2) (hr : e'.reserved = e.reserved) (hl : e'.loop = e.loop)
    (hq : e'.queue = e.queue) : e'.Cleared := by
  have hbare : e'.system.scheduler.Bare := by rw [hs]; exact attempt_preserves hb h.bare
  have hsame := attempt_keeps hk e.system
  rw [← hs] at hsame
  obtain ⟨hf, hm⟩ := Prod.mk.inj hsame
  exact h.of_system hbare hf hm hr (by rw [hl]; exact id) hq

/-- Nothing is submitted when a finished task is removed. -/
theorem cleared_of_finish (h : e.Cleared) (hfin : e.finish = some e') : e'.Cleared := by
  unfold Engine.finish at hfin
  cases hloop : e.loop with
  | idle | executing | dead => simp only [hloop] at hfin; cases hfin
  | finishing =>
    simp only [hloop] at hfin
    have hbacked := h.finished (by rw [hloop]; nofun)
    have hbackup := System.backup_of_backed_up hbacked 0
    have hsys : ∀ {s : System}, s.scheduler = e.system.scheduler ∧ s.finished = e.system.finished →
        ({ e with system := s } : Engine).Cleared := fun ⟨hsched, hfinished⟩ =>
      h.of_system (by rw [hsched]; exact h.bare) hfinished (by rw [hsched]) rfl id rfl
    rcases attempt_ends hbackup with ⟨plan, s, hatt, rfl, hs⟩ | ⟨_, s, hatt, -, hs⟩
    · rw [hatt] at hfin
      dsimp only [Engine.submit_swap_out] at hfin
      have hbare := attempt_preserves (System.remove_task_bare 0) (hsys hs).bare
      dsimp only at hbare
      rcases hrem : attempt (System.remove_task 0) s with ⟨r, s'⟩
      rw [hrem] at hfin hbare
      cases r with
      | some _ =>
        obtain rfl := Option.some.inj hfin
        refine ⟨⟨hbare.queues, h.reserved, fun _ => ?_⟩, hbare.tables, h.queue⟩
        exact System.remove_task_backed_up (attempt_some hrem) ((hsys hs).finished (by rw [hloop]; nofun))
      | none =>
        obtain rfl := Option.some.inj hfin
        exact ⟨⟨hbare.queues, h.reserved, fun hne => absurd rfl hne⟩, hbare.tables, h.queue⟩
    · rw [hatt] at hfin
      obtain rfl := Option.some.inj hfin
      exact (hsys hs).congr rfl rfl (.inr rfl) fun _ => .inl

/-- Without a new request nothing is published. -/
theorem cleared_of_step (h : e.Cleared) (hs : Step e op e') (hop : op.accepts = false) : e'.Cleared := by
  obtain ⟨-, hs⟩ := next_eq hs
  have hhead : e.queue.head?.any Entry.is_copy = false := by
    cases hq : e.queue with
    | nil => rfl
    | cons entry rest => rw [h.queue entry (by rw [hq]; exact List.mem_cons_self)]; rfl
  have htail : ∀ entry ∈ e.queue.tail, entry ∈ e.queue ∨ entry = .sync :=
    fun entry hentry => .inl (List.mem_of_mem_tail hentry)
  cases op with
  | add_request request arrival_time | reserve_request request arrival_time => cases hop
  | pend_reserved i =>
    simp only [exec, Engine.pend_reserved, h.reserved, List.getElem?_nil] at hs
    cases hs
  | trigger_request k hash_values =>
    simp only [exec, Engine.trigger_request] at hs
    split at hs
    · obtain rfl := Option.some.inj hs
      refine h.congr ?_ rfl (.inl rfl) fun _ => .inl
      dsimp only
      rw [attempt, System.on_scheduler, zoom, Scheduler.trigger_pend_task_of_empty h.queues]
    · cases hs
  | push_kv hash_values =>
    obtain rfl := Option.some.inj hs
    unfold Engine.push_kv
    split <;> rename_i heq <;> exact exec_of_section (System.pin_blocks_bare hash_values)
      (System.pin_blocks_outline hash_values) h (by rw [heq]) rfl rfl rfl
  | push_done i =>
    simp only [exec, Engine.push_done] at hs
    split at hs
    · obtain rfl := Option.some.inj hs
      exact exec_of_section (System.on_scheduler_bare (Scheduler.unpin_blocks_bare _))
        (System.on_scheduler_outline (Scheduler.unpin_blocks_outline _)) h rfl rfl rfl rfl
    · cases hs
  | schedule =>
    simp only [exec, Engine.schedule, h.queues, if_true] at hs
    split at hs
    · obtain rfl := Option.some.inj hs; exact h
    · cases hs
  | execute_failed =>
    simp only [exec, Engine.execute_failed] at hs
    split at hs
    · obtain rfl := Option.some.inj hs; exact h.congr rfl rfl (.inr rfl) fun _ => .inl
    · cases hs
  | update infer_outputs now =>
    simp only [exec, Engine.update] at hs
    split at hs
    · rename_i batch hloop
      have hne : e.loop ≠ .dead := fun hdead => by rw [hloop] at hdead; cases hdead
      rcases attempt_ends (System.update_bare infer_outputs now h.bare) with
        ⟨_, s, hatt, hbare, hfin, houtline⟩ | ⟨_, _, -, -, hfalse⟩
      · rw [hatt] at hs
        obtain rfl := Option.some.inj hs
        exact h.of_system hbare hfin houtline rfl (fun _ => hne) rfl
      · exact hfalse.elim
    · cases hs
  | finish => exact cleared_of_finish h hs
  | copy_done | copy_failed | copy_panicked =>
    simp only [exec, Engine.copy_done, Engine.copy_failed, Engine.copy_panicked, Engine.copying, hhead,
      Bool.false_and, Bool.false_eq_true, if_false] at hs
    cases hs
  | callback =>
    simp only [exec, Engine.callback] at hs
    split at hs
    · split at hs
      · rename_i hq; rw [hq] at hhead; cases hhead
      · rename_i hq; rw [hq] at hhead; cases hhead
      · cases hs
    · cases hs
  | notify =>
    simp only [exec, Engine.notify] at hs
    split at hs
    · obtain rfl := Option.some.inj hs; exact h.congr rfl rfl (.inl rfl) htail
    · cases hs
  | clear_cache => obtain rfl := Option.some.inj hs; exact h.congr rfl rfl (.inl rfl) fun _ => .inl
  | clear_try =>
    simp only [exec, Engine.clear_try] at hs
    split at hs
    · cases hs
    · split at hs
      · obtain rfl := Option.some.inj hs
        refine h.congr (submit_system _ _) (submit_reserved _ _) (.inl (submit_loop _ _)) fun entry hentry => ?_
        unfold Engine.submit at hentry
        split at hentry
        · exact (List.mem_append.1 hentry).imp_right List.mem_singleton.1
        · exact .inl hentry
      · obtain rfl := Option.some.inj hs; exact h
  | clear_done =>
    simp only [exec, Engine.clear_done] at hs
    split at hs
    · obtain rfl := Option.some.inj hs
      exact exec_of_section (System.on_scheduler_bare Scheduler.clear_cache_bare)
        (System.on_scheduler_outline Scheduler.clear_cache_outline) h rfl rfl rfl rfl
    · cases hs

/-! ### Up to the end of `clear_cache` -/

/-- A `clear_cache` caller that finds the task queues empty finds no work left over that could still
publish a block. -/
def settled (e : Engine) : EngineOp → Bool
  | clear_try => !e.system.scheduler.is_task_queue_empty || e.settled
  | _ => true

/-- While a caller holds the lock everything stays settled. -/
theorem settled_of_locked (h : e.Settled) (hlock : e.lock ≠ .free) (hs : Step e op e') : e'.Settled := by
  obtain ⟨hfree, hs⟩ := next_eq hs
  have htakes : op.takes_lock = false := by
    cases hop : op.takes_lock with
    | false => rfl
    | true => exact absurd (hfree hop) hlock
  cases op with
  | execute_failed =>
    simp only [exec, Engine.execute_failed] at hs
    split at hs
    · obtain rfl := Option.some.inj hs; exact h.congr rfl rfl (.inr rfl)
    · cases hs
  | copy_done | copy_failed | copy_panicked =>
    simp only [exec, Engine.copy_done, Engine.copy_failed, Engine.copy_panicked] at hs
    split at hs
    · obtain rfl := Option.some.inj hs; exact h.congr rfl rfl (.inl rfl)
    · cases hs
  | notify =>
    simp only [exec, Engine.notify] at hs
    split at hs
    · obtain rfl := Option.some.inj hs; exact h.congr rfl rfl (.inl rfl)
    · cases hs
  | clear_cache => obtain rfl := Option.some.inj hs; exact h.congr rfl rfl (.inl rfl)
  | clear_done =>
    simp only [exec, Engine.clear_done] at hs
    split at hs
    · obtain rfl := Option.some.inj hs
      have hcontrol := attempt_keeps (System.on_scheduler_outline Scheduler.clear_cache_outline) e.system
      obtain ⟨hfin, houtline⟩ := Prod.mk.inj hcontrol
      refine ⟨?_, h.reserved, fun hloop t ht => ?_⟩
      · rw [← h.queues]; rfl
      · rw [hfin] at ht
        exact Scheduler.backed_up_of_outline houtline (h.finished hloop t ht)
    · cases hs
  | _ => cases htakes

theorem settled_of_clear_try (hs : Step e clear_try e') (hsettled : settled e clear_try = true)
    (hlock : e.lock = .free) (hlock' : e'.lock ≠ .free) : e'.Settled := by
  obtain ⟨-, hs⟩ := next_eq hs
  simp only [exec, Engine.clear_try] at hs
  split at hs
  · cases hs
  · split at hs
    · rename_i hempty
      obtain rfl := Option.some.inj hs
      have hset : e.Settled := .of_settled hempty (by simpa [settled, hempty] using hsettled)
      exact hset.congr (submit_system _ _) (submit_reserved _ _) (.inl (submit_loop _ _))
    · obtain rfl := Option.some.inj hs
      exact absurd hlock hlock'

/-- Who holds the lock, where the sync entry is, and that nothing is left over meanwhile. -/
structure Barred (e : Engine) : Prop where
  free : e.lock = .free → .sync ∉ e.queue
  waiting : e.lock = .waiting → ∃ copies, .sync ∉ copies ∧ (e.queue = copies ∨ e.queue = copies ++ [.sync])
  notified : e.lock = .notified → e.queue = []
  left_over : e.lock ≠ .free → e.Settled

theorem Barred.step (h : Barred e) (hs : Step e op e') (hc : settled e op = true) : Barred e' := by
  have hsettled : (e.lock = .free → e'.lock ≠ .free → op = clear_try) → e'.lock ≠ .free → e'.Settled := by
    intro htry hlock'
    by_cases hlock : e.lock = .free
    · obtain rfl := htry hlock hlock'
      exact settled_of_clear_try hs hc hlock hlock'
    · exact settled_of_locked (h.left_over hlock) hlock hs
  cases moves_of_step hs with
  | stays hlock hqueue _ =>
    refine ⟨fun hl => ?_, fun hl => ?_, fun hl => ?_, hsettled fun hfree hne => absurd (hlock.trans hfree) hne⟩
    · rw [hqueue]; exact h.free (hlock.symm.trans hl)
    · rw [hqueue]; exact h.waiting (hlock.symm.trans hl)
    · rw [hqueue]; exact h.notified (hlock.symm.trans hl)
  | submits hfree hentry hlock hqueue _ =>
    refine ⟨fun _ hmem => ?_, fun hl => ?_, fun hl => ?_, hsettled fun _ hne => absurd hlock hne⟩
    · rw [hqueue, List.mem_append, List.mem_singleton] at hmem
      rcases hmem with hmem | rfl
      · exact h.free hfree hmem
      · cases hentry
    · exact absurd (hlock.symm.trans hl) (by decide)
    · exact absurd (hlock.symm.trans hl) (by decide)
  | completes hhead hlock hqueue _ =>
    refine ⟨fun hl hmem => ?_, fun hl => ?_, fun hl => ?_, hsettled fun hfree hne => absurd (hlock.trans hfree) hne⟩
    · rw [hqueue] at hmem
      exact h.free (hlock.symm.trans hl) (List.mem_of_mem_tail hmem)
    · rw [hqueue]
      obtain ⟨copies, hcopies, hq⟩ := h.waiting (hlock.symm.trans hl)
      refine ⟨copies.tail, fun hmem => hcopies (List.mem_of_mem_tail hmem), ?_⟩
      cases copies with
      | nil =>
        -- the entry that is done is not the sync entry
        rcases hq with hq | hq
        · exact .inl (by rw [hq])
        · rw [hq] at hhead; exact absurd rfl hhead
      | cons entry copies => exact hq.imp (congrArg List.tail) (congrArg List.tail)
    · rw [hqueue, h.notified (hlock.symm.trans hl)]; rfl
  | dies _ hlock hqueue _ =>
    refine ⟨fun _ => ?_, fun _ => ⟨[], List.not_mem_nil, .inl hqueue⟩, fun _ => hqueue, hsettled fun hfree hne => absurd (hlock.trans hfree) hne⟩
    rw [hqueue]; exact List.not_mem_nil
  | notifies hhead hlock hqueue _ =>
    have hmem : Entry.sync ∈ e.queue := List.mem_of_mem_head? hhead
    have hne : e.lock ≠ .free := fun hfree => h.free hfree hmem
    refine ⟨fun hl => absurd (hlock.symm.trans hl) (by decide), fun hl => absurd (hlock.symm.trans hl) (by decide),
      fun _ => ?_, hsettled fun hfree _ => absurd hfree hne⟩
    cases hl : e.lock with
    | free => exact absurd hl hne
    | notified => rw [h.notified hl] at hmem; cases hmem
    | waiting =>
      obtain ⟨copies, hcopies, hq⟩ := h.waiting hl
      rcases hq with hq | hq
      · rw [hq] at hmem; exact absurd hmem hcopies
      · cases copies with
        | nil => rw [hqueue, hq]; rfl
        | cons entry copies =>
          rw [hq] at hhead
          obtain rfl : entry = .sync := by simpa using hhead
          exact absurd List.mem_cons_self hcopies
  | clears hfree _ hlock hqueue _ =>
    refine ⟨fun hl => absurd (hlock.symm.trans hl) (by decide), fun _ => ?_,
      fun hl => absurd (hlock.symm.trans hl) (by decide), hsettled fun _ _ => rfl⟩
    refine ⟨e.queue, h.free hfree, ?_⟩
    rw [hqueue]
    unfold Engine.submit
    split
    · exact .inr rfl
    · exact .inl rfl
  | releases hheld hlock hqueue _ =>
    refine ⟨fun _ => ?_, fun hl => absurd (hlock.symm.trans hl) (by decide),
      fun hl => absurd (hlock.symm.trans hl) (by decide), fun hne => absurd hlock hne⟩
    rw [hqueue, h.notified hheld]; exact List.not_mem_nil

omit [Hasher] in
theorem Barred.new (c : SchedulerConfig) : Barred (Engine.new c) :=
  ⟨fun _ => List.not_mem_nil, nofun, nofun, fun hne => absurd rfl hne⟩

/-- At its end `clear_cache` leaves nothing published, and nothing that would publish something. -/
theorem Barred.cleared (h : Barred e) (hs : Step e clear_done e') : e'.Cleared := by
  obtain ⟨-, hs'⟩ := next_eq hs
  simp only [exec, Engine.clear_done] at hs'
  split at hs'
  · rename_i hlock
    have hset : e'.Settled := settled_of_locked (h.left_over (by rw [hlock]; decide)) (by rw [hlock]; decide) hs
    obtain rfl := Option.some.inj hs'
    refine ⟨hset, fun d => ?_, ?_⟩
    · cases d <;> exact AList.lookup_empty
    · dsimp only
      rw [h.notified hlock]
      exact fun _ hentry => absurd hentry List.not_mem_nil
  · cases hs'

/-- When no caller of `clear_cache` meets left over work that could still publish a block, then after
`clear_cache` has returned no block can be found until a new request is accepted. -/
theorem clear_cache_complete (c : SchedulerConfig) {ops ops' : List EngineOp} {e₁ e₂ : Engine}
    (hbefore : Run (fun e op e' => Step e op e' ∧ settled e op = true) (Engine.new c) ops e₁)
    (hclear : Step e₁ clear_done e₂)
    (hafter : Run (fun e op e' => Step e op e' ∧ op.accepts = false) e₂ ops' e) (d : Device) (hash : Nat) :
    (e.system.scheduler.get_block_manager d).lookup_block_id hash = none := by
  have hbarred : Barred e₁ :=
    hbefore.invariant (Barred.new c) fun _ _ _ h ⟨hs, hc⟩ => h.step hs hc
  have hcleared : e.Cleared :=
    hafter.invariant (hbarred.cleared hclear) fun _ _ _ h ⟨hs, hop⟩ => cleared_of_step h hs hop
  exact (hcleared.tables d).lookup hash

/-- A run up to the end of a `clear_cache` call and on from there, found by computation. -/
theorem exists_of_follow_clear (guard : Engine → EngineOp → Bool) (q p : Engine → Bool) (e : Engine)
    (ops ops' : List EngineOp) (h : (Run.follow (fun e op => if guard e op then next e op else none) e ops).any (fun e₁ =>
      q e₁ && (next e₁ clear_done).any fun e₂ =>
        (Run.follow (fun e op => if op.accepts then none else next e op) e₂ ops').any p) = true) :
    ∃ e₁ e₂ e', Run (fun e op e' => Step e op e' ∧ guard e op = true) e ops e₁ ∧ Step e₁ clear_done e₂ ∧
      Run (fun e op e' => Step e op e' ∧ op.accepts = false) e₂ ops' e' ∧ q e₁ = true ∧ p e' = true := by
  have hguard : ∀ e op e', (if guard e op then next e op else none) = some e' → Step e op e' ∧ guard e op = true := by
    intro e op e' h
    split at h
    · exact ⟨h, ‹_›⟩
    · cases h
  have hnew : ∀ e op e', (if op.accepts then none else next e op) = some e' → Step e op e' ∧ op.accepts = false := by
    intro e op e' h
    split at h
    · cases h
    · exact ⟨h, by simpa using ‹¬ op.accepts = true›⟩
  obtain ⟨e₁, hbefore, he₁⟩ := Run.exists_of_follow hguard h
  obtain ⟨hq, hafter⟩ := Bool.and_eq_true_iff.1 he₁
  obtain ⟨e₂, hclear, he₂⟩ := (Option.any_eq_true _ _).1 hafter
  obtain ⟨e', hrun, hp⟩ := Run.exists_of_follow hnew he₂
  exact ⟨e₁, e₂, e', hbefore, hclear, hrun, hq, hp⟩

end

/-- A `clear_cache` call after a request has been finished, backed up and removed. -/
theorem clear_cache_complete_finished :
    let _ := decimalHasher
    ∃ e₁ e₂ e, Run (fun e op e' => Step e op e' ∧ settled e op = true) (Engine.new diskConfig)
        (finishedRun ++ [copy_done, callback, clear_try, notify]) e₁ ∧ Step e₁ clear_done e₂ ∧
      Run (fun e op e' => Step e op e' ∧ op.accepts = false) e₂ [push_kv [11], push_done 0, schedule] e ∧
      ((e₁.system.scheduler.get_block_manager .Disk).lookup_block_id 11).isSome = true ∧
      ∀ d hash, (e.system.scheduler.get_block_manager d).lookup_block_id hash = none := by
  let _ := decimalHasher
  obtain ⟨e₁, e₂, e, hbefore, hclear, hafter, hfound, -⟩ := exists_of_follow_clear settled
    (fun e => ((e.system.scheduler.get_block_manager .Disk).lookup_block_id 11).isSome) (fun _ => true)
    (Engine.new diskConfig) (finishedRun ++ [copy_done, callback, clear_try, notify])
    [push_kv [11], push_done 0, schedule] (by decide +kernel)
  exact ⟨e₁, e₂, e, hbefore, hclear, hafter, hfound, clear_cache_complete diskConfig hbefore hclear hafter⟩

/-- One request is finished and not yet removed when `clear_cache` comes, another one is being reserved:
the blocks of each can be found again later. -/
theorem left_over_comes_back :
    let _ := decimalHasher
    (∃ e₁ e₂ e, Run Step (Engine.new diskConfig) [add_request ⟨0, [1, 2], 1, some 1, false, false⟩ 0, schedule,
        update (AList.singleton 0 ⟨3, 1, "", false⟩) 1, clear_cache, clear_try, notify] e₁ ∧
      Step e₁ clear_done e₂ ∧
      Run (fun e op e' => Step e op e' ∧ op.accepts = false) e₂ [finish, copy_done, callback] e ∧
      ((e.system.scheduler.get_block_manager .Disk).lookup_block_id (compute_hash [1])).isSome = true) ∧
    ∃ e₁ e₂ e, Run Step (Engine.new diskConfig) [reserve_request ⟨0, [1, 2], 1, some 1, false, false⟩ 0,
        clear_cache, clear_try, notify] e₁ ∧ Step e₁ clear_done e₂ ∧
      Run (fun e op e' => Step e op e' ∧ op.accepts = false) e₂
        [pend_reserved 0, trigger_request 0 [compute_hash [1]]] e ∧
      ((e.system.scheduler.get_block_manager .Host).lookup_block_id (compute_hash [1])).isSome = true := by
  let _ := decimalHasher
  obtain ⟨e₁, e₂, e, hbefore, hclear, hafter, -, hfound⟩ := exists_of_follow_clear (fun _ _ => true)
    (fun _ => true)
    (fun e => ((e.system.scheduler.get_block_manager .Disk).lookup_block_id (compute_hash [1])).isSome)
    (Engine.new diskConfig) [add_request ⟨0, [1, 2], 1, some 1, false, false⟩ 0, schedule,
      update (AList.singleton 0 ⟨3, 1, "", false⟩) 1, clear_cache, clear_try, notify]
    [finish, copy_done, callback] (by decide +kernel)
  obtain ⟨e₁', e₂', e', hbefore', hclear', hafter', -, hfound'⟩ := exists_of_follow_clear (fun _ _ => true)
    (fun _ => true)
    (fun e => ((e.system.scheduler.get_block_manager .Host).lookup_block_id (compute_hash [1])).isSome)
    (Engine.new diskConfig) [reserve_request ⟨0, [1, 2], 1, some 1, false, false⟩ 0,
      clear_cache, clear_try, notify]
    [pend_reserved 0, trigger_request 0 [compute_hash [1]]] (by decide +kernel)
  have hstep : ∀ e op e', Step e op e' ∧ (fun _ _ => true : Engine → EngineOp → Bool) e op = true → Step e op e' :=
    fun _ _ _ h => h.1
  exact ⟨⟨e₁, e₂, e, hbefore.mono hstep, hclear, hafter, hfound⟩,
    e₁', e₂', e', hbefore'.mono hstep, hclear', hafter', hfound'⟩

end EngineOp

end LMServe
