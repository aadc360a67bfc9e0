import LMServe.Scheduler

/-!
# The queues of the scheduler

What the functions of the scheduler do to the queues, whatever the block managers look like: calls on
a device leave them alone, and scheduling moves tasks between `waiting` and `allocated`, changing
nothing of a task but the status of its sequences. A task can get lost in one place only, at the end
of the preemption loop of `schedule_waiting_with_reorder`.
-/

namespace LMServe
open Hoare

/-- What the page tables know of a sequence. -/
def Sequence.key (seq : Sequence) : Nat × List Nat := (seq.seq_id, seq.token_ids)

def InferTask.keys (t : InferTask) : List (Nat × List Nat) := t.seqs.map Sequence.key

def keys (tasks : List InferTask) : List (Nat × List Nat) := tasks.flatMap InferTask.keys

@[simp] theorem keys_append (l l' : List InferTask) : keys (l ++ l') = keys l ++ keys l' :=
  List.flatMap_append

@[simp] theorem keys_nil : keys [] = [] := rfl

@[simp] theorem keys_cons (t : InferTask) (l : List InferTask) : keys (t :: l) = t.keys ++ keys l := by
  simp [keys]

/-- What scheduling does not change of a task. -/
def InferTask.ident (t : InferTask) : Nat × Nat × List (Nat × List Nat) :=
  (t.session_id, t.arrival_time, t.keys)

theorem InferTask.keys_of_ident {t t' : InferTask} (h : t.ident = t'.ident) : t.keys = t'.keys := by
  simp only [ident, Prod.mk.injEq] at h; exact h.2.2

theorem insert_sorted_perm (queue : List InferTask) (t : InferTask) :
    (insert_sorted queue t).Perm (t :: queue) := by
  induction queue with
  | nil => exact List.Perm.refl _
  | cons u queue ih =>
    unfold insert_sorted
    split
    · exact List.Perm.refl _
    · exact (ih.cons u).trans (List.Perm.swap t u queue)

/-- Whether a task is the one with this identity, as a number. -/
def one (a : Nat × Nat × List (Nat × List Nat)) (t : InferTask) : Nat := if t.ident = a then 1 else 0

/-- How many tasks of a queue have this identity. -/
def tally (a : Nat × Nat × List (Nat × List Nat)) (l : List InferTask) : Nat :=
  (l.map InferTask.ident).count a

section
variable (a : Nat × Nat × List (Nat × List Nat))

@[simp] theorem tally_nil : tally a [] = 0 := rfl

@[simp] theorem tally_append (l l' : List InferTask) : tally a (l ++ l') = tally a l + tally a l' := by
  simp [tally]

@[simp] theorem tally_cons (t : InferTask) (l : List InferTask) :
    tally a (t :: l) = one a t + tally a l := by
  simp only [tally, one, List.map_cons, List.count_cons, beq_iff_eq]; omega

@[simp] theorem tally_reverse (l : List InferTask) : tally a l.reverse = tally a l := by
  simp [tally]

@[simp] theorem tally_insert_sorted (l : List InferTask) (t : InferTask) :
    tally a (insert_sorted l t) = one a t + tally a l := by
  rw [← tally_cons]; exact ((insert_sorted_perm l t).map _).count_eq a

theorem one_congr {t t' : InferTask} (h : t'.ident = t.ident) : one a t' = one a t := by
  simp only [one, h]

end

namespace Scheduler

@[simp] theorem get_set_block_manager (s : Scheduler) (d d' : Device) (m : BlockManager) :
    (s.set_block_manager d m).get_block_manager d' = if d' = d then m else s.get_block_manager d' := by
  cases d <;> cases d' <;> rfl

/-- The queues, apart from the batch in flight. -/
def queues (s : Scheduler) : List InferTask × List InferTask × Table InferTask :=
  (s.waiting, s.allocated, s.pending)

/-- The tasks that wait for a trigger. -/
def pending_tasks (s : Scheduler) : List InferTask := Table.values s.pending

/-- What `Scheduler::new` fixed. -/
def settings (s : Scheduler) : Nat × Nat × Nat × Bool × Watermark :=
  (s.max_batch_size, s.max_seq_len, s.max_num_batched_tokens, s.enable_reorder, s.watermark_blocks)

/-- Everything but the managers and the batch in flight. -/
def control (s : Scheduler) := (s.queues, s.settings)

theorem control_eq {s s' : Scheduler} (h : s'.control = s.control) :
    s'.waiting = s.waiting ∧ s'.allocated = s.allocated ∧ s'.pending = s.pending ∧
      s'.settings = s.settings := by
  simp only [control, queues, Prod.mk.injEq] at h
  exact ⟨h.1.1, h.1.2.1, h.1.2.2, h.2⟩

/-- A part of the scheduler in which the managers have no part. -/
def Aside {γ : Type} (f : Scheduler → γ) : Prop := ∀ s d m, f (set_block_manager s d m) = f s

theorem control_aside : Aside control := fun _ d _ => by cases d <;> rfl

theorem Aside.on_device {α γ : Type} {f : Scheduler → γ} (h : Aside f) (d : Device) (x : BM α) :
    Keeps f (on_device d x) :=
  Keeps.zoom fun m s => h s d m

theorem on_device_keeps {α : Type} (d : Device) (x : BM α) : Keeps control (on_device d x) :=
  control_aside.on_device d x

theorem on_device_ok {α : Type} {d : Device} {x : BM α} {s s' : Scheduler} {a : α}
    (h : on_device d x s = .ok a s') :
    ∃ m, x (s.get_block_manager d) = .ok a m ∧ s' = s.set_block_manager d m :=
  zoom_ok.1 h

/-! ### Requests -/

theorem pend_keeps {γ : Type} {f : Scheduler → γ} (hf : ∀ s pending, f { s with pending := pending } = f s)
    (t : InferTask) : Keeps f (pend t) := by
  refine Keeps.get.bind fun s => Keeps.bind (Keeps.modify fun s => hf s _) fun _ => ?_
  split
  · exact Keeps.throw _
  · exact Keeps.pure _

theorem pend_ok {t : InferTask} {s s' : Scheduler} (h : pend t s = .ok .unit s') :
    s.pending.lookup t.session_id = none ∧
      s' = { s with pending := s.pending.insert t.session_id t } := by
  obtain ⟨_, _, hget, h⟩ := bind_ok.1 h
  obtain ⟨rfl, rfl⟩ : _ ∧ _ := by simpa using hget
  obtain ⟨_, s₁, hmod, h⟩ := bind_ok.1 h
  obtain rfl : { s with pending := s.pending.insert t.session_id t } = s₁ := by simpa using hmod
  cases hold : s.pending.lookup t.session_id with
  | some u => simp only [hold] at h; simp at h
  | none =>
    simp only [hold] at h
    obtain rfl : _ = s' := by simpa using h
    exact ⟨rfl, rfl⟩

theorem Aside.activate_region {γ : Type} {f : Scheduler → γ} (h : Aside f) (region_id : Option Nat)
    (hash_values : List Nat) : Keeps f (activate_region region_id hash_values) := by
  unfold Scheduler.activate_region
  split
  · exact h.on_device _ _
  · exact Keeps.pure _

theorem activate_region_keeps [Hasher] (region_id : Option Nat) (hash_values : List Nat) :
    Keeps control (activate_region region_id hash_values) :=
  control_aside.activate_region region_id hash_values

theorem trigger_pend_task_ok [Hasher] {session_id : Nat} {region_id : Option Nat}
    {hash_values : List Nat} {s s' : Scheduler}
    (h : trigger_pend_task session_id region_id hash_values s = .ok .unit s') :
    ∃ t, s.pending.lookup session_id = some t ∧ s'.waiting = insert_sorted s.waiting t ∧
      s'.allocated = s.allocated ∧ s'.pending = s.pending.erase session_id := by
  obtain ⟨_, _, hget, h⟩ := bind_ok.1 h
  obtain ⟨rfl, rfl⟩ : _ ∧ _ := by simpa using hget
  cases hp : s.pending.lookup session_id with
  | none => simp only [hp] at h; simp at h
  | some t =>
    simp only [hp] at h
    obtain ⟨_, s₁, hmod, h⟩ := bind_ok.1 h
    obtain rfl : { s with pending := s.pending.erase session_id } = s₁ := by simpa using hmod
    obtain ⟨_, s₂, hact, h⟩ := bind_ok.1 h
    obtain ⟨hW₂, hA₂, hP₂, -⟩ := control_eq ((activate_region_keeps _ _).of_ok hact)
    cases hh : t.get_head_seq with
    | none => simp only [hh] at h; simp at h
    | some head =>
      simp only [hh] at h
      obtain ⟨_, s₃, hdev, h⟩ := bind_ok.1 h
      obtain ⟨hW₃, hA₃, hP₃, -⟩ := control_eq ((on_device_keeps _ _).of_ok hdev)
      obtain rfl : { s₃ with waiting := insert_sorted s₃.waiting t } = s' := by simpa using h
      exact ⟨t, rfl, by simp only [hW₃, hW₂], hA₃.trans hA₂, hP₃.trans hP₂⟩

/-! ### Tasks -/

theorem watch_ok {σ : Type} {c : Bool} {s s' : σ} (h : watch c s = .ok .unit s') :
    c = true ∧ s = s' := by
  unfold watch at h
  split at h
  · obtain rfl : s = s' := by simpa using h
    exact ⟨‹_›, rfl⟩
  · simp at h

theorem watch_keeps {σ γ : Type} (f : σ → γ) (c : Bool) :
    Keeps f (watch c : EStateM Panic σ PUnit) := Keeps.ite (Keeps.pure _) (Keeps.throw _)

section
variable [Watch]

theorem preempt_infer_task_ok {t t' : InferTask} {s s' : Scheduler}
    (h : preempt_infer_task t s = .ok t' s') : s'.control = s.control ∧ t'.ident = t.ident := by
  obtain ⟨_, s₀, hw, h⟩ := bind_ok.1 h
  obtain ⟨-, rfl⟩ := watch_ok hw
  obtain ⟨_, s₁, hf, h⟩ := bind_ok.1 h
  obtain ⟨rfl, rfl⟩ : _ = t' ∧ s₁ = s' := by simpa using h
  refine ⟨(Keeps.forM (fun _ => on_device_keeps _ _) _).of_ok hf, ?_⟩
  simp only [InferTask.ident, InferTask.keys, Prod.mk.injEq, true_and, List.map_map]
  refine List.map_congr_left fun seq _ => ?_
  simp only [Function.comp_apply]
  split
  · rfl
  · rfl

end

section
variable [Hasher]

theorem try_extend_infer_task_keeps [Watch] (t : InferTask) (w : Watermark) (d : Device) :
    Keeps control (try_extend_infer_task t w d) :=
  (on_device_keeps d _).bind fun _ => (watch_keeps _ _).bind fun _ => Keeps.pure _

theorem can_alloc_infer_task_keeps (t : InferTask) (k : Nat) (w : Watermark) (d : Device) :
    Keeps control (can_alloc_infer_task t k w d) :=
  (on_device_keeps d _).bind fun _ => Keeps.pure _

variable [Watch]

theorem try_alloc_loop_keys (w : Watermark) (l : List Sequence) :
    ∀ {m m' : BlockManager} {r : Nat × List Sequence}, try_alloc_loop w l m = .ok r m' →
      r.2.map Sequence.key = l.map Sequence.key := by
  induction l with
  | nil =>
    intro m m' r h
    obtain ⟨rfl, -⟩ : (0, []) = r ∧ _ := by simpa [try_alloc_loop] using h
    rfl
  | cons seq l ih =>
    intro m m' r h
    rw [try_alloc_loop] at h
    split at h
    · obtain ⟨k, m₁, -, h⟩ := bind_ok.1 h
      obtain ⟨m₂, m₃, -, h⟩ := bind_ok.1 h
      split at h
      · obtain ⟨_, m₄, -, h⟩ := bind_ok.1 h
        obtain ⟨_, m₅, -, h⟩ := bind_ok.1 h
        obtain ⟨_, m₆, -, h⟩ := bind_ok.1 h
        obtain ⟨_, m₇, -, h⟩ := bind_ok.1 h
        obtain ⟨⟨j, l'⟩, m₈, hl, h⟩ := bind_ok.1 h
        obtain ⟨rfl, -⟩ : _ = r ∧ _ := by simpa using h
        simp only [List.map_cons, List.cons.injEq]
        exact ⟨rfl, ih hl⟩
      · obtain ⟨rfl, -⟩ : _ = r ∧ _ := by simpa using h
        rfl
    · obtain ⟨⟨j, l'⟩, m₁, hl, h⟩ := bind_ok.1 h
      obtain ⟨rfl, -⟩ : _ = r ∧ _ := by simpa using h
      simp only [List.map_cons, List.cons.injEq, true_and]
      exact ih hl

theorem try_alloc_infer_task_ok {t : InferTask} {w : Watermark} {d : Device} {s s' : Scheduler}
    {r : Bool × InferTask} (h : try_alloc_infer_task t w d s = .ok r s') :
    s'.control = s.control ∧ r.2.ident = t.ident := by
  obtain ⟨⟨k, seqs⟩, s₁, hd, h⟩ := bind_ok.1 h
  obtain ⟨_, _, hw, h⟩ := bind_ok.1 h
  obtain ⟨-, rfl⟩ := watch_ok hw
  obtain ⟨rfl, rfl⟩ : _ = r ∧ s₁ = s' := by simpa using h
  obtain ⟨m, hm, -⟩ := on_device_ok hd
  refine ⟨(on_device_keeps d _).of_ok hd, ?_⟩
  simp only [InferTask.ident, InferTask.keys, Prod.mk.injEq, true_and]
  exact try_alloc_loop_keys w _ hm

end

/-! ### Dispatch -/

theorem plan_copy_keeps (seq : Sequence) (d d' : Device) (p : Bool) (l : List BlockMapping) :
    Keeps control (plan_copy seq d d' p l) := by
  refine Keeps.get.bind fun s => ?_
  split
  · exact (on_device_keeps _ _).bind fun _ => Keeps.pure _
  · exact Keeps.pure _

theorem dispatch_input_keeps (seq : Sequence) (acc : Batch) :
    Keeps control (dispatch_input seq acc) := by
  refine Keeps.get.bind fun s => Keeps.ite ?_ (Keeps.pure _)
  split
  · exact Keeps.pure _
  · exact (on_device_keeps _ _).bind fun _ => (plan_copy_keeps _ _ _ _ _).bind fun _ => Keeps.pure _

theorem dispatch_loop_keeps (seqs : List Sequence) (acc : Batch) :
    Keeps control (dispatch_loop seqs acc) := by
  induction seqs generalizing acc with
  | nil => exact Keeps.pure _
  | cons seq seqs ih =>
    refine Keeps.get.bind fun s => Keeps.ite (Keeps.pure _) ?_
    refine (plan_copy_keeps _ _ _ _ _).bind fun _ => ?_
    exact (dispatch_input_keeps _ _).bind fun _ => ih _

theorem dispatch_keeps : Keeps control dispatch :=
  Keeps.get.bind fun _ => dispatch_loop_keeps _ _

/-- Where the chunk dispatched for a sequence starts. -/
def chunk_start (s : Scheduler) (seq : Sequence) : Nat :=
  min (s.gpu_block_manager.get_filled_token_len seq.seq_id) (seq.token_ids.length - 1)

/-- How long it is. -/
def chunk_len (s : Scheduler) (seq : Sequence) (token_budget : Nat) : Nat :=
  min (seq.token_ids.length - s.chunk_start seq) token_budget

/-- The input built for a chunk. -/
def chunk_input (s : Scheduler) (seq : Sequence) (token_budget : Nat) (block_ids : List Nat) :
    InferInput :=
  .new seq.seq_id
    (Chunk.slice seq.token_ids (s.chunk_start seq) (s.chunk_start seq + s.chunk_len seq token_budget))
    (s.chunk_start seq) (s.chunk_start seq + s.chunk_len seq token_budget) block_ids

theorem length_chunk (s : Scheduler) (seq : Sequence) (token_budget : Nat) :
    (Chunk.slice seq.token_ids (s.chunk_start seq)
      (s.chunk_start seq + s.chunk_len seq token_budget)).length = s.chunk_len seq token_budget := by
  rw [Chunk.length_slice]
  unfold chunk_len chunk_start
  omega

/-- What `dispatch_input` does: nothing, or one input more. -/
theorem dispatch_input_ok {seq : Sequence} {acc acc' : Batch} {s s' : Scheduler}
    (h : dispatch_input seq acc s = .ok acc' s') :
    (acc' = acc ∧ s' = s ∧ (s.chunk_len seq acc.token_budget = 0 ∨
        s.gpu_block_manager.get_block_ids_range seq.seq_id 0
          (s.chunk_start seq + s.chunk_len seq acc.token_budget) true = none)) ∨
      ∃ block_ids k s₁ write_through, 0 < s.chunk_len seq acc.token_budget ∧
        s.gpu_block_manager.get_block_ids_range seq.seq_id 0
          (s.chunk_start seq + s.chunk_len seq acc.token_budget) true = some (block_ids, k) ∧
        on_device .Gpu (BlockManager.update_filled_len seq.seq_id
          (s.chunk_start seq + s.chunk_len seq acc.token_budget)) s = .ok .unit s₁ ∧
        plan_copy seq .Gpu .Host false acc.write_through_block_mappings s₁ = .ok write_through s' ∧
        acc' = { acc with
          token_budget := acc.token_budget - s.chunk_len seq acc.token_budget
          infer_inputs := acc.infer_inputs ++ [s.chunk_input seq acc.token_budget block_ids]
          write_through_block_mappings := write_through
          running_batch := acc.running_batch.insert seq.seq_id
            ⟨s.chunk_start seq + s.chunk_len seq acc.token_budget < seq.token_ids.length⟩ } := by
  obtain ⟨_, _, hget, h⟩ := bind_ok.1 h
  obtain ⟨rfl, rfl⟩ : _ ∧ _ := by simpa using hget
  have hlen := s.length_chunk seq acc.token_budget
  unfold chunk_input
  rw [← chunk_start, ← chunk_len] at h
  generalize s.chunk_len seq acc.token_budget = len at *
  generalize s.chunk_start seq = start at *
  by_cases hpos : 0 < len
  · simp only [hpos, ↓reduceIte] at h
    cases hrange : s.gpu_block_manager.get_block_ids_range seq.seq_id 0 (start + len) true with
    | none =>
      simp only [hrange] at h
      obtain ⟨rfl, rfl⟩ : acc = acc' ∧ s = s' := by simpa using h
      exact .inl ⟨rfl, rfl, .inr rfl⟩
    | some range =>
      simp only [hrange, hlen] at h
      obtain ⟨_, s₁, hfill, h⟩ := bind_ok.1 h
      obtain ⟨wt, s₂, hcopy, h⟩ := bind_ok.1 h
      rw [Nat.add_comm len] at hfill
      simp only [pure_apply, EStateM.Result.ok.injEq] at h
      obtain ⟨rfl, rfl⟩ := h
      rw [Nat.add_comm len]
      exact .inr ⟨range.1, range.2, s₁, wt, hpos, rfl, hfill, hcopy, rfl⟩
  · simp only [hpos, ↓reduceIte] at h
    obtain ⟨rfl, rfl⟩ : acc = acc' ∧ s = s' := by simpa using h
    exact .inl ⟨rfl, rfl, .inl (by omega)⟩

/-! ### Scheduling -/

section
variable [Hasher] [Watch]

theorem extend_allocated_tally (fuel : Nat) : ∀ {extended r : List InferTask} {s s' : Scheduler},
    extend_allocated fuel extended s = .ok r s' →
    s'.pending = s.pending ∧ s'.settings = s.settings ∧
      ∀ a, tally a r + tally a s'.waiting =
        tally a extended + tally a s.allocated + tally a s.waiting := by
  induction fuel with
  | zero => intro extended r s s' h; simp [extend_allocated] at h
  | succ fuel ih =>
    intro extended r s s' h
    obtain ⟨_, _, hget, h⟩ := bind_ok.1 h
    obtain ⟨rfl, rfl⟩ : _ ∧ _ := by simpa using hget
    cases hA : s.allocated with
    | nil =>
      rw [hA] at h
      obtain ⟨rfl, rfl⟩ : extended = r ∧ s = s' := by simpa using h
      exact ⟨rfl, rfl, fun a => by simp⟩
    | cons t queue =>
      rw [hA] at h
      dsimp only at h
      obtain ⟨_, s₁, hmod, h⟩ := bind_ok.1 h
      obtain rfl : { s with allocated := queue } = s₁ := by simpa using hmod
      obtain ⟨ok, s₂, hext, h⟩ := bind_ok.1 h
      obtain ⟨hW₂, hA₂, hP₂, hS₂⟩ := control_eq ((try_extend_infer_task_keeps t _ _).of_ok hext)
      split at h
      · obtain ⟨_, s₃, hext', h⟩ := bind_ok.1 h
        obtain ⟨hW₃, hA₃, hP₃, hS₃⟩ := control_eq ((try_extend_infer_task_keeps t _ _).of_ok hext')
        obtain ⟨hP, hS, hT⟩ := ih h
        refine ⟨hP.trans (hP₃.trans hP₂), hS.trans (hS₃.trans hS₂), fun a => ?_⟩
        have hT := hT a
        rw [hW₃, hW₂, hA₃, hA₂] at hT
        simp only [tally_append, tally_cons, tally_nil] at hT ⊢
        omega
      · cases hlast : queue.getLast? with
        | some last =>
          simp only [hlast] at h
          obtain ⟨_, s₃, hmod₃, h⟩ := bind_ok.1 h
          obtain rfl : { s₂ with allocated := queue.dropLast } = s₃ := by simpa using hmod₃
          obtain ⟨t', s₄, hpre, h⟩ := bind_ok.1 h
          obtain ⟨hc, hid⟩ := preempt_infer_task_ok hpre
          obtain ⟨hW₄, hA₄, hP₄, hS₄⟩ := control_eq hc
          obtain ⟨_, s₅, hmod₅, h⟩ := bind_ok.1 h
          simp only [modify_apply, EStateM.Result.ok.injEq, true_and] at hmod₅
          obtain ⟨hP, hS, hT⟩ := ih h
          rw [← hmod₅] at hP hS hT
          refine ⟨hP.trans (hP₄.trans hP₂), hS.trans (hS₄.trans hS₂), fun a => ?_⟩
          have hT := hT a
          have hsplit : tally a queue = tally a queue.dropLast + one a last := by
            conv_lhs => rw [← List.dropLast_append_getLast? last hlast]
            simp
          simp only [tally_insert_sorted, tally_cons, hW₄, hA₄, hW₂] at hT
          rw [one_congr a hid] at hT
          simp only [tally_cons, hsplit]
          omega
        | none =>
          simp only [hlast] at h
          rw [List.getLast?_eq_none_iff] at hlast
          obtain ⟨_, _, hw, h⟩ := bind_ok.1 h
          obtain ⟨-, rfl⟩ := watch_ok hw
          obtain ⟨_, s₃, hmod₃, h⟩ := bind_ok.1 h
          simp only [modify_apply, EStateM.Result.ok.injEq, true_and] at hmod₃
          obtain ⟨rfl, rfl⟩ : extended = r ∧ s₃ = s' := by simpa using h
          rw [← hmod₃, hlast]
          refine ⟨hP₂, hS₂, fun a => ?_⟩
          simp only [tally_insert_sorted, hW₂, tally_cons, tally_nil]
          omega

theorem extend_tasks_tally {s s' : Scheduler} (h : extend_tasks s = .ok .unit s') :
    s'.pending = s.pending ∧ s'.settings = s.settings ∧
      ∀ a, tally a s'.waiting + tally a s'.allocated = tally a s.waiting + tally a s.allocated := by
  obtain ⟨_, _, hget, h⟩ := bind_ok.1 h
  obtain ⟨rfl, rfl⟩ : _ ∧ _ := by simpa using hget
  obtain ⟨r, s₁, hext, h⟩ := bind_ok.1 h
  obtain rfl : { s₁ with allocated := r } = s' := by simpa using h
  obtain ⟨hP, hS, hT⟩ := extend_allocated_tally _ hext
  refine ⟨hP, hS, fun a => ?_⟩
  have := hT a
  simp only [tally_nil] at this ⊢
  omega

theorem admit_in_order_tally (fuel : Nat) : ∀ {s s' : Scheduler},
    admit_in_order fuel s = .ok .unit s' →
    s'.pending = s.pending ∧ s'.settings = s.settings ∧
      ∀ a, tally a s'.waiting + tally a s'.allocated = tally a s.waiting + tally a s.allocated := by
  induction fuel with
  | zero => intro s s' h; simp [admit_in_order] at h
  | succ fuel ih =>
    intro s s' h
    obtain ⟨_, _, hget, h⟩ := bind_ok.1 h
    obtain ⟨rfl, rfl⟩ : _ ∧ _ := by simpa using hget
    cases hW : s.waiting with
    | nil =>
      rw [hW] at h
      obtain rfl : s = s' := by simpa using h
      exact ⟨rfl, rfl, fun a => by rw [hW]⟩
    | cons t queue =>
      rw [hW] at h
      dsimp only at h
      obtain ⟨_, s₁, hmod, h⟩ := bind_ok.1 h
      obtain rfl : { s with waiting := queue } = s₁ := by simpa using hmod
      obtain ⟨⟨ok, t'⟩, s₂, halloc, h⟩ := bind_ok.1 h
      obtain ⟨hc, hid⟩ := try_alloc_infer_task_ok halloc
      obtain ⟨hW₂, hA₂, hP₂, hS₂⟩ := control_eq hc
      dsimp only at h
      split at h
      · obtain ⟨_, s₃, hext, h⟩ := bind_ok.1 h
        obtain ⟨hW₃, hA₃, hP₃, hS₃⟩ := control_eq ((try_extend_infer_task_keeps t' _ _).of_ok hext)
        obtain ⟨_, s₄, hmod₄, h⟩ := bind_ok.1 h
        simp only [modify_apply, EStateM.Result.ok.injEq, true_and] at hmod₄
        obtain ⟨hP, hS, hT⟩ := ih h
        rw [← hmod₄] at hP hS hT
        refine ⟨hP.trans (hP₃.trans hP₂), hS.trans (hS₃.trans hS₂), fun a => ?_⟩
        have hT := hT a
        simp only [tally_append, tally_cons, tally_nil, hW₃, hW₂, hA₃, hA₂] at hT ⊢
        rw [one_congr a hid] at hT
        omega
      · obtain rfl : { s₂ with waiting := t' :: s₂.waiting } = s' := by simpa using h
        refine ⟨hP₂, hS₂, fun a => ?_⟩
        simp only [tally_cons, hW₂, hA₂]
        rw [one_congr a hid]

/-- What a scheduling round may do to the number of tasks with one identity: it stays, unless tasks
are dropped. -/
def Accounts (k k' : Nat) : Prop := k' ≤ k ∧ ((∀ t, Watch.dropped t = false) → k' = k)

omit [Hasher] [Watch] in
theorem split_promoted_append (t : InferTask) (l : List InferTask) :
    (split_promoted t l).1 ++ (split_promoted t l).2 = l := by
  simp only [split_promoted]
  rw [← List.reverse_append, List.takeWhile_append_dropWhile, List.reverse_reverse]

theorem preempt_promoted_tally (promoted : List InferTask) : ∀ {t : InferTask} {s s' : Scheduler},
    preempt_promoted t promoted s = .ok .unit s' →
    s'.pending = s.pending ∧ s'.settings = s.settings ∧
      ∀ a, Accounts (one a t + tally a promoted + tally a s.waiting + tally a s.allocated)
        (tally a s'.waiting + tally a s'.allocated) := by
  induction promoted with
  | nil =>
    intro t s s' h
    obtain ⟨hd, rfl⟩ := watch_ok h
    refine ⟨rfl, rfl, fun a => ⟨by simp only [tally_nil]; omega, fun hw => ?_⟩⟩
    rw [hw t] at hd; cases hd
  | cons u promoted ih =>
    intro t s s' h
    obtain ⟨u', s₁, hpre, h⟩ := bind_ok.1 h
    obtain ⟨hc, hid⟩ := preempt_infer_task_ok hpre
    obtain ⟨hW₁, hA₁, hP₁, hS₁⟩ := control_eq hc
    obtain ⟨_, s₂, hmod, h⟩ := bind_ok.1 h
    obtain rfl : { s₁ with waiting := insert_sorted s₁.waiting u' } = s₂ := by simpa using hmod
    obtain ⟨_, _, hget, h⟩ := bind_ok.1 h
    obtain ⟨rfl, rfl⟩ : _ ∧ _ := by simpa using hget
    obtain ⟨⟨ok, t'⟩, s₃, halloc, h⟩ := bind_ok.1 h
    obtain ⟨hc₃, hid₃⟩ := try_alloc_infer_task_ok halloc
    obtain ⟨hW₃, hA₃, hP₃, hS₃⟩ := control_eq hc₃
    dsimp only at h
    split at h
    · obtain ⟨_, s₄, hext, h⟩ := bind_ok.1 h
      obtain ⟨hW₄, hA₄, hP₄, hS₄⟩ := control_eq ((try_extend_infer_task_keeps t' _ _).of_ok hext)
      obtain rfl : { s₄ with allocated := s₄.allocated ++ t' :: promoted.reverse } = s' := by
        simpa using h
      refine ⟨hP₄.trans (hP₃.trans hP₁), hS₄.trans (hS₃.trans hS₁), fun a => ?_⟩
      simp only [tally_append, tally_cons, tally_reverse, hW₄, hA₄, hW₃, hA₃, tally_insert_sorted, hW₁,
        hA₁]
      rw [one_congr a hid, one_congr a hid₃]
      exact ⟨by omega, fun _ => by omega⟩
    · obtain ⟨hP, hS, hT⟩ := ih h
      refine ⟨hP.trans (hP₃.trans hP₁), hS.trans (hS₃.trans hS₁), fun a => ?_⟩
      have hT := hT a
      simp only [hW₃, hA₃, tally_insert_sorted, hW₁, hA₁] at hT
      rw [one_congr a hid, one_congr a hid₃] at hT
      simp only [tally_cons]
      exact ⟨by have := hT.1; omega, fun hw => by have := hT.2 hw; omega⟩

theorem reorder_round_tally {t : InferTask} {back : List InferTask} {s s' : Scheduler}
    (h : reorder_round t s = .ok back s') :
    s'.pending = s.pending ∧ s'.settings = s.settings ∧
      ∀ a, Accounts (one a t + tally a s.waiting + tally a s.allocated)
        (tally a back + tally a s'.waiting + tally a s'.allocated) := by
  obtain ⟨_, _, hget, h⟩ := bind_ok.1 h
  obtain ⟨rfl, rfl⟩ : _ ∧ _ := by simpa using hget
  obtain ⟨⟨ok, t'⟩, s₁, halloc, h⟩ := bind_ok.1 h
  obtain ⟨hc, hid⟩ := try_alloc_infer_task_ok halloc
  obtain ⟨hW₁, hA₁, hP₁, hS₁⟩ := control_eq hc
  have hone : ∀ a, one a t' = one a t := fun a => one_congr a hid
  dsimp only at h
  split at h
  · obtain ⟨_, s₂, hext, h⟩ := bind_ok.1 h
    obtain ⟨hW₂, hA₂, hP₂, hS₂⟩ := control_eq ((try_extend_infer_task_keeps t' _ _).of_ok hext)
    obtain ⟨_, s₃, hmod, h⟩ := bind_ok.1 h
    obtain rfl : { s₂ with allocated := insert_sorted s₂.allocated t' } = s₃ := by simpa using hmod
    obtain ⟨rfl, rfl⟩ : [] = back ∧ _ = s' := by simpa using h
    refine ⟨hP₂.trans hP₁, hS₂.trans hS₁, fun a => ?_⟩
    simp only [tally_insert_sorted, hW₂, hW₁, hA₂, hA₁, hone, tally_nil]
    exact ⟨by omega, fun _ => by omega⟩
  · obtain ⟨_, _, hget, h⟩ := bind_ok.1 h
    obtain ⟨rfl, rfl⟩ : _ ∧ _ := by simpa using hget
    have hsplit := split_promoted_append t' s₁.allocated
    obtain ⟨kept, hk⟩ : ∃ kept, kept = (split_promoted t' s₁.allocated).1 := ⟨_, rfl⟩
    obtain ⟨promoted, hp⟩ : ∃ promoted, promoted = (split_promoted t' s₁.allocated).2 := ⟨_, rfl⟩
    have hpair : split_promoted t' s₁.allocated = (kept, promoted) := by rw [hk, hp]
    rw [← hk, ← hp] at hsplit
    rw [hpair] at h
    dsimp only at h
    split at h
    · obtain ⟨rfl, rfl⟩ : [t'] = back ∧ s₁ = s' := by simpa using h
      refine ⟨hP₁, hS₁, fun a => ?_⟩
      simp only [tally_cons, tally_nil, hone, hW₁, hA₁]
      exact ⟨by omega, fun _ => by omega⟩
    · obtain ⟨_, s₂, hmod, h⟩ := bind_ok.1 h
      obtain rfl : { s₁ with allocated := kept } = s₂ := by simpa using hmod
      obtain ⟨ok', s₃, hcan, h⟩ := bind_ok.1 h
      obtain ⟨hW₃, hA₃, hP₃, hS₃⟩ := control_eq ((can_alloc_infer_task_keeps t' _ _ _).of_ok hcan)
      have hsum : ∀ a, tally a s.allocated = tally a kept + tally a promoted := fun a => by
        rw [← hA₁, ← hsplit, tally_append]
      split at h
      · obtain ⟨_, s₄, hpre, h⟩ := bind_ok.1 h
        obtain ⟨rfl, rfl⟩ : [] = back ∧ s₄ = s' := by simpa using h
        obtain ⟨hP, hS, hT⟩ := preempt_promoted_tally _ hpre
        refine ⟨hP.trans (hP₃.trans hP₁), hS.trans (hS₃.trans hS₁), fun a => ?_⟩
        have hT := hT a
        simp only [tally_reverse, hW₃, hA₃, hW₁, hone] at hT
        rw [hsum a]
        simp only [tally_nil]
        exact ⟨by have := hT.1; omega, fun hw => by have := hT.2 hw; omega⟩
      · obtain ⟨_, s₄, hmod₄, h⟩ := bind_ok.1 h
        obtain rfl : { s₃ with allocated := s₃.allocated ++ promoted } = s₄ := by simpa using hmod₄
        obtain ⟨rfl, rfl⟩ : [t'] = back ∧ _ = s' := by simpa using h
        refine ⟨hP₃.trans hP₁, hS₃.trans hS₁, fun a => ?_⟩
        simp only [tally_cons, tally_nil, tally_append, hone, hW₃, hW₁, hA₃]
        rw [hsum a]
        exact ⟨by omega, fun _ => by omega⟩

theorem reorder_loop_tally (fuel : Nat) : ∀ {next next' : List InferTask} {s s' : Scheduler},
    reorder_loop fuel next s = .ok next' s' →
    s'.pending = s.pending ∧ s'.settings = s.settings ∧
      ∀ a, Accounts (tally a next + tally a s.waiting + tally a s.allocated)
        (tally a next' + tally a s'.allocated) := by
  induction fuel with
  | zero => intro next next' s s' h; simp [reorder_loop] at h
  | succ fuel ih =>
    intro next next' s s' h
    obtain ⟨_, _, hget, h⟩ := bind_ok.1 h
    obtain ⟨rfl, rfl⟩ : _ ∧ _ := by simpa using hget
    cases hW : s.waiting with
    | nil =>
      rw [hW] at h
      obtain ⟨rfl, rfl⟩ : next = next' ∧ s = s' := by simpa using h
      exact ⟨rfl, rfl, fun a => ⟨by simp, fun _ => by simp⟩⟩
    | cons t queue =>
      rw [hW] at h
      dsimp only at h
      obtain ⟨_, s₁, hmod, h⟩ := bind_ok.1 h
      obtain rfl : { s with waiting := queue } = s₁ := by simpa using hmod
      obtain ⟨back, s₂, hround, h⟩ := bind_ok.1 h
      obtain ⟨hP₂, hS₂, hT₂⟩ := reorder_round_tally hround
      obtain ⟨hP, hS, hT⟩ := ih h
      refine ⟨hP.trans hP₂, hS.trans hS₂, fun a => ?_⟩
      have hT := hT a
      have hT₂ := hT₂ a
      simp only [tally_append, tally_cons] at hT hT₂ ⊢
      exact ⟨by have := hT.1; have := hT₂.1; omega,
        fun hw => by have := hT.2 hw; have := hT₂.2 hw; omega⟩

/-- Scheduling keeps the tasks in the two queues, unless it drops one. -/
theorem schedule_tally {batch : Batch} {s s' : Scheduler} (h : schedule s = .ok batch s') :
    s'.pending = s.pending ∧ s'.settings = s.settings ∧
      ∀ a, Accounts (tally a s.waiting + tally a s.allocated)
        (tally a s'.waiting + tally a s'.allocated) := by
  obtain ⟨_, s₁, hext, h⟩ := bind_ok.1 h
  obtain ⟨_, s₂, hadm, h⟩ := bind_ok.1 h
  obtain ⟨batch', s₃, hdis, h⟩ := bind_ok.1 h
  obtain ⟨_, s₄, hmod, h⟩ := bind_ok.1 h
  obtain rfl : { s₃ with running_batch := batch'.running_batch } = s₄ := by simpa using hmod
  obtain ⟨-, rfl⟩ : batch' = batch ∧ _ = s' := by simpa using h
  obtain ⟨hW₃, hA₃, hP₃, hS₃⟩ := control_eq (dispatch_keeps.of_ok hdis)
  obtain ⟨hP₁, hS₁, hT₁⟩ := extend_tasks_tally hext
  obtain ⟨hP₂, hS₂, hT₂⟩ : s₂.pending = s₁.pending ∧ s₂.settings = s₁.settings ∧
      ∀ a, Accounts (tally a s₁.waiting + tally a s₁.allocated)
        (tally a s₂.waiting + tally a s₂.allocated) := by
    obtain ⟨_, _, hget, hadm⟩ := bind_ok.1 hadm
    obtain ⟨rfl, rfl⟩ : _ ∧ _ := by simpa using hget
    split at hadm
    · obtain ⟨_, _, hget, hadm⟩ := bind_ok.1 hadm
      obtain ⟨rfl, rfl⟩ : _ ∧ _ := by simpa using hget
      obtain ⟨next, s₄, hloop, hadm⟩ := bind_ok.1 hadm
      obtain rfl : { s₄ with waiting := next } = s₂ := by simpa using hadm
      obtain ⟨hP, hS, hT⟩ := reorder_loop_tally _ hloop
      refine ⟨hP, hS, fun a => ?_⟩
      have := hT a
      simp only [tally_nil, Nat.zero_add] at this
      exact this
    · obtain ⟨hP, hS, hT⟩ := admit_in_order_tally _ hadm
      exact ⟨hP, hS, fun a => ⟨Nat.le_of_eq (hT a), fun _ => hT a⟩⟩
  refine ⟨hP₃.trans (hP₂.trans hP₁), hS₃.trans (hS₂.trans hS₁), fun a => ?_⟩
  have h1 := hT₁ a
  have h2 := hT₂ a
  simp only [hW₃, hA₃]
  exact ⟨by have := h2.1; omega, fun hw => by have := h2.2 hw; omega⟩

end

end Scheduler

end LMServe
