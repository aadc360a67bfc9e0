import Mathlib.Data.List.TakeWhile
import LMServe.Census
import LMServe.Precedence

/-!
# Every request is served

Without reordering, nothing that arrives later gets in front of a task in the queues (`Queued`), and in every round the
first allocated task gets an input that ends further on than its last one (`Lead`). A sequence that has reached the
maximal length is finished, so the first task leaves after so many rounds at most, and the others move up.
-/

namespace LMServe
open Hoare Chunk BlockManager Ledger Ownership

/-- The arrival time in a tag. -/
def arrival (x : Nat × Nat × List Nat) : Nat := x.2.1

/-- Not empty, and of at most `B` tokens while it is active. -/
def Sequence.Short (B : Nat) (seq : Sequence) : Prop :=
  seq.token_ids ≠ [] ∧ (seq.is_active = true → seq.token_ids.length ≤ B)

namespace Op

/-- Any step but a round or its results; a request has one sample and at most `B` tokens, and arrives later than
`a`. -/
def Later (a B : Nat) : Op → Prop
  | .schedule | .update _ _ => False
  | .add_request request arrival_time | .reserve_request request arrival_time =>
    a < arrival_time ∧ request.num_samples = 1 ∧ request.input_ids ≠ [] ∧ request.input_ids.length ≤ B
  | _ => True

/-- The task that a request brings in. -/
def brought (s : System) : Op → List InferTask
  | .add_request request arrival_time | .reserve_request request arrival_time =>
    [request.to_task s.next_seq_id arrival_time]
  | _ => []

section
variable {a B : Nat} {op : Op} {s : System} {t : InferTask}

theorem Later.quiet (h : op.Later a B) : op.Quiet := by
  cases op with
  | schedule | update infer_outputs now => exact h
  | _ => trivial

theorem Later.brought (h : op.Later a B) (ht : t ∈ op.brought s) :
    a < t.arrival_time ∧ t.Lone ∧ t.All (Sequence.Short B) := by
  have hnew : ∀ {request : GenerateRequest} {arrival_time : Nat}, a < arrival_time ∧ request.num_samples = 1 ∧
      request.input_ids ≠ [] ∧ request.input_ids.length ≤ B → t ∈ [request.to_task s.next_seq_id arrival_time] →
        a < t.arrival_time ∧ t.Lone ∧ t.All (Sequence.Short B) := by
    rintro request arrival_time ⟨hlater, hlone, hne, hle⟩ ht
    obtain rfl := List.mem_singleton.1 ht
    refine ⟨hlater, ?_, fun seq hseq => ?_⟩
    · rw [InferTask.Lone, GenerateRequest.to_task, List.length_map, List.length_range, hlone]
    · obtain ⟨k, -, rfl⟩ := List.mem_map.1 hseq
      exact ⟨hne, fun _ => hle⟩
  cases op with
  | add_request request arrival_time | reserve_request request arrival_time => exact hnew h ht
  | _ => cases ht

end

end Op

namespace System

/-- The tags of the tasks that are not finished. -/
def tags (s : System) : List (Nat × Nat × List Nat) :=
  s.scheduler.allocated.map InferTask.tag ++ (s.scheduler.waiting ++ s.parked).map InferTask.tag

theorem count_tags (s : System) (x : Nat × Nat × List Nat) : s.tags.count x = s.census false x := by
  simp only [tags, census, Scheduler.census, parked, listed, List.map_append, List.count_append, Bool.false_eq_true,
    if_false]
  omega

section
variable [Hasher] {a B : Nat} {op : Op} {s s' : System}

/-- Between two rounds only new tasks come in. -/
theorem tags_quiet (hop : op.Quiet) (hs : op.Step s s') :
    s'.tags.Subperm (s.tags ++ (op.brought s).map InferTask.tag) := by
  refine List.subperm_ext_iff.2 fun x _ => ?_
  rw [List.count_append, count_tags, count_tags]
  have hnone : s'.census false x ≤ s.census false x →
      s'.census false x ≤ s.census false x + (([] : List InferTask).map InferTask.tag).count x := fun h => h
  have hdone : ∀ {α : Type} {y : SysM α}, Keeps (census false x) y → Keeps (census false x) (do let _ ← y) :=
    fun hy => hy.bind fun _ => Keeps.pure _
  cases op with
  | schedule | update infer_outputs now => exact hop.elim
  | add_request request arrival_time =>
    obtain ⟨plan, s₁, hrun, hret⟩ := bind_ok.1 hs
    obtain rfl : s₁ = s' := by simpa using hret
    exact (add_request_census request arrival_time s).of_ok hrun
  | reserve_request request arrival_time =>
    obtain ⟨region, s₁, hrun, hret⟩ := bind_ok.1 hs
    obtain rfl : s₁ = s' := by simpa using hret
    exact Nat.le_of_eq ((reserve_request_census request arrival_time s).of_ok hrun)
  | pend_reserved i => exact hnone ((pend_reserved_census i).of_ok hs)
  | trigger session_id region_id hash_values =>
    exact hnone ((on_scheduler_lowers (Scheduler.trigger_pend_task_census _ _ _)).of_ok hs)
  | backup i => exact hnone (Nat.le_of_eq ((hdone (backup_census i)).of_ok hs))
  | remove_task i => exact hnone (Nat.le_of_eq ((remove_task_census i).of_ok hs))
  | commit region =>
    exact hnone (Nat.le_of_eq ((hdone (on_scheduler_census (Scheduler.on_device_keeps _ _))).of_ok hs))
  | pin hash_values => exact hnone (Nat.le_of_eq ((hdone (pin_blocks_census hash_values)).of_ok hs))
  | unpin region => exact hnone (Nat.le_of_eq ((on_scheduler_census (Scheduler.on_device_keeps _ _)).of_ok hs))
  | clear_cache => exact hnone (Nat.le_of_eq ((on_scheduler_census Scheduler.clear_cache_keeps).of_ok hs))

end

/-! ### What holds between the rounds -/

/-- A state of a steady run in which every task has one sequence, of at most `B` tokens while it is active. -/
structure Serving [Hasher] (Occ : List Nat → Prop) (c : SchedulerConfig) (B : Nat) (s : System) : Prop where
  run : ∃ ops, SteadyRun Occ c ops s
  short : s.Each (Sequence.Short B)
  lone : ∀ x ∈ s.tags, x.2.2.length = 1

/-- The task `x` is queued. At most `n` tasks, with itself, arrived no later or are allocated before it. -/
structure Queued [Hasher] (Occ : List Nat → Prop) (c : SchedulerConfig) (B : Nat) (x : Nat × Nat × List Nat) (n : Nat)
    (s : System) : Prop extends Serving Occ c B s where
  place : ∃ k, Turns.Place arrival x (s.scheduler.allocated.map InferTask.tag) (s.scheduler.waiting.map InferTask.tag) k ∧
    k + Turns.earlier arrival x s.tags ≤ n

/-- A step between two rounds. -/
def Between [Hasher] (Occ : List Nat → Prop) (a B : Nat) (s : System) (op : Op) (s' : System) : Prop :=
  (op.Later a B ∧ op.Step s s') ∧ s'.Occurring Occ

section
variable [Hasher] {Occ : List Nat → Prop} {c : SchedulerConfig} {B n : Nat} {x : Nat × Nat × List Nat} {op : Op}
  {ops : List Op} {s s' : System} {t : InferTask} {seq : Sequence} {batch : Scheduler.Batch} {σ : Scheduler}

omit [Hasher] in
theorem steady_short (B : Nat) : Steady (Sequence.Short B) := fun _ _ h hact _ => ⟨h.1, fun _ => h.2 hact⟩

omit [Hasher] in
theorem is_finished_iff_inactive (seq : Sequence) : seq.is_finished = !seq.is_active := by
  cases hst : seq.status <;> simp [Sequence.is_finished, Sequence.is_active, hst]

omit [Hasher] in
theorem lone_of_tag (h : t.tag.2.2.length = 1) : t.Lone := by
  rwa [InferTask.tag, List.length_map] at h

theorem active_of_steady (h : SteadyRun Occ c ops s) (ht : t ∈ s.scheduler.waiting ++ s.scheduler.allocated)
    (hseqs : t.seqs = [seq]) : seq.is_active = true := by
  have hseq : seq ∈ t.seqs := hseqs ▸ List.mem_singleton_self seq
  rcases List.mem_append.1 ht with ht | ht
  · have hwaiting := ((inv_of_steady steadyRounds_noLeftovers gpuStages h).holds
      (@Lifecycle.waiting noLeftovers gpuStages, t)
      (List.mem_append_right _ (List.mem_append_left _ (mem_tag.2 ⟨rfl, ht⟩))) seq hseq).1
    simp [Sequence.is_active, hwaiting]
  · have hheld := (inv_of_steady steadyRounds_evenPasses heldStages h).holds
      (@Lifecycle.allocated evenPasses heldStages, t) (List.mem_append_left _ (mem_tag.2 ⟨rfl, ht⟩))
    by_contra hnot
    refine hheld.1 (List.filter_eq_nil_iff.2 fun y hy => ?_)
    rw [hseqs, List.mem_singleton] at hy
    exact hy ▸ hnot

theorem Serving.seqs_eq (h : Serving Occ c B s) (ht : t ∈ s.scheduler.waiting ++ s.scheduler.allocated) :
    ∃ seq, t.seqs = [seq] ∧ seq.is_active = true ∧ seq.token_ids ≠ [] ∧ seq.token_ids.length ≤ B := by
  have htag : t.tag ∈ s.tags := by
    rcases List.mem_append.1 ht with ht | ht
    · exact List.mem_append_right _ (List.mem_map_of_mem (List.mem_append_left _ ht))
    · exact List.mem_append_left _ (List.mem_map_of_mem ht)
  obtain ⟨seq, hseqs⟩ := List.length_eq_one_iff.1 (lone_of_tag (h.lone _ htag))
  obtain ⟨ops, hrun⟩ := h.run
  have hact := active_of_steady hrun ht hseqs
  have hshort : seq.Short B := by
    rcases List.mem_append.1 ht with ht | ht
    · exact h.short.scheduler.waiting t ht seq (hseqs ▸ List.mem_singleton_self seq)
    · exact h.short.scheduler.allocated t ht seq (hseqs ▸ List.mem_singleton_self seq)
  exact ⟨seq, hseqs, hact, hshort.1, hshort.2 hact⟩

theorem Serving.fits (h : Serving Occ c B s)
    (hB : div_ceil B c.block_size ≤ c.watermark_blocks.limit c.num_gpu_blocks)
    (ht : t ∈ s.scheduler.waiting ++ s.scheduler.allocated) : t.FitsAlone c := by
  obtain ⟨seq, hseqs, -, hne, hle⟩ := h.seqs_eq ht
  exact ⟨seq, hseqs, hne, (div_ceil_mono c.block_size_pos hle).trans hB⟩

/-! ### Between two rounds -/

theorem Serving.later {a : Nat} (h : Serving Occ c B s) (hs : Between Occ a B s op s') : Serving Occ c B s' := by
  obtain ⟨⟨hop, hstep⟩, hocc⟩ := hs
  obtain ⟨ops, hrun⟩ := h.run
  refine ⟨⟨_, hrun.snoc ⟨⟨hstep, ?_⟩, hocc⟩⟩, ?_, fun y hy => ?_⟩
  · cases op with
    | schedule => exact hop.elim
    | _ => rfl
  · refine hop.quiet.each hstep h.short fun request arrival_time heq => ?_
    rcases heq with rfl | rfl <;> exact (hop.brought (s := s) (List.mem_singleton_self _)).2.2
  · rcases List.mem_append.1 ((tags_quiet hop.quiet hstep).subset hy) with hy | hy
    · exact h.lone y hy
    · obtain ⟨t, ht, rfl⟩ := List.mem_map.1 hy
      rw [InferTask.tag, List.length_map]
      exact (hop.brought ht).2.1

theorem Queued.later (h : Queued Occ c B x n s) (hs : Between Occ (arrival x) B s op s') : Queued Occ c B x n s' := by
  have hserving := h.toServing.later hs
  obtain ⟨⟨hop, hstep⟩, -⟩ := hs
  obtain ⟨k, hplace, hle⟩ := h.place
  refine ⟨hserving, k, ?_, (Nat.add_le_add_left ?_ k).trans hle⟩
  · have hA : s'.scheduler.allocated = s.scheduler.allocated := congrArg Prod.fst (hop.quiet.frozen hstep)
    rw [hA]
    refine hplace.wait fun hwaits => ?_
    cases op with
    | add_request request arrival_time =>
      obtain ⟨plan, s₁, hrun, hret⟩ := bind_ok.1 hstep
      obtain rfl : s₁ = s' := by simpa using hret
      obtain ⟨σ, σ₁, σ₂, plan', -, -, rfl, -, -, hqueues⟩ := add_request_ok hrun
      rcases hqueues with ⟨hwaiting, -⟩ | ⟨hwaiting, -⟩
      · rw [hwaiting, List.map_append]
        exact hwaits.append _
      · rwa [hwaiting]
    | trigger session_id region_id hash_values =>
      obtain ⟨σ, hσ, rfl⟩ := on_scheduler_ok hstep
      obtain ⟨u, -, hwaiting, -⟩ := Scheduler.trigger_pend_task_ok hσ
      have hinsert : (insert_sorted s.scheduler.waiting u).map InferTask.tag = Turns.insert arrival _ u.tag :=
        @Scheduler.map_insert_sorted _ InferTask.tag arrival (fun _ => rfl) _ u
      rw [hwaiting, hinsert]
      exact hwaits.insert u.tag
    | _ => exact hop.quiet.waiting_eq hstep (fun _ _ h => by cases h) (fun _ _ _ h => by cases h) ▸ hwaits
  · refine ((tags_quiet hop.quiet hstep).countP_le _).trans (Nat.le_of_eq ?_)
    rw [List.countP_append]
    refine Nat.add_eq_left.2 (List.countP_eq_zero.2 fun y hy => ?_)
    obtain ⟨t, ht, rfl⟩ := List.mem_map.1 hy
    rw [decide_eq_true_iff, Nat.not_le]
    exact (hop.brought ht).1

/-! ### A round -/

/-- The first allocated task has one sequence, which is filled up to `filled`. Nothing is said where that is `0`. -/
def Lead (filled : Nat) (s : System) : Prop :=
  filled = 0 ∨ ∃ t rest seq, s.scheduler.allocated = t :: rest ∧ t.seqs = [seq] ∧ filled < seq.token_ids.length ∧
    s.scheduler.Reaches seq.seq_id filled

theorem Serving.settings (h : Serving Occ c B s) : s.scheduler.max_batch_size = c.max_batch_size ∧
    s.scheduler.max_seq_len = c.max_seq_len ∧ s.scheduler.max_num_batched_tokens = c.max_num_batched_tokens ∧
    s.scheduler.enable_reorder = c.enable_reorder := by
  obtain ⟨ops, hrun⟩ := h.run
  have hnew := settings_of_run (hrun.mono fun _ _ _ hs => hs.1.1)
  simp only [System.settings, Scheduler.settings, new, Scheduler.new, Prod.mk.injEq] at hnew
  exact ⟨hnew.1, hnew.2.1, hnew.2.2.1, hnew.2.2.2.1⟩

theorem phases_of_schedule (hrun : Scheduler.schedule s.scheduler = .ok batch σ) : ∃ σ₁ σ₂,
    Scheduler.phases s.scheduler = .ok .unit σ₁ ∧ Scheduler.dispatch σ₁ = .ok batch σ₂ ∧
      σ.waiting = σ₁.waiting ∧ σ.allocated = σ₁.allocated ∧ σ₁.settings = s.scheduler.settings := by
  have hsettings := (Scheduler.schedule_tally hrun).2.1
  rw [Scheduler.schedule_eq] at hrun
  obtain ⟨_, σ₁, hphases, hrun⟩ := bind_ok.1 hrun
  obtain ⟨batch', σ₂, hdispatch, hrun⟩ := bind_ok.1 hrun
  obtain ⟨_, σ₃, hmod, hrun⟩ := bind_ok.1 hrun
  obtain rfl : { σ₂ with running_batch := batch'.running_batch } = σ₃ := by simpa using hmod
  obtain ⟨rfl, rfl⟩ : batch' = batch ∧ _ = σ := by simpa using hrun
  obtain ⟨hW, hA, -, hS⟩ := Scheduler.control_eq (Scheduler.dispatch_keeps.of_ok hdispatch)
  exact ⟨σ₁, σ₂, hphases, hdispatch, hW, hA, hS.symm.trans hsettings⟩

theorem tags_schedule (hrun : Scheduler.schedule s.scheduler = .ok batch σ) :
    ({ s with scheduler := σ } : System).tags.Subperm s.tags := by
  refine List.subperm_ext_iff.2 fun x _ => ?_
  rw [count_tags, count_tags]
  exact Nat.add_le_add_right (Scheduler.schedule_census hrun) _

theorem Serving.schedule (h : Serving Occ c B s) (hc : Op.schedule.careful steadyRounds s = true)
    (hrun : Scheduler.schedule s.scheduler = .ok batch σ) (hocc : ({ s with scheduler := σ } : System).Occurring Occ) :
    Serving Occ c B { s with scheduler := σ } := by
  obtain ⟨ops, hsteady⟩ := h.run
  have hstep : Op.Step s .schedule { s with scheduler := σ } := bind_ok.2 ⟨batch, _, zoom_ok.2 ⟨σ, hrun, rfl⟩, rfl⟩
  exact ⟨⟨_, hsteady.snoc ⟨⟨hstep, hc⟩, hocc⟩⟩,
    ⟨((Scheduler.schedule_each (steady_short B)).ends h.short.scheduler).of_ok hrun, h.short.reserving, h.short.finished⟩,
    fun y hy => h.lone y ((tags_schedule hrun).subset hy)⟩

theorem Queued.schedule (hreorder : c.enable_reorder = false) (h : Queued Occ c B x n s)
    (hc : Op.schedule.careful steadyRounds s = true) (hrun : Scheduler.schedule s.scheduler = .ok batch σ)
    (hocc : ({ s with scheduler := σ } : System).Occurring Occ) : Queued Occ c B x n { s with scheduler := σ } := by
  obtain ⟨k, hplace, hle⟩ := h.place
  obtain ⟨σ₁, σ₂, hphases, -, hW, hA, -⟩ := phases_of_schedule hrun
  have hwatched := Scheduler.phases_watched steadyRounds (by simpa [Op.careful] using hc) hphases
  obtain ⟨kept, gone, adm, hold, hwait, hnew, -⟩ := @Scheduler.phases_order _ steadyRounds _ InferTask.tag arrival
    (fun t t' hid => by
      simp only [InferTask.ident, Prod.mk.injEq] at hid
      have hids : t.ids = t'.ids := by
        have := congrArg (List.map Prod.fst) hid.2.2
        simpa [InferTask.keys, InferTask.ids, Sequence.key, Function.comp_def] using this
      exact Prod.ext hid.1 (Prod.ext hid.2.1 hids)) (fun _ => rfl) (fun _ => rfl) _ _
      (h.settings.2.2.2.trans hreorder) hwatched
  rw [hold] at hplace
  obtain ⟨k', hk', hplace⟩ := hplace.requeue hwait
  refine ⟨h.toServing.schedule hc hrun hocc, k', ?_, (Nat.add_le_add hk' ((tags_schedule hrun).countP_le _)).trans hle⟩
  rw [hA, hW, hnew]
  exact hplace

theorem key_of_schedule (hnd : ((LMServe.keys (s.scheduler.waiting ++ s.scheduler.allocated)).map Prod.fst).Nodup)
    (hrun : Scheduler.schedule s.scheduler = .ok batch σ) {u u' : InferTask} {seq' : Sequence}
    (ht : u ∈ s.scheduler.waiting ++ s.scheduler.allocated) (hseq : seq ∈ u.seqs) (hu : u' ∈ σ.waiting ++ σ.allocated)
    (hseq' : seq' ∈ u'.seqs) (hid : seq'.seq_id = seq.seq_id) : seq'.token_ids = seq.token_ids :=
  congrArg Prod.snd (List.inj_on_of_nodup_map hnd ((Scheduler.schedule_keys hrun).subset (key_mem_keys hu hseq'))
    (key_mem_keys ht hseq) hid)

theorem Serving.allocated_ne_nil {σ₁ : Scheduler} (hz : ∀ P, Occ P → compute_hash P ≠ 0)
    (hreorder : c.enable_reorder = false)
    (hB : div_ceil B c.block_size ≤ c.watermark_blocks.limit c.num_gpu_blocks) (h : Serving Occ c B s)
    (hne : s.scheduler.waiting ++ s.scheduler.allocated ≠ [])
    (hremoved : s.scheduler.allocated = [] → s.finished = [])
    (hrun : @Scheduler.phases _ steadyRounds s.scheduler = .ok .unit σ₁) : σ₁.allocated ≠ [] := by
  by_cases hnil : s.scheduler.allocated = []
  · obtain ⟨ops, hsteady⟩ := h.run
    exact phases_fill hz hsteady (hremoved hnil) hne (fun t ht => h.fits hB ht) hrun
  · obtain ⟨kept, gone, adm, -, -, hnew, hkept⟩ := @Scheduler.phases_order _ steadyRounds _ InferTask.ident
      (fun a => a.2.1) (fun _ _ hid => hid) (fun _ => rfl) (fun _ => rfl) _ _ (h.settings.2.2.2.trans hreorder) hrun
    intro hσ₁
    rw [hσ₁, List.map_nil] at hnew
    exact hkept hnil (List.append_eq_nil_iff.1 hnew.symm).1

theorem Serving.ident_first {σ₁ : Scheduler} {t₀ : InferTask} {rest rest₀ : List InferTask}
    (hreorder : c.enable_reorder = false) (h : Serving Occ c B s) (hA₀ : s.scheduler.allocated = t₀ :: rest₀)
    (hrun : @Scheduler.phases _ steadyRounds s.scheduler = .ok .unit σ₁) (hA : σ₁.allocated = t :: rest) :
    t.ident = t₀.ident := by
  obtain ⟨kept, gone, adm, hold, -, hnew, hkept⟩ := @Scheduler.phases_order _ steadyRounds _ InferTask.ident
    (fun a => a.2.1) (fun _ _ hid => hid) (fun _ => rfl) (fun _ => rfl) _ _ (h.settings.2.2.2.trans hreorder) hrun
  rw [hA₀, List.map_cons] at hold
  rw [hA, List.map_cons] at hnew
  cases kept with
  | nil => exact absurd rfl (hkept (hA₀ ▸ List.cons_ne_nil _ _))
  | cons a kept => exact (List.cons.inj hnew).1.trans (List.cons.inj hold).1.symm

omit [Hasher] in
theorem not_mem_tail {waiting allocated rest : List InferTask}
    (hnd : ((LMServe.keys (waiting ++ allocated)).map Prod.fst).Nodup) (hA : allocated = t :: rest) (hseq : seq ∈ t.seqs) :
    ∀ u ∈ allocated.tail, seq.seq_id ∉ u.ids := by
  intro u hu hmem
  rw [keys_append, List.map_append] at hnd
  replace hnd := (List.nodup_append.1 hnd).2.1
  rw [hA, LMServe.keys, List.flatMap_cons, List.map_append] at hnd
  obtain ⟨z, hz, hzid⟩ := List.mem_map.1 hmem
  have hfirst : seq.seq_id ∈ t.keys.map Prod.fst := List.mem_map.2 ⟨seq.key, List.mem_map.2 ⟨seq, hseq, rfl⟩, rfl⟩
  exact (List.nodup_append.1 hnd).2.2 seq.seq_id hfirst _
    (List.mem_map.2 ⟨z.key, key_mem_keys (by rwa [hA] at hu) hz, hzid⟩) rfl

/-- The first allocated task gets an input, which ends further on. -/
theorem Serving.first {filled : Nat} (hz : ∀ P, Occ P → compute_hash P ≠ 0) (hreorder : c.enable_reorder = false)
    (hsize : 0 < c.max_batch_size) (hbudget : 0 < c.max_num_batched_tokens)
    (hB : div_ceil B c.block_size ≤ c.watermark_blocks.limit c.num_gpu_blocks) (h : Serving Occ c B s)
    (hne : s.scheduler.waiting ++ s.scheduler.allocated ≠ [])
    (hremoved : s.scheduler.allocated = [] → s.finished = []) (hc : Op.schedule.careful steadyRounds s = true)
    (hrun : Scheduler.schedule s.scheduler = .ok batch σ) (hlead : Lead filled s) :
    ∃ t rest seq y, σ.allocated = t :: rest ∧ t.seqs = [seq] ∧ y ∈ batch.infer_inputs ∧ y.seq_id = seq.seq_id ∧
      filled < y.context_len ∧ Awaiting y.seq_id y.context_len { s with scheduler := σ } := by
  obtain ⟨ops, hsteady⟩ := h.run
  obtain ⟨tok, hinv⟩ := sysInv_of_steady hz hsteady
  have hnd := hinv.keys_queues.nodup
  obtain ⟨hset, -, hset', hset''⟩ := h.settings
  obtain ⟨σ₁, σ₂, hphases, hdispatch, -, hA, hS⟩ := phases_of_schedule hrun
  have hwatched := Scheduler.phases_watched steadyRounds (by simpa [Op.careful] using hc) hphases
  obtain ⟨t, rest, hfirst⟩ := List.exists_cons_of_ne_nil (h.allocated_ne_nil hz hreorder hB hne hremoved hwatched)
  rw [← hA] at hfirst
  have ht : t ∈ σ.waiting ++ σ.allocated := List.mem_append_right _ (hfirst ▸ List.mem_cons_self)
  have hfits : t.FitsAlone c := by
    have hle := ((Scheduler.schedule_tally hrun).2.2 t.ident).1
    rw [← tally_append, ← tally_append] at hle
    obtain ⟨u, hu, hid⟩ := exists_of_tally hle ht
    exact (h.fits hB hu).of_ident hid.symm
  obtain ⟨seq, rest', b, hseqs, hcand, htokens, hb, hblocks⟩ :=
    first_candidate_of_steady hz hsteady hc hphases (hA ▸ hfirst) hfits
  simp only [Scheduler.settings, Prod.mk.injEq] at hS
  obtain ⟨y, hy, hid⟩ := Scheduler.dispatch_first (by rw [hS.1, hset]; exact hsize)
    (by rw [hS.2.2.1, hset']; exact hbudget) hcand htokens hb hblocks hdispatch
  have hocc : OccRun Occ c ops s := hsteady.mono fun _ _ _ hs => ⟨hs.1.1, hs.2⟩
  have hbudgeted := Scheduler.schedule_budgeted (settings_of_run (hocc.mono fun _ _ _ hs => hs.1)) hnd hrun
  refine ⟨t, rest, seq, y, hfirst, hseqs, hy, hid, ?_, awaiting_of_schedule hz hocc hrun hbudgeted hy⟩
  obtain ⟨u, hu, x, hx, -, hchunk, -⟩ := hbudgeted.chunks y hy
  rw [hchunk.context_len]
  have hpos := hchunk.pos
  rcases hlead with rfl | ⟨t₀, rest₀, seq₀, hA₀, hseqs₀, hlt, hreach⟩
  · omega
  · -- the first task is the one that was first before
    have hkey : seq.key = seq₀.key := by
      have hkeys := InferTask.keys_of_ident (h.ident_first hreorder hA₀ hwatched (hA ▸ hfirst))
      simpa [InferTask.keys, hseqs, hseqs₀] using hkeys
    have hid₀ : y.seq_id = seq₀.seq_id := hid.trans (congrArg Prod.fst hkey)
    have ht₀ : t₀ ∈ s.scheduler.waiting ++ s.scheduler.allocated :=
      List.mem_append_right _ (hA₀ ▸ List.mem_cons_self)
    have hseq₀ : seq₀ ∈ t₀.seqs := hseqs₀ ▸ List.mem_singleton_self _
    have htail := not_mem_tail hnd hA₀ hseq₀
    obtain ⟨hresumes, -⟩ := hreach.schedule (Scheduler.unpreempted_first (hset''.trans hreorder) htail hrun) hnd hrun
    obtain ⟨x', hx', hxid, hfilled⟩ := hresumes y hy hid₀
    obtain ⟨u', hu', hmem', -⟩ := Scheduler.mem_candidates.1 hx'
    rw [key_of_schedule hnd hrun ht₀ hseq₀ (List.mem_append_right _ hu') hmem' hxid] at hfilled
    omega

/-! ### The results -/

section
variable {max_seq_len now m : Nat} {running_batch : Table BatchEntry} {infer_outputs : Table InferOutput}
  {rest : List InferTask}

omit [Hasher] in
theorem update_seq_short (h : seq.Short B) (hmax : max_seq_len ≤ B) :
    (Scheduler.update_seq max_seq_len running_batch infer_outputs now seq).Short B := by
  unfold Scheduler.update_seq
  split
  · split
    · exact h
    · have hne : ∀ tok, seq.token_ids ++ [tok] ≠ [] := fun tok => List.append_ne_nil_of_right_ne_nil _ (List.cons_ne_nil _ _)
      dsimp only
      split
      · exact ⟨hne _, fun hact => by simp [Sequence.is_active] at hact⟩
      · rename_i hgo
        simp only [Bool.or_eq_true, not_or, decide_eq_true_eq, Nat.not_le] at hgo
        exact ⟨hne _, fun _ => (Nat.le_of_lt hgo.2.2).trans hmax⟩
  · exact h

omit [Hasher] in
theorem update_task_tag (t : InferTask) :
    (Scheduler.update_task max_seq_len running_batch infer_outputs now t).tag = t.tag := by
  refine Prod.ext rfl (Prod.ext rfl ?_)
  show List.map _ (List.map _ t.seqs) = List.map _ t.seqs
  rw [List.map_map]
  refine List.map_congr_left fun seq _ => ?_
  simp only [Function.comp_apply]
  split
  · exact (update_seq_key _ _ _ _ seq).1
  · rfl

theorem update_queues (hs : Op.Step s (.update infer_outputs now) s') :
    let update := Scheduler.update_task s.scheduler.max_seq_len s.scheduler.running_batch infer_outputs now
    s'.scheduler.allocated = (s.scheduler.allocated.filter fun t => !(update t).is_finished).map update ∧
      s'.scheduler.waiting = s.scheduler.waiting ∧ s'.parked = s.parked ∧
      s'.finished = s.finished ++ (s.scheduler.allocated.filter fun t => (update t).is_finished).map update := by
  obtain rfl := update_step hs
  refine ⟨?_, rfl, rfl, ?_⟩
  · show List.filter _ (List.map _ _) = _
    rw [List.filter_map]
    rfl
  · show s.finished ++ List.filter _ (List.map _ _) = _
    rw [List.filter_map]
    rfl

theorem Serving.update (hmax : c.max_seq_len ≤ B) (h : Serving Occ c B s)
    (hs : Op.Step s (.update infer_outputs now) s') (hocc : s'.Occurring Occ) : Serving Occ c B s' := by
  obtain ⟨ops, hrun⟩ := h.run
  obtain ⟨hA, hW, hP, hF⟩ := update_queues hs
  have hall : ∀ t ∈ s.scheduler.allocated, (Scheduler.update_task s.scheduler.max_seq_len s.scheduler.running_batch
      infer_outputs now t).All (Sequence.Short B) := by
    intro t ht x hx
    obtain ⟨seq, hseq, rfl⟩ := List.mem_map.1 hx
    have hshort := h.short.scheduler.allocated t ht seq hseq
    split
    · exact update_seq_short hshort (h.settings.2.1 ▸ hmax)
    · exact hshort
  refine ⟨⟨_, hrun.snoc ⟨⟨hs, rfl⟩, hocc⟩⟩, Each.of_tasks fun t ht => ?_, fun y hy => ?_⟩
  · rw [hA, hW, hP, hF] at ht
    simp only [List.mem_append] at ht
    rcases ht with ht | ht | ht | ht | ht
    · obtain ⟨u, hu, rfl⟩ := List.mem_map.1 ht
      exact hall u (List.mem_filter.1 hu).1
    · exact h.short.scheduler.waiting t ht
    · rcases List.mem_append.1 ht with ht | ht
      · exact h.short.scheduler.pending t ht
      · exact h.short.reserving t ht
    · exact h.short.finished t ht
    · obtain ⟨u, hu, rfl⟩ := List.mem_map.1 ht
      exact hall u (List.mem_filter.1 hu).1
  · refine h.lone y ?_
    unfold tags at hy ⊢
    rw [hA, hW, hP, List.map_map] at hy
    rcases List.mem_append.1 hy with hy | hy
    · obtain ⟨u, hu, rfl⟩ := List.mem_map.1 hy
      refine List.mem_append_left _ (List.mem_map.2 ⟨u, (List.mem_filter.1 hu).1, ?_⟩)
      exact (update_task_tag u).symm
    · exact List.mem_append_right _ hy

/-- The first task, where it is not done, has got as far as its chunk ends. -/
theorem Lead.update (h : Serving Occ c B s) (hs : Op.Step s (.update infer_outputs now) s')
    (hfirst : s.scheduler.allocated = t :: rest) (hseqs : t.seqs = [seq])
    (hout : (infer_outputs.lookup seq.seq_id).isSome = true) (hawait : Awaiting seq.seq_id m s)
    (hq : (Scheduler.update_task s.scheduler.max_seq_len s.scheduler.running_batch infer_outputs now t).is_finished = false) :
    Lead m s' := by
  obtain ⟨update, hupdate⟩ : ∃ update, update = Scheduler.update_task s.scheduler.max_seq_len s.scheduler.running_batch
    infer_outputs now := ⟨_, rfl⟩
  obtain ⟨hA, -⟩ := update_queues hs
  rw [← hupdate] at hA hq
  obtain ⟨ops, hrun⟩ := h.run
  obtain ⟨t', ht', seq', hseq', hid, hstatus, hlen, hentry⟩ := hawait.queued
  have hinv := inv_of_reachable (reachable_of_steady hrun)
  obtain rfl : seq' = seq := hinv.seq_unique (List.mem_append_left _ ht')
    (List.mem_append_left _ (hfirst ▸ List.mem_cons_self)) hseq' (hseqs ▸ List.mem_singleton_self seq) hid
  have hnew : (update t).seqs = [Scheduler.update_seq s.scheduler.max_seq_len s.scheduler.running_batch infer_outputs
      now seq'] := by
    rw [hupdate, Scheduler.update_task, hseqs, List.map_singleton, if_pos hstatus]
  refine .inr ⟨update t, (rest.filter fun u => !(update u).is_finished).map update, _, ?_, hnew, ?_, ?_⟩
  · rw [hA, hfirst, List.filter_cons_of_pos (by simp [hq]), List.map_cons]
  · rcases update_seq_longer hout hentry hlen with hdone | hlonger
    · refine absurd (InferTask.is_finished_iff.2 fun y hy => ?_) (Bool.eq_false_iff.1 hq)
      rw [hnew, List.mem_singleton] at hy
      rw [hy, is_finished_iff_inactive, hdone]
      rfl
    · exact hlonger
  · rw [(update_seq_key _ _ _ _ seq').1]
    obtain rfl := update_step hs
    exact hawait.reaches.congr rfl

/-- The first task is finished and leaves, or its next chunk begins where this one ends. -/
theorem Queued.update (hmax : c.max_seq_len ≤ B) (h : Queued Occ c B x n s)
    (hs : Op.Step s (.update infer_outputs now) s') (hocc : s'.Occurring Occ) {fin : List InferTask}
    (hfin : s'.finished = s.finished ++ fin) (hfirst : s.scheduler.allocated = t :: rest)
    (hseqs : t.seqs = [seq]) (hout : (infer_outputs.lookup seq.seq_id).isSome = true)
    (hawait : Awaiting seq.seq_id m s) : (∃ u ∈ fin, u.tag = x) ∨ ∃ n' filled, Queued Occ c B x n' s' ∧ Lead filled s' ∧
      (n' ≤ n ∧ filled = m ∨ n' < n ∧ filled = 0) := by
  obtain ⟨update, hupdate⟩ : ∃ update, update = Scheduler.update_task s.scheduler.max_seq_len s.scheduler.running_batch
    infer_outputs now := ⟨_, rfl⟩
  obtain ⟨hA, hW, hP, hF⟩ := update_queues hs
  rw [← hupdate] at hA hF
  obtain rfl := List.append_cancel_left (hfin.symm.trans hF)
  have htag : ∀ l : List InferTask, (l.map update).map InferTask.tag = l.map InferTask.tag := fun l => by
    rw [List.map_map]
    exact List.map_congr_left fun u _ => by rw [Function.comp_apply, hupdate, update_task_tag]
  obtain ⟨k, hplace, hle⟩ := h.place
  rcases hplace.serve (fun u => !(update u).is_finished) with ⟨u, hu, hdone, rfl⟩ | ⟨k', hplace', hle', hlt'⟩
  · refine .inl ⟨update u, List.mem_map_of_mem (List.mem_filter.2 ⟨hu, by simpa using hdone⟩), ?_⟩
    rw [hupdate, update_task_tag]
  · have hserving := h.toServing.update hmax hs hocc
    have hqueued : ∀ n', k' + Turns.earlier arrival x s'.tags ≤ n' → Queued Occ c B x n' s' := fun n' hn' =>
      ⟨hserving, k', by rw [hA, htag, hW]; exact hplace', hn'⟩
    have hearlier : ∀ l : System, Turns.earlier arrival x l.tags =
        Turns.earlier arrival x (l.scheduler.allocated.map InferTask.tag) +
          Turns.earlier arrival x ((l.scheduler.waiting ++ l.parked).map InferTask.tag) := fun l =>
      Turns.earlier_append x _ _
    rw [hearlier s] at hle
    have hsum : Turns.earlier arrival x s'.tags =
        Turns.earlier arrival x ((s.scheduler.allocated.filter fun u => !(update u).is_finished).map InferTask.tag) +
          Turns.earlier arrival x ((s.scheduler.waiting ++ s.parked).map InferTask.tag) := by
      rw [hearlier s', hA, htag, hW, hP]
    refine .inr ?_
    cases hq : (update t).is_finished with
    | true =>
      have hlt := hlt' t rest hfirst (by simp [hq])
      exact ⟨n - 1, 0, hqueued _ (by omega), .inl rfl, .inr ⟨by omega, rfl⟩⟩
    | false =>
      exact ⟨n, m, hqueued n (by omega), .update h.toServing hs hfirst hseqs hout hawait (hupdate ▸ hq),
        .inl ⟨Nat.le_refl _, rfl⟩⟩

end

/-! ### Whole rounds -/

/-- A round and what comes before the next one. The batch is scheduled in a steady round, with the finished tasks
removed if none is allocated; the workers return an output for every input; requests come in before and after, later
than `a` and with at most `B` tokens each. `fin` is what `update` returns. -/
inductive Round (Occ : List Nat → Prop) (a B : Nat) (s : System) (fin : List InferTask) (s' : System) : Prop where
  | mk {batch : Scheduler.Batch} {σ : Scheduler} {ops ops' : List Op} {s₁ s₂ : System} {infer_outputs : Table InferOutput}
      {now : Nat} (steady : Op.schedule.careful steadyRounds s = true)
      (removed : s.scheduler.allocated = [] → s.finished = [])
      (scheduled : Scheduler.schedule s.scheduler = .ok batch σ) (occurring : ({ s with scheduler := σ } : System).Occurring Occ)
      (before : Run (Between Occ a B) { s with scheduler := σ } ops s₁)
      (complete : ∀ x ∈ batch.infer_inputs, (infer_outputs.lookup x.seq_id).isSome = true)
      (results : Op.Step s₁ (.update infer_outputs now) s₂) (occurring' : s₂.Occurring Occ)
      (returned : s₂.finished = s₁.finished ++ fin) (after : Run (Between Occ a B) s₂ ops' s')

/-- `n` rounds, and all tasks that are returned. -/
inductive Rounds (Occ : List Nat → Prop) (a B : Nat) : Nat → System → List InferTask → System → Prop where
  | zero (s : System) : Rounds Occ a B 0 s [] s
  | succ {n : Nat} {s s₁ s' : System} {fin fins : List InferTask} (round : Round Occ a B s fin s₁)
      (rounds : Rounds Occ a B n s₁ fins s') : Rounds Occ a B (n + 1) s (fin ++ fins) s'

theorem Serving.between {a : Nat} (h : Serving Occ c B s) (hrun : Run (Between Occ a B) s ops s') : Serving Occ c B s' :=
  hrun.invariant h fun _ _ _ h hs => h.later hs

theorem Queued.between (h : Queued Occ c B x n s) (hrun : Run (Between Occ (arrival x) B) s ops s') :
    Queued Occ c B x n s' :=
  hrun.invariant h fun _ _ _ h hs => h.later hs

theorem frozen_between {a : Nat} (hrun : Run (Between Occ a B) s ops s') : s'.frozen = s.frozen :=
  hrun.invariant (I := fun s' => s'.frozen = s.frozen) rfl fun _ _ _ heq hs => (hs.1.1.quiet.frozen hs.1.2).trans heq

theorem Lead.between {a filled : Nat} (hserving : Serving Occ c B s) (h : Lead filled s)
    (hrun : Run (Between Occ a B) s ops s') : Lead filled s' := by
  rcases h with h | ⟨t, rest, seq, hfirst, hseqs, hlt, hreach⟩
  · exact .inl h
  · have hkept := hrun.invariant (I := fun s' => Serving Occ c B s' ∧ s'.scheduler.allocated = t :: rest ∧
      s'.scheduler.Reaches seq.seq_id filled) ⟨hserving, hfirst, hreach⟩ ?_
    · exact .inr ⟨t, rest, seq, hkept.2.1, hseqs, hlt, hkept.2.2⟩
    · rintro s op s' ⟨hserving, hfirst, hreach⟩ hs
      obtain ⟨ops, hsteady⟩ := hserving.run
      have hA : s'.scheduler.allocated = s.scheduler.allocated := congrArg Prod.fst (hs.1.1.quiet.frozen hs.1.2)
      refine ⟨hserving.later hs, hA.trans hfirst, reaches_quiet (reachable_of_steady hsteady) hs.1.1.quiet hs.1.2
        (List.mem_append_right _ (hfirst ▸ List.mem_cons_self)) (List.mem_map.2 ⟨seq, ?_, rfl⟩) hreach⟩
      exact hseqs ▸ List.mem_singleton_self seq

/-- A queued task has a token, and the first one is not filled up to the bound. -/
theorem Queued.bounds {filled : Nat} (h : Queued Occ c B x n s) (hlead : Lead filled s) : 0 < n ∧ filled < B := by
  obtain ⟨k, hplace, hle⟩ := h.place
  have hmem : x ∈ s.tags := by
    unfold tags
    rw [List.map_append]
    exact hplace.mem.elim (List.mem_append_left _) fun hx => List.mem_append_right _ (List.mem_append_left _ hx)
  refine ⟨Nat.lt_of_lt_of_le (List.countP_pos_iff.2 ⟨x, hmem, by simp⟩) ((Nat.le_add_left _ k).trans hle), ?_⟩
  rcases hlead with rfl | ⟨t, rest, seq, hfirst, hseqs, hlt, -⟩
  · obtain ⟨u, hu⟩ : ∃ u, u ∈ s.scheduler.waiting ++ s.scheduler.allocated := by
      rcases hplace.mem with hx | hx
      · obtain ⟨u, hu, -⟩ := List.mem_map.1 hx
        exact ⟨u, List.mem_append_right _ hu⟩
      · obtain ⟨u, hu, -⟩ := List.mem_map.1 hx
        exact ⟨u, List.mem_append_left _ hu⟩
    obtain ⟨seq, -, -, hne, hle⟩ := h.toServing.seqs_eq hu
    exact (List.length_pos_iff.2 hne).trans_le hle
  · obtain ⟨seq', hseqs', -, -, hle⟩ := h.toServing.seqs_eq (List.mem_append_right _ (hfirst ▸ List.mem_cons_self : t ∈ _))
    obtain rfl : seq = seq' := List.singleton_inj.1 (hseqs.symm.trans hseqs')
    exact hlt.trans_le hle

/-- One task less, or one token more. -/
theorem Queued.round {filled : Nat} (hz : ∀ P, Occ P → compute_hash P ≠ 0) (hreorder : c.enable_reorder = false)
    (hsize : 0 < c.max_batch_size) (hbudget : 0 < c.max_num_batched_tokens) (hmax : c.max_seq_len ≤ B)
    (hB : div_ceil B c.block_size ≤ c.watermark_blocks.limit c.num_gpu_blocks) {fin : List InferTask}
    (h : Queued Occ c B x n s) (hlead : Lead filled s) (hround : Round Occ (arrival x) B s fin s') :
    (∃ u ∈ fin, u.tag = x) ∨
      ∃ n' filled', Queued Occ c B x n' s' ∧ Lead filled' s' ∧ (n' ≤ n ∧ filled < filled' ∨ n' < n ∧ filled' = 0) := by
  obtain ⟨hsteady, hremoved, hschedule, hocc, hbefore, hcomplete, hresults, hocc', hreturned, hafter⟩ := hround
  rename_i batch σ ops ops' s₁ s₂ infer_outputs now
  have hne : s.scheduler.waiting ++ s.scheduler.allocated ≠ [] := by
    obtain ⟨k, hplace, -⟩ := h.place
    intro hnil
    obtain ⟨hW, hA⟩ := List.append_eq_nil_iff.1 hnil
    have hmem := hplace.mem
    rw [hW, hA] at hmem
    exact hmem.elim List.not_mem_nil List.not_mem_nil
  obtain ⟨t, rest, seq, y, hfirst, hseqs, hy, hid, hlt, hawait⟩ :=
    h.toServing.first hz hreorder hsize hbudget hB hne hremoved hsteady hschedule hlead
  have hqueued := h.schedule hreorder hsteady hschedule hocc
  obtain ⟨ops₀, hsteady₀⟩ := hqueued.run
  have hqueued₁ := hqueued.between hbefore
  have hawait₁ := hawait.quiet_run (reachable_of_steady hsteady₀) (hbefore.mono fun _ _ _ hs => ⟨hs.1.1.quiet, hs.1.2⟩)
  have hfirst₁ : s₁.scheduler.allocated = t :: rest :=
    (congrArg Prod.fst (frozen_between hbefore)).trans hfirst
  rcases hqueued₁.update hmax hresults hocc' hreturned hfirst₁ hseqs (hid ▸ hcomplete y hy) (hid ▸ hawait₁) with
    hdone | ⟨n', filled', hqueued₂, hlead₂, hless⟩
  · exact .inl hdone
  · refine .inr ⟨n', filled', hqueued₂.between hafter, hlead₂.between hqueued₂.toServing hafter, hless.imp_left ?_⟩
    rintro ⟨hn, rfl⟩
    exact ⟨hn, hlt⟩

theorem Queued.rounds (hz : ∀ P, Occ P → compute_hash P ≠ 0) (hreorder : c.enable_reorder = false)
    (hsize : 0 < c.max_batch_size) (hbudget : 0 < c.max_num_batched_tokens) (hmax : c.max_seq_len ≤ B)
    (hB : div_ceil B c.block_size ≤ c.watermark_blocks.limit c.num_gpu_blocks) {k : Nat}
    {fins : List InferTask} (hrounds : Rounds Occ (arrival x) B k s fins s') :
    ∀ {n filled : Nat}, Queued Occ c B x n s → Lead filled s → n * B ≤ k + filled → ∃ u ∈ fins, u.tag = x := by
  induction hrounds with
  | zero s =>
    intro n filled h hlead hk
    obtain ⟨hn, hfilled⟩ := h.bounds hlead
    exact absurd hk (Nat.not_le.2 (by rw [Nat.zero_add]; exact hfilled.trans_le (Nat.le_mul_of_pos_left B hn)))
  | @succ k s s₁ s' fin fins hround hrounds ih =>
    intro n filled h hlead hk
    obtain ⟨hn, hfilled⟩ := h.bounds hlead
    rcases h.round hz hreorder hsize hbudget hmax hB hlead hround with ⟨u, hu, hux⟩ | ⟨n', filled', h', hlead', hless⟩
    · exact ⟨u, List.mem_append_left _ hu, hux⟩
    · obtain ⟨u, hu, hux⟩ := ih h' hlead' (by
        rcases hless with ⟨hn', hfilled'⟩ | ⟨hn', rfl⟩
        · have := Nat.mul_le_mul_right B hn'
          omega
        · have := Nat.mul_le_mul_right B (Nat.succ_le_of_lt hn')
          rw [Nat.succ_mul] at this
          omega)
      exact ⟨u, List.mem_append_right _ hu, hux⟩

/-! ### From a queued task to its results -/

theorem Serving.rounds {a k : Nat} (hmax : c.max_seq_len ≤ B) {fins : List InferTask}
    (hrounds : Rounds Occ a B k s fins s') : Serving Occ c B s → Serving Occ c B s' := by
  induction hrounds with
  | zero => exact id
  | succ hround _ ih =>
    obtain ⟨hsteady, -, hschedule, hocc, hbefore, -, hresults, hocc', -, hafter⟩ := hround
    exact fun h => ih (((((h.schedule hsteady hschedule hocc).between hbefore).update hmax hresults hocc').between hafter))

theorem Serving.returns (hz : ∀ P, Occ P → compute_hash P ≠ 0) (h : Serving Occ c B s)
    (hc : Op.schedule.careful steadyRounds s = true) : ∃ batch σ, Scheduler.schedule s.scheduler = .ok batch σ := by
  obtain ⟨ops, hsteady⟩ := h.run
  obtain ⟨σ, hwatched⟩ := phases_return hz hsteady (fun t ht => by
    obtain ⟨seq, hseqs, -⟩ := h.seqs_eq ht
    rw [InferTask.Lone, hseqs, List.length_singleton]) hc
  have hphases := (Scheduler.phases_guarded (Watch.stricter_nothing _)).of_ok hwatched
  obtain ⟨batch, σ', hdispatch⟩ := dispatch_return hsteady hc hphases
  refine ⟨batch, { σ' with running_batch := batch.running_batch }, ?_⟩
  rw [Scheduler.schedule_eq]
  exact bind_ok.2 ⟨.unit, σ, hphases, bind_ok.2 ⟨batch, σ', hdispatch, rfl⟩⟩

omit [Hasher] in
/-- A queued task has a place, if nothing that arrived later waits before it. -/
theorem place_of_queued (ht : t ∈ s.scheduler.waiting ++ s.scheduler.allocated)
    (hturn : ∀ u ∈ s.scheduler.waiting.takeWhile (·.tag ≠ t.tag), u.arrival_time ≤ t.arrival_time) :
    Turns.Place arrival t.tag (s.scheduler.allocated.map InferTask.tag) (s.scheduler.waiting.map InferTask.tag)
      ((s.scheduler.allocated.takeWhile (·.tag ≠ t.tag)).countP (t.arrival_time < ·.arrival_time)) := by
  have hcount : ∀ l : List InferTask, Turns.later arrival t.tag (l.map InferTask.tag) =
      l.countP (t.arrival_time < ·.arrival_time) := fun l => List.countP_map
  -- the list up to the task, which is the first with its tag
  have hsplit : ∀ l : List InferTask, t.tag ∈ l.map InferTask.tag → ∃ after,
      l.map InferTask.tag = (l.takeWhile (·.tag ≠ t.tag)).map InferTask.tag ++ t.tag :: after := by
    intro l hl
    induction l with
    | nil => cases hl
    | cons u l ih =>
      by_cases hu : u.tag = t.tag
      · exact ⟨l.map InferTask.tag, by rw [List.takeWhile_cons_of_neg (by simp [hu]), List.map_cons, hu]; rfl⟩
      · obtain ⟨after, hafter⟩ := ih ((List.mem_cons.1 hl).resolve_left fun heq => hu heq.symm)
        exact ⟨after, by rw [List.takeWhile_cons_of_pos (by simp [hu]), List.map_cons, hafter]; rfl⟩
  by_cases hA : t.tag ∈ s.scheduler.allocated.map InferTask.tag
  · obtain ⟨after, hafter⟩ := hsplit _ hA
    rw [hafter, ← hcount]
    exact .runs _ _ _
  · have hW : t.tag ∈ s.scheduler.waiting.map InferTask.tag :=
      List.mem_map_of_mem ((List.mem_append.1 ht).resolve_right fun ht => hA (List.mem_map_of_mem ht))
    have hall : s.scheduler.allocated.takeWhile (·.tag ≠ t.tag) = s.scheduler.allocated :=
      List.takeWhile_eq_self_iff.2 fun u hu => by simpa using fun heq : u.tag = t.tag => hA (heq ▸ List.mem_map_of_mem hu)
    rw [hall, ← hcount]
    obtain ⟨after, hafter⟩ := hsplit _ hW
    refine .waits _ ⟨_, after, hafter, fun y hy => ?_⟩
    obtain ⟨u, hu, rfl⟩ := List.mem_map.1 hy
    exact hturn u hu

end

/-- How many tasks are served up to `t`, with itself: those that arrived no later, and those that arrived later and
are allocated before it. -/
def turns (s : System) (t : InferTask) : Nat :=
  (s.scheduler.allocated ++ (s.scheduler.waiting ++ s.parked)).countP (·.arrival_time ≤ t.arrival_time) +
    (s.scheduler.allocated.takeWhile (·.tag ≠ t.tag)).countP (t.arrival_time < ·.arrival_time)

/-- Without reordering, where tasks have one sequence each, which fits on the GPU on its own up to the bound `B` on its
length, and later requests have later arrival times, steady rounds return, and a queued task is returned within `B`
rounds for each task that is served up to it, whatever comes in meanwhile. -/
theorem run_completes [Hasher] {Occ : List Nat → Prop} {c : SchedulerConfig} {B : Nat} {ops : List Op} {s : System}
    {t : InferTask} (hz : ∀ P, Occ P → compute_hash P ≠ 0) (hreorder : c.enable_reorder = false)
    (hsize : 0 < c.max_batch_size) (hbudget : 0 < c.max_num_batched_tokens) (hmax : c.max_seq_len ≤ B)
    (hB : div_ceil B c.block_size ≤ c.watermark_blocks.limit c.num_gpu_blocks) (h : SteadyRun Occ c ops s)
    (hshort : s.Each (Sequence.Short B))
    (hlone : ∀ u ∈ s.scheduler.allocated ++ (s.scheduler.waiting ++ s.parked), u.Lone)
    (ht : t ∈ s.scheduler.waiting ++ s.scheduler.allocated)
    (hturn : ∀ u ∈ s.scheduler.waiting.takeWhile (·.tag ≠ t.tag), u.arrival_time ≤ t.arrival_time) :
    ∀ k fins s', Rounds Occ t.arrival_time B k s fins s' →
      (Op.schedule.careful steadyRounds s' = true → ∃ batch σ, Scheduler.schedule s'.scheduler = .ok batch σ) ∧
      (s.turns t * B ≤ k → ∃ u ∈ fins, u.tag = t.tag) := by
  intro k fins s' hrounds
  have hserving : Serving Occ c B s := by
    refine ⟨⟨ops, h⟩, hshort, fun x hx => ?_⟩
    unfold tags at hx
    rw [← List.map_append] at hx
    obtain ⟨u, hu, rfl⟩ := List.mem_map.1 hx
    rw [InferTask.tag, List.length_map]
    exact hlone u hu
  have hqueued : Queued Occ c B t.tag (s.turns t) s := by
    refine ⟨hserving, _, place_of_queued ht hturn, Nat.le_of_eq ?_⟩
    rw [Nat.add_comm, turns, tags, ← List.map_append]
    exact congrArg (· + _) List.countP_map
  exact ⟨(hserving.rounds hmax hrounds).returns hz,
    fun hk => hqueued.rounds hz hreorder hsize hbudget hmax hB hrounds (.inl rfl) hk⟩

/-- The removal of a finished task. -/
def next_removal [Hasher] (s : System) : Op → Option System
  | .remove_task i => Op.next s (.remove_task i)
  | _ => none

/-- A round with these results, after which finished tasks are removed. -/
def next_round [Hasher] (infer_outputs : Table InferOutput) (removals : List Op) (s : System) :
    Option (List InferTask × System) :=
  if Op.schedule.careful steadyRounds s && (!s.scheduler.allocated.isEmpty || s.finished.isEmpty) then
    match Scheduler.schedule s.scheduler with
    | .ok batch σ =>
      if batch.infer_inputs.all fun x => (infer_outputs.lookup x.seq_id).isSome then
        (Op.next { s with scheduler := σ } (.update infer_outputs 0)).bind fun s₂ =>
          (Run.follow next_removal s₂ removals).map (s₂.finished.drop s.finished.length, ·)
      else none
    | .error _ _ => none
  else none

def next_rounds [Hasher] : List (Table InferOutput × List Op) → System → Option (List InferTask × System)
  | [], s => some ([], s)
  | (infer_outputs, removals) :: l, s =>
    (next_round infer_outputs removals s).bind fun r => (next_rounds l r.2).map fun r' => (r.1 ++ r'.1, r'.2)

theorem round_of_next [Hasher] {a B : Nat} {infer_outputs : Table InferOutput} {removals : List Op} {s : System}
    {r : List InferTask × System} (h : next_round infer_outputs removals s = some r) : Round AnyPrefix a B s r.1 r.2 := by
  unfold next_round at h
  split at h
  · rename_i hc
    simp only [Bool.and_eq_true, Bool.or_eq_true, Bool.not_eq_true', List.isEmpty_iff, List.isEmpty_eq_false_iff] at hc
    split at h
    · rename_i batch σ hschedule
      split at h
      · rename_i hcomplete
        obtain ⟨s₂, hnext, h⟩ := Option.bind_eq_some_iff.1 h
        obtain ⟨s₃, hfollow, rfl⟩ := Option.map_eq_some_iff.1 h
        have hresults := Op.step_of_next hnext
        have hafter : Run (Between AnyPrefix a B) s₂ removals s₃ := by
          refine Run.of_follow (fun s op s' hs => ?_) hfollow
          cases op with
          | remove_task i => exact ⟨⟨trivial, Op.step_of_next hs⟩, fun _ _ _ _ _ => trivial⟩
          | _ => cases hs
        refine .mk hc.1 (fun hA => hc.2.resolve_left fun hne => hne hA) hschedule (fun _ _ _ _ _ => trivial) .nil
          (List.all_eq_true.1 hcomplete) hresults (fun _ _ _ _ _ => trivial) ?_ hafter
        have hF := (update_queues hresults).2.2.2
        rw [hF, List.drop_left]
      · cases h
    · cases h
  · cases h

theorem rounds_of_next [Hasher] {a B : Nat} : ∀ {l : List (Table InferOutput × List Op)} {s : System}
    {r : List InferTask × System}, next_rounds l s = some r → Rounds AnyPrefix a B l.length s r.1 r.2
  | [], s, r, h => by
    obtain rfl := Option.some.inj h
    exact .zero s
  | (infer_outputs, removals) :: l, s, r, h => by
    obtain ⟨r₁, hround, h⟩ := Option.bind_eq_some_iff.1 h
    obtain ⟨r₂, hrounds, rfl⟩ := Option.map_eq_some_iff.1 h
    exact .succ (round_of_next hround) (rounds_of_next hrounds)

/-- Sequences of two tokens, one at a time. -/
def turnConfig : SchedulerConfig := ⟨1, 2, 16, 1, Nat.one_pos, 8, 0, 0, false, Scheduler.defaultWatermark⟩

/-- One output for the sequence, and then the removal of the task. -/
def one_output (seq_id : Nat) : Table InferOutput × List Op :=
  ((∅ : Table InferOutput).insert seq_id ⟨7, 1, "", false⟩, [.remove_task 0])

/-- What `run_completes` asks of a state and its last waiting task. -/
def ready_for (B : Nat) (s : System) : Bool :=
  s.scheduler.waiting.getLast?.any fun t =>
    decide (∀ u ∈ s.scheduler.allocated ++ (s.scheduler.waiting ++ (s.parked ++ s.finished)), u.seqs.length = 1 ∧
      ∀ seq ∈ u.seqs, seq.token_ids ≠ [] ∧ seq.token_ids.length ≤ B) &&
    decide (∀ u ∈ s.scheduler.waiting.takeWhile (·.tag ≠ t.tag), u.arrival_time ≤ t.arrival_time)

/-- Four rounds for the second of two tasks. -/
theorem run_completes_pair :
    let _ := decimalHasher
    ∃ s t fins s', SteadyRun AnyPrefix turnConfig [prompt 1 1, prompt 2 1] s ∧ t ∈ s.scheduler.waiting ∧ s.turns t = 2 ∧
      Rounds AnyPrefix t.arrival_time 2 4 s fins s' ∧ ∃ u ∈ fins, u.tag = t.tag := by
  let _ := decimalHasher
  have hfollow : (Run.follow (fun s op => if op.careful steadyRounds s then Op.next s op else none)
      (System.new turnConfig) [prompt 1 1, prompt 2 1]).any (fun s => ready_for 2 s &&
        (s.scheduler.waiting.getLast?.map s.turns = some 2 &&
        (next_rounds [one_output 0, one_output 1, (∅, []), (∅, [])] s).isSome)) = true := by
    decide +kernel
  obtain ⟨s, hrun, hs⟩ := Run.exists_of_follow (fun _ _ _ => Op.step_of_careful_next steadyRounds) hfollow
  simp only [Bool.and_eq_true, decide_eq_true_eq] at hs
  obtain ⟨hready, hturns, hrounds⟩ := hs
  obtain ⟨⟨fins, s'⟩, hrounds⟩ := Option.isSome_iff_exists.1 hrounds
  obtain ⟨t, hlast, hturns⟩ := Option.map_eq_some_iff.1 hturns
  unfold ready_for at hready
  rw [hlast, Option.any_some, Bool.and_eq_true, decide_eq_true_eq, decide_eq_true_eq] at hready
  obtain ⟨htasks, hturn⟩ := hready
  have ht : t ∈ s.scheduler.waiting := List.mem_of_getLast? hlast
  have hsteady : SteadyRun AnyPrefix turnConfig [prompt 1 1, prompt 2 1] s :=
    hrun.mono fun _ _ _ hstep => ⟨hstep, fun _ _ _ _ _ => trivial⟩
  have hserved := rounds_of_next (a := t.arrival_time) (B := 2) hrounds
  refine ⟨s, t, fins, s', hsteady, ht, hturns, hserved, ?_⟩
  refine (run_completes (fun P _ => decimalHasher_ne_zero P) rfl (by decide) (by decide) (by decide) (by decide) hsteady
    (Each.of_tasks fun u hu seq hseq => ?_) (fun u hu => ?_) (List.mem_append_left _ ht) hturn 4 fins s' hserved).2 (by
      rw [hturns])
  · exact ⟨((htasks u hu).2 seq hseq).1, fun _ => ((htasks u hu).2 seq hseq).2⟩
  · refine (htasks u ?_).1
    rw [List.mem_append, List.mem_append] at hu
    rcases hu with hu | hu | hu
    · exact List.mem_append_left _ hu
    · exact List.mem_append_right _ (List.mem_append_left _ hu)
    · exact List.mem_append_right _ (List.mem_append_right _ (List.mem_append_left _ hu))

end System

end LMServe
