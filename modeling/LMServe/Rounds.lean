import LMServe.Tiling

/-!
# From one batch to the next

Between two rounds the workers return an output for every input; requests come and go before and after. None of
this touches the levels of a sequence in the queues, and afterwards a token is left behind its last chunk, or the
sequence is finished and gets no input again.
-/

namespace LMServe
open Hoare Chunk BlockManager Ownership

namespace Op

/-- A step other than a scheduling round and the results of a batch. -/
def Quiet : Op → Prop
  | .schedule | .update _ _ => False
  | _ => True

section
variable [Hasher] {op : Op} {s s' : System} {t : InferTask} {Q : Sequence → Prop}

/-- A quiet step leaves the allocated tasks and the batch in flight alone. -/
theorem Quiet.frozen (hop : op.Quiet) (hs : op.Step s s') : s'.frozen = s.frozen := by
  have hdone : ∀ {α : Type} {x : SysM α}, Keeps System.frozen x → Keeps System.frozen (do let _ ← x) :=
    fun hx => hx.bind fun _ => Keeps.pure _
  cases op with
  | add_request request arrival => exact (hdone (System.add_request_frozen _ _)).of_ok hs
  | reserve_request request arrival => exact (hdone (System.reserve_request_frozen _ _)).of_ok hs
  | pend_reserved i => exact (System.pend_reserved_frozen i).of_ok hs
  | trigger session_id region_id hash_values =>
    exact (System.on_scheduler_frozen (Scheduler.trigger_pend_task_frozen _ _ _)).of_ok hs
  | schedule | update infer_outputs now => exact hop.elim
  | backup i => exact (hdone (System.backup_frozen i)).of_ok hs
  | remove_task i => exact (System.remove_task_frozen i).of_ok hs
  | commit region => exact (hdone (System.on_scheduler_frozen (Scheduler.frozen_aside.on_device _ _))).of_ok hs
  | pin hash_values =>
    exact (hdone (System.generate_id_frozen.bind fun _ =>
      System.on_scheduler_frozen (Scheduler.frozen_aside.pin_blocks _ _ _))).of_ok hs
  | unpin region => exact (System.on_scheduler_frozen (Scheduler.frozen_aside.on_device _ _)).of_ok hs
  | clear_cache => exact (System.on_scheduler_frozen Scheduler.frozen_aside.clear_cache).of_ok hs

theorem Quiet.each (hop : op.Quiet) (hs : op.Step s s') (h : s.Each Q)
    (hnew : ∀ request arrival, op = .add_request request arrival ∨ op = .reserve_request request arrival →
      (request.to_task s.next_seq_id arrival).All Q) : s'.Each Q := by
  have hcontrol : ∀ {α : Type} {x : SM α}, Keeps Scheduler.control x → Preserves (System.Each Q) (System.on_scheduler x) :=
    fun hx => System.on_scheduler_each (Scheduler.each_of_keeps hx)
  have hdone : ∀ {α : Type} {x : SysM α}, Preserves (System.Each Q) x → Preserves (System.Each Q) (do let _ ← x) :=
    fun hx => hx.bind fun _ => Lowers.pure _
  cases op with
  | add_request request arrival =>
    obtain ⟨plan, s₁, hrun, hret⟩ := bind_ok.1 hs
    obtain rfl : s₁ = s' := by simpa using hret
    exact (System.add_request_each h (hnew _ _ (.inl rfl))).of_ok hrun
  | reserve_request request arrival =>
    obtain ⟨region, s₁, hrun, hret⟩ := bind_ok.1 hs
    obtain rfl : s₁ = s' := by simpa using hret
    exact (System.reserve_request_each h (hnew _ _ (.inr rfl))).of_ok hrun
  | pend_reserved i => exact ((System.pend_reserved_each i).ends h).of_ok hs
  | trigger session_id region_id hash_values =>
    exact ((System.on_scheduler_each (Scheduler.trigger_pend_task_each _ _ _)).ends h).of_ok hs
  | schedule | update infer_outputs now => exact hop.elim
  | backup i => exact ((hdone (System.backup_each i)).ends h).of_ok hs
  | remove_task i => exact ((System.remove_task_each i).ends h).of_ok hs
  | commit region => exact ((hdone (hcontrol (Scheduler.on_device_keeps _ _))).ends h).of_ok hs
  | pin hash_values =>
    exact ((hdone (System.generate_id_each.bind fun _ => hcontrol (Scheduler.pin_blocks_keeps _ _ _))).ends h).of_ok hs
  | unpin region => exact ((hcontrol (Scheduler.on_device_keeps _ _)).ends h).of_ok hs
  | clear_cache => exact ((hcontrol Scheduler.clear_cache_keeps).ends h).of_ok hs

/-- The queue of waiting tasks stays, unless a task is added or triggered. -/
theorem Quiet.waiting_eq (hop : op.Quiet) (hs : op.Step s s')
    (hadd : ∀ request arrival, op ≠ .add_request request arrival)
    (htrigger : ∀ session_id region_id hash_values, op ≠ .trigger session_id region_id hash_values) :
    s'.scheduler.waiting = s.scheduler.waiting := by
  have hcontrol : ∀ {α : Type} {x : SM α}, Keeps Scheduler.control x →
      Keeps (fun s : System => s.scheduler.waiting) (System.on_scheduler x) :=
    fun hx => (hx.part (·.1.1)).inside fun _ _ hσ => hσ
  have hid : Keeps (fun s : System => s.scheduler.waiting) System.generate_id :=
    Keeps.get.bind fun _ => Keeps.bind (Keeps.modify fun _ => rfl) fun _ => Keeps.pure _
  have hpend : ∀ u, Keeps (fun s : System => s.scheduler.waiting) (System.on_scheduler (Scheduler.pend u)) := fun u =>
    (Scheduler.pend_keeps (f := fun σ => σ.waiting) (fun _ _ => rfl) u).inside fun _ _ hσ => hσ
  have hkept : Keeps (fun s : System => s.scheduler.waiting) op.exec → s'.scheduler.waiting = s.scheduler.waiting :=
    fun hx => hx.of_ok hs
  cases op with
  | add_request request arrival => exact absurd rfl (hadd _ _)
  | trigger session_id region_id hash_values => exact absurd rfl (htrigger _ _ _)
  | schedule | update infer_outputs now => exact hop.elim
  | reserve_request request arrival =>
    refine hkept (Keeps.bind ?_ fun _ => Keeps.pure _)
    refine Keeps.bind (Keeps.get.bind fun _ => Keeps.bind (Keeps.modify fun _ => rfl) fun _ => Keeps.pure _) fun _ => ?_
    exact hid.bind fun _ => (hcontrol (Scheduler.reserve_blocks_keeps _ _ _)).bind fun _ =>
      Keeps.bind (Keeps.modify fun _ => rfl) fun _ => Keeps.pure _
  | pend_reserved i =>
    refine hkept (Keeps.get.bind fun _ => ?_)
    split
    · exact Keeps.pure _
    · exact Keeps.bind (Keeps.modify fun _ => rfl) fun _ => hpend _
  | backup i =>
    refine hkept (Keeps.bind (Keeps.get.bind fun _ => ?_) fun _ => Keeps.pure _)
    split
    · exact Keeps.pure _
    · exact hid.bind fun _ => hcontrol (Scheduler.backup_keeps _ _)
  | remove_task i =>
    refine hkept (Keeps.get.bind fun _ => ?_)
    split
    · exact Keeps.pure _
    · exact (hcontrol (Scheduler.remove_task_keeps _)).bind fun _ => Keeps.modify fun _ => rfl
  | commit region => exact hkept ((hcontrol (Scheduler.on_device_keeps _ _)).bind fun _ => Keeps.pure _)
  | pin hash_values =>
    exact hkept (Keeps.bind (hid.bind fun _ => hcontrol (Scheduler.pin_blocks_keeps _ _ _)) fun _ => Keeps.pure _)
  | unpin region => exact hkept (hcontrol (Scheduler.on_device_keeps _ _))
  | clear_cache => exact hkept (hcontrol Scheduler.clear_cache_keeps)

theorem Quiet.waiting (hop : op.Quiet) (hs : op.Step s s') (ht : t ∈ s.scheduler.waiting) :
    t ∈ s'.scheduler.waiting := by
  cases op with
  | add_request request arrival =>
    obtain ⟨plan, s₁, hrun, hret⟩ := bind_ok.1 hs
    obtain rfl : s₁ = s' := by simpa using hret
    obtain ⟨σ, σ₁, σ₂, plan', -, -, rfl, -, -, hqueues⟩ := System.add_request_ok hrun
    rcases hqueues with ⟨hwaiting, -⟩ | ⟨hwaiting, -⟩
    · exact hwaiting ▸ List.mem_append_left _ ht
    · exact hwaiting ▸ ht
  | trigger session_id region_id hash_values =>
    obtain ⟨σ, hσ, rfl⟩ := System.on_scheduler_ok hs
    obtain ⟨u, -, hwaiting, -⟩ := Scheduler.trigger_pend_task_ok hσ
    exact hwaiting ▸ (insert_sorted_perm _ u).symm.subset (List.mem_cons_of_mem _ ht)
  | _ => exact hop.waiting_eq hs (fun _ _ h => by cases h) (fun _ _ _ h => by cases h) ▸ ht

end

end Op

namespace Lifecycle.Inv

variable [Watch] {L : Lifecycle} {s : System} {t u : InferTask} {seq seq' : Sequence} {i : Nat}

theorem queued_apart (h : L.Inv s) (ht : t ∈ s.scheduler.waiting ++ s.scheduler.allocated)
    (hu : u ∈ s.parked ++ s.finished) : u.ids.Disjoint t.ids := by
  have hp := List.pairwise_append.1 h.pairwise
  rcases List.mem_append.1 ht with ht | ht
  · exact ((List.pairwise_append.1 hp.2.1).2.2 t ht u hu).symm
  · exact (hp.2.2 t ht u (List.mem_append_right _ hu)).symm

/-- No step but a scheduling round acts on a task in the queues. -/
theorem queued_untouched (h : L.Inv s) (ht : t ∈ s.scheduler.waiting ++ s.scheduler.allocated) {op : Op}
    (hop : op.Quiet) (hi : i ∈ t.ids) : ∀ u ∈ op.acts_on s, i ∉ u.ids := by
  have hapart : ∀ u ∈ s.parked ++ s.finished, i ∉ u.ids := fun u hu hiu => h.queued_apart ht hu hiu hi
  intro u hu hiu
  cases op with
  | add_request request arrival =>
    obtain rfl := List.mem_singleton.1 hu
    rw [Lifecycle.ids_to_task] at hiu
    obtain ⟨k, -, rfl⟩ := List.mem_map.1 hiu
    have hlt : s.next_seq_id + k < s.next_seq_id := by
      rcases List.mem_append.1 ht with ht | ht
      · refine h.inside (L.waiting, t) (List.mem_append_right _ (List.mem_append_left _ ?_)) _ hi
        exact mem_tag.2 ⟨rfl, ht⟩
      · exact h.inside (L.allocated, t) (List.mem_append_left _ (mem_tag.2 ⟨rfl, ht⟩)) _ hi
    exact absurd hlt (Nat.not_lt.2 (Nat.le_add_right _ _))
  | trigger session_id region_id hash_values =>
    refine hapart u (List.mem_append_left _ (List.mem_append_left _ ?_)) hiu
    exact (Table.values_erase_perm (Option.mem_toList.1 hu)).subset List.mem_cons_self
  | schedule => exact hop
  | remove_task k =>
    exact hapart u (List.mem_append_right _ (List.mem_of_getElem? (Option.mem_toList.1 hu))) hiu
  | reserve_request _ _ | pend_reserved _ | update _ _ | backup _ | commit _ | pin _ | unpin _
  | clear_cache => cases hu

theorem seq_unique (h : L.Inv s)
    (ht : t ∈ s.scheduler.allocated ++ (s.scheduler.waiting ++ (s.parked ++ s.finished)))
    (hu : u ∈ s.scheduler.allocated ++ (s.scheduler.waiting ++ (s.parked ++ s.finished)))
    (hseq : seq ∈ t.seqs) (hseq' : seq' ∈ u.seqs) (hid : seq.seq_id = seq'.seq_id) : seq = seq' := by
  have hmem : ∀ {t : InferTask} {seq : Sequence}, seq ∈ t.seqs → seq.seq_id ∈ t.ids :=
    fun hseq => List.mem_map.2 ⟨_, hseq, rfl⟩
  have : Std.Symm fun t u : InferTask => t.ids.Disjoint u.ids := ⟨fun _ _ h => h.symm⟩
  by_cases heq : t = u
  · subst heq
    rw [← places_snd L] at ht
    obtain ⟨p, hp, rfl⟩ := List.mem_map.1 ht
    exact List.inj_on_of_nodup_map ((List.nodup_flatMap.1 h.nodup).1 p hp) hseq hseq' hid
  · exact absurd (hmem hseq') (h.pairwise.forall ht hu heq (hid ▸ hmem hseq))

end Lifecycle.Inv

namespace System

theorem Each.of_tasks {Q : Sequence → Prop} {s : System}
    (h : ∀ t ∈ s.scheduler.allocated ++ (s.scheduler.waiting ++ (s.parked ++ s.finished)), t.All Q) : s.Each Q where
  scheduler := ⟨fun t ht => h t (by simp [ht]), fun t ht => h t (by simp [ht]), fun t ht => h t (by simp [parked, ht])⟩
  reserving t ht := h t (by simp [parked, ht])
  finished t ht := h t (by simp [ht])

/-- Sequence `i` is finished wherever it is found. -/
def Retired (i : Nat) (s : System) : Prop := s.Each fun seq => seq.seq_id = i → seq.is_active = false

/-- Sequence `i` is in the queues, filled up to `c`, and has tokens behind that. -/
structure Resumable (i c : Nat) (s : System) : Prop where
  queued : ∃ t ∈ s.scheduler.waiting ++ s.scheduler.allocated, ∃ seq ∈ t.seqs, seq.seq_id = i ∧ c < seq.token_ids.length
  reaches : s.scheduler.Reaches i c

/-- Sequence `i` has been dispatched up to `c`, and its results are to come. -/
structure Awaiting (i c : Nat) (s : System) : Prop where
  queued : ∃ t ∈ s.scheduler.allocated, ∃ seq ∈ t.seqs, seq.seq_id = i ∧ seq.status = .Allocated ∧
    c ≤ seq.token_ids.length ∧ s.scheduler.running_batch.lookup i = some ⟨c < seq.token_ids.length⟩
  reaches : s.scheduler.Reaches i c

section
variable [Hasher] {cfg : SchedulerConfig} {i c : Nat} {op : Op} {s s' : System} {t : InferTask} {seq : Sequence}

omit [Hasher] in
theorem steady_retired (i : Nat) : Steady fun seq => seq.seq_id = i → seq.is_active = false :=
  fun seq status h hact _ hid => by rw [h hid] at hact; cases hact

theorem inv_of_reachable (h : Reachable cfg s) : Lifecycle.anyStages.Inv s := by
  obtain ⟨ops, hrun⟩ := h
  exact anyStages_of_run hrun

omit [Hasher] in
theorem Retired.of_mem (h : Lifecycle.anyStages.Inv s)
    (ht : t ∈ s.scheduler.allocated ++ (s.scheduler.waiting ++ (s.parked ++ s.finished))) (hseq : seq ∈ t.seqs)
    (hid : seq.seq_id = i) (hdone : seq.is_active = false) : Retired i s :=
  Each.of_tasks fun _ hu _ hx hxi => (h.seq_unique ht hu hseq hx (hid.trans hxi.symm)) ▸ hdone

/-! ### Quiet steps -/

theorem reaches_quiet (hr : Reachable cfg s) (hop : op.Quiet) (hs : op.Step s s')
    (ht : t ∈ s.scheduler.waiting ++ s.scheduler.allocated) (hi : i ∈ t.ids) (h : s.scheduler.Reaches i c) :
    s'.scheduler.Reaches i c := by
  have hinv := inv_of_reachable hr
  obtain ⟨ops, hrun⟩ := hr
  exact h.congr (Op.step_maps_other (regionsBelow hrun).nextFree hs (hinv.queued_untouched ht hop hi))

theorem Resumable.quiet (hr : Reachable cfg s) (hop : op.Quiet) (hs : op.Step s s') (h : Resumable i c s) :
    Resumable i c s' := by
  obtain ⟨t, ht, seq, hseq, hid, hlt⟩ := h.queued
  refine ⟨⟨t, ?_, seq, hseq, hid, hlt⟩, reaches_quiet hr hop hs ht (List.mem_map.2 ⟨seq, hseq, hid⟩) h.reaches⟩
  have hA : s'.scheduler.allocated = s.scheduler.allocated := congrArg Prod.fst (hop.frozen hs)
  rcases List.mem_append.1 ht with ht | ht
  · exact List.mem_append_left _ (hop.waiting hs ht)
  · exact List.mem_append_right _ (hA ▸ ht)

theorem Awaiting.quiet (hr : Reachable cfg s) (hop : op.Quiet) (hs : op.Step s s') (h : Awaiting i c s) :
    Awaiting i c s' := by
  obtain ⟨t, ht, seq, hseq, hid, hstatus, hle, hentry⟩ := h.queued
  have hA : s'.scheduler.allocated = s.scheduler.allocated := congrArg Prod.fst (hop.frozen hs)
  have hB : s'.scheduler.running_batch = s.scheduler.running_batch := congrArg (·.2.1) (hop.frozen hs)
  exact ⟨⟨t, hA ▸ ht, seq, hseq, hid, hstatus, hle, hB ▸ hentry⟩,
    reaches_quiet hr hop hs (List.mem_append_right _ ht) (List.mem_map.2 ⟨seq, hseq, hid⟩) h.reaches⟩

theorem Retired.quiet (hlt : i < s.next_seq_id) (hop : op.Quiet) (hs : op.Step s s') (h : Retired i s) :
    Retired i s' := by
  refine hop.each hs h fun request arrival _ seq hseq hid => ?_
  obtain ⟨k, -, rfl⟩ := List.mem_map.1 hseq
  have : s.next_seq_id + k = i := hid
  omega

/-! ### The results of a batch -/

theorem update_step {infer_outputs : Table InferOutput} {now : Nat} (hs : Op.Step s (.update infer_outputs now) s') :
    s' = { s with
      scheduler := { s.scheduler with
        allocated := (s.scheduler.allocated.map (Scheduler.update_task s.scheduler.max_seq_len
          s.scheduler.running_batch infer_outputs now)).filter (!·.is_finished)
        running_batch := ∅ }
      finished := s.finished ++ (s.scheduler.allocated.map (Scheduler.update_task s.scheduler.max_seq_len
        s.scheduler.running_batch infer_outputs now)).filter (·.is_finished) } := by
  obtain ⟨finished, s₁, hrun, hret⟩ := bind_ok.1 hs
  obtain rfl : s₁ = s' := by simpa using hret
  obtain ⟨fin, s₂, hupd, hrun⟩ := bind_ok.1 hrun
  obtain ⟨σ, hσ, rfl⟩ := on_scheduler_ok hupd
  replace hσ := get_ok hσ
  obtain ⟨_, σ₁, hmod, hσ⟩ := bind_ok.1 hσ
  simp only [modify_apply, EStateM.Result.ok.injEq, true_and] at hmod
  obtain ⟨rfl, rfl⟩ : _ = fin ∧ σ₁ = σ := by simpa using hσ
  obtain ⟨_, s₃, hmod₂, hrun⟩ := bind_ok.1 hrun
  simp only [modify_apply, EStateM.Result.ok.injEq, true_and] at hmod₂
  obtain ⟨-, rfl⟩ : _ ∧ s₃ = s₁ := by simpa using hrun
  rw [← hmod₂, ← hmod]

/-- Sequence `i` resumes at `c`, or is never dispatched again. -/
def Settled (i c : Nat) (s : System) : Prop := Resumable i c s ∨ Retired i s

/-- It is enough to look at what has become of the sequence itself. -/
theorem settled_of_updated {infer_outputs : Table InferOutput} {now : Nat} (hr : Reachable cfg s')
    (hs : Op.Step s (.update infer_outputs now) s') (ht : t ∈ s.scheduler.allocated)
    (hseq : seq ∈ (Scheduler.update_task s.scheduler.max_seq_len s.scheduler.running_batch infer_outputs now t).seqs)
    (hid : seq.seq_id = i) (hnew : seq.is_active = false ∨ c < seq.token_ids.length) (h : s.scheduler.Reaches i c) :
    Settled i c s' := by
  have hinv := inv_of_reachable hr
  obtain rfl := update_step hs
  have hmem := List.mem_map_of_mem
    (f := Scheduler.update_task s.scheduler.max_seq_len s.scheduler.running_batch infer_outputs now) ht
  by_cases hfin : (Scheduler.update_task s.scheduler.max_seq_len s.scheduler.running_batch infer_outputs now t).is_finished
  · refine .inr (Retired.of_mem hinv (List.mem_append_right _ (List.mem_append_right _ (List.mem_append_right _
      (List.mem_append_right _ (List.mem_filter.2 ⟨hmem, hfin⟩))))) hseq hid ?_)
    have hdone := List.all_eq_true.1 hfin seq hseq
    unfold Sequence.is_finished at hdone
    unfold Sequence.is_active
    cases hstatus : seq.status <;> simp [hstatus] at hdone ⊢
  · have hkept := (List.mem_filter (p := (!·.is_finished))).2 ⟨hmem, by simpa using hfin⟩
    rcases hnew with hdone | hlt
    · exact .inr (Retired.of_mem hinv (List.mem_append_left _ hkept) hseq hid hdone)
    · exact .inl ⟨⟨_, List.mem_append_right _ hkept, seq, hseq, hid, hlt⟩, h.congr rfl⟩

omit [Hasher] in
/-- A token is left behind the chunk, or comes, or the sequence is finished. -/
theorem update_seq_longer {max_seq_len now : Nat} {running_batch : Table BatchEntry} {infer_outputs : Table InferOutput}
    (hout : (infer_outputs.lookup seq.seq_id).isSome = true)
    (hentry : running_batch.lookup seq.seq_id = some ⟨c < seq.token_ids.length⟩) (hle : c ≤ seq.token_ids.length) :
    (Scheduler.update_seq max_seq_len running_batch infer_outputs now seq).is_active = false ∨
      c < (Scheduler.update_seq max_seq_len running_batch infer_outputs now seq).token_ids.length := by
  obtain ⟨output, hout⟩ := Option.isSome_iff_exists.1 hout
  unfold Scheduler.update_seq
  rw [hout, hentry]
  dsimp only
  split
  · rename_i hchunked
    exact .inr (of_decide_eq_true hchunked)
  · split
    · exact .inl rfl
    · refine .inr ?_
      rw [Sequence.append_output_id, List.length_append]
      exact Nat.lt_succ_of_le hle

theorem Awaiting.update {infer_outputs : Table InferOutput} {now : Nat} (hr : Reachable cfg s')
    (hs : Op.Step s (.update infer_outputs now) s') (hout : (infer_outputs.lookup i).isSome = true)
    (h : Awaiting i c s) : Settled i c s' := by
  obtain ⟨t, ht, seq, hseq, rfl, hstatus, hle, hentry⟩ := h.queued
  exact settled_of_updated hr hs ht (List.mem_map.2 ⟨seq, hseq, if_pos hstatus⟩) (update_seq_key _ _ _ _ seq).1
    (update_seq_longer hout hentry hle) h.reaches

theorem Settled.update {infer_outputs : Table InferOutput} {now : Nat} (hr : Reachable cfg s')
    (hs : Op.Step s (.update infer_outputs now) s') (hnone : s.scheduler.running_batch.lookup i = none)
    (h : Settled i c s) : Settled i c s' := by
  rcases h with h | h
  · obtain ⟨t, ht, seq, hseq, hid, hlt⟩ := h.queued
    rcases List.mem_append.1 ht with ht | ht
    · obtain rfl := update_step hs
      exact .inl ⟨⟨t, List.mem_append_left _ ht, seq, hseq, hid, hlt⟩, h.reaches.congr rfl⟩
    · have hmem : seq ∈ (Scheduler.update_task s.scheduler.max_seq_len s.scheduler.running_batch infer_outputs now
          t).seqs := by
        refine List.mem_map.2 ⟨seq, hseq, ?_⟩
        unfold Scheduler.update_seq
        rw [hid, hnone]
        split
        · split <;> first | rfl | contradiction
        · rfl
      exact settled_of_updated hr hs ht hmem hid (.inr hlt) h.reaches
  · obtain rfl := update_step hs
    have hupdated : ∀ t ∈ s.scheduler.allocated, InferTask.All (fun seq => seq.seq_id = i → seq.is_active = false)
        (Scheduler.update_task s.scheduler.max_seq_len s.scheduler.running_batch infer_outputs now t) := by
      intro t ht seq' hseq' hid
      obtain ⟨seq, hseq, hupd⟩ := Scheduler.update_task_updated _ _ _ _ hseq'
      have hdone := h.scheduler.allocated t ht seq hseq (hupd.seq_id.symm.trans hid)
      unfold Sequence.is_active at hdone ⊢
      rcases hupd.status with hsame | ⟨-, hfin⟩
      · rw [hsame]; exact hdone
      · rw [hfin]; rfl
    refine .inr ⟨⟨h.scheduler.waiting, fun u hu => ?_, h.scheduler.pending⟩, h.reserving, fun u hu => ?_⟩
    · obtain ⟨t, ht, rfl⟩ := List.mem_map.1 (List.mem_filter.1 hu).1
      exact hupdated t ht
    · rcases List.mem_append.1 hu with hu | hu
      · exact h.finished u hu
      · obtain ⟨t, ht, rfl⟩ := List.mem_map.1 (List.mem_filter.1 hu).1
        exact hupdated t ht

/-! ### The next round -/

theorem Settled.schedule {batch : Scheduler.Batch} {σ : Scheduler} (hr : Reachable cfg s)
    (hq : Scheduler.quits (Scheduler.unpreempted i) s.scheduler = false)
    (hrun : Scheduler.schedule s.scheduler = .ok batch σ) (h : Settled i c s) :
    (∀ x ∈ batch.infer_inputs, x.seq_id = i → x.filled_token_len = c) ∧
      (i ∉ batch.infer_inputs.map (·.seq_id) → Settled i c { s with scheduler := σ }) := by
  obtain ⟨tok, hsys⟩ := reachable_gpu hr
  have hnd := hsys.keys_queues.nodup
  have hsettings : s.settings = (new cfg).settings := by
    obtain ⟨ops, hops⟩ := hr
    exact settings_of_run hops
  rcases h with h | h
  · obtain ⟨t, ht, seq, hseq, hid, hlt⟩ := h.queued
    -- scheduling changes no tokens
    have hsame : ∀ u ∈ σ.waiting ++ σ.allocated, ∀ x ∈ u.seqs, x.seq_id = i → x.token_ids = seq.token_ids := by
      intro u hu x hx hxi
      have hkey := (Scheduler.schedule_keys hrun).subset (key_mem_keys hu hx)
      exact congrArg Prod.snd (List.inj_on_of_nodup_map hnd hkey (key_mem_keys ht hseq) (hxi.trans hid.symm))
    obtain ⟨hinputs, hkept⟩ := h.reaches.schedule hq hnd hrun
    refine ⟨fun x hx hxi => ?_, fun hmem => ?_⟩
    · obtain ⟨seq', hseq', hid', hfilled⟩ := hinputs x hx hxi
      obtain ⟨u, hu, hmem, -⟩ := Scheduler.mem_candidates.1 hseq'
      rw [hfilled, hsame u (List.mem_append_right _ hu) seq' hmem hid']
      omega
    · by_cases hqueued : ∃ u ∈ σ.waiting ++ σ.allocated, ∃ x ∈ u.seqs, x.seq_id = i
      · obtain ⟨u, hu, x, hx, hxi⟩ := hqueued
        exact .inl ⟨⟨u, hu, x, hx, hxi, hsame u hu x hx hxi ▸ hlt⟩, hkept hmem⟩
      · -- the loop with reordering has dropped the task
        have hgone : ∀ u ∈ σ.waiting ++ σ.allocated, ∀ x ∈ u.seqs, x.seq_id ≠ i :=
          fun u hu x hx hxi => hqueued ⟨u, hu, x, hx, hxi⟩
        have hother : ∀ u ∈ s.parked ++ s.finished, ∀ x ∈ u.seqs, x.seq_id ≠ i := fun u hu x hx hxi =>
          (inv_of_reachable hr).queued_apart ht hu (List.mem_map.2 ⟨x, hx, rfl⟩)
            (List.mem_map.2 ⟨seq, hseq, hid.trans hxi.symm⟩)
        have hpending : σ.pending_tasks = s.scheduler.pending_tasks := by
          rw [Scheduler.pending_tasks, (Scheduler.schedule_tally hrun).1, Scheduler.pending_tasks]
        refine .inr ⟨⟨fun u hu x hx hxi => absurd hxi (hgone u (List.mem_append_left _ hu) x hx),
          fun u hu x hx hxi => absurd hxi (hgone u (List.mem_append_right _ hu) x hx), fun u hu x hx hxi => ?_⟩,
          fun u hu x hx hxi => ?_, fun u hu x hx hxi => ?_⟩
        · rw [hpending] at hu
          exact absurd hxi (hother u (List.mem_append_left _ (List.mem_append_left _ hu)) x hx)
        · exact absurd hxi (hother u (List.mem_append_left _ (List.mem_append_right _ hu)) x hx)
        · exact absurd hxi (hother u (List.mem_append_right _ hu) x hx)
  · have heach := ((Scheduler.schedule_each (steady_retired i)).ends h.scheduler).of_ok hrun
    refine ⟨fun x hx hxi => ?_, fun _ => .inr ⟨heach, h.reserving, h.finished⟩⟩
    obtain ⟨t, ht, seq, hseq, hstatus, hchunk, -⟩ := (Scheduler.schedule_budgeted hsettings hnd hrun).chunks x hx
    have hdone := heach.allocated t ht seq hseq (hchunk.seq_id.symm.trans hxi)
    simp [Sequence.is_active, hstatus] at hdone

end

/-! ### Whole rounds -/

section
variable [Hasher]

/-- From the end of one scheduling round to the start of the next: the workers return an output for every input of
the batch. -/
inductive Executed (batch : Scheduler.Batch) (s s' : System) : Prop where
  | mk {ops ops' : List Op} {s₁ s₂ : System} {infer_outputs : Table InferOutput} {now : Nat}
      (before : Run (fun s op s' => op.Quiet ∧ op.Step s s') s ops s₁)
      (complete : ∀ x ∈ batch.infer_inputs, (infer_outputs.lookup x.seq_id).isSome = true)
      (results : Op.Step s₁ (.update infer_outputs now) s₂)
      (after : Run (fun s op s' => op.Quiet ∧ op.Step s s') s₂ ops' s')

/-- From the end of the round that dispatched `batch` to the start of a later one; in the rounds between them
sequence `i` gets no input and is not preempted. -/
inductive Until (i : Nat) : Scheduler.Batch → System → System → Prop where
  | next {batch : Scheduler.Batch} {s s' : System} (executed : Executed batch s s') : Until i batch s s'
  | skip {batch batch' : Scheduler.Batch} {s s₁ s' : System} {σ : Scheduler} (executed : Executed batch s s₁)
      (kept : Scheduler.quits (Scheduler.unpreempted i) s₁.scheduler = false)
      (scheduled : Scheduler.schedule s₁.scheduler = .ok batch' σ)
      (skipped : i ∉ batch'.infer_inputs.map (·.seq_id)) (rest : Until i batch' { s₁ with scheduler := σ } s') :
      Until i batch s s'

variable {cfg : SchedulerConfig} {i c : Nat} {Occ : List Nat → Prop} {s s' : System} {batch : Scheduler.Batch}
  {ops : List Op} {σ : Scheduler}

/-- A sequence of the batch, or one that is not in it. -/
def Followed (i c : Nat) (batch : Scheduler.Batch) (s : System) : Prop :=
  Awaiting i c s ∧ i ∈ batch.infer_inputs.map (·.seq_id) ∨ Settled i c s ∧ s.scheduler.running_batch.lookup i = none

theorem Settled.quiet_run (hr : Reachable cfg s) (hlt : i < s.next_seq_id)
    (hrun : Run (fun s op s' => op.Quiet ∧ op.Step s s') s ops s') (h : Settled i c s) : Settled i c s' := by
  refine (hrun.invariant (I := fun s => Reachable cfg s ∧ i < s.next_seq_id ∧ Settled i c s) ⟨hr, hlt, h⟩ ?_).2.2
  rintro s op s' ⟨hr, hlt, h⟩ ⟨hop, hs⟩
  refine ⟨hr.run (.snoc .nil hs), hlt.trans_le (Op.Parks.of_step hs).next_seq_le, ?_⟩
  exact h.imp (fun h => h.quiet hr hop hs) fun h => h.quiet hlt hop hs

theorem Awaiting.quiet_run (hr : Reachable cfg s) (hrun : Run (fun s op s' => op.Quiet ∧ op.Step s s') s ops s')
    (h : Awaiting i c s) : Awaiting i c s' :=
  (hrun.invariant (I := fun s => Reachable cfg s ∧ Awaiting i c s) ⟨hr, h⟩ fun _ _ _ ⟨hr, h⟩ ⟨hop, hs⟩ =>
    ⟨hr.run (.snoc .nil hs), h.quiet hr hop hs⟩).2

theorem Followed.executed (hr : Reachable cfg s) (hlt : i < s.next_seq_id) (h : Followed i c batch s)
    (hrun : Executed batch s s') : Reachable cfg s' ∧ i < s'.next_seq_id ∧ Settled i c s' := by
  obtain ⟨hbefore, hcomplete, hresults, hafter⟩ := hrun
  rename_i ops ops' s₁ s₂ infer_outputs now
  have hr₁ : Reachable cfg s₁ := hr.run (hbefore.mono fun _ _ _ hs => hs.2)
  have hr₂ : Reachable cfg s₂ := hr₁.run (.snoc .nil hresults)
  have hids : ∀ {s s' : System} {ops : List Op}, Run (fun s op s' => op.Quiet ∧ op.Step s s') s ops s' →
      s.next_seq_id ≤ s'.next_seq_id := fun {s s' ops} hrun =>
    hrun.invariant (I := fun s' => s.next_seq_id ≤ s'.next_seq_id) (Nat.le_refl _)
      fun _ _ _ hle hs => hle.trans (Op.Parks.of_step hs.2).next_seq_le
  have hlt₁ := hlt.trans_le (hids hbefore)
  have hlt₂ := hlt₁.trans_le (Op.Parks.of_step hresults).next_seq_le
  refine ⟨hr₂.run (hafter.mono fun _ _ _ hs => hs.2), hlt₂.trans_le (hids hafter), ?_⟩
  refine Settled.quiet_run hr₂ hlt₂ hafter ?_
  rcases h with ⟨h, hmem⟩ | ⟨h, hnone⟩
  · obtain ⟨x, hx, rfl⟩ := List.mem_map.1 hmem
    exact (h.quiet_run hr hbefore).update hr₂ hresults (hcomplete x hx)
  · have hfrozen : s₁.frozen = s.frozen := hbefore.invariant (I := fun s₁ => s₁.frozen = s.frozen) rfl
      fun _ _ _ heq hs => (hs.1.frozen hs.2).trans heq
    have hbatch : s₁.scheduler.running_batch = s.scheduler.running_batch := congrArg (·.2.1) hfrozen
    exact (Settled.quiet_run hr hlt hbefore h).update hr₂ hresults (hbatch ▸ hnone)

theorem Followed.until (hr : Reachable cfg s) (hlt : i < s.next_seq_id) (h : Followed i c batch s)
    (hrun : Until i batch s s') : Reachable cfg s' ∧ Settled i c s' := by
  induction hrun with
  | next hexec =>
    obtain ⟨hr', -, hsettled⟩ := h.executed hr hlt hexec
    exact ⟨hr', hsettled⟩
  | @skip batch batch' s s₁ s' σ hexec hq hsch hskip hrest ih =>
    obtain ⟨hr₁, hlt₁, hsettled⟩ := h.executed hr hlt hexec
    have hstep : Op.Step s₁ .schedule { s₁ with scheduler := σ } :=
      bind_ok.2 ⟨batch', _, zoom_ok.2 ⟨σ, hsch, rfl⟩, rfl⟩
    refine ih (hr₁.run (.snoc .nil hstep)) hlt₁ (.inr ⟨(hsettled.schedule hr₁ hq hsch).2 hskip, ?_⟩)
    obtain ⟨tok, hsys⟩ := reachable_gpu hr₁
    have hsettings : s₁.settings = (new cfg).settings := by
      obtain ⟨ops, hops⟩ := hr₁
      exact settings_of_run hops
    have hbudget := Scheduler.schedule_budgeted hsettings hsys.keys_queues.nodup hsch
    rw [show ({ s₁ with scheduler := σ } : System).scheduler.running_batch = _ from hbudget.stored,
      AList.lookup_eq_none]
    exact fun hmem => hskip (hbudget.keys.mem_iff.1 hmem)

/-- A round brings the levels of every sequence it dispatches up to date. -/
theorem awaiting_of_schedule (hzero : ∀ P, Occ P → compute_hash P ≠ 0) (h : OccRun Occ cfg ops s)
    (hrun : Scheduler.schedule s.scheduler = .ok batch σ) (hbudget : Scheduler.Budgeted cfg σ batch) {x : InferInput}
    (hx : x ∈ batch.infer_inputs) : Awaiting x.seq_id x.context_len { s with scheduler := σ } := by
  obtain ⟨t, ht, seq, hseq, hstatus, hchunk, entry, hentry, hchunked⟩ := hbudget.chunks x hx
  refine ⟨⟨t, ht, seq, hseq, hchunk.seq_id.symm, hstatus, hchunk.le_tokens, ?_⟩, ?_⟩
  · have heq : entry = ⟨x.context_len < seq.token_ids.length⟩ := by
      obtain ⟨chunked⟩ := entry
      exact congrArg BatchEntry.mk (Bool.eq_iff_iff.2 (hchunked.trans decide_eq_true_iff.symm))
    show σ.running_batch.lookup x.seq_id = _
    rw [hbudget.stored, hentry, heq]
  · have hlevels := (leveled_of_run hzero h).levels
    obtain ⟨tok, hinv⟩ := SysInv.run (D := (· ≠ .Disk)) (TokenRel.lengths Occ) (fun _ _ _ => hzero) h
    have hnd := Scheduler.candidates_nodup_of_schedule hinv.keys_queues.nodup hrun
    obtain ⟨σ₁, s₁, rest, hphases, hat, rfl⟩ := Scheduler.schedule_ok hrun
    have hA : ({ s₁ with running_batch := batch.running_batch } : Scheduler).allocated = σ₁.allocated :=
      (Scheduler.control_eq hat.control).2.1
    rw [Scheduler.candidates_congr hA] at hnd
    exact (hat.reaches (kept_near (TokenRel.lengths Occ) hinv.keys_queues) hinv.paged hinv.keys_queues.tok
      cfg.block_size_pos (hinv.phases_sound (TokenRel.lengths Occ) hphases) (hinv.phases_levels hlevels hphases)
      hnd x hx).congr rfl

/-- A batch keeps to the limits, and hands out chunks of distinct sequences. Where no prefix has the hash `0`, the
mark of a block without one, a sequence of the batch that is not preempted before it is dispatched again resumes
where its chunk ended: no token is left out or computed twice. -/
theorem dispatch_tiles (h : OccRun Occ cfg ops s) (hrun : Scheduler.schedule s.scheduler = .ok batch σ) :
    Scheduler.Budgeted cfg σ batch ∧
    ((∀ P, Occ P → compute_hash P ≠ 0) → ∀ x ∈ batch.infer_inputs, ∀ s' batch' σ' x',
      Until x.seq_id batch { s with scheduler := σ } s' →
      Scheduler.quits (Scheduler.unpreempted x.seq_id) s'.scheduler = false →
      Scheduler.schedule s'.scheduler = .ok batch' σ' → x' ∈ batch'.infer_inputs → x'.seq_id = x.seq_id →
        x'.filled_token_len = x.context_len) := by
  have hplain : Run Op.Step (System.new cfg) ops s := h.mono fun _ _ _ hs => hs.1
  obtain ⟨tok, hsys⟩ := reachable_gpu ⟨ops, hplain⟩
  have hnd := hsys.keys_queues.nodup
  have hbudget := Scheduler.schedule_budgeted (settings_of_run hplain) hnd hrun
  refine ⟨hbudget, fun hzero x hx s' batch' σ' x' huntil hq hrun' hx' hid => ?_⟩
  have hstep : Op.Step s .schedule { s with scheduler := σ } :=
    bind_ok.2 ⟨batch, _, zoom_ok.2 ⟨σ, hrun, rfl⟩, rfl⟩
  have hlt : x.seq_id < s.next_seq_id := by
    obtain ⟨t, ht, seq, hseq, -, hchunk, -⟩ := hbudget.chunks x hx
    have hkey := (Scheduler.schedule_keys hrun).subset (key_mem_keys (List.mem_append_right _ ht) hseq)
    rw [hchunk.seq_id]
    exact hsys.keys_queues.lt _ hkey
  have hfollowed : Followed x.seq_id x.context_len batch { s with scheduler := σ } :=
    .inl ⟨awaiting_of_schedule hzero h hrun hbudget hx, List.mem_map.2 ⟨x, hx, rfl⟩⟩
  obtain ⟨hr', hsettled⟩ := hfollowed.until ⟨_, hplain.snoc hstep⟩ hlt huntil
  exact (hsettled.schedule hr' hq hrun').1 x' hx' hid

end

/-- The next two rounds, with the results in between, have the input of sequence 0 alone, and the second
one preempts nothing. -/
def chunk_then_rest [Hasher] (outputs : Table InferOutput) (s : System) : Bool :=
  match Scheduler.schedule s.scheduler with
  | .ok batch σ =>
    match Op.next { s with scheduler := σ } (.update outputs 1) with
    | some s' =>
      match Scheduler.schedule s'.scheduler with
      | .ok batch' _ => batch.infer_inputs.map (·.seq_id) = [0] ∧ batch'.infer_inputs.map (·.seq_id) = [0] ∧
        Scheduler.quits (Scheduler.unpreempted 0) s'.scheduler = false
      | .error _ _ => false
    | none => false
  | .error _ _ => false

/-- The prompt of `fourTokens` under a budget of three tokens. -/
theorem dispatch_tiles_chunked :
    let _ := decimalHasher
    ∃ s batch σ x s' batch' σ' x', Reachable (chunkedConfig 3) s ∧ Scheduler.schedule s.scheduler = .ok batch σ ∧
      x ∈ batch.infer_inputs ∧ Until x.seq_id batch { s with scheduler := σ } s' ∧
      Scheduler.schedule s'.scheduler = .ok batch' σ' ∧ x' ∈ batch'.infer_inputs ∧
      Scheduler.Budgeted (chunkedConfig 3) σ batch ∧ x'.filled_token_len = x.context_len := by
  let _ := decimalHasher
  obtain ⟨outputs, houtputs⟩ : ∃ outputs : Table InferOutput,
    outputs = (∅ : Table InferOutput).insert 0 ⟨9, 1, "", false⟩ := ⟨_, rfl⟩
  have hfollow : (Run.follow Op.next (System.new (chunkedConfig 3)) fourTokens).any
      (chunk_then_rest outputs) = true := by
    rw [houtputs]
    decide +kernel
  obtain ⟨s, hrun, hs⟩ := Run.exists_of_follow (fun _ _ _ => Op.step_of_next) hfollow
  have hocc : OccRun AnyPrefix (chunkedConfig 3) fourTokens s :=
    hrun.mono fun _ _ _ hstep => ⟨hstep, fun _ _ _ _ _ => trivial⟩
  unfold chunk_then_rest at hs
  split at hs
  · rename_i batch σ hsch
    split at hs
    · rename_i s' hnext
      split at hs
      · rename_i batch' σ' hsch'
        obtain ⟨hids, hids', hq⟩ := of_decide_eq_true hs
        obtain ⟨x, hx, hid⟩ : ∃ x ∈ batch.infer_inputs, x.seq_id = 0 := List.mem_map.1 (hids ▸ List.mem_singleton_self 0)
        obtain ⟨x', hx', hid'⟩ : ∃ x ∈ batch'.infer_inputs, x.seq_id = 0 :=
          List.mem_map.1 (hids' ▸ List.mem_singleton_self 0)
        have huntil : Until x.seq_id batch { s with scheduler := σ } s' := by
          refine .next (.mk .nil (fun y hy => ?_) (Op.step_of_next hnext) .nil)
          have hy0 : y.seq_id ∈ [0] := hids ▸ List.mem_map.2 ⟨y, hy, rfl⟩
          rw [List.mem_singleton.1 hy0, houtputs, AList.lookup_insert]
          rfl
        have htiles := dispatch_tiles hocc hsch
        exact ⟨s, batch, σ, x, s', batch', σ', x', ⟨_, hrun⟩, hsch, hx, huntil, hsch', hx', htiles.1,
          htiles.2 (fun P _ => decimalHasher_ne_zero P) x hx s' batch' σ' x' huntil (hid ▸ hq) hsch' hx'
            (hid'.trans hid.symm)⟩
      · cases hs
    · cases hs
  · cases hs

end System

end LMServe
