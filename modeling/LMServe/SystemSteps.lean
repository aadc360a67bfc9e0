import LMServe.SystemInv

/-!
# Every step keeps the page tables

One lemma for each kind of step of `Op`, then the step and run lemmas for `SysInv`.
-/

namespace LMServe
open Hoare Chunk BlockManager

namespace System

theorem on_scheduler_ok {α : Type} {x : SM α} {s s' : System} {a : α}
    (h : on_scheduler x s = .ok a s') :
    ∃ σ, x s.scheduler = .ok a σ ∧ s' = { s with scheduler := σ } :=
  zoom_ok.1 h

theorem generate_id_ok {s s' : System} {r : Nat} (h : generate_id s = .ok r s') :
    r = s.next_region_id ∧ s' = { s with next_region_id := s.next_region_id + 1 } := by
  obtain ⟨_, _, hget, h⟩ := bind_ok.1 h
  obtain ⟨rfl, rfl⟩ : _ ∧ _ := by simpa using hget
  obtain ⟨_, s₁, hmod, h⟩ := bind_ok.1 h
  obtain rfl : { s with next_region_id := s.next_region_id + 1 } = s₁ := by simpa using hmod
  obtain ⟨rfl, rfl⟩ : _ = r ∧ _ = s' := by simpa using h
  exact ⟨rfl, rfl⟩

theorem create_task_ok {request : GenerateRequest} {arrival : Nat} {s s' : System} {t : InferTask}
    (h : create_task request arrival s = .ok t s') :
    t = request.to_task s.next_seq_id arrival ∧
      s' = { s with next_seq_id := s.next_seq_id + request.num_samples } := by
  obtain ⟨_, _, hget, h⟩ := bind_ok.1 h
  obtain ⟨rfl, rfl⟩ : _ ∧ _ := by simpa using hget
  obtain ⟨_, s₁, hmod, h⟩ := bind_ok.1 h
  obtain rfl : { s with next_seq_id := s.next_seq_id + request.num_samples } = s₁ := by
    simpa using hmod
  obtain ⟨rfl, rfl⟩ : _ = t ∧ _ = s' := by simpa using h
  exact ⟨rfl, rfl⟩

section
variable [Hasher] {R : List Nat → List Nat → Prop} {Occ : List Nat → Prop} {D : Device → Prop}
  {c : SchedulerConfig} {tok : Nat → List Nat} {s s' : System}

/-- The regions a step may add: one, on one device. -/
def regionOn (d : Device) (r : Nat) (d' : Device) : List Nat := if d' = d then [r] else []

omit [Hasher] in
theorem lt_of_mem_regionOn {d d' : Device} {r : Nat} (hd : d ≠ .Gpu)
    (hr : r ∈ regionOn d s.next_region_id d') :
    r < ({ s with next_region_id := s.next_region_id + 1 } : System).region_limit d' := by
  unfold regionOn at hr
  split at hr
  · rename_i hd'
    obtain rfl : r = s.next_region_id := by simpa using hr
    rw [hd']
    cases d with
    | Gpu => exact absurd rfl hd
    | Host => exact Nat.lt_succ_self _
    | Disk => exact Nat.lt_succ_self _
  · simp at hr

/-! ### Scheduling and its results -/

section
variable (hR : TokenRel R Occ)
include hR

theorem kept_near {K : List (Nat × List Nat)} {lim : Nat} {σ : Scheduler} {rids : Device → List Nat}
    (hK : KeysOk Occ tok lim K) :
    Scheduler.Kept K (Near R Occ D c tok σ (K.map Prod.fst) rids) (Safe D) where
  get_num_required_blocks _ _ hseq := near_safe fun _ =>
    get_num_required_blocks_owned (hK.tok _ hseq)
  alloc_blocks _ _ hseq := near_safe fun _ => alloc_blocks_owned hR
    (List.mem_map.2 ⟨_, hseq, rfl⟩) (hK.tok _ hseq) (hK.occ _ hseq)
  init_prefix _ _ hseq := near_safe fun _ => init_prefix_cache_blocks_owned hR
    (List.mem_map.2 ⟨_, hseq, rfl⟩) (hK.tok _ hseq) (hK.occ _ hseq)
  update_filled_len _ _ _ hseq := near_safe fun _ => update_filled_len_owned
    (List.mem_map.2 ⟨_, hseq, rfl⟩)
  free hseq := near_safe fun _ => free_owned (List.mem_map.2 ⟨_, hseq, rfl⟩)
  outOfFuel _ := ⟨by decide, by decide⟩
  watched _ := ⟨by decide, by decide⟩

theorem SysInv.schedule [Watch] (h : SysInv R Occ D c tok s) {batch : Scheduler.Batch} {σ : Scheduler}
    (hrun : Scheduler.schedule s.scheduler = .ok batch σ) :
    SysInv R Occ D c tok { s with scheduler := σ } := by
  obtain ⟨hP, -, hT⟩ := Scheduler.schedule_tally hrun
  have hsplit : s.tasks = (s.scheduler.waiting ++ s.scheduler.allocated) ++ (s.parked ++ s.finished) := by
    simp [tasks, parked]
  have hkeys := h.keys
  rw [hsplit, keys_append] at hkeys
  have hK : KeysOk Occ tok s.next_seq_id (LMServe.keys (s.scheduler.waiting ++ s.scheduler.allocated)) :=
    hkeys.subperm (List.sublist_append_left ..).subperm
  have hstart : Scheduler.OnDevices (Near R Occ D c tok s.scheduler
      ((LMServe.keys (s.scheduler.waiting ++ s.scheduler.allocated)).map Prod.fst) fun _ => [])
      s.scheduler := h.start
  have hsound := (Scheduler.schedule_kept (kept_near hR hK)).of_ok
    ⟨hstart, fun t ht seq hseq => key_mem_keys (List.mem_append_left _ ht) hseq,
      fun t ht seq hseq => key_mem_keys (List.mem_append_right _ ht) hseq⟩ hrun
  have hpend : σ.pending_tasks = s.scheduler.pending_tasks := by
    simp only [Scheduler.pending_tasks, hP]
  have hsub : (LMServe.keys (σ.waiting ++ σ.allocated)).Subperm
      (LMServe.keys (s.scheduler.waiting ++ s.scheduler.allocated)) := by
    refine keys_subperm_of_tally fun a => ?_
    rw [tally_append, tally_append]; exact (hT a).1
  refine SysInv.of_near (σ := s.scheduler) h.devices hsound.devices (fun i hi => ?_) (by simp) ?_
    fun hD t ht seq hseq => ?_
  · obtain ⟨p, hp, rfl⟩ := List.mem_map.1 hi
    exact hK.lt p hp
  · have hsplit' : ({ s with scheduler := σ } : System).tasks =
        (σ.waiting ++ σ.allocated) ++ (s.parked ++ s.finished) := by
      simp [tasks, parked, hpend]
    rw [hsplit', keys_append]
    exact hkeys.subperm (hsub.append (List.Subperm.refl _))
  · have ht' : t ∈ s.parked := by simpa [parked, hpend] using ht
    refine h.aligned_of_near _ hsound.devices hD ht' hseq fun hmem => ?_
    obtain ⟨p, hp, hpi⟩ := List.mem_map.1 hmem
    exact hkeys.disjoint hp (key_mem_keys (List.mem_append_left _ ht') hseq) hpi

end

omit [Hasher] in
/-- `update` appends to the tokens of sequences. -/
theorem update_seq_key (max_seq_len : Nat) (running_batch : Table BatchEntry)
    (infer_outputs : Table InferOutput) (now : Nat) (seq : Sequence) :
    (Scheduler.update_seq max_seq_len running_batch infer_outputs now seq).seq_id = seq.seq_id ∧
      seq.token_ids <+:
        (Scheduler.update_seq max_seq_len running_batch infer_outputs now seq).token_ids := by
  unfold Scheduler.update_seq
  split
  · split
    · exact ⟨rfl, List.prefix_refl _⟩
    · dsimp only
      split <;> exact ⟨rfl, List.prefix_append _ _⟩
  · exact ⟨rfl, List.prefix_refl _⟩

omit [Hasher] in
theorem update_task_keys (max_seq_len : Nat) (running_batch : Table BatchEntry)
    (infer_outputs : Table InferOutput) (now : Nat) (t : InferTask) :
    List.Forall₂ (fun p q : Nat × List Nat => q.1 = p.1 ∧ p.2 <+: q.2) t.keys
      (Scheduler.update_task max_seq_len running_batch infer_outputs now t).keys := by
  simp only [InferTask.keys, Scheduler.update_task, List.map_map]
  rw [List.forall₂_map_left_iff, List.forall₂_map_right_iff, List.forall₂_same]
  intro seq _
  simp only [Function.comp_apply, Sequence.key]
  split
  · exact update_seq_key _ _ _ _ seq
  · exact ⟨rfl, List.prefix_refl _⟩

omit [Hasher] in
theorem update_tasks_keys (max_seq_len : Nat) (running_batch : Table BatchEntry)
    (infer_outputs : Table InferOutput) (now : Nat) (l : List InferTask) :
    List.Forall₂ (fun p q : Nat × List Nat => q.1 = p.1 ∧ p.2 <+: q.2) (LMServe.keys l)
      (LMServe.keys (l.map (Scheduler.update_task max_seq_len running_batch infer_outputs now))) := by
  induction l with
  | nil => exact .nil
  | cons t l ih =>
    rw [List.map_cons, keys_cons, keys_cons]
    exact List.rel_append (update_task_keys _ _ _ _ t) ih

theorem SysInv.update (h : SysInv R Occ D c tok s) {infer_outputs : Table InferOutput} {now : Nat}
    {finished : List InferTask} (hrun : System.update infer_outputs now s = .ok finished s')
    (hocc : s'.Occurring Occ) : ∃ tok', SysInv R Occ D c tok' s' := by
  obtain ⟨fin, s₁, hupd, hrun⟩ := bind_ok.1 hrun
  obtain ⟨σ, hσ, rfl⟩ := on_scheduler_ok hupd
  obtain ⟨_, _, hget, hσ⟩ := bind_ok.1 hσ
  obtain ⟨rfl, rfl⟩ : _ ∧ _ := by simpa using hget
  obtain ⟨_, σ₁, hmod, hσ⟩ := bind_ok.1 hσ
  simp only [modify_apply, EStateM.Result.ok.injEq, true_and] at hmod
  obtain ⟨rfl, rfl⟩ : _ = fin ∧ σ₁ = σ := by simpa using hσ
  obtain ⟨_, s₂, hmod₂, hrun⟩ := bind_ok.1 hrun
  simp only [modify_apply, EStateM.Result.ok.injEq, true_and] at hmod₂
  obtain ⟨-, rfl⟩ : _ ∧ s₂ = s' := by simpa using hrun
  subst hmod
  obtain ⟨A, hA⟩ : ∃ A, A = s.scheduler.allocated.map (Scheduler.update_task s.scheduler.max_seq_len
      s.scheduler.running_batch infer_outputs now) := ⟨_, rfl⟩
  have hrel := update_tasks_keys s.scheduler.max_seq_len s.scheduler.running_batch infer_outputs now
    s.scheduler.allocated
  rw [← hA] at hrel hmod₂
  -- the tasks before and after, with the allocated ones in front
  have hbefore : s.tasks.Perm (s.scheduler.allocated ++
      (s.scheduler.waiting ++ (s.scheduler.pending_tasks ++ (s.reserving ++ s.finished)))) := by
    simp only [tasks, List.append_assoc]
    exact List.perm_append_comm_assoc ..
  have hafter : s₂.tasks.Perm (A ++
      (s.scheduler.waiting ++ (s.scheduler.pending_tasks ++ (s.reserving ++ s.finished)))) := by
    rw [← hmod₂]
    have hparts := List.filter_append_perm (fun t : InferTask => !t.is_finished) A
    simp only [Bool.not_not] at hparts
    refine List.Perm.trans ?_ (hparts.append_right _)
    simp only [tasks, Scheduler.pending_tasks, List.append_assoc]
    refine (List.perm_append_comm_assoc ..).trans (List.Perm.append_left _ ?_)
    have hassoc : ∀ W P Q F G : List InferTask,
        W ++ (P ++ (Q ++ (F ++ G))) = (W ++ (P ++ (Q ++ F))) ++ G := by simp
    rw [hassoc]
    exact List.perm_append_comm
  have hkeys := h.keys.perm (keys_perm hbefore.symm)
  rw [keys_append] at hkeys
  obtain ⟨hkeys', hgrow⟩ := hkeys.update hrel fun q hq k => by
    obtain ⟨t, ht, hq⟩ := List.mem_flatMap.1 hq
    obtain ⟨seq, hseq, rfl⟩ := List.mem_map.1 hq
    exact hocc t (hafter.mem_iff.2 (List.mem_append_left _ ht)) seq hseq k
  refine ⟨override tok (LMServe.keys A), ?_, fun d hD => ?_, ?_⟩
  · rw [← keys_append] at hkeys'
    have := hkeys'.perm (keys_perm hafter)
    rw [← hmod₂] at this ⊢
    exact this
  · have hgrown := (h.devices d hD).grow (Nat.le_refl _) (Nat.le_refl _) fun i _ => hgrow i
    rw [← hmod₂]
    cases d <;> exact hgrown
  · rw [← hmod₂]; exact h.aligned

/-! ### Regions -/

/-- Giving regions up, and clearing the cache, touches no map and adds no region. -/
theorem SysInv.of_still (h : SysInv R Occ D c tok s) {σ : Scheduler} {α : Type} {x : SM α} {a : α}
    (hk : Keeps Scheduler.control x)
    (hx : Triple (Scheduler.OnDevices (Near R Occ D c tok s.scheduler [] fun _ => [])) x
      (fun _ => Scheduler.OnDevices (Near R Occ D c tok s.scheduler [] fun _ => [])) AnyError)
    (hrun : x s.scheduler = .ok a σ) : SysInv R Occ D c tok { s with scheduler := σ } := by
  obtain ⟨hW, hA, hP, -⟩ := Scheduler.control_eq (hk.of_ok hrun)
  have hpend : σ.pending_tasks = s.scheduler.pending_tasks := by
    simp only [Scheduler.pending_tasks, hP]
  refine h.of_quiet_near rfl rfl (hx.of_ok h.start hrun) (by simp) ?_ fun t ht => ?_
  · simp only [tasks, hW, hA, hpend]; exact List.Perm.refl _
  · simpa only [parked, hpend] using ht

theorem SysInv.commit (h : SysInv R Occ D c tok s) {region : DeviceBlockRegion} {σ : Scheduler}
    {k : Nat} (hrun : Scheduler.commit_reserved_blocks region s.scheduler = .ok k σ) :
    SysInv R Occ D c tok { s with scheduler := σ } :=
  h.of_still (Scheduler.on_device_keeps _ _) (Scheduler.on_device_triple
    (near_triple fun _ => activate_reserved_blocks_owned _ _)) hrun

theorem SysInv.unpin (h : SysInv R Occ D c tok s) {region : DeviceBlockRegion} {σ : Scheduler}
    (hrun : Scheduler.unpin_blocks region s.scheduler = .ok .unit σ) :
    SysInv R Occ D c tok { s with scheduler := σ } := by
  refine h.of_still (Scheduler.on_device_keeps _ _) (Scheduler.on_device_triple ?_) hrun
  exact Triple.bind (near_triple fun _ => unpin_blocks_owned _) fun _ => Triple.pure fun _ hm => hm

theorem SysInv.clear_cache (h : SysInv R Occ D c tok s) {σ : Scheduler}
    (hrun : Scheduler.clear_cache s.scheduler = .ok .unit σ) :
    SysInv R Occ D c tok { s with scheduler := σ } :=
  h.of_still (Keeps.forM (fun d => Scheduler.on_device_keeps d _) _)
    (triple_forM_mem fun _ _ => Scheduler.on_device_triple (near_triple fun _ => clear_cache_owned)) hrun

section
variable (hR : TokenRel R Occ)
  (hz : ∀ d, D d → d ≠ .Gpu → ∀ P, Occ P → compute_hash P ≠ 0)
include hR hz

omit hR hz in
/-- An operation that takes the next region id for a region on `d` and touches no map. -/
theorem SysInv.of_region (h : SysInv R Occ D c tok s) {σ : Scheduler} {α : Type} {x : Nat → SM α}
    {a : α} {d : Device} (hd : d ≠ .Gpu) (hk : Keeps Scheduler.control (x s.next_region_id))
    (hx : Triple (Scheduler.OnDevices (Near R Occ D c tok s.scheduler [] fun _ => []))
      (x s.next_region_id) (fun _ => Scheduler.OnDevices (Near R Occ D c tok s.scheduler []
        (regionOn d s.next_region_id))) AnyError)
    (hrun : x s.next_region_id s.scheduler = .ok a σ) :
    SysInv R Occ D c tok { s with next_region_id := s.next_region_id + 1, scheduler := σ } := by
  obtain ⟨hW, hA, hP, -⟩ := Scheduler.control_eq (hk.of_ok hrun)
  have hpend : σ.pending_tasks = s.scheduler.pending_tasks := by
    simp only [Scheduler.pending_tasks, hP]
  refine h.next_region.of_quiet_near rfl rfl (hx.of_ok h.start hrun) (fun d' r hr => ?_) ?_
    fun t ht => ?_
  · exact lt_of_mem_regionOn hd hr
  · simp only [tasks, hW, hA, hpend]; exact List.Perm.refl _
  · simpa only [parked, hpend] using ht

theorem reserve_near (h : SysInv R Occ D c tok s) {d : Device} (hd : d ≠ .Gpu) {ids : List Nat}
    {T : List Nat} (hT : ∀ k, Occ (T.take k)) (start : Nat) :
    Triple (Near R Occ D c tok s.scheduler ids (fun _ => []) d)
      (reserve_blocks s.next_region_id T start)
      (fun _ => Near R Occ D c tok s.scheduler ids (regionOn d s.next_region_id) d) AnyError := by
  refine near_triple fun hD => ?_
  rw [regionOn, if_pos rfl]
  exact reserve_blocks_owned hR (hz d hD hd) (h.fresh_region hD) hT start

omit hR hz in
theorem near_mono {σ : Scheduler} {ids : List Nat} {d : Device} {r : Nat} (d' : Device)
    (m : BlockManager) (h : Near R Occ D c tok σ ids (fun _ => []) d' m) :
    Near R Occ D c tok σ ids (regionOn d r) d' m :=
  fun hD => (h hD).mono (fun _ hi => hi) (by simp)

theorem SysInv.pin (h : SysInv R Occ D c tok s) {hash_values : List Nat} {region : DeviceBlockRegion}
    (hrun : pin_blocks hash_values s = .ok region s') : SysInv R Occ D c tok s' := by
  obtain ⟨r, s₁, hid, hrun⟩ := bind_ok.1 hrun
  obtain ⟨rfl, rfl⟩ := generate_id_ok hid
  obtain ⟨σ, hσ, rfl⟩ := on_scheduler_ok hrun
  refine h.of_region (d := .Host) (x := fun r => Scheduler.pin_blocks r hash_values .Host)
    (by simp) ?_ ?_ hσ
  · exact (Scheduler.on_device_keeps _ _).bind fun _ => Keeps.pure _
  · refine Triple.bind (Scheduler.on_device_triple_of (near_triple fun hD => ?_) near_mono) fun _ =>
      Triple.pure fun _ hm => hm
    rw [regionOn, if_pos rfl]
    exact pin_blocks_by_hashes_owned hR (hz _ hD (by simp)) (h.fresh_region hD) hash_values

theorem SysInv.backup (h : SysInv R Occ D c tok s) {i : Nat}
    {plan : Option (DeviceBlockRegion × BlockMapping)} (hrun : System.backup i s = .ok plan s') :
    SysInv R Occ D c tok s' := by
  obtain ⟨_, _, hget, hrun⟩ := bind_ok.1 hrun
  obtain ⟨rfl, rfl⟩ : _ ∧ _ := by simpa using hget
  cases hi : s.finished[i]? with
  | none =>
    simp only [hi] at hrun
    obtain ⟨-, rfl⟩ : _ ∧ s = s' := by simpa using hrun
    exact h
  | some t =>
    simp only [hi] at hrun
    obtain ⟨r, s₁, hid, hrun⟩ := bind_ok.1 hrun
    obtain ⟨rfl, rfl⟩ := generate_id_ok hid
    obtain ⟨σ, hσ, rfl⟩ := on_scheduler_ok hrun
    have ht : t ∈ s.tasks := List.mem_append_right _ (List.mem_of_getElem? hi)
    refine h.of_region (d := .Disk) (x := fun r => Scheduler.backup r t) (by simp)
      (Scheduler.backup_keeps _ t) ?_ hσ
    unfold Scheduler.backup
    split
    · exact Triple.throw trivial
    · rename_i head hhead
      have hmem := (List.mem_filter.1 (List.mem_of_mem_head? hhead)).1
      refine Scheduler.reserve_copy_blocks_triple (fun k start => ?_) near_mono
      refine reserve_near hR hz h (by simp) (fun k' => ?_) start
      rw [List.take_take]
      exact (h.known ht hmem).2.2 _

/-! ### Tasks -/

omit hR hz in
theorem SysInv.remove_task (h : SysInv R Occ D c tok s) {i : Nat}
    (hrun : System.remove_task i s = .ok .unit s') : SysInv R Occ D c tok s' := by
  obtain ⟨_, _, hget, hrun⟩ := bind_ok.1 hrun
  obtain ⟨rfl, rfl⟩ : _ ∧ _ := by simpa using hget
  cases hi : s.finished[i]? with
  | none =>
    simp only [hi] at hrun
    obtain rfl : s = s' := by simpa using hrun
    exact h
  | some t =>
    simp only [hi] at hrun
    obtain ⟨_, s₁, hsch, hrun⟩ := bind_ok.1 hrun
    obtain ⟨σ, hσ, rfl⟩ := on_scheduler_ok hsch
    obtain rfl : _ = s' := by simpa using hrun
    have ht : t ∈ s.finished := List.mem_of_getElem? hi
    have htask : t ∈ s.tasks := List.mem_append_right _ ht
    have hdev := (Scheduler.remove_task_triple (t := t) (I := Near R Occ D c tok s.scheduler
      (t.keys.map Prod.fst) fun _ => [])
      (fun seq hseq d => near_triple fun _ => free_owned
        (List.mem_map.2 ⟨seq.key, List.mem_map.2 ⟨seq, hseq, rfl⟩, rfl⟩))
      (fun seq hseq d => near_triple fun _ => free_and_drop_cache_owned
        (List.mem_map.2 ⟨seq.key, List.mem_map.2 ⟨seq, hseq, rfl⟩, rfl⟩))).of_ok h.start hσ
    obtain ⟨hW, hA, hP, -⟩ := Scheduler.control_eq ((Scheduler.remove_task_keeps t).of_ok hσ)
    have hpend : σ.pending_tasks = s.scheduler.pending_tasks := by
      simp only [Scheduler.pending_tasks, hP]
    have hsub : ({ s with scheduler := σ, finished := s.finished.eraseIdx i } : System).tasks.Sublist
        s.tasks := by
      simp only [tasks, hW, hA, hpend]
      exact (List.eraseIdx_sublist ..).append_left _
    refine SysInv.of_near (σ := s.scheduler) h.devices hdev (fun j hj => ?_) (by simp)
      (h.keys.subperm (hsub.flatMap _).subperm) fun hD u hu seq hseq => ?_
    · obtain ⟨p, hp, rfl⟩ := List.mem_map.1 hj
      exact h.keys.lt p (List.mem_flatMap.2 ⟨t, htask, hp⟩)
    · have hu' : u ∈ s.parked := by simpa only [parked, hpend] using hu
      refine h.aligned_of_near ⟨σ, 0, 0, [], []⟩ hdev hD hu' hseq fun hmem => ?_
      obtain ⟨p, hp, hpi⟩ := List.mem_map.1 hmem
      have hkeys := h.keys
      have hsplit : s.tasks = (s.scheduler.waiting ++ s.scheduler.allocated ++ s.parked) ++ s.finished := by
        simp [tasks, parked]
      rw [hsplit, keys_append] at hkeys
      exact hkeys.disjoint (key_mem_keys (List.mem_append_right _ hu') hseq)
        (List.mem_flatMap.2 ⟨t, ht, hp⟩) hpi.symm

omit hz in
theorem SysInv.trigger (h : SysInv R Occ D c tok s) {session_id : Nat} {region_id : Option Nat}
    {hash_values : List Nat} {σ : Scheduler}
    (hrun : Scheduler.trigger_pend_task session_id region_id hash_values s.scheduler = .ok .unit σ) :
    SysInv R Occ D c tok { s with scheduler := σ } := by
  obtain ⟨t, ht, hW, hA, hP⟩ := Scheduler.trigger_pend_task_ok hrun
  have hperm := Table.values_erase_perm ht
  have hmem : t ∈ s.scheduler.pending_tasks := hperm.mem_iff.1 (List.mem_cons_self ..)
  have hpark : t ∈ s.parked := List.mem_append_left _ hmem
  have htask : t ∈ s.tasks := by simp [tasks, hmem]
  -- the task's own keys in front
  have htasks : ({ s with scheduler := σ } : System).tasks.Perm s.tasks := by
    simp only [tasks, Scheduler.pending_tasks, hW, hA, hP, List.append_assoc]
    refine ((insert_sorted_perm _ t).append_right _).trans ?_
    refine List.Perm.trans ?_ (List.Perm.append_left _ (List.Perm.append_left _
      (hperm.append_right _)))
    simp only [List.cons_append]
    exact List.perm_middle.symm.trans (List.Perm.append_left _ List.perm_middle.symm)
  have hother : ∀ u ∈ ({ s with scheduler := σ } : System).parked, u ∈ s.parked ∧
      ∀ seq ∈ u.seqs, ∀ seq' ∈ t.seqs, seq.seq_id ≠ seq'.seq_id := by
    intro u hu
    have hperm' : (t :: ({ s with scheduler := σ } : System).parked).Perm s.parked := by
      simp only [parked, Scheduler.pending_tasks, hP]
      exact hperm.append_right _
    refine ⟨hperm'.mem_iff.1 (List.mem_cons_of_mem _ hu), fun seq hseq seq' hseq' => ?_⟩
    have hkeys : KeysOk Occ tok s.next_seq_id
        (t.keys ++ LMServe.keys ({ s with scheduler := σ } : System).parked) := by
      rw [← keys_cons]
      refine h.keys.subperm ((keys_perm hperm').subperm.trans (List.Sublist.subperm ?_))
      have hsplit : s.tasks = (s.scheduler.waiting ++ s.scheduler.allocated) ++ (s.parked ++ s.finished) := by
        simp [tasks, parked]
      rw [hsplit]
      exact ((List.sublist_append_left _ _).trans (List.sublist_append_right _ _)).flatMap _
    exact fun heq => hkeys.disjoint (List.mem_map.2 ⟨seq', hseq', rfl⟩) (key_mem_keys hu hseq) heq.symm
  -- the devices
  obtain ⟨_, _, hget, hrun⟩ := bind_ok.1 hrun
  obtain ⟨rfl, rfl⟩ : _ ∧ _ := by simpa using hget
  simp only [ht] at hrun
  obtain ⟨_, σ₁, hmod, hrun⟩ := bind_ok.1 hrun
  obtain rfl : { s.scheduler with pending := s.scheduler.pending.erase session_id } = σ₁ := by
    simpa using hmod
  obtain ⟨_, σ₂, hact, hrun⟩ := bind_ok.1 hrun
  have hactivate : Triple (Scheduler.OnDevices (Near R Occ D c tok s.scheduler [] fun _ => []))
      (Scheduler.activate_region region_id hash_values)
      (fun _ => Scheduler.OnDevices (Near R Occ D c tok s.scheduler [] fun _ => [])) AnyError := by
    unfold Scheduler.activate_region
    split
    · refine Scheduler.on_device_triple (Triple.bind (near_triple fun _ =>
        activate_reserved_blocks_owned _ _) fun _ => Triple.pure fun _ hm => hm)
    · exact Triple.pure fun _ hm => hm
  have hdev₂ := hactivate.of_ok (fun d => by cases d <;> exact h.start _) hact
  cases hh : t.get_head_seq with
  | none => simp only [hh] at hrun; simp at hrun
  | some head =>
    simp only [hh] at hrun
    obtain ⟨_, σ₃, hupd, hrun⟩ := bind_ok.1 hrun
    obtain rfl : { σ₃ with waiting := insert_sorted σ₃.waiting t } = σ := by simpa using hrun
    have hseq : head ∈ t.seqs := (List.mem_filter.1 (List.mem_of_mem_head? hh)).1
    obtain ⟨htok, hlt, hocc⟩ := h.known htask hseq
    have hupdate : Triple (Near R Occ D c tok s.scheduler [] (fun _ => []) .Host)
        (update_prefix_cache_blocks head)
        (fun _ => Near R Occ D c tok s.scheduler [head.seq_id] (fun _ => []) .Host) AnyError := by
      refine near_triple fun hD m hm => ?_
      refine update_prefix_cache_blocks_owned hR (by simp) htok hocc m
        ⟨hm.mono (by simp) fun _ hr => hr, ?_⟩
      rw [hm.maps _ (by simp), (h.devices _ hD).block_size]
      exact h.aligned hD t hpark head hseq
    have hdev₃ := (Scheduler.on_device_triple_of
      (J := Near R Occ D c tok s.scheduler [head.seq_id] fun _ => [])
      (hupdate.bind fun _ => Triple.pure fun _ hm => hm)
      fun d m hm hD => (hm hD).mono (by simp) fun _ hr => hr).of_ok hdev₂ hupd
    refine SysInv.of_near (σ := s.scheduler) h.devices hdev₃ (by simpa using hlt) (by simp)
      (h.keys.perm (keys_perm htasks)) fun hD u hu seq hseq' => ?_
    exact h.aligned_of_near ⟨σ₃, 0, 0, [], []⟩ hdev₃ hD (hother u hu).1 hseq'
      (by simpa using (hother u hu).2 seq hseq' head hseq)

omit hR hz in
theorem SysInv.pend_reserved (h : SysInv R Occ D c tok s) {i : Nat}
    (hrun : System.pend_reserved i s = .ok .unit s') : SysInv R Occ D c tok s' := by
  obtain ⟨_, _, hget, hrun⟩ := bind_ok.1 hrun
  obtain ⟨rfl, rfl⟩ : _ ∧ _ := by simpa using hget
  cases hi : s.reserving[i]? with
  | none =>
    simp only [hi] at hrun
    obtain rfl : s = s' := by simpa using hrun
    exact h
  | some t =>
    simp only [hi] at hrun
    obtain ⟨_, s₁, hmod, hrun⟩ := bind_ok.1 hrun
    obtain rfl : { s with reserving := s.reserving.eraseIdx i } = s₁ := by simpa using hmod
    obtain ⟨σ, hσ, rfl⟩ := on_scheduler_ok hrun
    obtain ⟨hfresh, rfl⟩ := Scheduler.pend_ok hσ
    have hvalues := Table.values_insert_fresh t hfresh
    have hlt : i < s.reserving.length := (List.getElem?_eq_some_iff.1 hi).1
    have hperm : (t :: s.reserving.eraseIdx i).Perm s.reserving := by
      have := List.getElem_cons_eraseIdx_perm hlt
      rwa [(List.getElem?_eq_some_iff.1 hi).2] at this
    have hparked : ∀ P : List InferTask, (t :: P ++ s.reserving.eraseIdx i).Perm (P ++ s.reserving) :=
      fun P => List.perm_middle.symm.trans (hperm.append_left P)
    have hstart : Scheduler.OnDevices (Near R Occ D c tok s.scheduler [] fun _ => []) s.scheduler :=
      h.start
    refine h.of_quiet_near rfl rfl hstart (by simp) ?_ fun u hu => ?_
    · simp only [tasks, Scheduler.pending_tasks, hvalues, List.append_assoc]
      refine List.Perm.append_left _ (List.Perm.append_left _ ?_)
      rw [← List.append_assoc, ← List.append_assoc]
      exact (hparked _).append_right _
    · simp only [parked, Scheduler.pending_tasks, hvalues] at hu ⊢
      exact (hparked _).mem_iff.1 hu

/-! ### Requests -/

omit hR hz [Hasher] in
theorem keys_to_task (request : GenerateRequest) (first arrival : Nat) :
    (request.to_task first arrival).keys =
      (List.range request.num_samples).map fun k => (first + k, request.input_ids) := by
  simp [GenerateRequest.to_task, InferTask.keys, Sequence.key, Sequence.new, Function.comp_def]

omit hR hz in
theorem SysInv.create (h : SysInv R Occ D c tok s) {request : GenerateRequest} {arrival : Nat}
    {t : InferTask} (ht : t = request.to_task s.next_seq_id arrival)
    (hocc : ∀ p ∈ t.keys, ∀ k, Occ (p.2.take k)) :
    SysInv R Occ D c (override tok t.keys)
        { s with next_seq_id := s.next_seq_id + request.num_samples } ∧
      KeysOk Occ (override tok t.keys) (s.next_seq_id + request.num_samples)
        (t.keys ++ LMServe.keys s.tasks) ∧
      ∀ seq ∈ t.seqs, s.next_seq_id ≤ seq.seq_id ∧ ∀ d, D d →
        (s.scheduler.get_block_manager d).get_block_map seq.seq_id = none := by
  have hmem : ∀ p ∈ t.keys, s.next_seq_id ≤ p.1 ∧ p.1 < s.next_seq_id + request.num_samples := by
    intro p hp
    rw [ht, keys_to_task] at hp
    obtain ⟨k, hk, rfl⟩ := List.mem_map.1 hp
    have := List.mem_range.1 hk
    dsimp only; omega
  have hnd : (t.keys.map Prod.fst).Nodup := by
    rw [ht, keys_to_task, List.map_map]
    refine List.Nodup.map (fun a b hab => ?_) List.nodup_range
    simpa using hab
  have hkeys := h.keys.add hnd (fun p hp => (hmem p hp).1) (fun p hp => (hmem p hp).2) (by omega) hocc
  refine ⟨⟨hkeys.subperm (List.sublist_append_right ..).subperm, fun d hD => ?_, h.aligned⟩, hkeys,
    fun seq hseq => ?_⟩
  · have hgrow : DevInv R Occ (override tok t.keys) (c.num_blocks d) c.block_size
        (s.next_seq_id + request.num_samples) (s.region_limit d) (s.scheduler.get_block_manager d) :=
      (h.devices d hD).grow (by omega) (Nat.le_refl _) fun i hi => by
        rw [override_of_not_mem]
        intro hmem'
        obtain ⟨p, hp, rfl⟩ := List.mem_map.1 hmem'
        have := (hmem p hp).1
        omega
    cases d <;> exact hgrow
  · have hge := (hmem seq.key (List.mem_map.2 ⟨seq, hseq, rfl⟩)).1
    exact ⟨hge, fun d hD => (h.devices d hD).unmapped _ hge⟩

theorem SysInv.reserve_request (h : SysInv R Occ D c tok s) {request : GenerateRequest} {arrival : Nat}
    {region : Option DeviceBlockRegion} (hrun : System.reserve_request request arrival s = .ok region s')
    (hocc : s'.Occurring Occ) : ∃ tok', SysInv R Occ D c tok' s' := by
  obtain ⟨t, s₁, hcreate, hrun⟩ := bind_ok.1 hrun
  obtain ⟨ht, rfl⟩ := create_task_ok hcreate
  obtain ⟨r, s₂, hid, hrun⟩ := bind_ok.1 hrun
  obtain ⟨rfl, rfl⟩ := generate_id_ok hid
  obtain ⟨reg, s₃, hsch, hrun⟩ := bind_ok.1 hrun
  obtain ⟨σ, hσ, rfl⟩ := on_scheduler_ok hsch
  obtain ⟨_, s₄, hmod, hrun⟩ := bind_ok.1 hrun
  simp only [modify_apply, EStateM.Result.ok.injEq, true_and] at hmod
  obtain ⟨-, rfl⟩ : _ ∧ s₄ = s' := by simpa using hrun
  have htocc : ∀ seq ∈ t.seqs, ∀ k, Occ (seq.token_ids.take k) := by
    intro seq hseq k
    refine hocc t ?_ seq hseq k
    rw [← hmod]; simp [tasks]
  obtain ⟨h₁, hkeys, hnew⟩ := h.create ht fun p hp k => by
    obtain ⟨seq, hseq, rfl⟩ := List.mem_map.1 hp
    exact htocc seq hseq k
  have hreserve : Triple (Scheduler.OnDevices (Near R Occ D c (override tok t.keys) s.scheduler []
      fun _ => [])) (Scheduler.reserve_blocks s.next_region_id t .Host)
      (fun _ => Scheduler.OnDevices (Near R Occ D c (override tok t.keys) s.scheduler []
        (regionOn .Host s.next_region_id))) AnyError := by
    unfold Scheduler.reserve_blocks
    split
    · exact Triple.throw trivial
    · rename_i head hhead
      have hmem := (List.mem_filter.1 (List.mem_of_mem_head? hhead)).1
      refine Triple.get_bind fun σ₀ hσ₀ => Triple.bind (Triple.pre (Scheduler.on_device_triple_of
        (reserve_near hR hz h₁ (by simp) (htocc head hmem) _) near_mono) fun σ₁ hσ₁ => hσ₁ ▸ hσ₀)
        fun _ => Triple.pure fun _ hm => hm
  have hdev := hreserve.of_ok h₁.start hσ
  obtain ⟨hW, hA, hP, -⟩ := Scheduler.control_eq ((Scheduler.reserve_blocks_keeps _ t .Host).of_ok hσ)
  have hpend : σ.pending_tasks = s.scheduler.pending_tasks := by
    simp only [Scheduler.pending_tasks, hP]
  have htasks : s₄.tasks.Perm (t :: s.tasks) := by
    rw [← hmod]
    simp only [tasks, hW, hA, hpend, List.append_assoc]
    have hassoc : ∀ W A P Q F : List InferTask,
        W ++ (A ++ (P ++ (Q ++ ([t] ++ F)))) = (W ++ (A ++ (P ++ Q))) ++ t :: F := by simp
    rw [hassoc]
    refine List.perm_middle.trans (List.Perm.cons t ?_)
    simp only [List.append_assoc]
    exact List.Perm.refl _
  subst hmod
  refine ⟨override tok t.keys, SysInv.of_near (σ := s.scheduler) h₁.next_region.devices hdev (by simp)
    (fun d r hr => ?_) (hkeys.perm (by rw [← keys_cons]; exact keys_perm htasks))
    fun hD u hu seq hseq => ?_⟩
  · have := lt_of_mem_regionOn (by simp) hr
    cases d <;> exact this
  · have hmaps := (hdev .Host hD).maps seq.seq_id (by simp)
    have hu' : u ∈ s.parked ∨ u = t := by
      simp only [parked, hpend, List.mem_append, List.mem_singleton] at hu ⊢
      tauto
    rcases hu' with hu' | rfl
    · exact hmaps ▸ h.aligned hD u hu' seq hseq
    · have hnone := (hnew seq hseq).2 _ hD
      intro m hm
      rw [show σ.host_block_manager.get_block_map seq.seq_id = _ from hmaps, hnone] at hm
      cases hm

/-- The footprint of a new request: the maps of its sequences are aligned. -/
def NearAligned (R : List Nat → List Nat → Prop) (Occ : List Nat → Prop) (D : Device → Prop)
    (c : SchedulerConfig) (tok : Nat → List Nat) (s₀ : Scheduler) (ids : List Nat)
    (rids : Device → List Nat) (d : Device) (m : BlockManager) : Prop :=
  D d → Owned R Occ tok (c.num_blocks d) ids (rids d) (s₀.get_block_manager d) m ∧
    ∀ i ∈ ids, Aligned (s₀.get_block_manager d).block_size (m.get_block_map i)

omit hz in
theorem init_prefix_near_aligned {σ : Scheduler} {ids : List Nat} {rids : Device → List Nat}
    {seq : Sequence} (hi : seq.seq_id ∈ ids) (htok : tok seq.seq_id = seq.token_ids)
    (hT : ∀ k, Occ (seq.token_ids.take k)) (d : Device) :
    Triple (NearAligned R Occ D c tok σ ids rids d) (init_prefix_cache_blocks seq)
      (fun _ => NearAligned R Occ D c tok σ ids rids d) AnyError := by
  intro m hm
  cases hrun : init_prefix_cache_blocks seq m with
  | error e m' => trivial
  | ok a m' => exact fun hD => (init_prefix_cache_blocks_aligned hR hi htok hT).of_ok (hm hD) hrun

theorem reserve_near_aligned (h : SysInv R Occ D c tok s) {d : Device} (hd : d ≠ .Gpu)
    (ids : List Nat) {T : List Nat} (hT : ∀ k, Occ (T.take k)) (start : Nat) :
    Triple (NearAligned R Occ D c tok s.scheduler ids (fun _ => []) d)
      (reserve_blocks s.next_region_id T start)
      (fun _ => NearAligned R Occ D c tok s.scheduler ids (regionOn d s.next_region_id) d)
      AnyError := by
  intro m hm
  cases hrun : reserve_blocks s.next_region_id T start m with
  | error e m' => trivial
  | ok region m' =>
    intro hD
    obtain ⟨ho, hal⟩ := hm hD
    have hfresh := ho.regions _ (by simp) (h.fresh_region hD)
    obtain ⟨-, hcase⟩ := reserve_blocks_pageInv hR (hz d hD hd) hT ho.page hfresh hrun
    refine ⟨(reserve_near hR hz h hd hT start).of_ok (fun _ => ho) hrun hD, fun i hi => ?_⟩
    rcases hcase with ⟨-, rfl⟩ | ⟨reg, -, -, he⟩
    · exact hal i hi
    · simp only [BlockManager.get_block_map, he.maps]; exact hal i hi

omit hR hz in
theorem near_aligned_mono {σ : Scheduler} {ids : List Nat} {d : Device} {r : Nat} (d' : Device)
    (m : BlockManager) (h : NearAligned R Occ D c tok σ ids (fun _ => []) d' m) :
    NearAligned R Occ D c tok σ ids (regionOn d r) d' m :=
  fun hD => ⟨(h hD).1.mono (fun _ hi => hi) (by simp), (h hD).2⟩

omit hR hz [Hasher] in
theorem parked_subset (t : InferTask) (ht : t ∈ s.parked) : t ∈ s.tasks := by
  simp only [parked, tasks, List.mem_append] at ht ⊢
  tauto

omit hR hz in
/-- `add_request` looks up the prefixes of the new task, plans its swap-in and puts it into one of the
two queues. -/
theorem add_request_ok {request : GenerateRequest} {arrival : Nat}
    {plan : Option (DeviceBlockRegion × BlockMapping)}
    (hrun : System.add_request request arrival s = .ok plan s') :
    ∃ (σ σ₁ σ₂ : Scheduler) (plan' : Option (DeviceBlockRegion × BlockMapping)),
      Scheduler.init_prefix_cache_blocks (request.to_task s.next_seq_id arrival) [.Host, .Disk]
        s.scheduler = .ok .unit σ ∧
      Scheduler.plan_stage s.next_region_id (request.to_task s.next_seq_id arrival) σ = .ok plan' σ₁ ∧
      s' = ⟨σ₂, s.next_seq_id + request.num_samples, s.next_region_id + 1, s.reserving, s.finished⟩ ∧
      (∀ d, σ₂.get_block_manager d = σ₁.get_block_manager d) ∧
      σ₂.allocated = s.scheduler.allocated ∧
      ((σ₂.waiting = s.scheduler.waiting ++ [request.to_task s.next_seq_id arrival] ∧
          σ₂.pending_tasks = s.scheduler.pending_tasks) ∨
        (σ₂.waiting = s.scheduler.waiting ∧
          σ₂.pending_tasks = request.to_task s.next_seq_id arrival :: s.scheduler.pending_tasks)) := by
  obtain ⟨t, s₁, hcreate, hrun⟩ := bind_ok.1 hrun
  obtain ⟨ht, rfl⟩ := create_task_ok hcreate
  obtain ⟨_, s₂, hinit, hrun⟩ := bind_ok.1 hrun
  obtain ⟨σ, hσ, rfl⟩ := on_scheduler_ok hinit
  obtain ⟨r, s₃, hid, hrun⟩ := bind_ok.1 hrun
  obtain ⟨rfl, rfl⟩ := generate_id_ok hid
  obtain ⟨plan', s₄, hplan, hrun⟩ := bind_ok.1 hrun
  obtain ⟨σ₁, hσ₁, rfl⟩ := on_scheduler_ok hplan
  dsimp only at hσ hσ₁
  obtain ⟨hW, hA, hP, -⟩ := Scheduler.control_eq
    (((Scheduler.plan_stage_keeps _ t).of_ok hσ₁).trans
      ((Scheduler.init_prefix_cache_blocks_keeps t _).of_ok hσ))
  have hpend : σ₁.pending_tasks = s.scheduler.pending_tasks := by
    simp only [Scheduler.pending_tasks, hP]
  rw [← ht]
  cases plan' with
  | none =>
    obtain ⟨_, s₅, hqueue, hrun⟩ := bind_ok.1 hrun
    obtain ⟨-, rfl⟩ : _ ∧ s₅ = s' := by simpa using hrun
    obtain ⟨σ₂, hσ₂, rfl⟩ := on_scheduler_ok hqueue
    obtain rfl : { σ₁ with waiting := σ₁.waiting ++ [t] } = σ₂ := by
      simpa [Scheduler.add] using hσ₂
    refine ⟨σ, σ₁, _, none, hσ, hσ₁, rfl, fun d => by cases d <;> rfl, hA, .inl ⟨?_, hpend⟩⟩
    rw [← hW]
  | some p =>
    obtain ⟨_, s₅, hqueue, hrun⟩ := bind_ok.1 hrun
    obtain ⟨-, rfl⟩ : _ ∧ s₅ = s' := by simpa using hrun
    obtain ⟨σ₂, hσ₂, rfl⟩ := on_scheduler_ok hqueue
    obtain ⟨hfresh, rfl⟩ := Scheduler.pend_ok hσ₂
    refine ⟨σ, σ₁, _, some p, hσ, hσ₁, rfl, fun d => by cases d <;> rfl, hA, .inr ⟨hW, ?_⟩⟩
    simp only [Scheduler.pending_tasks, Table.values_insert_fresh t hfresh]
    exact congrArg _ hpend

theorem SysInv.add_request (h : SysInv R Occ D c tok s) {request : GenerateRequest} {arrival : Nat}
    {plan : Option (DeviceBlockRegion × BlockMapping)}
    (hrun : System.add_request request arrival s = .ok plan s') (hocc : s'.Occurring Occ) :
    ∃ tok', SysInv R Occ D c tok' s' := by
  obtain ⟨σ, σ₁, σ₂, plan', hσ, hσ₁, rfl, hdev₂, hcases⟩ := add_request_ok hrun
  obtain ⟨t, ht⟩ : ∃ t, t = request.to_task s.next_seq_id arrival := ⟨_, rfl⟩
  rw [← ht] at hσ hσ₁ hcases
  have htasks : (System.mk σ₂ (s.next_seq_id + request.num_samples) (s.next_region_id + 1) s.reserving
      s.finished).tasks.Perm (t :: s.tasks) := by
    rcases hcases with ⟨hA₂, ⟨hW₂, hP₂⟩ | ⟨hW₂, hP₂⟩⟩
    · simp only [tasks, hW₂, hA₂, hP₂, List.append_assoc]
      exact List.perm_middle
    · simp only [tasks, hW₂, hA₂, hP₂, List.append_assoc, List.cons_append]
      exact (List.Perm.append_left _ List.perm_middle).trans List.perm_middle
  have htocc : ∀ seq ∈ t.seqs, ∀ k, Occ (seq.token_ids.take k) := fun seq hseq k =>
    hocc t (htasks.mem_iff.2 (List.mem_cons_self ..)) seq hseq k
  obtain ⟨h₁, hkeys, hnew⟩ := h.create ht fun p hp k => by
    obtain ⟨seq, hseq, rfl⟩ := List.mem_map.1 hp
    exact htocc seq hseq k
  have hknown : ∀ seq ∈ t.seqs, seq.key ∈ t.keys := fun seq hseq => List.mem_map.2 ⟨seq, hseq, rfl⟩
  have hids : ∀ seq ∈ t.seqs, seq.seq_id ∈ t.keys.map Prod.fst := fun seq hseq =>
    List.mem_map.2 ⟨seq.key, hknown seq hseq, rfl⟩
  have htok : ∀ seq ∈ t.seqs, override tok t.keys seq.seq_id = seq.token_ids := fun seq hseq =>
    hkeys.tok _ (List.mem_append_left _ (hknown seq hseq))
  -- the devices: on the host the new maps are aligned
  have hlook : ∀ seq ∈ t.seqs, ∀ d, Triple
      (NearAligned R Occ D c (override tok t.keys) s.scheduler (t.keys.map Prod.fst) (fun _ => []) d)
      (init_prefix_cache_blocks seq)
      (fun _ => NearAligned R Occ D c (override tok t.keys) s.scheduler (t.keys.map Prod.fst)
        (fun _ => []) d) AnyError := fun seq hseq d =>
    init_prefix_near_aligned hR (hids seq hseq) (htok seq hseq) (htocc seq hseq) d
  have hstart : Scheduler.OnDevices (NearAligned R Occ D c (override tok t.keys) s.scheduler
      (t.keys.map Prod.fst) fun _ => []) s.scheduler := by
    intro d hD
    refine ⟨Owned.refl (h₁.devices d hD).page, fun i hi m hm => ?_⟩
    obtain ⟨p, hp, rfl⟩ := List.mem_map.1 hi
    obtain ⟨seq, hseq, rfl⟩ := List.mem_map.1 hp
    rw [show (s.scheduler.get_block_manager d).get_block_map seq.key.1 = none from
      (hnew seq hseq).2 d hD] at hm
    cases hm
  have hdevσ := (Scheduler.init_prefix_cache_blocks_triple hlook).of_ok hstart hσ
  have hdevσ₁ := (Scheduler.plan_stage_triple hlook (fun seq hseq k start =>
    reserve_near_aligned hR hz h₁ (d := .Host) (by simp) (t.keys.map Prod.fst) (fun k' => by
      rw [List.take_take]; exact htocc seq hseq _) start) near_aligned_mono).of_ok hdevσ hσ₁
  have hdev : Scheduler.OnDevices (NearAligned R Occ D c (override tok t.keys) s.scheduler
      (t.keys.map Prod.fst) (regionOn .Host s.next_region_id)) σ₂ := fun d => by
    rw [hdev₂]; exact hdevσ₁ d
  refine ⟨override tok t.keys, SysInv.of_near (σ := s.scheduler) h₁.next_region.devices
    (fun d hD => (hdev d hD).1) (fun i hi => ?_) (fun d r hr => ?_)
    (hkeys.perm (by rw [← keys_cons]; exact keys_perm htasks)) fun hD u hu seq hseq => ?_⟩
  · obtain ⟨p, hp, rfl⟩ := List.mem_map.1 hi
    exact hkeys.lt p (List.mem_append_left _ hp)
  · have := lt_of_mem_regionOn (by simp) hr
    cases d <;> exact this
  · have hu' : u ∈ s.parked ∨ u = t := by
      rcases hcases with ⟨-, ⟨-, hP₂⟩ | ⟨-, hP₂⟩⟩
      · left; simpa only [parked, hP₂] using hu
      · simp only [parked, hP₂, List.cons_append, List.mem_cons] at hu
        exact hu.symm
    have hsize := (h.devices .Host hD).block_size
    rcases hu' with hu' | rfl
    · have hmaps := (hdev .Host hD).1.maps seq.seq_id fun hmem => by
        obtain ⟨p, hp, hpi⟩ := List.mem_map.1 hmem
        obtain ⟨seq', hseq', rfl⟩ := List.mem_map.1 hp
        have hlt := (h.known (parked_subset u hu') hseq).2.1
        have hge := (hnew seq' hseq').1
        have heq : seq'.seq_id = seq.seq_id := hpi
        omega
      exact hmaps ▸ h.aligned hD u hu' seq hseq
    · have := (hdev .Host hD).2 seq.seq_id (hids seq hseq)
      rw [hsize] at this
      exact this

/-! ### Steps and runs -/

/-- Every step keeps the page tables; new sequences and new tokens change what they describe. -/
theorem SysInv.step [Watch] (h : SysInv R Occ D c tok s) {op : Op} (hs : op.Step s s')
    (hocc : s'.Occurring Occ) : ∃ tok', SysInv R Occ D c tok' s' := by
  cases op with
  | add_request request arrival =>
    obtain ⟨plan, s₁, hrun, hs⟩ := bind_ok.1 hs
    obtain rfl : s₁ = s' := by simpa using hs
    exact h.add_request hR hz hrun hocc
  | reserve_request request arrival =>
    obtain ⟨region, s₁, hrun, hs⟩ := bind_ok.1 hs
    obtain rfl : s₁ = s' := by simpa using hs
    exact h.reserve_request hR hz hrun hocc
  | pend_reserved i => exact ⟨tok, h.pend_reserved hs⟩
  | trigger session_id region_id hash_values =>
    obtain ⟨σ, hσ, rfl⟩ := on_scheduler_ok hs
    exact ⟨tok, h.trigger hR hσ⟩
  | schedule =>
    obtain ⟨batch, s₁, hrun, hs⟩ := bind_ok.1 hs
    obtain rfl : s₁ = s' := by simpa using hs
    obtain ⟨σ, hσ, rfl⟩ := on_scheduler_ok hrun
    exact ⟨tok, h.schedule hR hσ⟩
  | update infer_outputs now =>
    obtain ⟨finished, s₁, hrun, hs⟩ := bind_ok.1 hs
    obtain rfl : s₁ = s' := by simpa using hs
    exact h.update hrun hocc
  | backup i =>
    obtain ⟨plan, s₁, hrun, hs⟩ := bind_ok.1 hs
    obtain rfl : s₁ = s' := by simpa using hs
    exact ⟨tok, h.backup hR hz hrun⟩
  | remove_task i => exact ⟨tok, h.remove_task hs⟩
  | commit region =>
    obtain ⟨k, s₁, hrun, hs⟩ := bind_ok.1 hs
    obtain rfl : s₁ = s' := by simpa using hs
    obtain ⟨σ, hσ, rfl⟩ := on_scheduler_ok hrun
    exact ⟨tok, h.commit hσ⟩
  | pin hash_values =>
    obtain ⟨region, s₁, hrun, hs⟩ := bind_ok.1 hs
    obtain rfl : s₁ = s' := by simpa using hs
    exact ⟨tok, h.pin hR hz hrun⟩
  | unpin region =>
    obtain ⟨σ, hσ, rfl⟩ := on_scheduler_ok hs
    exact ⟨tok, h.unpin hσ⟩
  | clear_cache =>
    obtain ⟨σ, hσ, rfl⟩ := on_scheduler_ok hs
    exact ⟨tok, h.clear_cache hσ⟩

omit hR hz in
theorem SysInv.new : SysInv R Occ D c (fun _ => []) (System.new c) := by
  have htasks : (System.new c).tasks = [] := rfl
  have hparked : (System.new c).parked = [] := rfl
  refine ⟨?_, fun d _ => ?_, fun _ t ht => ?_⟩
  · rw [htasks]; exact ⟨List.nodup_nil, by simp, by simp, by simp⟩
  · cases d <;> exact DevInv.new _ _ _
  · rw [hparked] at ht; cases ht

/-- In every run, as long as the prefixes that occur are in `Occ`. -/
theorem SysInv.run [Watch] {ops : List Op}
    (h : Run (fun s op s' => Op.Step s op s' ∧ s'.Occurring Occ) (System.new c) ops s) :
    ∃ tok, SysInv R Occ D c tok s :=
  h.invariant (I := fun s => ∃ tok, SysInv R Occ D c tok s) ⟨_, SysInv.new⟩
    fun _ _ _ ⟨_, ht⟩ hs => ht.step hR hz hs.1 hs.2

end

end

end System

end LMServe
