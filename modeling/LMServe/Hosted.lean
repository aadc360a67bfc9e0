import LMServe.Rounds

/-!
# Looked up before queued

The prefix of a request is looked up on the host before its task is queued, so a task of one sequence that is in
`waiting` or `allocated` has a map there (`Hosted`), if only an empty one. Nothing but the removal of a finished task
takes it away.
-/

namespace LMServe
open Hoare Ownership

/-- One sequence. -/
def InferTask.Lone (t : InferTask) : Prop := t.seqs.length = 1

theorem InferTask.lone_of_keys {t t' : InferTask} (h : t'.keys = t.keys) : t'.Lone ↔ t.Lone := by
  have hlen := congrArg List.length h
  simp only [keys, List.length_map] at hlen
  unfold Lone
  rw [hlen]

theorem InferTask.ids_of_keys {t t' : InferTask} (h : t'.keys = t.keys) : t'.ids = t.ids := by
  have hids : ∀ u : InferTask, u.ids = u.keys.map Prod.fst := fun u => by
    simp [ids, keys, Sequence.key, Function.comp_def]
  rw [hids, hids, h]

theorem BlockManager.map_of_update {m m' : BlockManager} {i j : Nat} {b : BlockMap} (h : m.get_block_map i ≠ none)
    (hm : m'.get_block_map = Function.update m.get_block_map j (some b)) : m'.get_block_map i ≠ none := by
  rw [hm]
  by_cases hij : i = j
  · rw [hij, Function.update_self]
    exact Option.some_ne_none b
  · rw [Function.update_of_ne hij]
    exact h

namespace Scheduler

/-- The sequence has a map on the host, if `d` is the host. -/
def HasMap (i : Nat) (d : Device) (m : BlockManager) : Prop := d = .Host → m.get_block_map i ≠ none

section
variable {i : Nat} {s s' : Scheduler}

theorem hasMap_of_update {m m' : BlockManager} {d : Device} {j : Nat} {b : BlockMap} (h : HasMap i d m)
    (hm : m'.get_block_map = Function.update m.get_block_map j (some b)) : HasMap i d m' :=
  fun hd => BlockManager.map_of_update (h hd) hm

theorem hasMap_iff : OnDevices (HasMap i) s ↔ s.maps i .Host ≠ none :=
  ⟨fun h => h .Host rfl, fun h d hd => by rw [hd]; exact h⟩

variable [Hasher]

theorem init_prefix_hasMap (seq : Sequence) (d : Device) :
    Triple (HasMap i d) (BlockManager.init_prefix_cache_blocks seq) (fun _ => HasMap i d) AnyError := by
  intro m hm
  cases hrun : BlockManager.init_prefix_cache_blocks seq m with
  | error e m' => trivial
  | ok r m' =>
    obtain ⟨b, hmaps, -⟩ := BlockManager.init_prefix_cache_blocks_maps hrun
    exact hasMap_of_update hm hmaps

theorem kept_hasMap (K : List (Nat × List Nat)) (i : Nat) : Kept K (HasMap i) AnyError where
  get_num_required_blocks d seq _ := BlockManager.get_num_required_blocks_triple seq
  alloc_blocks d seq _ := by
    intro m hm
    cases hrun : BlockManager.alloc_blocks seq m with
    | error e m' => trivial
    | ok r m' =>
      obtain ⟨b, hmaps, -⟩ := BlockManager.alloc_blocks_maps hrun
      exact hasMap_of_update hm hmaps
  init_prefix d seq _ := init_prefix_hasMap seq d
  free {seq} _ := by
    intro m _
    cases BlockManager.free seq.seq_id m with
    | error e m' => trivial
    | ok r m' => exact fun hd => by cases hd
  update_filled_len d seq len _ := by
    intro m hm
    cases hrun : BlockManager.update_filled_len seq.seq_id len m with
    | error e m' => trivial
    | ok r m' =>
      rcases BlockManager.update_filled_len_maps hrun with ⟨hmaps, -⟩ | ⟨b, -, -, hmaps⟩
      · exact fun hd => by rw [hmaps]; exact hm hd
      · exact hasMap_of_update hm hmaps
  outOfFuel := trivial
  watched := trivial

theorem plan_stage_hasMap {r : Nat} {t : InferTask} {plan : Option (DeviceBlockRegion × BlockMapping)}
    (hs : s.maps i .Host ≠ none) (h : plan_stage r t s = .ok plan s') : s'.maps i .Host ≠ none := by
  refine hasMap_iff.1 ((plan_stage_triple (fun seq _ d => init_prefix_hasMap seq d) (fun seq _ k start => ?_)
    fun _ _ hm => hm).of_ok (hasMap_iff.2 hs) h)
  intro m hm
  cases hrun : BlockManager.reserve_blocks r (seq.token_ids.take k) start m with
  | error e m' => trivial
  | ok region m' =>
    intro hd
    rw [(BlockManager.reserve_blocks_maps r _ start).of_ok hrun]
    exact hm hd

/-- What the look-up on the host finds is a map from then on. -/
theorem init_prefix_cache_blocks_hosts {t : InferTask} {seq : Sequence} (hseqs : t.seqs = [seq])
    (hact : seq.is_active = true) (h : init_prefix_cache_blocks t [.Host, .Disk] s = .ok .unit s') :
    s'.maps seq.seq_id .Host ≠ none := by
  unfold init_prefix_cache_blocks at h
  have hseq : t.get_active_seqs = [seq] := by simp [InferTask.get_active_seqs, hseqs, hact]
  rw [hseq, List.forM_cons, List.forM_nil] at h
  obtain ⟨_, s₃, hloop, hnil⟩ := bind_ok.1 h
  obtain rfl : s₃ = s' := by simpa using hnil
  rw [List.forM_cons, List.forM_cons, List.forM_nil] at hloop
  obtain ⟨_, s₁, hhost, hloop⟩ := bind_ok.1 hloop
  obtain ⟨_, s₂, hdisk, hnil⟩ := bind_ok.1 hloop
  obtain rfl : s₂ = s₃ := by simpa using hnil
  obtain ⟨m, hm, hmaps, -⟩ := on_device_maps hhost
  obtain ⟨m', -, -, helse⟩ := on_device_maps hdisk
  obtain ⟨r, m₁, hinit, hret⟩ := bind_ok.1 hm
  obtain rfl : m = m₁ := by simpa using hret.symm
  obtain ⟨b, hb, -⟩ := BlockManager.init_prefix_cache_blocks_maps hinit
  rw [helse _ _ (by simp), hmaps, hb, Function.update_self]
  exact Option.some_ne_none b

end

end Scheduler

theorem exists_of_tally {l l' : List InferTask} {t' : InferTask} (h : tally t'.ident l' ≤ tally t'.ident l)
    (ht' : t' ∈ l') : ∃ t ∈ l, t.ident = t'.ident := by
  have hpos : 0 < tally t'.ident l' := List.count_pos_iff.2 (List.mem_map.2 ⟨t', ht', rfl⟩)
  exact List.mem_map.1 (List.count_pos_iff.1 (Nat.lt_of_lt_of_le hpos h))

namespace System

/-- See the module doc. -/
def Hosted (s : System) : Prop := ∀ t ∈ s.scheduler.waiting ++ s.scheduler.allocated, t.Lone →
  ∀ i ∈ t.ids, s.scheduler.maps i .Host ≠ none

section
variable {c : SchedulerConfig} {s s' : System} {σ : Scheduler}

theorem Hosted.of_keys (h : s.Hosted) {t t' : InferTask} (ht : t ∈ s.scheduler.waiting ++ s.scheduler.allocated)
    (hkeys : t'.keys = t.keys) (hlone : t'.Lone) : ∀ i ∈ t'.ids, s.scheduler.maps i .Host ≠ none := by
  rw [InferTask.ids_of_keys hkeys]
  exact h t ht ((InferTask.lone_of_keys hkeys).1 hlone)

variable [Hasher]

theorem Hosted.schedule (h : s.Hosted) {batch : Scheduler.Batch}
    (hrun : Scheduler.schedule s.scheduler = .ok batch σ) : Hosted { s with scheduler := σ } := by
  have hkept : ∀ i, s.scheduler.maps i .Host ≠ none → σ.maps i .Host ≠ none := fun i hi =>
    Scheduler.hasMap_iff.1 ((Scheduler.schedule_kept (Scheduler.kept_hasMap (keys (s.scheduler.waiting ++
      s.scheduler.allocated)) i)).of_ok ⟨Scheduler.hasMap_iff.2 hi,
        fun t ht seq hseq => key_mem_keys (List.mem_append_left _ ht) hseq,
        fun t ht seq hseq => key_mem_keys (List.mem_append_right _ ht) hseq⟩ hrun).devices
  obtain ⟨-, -, htally⟩ := Scheduler.schedule_tally hrun
  intro t' ht' hlone i hi
  have hle := (htally t'.ident).1
  rw [← tally_append, ← tally_append] at hle
  obtain ⟨t, ht, hident⟩ := exists_of_tally hle ht'
  exact hkept i (h.of_keys ht (InferTask.keys_of_ident hident).symm hlone i hi)

theorem Hosted.update (h : s.Hosted) {infer_outputs : Table InferOutput} {now : Nat}
    (hs : Op.Step s (.update infer_outputs now) s') : s'.Hosted := by
  obtain rfl := update_step hs
  intro t' ht' hlone i hi
  rcases List.mem_append.1 ht' with ht' | ht'
  · exact h t' (List.mem_append_left _ ht') hlone i hi
  · obtain ⟨t, ht, rfl⟩ := List.mem_map.1 (List.mem_filter.1 ht').1
    rw [Scheduler.update_task_ids] at hi
    refine h t (List.mem_append_right _ ht) ?_ i hi
    simpa [InferTask.Lone, Scheduler.update_task] using hlone

/-- A new task is queued behind its look-up, or not at all. -/
theorem Hosted.add_request (h : s.Hosted) {request : GenerateRequest} {arrival : Nat}
    {plan : Option (DeviceBlockRegion × BlockMapping)}
    (hrun : System.add_request request arrival s = .ok plan s') : s'.Hosted := by
  obtain ⟨σ, σ₁, σ₂, plan', hσ, hσ₁, rfl, hdev, hA, hqueue⟩ := System.add_request_ok hrun
  have hmaps : σ₂.maps = σ₁.maps := Scheduler.maps_congr hdev
  have hkept : ∀ i, s.scheduler.maps i .Host ≠ none → σ₂.maps i .Host ≠ none := fun i hi => by
    rw [hmaps]
    refine Scheduler.plan_stage_hasMap (Scheduler.hasMap_iff.1 ?_) hσ₁
    exact (Scheduler.init_prefix_cache_blocks_triple fun seq _ d => Scheduler.init_prefix_hasMap seq d).of_ok
      (Scheduler.hasMap_iff.2 hi) hσ
  have hnew : (request.to_task s.next_seq_id arrival).Lone → ∀ i ∈ (request.to_task s.next_seq_id arrival).ids,
      σ₂.maps i .Host ≠ none := by
    intro hlone i hi
    obtain ⟨seq, hseqs⟩ := List.length_eq_one_iff.1 hlone
    have hact : seq.is_active = true := by
      obtain ⟨k, -, rfl⟩ := List.mem_map.1 (show seq ∈ (request.to_task s.next_seq_id arrival).seqs by
        rw [hseqs]; exact List.mem_singleton_self seq)
      rfl
    have hid : i = seq.seq_id := by simpa [InferTask.ids, hseqs] using hi
    rw [hid, hmaps]
    exact Scheduler.plan_stage_hasMap (Scheduler.init_prefix_cache_blocks_hosts hseqs hact hσ) hσ₁
  have hold : ∀ t ∈ s.scheduler.waiting ++ s.scheduler.allocated, t.Lone → ∀ i ∈ t.ids, σ₂.maps i .Host ≠ none :=
    fun t ht hlone i hi => hkept i (h t ht hlone i hi)
  intro t ht hlone i hi
  rcases List.mem_append.1 ht with ht | ht
  · rcases hqueue with ⟨hW, -⟩ | ⟨hW, -⟩
    · rcases List.mem_append.1 (hW ▸ ht) with ht | ht
      · exact hold t (List.mem_append_left _ ht) hlone i hi
      · obtain rfl := List.mem_singleton.1 ht
        exact hnew hlone i hi
    · exact hold t (List.mem_append_left _ (hW ▸ ht)) hlone i hi
  · exact hold t (List.mem_append_right _ (hA ▸ ht)) hlone i hi

theorem Hosted.trigger (h : s.Hosted) {session_id : Nat} {region_id : Option Nat} {hash_values : List Nat}
    (hrun : Scheduler.trigger_pend_task session_id region_id hash_values s.scheduler = .ok .unit σ) :
    Hosted { s with scheduler := σ } := by
  obtain ⟨t, hlook, hW, hA, -⟩ := Scheduler.trigger_pend_task_ok hrun
  replace hrun := BlockManager.get_ok hrun
  simp only [hlook] at hrun
  obtain ⟨_, s₁, hmod, hrun⟩ := bind_ok.1 hrun
  obtain rfl : { s.scheduler with pending := s.scheduler.pending.erase session_id } = s₁ := by simpa using hmod
  obtain ⟨_, s₂, hact, hrun⟩ := bind_ok.1 hrun
  have hmaps₂ : s₂.maps = s.scheduler.maps := ((Scheduler.activate_region_maps _ _).of_ok hact).trans
    (Scheduler.maps_congr fun d => by cases d <;> rfl)
  cases hhead : t.get_head_seq with
  | none => simp only [hhead] at hrun; simp at hrun
  | some head =>
    simp only [hhead] at hrun
    obtain ⟨_, s₃, hupd, hrun⟩ := bind_ok.1 hrun
    obtain rfl : { s₃ with waiting := insert_sorted s₃.waiting t } = σ := by simpa using hrun
    have hmaps₃ : ({ s₃ with waiting := insert_sorted s₃.waiting t } : Scheduler).maps = s₃.maps :=
      Scheduler.maps_congr fun d => by cases d <;> rfl
    obtain ⟨m, hm, hdm, -⟩ := Scheduler.on_device_maps hupd
    obtain ⟨r, m₁, hblocks, hret⟩ := bind_ok.1 hm
    obtain rfl : m = m₁ := by simpa using hret.symm
    obtain ⟨b, hb, -⟩ := BlockManager.update_prefix_cache_blocks_maps hblocks
    have hhost : ∀ i, s₃.maps i .Host = Function.update (s.scheduler.maps · .Host) head.seq_id (some b) i :=
      fun i => by rw [hdm, hb, ← hmaps₂]; rfl
    have hkept : ∀ i, s.scheduler.maps i .Host ≠ none → s₃.maps i .Host ≠ none := fun i hi => by
      rw [hhost]
      by_cases hij : i = head.seq_id
      · rw [hij, Function.update_self]
        exact Option.some_ne_none b
      · rw [Function.update_of_ne hij]
        exact hi
    intro u hu hlone i hi
    show Scheduler.maps { s₃ with waiting := insert_sorted s₃.waiting t } i .Host ≠ none
    rw [hmaps₃]
    have hqueued : u = t ∨ u ∈ s.scheduler.waiting ++ s.scheduler.allocated := by
      rcases List.mem_append.1 hu with hu | hu
      · exact (Scheduler.mem_insert_sorted (hW ▸ hu)).imp_right (List.mem_append_left _)
      · exact .inr (List.mem_append_right _ (hA ▸ hu))
    rcases hqueued with rfl | hu
    · -- the head is the only one
      obtain ⟨seq, hseqs⟩ := List.length_eq_one_iff.1 hlone
      have hmem : head ∈ u.seqs := (List.mem_filter.1 (List.mem_of_mem_head? hhead)).1
      obtain rfl : head = seq := by simpa [hseqs] using hmem
      obtain rfl : i = head.seq_id := by simpa [InferTask.ids, hseqs] using hi
      rw [hhost, Function.update_self]
      exact Option.some_ne_none b
    · exact hkept i (h u hu hlone i hi)

theorem Hosted.step {op : Op} (h : s.Hosted) (hr : Reachable c s) (hs : op.Step s s') : s'.Hosted := by
  have hquiet : op.Quiet → (∀ request arrival, op ≠ .add_request request arrival) →
      (∀ session_id region_id hash_values, op ≠ .trigger session_id region_id hash_values) → s'.Hosted := by
    intro hop hadd htrigger t ht hlone i hi
    have hA : s'.scheduler.allocated = s.scheduler.allocated := congrArg Prod.fst (hop.frozen hs)
    rw [hop.waiting_eq hs hadd htrigger, hA] at ht
    obtain ⟨ops, hrun⟩ := hr
    rw [Op.step_maps_other (regionsBelow hrun).nextFree hs
      ((anyStages_of_run hrun).queued_untouched ht hop hi)]
    exact h t ht hlone i hi
  cases op with
  | add_request request arrival =>
    obtain ⟨plan, s₁, hrun, hret⟩ := bind_ok.1 hs
    obtain rfl : s₁ = s' := by simpa using hret
    exact h.add_request hrun
  | trigger session_id region_id hash_values =>
    obtain ⟨σ, hσ, rfl⟩ := System.on_scheduler_ok hs
    exact h.trigger hσ
  | schedule =>
    obtain ⟨batch, s₁, hrun, hret⟩ := bind_ok.1 hs
    obtain rfl : s₁ = s' := by simpa using hret
    obtain ⟨σ, hσ, rfl⟩ := System.on_scheduler_ok hrun
    exact h.schedule hσ
  | update infer_outputs now => exact h.update hs
  | _ => exact hquiet trivial (fun _ _ h => by cases h) fun _ _ _ h => by cases h

theorem hosted_of_reachable (hr : Reachable c s) : s.Hosted := by
  obtain ⟨ops, hrun⟩ := hr
  have hpair : Reachable c s ∧ s.Hosted := by
    refine hrun.invariant (I := fun s => Reachable c s ∧ s.Hosted) ⟨⟨[], .nil⟩, fun t ht => ?_⟩
      fun s op s' ⟨hr, h⟩ hs => ⟨hr.run (.snoc .nil hs), h.step hr hs⟩
    exact absurd ht List.not_mem_nil
  exact hpair.2

end

end System

end LMServe
