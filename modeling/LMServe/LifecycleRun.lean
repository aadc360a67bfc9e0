import LMServe.Lifecycle
import LMServe.SystemSteps

/-!
# Lifecycles in runs

`Inv` says that every task the system knows has what its place promises: the tasks in the two queues,
those that are pending or being reserved, and the finished ones. It holds at the start, each step of
the system keeps it, and so it holds in every state a run reaches.
-/

namespace LMServe
open Hoare Ownership

section
variable {t : InferTask} {f f₁ f' : Maps}

theorem LookedUp.refl (t : InferTask) (f : Maps) : LookedUp t f f :=
  ⟨fun _ _ => rfl, fun _ => rfl, fun _ _ _ => id⟩

theorem LookedUp.set (h : LookedUp t f f₁) (hnd : t.ids.Nodup) {seq : Sequence} (hseq : seq ∈ t.seqs)
    {d : Device} (hd : d ≠ .Gpu) {b : BlockMap}
    (hb : Sized seq.token_ids.length (f₁ seq.seq_id d) → Sized seq.token_ids.length (some b))
    (hset : (f' · d) = Function.update (f₁ · d) seq.seq_id (some b))
    (helse : ∀ i d', d' ≠ d → f' i d' = f₁ i d') : LookedUp t f f' := by
  have hother : ∀ i, i ≠ seq.seq_id → f' i = f₁ i := fun i hi => by
    funext d'
    by_cases hdd : d' = d
    · have := congrFun hset i
      rw [Function.update_of_ne hi] at this
      rw [hdd]; exact this
    · exact helse i d' hdd
  refine ⟨fun i hi => ?_, fun i => ?_, fun x hx d' hsized => ?_⟩
  · rw [hother i fun heq => hi (heq ▸ List.mem_map.2 ⟨seq, hseq, rfl⟩)]
    exact h.outside i hi
  · rw [helse i _ (Ne.symm hd)]; exact h.gpu i
  · have hold := h.sized x hx d' hsized
    by_cases hdd : d' = d
    · by_cases hx' : x.seq_id = seq.seq_id
      · obtain rfl : x = seq := List.inj_on_of_nodup_map hnd hx hseq hx'
        have := congrFun hset x.seq_id
        rw [Function.update_self] at this
        subst hdd
        exact this ▸ hb hold
      · rw [hother _ hx']; exact hold
    · rw [helse _ _ hdd]; exact hold

end

namespace Scheduler

section
variable {s s' : Scheduler}

theorem on_device_keeps_maps {α : Type} {d : Device} {x : BM α}
    (h : Keeps BlockManager.get_block_map x) : Keeps maps (on_device d x) := by
  have hset : ∀ (s : Scheduler) (m : BlockManager),
      m.get_block_map = (s.get_block_manager d).get_block_map →
      (s.set_block_manager d m).maps = s.maps := fun s m hm => by
    funext i d'
    rw [maps_set_block_manager]
    split
    · rename_i hd; rw [hd, hm]; rfl
    · rfl
  intro s
  have := h (s.get_block_manager d)
  unfold on_device zoom
  cases hx : x (s.get_block_manager d) with
  | ok a m => rw [hx] at this; exact hset s m this
  | error e m => rw [hx] at this; exact hset s m this

theorem discard_maps {α : Type} {x : BM α} (h : Keeps BlockManager.get_block_map x) :
    Keeps BlockManager.get_block_map (do let _ ← x) := h.bind fun _ => Keeps.pure _

variable [Hasher]

theorem reserve_copy_blocks_maps (r : Nat) (seq : Sequence) (d d' : Device) :
    Keeps maps (reserve_copy_blocks r seq d d') := by
  refine Keeps.get.bind fun s => Keeps.ite (Keeps.pure _) ?_
  split
  · exact Keeps.pure _
  · refine Keeps.ite ?_ (Keeps.pure _)
    exact (on_device_keeps_maps (BlockManager.reserve_blocks_maps _ _ _)).bind fun _ => Keeps.pure _

theorem backup_maps (r : Nat) (t : InferTask) : Keeps maps (backup r t) := by
  unfold backup
  split
  · exact Keeps.throw _
  · exact reserve_copy_blocks_maps _ _ _ _

theorem reserve_blocks_maps (r : Nat) (t : InferTask) (d : Device) :
    Keeps maps (reserve_blocks r t d) := by
  unfold reserve_blocks
  split
  · exact Keeps.throw _
  · refine Keeps.get.bind fun _ => ?_
    exact (on_device_keeps_maps (BlockManager.reserve_blocks_maps _ _ _)).bind fun _ => Keeps.pure _

omit [Hasher] in
theorem commit_reserved_blocks_maps (region : DeviceBlockRegion) :
    Keeps maps (commit_reserved_blocks region) :=
  on_device_keeps_maps (BlockManager.activate_reserved_blocks_maps _ _)

omit [Hasher] in
theorem unpin_blocks_maps (region : DeviceBlockRegion) : Keeps maps (unpin_blocks region) :=
  on_device_keeps_maps (discard_maps (BlockManager.unpin_blocks_maps _))

omit [Hasher] in
theorem pin_blocks_maps (r : Nat) (hash_values : List Nat) (d : Device) :
    Keeps maps (pin_blocks r hash_values d) :=
  (on_device_keeps_maps (BlockManager.pin_blocks_by_hashes_maps _ _)).bind fun _ => Keeps.pure _

omit [Hasher] in
theorem clear_cache_maps : Keeps maps clear_cache :=
  Keeps.forM (fun _ => on_device_keeps_maps BlockManager.clear_cache_maps) _

omit [Hasher] in
theorem activate_region_maps (region_id : Option Nat) (hash_values : List Nat) :
    Keeps maps (activate_region region_id hash_values) := by
  unfold activate_region
  split
  · exact on_device_keeps_maps (discard_maps (BlockManager.activate_reserved_blocks_maps _ _))
  · exact Keeps.pure _

/-! ### Lookups -/

section
variable {t : InferTask} (hnd : t.ids.Nodup) (f : Maps)
include hnd

theorem look_up_on_device {seq : Sequence} (hseq : seq ∈ t.seqs) {d : Device} (hd : d ≠ .Gpu) :
    Triple (fun s => LookedUp t f s.maps)
      (on_device d do let _ ← BlockManager.init_prefix_cache_blocks seq)
      (fun _ s => LookedUp t f s.maps) AnyError := by
  intro s hs
  cases hrun : on_device d (do let _ ← BlockManager.init_prefix_cache_blocks seq) s with
  | error e s' => trivial
  | ok a s' =>
    obtain ⟨m, hm, hdm, helse⟩ := on_device_maps hrun
    obtain ⟨r, m₁, hinit, hret⟩ := bind_ok.1 hm
    obtain rfl : m = m₁ := by simpa using hret.symm
    obtain ⟨b, hmaps, hold⟩ := BlockManager.init_prefix_cache_blocks_maps hinit
    refine hs.set hnd hseq hd (b := b) (fun hsized => ?_) ?_ helse
    · rcases hold with hold | ⟨-, hnew⟩
      · exact hold ▸ hsized
      · exact hnew
    · rw [show (s'.maps · d) = m.get_block_map from funext hdm, hmaps]; rfl

theorem init_prefix_cache_blocks_looks_up :
    Triple (fun s => LookedUp t f s.maps) (init_prefix_cache_blocks t [.Host, .Disk])
      (fun _ s => LookedUp t f s.maps) AnyError := by
  refine triple_forM_mem fun seq hseq => triple_forM_mem fun d hd => ?_
  refine look_up_on_device hnd f (List.mem_filter.1 hseq).1 ?_
  rintro rfl
  simp at hd

theorem plan_stage_looks_up (r : Nat) :
    Triple (fun s => LookedUp t f s.maps) (plan_stage r t) (fun _ s => LookedUp t f s.maps) AnyError := by
  refine Triple.bind (init_prefix_cache_blocks_looks_up hnd f) fun _ => Triple.get_bind fun s hs => ?_
  split
  · exact Triple.throw trivial
  · refine Triple.ite (fun _ => Triple.pure fun u hu => hu ▸ hs) fun _ u hu => ?_
    have hkeep := reserve_copy_blocks_maps r ‹_› .Disk .Host u
    cases hrun : reserve_copy_blocks r _ .Disk .Host u with
    | error e v => trivial
    | ok a v =>
      rw [hrun] at hkeep
      show LookedUp t f v.maps
      rw [show v.maps = u.maps from hkeep, hu]; exact hs

/-- A trigger looks up the prefix of the task's head sequence on the host. -/
theorem trigger_pend_task_looks_up {session_id : Nat} {region_id : Option Nat} {hash_values : List Nat}
    (ht : s.pending.lookup session_id = some t)
    (h : trigger_pend_task session_id region_id hash_values s = .ok .unit s') :
    LookedUp t s.maps s'.maps := by
  replace h := BlockManager.get_ok h
  simp only [ht] at h
  obtain ⟨_, s₁, hmod, h⟩ := bind_ok.1 h
  obtain rfl : { s with pending := s.pending.erase session_id } = s₁ := by simpa using hmod
  obtain ⟨_, s₂, hact, h⟩ := bind_ok.1 h
  have hmaps₂ : s₂.maps = s.maps := ((activate_region_maps _ _).of_ok hact).trans
    (maps_congr fun d => by cases d <;> rfl)
  cases hh : t.get_head_seq with
  | none => simp only [hh] at h; simp at h
  | some head =>
    simp only [hh] at h
    obtain ⟨_, s₃, hupd, h⟩ := bind_ok.1 h
    obtain rfl : { s₃ with waiting := insert_sorted s₃.waiting t } = s' := by simpa using h
    have hmaps₃ : ({ s₃ with waiting := insert_sorted s₃.waiting t } : Scheduler).maps = s₃.maps :=
      maps_congr fun d => by cases d <;> rfl
    obtain ⟨m, hm, hdm, helse⟩ := on_device_maps hupd
    obtain ⟨r, m₁, hblocks, hret⟩ := bind_ok.1 hm
    obtain rfl : m = m₁ := by simpa using hret.symm
    obtain ⟨b, hmaps, hsized⟩ := BlockManager.update_prefix_cache_blocks_maps hblocks
    rw [hmaps₃, ← hmaps₂]
    refine (LookedUp.refl t s₂.maps).set hnd (List.mem_filter.1 (List.mem_of_mem_head? hh)).1
      (d := .Host) (b := b) (by simp) hsized ?_ helse
    rw [show (s₃.maps · .Host) = m.get_block_map from funext hdm, hmaps]; rfl

end

/-! ### Removal -/

omit [Hasher] in
theorem remove_seq_maps {seq : Sequence} {d : Device} (h : remove_seq seq d s = .ok .unit s') :
    (∀ d', d' ≠ d → s'.maps seq.seq_id d' = s.maps seq.seq_id d') ∧ s'.maps seq.seq_id d = none ∧
      ∀ i, i ≠ seq.seq_id → s'.maps i = s.maps i := by
  obtain ⟨m, hm, hd, helse⟩ := on_device_maps h
  have hmaps : m.get_block_map = Function.update (s.maps · d) seq.seq_id none := by
    split at hm
    · exact BlockManager.free_and_drop_cache_maps hm
    · exact BlockManager.free_maps hm
  refine ⟨helse seq.seq_id, by rw [hd, hmaps, Function.update_self], fun i hi => funext fun d' => ?_⟩
  by_cases hdd : d' = d
  · rw [hdd, hd, hmaps, Function.update_of_ne hi]
  · exact helse i d' hdd

omit [Hasher] in
/-- The finished sequences of the task have no map any more, on any device. -/
theorem remove_task_maps {t : InferTask} (h : remove_task t s = .ok .unit s') (i : Nat) :
    s'.maps i = if i ∈ (t.get_seqs .Finished).map (·.seq_id) then fun _ => none else s.maps i := by
  have hloop : ∀ (l : List Sequence) {s s' : Scheduler},
      forM l (fun seq => forM [Device.Gpu, .Host, .Disk] fun d => remove_seq seq d) s = .ok .unit s' →
      s'.maps i = if i ∈ l.map (·.seq_id) then fun _ => none else s.maps i := by
    intro l
    induction l with
    | nil =>
      intro s s' h
      obtain rfl : s = s' := by simpa using h
      simp
    | cons seq l ih =>
      intro s s' h
      rw [List.forM_cons] at h
      obtain ⟨_, s₃, hseq, h⟩ := bind_ok.1 h
      rw [List.forM_cons] at hseq
      obtain ⟨_, s₁, hgpu, hseq⟩ := bind_ok.1 hseq
      rw [List.forM_cons] at hseq
      obtain ⟨_, s₂, hhost, hseq⟩ := bind_ok.1 hseq
      rw [List.forM_cons] at hseq
      obtain ⟨_, s₄, hdisk, hseq⟩ := bind_ok.1 hseq
      obtain rfl : s₄ = s₃ := by simpa using hseq
      obtain ⟨-, hg, hgother⟩ := remove_seq_maps hgpu
      obtain ⟨hhelse, hh, hhother⟩ := remove_seq_maps hhost
      obtain ⟨hdelse, hd, hdother⟩ := remove_seq_maps hdisk
      rw [ih h]
      by_cases hmem : i ∈ l.map (·.seq_id)
      · rw [if_pos hmem, if_pos (by simp [hmem])]
      · rw [if_neg hmem]
        by_cases hi : i = seq.seq_id
        · rw [if_pos (by simp [hi]), hi]
          funext d
          cases d with
          | Gpu => rw [hdelse _ (by simp), hhelse _ (by simp), hg]
          | Host => rw [hdelse _ (by simp), hh]
          | Disk => exact hd
        · rw [if_neg (by simpa [hi] using hmem), hdother i hi, hhother i hi, hgother i hi]
  exact hloop _ h

end

end Scheduler

/-! ### Results of a batch -/

theorem Scheduler.update_task_ids (max_seq_len : Nat) (running_batch : Table BatchEntry)
    (infer_outputs : Table InferOutput) (now : Nat) (t : InferTask) :
    (Scheduler.update_task max_seq_len running_batch infer_outputs now t).ids = t.ids := by
  unfold Scheduler.update_task InferTask.ids
  rw [List.map_map]
  refine List.map_congr_left fun seq _ => ?_
  simp only [Function.comp_apply]
  split
  · exact (System.update_seq_key _ _ _ _ seq).1
  · rfl

theorem Scheduler.update_seq_updated (max_seq_len : Nat) (running_batch : Table BatchEntry)
    (infer_outputs : Table InferOutput) (now : Nat) {seq : Sequence} (h : seq.status = .Allocated) :
    Updated seq (Scheduler.update_seq max_seq_len running_batch infer_outputs now seq) := by
  obtain ⟨hid, htok⟩ := System.update_seq_key max_seq_len running_batch infer_outputs now seq
  refine ⟨hid, htok, ?_⟩
  unfold Scheduler.update_seq
  split
  · split
    · exact .inl rfl
    · dsimp only
      split
      · exact .inr ⟨h, rfl⟩
      · exact .inl rfl
  · exact .inl rfl

theorem Scheduler.update_task_updated (max_seq_len : Nat) (running_batch : Table BatchEntry)
    (infer_outputs : Table InferOutput) (now : Nat) {t : InferTask} {seq' : Sequence}
    (h : seq' ∈ (Scheduler.update_task max_seq_len running_batch infer_outputs now t).seqs) :
    ∃ seq ∈ t.seqs, Updated seq seq' := by
  obtain ⟨seq, hseq, rfl⟩ := List.mem_map.1 h
  refine ⟨seq, hseq, ?_⟩
  split
  · exact Scheduler.update_seq_updated _ _ _ _ ‹_›
  · exact ⟨rfl, List.prefix_refl _, .inl rfl⟩

namespace Lifecycle

section
variable [Watch] {L : Lifecycle} {s s' : System} {σ : Scheduler} {t : InferTask}
  {f f' : Maps}

/-- Every task the system knows, with what its place promises. -/
def places (L : Lifecycle) (s : System) : List (Stage × InferTask) :=
  tag L.allocated s.scheduler.allocated ++ (tag L.waiting s.scheduler.waiting ++
    (tag L.waiting s.parked ++ tag L.finished s.finished))

/-- See the module doc. -/
def Inv (L : Lifecycle) (s : System) : Prop := L.Holds s.next_seq_id (L.places s) s.scheduler.maps

theorem Inv.new (L : Lifecycle) (c : SchedulerConfig) : L.Inv (System.new c) where
  nodup := List.nodup_nil
  inside := fun p hp => absurd hp List.not_mem_nil
  holds := fun p hp => absurd hp List.not_mem_nil
  rest := fun i _ => by
    have hnone : (System.new c).scheduler.maps i = fun _ => none := by
      funext d
      cases d <;> rfl
    rw [hnone]
    exact ⟨L.gone_none, fun _ => rfl⟩

theorem Inv.quiet (h : L.Inv s) (hc : σ.control = s.scheduler.control)
    (hm : σ.maps = s.scheduler.maps) (r : Nat) :
    L.Inv { s with scheduler := σ, next_region_id := r } := by
  obtain ⟨hW, hA, hP, -⟩ := Scheduler.control_eq hc
  have hplaces : L.places { s with scheduler := σ, next_region_id := r } = L.places s := by
    simp only [places, System.parked, Scheduler.pending_tasks, hW, hA, hP]
  unfold Inv
  rw [hplaces, show σ.maps = _ from hm]
  exact h

theorem Inv.on_scheduler [Hasher] {α : Type} {x : SM α} {a : α} (h : L.Inv s)
    (hc : Keeps Scheduler.control x) (hm : Keeps Scheduler.maps x)
    (hrun : System.on_scheduler x s = .ok a s') : L.Inv s' := by
  obtain ⟨σ, hσ, rfl⟩ := System.on_scheduler_ok hrun
  exact h.quiet (hc.of_ok hσ) (hm.of_ok hσ) _

section
variable [Hasher]

theorem Inv.phases (h : L.Inv s) (hrun : Scheduler.phases s.scheduler = .ok .unit σ) :
    L.Holds s.next_seq_id (tag L.ready σ.allocated ++ (tag L.waiting σ.waiting ++
      (tag L.waiting s.parked ++ tag L.finished s.finished))) σ.maps := by
  obtain ⟨_, s₁, hext, hadm⟩ := bind_ok.1 hrun
  exact (Holds.extend_tasks h hext).admit_waiting hadm

theorem Inv.schedule {batch : Scheduler.Batch} (h : L.Inv s)
    (hrun : Scheduler.schedule s.scheduler = .ok batch σ) : L.Inv { s with scheduler := σ } := by
  obtain ⟨hP, -, -⟩ := Scheduler.schedule_tally hrun
  have hparked : ({ s with scheduler := σ } : System).parked = s.parked := by
    simp only [System.parked, Scheduler.pending_tasks, hP]
  have hH := Split.weaken_all (Q := L.allocated) (Holds.schedule h hrun) fun _ => L.settle
  unfold Inv places
  rw [hparked]
  exact hH

end

open Classical in
theorem Inv.update {infer_outputs : Table InferOutput} {now : Nat} {finished : List InferTask}
    (h : L.Inv s) (hrun : System.update infer_outputs now s = .ok finished s') : L.Inv s' := by
  obtain ⟨fin, s₁, hupd, hrun⟩ := bind_ok.1 hrun
  obtain ⟨σ, hσ, rfl⟩ := System.on_scheduler_ok hupd
  replace hσ := BlockManager.get_ok hσ
  obtain ⟨_, σ₁, hmod, hσ⟩ := bind_ok.1 hσ
  simp only [modify_apply, EStateM.Result.ok.injEq, true_and] at hmod
  obtain ⟨rfl, rfl⟩ : _ = fin ∧ σ₁ = σ := by simpa using hσ
  obtain ⟨_, s₂, hmod₂, hrun⟩ := bind_ok.1 hrun
  simp only [modify_apply, EStateM.Result.ok.injEq, true_and] at hmod₂
  obtain ⟨-, rfl⟩ : _ ∧ s₂ = s' := by simpa using hrun
  obtain ⟨g, hg⟩ : ∃ g, g = Scheduler.update_task s.scheduler.max_seq_len s.scheduler.running_batch
    infer_outputs now := ⟨_, rfl⟩
  have hown : ∀ t, (g t).ids = t.ids := fun t => by rw [hg]; exact Scheduler.update_task_ids _ _ _ _ t
  have hgrown := Split.map_all (Q := fun t => if (g t).is_finished then L.finished else L.allocated) h hown
    fun t _ ht => by
      have hsteps : ∀ seq' ∈ (g t).seqs, ∃ seq ∈ t.seqs, Updated seq seq' := fun seq' hseq' => by
        rw [hg] at hseq'
        exact Scheduler.update_task_updated _ _ _ _ hseq'
      have hupdated := L.update ht hsteps
      split
      · rename_i hfin; rwa [if_pos hfin] at hupdated
      · rename_i hfin; rwa [if_neg hfin] at hupdated
  have hparts := tag_partition L.finished L.allocated (fun t => t.is_finished) (s.scheduler.allocated.map g)
  rw [List.map_map] at hparts
  have hmaps : s₂.scheduler.maps = s.scheduler.maps := by
    rw [← hmod₂, ← hmod]
    exact Scheduler.maps_congr fun d => by cases d <;> rfl
  unfold Inv
  rw [hmaps, show s₂.next_seq_id = s.next_seq_id by rw [← hmod₂]]
  refine Holds.of_count hgrown fun z => ?_
  have hcount := hparts.count_eq z
  rw [← hmod₂, ← hmod]
  simp only [places, System.parked, Scheduler.pending_tasks, tag_append, List.count_append,
    Function.comp_def] at hcount ⊢
  rw [← hg]
  omega

open Classical in
theorem Inv.remove_task {i : Nat} (h : L.Inv s) (hrun : System.remove_task i s = .ok .unit s') :
    L.Inv s' := by
  replace hrun := BlockManager.get_ok hrun
  cases hi : s.finished[i]? with
  | none =>
    simp only [hi] at hrun
    obtain rfl : s = s' := by simpa using hrun
    exact h
  | some t =>
    simp only [hi] at hrun
    obtain ⟨_, s₁, hsch, hrun⟩ := bind_ok.1 hrun
    obtain ⟨σ, hσ, rfl⟩ := System.on_scheduler_ok hsch
    obtain rfl : _ = s' := by simpa using hrun
    have hmaps := Scheduler.remove_task_maps hσ
    obtain ⟨hW, hA, hP, -⟩ := Scheduler.control_eq ((Scheduler.remove_task_keeps t).of_ok hσ)
    obtain ⟨hlt, hget⟩ := List.getElem?_eq_some_iff.1 hi
    have hperm := List.getElem_cons_eraseIdx_perm hlt
    rw [hget] at hperm
    have hfront : L.Holds s.next_seq_id ((L.finished, t) :: (tag L.allocated s.scheduler.allocated ++
        (tag L.waiting s.scheduler.waiting ++ (tag L.waiting s.parked ++
          tag L.finished (s.finished.eraseIdx i))))) s.scheduler.maps :=
      Holds.of_count h fun z => by
        have := (tag_perm L.finished hperm).count_eq z
        simp only [places, tag_cons, List.count_append, List.count_cons] at this ⊢
        omega
    have hafter : L.Holds s.next_seq_id (tag L.allocated s.scheduler.allocated ++
        (tag L.waiting s.scheduler.waiting ++ (tag L.waiting s.parked ++
          tag L.finished (s.finished.eraseIdx i)))) σ.maps := by
      refine Split.drop hfront (fun j hj => ?_) fun j hj hlt => ⟨?_, fun hle => absurd hlt (Nat.not_lt.2 hle)⟩
      · have hsub : ((t.get_seqs .Finished).map (·.seq_id)).Sublist t.ids := List.filter_sublist.map _
        rw [hmaps, if_neg fun hmem => hj (hsub.subset hmem)]
      · obtain ⟨seq, hseq, rfl⟩ := List.mem_map.1 hj
        rw [hmaps]
        split
        · exact L.gone_none
        · rename_i hnot
          refine L.remove (Split.head hfront) seq hseq fun hfin => hnot ?_
          exact List.mem_map.2 ⟨seq, List.mem_filter.2 ⟨hseq, by simpa using hfin⟩, rfl⟩
    unfold Inv places
    simp only [System.parked, Scheduler.pending_tasks, hW, hA, hP]
    exact hafter

open Classical in
theorem Inv.pend_reserved {i : Nat} (h : L.Inv s) (hrun : System.pend_reserved i s = .ok .unit s') :
    L.Inv s' := by
  replace hrun := BlockManager.get_ok hrun
  cases hi : s.reserving[i]? with
  | none =>
    simp only [hi] at hrun
    obtain rfl : s = s' := by simpa using hrun
    exact h
  | some t =>
    simp only [hi] at hrun
    obtain ⟨_, s₁, hmod, hrun⟩ := bind_ok.1 hrun
    obtain rfl : { s with reserving := s.reserving.eraseIdx i } = s₁ := by simpa using hmod
    obtain ⟨σ, hσ, rfl⟩ := System.on_scheduler_ok hrun
    obtain ⟨hfresh, rfl⟩ := Scheduler.pend_ok hσ
    have hvalues := Table.values_insert_fresh t hfresh
    obtain ⟨hlt, hget⟩ := List.getElem?_eq_some_iff.1 hi
    have hperm := List.getElem_cons_eraseIdx_perm hlt
    rw [hget] at hperm
    refine Holds.congr (Holds.of_count h fun z => ?_) fun d => by cases d <;> rfl
    have := (tag_perm L.waiting hperm).count_eq z
    simp only [places, System.parked, Scheduler.pending_tasks, hvalues, tag_append, tag_cons,
      List.count_append, List.count_cons] at this ⊢
    omega

section
variable [Hasher]

open Classical in
/-- The triggered task has moved from `pending` to `waiting`, and its prefix was looked up. -/
theorem Inv.trigger {session_id : Nat} {region_id : Option Nat} {hash_values : List Nat} (h : L.Inv s)
    (hrun : Scheduler.trigger_pend_task session_id region_id hash_values s.scheduler = .ok .unit σ) :
    L.Inv { s with scheduler := σ } := by
  obtain ⟨t, ht, hW, hA, hP⟩ := Scheduler.trigger_pend_task_ok hrun
  have hpend := Table.values_erase_perm ht
  have hfront : L.Holds s.next_seq_id ((L.waiting, t) :: (tag L.allocated s.scheduler.allocated ++
      (tag L.waiting s.scheduler.waiting ++ (tag L.waiting (Table.values (s.scheduler.pending.erase session_id)) ++
        (tag L.waiting s.reserving ++ tag L.finished s.finished))))) s.scheduler.maps :=
    Holds.of_count h fun z => by
      have := (tag_perm L.waiting hpend).count_eq z
      simp only [places, System.parked, Scheduler.pending_tasks, tag_append, tag_cons,
        List.count_append, List.count_cons] at this ⊢
      omega
  have hlook := Scheduler.trigger_pend_task_looks_up (Holds.ids_nodup hfront) ht hrun
  have hafter : L.Holds s.next_seq_id _ σ.maps :=
    Split.change hfront rfl hlook.outside (L.look_up (Split.head hfront) hlook)
  refine hafter.of_count fun z => ?_
  simp only [places, System.parked, Scheduler.pending_tasks, hW, hA, hP, tag_append, tag_cons,
    List.count_append, List.count_cons, count_tag_insert_sorted]
  omega

end

/-! ### Requests -/

omit [Watch] in
theorem ids_to_task (request : GenerateRequest) (first arrival : Nat) :
    (request.to_task first arrival).ids = (List.range request.num_samples).map (first + ·) := by
  simp [GenerateRequest.to_task, InferTask.ids, Sequence.new, Function.comp_def]

theorem Inv.create (h : L.Inv s) (request : GenerateRequest) (arrival : Nat) :
    L.Holds (s.next_seq_id + request.num_samples)
      ((L.waiting, request.to_task s.next_seq_id arrival) :: L.places s) s.scheduler.maps := by
  have hmem : ∀ i ∈ (request.to_task s.next_seq_id arrival).ids,
      s.next_seq_id ≤ i ∧ i < s.next_seq_id + request.num_samples := by
    intro i hi
    rw [ids_to_task] at hi
    obtain ⟨k, hk, rfl⟩ := List.mem_map.1 hi
    have := List.mem_range.1 hk
    omega
  have hnew : ∀ i ∈ (request.to_task s.next_seq_id arrival).ids, ∀ p ∈ L.places s, i ∉ p.2.ids :=
    fun i hi p hp hip => absurd (Split.inside h p hp i hip) (Nat.not_lt.2 (hmem i hi).1)
  have hgrown : L.Holds (s.next_seq_id + request.num_samples) (L.places s) s.scheduler.maps :=
    Split.mono h (fun i hi => Nat.lt_add_right _ hi) fun i m hm => ⟨hm.1, fun hle => hm.2 (by omega)⟩
  refine Split.add hgrown ?_ (fun i hi => (hmem i hi).2) hnew (fun _ _ => rfl) (L.create fun seq hseq => ?_)
  · rw [ids_to_task]
    exact List.Nodup.map (fun a b hab => by simpa using hab) List.nodup_range
  · have hi : seq.seq_id ∈ (request.to_task s.next_seq_id arrival).ids := List.mem_map.2 ⟨seq, hseq, rfl⟩
    refine ⟨?_, (Split.rest h _ (hnew _ hi)).2 (hmem _ hi).1⟩
    obtain ⟨k, -, rfl⟩ := List.mem_map.1 hseq
    rfl

variable [Hasher]

open Classical in
theorem Inv.reserve_request {request : GenerateRequest} {arrival : Nat}
    {region : Option DeviceBlockRegion} (h : L.Inv s)
    (hrun : System.reserve_request request arrival s = .ok region s') : L.Inv s' := by
  obtain ⟨t, s₁, hcreate, hrun⟩ := bind_ok.1 hrun
  obtain ⟨ht, rfl⟩ := System.create_task_ok hcreate
  obtain ⟨r, s₂, hid, hrun⟩ := bind_ok.1 hrun
  obtain ⟨rfl, rfl⟩ := System.generate_id_ok hid
  obtain ⟨reg, s₃, hsch, hrun⟩ := bind_ok.1 hrun
  obtain ⟨σ, hσ, rfl⟩ := System.on_scheduler_ok hsch
  obtain ⟨_, s₄, hmod, hrun⟩ := bind_ok.1 hrun
  simp only [modify_apply, EStateM.Result.ok.injEq, true_and] at hmod
  obtain ⟨-, rfl⟩ : _ ∧ s₄ = s' := by simpa using hrun
  obtain ⟨hW, hA, hP, -⟩ := Scheduler.control_eq ((Scheduler.reserve_blocks_keeps _ t .Host).of_ok hσ)
  have hmaps : σ.maps = s.scheduler.maps := (Scheduler.reserve_blocks_maps _ t .Host).of_ok hσ
  have hH := h.create request arrival
  rw [← ht, ← hmaps] at hH
  rw [← hmod]
  refine hH.of_count fun z => ?_
  simp only [places, System.parked, Scheduler.pending_tasks, hW, hA, hP, tag_append, tag_cons, tag_nil,
    List.count_append, List.count_cons, List.count_nil]
  omega

open Classical in
theorem Inv.add_request {request : GenerateRequest} {arrival : Nat}
    {plan : Option (DeviceBlockRegion × BlockMapping)} (h : L.Inv s)
    (hrun : System.add_request request arrival s = .ok plan s') : L.Inv s' := by
  obtain ⟨σ, σ₁, σ₂, plan', hσ, hσ₁, rfl, hdev, hA, hqueue⟩ := System.add_request_ok hrun
  have hH := h.create request arrival
  have hnd := hH.ids_nodup
  have hlook := (Scheduler.init_prefix_cache_blocks_looks_up hnd _).of_ok
    (LookedUp.refl _ s.scheduler.maps) hσ
  have hlook₁ := (Scheduler.plan_stage_looks_up hnd _ _).of_ok hlook hσ₁
  have hH₁ : L.Holds _ _ σ₁.maps :=
    Split.change hH rfl hlook₁.outside (L.look_up (Split.head hH) hlook₁)
  rw [← Scheduler.maps_congr hdev] at hH₁
  refine hH₁.of_count fun z => ?_
  rcases hqueue with ⟨hW, hP⟩ | ⟨hW, hP⟩ <;>
  · simp only [places, System.parked, hW, hA, hP, tag_append, tag_cons, tag_nil, List.count_append,
      List.count_cons, List.count_nil]
    omega

/-! ### Steps and runs -/

theorem Inv.step (h : L.Inv s) {op : Op} (hs : op.Step s s') : L.Inv s' := by
  cases op with
  | add_request request arrival =>
    obtain ⟨plan, s₁, hrun, hs⟩ := bind_ok.1 hs
    obtain rfl : s₁ = s' := by simpa using hs
    exact h.add_request hrun
  | reserve_request request arrival =>
    obtain ⟨region, s₁, hrun, hs⟩ := bind_ok.1 hs
    obtain rfl : s₁ = s' := by simpa using hs
    exact h.reserve_request hrun
  | pend_reserved i => exact h.pend_reserved hs
  | trigger session_id region_id hash_values =>
    obtain ⟨σ, hσ, rfl⟩ := System.on_scheduler_ok hs
    exact h.trigger hσ
  | schedule =>
    obtain ⟨batch, s₁, hrun, hs⟩ := bind_ok.1 hs
    obtain rfl : s₁ = s' := by simpa using hs
    obtain ⟨σ, hσ, rfl⟩ := System.on_scheduler_ok hrun
    exact h.schedule hσ
  | update infer_outputs now =>
    obtain ⟨finished, s₁, hrun, hs⟩ := bind_ok.1 hs
    obtain rfl : s₁ = s' := by simpa using hs
    exact h.update hrun
  | backup i =>
    obtain ⟨plan, s₁, hrun, hs⟩ := bind_ok.1 hs
    obtain rfl : s₁ = s' := by simpa using hs
    replace hrun := BlockManager.get_ok hrun
    cases hi : s.finished[i]? with
    | none =>
      simp only [hi] at hrun
      obtain ⟨-, rfl⟩ : _ ∧ s = s₁ := by simpa using hrun
      exact h
    | some t =>
      simp only [hi] at hrun
      obtain ⟨r, s₂, hid, hrun⟩ := bind_ok.1 hrun
      obtain ⟨rfl, rfl⟩ := System.generate_id_ok hid
      obtain ⟨σ, hσ, rfl⟩ := System.on_scheduler_ok hrun
      exact h.quiet ((Scheduler.backup_keeps _ t).of_ok hσ) ((Scheduler.backup_maps _ t).of_ok hσ) _
  | remove_task i => exact h.remove_task hs
  | commit region =>
    obtain ⟨k, s₁, hrun, hs⟩ := bind_ok.1 hs
    obtain rfl : s₁ = s' := by simpa using hs
    exact h.on_scheduler (Scheduler.on_device_keeps _ _) (Scheduler.commit_reserved_blocks_maps _) hrun
  | pin hash_values =>
    obtain ⟨region, s₁, hrun, hs⟩ := bind_ok.1 hs
    obtain rfl : s₁ = s' := by simpa using hs
    obtain ⟨r, s₂, hid, hrun⟩ := bind_ok.1 hrun
    obtain ⟨rfl, rfl⟩ := System.generate_id_ok hid
    obtain ⟨σ, hσ, rfl⟩ := System.on_scheduler_ok hrun
    exact h.quiet ((Scheduler.pin_blocks_keeps _ _ _).of_ok hσ) ((Scheduler.pin_blocks_maps _ _ _).of_ok hσ) _
  | unpin region =>
    exact h.on_scheduler (Scheduler.on_device_keeps _ _) (Scheduler.unpin_blocks_maps _) hs
  | clear_cache => exact h.on_scheduler Scheduler.clear_cache_keeps Scheduler.clear_cache_maps hs

end

end Lifecycle

/-! ### Watched runs -/

namespace Op

section
variable [Hasher] (W : Watch)

/-- The step is not a `schedule` that passes a point where the watched condition fails. -/
def careful (s : System) : Op → Bool
  | schedule => !Scheduler.quits W s.scheduler
  | _ => true

theorem careful_of_stricter {W W' : Watch} (hstricter : W.Stricter W') {s : System} {op : Op}
    (hc : op.careful W s = true) : op.careful W' s = true := by
  cases op with
  | schedule => simpa [careful] using Scheduler.quits_of_stricter hstricter (by simpa [careful] using hc)
  | _ => rfl

theorem step_of_careful_next {s s' : System} {op : Op}
    (h : (if op.careful W s then @next _ .nothing s op else none) = some s') :
    @Step _ .nothing s op s' ∧ op.careful W s = true := by
  split at h
  · exact ⟨@step_of_next _ .nothing s s' op h, ‹_›⟩
  · cases h

theorem step_watched {s s' : System} {op : Op} (hc : op.careful W s = true)
    (hs : @Step _ .nothing s op s') :
    @Step _ W s op s' := by
  cases op with
  | schedule =>
    obtain ⟨batch, s₁, hrun, hs⟩ := bind_ok.1 hs
    obtain rfl : s₁ = s' := by simpa using hs
    obtain ⟨σ, hσ, rfl⟩ := System.on_scheduler_ok hrun
    have hwatched := Scheduler.schedule_watched W (by simpa [careful] using hc) hσ
    exact bind_ok.2 ⟨batch, _, zoom_ok.2 ⟨σ, hwatched, rfl⟩, rfl⟩
  | _ => exact hs

end

end Op

/-- A lifecycle in the runs whose steps are all careful. -/
theorem Lifecycle.Inv.run [Hasher] (W : Watch) (L : @Lifecycle W) {c : SchedulerConfig} {ops : List Op}
    {s : System} (h : Run (fun s op s' => @Op.Step _ .nothing s op s' ∧ op.careful W s = true)
      (System.new c) ops s) :
    @Lifecycle.Inv W L s :=
  h.invariant (I := fun s => @Lifecycle.Inv W L s) (@Lifecycle.Inv.new W L c)
    fun _ _ _ hi hs => @Lifecycle.Inv.step W L _ _ _ hi _ (Op.step_watched W hs.2 hs.1)

end LMServe
