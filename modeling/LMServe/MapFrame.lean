import LMServe.Devices
import LMServe.LifecycleRun

/-!
# Whose maps a step changes

An operation of a manager changes the map of at most one sequence, and a step of the system works on
sequences of the tasks it acts on only. So the maps of every other sequence are the same after the step,
on all three devices.
-/

namespace LMServe
open Hoare BlockManager Ownership

/-- The sequence whose map the operation may change. -/
def BmOp.map_of : BmOp → Option Nat
  | alloc_blocks seq | init_prefix_cache_blocks seq | update_prefix_cache_blocks seq => some seq.seq_id
  | update_filled_len i _ | free i | free_and_drop_cache i => some i
  | reserve_blocks _ _ _ | activate_reserved_blocks _ _ | pin_blocks_by_hashes _ _ | unpin_blocks _
  | clear_cache => none

theorem BmOp.step_map_other [Hasher] {m m' : BlockManager} {op : BmOp} (hs : op.Step m m') {i : Nat}
    (hi : op.map_of ≠ some i) : m'.get_block_map i = m.get_block_map i := by
  obtain ⟨-, hs⟩ := hs
  have hset : ∀ {j : Nat} {b : Option BlockMap}, j ≠ i →
      m'.get_block_map = Function.update m.get_block_map j b → m'.get_block_map i = m.get_block_map i :=
    fun hj hm => by rw [hm, Function.update_of_ne (Ne.symm hj)]
  have hkeep : ∀ {α : Type} {x : BM α}, Keeps BlockManager.get_block_map x →
      (do let _ ← x : BM PUnit) m = .ok .unit m' → m'.get_block_map i = m.get_block_map i :=
    fun hx hrun => congrFun ((Scheduler.discard_maps hx).of_ok hrun) i
  cases op with
  | alloc_blocks seq =>
    obtain ⟨_, m₁, hrun, hret⟩ := bind_ok.1 hs
    obtain rfl : m₁ = m' := by simpa using hret
    obtain ⟨_, hmaps, -⟩ := alloc_blocks_maps hrun
    exact hset (fun h => hi (congrArg some h)) hmaps
  | init_prefix_cache_blocks seq =>
    obtain ⟨_, m₁, hrun, hret⟩ := bind_ok.1 hs
    obtain rfl : m₁ = m' := by simpa using hret
    obtain ⟨_, hmaps, -⟩ := init_prefix_cache_blocks_maps hrun
    exact hset (fun h => hi (congrArg some h)) hmaps
  | update_prefix_cache_blocks seq =>
    obtain ⟨_, m₁, hrun, hret⟩ := bind_ok.1 hs
    obtain rfl : m₁ = m' := by simpa using hret
    obtain ⟨_, hmaps, -⟩ := update_prefix_cache_blocks_maps hrun
    exact hset (fun h => hi (congrArg some h)) hmaps
  | update_filled_len j len =>
    rcases update_filled_len_maps hs with ⟨hmaps, -⟩ | ⟨_, -, -, hmaps⟩
    · rw [hmaps]
    · exact hset (fun h => hi (congrArg some h)) hmaps
  | free j => exact hset (fun h => hi (congrArg some h)) (free_maps hs)
  | free_and_drop_cache j => exact hset (fun h => hi (congrArg some h)) (free_and_drop_cache_maps hs)
  | reserve_blocks r T start => exact hkeep (BlockManager.reserve_blocks_maps _ _ _) hs
  | activate_reserved_blocks r hashes => exact hkeep (activate_reserved_blocks_maps _ _) hs
  | pin_blocks_by_hashes r hashes => exact hkeep (pin_blocks_by_hashes_maps _ _) hs
  | unpin_blocks r => exact hkeep (unpin_blocks_maps _) hs
  | clear_cache => exact congrFun (clear_cache_maps.of_ok hs) i

namespace Op

/-- The tasks whose sequences the step gives blocks or takes blocks from. -/
def acts_on (s : System) : Op → List InferTask
  | add_request request arrival => [request.to_task s.next_seq_id arrival]
  | trigger session_id _ _ => (s.scheduler.pending.lookup session_id).toList
  | schedule => s.scheduler.waiting ++ s.scheduler.allocated
  | remove_task i => s.finished[i]?.toList
  | _ => []

section
variable [Hasher] {s s' : System}

omit [Hasher] in
theorem Does.acts_on {op : Op} {d : Device} {o : BmOp} (h : op.Does s d o) {i : Nat} (hi : o.map_of = some i) :
    ∃ t ∈ op.acts_on s, i ∈ t.ids := by
  have hmem : ∀ {t : InferTask} {seq : Sequence}, seq ∈ t.seqs → seq.seq_id ∈ t.ids :=
    fun hseq => List.mem_map.2 ⟨_, hseq, rfl⟩
  have hkey : ∀ {tasks : List InferTask} {seq : Sequence}, seq.key ∈ keys tasks →
      ∃ t ∈ tasks, seq.seq_id ∈ t.ids := fun {tasks seq} hseq => by
    obtain ⟨t, ht, hk⟩ := List.mem_flatMap.1 hseq
    obtain ⟨x, hx, hxk⟩ := List.mem_map.1 hk
    exact ⟨t, ht, List.mem_map.2 ⟨x, hx, congrArg Prod.fst hxk⟩⟩
  cases h with
  | look_up d hseq =>
    obtain rfl := Option.some.inj hi
    exact ⟨_, by simp [Op.acts_on], hmem hseq⟩
  | triggered _ _ ht hseq =>
    obtain rfl := Option.some.inj hi
    exact ⟨_, by simp [Op.acts_on, ht], hmem hseq⟩
  | schedule d hop =>
    cases o with
    | alloc_blocks seq | init_prefix_cache_blocks seq =>
      obtain rfl := Option.some.inj hi
      exact hkey hop
    | update_filled_len j len | free j =>
      obtain rfl := Option.some.inj hi
      obtain ⟨seq, rfl, hseq⟩ := hop
      exact hkey hseq
    | update_prefix_cache_blocks _ | reserve_blocks _ _ _ | activate_reserved_blocks _ _
    | pin_blocks_by_hashes _ _ | unpin_blocks _ | free_and_drop_cache _ | clear_cache => exact hop.elim
  | free d ht hseq | free_and_drop_cache d ht hseq =>
    obtain rfl := Option.some.inj hi
    exact ⟨_, by simp [Op.acts_on, ht], hmem hseq⟩
  | stage | reserve | activate | backup | commit | pin | unpin | clear_cache => cases hi

theorem step_maps_other [Watch] {op : Op} (hfree : NextFree s) (hs : op.Step s s') {i : Nat}
    (hi : ∀ t ∈ op.acts_on s, i ∉ t.ids) : s'.scheduler.maps i = s.scheduler.maps i := by
  funext d
  refine (Doing.step hfree hs d).invariant (I := fun m => m.get_block_map i =
    (s.scheduler.get_block_manager d).get_block_map i) rfl fun m o m' hm ho hstep => ?_
  refine (BmOp.step_map_other hstep fun hmap => ?_).trans hm
  obtain ⟨t, ht, hit⟩ := ho.acts_on hmap
  exact hi t ht hit

end

end Op

/-! ### Tasks that wait for a trigger -/

namespace Op

/-- What the step does to the tasks that are to be triggered, and to the counter of sequences. -/
def Parks (s s' : System) : Op → Prop
  | add_request request arrival =>
    s'.reserving = s.reserving ∧ s'.next_seq_id = s.next_seq_id + request.num_samples ∧
      (s'.scheduler.pending = s.scheduler.pending ∨
        s.scheduler.pending.lookup request.session_id = none ∧ s'.scheduler.pending =
          s.scheduler.pending.insert request.session_id (request.to_task s.next_seq_id arrival))
  | reserve_request request arrival =>
    s'.reserving = s.reserving ++ [request.to_task s.next_seq_id arrival] ∧
      s'.next_seq_id = s.next_seq_id + request.num_samples ∧ s'.scheduler.pending = s.scheduler.pending
  | pend_reserved i =>
    s'.next_seq_id = s.next_seq_id ∧ (s'.reserving = s.reserving ∧ s'.scheduler.pending = s.scheduler.pending ∨
      ∃ t, s.reserving[i]? = some t ∧ s'.reserving = s.reserving.eraseIdx i ∧
        s.scheduler.pending.lookup t.session_id = none ∧
        s'.scheduler.pending = s.scheduler.pending.insert t.session_id t)
  | trigger session_id _ _ =>
    s'.reserving = s.reserving ∧ s'.next_seq_id = s.next_seq_id ∧
      s'.scheduler.pending = s.scheduler.pending.erase session_id
  | _ => s'.reserving = s.reserving ∧ s'.next_seq_id = s.next_seq_id ∧
      s'.scheduler.pending = s.scheduler.pending

section
variable [Hasher] [Watch] {s s' : System} {op : Op}

theorem Parks.of_step (hs : op.Step s s') : op.Parks s s' := by
  have hpending : ∀ {σ : Scheduler}, σ.control = s.scheduler.control → σ.pending = s.scheduler.pending :=
    fun hσ => (Scheduler.control_eq hσ).2.2.1
  cases op with
  | add_request request arrival =>
    obtain ⟨plan, s₁, hrun, hs⟩ := bind_ok.1 hs
    obtain rfl : s₁ = s' := by simpa using hs
    obtain ⟨t, s₁, hcreate, hrun⟩ := bind_ok.1 hrun
    obtain ⟨rfl, rfl⟩ := System.create_task_ok hcreate
    obtain ⟨_, s₂, hinit, hrun⟩ := bind_ok.1 hrun
    obtain ⟨σ, hσ, rfl⟩ := System.on_scheduler_ok hinit
    obtain ⟨r, s₃, hid, hrun⟩ := bind_ok.1 hrun
    obtain ⟨-, rfl⟩ := System.generate_id_ok hid
    obtain ⟨plan', s₄, hplan, hrun⟩ := bind_ok.1 hrun
    obtain ⟨σ₁, hσ₁, rfl⟩ := System.on_scheduler_ok hplan
    have hsame := hpending (((Scheduler.plan_stage_keeps _ _).of_ok hσ₁).trans
      ((Scheduler.init_prefix_cache_blocks_keeps _ _).of_ok hσ))
    cases plan' with
    | none =>
      obtain ⟨_, s₅, hqueue, hret⟩ := bind_ok.1 hrun
      obtain ⟨-, rfl⟩ : _ ∧ s₅ = _ := by simpa using hret
      obtain ⟨σ₂, hσ₂, rfl⟩ := System.on_scheduler_ok hqueue
      obtain rfl : _ = σ₂ := by simpa [Scheduler.add] using hσ₂
      exact ⟨rfl, rfl, .inl hsame⟩
    | some p =>
      obtain ⟨_, s₅, hqueue, hret⟩ := bind_ok.1 hrun
      obtain ⟨-, rfl⟩ : _ ∧ s₅ = _ := by simpa using hret
      obtain ⟨σ₂, hσ₂, rfl⟩ := System.on_scheduler_ok hqueue
      obtain ⟨hnone, rfl⟩ := Scheduler.pend_ok hσ₂
      rw [hsame] at hnone
      refine ⟨rfl, rfl, .inr ⟨hnone, ?_⟩⟩
      dsimp only
      rw [hsame]
      rfl
  | reserve_request request arrival =>
    obtain ⟨region, s₁, hrun, hs⟩ := bind_ok.1 hs
    obtain rfl : s₁ = s' := by simpa using hs
    obtain ⟨t, s₂, hcreate, hrun⟩ := bind_ok.1 hrun
    obtain ⟨rfl, rfl⟩ := System.create_task_ok hcreate
    obtain ⟨r, s₃, hid, hrun⟩ := bind_ok.1 hrun
    obtain ⟨-, rfl⟩ := System.generate_id_ok hid
    obtain ⟨reg, s₄, hsch, hrun⟩ := bind_ok.1 hrun
    obtain ⟨σ, hσ, rfl⟩ := System.on_scheduler_ok hsch
    obtain ⟨-, rfl⟩ : _ ∧ _ = s₁ := by simpa using modify_ok hrun
    exact ⟨rfl, rfl, hpending ((Scheduler.reserve_blocks_keeps _ _ _).of_ok hσ)⟩
  | pend_reserved i =>
    replace hs := get_ok hs
    cases hi : s.reserving[i]? with
    | none =>
      simp only [hi] at hs
      obtain rfl : s = s' := by simpa using hs
      exact ⟨rfl, .inl ⟨rfl, rfl⟩⟩
    | some t =>
      simp only [hi] at hs
      obtain ⟨σ, hσ, rfl⟩ := System.on_scheduler_ok (modify_ok hs)
      obtain ⟨hnone, rfl⟩ := Scheduler.pend_ok hσ
      exact ⟨rfl, .inr ⟨t, hi, rfl, hnone, rfl⟩⟩
  | trigger session_id region_id hash_values =>
    obtain ⟨σ, hσ, rfl⟩ := System.on_scheduler_ok hs
    obtain ⟨t, -, -, -, hP⟩ := Scheduler.trigger_pend_task_ok hσ
    exact ⟨rfl, rfl, hP⟩
  | schedule =>
    obtain ⟨batch, s₁, hrun, hs⟩ := bind_ok.1 hs
    obtain rfl : s₁ = s' := by simpa using hs
    obtain ⟨σ, hσ, rfl⟩ := System.on_scheduler_ok hrun
    exact ⟨rfl, rfl, (Scheduler.schedule_tally hσ).1⟩
  | update infer_outputs now =>
    obtain ⟨finished, s₁, hrun, hs⟩ := bind_ok.1 hs
    obtain rfl : s₁ = s' := by simpa using hs
    obtain ⟨fin, s₂, hupd, hrun⟩ := bind_ok.1 hrun
    obtain ⟨σ, hσ, rfl⟩ := System.on_scheduler_ok hupd
    obtain ⟨-, rfl⟩ : _ ∧ _ = σ := by simpa using modify_ok (get_ok hσ)
    obtain ⟨-, rfl⟩ : _ ∧ _ = s₁ := by simpa using modify_ok hrun
    exact ⟨rfl, rfl, rfl⟩
  | backup i =>
    obtain ⟨plan, s₁, hrun, hs⟩ := bind_ok.1 hs
    obtain rfl : s₁ = s' := by simpa using hs
    replace hrun := get_ok hrun
    cases hi : s.finished[i]? with
    | none =>
      simp only [hi] at hrun
      obtain ⟨-, rfl⟩ : _ ∧ s = s₁ := by simpa using hrun
      exact ⟨rfl, rfl, rfl⟩
    | some t =>
      simp only [hi] at hrun
      obtain ⟨r, s₂, hid, hrun⟩ := bind_ok.1 hrun
      obtain ⟨-, rfl⟩ := System.generate_id_ok hid
      obtain ⟨σ, hσ, rfl⟩ := System.on_scheduler_ok hrun
      exact ⟨rfl, rfl, hpending ((Scheduler.backup_keeps _ _).of_ok hσ)⟩
  | remove_task i =>
    replace hs := get_ok hs
    cases hi : s.finished[i]? with
    | none =>
      simp only [hi] at hs
      obtain rfl : s = s' := by simpa using hs
      exact ⟨rfl, rfl, rfl⟩
    | some t =>
      simp only [hi] at hs
      obtain ⟨_, s₁, hsch, hs⟩ := bind_ok.1 hs
      obtain ⟨σ, hσ, rfl⟩ := System.on_scheduler_ok hsch
      obtain rfl : _ = s' := by simpa using hs
      exact ⟨rfl, rfl, hpending ((Scheduler.remove_task_keeps _).of_ok hσ)⟩
  | commit region =>
    obtain ⟨k, s₁, hrun, hs⟩ := bind_ok.1 hs
    obtain rfl : s₁ = s' := by simpa using hs
    obtain ⟨σ, hσ, rfl⟩ := System.on_scheduler_ok hrun
    exact ⟨rfl, rfl, hpending ((Scheduler.on_device_keeps _ _).of_ok hσ)⟩
  | pin hash_values =>
    obtain ⟨region, s₁, hrun, hs⟩ := bind_ok.1 hs
    obtain rfl : s₁ = s' := by simpa using hs
    obtain ⟨r, s₂, hid, hrun⟩ := bind_ok.1 hrun
    obtain ⟨-, rfl⟩ := System.generate_id_ok hid
    obtain ⟨σ, hσ, rfl⟩ := System.on_scheduler_ok hrun
    exact ⟨rfl, rfl, hpending ((Scheduler.pin_blocks_keeps _ _ _).of_ok hσ)⟩
  | unpin region =>
    obtain ⟨σ, hσ, rfl⟩ := System.on_scheduler_ok hs
    exact ⟨rfl, rfl, hpending ((Scheduler.on_device_keeps _ _).of_ok hσ)⟩
  | clear_cache =>
    obtain ⟨σ, hσ, rfl⟩ := System.on_scheduler_ok hs
    exact ⟨rfl, rfl, hpending (Scheduler.clear_cache_keeps.of_ok hσ)⟩

omit [Hasher] [Watch]

theorem Parks.next_seq_le (h : op.Parks s s') : s.next_seq_id ≤ s'.next_seq_id := by
  cases op with
  | add_request request arrival | reserve_request request arrival =>
    rw [h.2.1]; exact Nat.le_add_right _ _
  | pend_reserved i => rw [h.1]
  | _ => rw [h.2.1]

/-- A caller of `reserve_request` comes with its first critical section. -/
theorem Parks.mem_reserving (h : op.Parks s s') {t : InferTask} (ht : t ∈ s'.reserving) :
    t ∈ s.reserving ∨ ∃ request arrival, op = .reserve_request request arrival ∧
      t = request.to_task s.next_seq_id arrival := by
  cases op with
  | reserve_request request arrival =>
    rw [h.1] at ht
    rcases List.mem_append.1 ht with ht | ht
    · exact .inl ht
    · exact .inr ⟨request, arrival, rfl, List.mem_singleton.1 ht⟩
  | pend_reserved i =>
    rcases h.2 with ⟨hsame, -⟩ | ⟨u, -, herase, -⟩
    · rw [hsame] at ht; exact .inl ht
    · rw [herase] at ht; exact .inl (List.mem_of_mem_eraseIdx ht)
  | _ => rw [h.1] at ht; exact .inl ht

/-- A parked task was parked before, and was not triggered, or is new. -/
theorem Parks.mem_parked (h : op.Parks s s') {t : InferTask} (ht : t ∈ s'.parked) :
    (t ∈ s.parked ∧ ∀ session_id region_id hash_values, op = .trigger session_id region_id hash_values →
        t ∈ s.reserving ∨ ∃ i, i ≠ session_id ∧ s.scheduler.pending.lookup i = some t) ∨
      ∃ (request : GenerateRequest) (arrival : Nat), t = request.to_task s.next_seq_id arrival := by
  have hvalue : ∀ {i : Nat} {u : InferTask}, s.scheduler.pending.lookup i = some u → u ∈ s.parked :=
    fun hu => List.mem_append_left _ ((Table.values_erase_perm hu).subset (List.mem_cons_self ..))
  rcases List.mem_append.1 ht with hpend | hres
  · obtain ⟨⟨i, u⟩, hmem, rfl⟩ := List.mem_map.1 hpend
    replace hmem : s'.scheduler.pending.lookup i = some u := AList.mem_lookup_iff.2 hmem
    have hsame : s'.scheduler.pending = s.scheduler.pending → u ∈ s.parked := fun hs => hvalue (hs ▸ hmem)
    cases op with
    | add_request request arrival =>
      rcases h.2.2 with hs | ⟨-, hs⟩
      · exact .inl ⟨hsame hs, fun _ _ _ h => by cases h⟩
      · rw [hs, Table.lookup_insert_eq] at hmem
        split at hmem
        · exact .inr ⟨request, arrival, (Option.some.inj hmem).symm⟩
        · exact .inl ⟨hvalue hmem, fun _ _ _ h => by cases h⟩
    | pend_reserved k =>
      rcases h.2 with ⟨-, hs⟩ | ⟨v, hv, -, -, hs⟩
      · exact .inl ⟨hsame hs, fun _ _ _ h => by cases h⟩
      · rw [hs, Table.lookup_insert_eq] at hmem
        refine .inl ⟨?_, fun _ _ _ h => by cases h⟩
        split at hmem
        · obtain rfl := Option.some.inj hmem
          exact List.mem_append_right _ (List.mem_of_getElem? hv)
        · exact hvalue hmem
    | trigger session_id _ _ =>
      rw [h.2.2, Table.lookup_erase_eq] at hmem
      split at hmem
      · cases hmem
      · rename_i hne
        refine .inl ⟨hvalue hmem, fun _ _ _ heq => ?_⟩
        obtain ⟨rfl, -, -⟩ := Op.trigger.inj heq
        exact .inr ⟨i, hne, hmem⟩
    | _ => exact .inl ⟨hsame h.2.2, fun _ _ _ h => by cases h⟩
  · rcases h.mem_reserving hres with hold | ⟨request, arrival, -, rfl⟩
    · exact .inl ⟨List.mem_append_right _ hold, fun _ _ _ _ => .inl hold⟩
    · exact .inr ⟨request, arrival, rfl⟩

end

end Op

namespace Lifecycle.Inv

variable [Watch] {L : Lifecycle} {s : System} {t u : InferTask}

theorem places_snd (L : Lifecycle) (s : System) : (L.places s).map Prod.snd =
    s.scheduler.allocated ++ (s.scheduler.waiting ++ (s.parked ++ s.finished)) := by
  have hsnd : ∀ (P : Stage) (l : List InferTask), (tag P l).map Prod.snd = l := fun P l => by
    simp [tag, Function.comp_def]
  simp only [places, List.map_append, hsnd]

theorem pairwise (h : L.Inv s) : (s.scheduler.allocated ++ (s.scheduler.waiting ++ (s.parked ++ s.finished))).Pairwise
    fun t u => t.ids.Disjoint u.ids := by
  rw [← places_snd L, List.pairwise_map]
  exact (List.nodup_flatMap.1 h.nodup).2

theorem parked_apart (h : L.Inv s) (ht : t ∈ s.parked)
    (hu : u ∈ s.scheduler.allocated ∨ u ∈ s.scheduler.waiting ∨ u ∈ s.finished) : u.ids.Disjoint t.ids := by
  have hp := List.pairwise_append.1 h.pairwise
  have hq := List.pairwise_append.1 hp.2.1
  rcases hu with hu | hu | hu
  · exact hp.2.2 u hu t (List.mem_append_right _ (List.mem_append_left _ ht))
  · exact hq.2.2 u hu t (List.mem_append_left _ ht)
  · exact ((List.pairwise_append.1 hq.2.1).2.2 t ht u hu).symm

/-- A step that does not trigger a task does not act on it while it is parked. -/
theorem parked_untouched (h : L.Inv s) (ht : t ∈ s.parked) {op : Op}
    (htrigger : ∀ session_id region_id hash_values, op = .trigger session_id region_id hash_values →
      ∀ u, s.scheduler.pending.lookup session_id = some u → u.ids.Disjoint t.ids) {i : Nat} (hi : i ∈ t.ids) :
    ∀ u ∈ op.acts_on s, i ∉ u.ids := by
  have hlt : i < s.next_seq_id := by
    refine h.inside (L.waiting, t) (List.mem_append_right _ (List.mem_append_right _ ?_)) i hi
    exact List.mem_append_left _ (mem_tag.2 ⟨rfl, ht⟩)
  intro u hu hiu
  cases op with
  | add_request request arrival =>
    obtain rfl := List.mem_singleton.1 hu
    rw [Lifecycle.ids_to_task] at hiu
    obtain ⟨k, -, rfl⟩ := List.mem_map.1 hiu
    exact absurd hlt (Nat.not_lt.2 (Nat.le_add_right _ _))
  | trigger session_id region_id hash_values =>
    exact htrigger _ _ _ rfl u (Option.mem_toList.1 hu) hiu hi
  | schedule =>
    rcases List.mem_append.1 hu with hu | hu
    · exact h.parked_apart ht (.inr (.inl hu)) hiu hi
    · exact h.parked_apart ht (.inl hu) hiu hi
  | remove_task k =>
    exact h.parked_apart ht (.inr (.inr (List.mem_of_getElem? (Option.mem_toList.1 hu)))) hiu hi
  | reserve_request _ _ | pend_reserved _ | update _ _ | backup _ | commit _ | pin _ | unpin _
  | clear_cache => cases hu

theorem pending_apart_reserving (h : L.Inv s) (ht : t ∈ s.reserving) (hu : u ∈ s.scheduler.pending_tasks) :
    u.ids.Disjoint t.ids :=
  (List.pairwise_append.1 (List.pairwise_append.1 (List.pairwise_append.1
    (List.pairwise_append.1 h.pairwise).2.1).2.1).1).2.2 u hu t ht

theorem pending_apart (h : L.Inv s) {i j : Nat} (hij : i ≠ j) (ht : s.scheduler.pending.lookup i = some t)
    (hu : s.scheduler.pending.lookup j = some u) : u.ids.Disjoint t.ids := by
  have hpend : s.scheduler.pending_tasks.Pairwise fun t u => t.ids.Disjoint u.ids :=
    (List.pairwise_append.1 (List.pairwise_append.1 (List.pairwise_append.1
      (List.pairwise_append.1 h.pairwise).2.1).2.1).1).1
  have hperm := (Table.values_erase_perm ht).pairwise_iff (R := fun t u : InferTask => t.ids.Disjoint u.ids)
    fun hab => hab.symm
  refine ((List.pairwise_cons.1 (hperm.2 hpend)).1 u ?_).symm
  have hu' : (s.scheduler.pending.erase i).lookup j = some u := by
    rw [Table.lookup_erase_eq, if_neg (Ne.symm hij), hu]
  exact (Table.values_erase_perm hu').subset (List.mem_cons_self ..)

end Lifecycle.Inv

end LMServe
