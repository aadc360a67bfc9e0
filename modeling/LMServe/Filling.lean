import LMServe.Activation
import LMServe.Samples

/-!
# Fill levels on the GPU and the host

What the host has filled of a sequence ends with a full block and, where the GPU has a map, with a slot there.
Both hold between the steps of a run: the phases give a sequence slots for all its tokens, and outside
scheduling nothing is looked up for a sequence that has a map on the GPU.
-/

namespace LMServe
open Hoare Chunk BlockManager Ownership

namespace BlockManager

section
variable {m m' : BlockManager}

theorem get_filled_token_len_of_maps (h : m'.get_block_map = m.get_block_map) :
    m'.get_filled_token_len = m.get_filled_token_len := by
  funext i
  unfold get_filled_token_len
  rw [congrFun h i]

theorem get_filled_token_len_set {i : Nat} {b : BlockMap} (hb : b.filled_token_len = m.get_filled_token_len i) :
    (m.set_block_map i b).get_filled_token_len = m.get_filled_token_len := by
  funext j
  by_cases hj : j = i
  · rw [hj, ← hb, get_filled_token_len, get_block_map_set_block_map, if_pos rfl]
  · rw [get_filled_token_len, get_block_map_set_block_map, if_neg hj, get_filled_token_len]

theorem Keeps.filled {α : Type} {x : BM α} (h : Keeps get_block_map x) : Keeps get_filled_token_len x := by
  intro m
  have := h m
  cases hx : x m with
  | ok a m' => rw [hx] at this; exact get_filled_token_len_of_maps this
  | error e m' => rw [hx] at this; exact get_filled_token_len_of_maps this

theorem alloc_blocks_filled [Hasher] (seq : Sequence) : Keeps get_filled_token_len (alloc_blocks seq) := by
  refine Keeps.get.bind fun m => Keeps.bind ?_ fun _ => Keeps.bind ?_ fun _ => Keeps.get.bind fun m' => ?_
  · exact Keeps.ite (Keeps.pure _) (Keeps.throw _)
  · exact Keeps.filled (Keeps.maps (fill_last_block_tables _ _ _))
  · refine Keeps.bind (Keeps.filled (Keeps.maps (Keeps.mapM (fun _ => alloc_new_block_tables _ _) _))) fun ids => ?_
    refine Keeps.bind (Keeps.modify fun s => ?_) fun _ => Keeps.pure _
    split
    · rename_i b hb
      exact get_filled_token_len_set (by simp [BlockMap.append_block_ids, get_filled_token_len, hb])
    · rename_i hb
      exact get_filled_token_len_set (by simp [get_filled_token_len, hb])

end

/-- The maps have at least the slots that `level` counts. -/
def Covering (level : Nat → Nat) (m : BlockManager) : Prop :=
  ∀ i b, m.get_block_map i = some b → level i ≤ b.num_allocated_slots

end BlockManager

/-! ### The phases of a round -/

namespace Scheduler

/-- What is filled on the host. -/
def host_filled (s : Scheduler) : Nat → Nat := s.host_block_manager.get_filled_token_len

theorem on_gpu_host_filled {α : Type} (x : BM α) : Keeps host_filled (on_device .Gpu x) :=
  Keeps.zoom fun _ _ => rfl

theorem on_device_host_filled {α : Type} (d : Device) {x : BM α} (h : Keeps get_filled_token_len x) :
    Keeps host_filled (on_device d x) :=
  h.inside fun m s hm => by
    cases d with
    | Host => exact hm
    | Gpu | Disk => rfl

section
variable [Hasher] [Watch]

theorem try_extend_infer_task_host_filled (t : InferTask) (w : Watermark) (d : Device) :
    Keeps host_filled (try_extend_infer_task t w d) := by
  refine (on_device_host_filled d ?_).bind fun _ => (watch_keeps _ _).bind fun _ => Keeps.pure _
  induction t.get_active_seqs with
  | nil => exact Keeps.pure _
  | cons seq l ih =>
    refine (can_alloc_seq_keeps _ seq _).bind fun ok => Keeps.ite ?_ (Keeps.pure _)
    exact (alloc_blocks_filled seq).bind fun _ => ih.bind fun _ => Keeps.pure _

theorem try_alloc_infer_task_host_filled (t : InferTask) (w : Watermark) :
    Keeps host_filled (try_alloc_infer_task t w .Gpu) :=
  (on_gpu_host_filled _).bind fun _ => (watch_keeps _ _).bind fun _ => Keeps.pure _

omit [Hasher] in
theorem preempt_infer_task_host_filled (t : InferTask) : Keeps host_filled (preempt_infer_task t) :=
  (watch_keeps _ _).bind fun _ => (Keeps.forM (fun _ => on_gpu_host_filled _) _).bind fun _ => Keeps.pure _

theorem phases_host_filled : Keeps host_filled phases :=
  KeptByPasses.phases
    { queues := fun _ _ _ => rfl
      try_alloc := try_alloc_infer_task_host_filled
      try_extend := try_extend_infer_task_host_filled
      can_alloc := fun _ _ _ => (on_gpu_host_filled _).bind fun _ => Keeps.pure _
      preempt := preempt_infer_task_host_filled }

end

/-! ### What the phases do on the GPU -/

/-- `I` is kept by what the phases do to the sequences in `K` on the GPU. A sequence is admitted in two steps, with
`R` in between, and freed if its task passes the watch. -/
structure HeldOnGpu [Hasher] [Watch] (K : List (Nat × List Nat)) (I : BlockManager → Prop)
    (R : Sequence → BlockManager → Prop) : Prop where
  weaken : ∀ {seq : Sequence} {m : BlockManager}, I m → R seq m
  init_prefix : ∀ {seq : Sequence}, seq.key ∈ K →
    Triple I (BlockManager.init_prefix_cache_blocks seq) (fun _ => R seq) AnyError
  alloc_blocks : ∀ {seq : Sequence}, seq.key ∈ K →
    Triple (R seq) (BlockManager.alloc_blocks seq) (fun _ => I) AnyError
  free : ∀ {t : InferTask} {seq : Sequence}, Watch.preempted t = true → seq ∈ t.get_active_seqs → seq.key ∈ K →
    Triple I (BlockManager.free seq.seq_id) (fun _ => I) AnyError

section
variable [Hasher] [Watch] {K : List (Nat × List Nat)} {I : BlockManager → Prop} {R : Sequence → BlockManager → Prop}

omit [Hasher] [Watch] in
theorem on_gpu_triple {α : Type} {x : BM α} (h : Triple I x (fun _ => I) AnyError) :
    Triple (fun s => I s.gpu_block_manager) (on_device .Gpu x) (fun _ s => I s.gpu_block_manager) AnyError := by
  intro s hs
  cases hrun : on_device .Gpu x s with
  | error e s' => trivial
  | ok a s' =>
    obtain ⟨m, hm, rfl⟩ := on_device_ok hrun
    exact h.of_ok hs hm

omit [Hasher] [Watch] in
theorem off_gpu_triple {α : Type} {d : Device} (hd : d ≠ .Gpu) (x : BM α) :
    Triple (fun s => I s.gpu_block_manager) (on_device d x) (fun _ s => I s.gpu_block_manager) AnyError := by
  intro s hs
  cases hrun : on_device d x s with
  | error e s' => trivial
  | ok a s' =>
    obtain ⟨m, -, rfl⟩ := on_device_ok hrun
    cases d with
    | Gpu => exact absurd rfl hd
    | Host | Disk => exact hs

theorem HeldOnGpu.try_alloc_loop (h : HeldOnGpu K I R) (w : Watermark) {l : List Sequence}
    (hl : ∀ seq ∈ l, seq.key ∈ K) : Triple I (try_alloc_loop w l) (fun _ => I) AnyError := by
  induction l with
  | nil => exact Triple.pure fun _ h => h
  | cons seq l ih =>
    have ih := ih fun x hx => hl x (by simp [hx])
    have hseq := hl seq (by simp)
    refine Triple.ite (fun _ => ?_) fun _ => Triple.bind ih fun _ => Triple.pure fun _ h => h
    refine Triple.bind (BlockManager.get_num_required_blocks_triple seq) fun k => ?_
    refine Triple.get_bind fun m hm => Triple.ite (fun _ => ?_) fun _ => Triple.pure fun m' h => h ▸ hm
    refine Triple.get_bind fun m' hm' => ?_
    refine Triple.bind (R := fun _ => I) (Triple.pre (watch_triple trivial _) fun m'' h => ?_) fun _ => ?_
    · rw [h, hm']; exact hm
    refine Triple.bind (h.init_prefix hseq) fun _ => Triple.bind (h.alloc_blocks hseq) fun _ => ?_
    exact Triple.bind ih fun _ => Triple.pure fun _ h => h

theorem HeldOnGpu.try_extend_loop (h : HeldOnGpu K I R) (w : Watermark) {l : List Sequence}
    (hl : ∀ seq ∈ l, seq.key ∈ K) : Triple I (try_extend_loop w l) (fun _ => I) AnyError := by
  induction l with
  | nil => exact Triple.pure fun _ h => h
  | cons seq l ih =>
    refine Triple.bind (BlockManager.can_alloc_seq_triple (BlockManager.get_num_required_blocks_triple seq) w)
      fun ok => Triple.ite (fun _ => ?_) fun _ => Triple.pure fun _ h => h
    refine Triple.bind (Triple.pre (h.alloc_blocks (hl seq (by simp))) fun _ => h.weaken) fun _ => ?_
    exact Triple.bind (ih fun x hx => hl x (by simp [hx])) fun _ => Triple.pure fun _ h => h

theorem HeldOnGpu.held (h : HeldOnGpu K I R) : HeldByPasses K (fun s => I s.gpu_block_manager) AnyError where
  queues _ _ hI := hI
  try_alloc w ht := Triple.bind (on_gpu_triple (h.try_alloc_loop w ht)) fun _ =>
    Triple.bind (watch_triple trivial _) fun _ => Triple.pure fun _ h => h
  try_extend w d ht := by
    refine Triple.bind (R := fun _ s => I s.gpu_block_manager) ?_ fun _ =>
      Triple.bind (watch_triple trivial _) fun _ => Triple.pure fun _ h => h
    by_cases hd : d = .Gpu
    · rw [hd]; exact on_gpu_triple (h.try_extend_loop w (known_active ht))
    · exact off_gpu_triple hd _
  can_alloc {t} k w _ := by
    refine Triple.bind (on_gpu_triple ?_) fun _ => Triple.pure fun _ h => h
    induction t.get_active_seqs with
    | nil => exact Triple.pure fun _ h => h
    | cons seq l ih =>
      refine Triple.bind (BlockManager.get_num_required_blocks_triple seq) fun _ => ?_
      refine Triple.get_bind fun m hm => Triple.ite (fun _ => ?_) fun _ => Triple.pure fun m' h => h ▸ hm
      exact Triple.bind (Triple.pre ih fun m' h => h ▸ hm) fun _ => Triple.pure fun _ h => h
  preempt {t} ht s hs := by
    cases hrun : preempt_infer_task t s with
    | error e s' => trivial
    | ok t' s' =>
      obtain ⟨_, s₀, hw, hrest⟩ := bind_ok.1 hrun
      obtain ⟨hwatch, rfl⟩ := watch_ok hw
      obtain ⟨_, s₁, hfor, hret⟩ := bind_ok.1 hrest
      obtain ⟨-, rfl⟩ : _ ∧ s₁ = s' := by simpa using hret
      exact (triple_forM_mem fun seq hseq => on_gpu_triple
        (h.free hwatch hseq (known_active ht seq hseq))).of_ok hs hfor
  outOfFuel := trivial
  watched := trivial

end

/-! ### The levels -/

/-- See the module doc. -/
structure Levels (bs : Nat) (s : Scheduler) : Prop where
  flush : ∀ i, bs ∣ s.host_filled i
  covered : s.gpu_block_manager.Covering s.host_filled

section
variable [Hasher] [Watch] {bs : Nat} {K : List (Nat × List Nat)} {level : Nat → Nat} {s s' : Scheduler}

/-- An admitted or extended sequence has slots for all its tokens. -/
theorem covering_held (hlevel : ∀ p ∈ K, level p.1 ≤ p.2.length) :
    HeldOnGpu K (Covering level) fun seq m => ∀ i b, i ≠ seq.seq_id → m.get_block_map i = some b →
      level i ≤ b.num_allocated_slots where
  weaken hm := fun i b _ => hm i b
  init_prefix {seq} _ m hm := by
    cases hrun : BlockManager.init_prefix_cache_blocks seq m with
    | error e m' => trivial
    | ok a m' =>
      obtain ⟨b, hmaps, -⟩ := init_prefix_cache_blocks_maps hrun
      intro i b' hi hb'
      rw [hmaps, Function.update_of_ne hi] at hb'
      exact hm i b' hb'
  alloc_blocks {seq} hseq m hm := by
    cases hrun : BlockManager.alloc_blocks seq m with
    | error e m' => trivial
    | ok a m' =>
      obtain ⟨b, hmaps, hslots, -⟩ := alloc_blocks_maps hrun
      intro i b' hb'
      rw [hmaps] at hb'
      by_cases hi : i = seq.seq_id
      · rw [hi, Function.update_self] at hb'
        rw [← Option.some.inj hb', hslots, hi]
        exact hlevel _ hseq
      · rw [Function.update_of_ne hi] at hb'
        exact hm i b' hi hb'
  free {t seq} _ _ _ m hm := by
    cases hrun : BlockManager.free seq.seq_id m with
    | error e m' => trivial
    | ok a m' =>
      intro i b hb
      rw [free_maps hrun] at hb
      by_cases hi : i = seq.seq_id
      · rw [hi, Function.update_self] at hb
        cases hb
      · rw [Function.update_of_ne hi] at hb
        exact hm i b hb

theorem Levels.phases (h : s.Levels bs)
    (hhost : ∀ p ∈ keys (s.waiting ++ s.allocated), s.host_filled p.1 ≤ p.2.length)
    (hrun : phases s = .ok .unit s') : s'.Levels bs := by
  have hfilled : s'.host_filled = s.host_filled := phases_host_filled.of_ok hrun
  have hpassing := (phases_held (covering_held hhost).held).of_ok ⟨h.covered,
    fun t ht seq hseq => key_mem_keys (List.mem_append_left _ ht) hseq,
    fun t ht seq hseq => key_mem_keys (List.mem_append_right _ ht) hseq⟩ hrun
  exact ⟨hfilled ▸ h.flush, hfilled ▸ hpassing.held⟩

end

end Scheduler

/-! ### Between the rounds -/

namespace BlockManager

section
variable [Hasher] {m m' : BlockManager}

theorem update_prefix_filled_eq {seq : Sequence} {a : Nat} (hrun : update_prefix_cache_blocks seq m = .ok a m') :
    (∀ j, m'.get_filled_token_len j = m.get_filled_token_len j) ∨ ∃ k, ∀ j, m'.get_filled_token_len j =
      if j = seq.seq_id then m.get_filled_token_len j + k * m.block_size else m.get_filled_token_len j := by
  replace hrun := get_ok hrun
  cases hm : m.get_block_map seq.seq_id with
  | none =>
    rw [hm] at hrun
    refine (init_prefix_filled_eq hrun).imp id fun ⟨k, hk⟩ => ⟨k, fun j => (hk j).trans ?_⟩
    by_cases hj : j = seq.seq_id
    · rw [if_pos hj, if_pos hj, hj, get_filled_token_len, hm, Nat.zero_add]
    · rw [if_neg hj, if_neg hj]
  | some b =>
    rw [hm] at hrun
    obtain ⟨ids, m₁, hrange, hrest⟩ := bind_ok.1 hrun
    obtain ⟨_, m₂, hretain, hrest⟩ := bind_ok.1 hrest
    have hmaps : m₂.get_block_map = m.get_block_map :=
      ((Keeps.maps (retain_all_tables _)).of_ok hretain).trans
        ((get_prefix_cache_blocks_range_keeps _ _ _ _).of_ok hrange)
    obtain ⟨-, rfl⟩ : _ ∧ _ = m' := by simpa using modify_ok hrest
    refine .inr ⟨ids.length, fun j => ?_⟩
    rw [get_filled_token_len, get_block_map_set_block_map]
    by_cases hj : j = seq.seq_id
    · rw [if_pos hj, if_pos hj, hj, get_filled_token_len, hm]
    · rw [if_neg hj, if_neg hj, hmaps]
      rfl

end

end BlockManager

namespace Op

section
variable [Hasher] {bs i : Nat} {s : System} {op : Op} {d : Device} {o : BmOp} {m m' : BlockManager}

/-- Outside scheduling what is filled on a device keeps ending with a block. -/
theorem Does.flush (hop : op ≠ .schedule) (h : op.Does s d o) (hs : o.Step m m') (hm : Flush i m) : Flush i m' := by
  have hsize : m'.block_size = m.block_size := (BmOp.exec_block_size _).of_ok hs.2
  by_cases hi : o.map_of = some i
  · cases h with
    | look_up => exact hm.init hs
    | triggered =>
      obtain ⟨a, m₁, hrun, hret⟩ := bind_ok.1 hs.2
      obtain rfl : m₁ = m' := by simpa using hret
      unfold Flush at hm ⊢
      rw [hsize]
      rcases update_prefix_filled_eq hrun with hsame | ⟨k, hk⟩
      · rw [hsame]; exact hm
      · rw [hk]
        split
        · exact Nat.dvd_add hm (Nat.dvd_mul_left _ _)
        · exact hm
    | free | free_and_drop_cache =>
      obtain rfl := Option.some.inj hi
      unfold Flush get_filled_token_len
      first
      | rw [free_maps hs.2, Function.update_self]
      | rw [free_and_drop_cache_maps hs.2, Function.update_self]
      exact Nat.dvd_zero _
    | schedule => exact absurd rfl hop
    | stage | reserve | activate | backup | commit | pin | unpin | clear_cache => cases hi
  · unfold Flush at hm ⊢
    rw [hsize, get_filled_token_len, BmOp.step_map_other hs hi]
    exact hm

/-- Where nothing is looked up, maps are left alone or taken away. -/
theorem Does.removed (hop : op ≠ .schedule) (hadd : ∀ request arrival, op ≠ .add_request request arrival)
    (htrigger : d = .Gpu ∨ ∀ session_id region_id hash_values, op ≠ .trigger session_id region_id hash_values)
    (h : op.Does s d o) (hs : o.Step m m') :
    m'.get_block_map i = m.get_block_map i ∨ m'.get_block_map i = none := by
  by_cases hi : o.map_of = some i
  · cases h with
    | look_up => exact absurd rfl (hadd _ _)
    | triggered => exact htrigger.elim nofun fun hne => absurd rfl (hne _ _ _)
    | free =>
      obtain rfl := Option.some.inj hi
      exact .inr (by rw [free_maps hs.2, Function.update_self])
    | free_and_drop_cache =>
      obtain rfl := Option.some.inj hi
      exact .inr (by rw [free_and_drop_cache_maps hs.2, Function.update_self])
    | schedule => exact absurd rfl hop
    | stage | reserve | activate | backup | commit | pin | unpin | clear_cache => cases hi
  · exact .inl (BmOp.step_map_other hs hi)

theorem step_removed [Watch] {s' : System} (hfree : NextFree s) (hop : op ≠ .schedule)
    (hadd : ∀ request arrival, op ≠ .add_request request arrival)
    (htrigger : d = .Gpu ∨ ∀ session_id region_id hash_values, op ≠ .trigger session_id region_id hash_values)
    (hs : op.Step s s') : (s'.scheduler.get_block_manager d).get_block_map i =
        (s.scheduler.get_block_manager d).get_block_map i ∨
      (s'.scheduler.get_block_manager d).get_block_map i = none := by
  refine (Doing.step hfree hs d).invariant (I := fun m => m.get_block_map i =
    (s.scheduler.get_block_manager d).get_block_map i ∨ m.get_block_map i = none) (.inl rfl)
    fun m o m' hm ho hstep => ?_
  rcases ho.removed hop hadd htrigger hstep with hsame | hnone
  · rw [hsame]; exact hm
  · exact .inr hnone

/-- A request is not looked up on the GPU, so outside scheduling the GPU has no new maps. -/
theorem step_gpu_maps [Watch] {s' : System} (hfree : NextFree s) (hop : op ≠ .schedule) (hs : op.Step s s')
    (i : Nat) : s'.scheduler.gpu_block_manager.get_block_map i = s.scheduler.gpu_block_manager.get_block_map i ∨
      s'.scheduler.gpu_block_manager.get_block_map i = none := by
  by_cases hadd : ∃ request arrival, op = .add_request request arrival
  · obtain ⟨request, arrival, rfl⟩ := hadd
    obtain ⟨plan, s₁, hrun, hret⟩ := bind_ok.1 hs
    obtain rfl : s₁ = s' := by simpa using hret
    obtain ⟨σ, σ₁, σ₂, plan', hσ, hσ₁, rfl, hdev, -⟩ := System.add_request_ok hrun
    have hnd : (request.to_task s.next_seq_id arrival).ids.Nodup := by
      rw [Lifecycle.ids_to_task]
      exact List.nodup_range.map fun _ _ h => Nat.add_left_cancel h
    have hlook := (Scheduler.plan_stage_looks_up hnd s.scheduler.maps _).of_ok
      ((Scheduler.init_prefix_cache_blocks_looks_up hnd _).of_ok (LookedUp.refl _ _) hσ) hσ₁
    refine .inl (Eq.trans ?_ (hlook.gpu i))
    exact congrArg (fun m => BlockManager.get_block_map m i) (hdev .Gpu)
  · exact step_removed (d := .Gpu) hfree hop (fun request arrival h => hadd ⟨request, arrival, h⟩) (.inl rfl) hs

end

end Op

namespace System

/-- What holds of the fill levels between the rounds. -/
structure Leveled (bs : Nat) (s : System) : Prop where
  levels : s.scheduler.Levels bs
  parked : ∀ t ∈ s.parked, ∀ i ∈ t.ids, s.scheduler.gpu_block_manager.get_block_map i = none

section
variable [Hasher] [Watch] {bs : Nat} {c : SchedulerConfig} {ops : List Op} {s s' : System}

theorem unmapped_of_new (hrun : Run Op.Step (System.new c) ops s) {request : GenerateRequest} {arrival i : Nat}
    (hi : i ∈ (request.to_task s.next_seq_id arrival).ids) (d : Device) :
    (s.scheduler.get_block_manager d).get_block_map i = none := by
  rw [Lifecycle.ids_to_task] at hi
  obtain ⟨k, -, rfl⟩ := List.mem_map.1 hi
  exact unmapped_of_run hrun (Nat.le_add_right _ k) d

theorem Leveled.step {op : Op} (hop : op ≠ .schedule) (hrun : Run Op.Step (System.new c) ops s)
    (h : Leveled c.block_size s) (hs : op.Step s s') : Leveled c.block_size s' := by
  have hfree := (regionsBelow hrun).nextFree
  have hgpu := Op.step_gpu_maps hfree hop hs
  have hflush : ∀ i, Flush i s'.scheduler.host_block_manager := fun i =>
    (Op.Doing.step hfree hs .Host).invariant (I := Flush i)
      (by unfold Flush; rw [block_size_of_run hrun .Host]; exact h.levels.flush i)
      fun _ _ _ hm ho hstep => ho.flush hop hstep hm
  have hsize : s'.scheduler.host_block_manager.block_size = c.block_size := block_size_of_run (hrun.snoc hs) .Host
  refine ⟨⟨fun i => hsize ▸ hflush i, fun i g hg => ?_⟩, fun t ht i hi => ?_⟩
  · have hold : s.scheduler.gpu_block_manager.get_block_map i = some g := by
      rcases hgpu i with hsame | hnone
      · exact hsame.symm.trans hg
      · cases hnone.symm.trans hg
    refine le_trans ?_ (h.levels.covered i g hold)
    have hhost : s'.scheduler.host_block_manager.get_block_map i = s.scheduler.host_block_manager.get_block_map i ∨
        s'.scheduler.host_block_manager.get_block_map i = none := by
      by_cases hact : ∃ t ∈ op.acts_on s, i ∈ t.ids
      · obtain ⟨t, ht, hi⟩ := hact
        cases op with
        | add_request request arrival =>
          obtain rfl := List.mem_singleton.1 ht
          cases (unmapped_of_new hrun hi .Gpu).symm.trans hold
        | trigger session_id region_id hash_values =>
          have hparked : t ∈ s.parked := List.mem_append_left _
            ((Table.values_erase_perm (Option.mem_toList.1 ht)).subset List.mem_cons_self)
          cases (h.parked t hparked i hi).symm.trans hold
        | remove_task k => exact Op.step_removed (d := .Host) hfree hop (by simp) (.inr (by simp)) hs
        | schedule => exact absurd rfl hop
        | reserve_request _ _ | pend_reserved _ | update _ _ | backup _ | commit _ | pin _ | unpin _
        | clear_cache => cases ht
      · exact .inl (congrFun (Op.step_maps_other hfree hs fun t ht hi => hact ⟨t, ht, hi⟩) .Host)
    unfold Scheduler.host_filled get_filled_token_len
    rcases hhost with hsame | hnone
    · rw [hsame]
    · rw [hnone]; exact Nat.zero_le _
  · have hnone : s.scheduler.gpu_block_manager.get_block_map i = none := by
      rcases (Op.Parks.of_step hs).mem_parked ht with ⟨hold, -⟩ | ⟨request, arrival, rfl⟩
      · exact h.parked t hold i hi
      · exact unmapped_of_new hrun hi .Gpu
    rcases hgpu i with hsame | hgone
    · rw [hsame, hnone]
    · exact hgone

end

end System

end LMServe
