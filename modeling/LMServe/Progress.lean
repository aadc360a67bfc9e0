import LMServe.Idle
import LMServe.Steady

/-!
# Every round hands something out

In steady runs no waiting task has blocks on the GPU. So when no task is allocated, all blocks there are free, and a
task that stays below the watermark on its own is admitted. The extension loop keeps the task it begins with, the
reordering leaves no task waiting with nothing allocated, and the first allocated task gets an input.
-/

namespace LMServe
open Hoare Ownership Chunk BlockManager

/-- One sequence, not empty, which on its own stays below the watermark. -/
def InferTask.FitsAlone (c : SchedulerConfig) (t : InferTask) : Prop :=
  ∃ seq, t.seqs = [seq] ∧ seq.token_ids ≠ [] ∧
    div_ceil seq.token_ids.length c.block_size ≤ c.watermark_blocks.limit c.num_gpu_blocks

namespace InferTask

section
variable {c : SchedulerConfig} {t t' : InferTask}

theorem FitsAlone.lone (h : t.FitsAlone c) : t.Lone := by
  obtain ⟨seq, hseqs, -⟩ := h
  rw [Lone, hseqs, List.length_singleton]

theorem FitsAlone.of_ident (h : t.FitsAlone c) (hid : t'.ident = t.ident) : t'.FitsAlone c := by
  have hkeys : t'.keys = t.keys := keys_of_ident hid
  obtain ⟨seq', hseqs'⟩ := List.length_eq_one_iff.1 ((lone_of_keys hkeys).2 h.lone)
  obtain ⟨seq, hseqs, hne, hle⟩ := h
  have htokens : seq'.token_ids = seq.token_ids := by
    simp only [keys, hseqs, hseqs', List.map_cons, List.map_nil, List.cons.injEq, Sequence.key, Prod.mk.injEq] at hkeys
    exact hkeys.1.2
  exact ⟨seq', hseqs', htokens ▸ hne, htokens ▸ hle⟩

theorem fitsAlone_iff : t.FitsAlone c ↔ t.seqs.length = 1 ∧ ∀ seq ∈ t.seqs, seq.token_ids ≠ [] ∧
    div_ceil seq.token_ids.length c.block_size ≤ c.watermark_blocks.limit c.num_gpu_blocks := by
  constructor
  · rintro ⟨seq, hseqs, hfits⟩
    exact ⟨by rw [hseqs, List.length_singleton], fun x hx => List.mem_singleton.1 (hseqs ▸ hx) ▸ hfits⟩
  · rintro ⟨hlen, hfits⟩
    obtain ⟨seq, hseqs⟩ := List.length_eq_one_iff.1 hlen
    exact ⟨seq, hseqs, hfits seq (hseqs ▸ List.mem_singleton_self seq)⟩

instance : Decidable (t.FitsAlone c) := decidable_of_iff _ fitsAlone_iff.symm

end

end InferTask

/-! ### A device without blocks in use -/

namespace BlockManager

section
variable {n : Nat} {m : BlockManager} {w : Watermark}

theorem RefInv.free_of_unmapped (h : m.RefInv n []) (hmaps : ∀ i, m.get_block_map i = none)
    (hregions : ∀ r, m.reserved_blocks_table.lookup r = none) : n ≤ m.block_allocator.free_block_ids.length := by
  have hsub : List.range n ⊆ m.block_allocator.free_block_ids := fun b hb => by
    refine (h.count.mem_free b).2 ⟨h.total ▸ List.mem_range.1 hb, ?_⟩
    rw [refs_eq_zero_of_unmapped hmaps hregions, List.count_nil]
  have hlen := (List.subperm_of_subset List.nodup_range hsub).length_le
  rwa [List.length_range] at hlen

theorem RefInv.can_alloc_of_free (h : m.RefInv n []) (hfree : n ≤ m.block_allocator.free_block_ids.length) {k : Nat}
    (hk : k ≤ w.limit n) : m.can_alloc_blocks k w = true := by
  have hzero : n - m.block_allocator.free_block_ids.length = 0 := Nat.sub_eq_zero_of_le hfree
  simp only [can_alloc_blocks, BlockAllocator.can_alloc_blocks, decide_eq_true_eq, h.total, hzero, Nat.zero_add]
  exact hk

end

end BlockManager

namespace Scheduler

section
variable [Hasher] [Watch] {s s' : Scheduler} {t : InferTask} {seq : Sequence} {w : Watermark}

theorem try_alloc_loop_fits {m m' : BlockManager} {rest : List Sequence} (hact : seq.is_active = true)
    (hfits : ∀ k, k ≤ div_ceil seq.token_ids.length m.block_size → m.can_alloc_blocks k w = true)
    {r : Nat × List Sequence} (h : try_alloc_loop w (seq :: rest) m = .ok r m') : 0 < r.1 := by
  rw [try_alloc_loop, if_pos hact] at h
  obtain ⟨k, m₁, hreq, h⟩ := bind_ok.1 h
  obtain ⟨hm₁, hk⟩ := get_num_required_blocks_ok hreq
  rw [hm₁] at h
  replace h := BlockManager.get_ok h
  rw [if_pos (hfits k (hk ▸ Nat.sub_le _ _))] at h
  obtain ⟨_, m₂, -, h⟩ := bind_ok.1 h
  obtain ⟨_, m₃, -, h⟩ := bind_ok.1 h
  obtain ⟨_, m₄, -, h⟩ := bind_ok.1 h
  obtain ⟨_, m₅, -, h⟩ := bind_ok.1 h
  obtain ⟨⟨n, seqs⟩, m₆, -, h⟩ := bind_ok.1 h
  obtain ⟨rfl, -⟩ : _ = r ∧ _ = m' := by simpa using h
  exact Nat.succ_pos n

theorem try_alloc_infer_task_fits (hseqs : t.seqs = [seq]) (hact : seq.is_active = true)
    (hfits : ∀ k, k ≤ div_ceil seq.token_ids.length s.gpu_block_manager.block_size →
      s.gpu_block_manager.can_alloc_blocks k w = true) {r : Bool × InferTask}
    (h : try_alloc_infer_task t w .Gpu s = .ok r s') : r.1 = true := by
  obtain ⟨⟨n, seqs⟩, s₁, hdev, h⟩ := bind_ok.1 h
  obtain ⟨m, hloop, -⟩ := on_device_ok hdev
  rw [hseqs] at hloop
  have hpos : 0 < n := try_alloc_loop_fits hact hfits hloop
  obtain ⟨_, s₂, -, h⟩ := bind_ok.1 h
  obtain ⟨rfl, -⟩ : _ = r ∧ _ = s' := by simpa using h
  exact decide_eq_true hpos

/-! ### The loops -/

theorem admit_in_order_allocated (fuel : Nat) : ∀ {s s' : Scheduler}, admit_in_order fuel s = .ok .unit s' →
    s.allocated ≠ [] → s'.allocated ≠ [] := by
  induction fuel with
  | zero => intro s s' h; simp [admit_in_order] at h
  | succ fuel ih =>
    intro s s' h hne
    replace h := BlockManager.get_ok h
    cases hW : s.waiting with
    | nil =>
      rw [hW] at h
      obtain rfl : s = s' := by simpa using h
      exact hne
    | cons t queue =>
      rw [hW] at h
      obtain ⟨_, s₁, hmod, h⟩ := bind_ok.1 h
      obtain rfl : { s with waiting := queue } = s₁ := by simpa using hmod
      obtain ⟨⟨ok, t'⟩, s₂, halloc, h⟩ := bind_ok.1 h
      have hA₂ := (control_eq (try_alloc_infer_task_ok halloc).1).2.1
      dsimp only at h
      split at h
      · obtain ⟨_, s₃, -, h⟩ := bind_ok.1 h
        obtain ⟨_, s₄, hmod₄, h⟩ := bind_ok.1 h
        simp only [modify_apply, EStateM.Result.ok.injEq, true_and] at hmod₄
        exact ih h (by rw [← hmod₄]; exact List.append_ne_nil_of_right_ne_nil _ (List.cons_ne_nil _ _))
      · obtain rfl : { s₂ with waiting := t' :: s₂.waiting } = s' := by simpa using h
        show s₂.allocated ≠ []
        rw [hA₂]
        exact hne

/-- Admission in queue order admits the first task, if that fits where nothing is allocated. -/
theorem admit_in_order_fills {fuel : Nat} (h : admit_in_order fuel s = .ok .unit s')
    (hne : s.waiting ≠ [] ∨ s.allocated ≠ [])
    (hfits : ∀ t queue, s.waiting = t :: queue → s.allocated = [] → ∀ t' s₁,
      try_alloc_infer_task t s.watermark_blocks .Gpu { s with waiting := queue } ≠ .ok (false, t') s₁) :
    s'.allocated ≠ [] := by
  by_cases hA : s.allocated = []
  · cases fuel with
    | zero => simp [admit_in_order] at h
    | succ fuel =>
      obtain ⟨t, queue, hW⟩ := List.exists_cons_of_ne_nil (hne.resolve_right fun hne => hne hA)
      replace h := BlockManager.get_ok h
      rw [hW] at h
      obtain ⟨_, s₁, hmod, h⟩ := bind_ok.1 h
      obtain rfl : { s with waiting := queue } = s₁ := by simpa using hmod
      obtain ⟨⟨ok, t'⟩, s₂, halloc, h⟩ := bind_ok.1 h
      dsimp only at h
      split at h
      · obtain ⟨_, s₃, -, h⟩ := bind_ok.1 h
        obtain ⟨_, s₄, hmod₄, h⟩ := bind_ok.1 h
        simp only [modify_apply, EStateM.Result.ok.injEq, true_and] at hmod₄
        exact admit_in_order_allocated fuel h
          (by rw [← hmod₄]; exact List.append_ne_nil_of_right_ne_nil _ (List.cons_ne_nil _ _))
      · rename_i hok
        rw [Bool.eq_false_iff.2 hok] at halloc
        exact absurd halloc (hfits t queue hW hA t' s₂)
  · exact admit_in_order_allocated fuel h hA

end

/-! ### Admission -/

/-- What admission relies on in a steady round that began in `s₀`; `next` is the reordering's list of tasks that
wait for the next round. -/
structure Admitting [Hasher] (Occ : List Nat → Prop) (c : SchedulerConfig) (tok : Nat → List Nat) (s₀ : System)
    (next : List InferTask) (s : Scheduler) : Prop where
  passing : Passing (keys (s₀.scheduler.waiting ++ s₀.scheduler.allocated)) (Hosting Occ c tok s₀.scheduler
    (keys (s₀.scheduler.waiting ++ s₀.scheduler.allocated)) []) s
  stages : @Lifecycle.Holds noLeftovers gpuStages s₀.next_seq_id (tag (@Lifecycle.ready noLeftovers gpuStages) s.allocated ++
    (tag (@Lifecycle.waiting noLeftovers gpuStages) s.waiting ++ (tag (@Lifecycle.waiting noLeftovers gpuStages) next ++
      tag (@Lifecycle.waiting noLeftovers gpuStages) s₀.parked))) s.maps
  fits : ∀ t ∈ s.waiting ++ s.allocated, t.FitsAlone c
  watermark : s.watermark_blocks = c.watermark_blocks

section
variable [Hasher] {Occ : List Nat → Prop} {c : SchedulerConfig} {tok : Nat → List Nat} {s₀ : System}
  {s s' : Scheduler} {t t' : InferTask} {next back : List InferTask}

/-- With nothing allocated, all blocks of the GPU are free. -/
theorem Admitting.gpu_free (hinv : System.SysInv SameLength Occ (fun _ => True) c tok s₀)
    (h : Admitting Occ c tok s₀ next s) (hA : s.allocated = []) :
    c.num_gpu_blocks ≤ s.gpu_block_manager.block_allocator.free_block_ids.length := by
  have hgpu := (h.passing.held .Gpu).owned
  refine RefInv.free_of_unmapped hgpu.page.ref (fun i => ?_) fun r => ?_
  · by_contra hi
    refine hi (h.stages.rest i fun p hp hip => ?_).1
    have hwaiting : p.1 = @Lifecycle.waiting noLeftovers gpuStages := by
      simp only [hA, tag_nil, List.nil_append, List.mem_append] at hp
      rcases hp with hp | hp | hp
      · exact (mem_tag.1 hp).1
      · exact (mem_tag.1 hp).1
      · exact (mem_tag.1 hp).1
    obtain ⟨seq, hseq, rfl⟩ := List.mem_map.1 hip
    have hholds := h.stages.holds p hp
    rw [hwaiting] at hholds
    exact hi (hholds seq hseq).2
  · exact hgpu.regions r List.not_mem_nil ((hinv.devices .Gpu trivial).fresh r (Nat.zero_le r))

theorem Admitting.admits (hinv : System.SysInv SameLength Occ (fun _ => True) c tok s₀)
    (h : Admitting Occ c tok s₀ next s) {queue : List InferTask} (hW : s.waiting = t :: queue) (hA : s.allocated = []) :
    @try_alloc_infer_task _ steadyRounds t s.watermark_blocks .Gpu { s with waiting := queue } ≠ .ok (false, t') s' := by
  intro hrun
  have hmem : t ∈ s.waiting ++ s.allocated := List.mem_append_left _ (hW ▸ List.mem_cons_self)
  obtain ⟨seq, hseqs, -, hle⟩ := h.fits t hmem
  have hwaiting := h.stages.holds (@Lifecycle.waiting noLeftovers gpuStages, t) (List.mem_append_right _
    (List.mem_append_left _ (mem_tag.2 ⟨rfl, hW ▸ List.mem_cons_self⟩)))
  have hact : seq.is_active = true := by
    have hst := (hwaiting seq (hseqs ▸ List.mem_singleton_self seq)).1
    simp [Sequence.is_active, hst]
  have hgpu := (h.passing.held .Gpu).owned
  have hsize : s.gpu_block_manager.block_size = c.block_size :=
    hgpu.block_size.trans (hinv.devices .Gpu trivial).block_size
  have hok := @try_alloc_infer_task_fits _ steadyRounds { s with waiting := queue } s' t seq s.watermark_blocks hseqs
    hact (fun k hk => hgpu.page.ref.can_alloc_of_free (h.gpu_free hinv hA) ?_) _ hrun
  · cases hok
  · rw [h.watermark]
    exact (hk.trans_eq (by rw [show ({ s with waiting := queue } : Scheduler).gpu_block_manager = s.gpu_block_manager
      from rfl, hsize])).trans hle

theorem Admitting.round (hinv : System.SysInv SameLength Occ (fun _ => True) c tok s₀)
    (h : Admitting Occ c tok s₀ next s) {queue : List InferTask} (hW : s.waiting = t :: queue)
    (hrun : @reorder_round _ steadyRounds t { s with waiting := queue } = .ok back s') :
    Admitting Occ c tok s₀ (next ++ back) s' ∧ (s'.waiting ≠ [] ∨ s'.allocated ≠ []) := by
  have hK := hinv.keys_queues
  obtain ⟨-, hsettings, hT⟩ := @reorder_round_tally _ steadyRounds t back _ _ hrun
  have hwaiting : ∀ u ∈ t :: queue, ∀ seq ∈ u.seqs, seq.key ∈ _ := hW ▸ h.passing.waiting
  have hstart : Passing _ (Hosting Occ c tok s₀.scheduler _ []) { s with waiting := queue } :=
    ⟨h.passing.held.congr fun d => by cases d <;> rfl, fun u hu => hwaiting u (List.mem_cons_of_mem _ hu),
      h.passing.allocated⟩
  refine ⟨⟨?_, ?_, fun u hu => ?_, ?_⟩, ?_⟩
  · exact ((@reorder_round_held _ _ _ _ steadyRounds (admission_hosting hK) t (hwaiting t List.mem_cons_self)).of_ok
      hstart hrun).1
  · have hfront : @Lifecycle.Holds noLeftovers gpuStages s₀.next_seq_id ((@Lifecycle.waiting noLeftovers gpuStages, t) ::
        (tag (@Lifecycle.ready noLeftovers gpuStages) s.allocated ++ (tag (@Lifecycle.waiting noLeftovers gpuStages) queue ++
          (tag (@Lifecycle.waiting noLeftovers gpuStages) next ++
            tag (@Lifecycle.waiting noLeftovers gpuStages) s₀.parked)))) s.maps := by
      refine @Lifecycle.Holds.of_count noLeftovers _ _ _ _ _ h.stages fun z => ?_
      rw [hW]
      simp only [tag_cons, List.count_append, List.count_cons]
      omega
    have hround := @Lifecycle.Holds.reorder_round noLeftovers gpuStages _ _ _ { s with waiting := queue } s' _ back
      (@Lifecycle.Holds.congr noLeftovers _ _ _ s _ hfront fun d => by cases d <;> rfl)
      ((reorder_round_guarded steadyRounds_noLeftovers t).of_ok hrun)
    refine @Lifecycle.Holds.of_count noLeftovers _ _ _ _ _ hround fun z => ?_
    simp only [tag_append, List.count_append]
    omega
  · have hle : tally u.ident (s'.waiting ++ s'.allocated) ≤ tally u.ident ((t :: queue) ++ s.allocated) := by
      have := (hT u.ident).1
      simp only [tally_append, tally_cons]
      dsimp only at this
      omega
    obtain ⟨u', hu', hid⟩ := exists_of_tally hle hu
    exact (h.fits u' (hW ▸ hu')).of_ident hid.symm
  · simp only [settings, Prod.mk.injEq] at hsettings
    exact hsettings.2.2.2.2.trans h.watermark
  · rcases @reorder_round_leaves { s with waiting := queue } s' _ steadyRounds t back hrun with hW' | hA' | ⟨hA, u, hnot, -⟩
    · exact .inl hW'
    · exact .inr hA'
    · exact absurd hnot (h.admits hinv hW hA)

theorem Admitting.reorder_loop (hinv : System.SysInv SameLength Occ (fun _ => True) c tok s₀) (fuel : Nat) :
    ∀ {next next' : List InferTask} {s s' : Scheduler}, @Scheduler.reorder_loop _ steadyRounds fuel next s = .ok next' s' →
      Admitting Occ c tok s₀ next s → s.waiting ≠ [] ∨ s.allocated ≠ [] → s'.allocated ≠ [] := by
  induction fuel with
  | zero => intro next next' s s' h; simp [Scheduler.reorder_loop] at h
  | succ fuel ih =>
    intro next next' s s' h hs hne
    replace h := BlockManager.get_ok h
    cases hW : s.waiting with
    | nil =>
      rw [hW] at h
      obtain ⟨-, rfl⟩ : next = next' ∧ s = s' := by simpa using h
      exact hne.resolve_left fun hne => hne hW
    | cons t queue =>
      rw [hW] at h
      obtain ⟨_, s₁, hmod, h⟩ := bind_ok.1 h
      obtain rfl : { s with waiting := queue } = s₁ := by simpa using hmod
      obtain ⟨back, s₂, hround, h⟩ := bind_ok.1 h
      obtain ⟨hs₂, hne₂⟩ := hs.round hinv hW hround
      exact ih h hs₂ hne₂

theorem Admitting.admit_waiting (hinv : System.SysInv SameLength Occ (fun _ => True) c tok s₀)
    (h : Admitting Occ c tok s₀ [] s) (hne : s.waiting ≠ [] ∨ s.allocated ≠ [])
    (hrun : @Scheduler.admit_waiting _ steadyRounds s = .ok .unit s') : s'.allocated ≠ [] := by
  replace hrun := BlockManager.get_ok hrun
  split at hrun
  · replace hrun := BlockManager.get_ok hrun
    obtain ⟨r, s₁, hloop, hrun⟩ := bind_ok.1 hrun
    obtain rfl : { s₁ with waiting := r } = s' := by simpa using hrun
    show s₁.allocated ≠ []
    exact Admitting.reorder_loop hinv _ hloop h hne
  · exact @admit_in_order_fills _ steadyRounds s s' _ hrun hne fun t queue hW hA t' s₁ => h.admits hinv hW hA

end

/-! ### Dispatch -/

section
variable {σ s s' : Scheduler} {seq : Sequence} {rest : List Sequence} {acc batch : Batch}

theorem dispatch_loop_inputs (seqs : List Sequence) : ∀ {acc : Batch} {s s' : Scheduler},
    dispatch_loop seqs acc s = .ok batch s' → acc.infer_inputs <+: batch.infer_inputs := by
  induction seqs with
  | nil =>
    intro acc s s' h
    obtain ⟨rfl, -⟩ : acc = batch ∧ s = s' := by simpa [dispatch_loop] using h
    exact List.prefix_refl _
  | cons seq seqs ih =>
    intro acc s s' h
    replace h := BlockManager.get_ok h
    split at h
    · obtain ⟨rfl, -⟩ : acc = batch ∧ s = s' := by simpa using h
      exact List.prefix_refl _
    · obtain ⟨fetch, s₁, -, h⟩ := bind_ok.1 h
      obtain ⟨acc', s₂, hinput, h⟩ := bind_ok.1 h
      refine List.IsPrefix.trans ?_ (ih h)
      rcases dispatch_input_ok hinput with ⟨rfl, -, -⟩ | ⟨ids, k, s₃, wt, -, -, -, -, rfl⟩
      · exact List.prefix_refl _
      · exact List.prefix_append _ _

theorem get_block_ids_range_ne_none {m : BlockManager} {i stop : Nat} {b : BlockMap} (hb : m.get_block_map i = some b)
    (hne : b.block_ids ≠ []) : m.get_block_ids_range i 0 stop true ≠ none := by
  have hlen : ¬ 0 / m.block_size ≥ b.block_ids.length := by
    rw [Nat.zero_div]
    exact Nat.not_le.2 (List.length_pos_iff.2 hne)
  have hstop : ¬ 0 / m.block_size ≥ stop / m.block_size + true.toNat := by
    rw [Nat.zero_div]
    exact Nat.not_le.2 (Nat.succ_pos _)
  unfold get_block_ids_range
  dsimp only
  rw [if_neg hstop, hb]
  dsimp only
  rw [if_neg hlen]
  exact Option.some_ne_none _

theorem dispatch_first (hsize : 0 < σ.max_batch_size) (hbudget : 0 < σ.max_num_batched_tokens)
    (hcand : σ.candidates = seq :: rest) (htokens : seq.token_ids ≠ []) {b : BlockMap}
    (hb : σ.maps seq.seq_id .Gpu = some b) (hne : b.block_ids ≠ []) (hrun : dispatch σ = .ok batch s') :
    ∃ x ∈ batch.infer_inputs, x.seq_id = seq.seq_id := by
  replace hrun := BlockManager.get_ok hrun
  rw [← candidates, hcand] at hrun
  replace hrun := BlockManager.get_ok hrun
  split at hrun
  · rename_i hstop
    rcases hstop with hfull | hzero
    · exact absurd hsize (Nat.not_lt.2 hfull)
    · exact absurd hbudget (by rw [show σ.max_num_batched_tokens = 0 from hzero]; exact Nat.lt_irrefl 0)
  · obtain ⟨fetch, s₁, hfetch, hrun⟩ := bind_ok.1 hrun
    obtain ⟨acc', s₂, hinput, hrun⟩ := bind_ok.1 hrun
    have hprefix := dispatch_loop_inputs _ hrun
    obtain ⟨filled, hb₁, -⟩ := ((plan_copy_refilled σ.maps seq _ _ _ _).of_ok (fun _ => Refilled.refl _)
      hfetch seq.seq_id).some hb
    rcases dispatch_input_ok hinput with ⟨-, -, hzero | hnone⟩ | ⟨ids, k, s₃, wt, -, -, -, -, rfl⟩
    · have hpos := List.length_pos_iff.2 htokens
      unfold chunk_len chunk_start at hzero
      dsimp only at hzero
      omega
    · exact absurd hnone (get_block_ids_range_ne_none hb₁ hne)
    · exact ⟨_, hprefix.subset (List.mem_append_right _ List.mem_cons_self), rfl⟩

theorem dispatch_ne_nil (hsize : 0 < σ.max_batch_size) (hbudget : 0 < σ.max_num_batched_tokens)
    (hcand : σ.candidates = seq :: rest) (htokens : seq.token_ids ≠ []) {b : BlockMap}
    (hb : σ.maps seq.seq_id .Gpu = some b) (hne : b.block_ids ≠ []) (hrun : dispatch σ = .ok batch s') :
    batch.infer_inputs ≠ [] := by
  obtain ⟨x, hx, -⟩ := dispatch_first hsize hbudget hcand htokens hb hne hrun
  exact List.ne_nil_of_mem hx

end

end Scheduler

/-- The next round returns no input, and leaves two tasks, which have blocks on the GPU, waiting and none allocated. -/
def Scheduler.stalls [Hasher] (s : Scheduler) : Bool :=
  match schedule s with
  | .ok batch σ => batch.infer_inputs.isEmpty && (σ.allocated.isEmpty && (σ.waiting.map (·.ids) = [[0], [1]] &&
      σ.waiting.all fun t => t.seqs.all fun seq => (σ.gpu_block_manager.get_block_map seq.seq_id).isSome))
  | .error _ _ => false

/-! ### Runs -/

namespace System

section
variable [Hasher] {Occ : List Nat → Prop} {c : SchedulerConfig} {ops : List Op} {s : System} {σ : Scheduler}

theorem unmapped_of_steady (h : SteadyRun Occ c ops s) {t : InferTask} (ht : t ∈ s.scheduler.waiting) {seq : Sequence}
    (hseq : seq ∈ t.seqs) : s.scheduler.gpu_block_manager.get_block_map seq.seq_id = none :=
  ((inv_of_steady steadyRounds_noLeftovers gpuStages h).holds (@Lifecycle.waiting noLeftovers gpuStages, t)
    (List.mem_append_right _ (List.mem_append_left _ (mem_tag.2 ⟨rfl, ht⟩))) seq hseq).2

theorem phases_fill (hz : ∀ P, Occ P → compute_hash P ≠ 0) (h : SteadyRun Occ c ops s) (hfinished : s.finished = [])
    (hne : s.scheduler.waiting ++ s.scheduler.allocated ≠ [])
    (hfits : ∀ t ∈ s.scheduler.waiting ++ s.scheduler.allocated, t.FitsAlone c)
    (hrun : @Scheduler.phases _ steadyRounds s.scheduler = .ok .unit σ) : σ.allocated ≠ [] := by
  obtain ⟨tok, hinv⟩ := sysInv_of_steady hz h
  obtain ⟨_, s₁, hext, hadm⟩ := bind_ok.1 hrun
  obtain ⟨-, hsettings, hT⟩ := @Scheduler.extend_tasks_tally _ steadyRounds _ _ hext
  have hle : ∀ a, tally a (s₁.waiting ++ s₁.allocated) = tally a (s.scheduler.waiting ++ s.scheduler.allocated) :=
    fun a => by rw [tally_append, tally_append]; exact hT a
  have hadmitting : Scheduler.Admitting Occ c tok s [] s₁ := by
    refine ⟨Scheduler.extend_tasks_passing hinv.keys_queues (extensible_of_steady hinv h fun t ht => (hfits t ht).lone)
      (fun t ht seq hseq => key_mem_keys (List.mem_append_left _ ht) hseq) hext, ?_, fun t ht => ?_, ?_⟩
    · have hstages := @Lifecycle.Holds.extend_tasks noLeftovers gpuStages _ _ s.scheduler s₁ _
        (inv_of_steady steadyRounds_noLeftovers gpuStages h)
        ((Scheduler.extend_tasks_guarded steadyRounds_noLeftovers).of_ok hext)
      rw [hfinished, tag_nil, List.append_nil] at hstages
      exact hstages
    · obtain ⟨u, hu, hid⟩ := exists_of_tally (Nat.le_of_eq (hle t.ident)) ht
      exact (hfits u hu).of_ident hid.symm
    · have hnew := settings_of_run (h.mono fun _ _ _ hs => hs.1.1)
      simp only [settings, Scheduler.settings, new, Scheduler.new, Prod.mk.injEq] at hnew hsettings
      exact hsettings.2.2.2.2.trans hnew.2.2.2.2
  refine hadmitting.admit_waiting hinv ?_ hadm
  simpa only [ne_eq, List.append_eq_nil_iff, not_and_or] using ne_nil_of_tally hle hne

/-- The first allocated task is dispatched first, and its sequence has blocks. -/
theorem first_candidate_of_steady (hz : ∀ P, Occ P → compute_hash P ≠ 0) (h : SteadyRun Occ c ops s)
    (hc : Op.schedule.careful steadyRounds s = true) (hrun : Scheduler.phases s.scheduler = .ok .unit σ)
    {t : InferTask} {queue : List InferTask} (hA : σ.allocated = t :: queue) (hfits : t.FitsAlone c) :
    ∃ seq rest b, t.seqs = [seq] ∧ σ.candidates = seq :: rest ∧ seq.token_ids ≠ [] ∧ σ.maps seq.seq_id .Gpu = some b ∧
      b.block_ids ≠ [] := by
  obtain ⟨tok, hinv⟩ := sysInv_of_steady hz h
  obtain ⟨seq, hseqs, hne, -⟩ := hfits
  have ht : t ∈ σ.allocated := hA ▸ List.mem_cons_self
  have hseq : seq ∈ t.seqs := hseqs ▸ List.mem_singleton_self seq
  have hheld := (phases_of_steady steadyRounds_evenPasses heldStages h hc hrun).holds
    (@Lifecycle.ready evenPasses heldStages, t) (List.mem_append_left _ (mem_tag.2 ⟨rfl, ht⟩))
  have hact : seq.is_active = true := by
    by_contra hnot
    refine hheld.1 (List.filter_eq_nil_iff.2 fun x hx => ?_)
    rw [hseqs, List.mem_singleton] at hx
    exact hx ▸ hnot
  obtain ⟨hst, -, b, hb, hslots⟩ := dispatchable_of_steady h hc hrun ht hseq hact
  have hcand : σ.candidates = seq :: queue.flatMap (·.get_seqs .Allocated) := by
    simp [Scheduler.candidates, hA, InferTask.get_seqs, hseqs, hst]
  refine ⟨seq, _, b, hseqs, hcand, hne, hb, fun hnil => ?_⟩
  have hgpu := (hinv.phases_sound (TokenRel.lengths _) hrun).devices .Gpu trivial
  have hlen := (hgpu.page.maps seq.seq_id b (by simp) hb).len
  rw [hnil, hslots, List.length_nil] at hlen
  have hpos : 0 < div_ceil seq.token_ids.length σ.gpu_block_manager.block_size :=
    (lt_div_ceil_iff (BlockManager.block_size_pos _)).2 (by
      rw [Nat.zero_mul]
      exact List.length_pos_iff.2 hne)
  exact absurd hlen (Nat.ne_of_lt hpos)

theorem candidate_of_steady (hz : ∀ P, Occ P → compute_hash P ≠ 0) (h : SteadyRun Occ c ops s)
    (hc : Op.schedule.careful steadyRounds s = true) (hrun : Scheduler.phases s.scheduler = .ok .unit σ)
    {t : InferTask} {queue : List InferTask} (hA : σ.allocated = t :: queue) (hfits : t.FitsAlone c) :
    ∃ seq rest b, σ.candidates = seq :: rest ∧ seq.token_ids ≠ [] ∧ σ.maps seq.seq_id .Gpu = some b ∧
      b.block_ids ≠ [] := by
  obtain ⟨seq, rest, b, -, hfirst⟩ := first_candidate_of_steady hz h hc hrun hA hfits
  exact ⟨seq, rest, b, hfirst⟩

/-- In every run of steady rounds no waiting task has blocks on the GPU, and if every task has one sequence, which
fits on its own, the next steady round returns an input. -/
theorem run_progress (hz : ∀ P, Occ P → compute_hash P ≠ 0) (h : SteadyRun Occ c ops s)
    (hc : Op.schedule.careful steadyRounds s = true) (hfinished : s.finished = []) (hsize : 0 < c.max_batch_size)
    (hbudget : 0 < c.max_num_batched_tokens) (hne : s.scheduler.waiting ++ s.scheduler.allocated ≠ [])
    (hfits : ∀ t ∈ s.scheduler.waiting ++ s.scheduler.allocated, t.FitsAlone c) :
    (∀ t ∈ s.scheduler.waiting, ∀ seq ∈ t.seqs, s.scheduler.gpu_block_manager.get_block_map seq.seq_id = none) ∧
    ∃ batch σ, Scheduler.schedule s.scheduler = .ok batch σ ∧ batch.infer_inputs ≠ [] := by
  refine ⟨fun t ht seq hseq => unmapped_of_steady h ht hseq, ?_⟩
  obtain ⟨σ, hwatched⟩ := phases_return hz h (fun t ht => (hfits t ht).lone) hc
  have hphases : Scheduler.phases s.scheduler = .ok .unit σ :=
    (Scheduler.phases_guarded (Watch.stricter_nothing _)).of_ok hwatched
  obtain ⟨batch, σ', hdispatch⟩ := dispatch_return h hc hphases
  have hschedule : Scheduler.schedule s.scheduler = .ok batch { σ' with running_batch := batch.running_batch } := by
    rw [Scheduler.schedule_eq, bind_apply, hphases]
    show (Scheduler.dispatch >>= _) σ = _
    rw [bind_apply, hdispatch]
    rfl
  obtain ⟨-, hsettings, hT⟩ := Scheduler.schedule_tally hschedule
  obtain ⟨-, hA', -, hS'⟩ := Scheduler.control_eq (Scheduler.dispatch_keeps.of_ok hdispatch)
  obtain ⟨t, queue, hA⟩ := List.exists_cons_of_ne_nil (phases_fill hz h hfinished hne hfits hwatched)
  have hfit : t.FitsAlone c := by
    have hle := (hT t.ident).1
    rw [← tally_append, ← tally_append] at hle
    obtain ⟨u, hu, hid⟩ := exists_of_tally hle (List.mem_append_right _ (hA'.trans hA ▸ List.mem_cons_self))
    exact (hfits u hu).of_ident hid.symm
  obtain ⟨seq, rest, b, hcand, htokens, hb, hblocks⟩ := candidate_of_steady hz h hc hphases hA hfit
  have hnew := settings_of_run (h.mono fun _ _ _ hs => hs.1.1)
  have hset : σ.settings = s.settings := hS'.symm.trans hsettings
  simp only [settings, Scheduler.settings, new, Scheduler.new, Prod.mk.injEq] at hnew hset
  exact ⟨batch, _, hschedule, Scheduler.dispatch_ne_nil (by rw [hset.1, hnew.1]; exact hsize)
    (by rw [hset.2.2.1, hnew.2.2.1]; exact hbudget) hcand htokens hb hblocks hdispatch⟩

end

/-- Sequences of three tokens that fit on their own: the next round preempts the second task for the first. -/
theorem run_progress_contended :
    let _ := decimalHasher
    ∃ s, SteadyRun AnyPrefix (smallConfig 4) (contended 1 [(0, 7), (1, 8)] [(0, 7), (1, 8)]).dropLast s ∧
      ∃ batch σ, Scheduler.schedule s.scheduler = .ok batch σ ∧ batch.infer_inputs ≠ [] := by
  let _ := decimalHasher
  have hfollow : (Run.follow (fun s op => if op.careful steadyRounds s then Op.next s op else none)
      (System.new (smallConfig 4)) (contended 1 [(0, 7), (1, 8)] [(0, 7), (1, 8)]).dropLast).any
      (fun s => Op.schedule.careful steadyRounds s && (s.finished.isEmpty &&
        (!(s.scheduler.waiting ++ s.scheduler.allocated).isEmpty &&
          decide (∀ t ∈ s.scheduler.waiting ++ s.scheduler.allocated, t.FitsAlone (smallConfig 4))))) = true := by
    decide +kernel
  obtain ⟨s, hrun, hs⟩ := Run.exists_of_follow (fun _ _ _ => Op.step_of_careful_next steadyRounds) hfollow
  simp only [Bool.and_eq_true, List.isEmpty_iff, decide_eq_true_eq, Bool.not_eq_true', List.isEmpty_eq_false_iff] at hs
  have hsteady : SteadyRun AnyPrefix (smallConfig 4) _ s :=
    hrun.mono fun _ _ _ hstep => ⟨hstep, fun _ _ _ _ _ => trivial⟩
  exact ⟨s, hsteady, (run_progress (fun P _ => decimalHasher_ne_zero P) hsteady hs.1 hs.2.1 (by decide) (by decide) hs.2.2.1
    hs.2.2.2).2⟩

/-- Four blocks on the GPU. -/
def stallConfig : SchedulerConfig := ⟨8, 64, 16, 1, Nat.one_pos, 4, 16, 0, false, Scheduler.defaultWatermark⟩

/-- Prompts of one token and of two, and a token for each; in the second round there is no block for the second task,
which is the last in the queue. -/
def growingPair : List Op :=
  [prompt 1 1, .add_request ⟨2, [2, 3], 1, none, false, false⟩ 2, .schedule, results [(0, 7), (1, 8)] 0, .schedule,
    results [(0, 7)] 1]

/-- Then each task needs three blocks, which are to be had, and has two: the next round puts back the first task as
well, admits none and returns no input. -/
theorem run_stalls :
    let _ := decimalHasher
    ∃ s batch σ, Run Op.Step (System.new stallConfig) growingPair s ∧ s.finished = [] ∧
      s.scheduler.waiting ++ s.scheduler.allocated ≠ [] ∧
      (∀ t ∈ s.scheduler.waiting ++ s.scheduler.allocated, t.FitsAlone stallConfig) ∧
      Scheduler.schedule s.scheduler = .ok batch σ ∧ batch.infer_inputs = [] ∧ σ.allocated = [] ∧
      σ.waiting.map (·.ids) = [[0], [1]] ∧
      ∀ t ∈ σ.waiting, ∀ seq ∈ t.seqs, σ.gpu_block_manager.get_block_map seq.seq_id ≠ none := by
  let _ := decimalHasher
  have hfollow : (Run.follow Op.next (System.new stallConfig) growingPair).any (fun s => s.finished.isEmpty &&
      (!(s.scheduler.waiting ++ s.scheduler.allocated).isEmpty &&
      (decide (∀ t ∈ s.scheduler.waiting ++ s.scheduler.allocated, t.FitsAlone stallConfig) &&
        s.scheduler.stalls))) = true := by
    decide +kernel
  obtain ⟨s, hrun, hs⟩ := Run.exists_of_follow (fun _ _ _ => Op.step_of_next) hfollow
  simp only [Bool.and_eq_true, List.isEmpty_iff, decide_eq_true_eq, Bool.not_eq_true', List.isEmpty_eq_false_iff] at hs
  obtain ⟨hfinished, hne, hfits, hstalls⟩ := hs
  unfold Scheduler.stalls at hstalls
  cases hschedule : Scheduler.schedule s.scheduler with
  | error e σ => rw [hschedule] at hstalls; cases hstalls
  | ok batch σ =>
    rw [hschedule] at hstalls
    simp only [Bool.and_eq_true, List.isEmpty_iff, decide_eq_true_eq, List.all_eq_true, Option.isSome_iff_ne_none] at hstalls
    obtain ⟨hinputs, hA, hW, hmaps⟩ := hstalls
    exact ⟨s, batch, σ, hrun, hfinished, hne, hfits, hschedule, hinputs, hA, hW, hmaps⟩

end System

end LMServe
