import LMServe.Devices

/-!
# The admission check against the allocation that follows it

`get_num_required_blocks` counts the blocks a sequence needs beyond those it has, or beyond those of
its prefix that are cached; when they fit below the watermark, the scheduler allocates. Whether the
allocation runs out of blocks is decided here exactly, in every state a manager can get into. With a
block map it never does, unless the map is of a block that was found under the hash `0` and is not full.
Without one, the check overlooks that cached blocks lying in the free list are taken from it as well, and on
the extension path it subtracts cached blocks that `alloc_blocks` alone does not reuse.
-/

namespace LMServe
open Hoare Chunk

namespace BlockManager

/-! ### Short sequences -/

section
variable [Hasher] {s : BlockManager}

theorem alloc_blocks_short {seq : Sequence} {s' : BlockManager}
    (hlt : seq.token_ids.length < s.get_num_allocated_slots seq.seq_id) :
    alloc_blocks seq s ≠ .error .allBlocksInUse s' := by
  have hrun : alloc_blocks seq s = _ := bind_apply get _ s
  simp only [get_apply, bind_apply, checked_sub, Nat.not_le.2 hlt, ↓reduceIte, throw_apply] at hrun
  rw [hrun]
  simp

end

/-! ### The two checks -/

section
variable [Hasher]

/-- The check of `try_alloc_infer_task`. -/
def admission_check (m : BlockManager) (seq : Sequence) (watermark : Watermark) : Bool :=
  match get_num_required_blocks seq m with
  | .ok num_required_blocks m' => m'.can_alloc_blocks num_required_blocks watermark
  | .error _ _ => false

/-- The check of `try_extend_infer_task`. -/
def extension_check (m : BlockManager) (seq : Sequence) (watermark : Watermark) : Bool :=
  match can_alloc_seq seq watermark m with
  | .ok ok _ => ok
  | .error _ _ => false

/-- What `try_alloc_infer_task` runs after its check. -/
def admit_seq (seq : Sequence) : BM Nat := do
  let _ ← init_prefix_cache_blocks seq
  alloc_blocks seq

/-- The sequence has a map, or the free list holds the blocks it needs besides its cached ones after
those among the cached ones that lie in it are taken. -/
def backed (m : BlockManager) (seq : Sequence) : Bool :=
  (m.get_block_map seq.seq_id).isSome ||
    decide (div_ceil seq.token_ids.length m.block_size - (m.get_prefix_cache_blocks seq.token_ids).length ≤
      (m.block_allocator.free_block_ids.diff (m.get_prefix_cache_blocks seq.token_ids)).length)

/-- The sequence has a map, or the free list holds all its blocks. -/
def backed_extension (m : BlockManager) (seq : Sequence) : Bool :=
  (m.get_block_map seq.seq_id).isSome ||
    decide (div_ceil seq.token_ids.length m.block_size ≤ m.block_allocator.free_block_ids.length)

/-- The free list holds the blocks the sequence lacks once the last block of its map is filled up. -/
def room_to_extend (m : BlockManager) (seq : Sequence) : Bool :=
  decide (m.num_missing_blocks ((m.get_block_map seq.seq_id).getD .empty) seq.token_ids.length ≤
    m.block_allocator.free_block_ids.length)

/-- The same after the cached blocks of its prefix are attached, for a sequence without a map. -/
def room_for_seq (m : BlockManager) (seq : Sequence) : Bool :=
  match m.get_block_map seq.seq_id with
  | some _ => m.room_to_extend seq
  | none =>
    let block_ids := m.get_prefix_cache_blocks seq.token_ids
    let reused_token_len := block_ids.length * m.block_size
    decide (m.num_missing_blocks ⟨block_ids, reused_token_len, reused_token_len⟩ seq.token_ids.length ≤
      (m.block_allocator.free_block_ids.diff block_ids).length)

variable {Occ : List Nat → Prop} {tok : Nat → List Nat} {n : Nat} {m : BlockManager} {seq : Sequence}
  {w : Watermark}

theorem PageInv.any_prefix (h : m.PageInv SameLength Occ tok n none []) :
    m.PageInv SameLength AnyPrefix tok n none [] :=
  { h with
    tagged := fun b hb ht => by
      obtain ⟨P, -, hP⟩ := h.tagged b hb ht
      exact ⟨P, trivial, hP⟩ }

omit [Hasher] in
theorem RefInv.free_le (h : m.RefInv n []) : m.block_allocator.free_block_ids.length ≤ n := by
  have hsub : m.block_allocator.free_block_ids ⊆ List.range n := fun b hb => by
    rw [List.mem_range, ← h.total]; exact ((h.count.mem_free b).1 hb).1
  have := (List.subperm_of_subset h.count.free_nodup hsub).length_le
  rwa [List.length_range] at this

omit [Hasher] in
/-- What fits below the watermark is in the free list. -/
theorem le_free_of_can_alloc (h : m.RefInv n []) {k : Nat} (hk : m.can_alloc_blocks k w = true) :
    k ≤ m.block_allocator.free_block_ids.length := by
  have hlimit := w.limit_le m.block_allocator.num_total_blocks
  have hfree := h.free_le
  simp only [can_alloc_blocks, BlockAllocator.can_alloc_blocks, decide_eq_true_eq] at hk
  rw [h.total] at hk hlimit
  omega

theorem admission_check_eq (hc : m.admission_check seq w = true) :
    ∃ k, get_num_required_blocks seq m = .ok k m ∧ m.can_alloc_blocks k w = true := by
  unfold admission_check at hc
  cases hk : get_num_required_blocks seq m with
  | error e m' => rw [hk] at hc; cases hc
  | ok k m' =>
    rw [hk] at hc
    obtain ⟨rfl, -⟩ := get_num_required_blocks_ok hk
    exact ⟨k, rfl, hc⟩

theorem extension_check_eq_admission_check : m.extension_check seq w = m.admission_check seq w := by
  unfold extension_check admission_check can_alloc_seq
  rw [bind_apply]
  cases get_num_required_blocks seq m with
  | error e m' => rfl
  | ok k m' => rfl

omit [Hasher] in
/-- What a sequence lacks depends on what the blocks hold, not on who refers to them. -/
theorem num_missing_blocks_congr {m' : BlockManager} (hbs : m'.block_size = m.block_size)
    (htokens : ∀ b, (m'.get_block b).token_ids = (m.get_block b).token_ids) (map : BlockMap) (total : Nat) :
    m'.num_missing_blocks map total = m.num_missing_blocks map total := by
  simp only [num_missing_blocks, Block.get_num_empty_slots, hbs, htokens]

theorem alloc_blocks_safe_iff (h : m.RefInv n []) (seq : Sequence) :
    (∀ m', alloc_blocks seq m ≠ .error .allBlocksInUse m') ↔ m.room_to_extend seq = true := by
  rw [room_to_extend, decide_eq_true_eq, ← Nat.not_lt, ← alloc_blocks_runs_out_iff h seq rfl]
  exact not_exists.symm

theorem admit_seq_safe_iff (h : m.RefInv n []) (seq : Sequence) :
    (∀ m', admit_seq seq m ≠ .error .allBlocksInUse m') ↔ m.room_for_seq seq = true := by
  cases hb : m.get_block_map seq.seq_id with
  | some b =>
    have hinit : init_prefix_cache_blocks seq m = .ok 0 m := by
      have hrun : init_prefix_cache_blocks seq m = _ := bind_apply get _ m
      simpa only [get_apply, hb, pure_apply] using hrun
    simp only [room_for_seq, hb, ← alloc_blocks_safe_iff h, admit_seq, bind_apply, hinit]
  | none =>
    obtain ⟨r, m₁, hinit, h₁, hatt⟩ := init_prefix_cache_blocks_attaches h hb
    have hmissing := num_missing_blocks_congr hatt.block_size (fun b => (hatt.content b).1)
      ⟨m.get_prefix_cache_blocks seq.token_ids, (m.get_prefix_cache_blocks seq.token_ids).length * m.block_size,
        (m.get_prefix_cache_blocks seq.token_ids).length * m.block_size⟩ seq.token_ids.length
    have hmap : m₁.get_block_map seq.seq_id = some ⟨m.get_prefix_cache_blocks seq.token_ids, _, _⟩ := hatt.map
    simp only [BlockMap.empty, Nat.zero_add] at hmap
    simp only [room_for_seq, hb, admit_seq, bind_apply, hinit]
    rw [alloc_blocks_safe_iff h₁, room_to_extend, hmap, hatt.free, Option.getD_some, hmissing]

variable (h : m.PageInv SameLength Occ tok n none [])
include h

/-- With a map the blocks counted by the check are the ones allocated. -/
theorem alloc_blocks_safe_of_map {b : BlockMap} (hb : m.get_block_map seq.seq_id = some b)
    (hc : m.admission_check seq w = true) {m' : BlockManager} :
    alloc_blocks seq m ≠ .error .allBlocksInUse m' := by
  intro hrun
  obtain ⟨k, hk, hcan⟩ := admission_check_eq hc
  obtain ⟨-, hk⟩ := get_num_required_blocks_ok hk
  rw [hb] at hk
  have hfree := le_free_of_can_alloc h.ref hcan
  rcases Nat.lt_or_ge seq.token_ids.length b.num_allocated_slots with hlt | hle
  · exact alloc_blocks_short (by simpa only [get_num_allocated_slots, hb] using hlt) hrun
  · have := (alloc_blocks_of_free (TokenRel.lengths Occ) h seq (m := b) (by rw [hb]; rfl) hle).1 ⟨m', hrun⟩
    dsimp only at hk
    omega

variable (seq w) in
/-- On the extension path the condition is exact. -/
theorem extension_safe_iff :
    (m.extension_check seq w = true → ∀ m', alloc_blocks seq m ≠ .error .allBlocksInUse m') ↔
      (m.extension_check seq w = true → m.backed_extension seq = true) := by
  refine imp_congr_right fun hc => ?_
  rw [extension_check_eq_admission_check] at hc
  cases hb : m.get_block_map seq.seq_id with
  | some b =>
    simp only [backed_extension, hb, Option.isSome_some, Bool.true_or, iff_true]
    exact fun m' => alloc_blocks_safe_of_map h hb hc
  | none =>
    have hiff := alloc_blocks_of_free (TokenRel.lengths Occ) h seq (m := .empty)
      (by rw [hb]; rfl) (Nat.zero_le _)
    simp only [BlockMap.empty, List.length_nil, Nat.sub_zero] at hiff
    simp only [backed_extension, hb, Option.isSome_none, Bool.false_or, decide_eq_true_eq]
    rw [← Nat.not_lt, ← hiff]
    exact not_exists.symm

variable (seq w) in
theorem admission_safe_iff :
    (m.admission_check seq w = true → ∀ m', admit_seq seq m ≠ .error .allBlocksInUse m') ↔
      (m.admission_check seq w = true → m.backed seq = true) := by
  refine imp_congr_right fun hc => ?_
  cases hb : m.get_block_map seq.seq_id with
  | some b =>
    have hinit : init_prefix_cache_blocks seq m = .ok 0 m := by
      have hrun : init_prefix_cache_blocks seq m = _ := bind_apply get _ m
      simpa only [get_apply, hb, pure_apply] using hrun
    simp only [backed, hb, Option.isSome_some, Bool.true_or, iff_true]
    intro m' hm'
    unfold admit_seq at hm'
    rw [bind_apply, hinit] at hm'
    exact alloc_blocks_safe_of_map h hb hc hm'
  | none =>
    -- the sequence may be any: let the page tables expect its tokens
    have hpage : m.PageInv SameLength AnyPrefix
        (fun i => if i = seq.seq_id then seq.token_ids else tok i) n none [] := by
      refine h.any_prefix.retok fun i b hi => ?_
      rw [if_neg fun hii => by rw [hii, hb] at hi; cases hi]
    obtain ⟨r, m₁, hinit, h₁, ⟨_, hsome, -⟩ | ⟨-, hatt⟩⟩ := init_prefix_cache_blocks_pageInv
      (TokenRel.lengths _) hpage (show _ = seq.token_ids from if_pos rfl) fun _ => trivial
    · rw [hb] at hsome; cases hsome
    · have hslots := (h₁.maps _ _ (by simp) hatt.map).slots_le
      simp only [↓reduceIte] at hslots
      have hiff := alloc_blocks_of_free (TokenRel.lengths _) h₁ seq
        (m := ⟨m.get_prefix_cache_blocks seq.token_ids, _, _⟩) (by rw [hatt.map]; rfl) hslots
      simp only [hatt.free, hatt.block_size] at hiff
      simp only [backed, hb, Option.isSome_none, Bool.false_or, decide_eq_true_eq]
      rw [← Nat.not_lt, ← hiff]
      have hrun : ∀ m', admit_seq seq m = .error .allBlocksInUse m' ↔
          alloc_blocks seq m₁ = .error .allBlocksInUse m' := fun m' => by
        unfold admit_seq
        rw [bind_apply, hinit]
      simp only [ne_eq, hrun, not_exists]

end

end BlockManager

/-! ### Reachable states -/

namespace System
open BlockManager

theorem refInv_of_touched [Hasher] [Watch] {c : SchedulerConfig} {ops : List Op} {s : System}
    (h : Run Op.Step (System.new c) ops s) {d : Device} {K : List (Nat × List Nat)} {m : BlockManager}
    (hm : Touched K (s.scheduler.get_block_manager d) m) : m.RefInv (c.num_blocks d) [] := by
  obtain ⟨bm_ops, hreached⟩ := manager_reached h d
  obtain ⟨more, hmore⟩ := hm
  exact hmore.invariant (BmOp.run_refInv hreached) fun _ op _ hinv hs => (BmOp.exec_refInv op).of_ok ⟨hinv, hs.2.1⟩ hs.2.2

/-- In every state of a run, and at every point of a scheduling round from there, on every device, for every sequence
and every watermark: the allocation that follows a passed check cannot run out of blocks exactly when there is room for
it. On the GPU, and on the others where no prefix that occurs has the hash `0`, there is room exactly if the sequence
has a map or what it needs is in the free list. -/
theorem allocation_safe_iff [Hasher] {c : SchedulerConfig} {Occ : List Nat → Prop} {ops : List Op} {s : System}
    (h : OccRun Occ c ops s) (d : Device) {m : BlockManager}
    (hm : Touched (keys (s.scheduler.waiting ++ s.scheduler.allocated)) (s.scheduler.get_block_manager d) m)
    (seq : Sequence) (w : Watermark) :
    ((m.admission_check seq w = true → ∀ m', admit_seq seq m ≠ .error .allBlocksInUse m') ↔
      (m.admission_check seq w = true → m.room_for_seq seq = true)) ∧
    ((m.extension_check seq w = true → ∀ m', alloc_blocks seq m ≠ .error .allBlocksInUse m') ↔
      (m.extension_check seq w = true → m.room_to_extend seq = true)) ∧
    ((d ≠ .Gpu → ∀ P, Occ P → compute_hash P ≠ 0) →
      (m.admission_check seq w = true → (m.room_for_seq seq = true ↔ m.backed seq = true)) ∧
      (m.extension_check seq w = true → (m.room_to_extend seq = true ↔ m.backed_extension seq = true))) := by
  have href := refInv_of_touched (h.mono fun _ _ _ hs => hs.1) hm
  refine ⟨imp_congr_right fun _ => admit_seq_safe_iff href seq, imp_congr_right fun _ => alloc_blocks_safe_iff href seq,
    fun hz => ?_⟩
  obtain ⟨tok, hinv⟩ := SysInv.run (D := (· = d)) (TokenRel.lengths Occ) (fun d' hd hne => hz (hd ▸ hne)) h
  have hpage := (hm.owned (TokenRel.lengths Occ) hinv.keys_queues (hinv.devices d rfl).page).page
  constructor
  · intro hc
    rw [← admit_seq_safe_iff href seq]
    simpa only [hc, forall_const] using admission_safe_iff seq w hpage
  · intro hc
    rw [← alloc_blocks_safe_iff href seq]
    simpa only [hc, forall_const] using extension_safe_iff seq w hpage

/-- Eight GPU blocks of one token. A first request leaves three cached blocks in the free list, a
second one keeps three others. -/
def cachedConfig : SchedulerConfig := ⟨4, 64, 16, 1, Nat.one_pos, 8, 0, 0, false, Scheduler.defaultWatermark⟩

def cachedRun : List Op :=
  [.add_request ⟨0, [1, 2, 3], 1, some 1, false, false⟩ 0, .schedule,
    .update ((∅ : Table InferOutput).insert 0 ⟨4, 1, "", false⟩) 1, .remove_task 0,
    .add_request ⟨1, [7, 8, 9], 1, none, false, false⟩ 1, .schedule]

/-- A sequence whose first three tokens are cached. -/
def cachedSequence (rest : List Nat) : Sequence := .new 2 2 ([1, 2, 3] ++ rest) none false false

/-- Two more tokens: both checks pass and both allocations are backed. -/
theorem allocation_safe_cached :
    let _ := decimalHasher
    ∃ s, Reachable cachedConfig s ∧
      (s.scheduler.gpu_block_manager.admission_check (cachedSequence [4, 5]) .full = true ∧
        ∀ m', admit_seq (cachedSequence [4, 5]) s.scheduler.gpu_block_manager ≠ .error .allBlocksInUse m') ∧
      (s.scheduler.gpu_block_manager.extension_check (cachedSequence [4, 5]) .full = true ∧
        ∀ m', alloc_blocks (cachedSequence [4, 5]) s.scheduler.gpu_block_manager ≠
          .error .allBlocksInUse m') := by
  let _ := decimalHasher
  have hfollow : (Run.follow Op.next (System.new cachedConfig) cachedRun).any (fun s =>
      s.scheduler.gpu_block_manager.admission_check (cachedSequence [4, 5]) .full &&
      s.scheduler.gpu_block_manager.backed (cachedSequence [4, 5]) &&
      s.scheduler.gpu_block_manager.extension_check (cachedSequence [4, 5]) .full &&
      s.scheduler.gpu_block_manager.backed_extension (cachedSequence [4, 5])) = true := by
    decide +kernel
  obtain ⟨s, hrun, hs⟩ := Run.exists_of_follow (fun _ _ _ => Op.step_of_next) hfollow
  simp only [Bool.and_eq_true] at hs
  obtain ⟨⟨⟨hadm, hback⟩, hext⟩, hback'⟩ := hs
  have hocc : OccRun AnyPrefix cachedConfig cachedRun s := hrun.mono fun _ _ _ hstep => ⟨hstep, fun _ _ _ _ _ => trivial⟩
  obtain ⟨hadmission, hextend, hbacked⟩ := allocation_safe_iff hocc .Gpu (Touched.refl _ _) (cachedSequence [4, 5]) .full
  obtain ⟨hroom, hroom'⟩ := hbacked fun hne => absurd rfl hne
  exact ⟨s, ⟨_, hrun⟩, ⟨hadm, hadmission.2 (fun hc => (hroom hc).2 hback) hadm⟩, hext,
    hextend.2 (fun hc => (hroom' hc).2 hback') hext⟩

/-- The computation ends with "all blocks are already in use". -/
def runs_out (x : BM Nat) (m : BlockManager) : Bool :=
  match x m with
  | .error .allBlocksInUse _ => true
  | _ => false

theorem runs_out_iff {x : BM Nat} {m : BlockManager} :
    runs_out x m = true ↔ ∃ m', x m = .error .allBlocksInUse m' := by
  unfold runs_out
  split
  · rename_i m' hx; simp [hx]
  · rename_i hx
    simp only [Bool.false_eq_true, false_iff, not_exists]
    exact hx

/-- Four more tokens: both checks pass at the scheduler's watermark and both allocations run out. -/
theorem allocation_unsafe_cached :
    let _ := decimalHasher
    ∃ s, Reachable cachedConfig s ∧
      (s.scheduler.gpu_block_manager.admission_check (cachedSequence [4, 5, 6, 0])
          Scheduler.defaultWatermark = true ∧
        ∃ m', admit_seq (cachedSequence [4, 5, 6, 0]) s.scheduler.gpu_block_manager =
          .error .allBlocksInUse m') ∧
      (s.scheduler.gpu_block_manager.extension_check (cachedSequence [4, 5, 6, 0]) .full = true ∧
        ∃ m', alloc_blocks (cachedSequence [4, 5, 6, 0]) s.scheduler.gpu_block_manager =
          .error .allBlocksInUse m') := by
  let _ := decimalHasher
  have hfollow : (Run.follow Op.next (System.new cachedConfig) cachedRun).any (fun s =>
      s.scheduler.gpu_block_manager.admission_check (cachedSequence [4, 5, 6, 0])
        Scheduler.defaultWatermark &&
      runs_out (admit_seq (cachedSequence [4, 5, 6, 0])) s.scheduler.gpu_block_manager &&
      s.scheduler.gpu_block_manager.extension_check (cachedSequence [4, 5, 6, 0]) .full &&
      runs_out (alloc_blocks (cachedSequence [4, 5, 6, 0])) s.scheduler.gpu_block_manager) = true := by
    decide +kernel
  obtain ⟨s, hrun, hs⟩ := Run.exists_of_follow (fun _ _ _ => Op.step_of_next) hfollow
  simp only [Bool.and_eq_true] at hs
  obtain ⟨⟨⟨hadm, hout⟩, hext⟩, hout'⟩ := hs
  exact ⟨s, ⟨_, hrun⟩, ⟨hadm, runs_out_iff.1 hout⟩, hext, runs_out_iff.1 hout'⟩

end System

end LMServe
