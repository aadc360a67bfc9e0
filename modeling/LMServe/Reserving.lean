import LMServe.FreeList
import LMServe.Hidden

/-!
# A reservation that fails

`reserve_request` takes its blocks one by one under a first lock, without asking how many are free,
and pends the task under a second one. A failing call leaves the host as it was if it needs no
block or there is none to take. In the other cases it keeps what it took: all that was free, or the
whole region, whose id nobody learns.
-/

namespace LMServe
open Hoare Chunk

namespace BlockManager

/-- Reference counts, free list, hash table and regions. -/
def resources (m : BlockManager) : List Int × List Nat × Table Nat × Table (List Nat) :=
  (m.block_allocator.block_pool.map (·.ref_cnt), m.block_allocator.free_block_ids, m.hash_block_table,
    m.reserved_blocks_table)

section
variable [Hasher] {m m' : BlockManager}

theorem length_full_hashes {bs : Nat} (hbs : 0 < bs) (T : List Nat) (k : Nat) : ∀ {q : Nat}, T.length / bs - q = k →
    (full_hashes bs T (step_by (q * bs) T.length bs)).length = k := by
  induction k with
  | zero =>
    intro q hk
    have hlt : T.length < (q + 1) * bs := (Nat.div_lt_iff_lt_mul hbs).1 (by omega)
    rw [Nat.add_mul, Nat.one_mul] at hlt
    by_cases hq : q * bs < T.length
    · rw [step_by_cons hbs hq, full_hashes, if_pos (by omega)]; rfl
    · rw [step_by_nil hbs (Nat.le_of_not_lt hq)]; rfl
  | succ k ih =>
    intro q hk
    have hle : (q + 1) * bs ≤ T.length := (Nat.le_div_iff_mul_le hbs).1 (by omega)
    have hnext : (q + 1) * bs = q * bs + bs := by ring
    rw [hnext] at hle
    rw [step_by_cons hbs (by omega), full_hashes, if_neg (by omega), List.length_cons, ← hnext, ih (by omega)]

omit [Hasher] in
theorem alloc_block_first (h : m.Ready) {b : Nat} {rest : List Nat}
    (hfree : m.block_allocator.free_block_ids = b :: rest) :
    ∃ m', on_allocator BlockAllocator.alloc_block m = .ok b m' ∧ m'.block_allocator.free_block_ids = rest ∧
      m'.block_size = m.block_size := by
  obtain ⟨block, hblock, hstatus, hcnt⟩ := h.free b (by rw [hfree]; exact List.mem_cons_self ..)
  have hguard : ¬ (block.status = .Used ∨ 0 < block.ref_cnt) := by
    rw [hstatus]
    rintro (hused | hpos)
    · cases hused
    · omega
  unfold on_allocator zoom BlockAllocator.alloc_block
  simp only [hfree, hblock, if_neg hguard]
  exact ⟨_, rfl, rfl, rfl⟩

omit [Hasher] in
theorem alloc_block_none (hfree : m.block_allocator.free_block_ids = []) :
    on_allocator BlockAllocator.alloc_block m = .error .allBlocksInUse m := by
  unfold on_allocator zoom BlockAllocator.alloc_block
  rw [hfree]

/-- A block is there for each full block of tokens, or the loop stops when all that were free are taken. -/
theorem reserve_loop_ends (T offsets : List Nat) : ∀ {m : BlockManager}, m.Ready →
    Ends (reserve_loop T offsets) m
      (fun pairs m' => pairs.length = (full_hashes m.block_size T offsets).length ∧
        pairs.length ≤ m.block_allocator.free_block_ids.length ∧
        m'.block_allocator.free_block_ids = m.block_allocator.free_block_ids.drop pairs.length ∧
        (pairs.length = 0 → m' = m))
      (fun _ m' => m.block_allocator.free_block_ids.length < (full_hashes m.block_size T offsets).length ∧
        m'.block_allocator.free_block_ids = [] ∧ (m.block_allocator.free_block_ids = [] → m' = m)) := by
  induction offsets with
  | nil => exact fun _ => Ends.pure ⟨rfl, Nat.zero_le _, rfl, fun _ => rfl⟩
  | cons off offsets ih =>
    intro m h
    refine Ends.get_bind (Ends.ite (fun hpart => ?_) fun hfull => ?_)
    · rw [full_hashes, if_pos hpart]
      exact Ends.pure ⟨rfl, Nat.zero_le _, rfl, fun _ => rfl⟩
    · rw [full_hashes, if_neg hfull, List.length_cons]
      cases hfree : m.block_allocator.free_block_ids with
      | nil =>
        exact Ends.bind (R := fun _ _ => False)
          (Ends.run_error (alloc_block_none hfree) ⟨Nat.succ_pos _, hfree, fun _ => rfl⟩) fun _ _ h => h.elim
      | cons b rest =>
        obtain ⟨m₁, halloc, hfree₁, hsize₁⟩ := alloc_block_first h hfree
        have hready₁ := (on_allocator_lasts BlockAllocator.alloc_block_ready).of_ok halloc h
        refine Ends.bind (R := fun x m' => x = b ∧ m' = m₁) (Ends.run_ok halloc ⟨rfl, rfl⟩) ?_
        rintro x m' ⟨rfl, rfl⟩
        have hfits : (m'.get_block x).clear.token_ids.length +
            (slice T off (min (off + m.block_size) T.length)).length ≤ m'.block_size := by
          rw [hsize₁, length_slice]
          simp only [Block.clear, List.length_nil]
          omega
        refine Ends.get_bind (Ends.bind (R := fun block m'' => m'' = m' ∧ block.status = (m'.get_block x).status ∧
          block.ref_cnt = (m'.get_block x).ref_cnt) ?_ ?_)
        · exact Ends.get_bind (Ends.ite (fun _ => Ends.pure ⟨rfl, rfl, rfl⟩) fun hne => absurd hfits hne)
        · rintro block m'' ⟨rfl, hstatus, hcnt⟩
          have hset : (m''.set_block x { block with
              hash := compute_hash (T.take (min (off + m.block_size) T.length)) }).Ready :=
            BlockAllocator.lasting_ready.set_block hready₁ hstatus hcnt
          have hrest := ih hset
          rw [show ∀ block, (m''.set_block x block).block_size = m.block_size from fun _ => hsize₁,
            show ∀ block, (m''.set_block x block).block_allocator.free_block_ids = rest from fun _ => hfree₁] at hrest
          refine Ends.modify_bind (Ends.bind (hrest.conseq (fun _ _ h => h) ?_) ?_)
          · rintro e m₂ ⟨hlt, hnil, -⟩
            exact ⟨by rw [List.length_cons]; omega, hnil, fun h => by cases h⟩
          · rintro pairs m₂ ⟨hlen, hle, hdrop, -⟩
            refine Ends.pure ⟨by rw [List.length_cons, hlen], ?_, by rw [hdrop]; rfl, fun h => ?_⟩
            · rw [List.length_cons, List.length_cons]; omega
            · rw [List.length_cons] at h; omega

theorem reserve_blocks_ends (h : m.Ready) (r : Nat) (T : List Nat) (start : Nat) :
    Ends (reserve_blocks r T start) m
      (fun region m' => T.length / m.block_size - start / m.block_size ≤ m.block_allocator.free_block_ids.length ∧
        m'.block_allocator.free_block_ids =
          m.block_allocator.free_block_ids.drop (T.length / m.block_size - start / m.block_size) ∧
        (T.length / m.block_size - start / m.block_size = 0 → m' = m) ∧
        (region = none → T.length / m.block_size - start / m.block_size = 0) ∧
        ∀ reg, region = some reg → m'.reserved_blocks_table.lookup reg.id = some reg.block_ids)
      (fun _ m' => m.block_allocator.free_block_ids.length < T.length / m.block_size - start / m.block_size ∧
        m'.block_allocator.free_block_ids = [] ∧ (m.block_allocator.free_block_ids = [] → m' = m)) := by
  have hloop := reserve_loop_ends T (step_by (start / m.block_size * m.block_size) T.length m.block_size) h
  rw [length_full_hashes m.block_size_pos T _ rfl] at hloop
  refine Ends.get_bind (Ends.bind hloop ?_)
  rintro pairs m₁ ⟨hlen, hle, hdrop, hnone⟩
  rw [hlen] at hle hdrop hnone
  refine Ends.ite (fun hempty => ?_) fun _ => ?_
  · refine Ends.pure ⟨hle, hdrop, hnone, fun _ => ?_, fun reg hreg => by cases hreg⟩
    rw [← hlen, List.isEmpty_iff.1 hempty]; rfl
  · refine Ends.modify_bind (Ends.pure ⟨hle, hdrop, fun hzero => ?_, (nomatch ·), fun reg hreg => ?_⟩)
    · rw [hzero] at hlen
      exact absurd (List.length_eq_zero_iff.1 hlen) (by simpa using ‹¬ pairs.isEmpty = true›)
    · obtain rfl := Option.some.inj hreg
      exact (Table.lookup_insert_eq ..).trans (if_pos rfl)

end

end BlockManager

/-! ### The two sections -/

namespace System

section
variable {s s' : System} {request : GenerateRequest} {arrival : Nat}

theorem head_to_task (request : GenerateRequest) (first arrival : Nat) :
    (request.to_task first arrival).get_head_seq = if request.num_samples = 0 then none else
      some (Sequence.new first request.session_id request.input_ids request.max_output_len request.ignore_eos
        request.disable_cache) := by
  cases hn : request.num_samples with
  | zero => simp [GenerateRequest.to_task, InferTask.get_head_seq, InferTask.get_active_seqs, hn]
  | succ n =>
    simp [GenerateRequest.to_task, InferTask.get_head_seq, InferTask.get_active_seqs, hn, List.range_succ_eq_map,
      Sequence.is_active, Sequence.new]

/-- The blocks that the request needs on the host. -/
def needed (s : System) (request : GenerateRequest) : Nat :=
  if request.num_samples = 0 then 0
  else request.input_ids.length / s.scheduler.host_block_manager.block_size -
    s.scheduler.host_block_manager.get_filled_token_len s.next_seq_id / s.scheduler.host_block_manager.block_size

/-- The blocks that are free on the host. -/
def available (s : System) : List Nat := s.scheduler.host_block_manager.block_allocator.free_block_ids

theorem reserve_request_ends [Hasher] (h : s.Ready) (request : GenerateRequest) (arrival : Nat) :
    Ends (reserve_request request arrival) s
      (fun region s' => s.needed request ≤ s.available.length ∧
        s'.available = s.available.drop (s.needed request) ∧
        (s.needed request = 0 → s'.scheduler.host_block_manager = s.scheduler.host_block_manager) ∧
        (region = none → s.needed request = 0) ∧ ∀ r, region = some r →
          s'.scheduler.host_block_manager.reserved_blocks_table.lookup r.block_region.id = some r.block_region.block_ids)
      (fun _ s' => (s.needed request = 0 ∨ s.available.length < s.needed request ∧ s'.available = []) ∧
        (s.needed request = 0 ∨ s.available = [] →
          s'.scheduler.host_block_manager = s.scheduler.host_block_manager)) := by
  unfold reserve_request create_task generate_id
  refine Ends.bind (R := fun t s' => t = request.to_task s.next_seq_id arrival ∧
    s'.scheduler = s.scheduler) ⟨rfl, rfl⟩ ?_
  rintro t s₁ ⟨rfl, hs₁⟩
  refine Ends.bind (R := fun _ s' => s'.scheduler = s.scheduler)
    (Ends.get_bind (Ends.modify_bind (Ends.pure hs₁))) fun r s₂ hs₂ => ?_
  refine Ends.bind (R := fun region s' => s.needed request ≤ s.available.length ∧
        s'.available = s.available.drop (s.needed request) ∧
        (s.needed request = 0 → s'.scheduler.host_block_manager = s.scheduler.host_block_manager) ∧
        (region = none → s.needed request = 0) ∧ ∀ r, region = some r →
          s'.scheduler.host_block_manager.reserved_blocks_table.lookup r.block_region.id = some r.block_region.block_ids)
    ?_ fun region s₃ h₃ => Ends.modify_bind (Ends.pure h₃)
  refine Ends.zoom ?_
  rw [hs₂]
  unfold Scheduler.reserve_blocks
  rw [head_to_task]
  by_cases hn : request.num_samples = 0
  · rw [if_pos hn]
    have hzero : s.needed request = 0 := if_pos hn
    exact Ends.throw ⟨.inl hzero, fun _ => rfl⟩
  · rw [if_neg hn]
    have hneed : s.needed request = request.input_ids.length / s.scheduler.host_block_manager.block_size -
      s.scheduler.host_block_manager.get_filled_token_len s.next_seq_id / s.scheduler.host_block_manager.block_size :=
      if_neg hn
    have hends := BlockManager.reserve_blocks_ends (h .Host) r request.input_ids
      (s.scheduler.host_block_manager.get_filled_token_len s.next_seq_id)
    refine Ends.get_bind (Ends.bind (R := fun region σ => s.needed request ≤ s.available.length ∧
        σ.host_block_manager.block_allocator.free_block_ids = s.available.drop (s.needed request) ∧
        (s.needed request = 0 → σ.host_block_manager = s.scheduler.host_block_manager) ∧
        (region = none → s.needed request = 0) ∧ ∀ reg, region = some reg →
          σ.host_block_manager.reserved_blocks_table.lookup reg.id = some reg.block_ids)
      (Ends.zoom ?_) ?_)
    · refine hends.conseq ?_ ?_
      · rintro region m ⟨hle, hdrop, hsame, hnone, hregion⟩
        rw [hneed]
        exact ⟨hle, hdrop, hsame, hnone, hregion⟩
      · rintro e m ⟨hlt, hnil, hsame⟩
        rw [hneed]
        exact ⟨.inr ⟨hlt, hnil⟩, fun hcase => hsame (hcase.resolve_left fun hzero =>
          Nat.ne_of_gt (Nat.zero_lt_of_lt hlt) hzero)⟩
    · rintro region σ ⟨hle, hdrop, hsame, hnone, hregion⟩
      refine Ends.pure ⟨hle, hdrop, hsame, fun hno => hnone (Option.map_eq_none_iff.1 hno), fun reg hreg => ?_⟩
      obtain ⟨reg', rfl, rfl⟩ := Option.map_eq_some_iff.1 hreg
      exact hregion reg' rfl

theorem pend_reserved_ends {i : Nat} {t : InferTask} (hi : s.reserving[i]? = some t) :
    Ends (pend_reserved i) s
      (fun _ s' => s.scheduler.pending.lookup t.session_id = none ∧
        s'.scheduler.pending.lookup t.session_id = some t ∧
        s'.scheduler.host_block_manager = s.scheduler.host_block_manager)
      (fun _ s' => (s.scheduler.pending.lookup t.session_id).isSome ∧
        s'.scheduler.host_block_manager = s.scheduler.host_block_manager) := by
  refine Ends.get_bind ?_
  rw [hi]
  refine Ends.modify_bind (Ends.zoom (Ends.get_bind (Ends.modify_bind ?_)))
  dsimp only
  cases hold : s.scheduler.pending.lookup t.session_id with
  | some u => exact Ends.throw ⟨rfl, rfl⟩
  | none => exact Ends.pure ⟨rfl, (Table.lookup_insert_eq ..).trans (if_pos rfl), rfl⟩

end

end System

namespace Engine

section
variable [Hasher] {e e₁ : Engine} {request : GenerateRequest} {arrival : Nat}

/-- The same sessions wait for the lock, the same loop and background thread go on. -/
def KeepsRunning (e e' : Engine) : Prop :=
  e'.lock = e.lock ∧ e'.loop = e.loop ∧ e'.alive = e.alive ∧ e'.queue = e.queue

/-- A call of `reserve_request` comes to the engine in state `e`, and gets the lock a second time in state
`e₁`. It records its region and pends its task, or it stops and leaves the resources of the host as they
were; and the engine goes on. -/
def CleanReservation (e : Engine) (request : GenerateRequest) (arrival : Nat) (e₁ : Engine) : Prop :=
  KeepsRunning e (e.reserve_request request arrival) ∧
  match attempt (System.reserve_request request arrival) e.system with
  | (none, s) => s.scheduler.host_block_manager.resources = e.system.scheduler.host_block_manager.resources
  | (some region, s) =>
    ((region = none → e.system.needed request = 0) ∧ ∀ r, region = some r →
      s.scheduler.host_block_manager.reserved_blocks_table.lookup r.block_region.id = some r.block_region.block_ids) ∧
    ∀ i, e₁.system.reserving[i]? = some (request.to_task e.system.next_seq_id arrival) →
      (∀ e₂, e₁.pend_reserved i = some e₂ → KeepsRunning e₁ e₂) ∧
      match attempt (System.pend_reserved i) e₁.system with
      | (some _, s₁) =>
        s₁.scheduler.pending.lookup request.session_id = some (request.to_task e.system.next_seq_id arrival) ∧
          s₁.scheduler.host_block_manager = e₁.system.scheduler.host_block_manager
      | (none, s₁) =>
        s.scheduler.host_block_manager.resources = e.system.scheduler.host_block_manager.resources ∧
          s₁.scheduler.host_block_manager = e₁.system.scheduler.host_block_manager

theorem reserve_request_keepsRunning : KeepsRunning e (e.reserve_request request arrival) := by
  unfold Engine.reserve_request
  split <;> exact ⟨rfl, rfl, rfl, rfl⟩

omit [Hasher] in
theorem pend_reserved_keepsRunning {i : Nat} {e' : Engine} (h : e.pend_reserved i = some e') : KeepsRunning e e' := by
  unfold Engine.pend_reserved at h
  split at h
  · split at h <;> obtain rfl := Option.some.inj h <;> exact ⟨rfl, rfl, rfl, rfl⟩
  · cases h

omit [Hasher] in
theorem available_of_resources {s s' : System}
    (h : s'.scheduler.host_block_manager.resources = s.scheduler.host_block_manager.resources) :
    s'.available = s.available := congrArg (fun r => r.2.1) h

/-- A reservation is clean exactly if it needs no block of the host, or none is free, or there are enough
and its session is not pending when its task is to be pended. -/
theorem reserve_request_clean_iff {c : SchedulerConfig} {ops : List EngineOp}
    (hrun : Run EngineOp.Step (Engine.new c) ops e) (request : GenerateRequest) (arrival : Nat) (e₁ : Engine) :
    CleanReservation e request arrival e₁ ↔
      e.system.needed request = 0 ∨ e.system.available = [] ∨
        e.system.needed request ≤ e.system.available.length ∧
          (request.to_task e.system.next_seq_id arrival ∈ e₁.system.reserving →
            e₁.system.scheduler.pending.lookup request.session_id = none) := by
  have hends := System.reserve_request_ends (EngineOp.run_ready hrun) request arrival
  unfold CleanReservation attempt
  rw [and_iff_right reserve_request_keepsRunning]
  cases hfirst : System.reserve_request request arrival e.system with
  | error err s =>
    obtain ⟨hcase, hsame⟩ := hends.of_error hfirst
    dsimp only
    constructor
    · intro hres
      rcases hcase with hzero | ⟨hlt, hnil⟩
      · exact .inl hzero
      · exact .inr (.inl (by rw [← available_of_resources hres, hnil]))
    · rintro (hzero | hnil | ⟨hle, -⟩)
      · rw [hsame (.inl hzero)]
      · rw [hsame (.inr hnil)]
      · rcases hcase with hzero | ⟨hlt, -⟩
        · rw [hsame (.inl hzero)]
        · omega
  | ok region s =>
    obtain ⟨hle, hdrop, hsame, hregion⟩ := hends.of_ok hfirst
    dsimp only
    rw [and_iff_right hregion]
    constructor
    · intro h
      by_cases hzero : e.system.needed request = 0
      · exact .inl hzero
      · refine .inr (.inr ⟨hle, fun hmem => ?_⟩)
        obtain ⟨i, hi⟩ := List.mem_iff_getElem?.1 hmem
        have hpend := System.pend_reserved_ends hi
        obtain ⟨-, hsecond⟩ := h i hi
        cases hrun₂ : System.pend_reserved i e₁.system with
        | ok u s₁ => exact (hpend.of_ok hrun₂).1
        | error err s₁ =>
          -- the blocks of the region stay taken
          rw [hrun₂] at hsecond
          have hav := available_of_resources hsecond.1
          rw [hdrop] at hav
          have hlen := congrArg List.length hav
          rw [List.length_drop] at hlen
          omega
    · intro h i hi
      have hpend := System.pend_reserved_ends hi
      refine ⟨fun e₂ => pend_reserved_keepsRunning, ?_⟩
      cases hrun₂ : System.pend_reserved i e₁.system with
      | ok u s₁ => exact (hpend.of_ok hrun₂).2
      | error err s₁ =>
        obtain ⟨hsome, hhost⟩ := hpend.of_error hrun₂
        refine ⟨?_, hhost⟩
        rcases h with hzero | hnil | ⟨-, hnone⟩
        · rw [hsame hzero]
        · rw [hsame (by rw [hnil] at hle; exact Nat.le_zero.1 hle)]
        · have hfree : e₁.system.scheduler.pending.lookup (request.to_task e.system.next_seq_id arrival).session_id =
              none := hnone (List.mem_of_getElem? hi)
          rw [hfree] at hsome
          cases hsome

end

/-- One block of two tokens on the host. -/
def oneBlock : SchedulerConfig where
  max_batch_size := 4
  max_seq_len := 100
  max_num_batched_tokens := 100
  block_size := 2
  block_size_pos := Nat.two_pos
  num_gpu_blocks := 4
  num_host_blocks := 1
  num_disk_blocks := 0
  enable_reorder := false
  watermark_blocks := Scheduler.defaultWatermark

theorem reserve_request_clean_oneBlock :
    let _ := decimalHasher
    let request : GenerateRequest := ⟨7, [1, 2], 1, none, false, false⟩
    CleanReservation (Engine.new oneBlock) request 0 ((Engine.new oneBlock).reserve_request request 0) := by
  intro _ request
  refine (reserve_request_clean_iff .nil request 0 _).2 (.inr (.inr ⟨by decide, fun _ => ?_⟩))
  decide +kernel

/-- Two blocks are needed and one is free: it is taken for good. -/
theorem reserve_request_keeps_block :
    let _ := decimalHasher
    ¬ CleanReservation (Engine.new oneBlock) ⟨7, [1, 2, 3, 4], 1, none, false, false⟩ 0
      ((Engine.new oneBlock).reserve_request ⟨7, [1, 2, 3, 4], 1, none, false, false⟩ 0) := by
  intro _
  have hfails : (attempt (System.reserve_request ⟨7, [1, 2, 3, 4], 1, none, false, false⟩ 0)
      (Engine.new oneBlock).system).1 = none := by decide +kernel
  have htaken : (attempt (System.reserve_request ⟨7, [1, 2, 3, 4], 1, none, false, false⟩ 0)
      (Engine.new oneBlock).system).2.available = [] := by decide +kernel
  rintro ⟨-, hclean⟩
  generalize attempt (System.reserve_request ⟨7, [1, 2, 3, 4], 1, none, false, false⟩ 0)
    (Engine.new oneBlock).system = r at hfails htaken hclean
  obtain ⟨_, s⟩ := r
  obtain rfl : _ = none := hfails
  have hav := available_of_resources hclean
  rw [show s.available = [] from htaken] at hav
  cases hav

end Engine

end LMServe
