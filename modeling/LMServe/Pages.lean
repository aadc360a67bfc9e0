import LMServe.SystemSteps

/-!
# What the page tables say

When `compute_hash` tells the prefixes that occur apart, the block map of every live sequence lists
blocks whose tokens are, one after the other, the sequence's own tokens up to its slots; `SysInv`
carries this through every run, and `Touched` through the middle of a scheduling round. It follows
that the subtractions of `get_num_required_blocks` and `alloc_blocks` and the capacity assertion of
`append_tokens` cannot fail, and that an allocation takes as many blocks as were asked for.
-/

namespace LMServe
open Hoare Chunk BlockManager

/-! ### Errors of the other operations -/

/-- What the managers raise outside scheduling. -/
def Routine (e : Panic) : Prop := NoSizeFault e ∧ e ≠ .filledBeyondSlots ∧ e ≠ .duplicatePending

/-- What steps other than `schedule` raise. -/
def Ordinary (e : Panic) : Prop := NoSizeFault e ∧ e ≠ .filledBeyondSlots

/-- What the managers raise when blocks are pinned and freed. -/
def Elementary (e : Panic) : Prop := Routine e ∧ e ≠ .outOfFuel

theorem Elementary.routine {e : Panic} (h : Elementary e) : Routine e := h.1

namespace BlockAllocator

theorem alloc_block_stops : Stops Elementary alloc_block := by
  intro a e a' h
  unfold alloc_block at h
  split at h
  · cases h; simp [Elementary, Routine, NoSizeFault]
  · dsimp only at h
    split at h
    · cases h; simp [Elementary, Routine, NoSizeFault]
    · split at h
      · cases h; simp [Elementary, Routine, NoSizeFault]
      · cases h

theorem free_block_stops (b : Nat) : Stops Elementary (free_block b) := by
  intro a e a' h
  unfold free_block at h
  split at h
  · cases h; simp [Elementary, Routine, NoSizeFault]
  · split at h
    · dsimp only at h
      split at h
      · split at h
        · cases h; simp [Elementary, Routine, NoSizeFault]
        · cases h
      · cases h
    · cases h; simp [Elementary, Routine, NoSizeFault]

theorem alloc_block_by_id_stops (b : Nat) : Stops Elementary (alloc_block_by_id b) := by
  intro a e a' h
  unfold alloc_block_by_id at h
  split at h
  · cases h; simp [Elementary, Routine, NoSizeFault]
  · split at h
    · split at h
      · cases h
      · cases h; simp [Elementary, Routine, NoSizeFault]
    · cases h

end BlockAllocator

namespace BlockManager

theorem retain_all_stops (ids : List Nat) :
    Stops Elementary (forM ids fun b => on_allocator (BlockAllocator.alloc_block_by_id b)) :=
  Stops.forM (fun b => (BlockAllocator.alloc_block_by_id_stops b).zoom) ids

theorem drop_cache_stops (b : Nat) : Stops Elementary (drop_cache b) := by
  refine Stops.bind (Stops.get.bind fun s => ?_) fun block => Stops.ite (Stops.modify _) (Stops.pure _)
  split
  · exact Stops.pure _
  · exact Stops.throw (by simp [Elementary, Routine, NoSizeFault])

theorem free_loop_stops (filled : Nat) (ids : List Nat) : ∀ cnt, Stops Elementary (free_loop filled cnt ids) := by
  induction ids with
  | nil => exact fun _ => Stops.pure _
  | cons b ids ih =>
    intro cnt
    refine (BlockAllocator.free_block_stops b).zoom.bind fun _ => Stops.get.bind fun s => ?_
    exact (Stops.ite (drop_cache_stops b) (Stops.pure _)).bind fun _ => ih _

theorem free_stops (i : Nat) : Stops Elementary (free i) := by
  refine Stops.get.bind fun s => ?_
  split
  · exact Stops.pure _
  · exact (Stops.modify _).bind fun _ => free_loop_stops _ _ _

theorem free_and_drop_cache_stops (i : Nat) : Stops Elementary (free_and_drop_cache i) := by
  refine Stops.get.bind fun s => ?_
  split
  · exact Stops.pure _
  · refine (Stops.modify _).bind fun _ => Stops.forM (fun b => ?_) _
    exact (BlockAllocator.free_block_stops b).zoom.bind fun _ => drop_cache_stops b

theorem unpin_blocks_stops (r : Nat) : Stops Elementary (unpin_blocks r) := by
  refine Stops.get.bind fun s => ?_
  split
  · exact Stops.pure _
  · refine (Stops.modify _).bind fun _ => Stops.bind ?_ fun _ => Stops.pure _
    exact Stops.forM (fun b => (BlockAllocator.free_block_stops b).zoom) _

theorem append_tokens_of_le {block : Block} {l : List Nat} {m : BlockManager}
    (h : block.token_ids.length + l.length ≤ m.block_size) :
    append_tokens block l m = .ok { block with token_ids := block.token_ids ++ l } m := by
  unfold append_tokens
  rw [bind_apply, get_apply]
  exact congrFun (if_pos h) m

theorem activate_reserved_blocks_stops (r : Nat) (hash_values : List Nat) :
    Stops Elementary (activate_reserved_blocks r hash_values) := by
  refine Stops.get.bind fun s => ?_
  split
  · exact Stops.pure _
  · refine (Stops.modify _).bind fun _ => Stops.bind (Stops.mapM (fun b => ?_) _) fun _ => Stops.pure _
    refine Stops.get.bind fun s => (Stops.modify _).bind fun _ => ?_
    exact (BlockAllocator.free_block_stops b).zoom.bind fun _ => Stops.pure _

theorem pin_loop_stops (hash_values : List Nat) : Stops Elementary (pin_loop hash_values) := by
  induction hash_values with
  | nil => exact Stops.pure _
  | cons h hash_values ih =>
    refine Stops.get.bind fun s => ?_
    split
    · exact (BlockAllocator.alloc_block_by_id_stops _).zoom.bind fun _ => ih.bind fun _ => Stops.pure _
    · exact Stops.pure _

theorem pin_blocks_by_hashes_stops (r : Nat) (hash_values : List Nat) :
    Stops Elementary (pin_blocks_by_hashes r hash_values) :=
  (pin_loop_stops hash_values).bind fun _ => (Stops.modify _).bind fun _ => Stops.pure _

section
variable [Hasher]

theorem init_prefix_cache_blocks_stops (seq : Sequence) :
    Stops Elementary (init_prefix_cache_blocks seq) := by
  refine Stops.get.bind fun s => ?_
  split
  · exact Stops.pure _
  · exact (retain_all_stops _).bind fun _ => (Stops.modify _).bind fun _ => Stops.pure _

theorem update_prefix_cache_blocks_stops (seq : Sequence) :
    Stops Elementary (update_prefix_cache_blocks seq) := by
  refine Stops.get.bind fun s => ?_
  split
  · exact init_prefix_cache_blocks_stops seq
  · refine Stops.bind (Stops.get.bind fun s => ?_) fun ids => ?_
    · exact Stops.ite (Stops.pure _) (Stops.throw (by simp [Elementary, Routine, NoSizeFault]))
    · exact (retain_all_stops _).bind fun _ => (Stops.modify _).bind fun _ => Stops.pure _

/-- The block handed out is cleared, and a chunk of one block's length fits. -/
theorem reserve_loop_stops (token_ids offsets : List Nat) :
    Stops Elementary (reserve_loop token_ids offsets) := by
  induction offsets with
  | nil => exact Stops.pure _
  | cons off offsets ih =>
    refine Stops.get_bind fun m e m' hrun => ?_
    dsimp only at hrun
    split at hrun
    · cases hrun
    · rcases bind_error.1 hrun with halloc | ⟨b, m₁, halloc, hrun⟩
      · exact BlockAllocator.alloc_block_stops.zoom _ _ _ halloc
      · have hbs : m₁.block_size = m.block_size :=
          (on_allocator_keeps (f := block_size) (fun _ _ => rfl) _).of_ok halloc
        rcases bind_error.1 hrun with hget | ⟨t, m₂, hget, hrun⟩
        · cases hget
        cases hget
        rcases bind_error.1 hrun with happ | ⟨block, m₂, -, hrun⟩
        · rw [append_tokens_of_le] at happ
          · cases happ
          · rw [hbs, length_slice]
            simp only [Block.clear, List.length_nil]
            omega
        · exact (Stops.modify _).bind (fun _ => ih.bind fun _ => Stops.pure _) _ _ _ hrun

theorem reserve_blocks_stops (r : Nat) (token_ids : List Nat) (start : Nat) :
    Stops Elementary (reserve_blocks r token_ids start) := by
  refine Stops.get.bind fun s => (reserve_loop_stops _ _).bind fun pairs => Stops.ite (Stops.pure _) ?_
  exact (Stops.modify _).bind fun _ => Stops.pure _

end

end BlockManager

namespace Scheduler

theorem on_device_discard_stops {α : Type} {x : BM α} (h : Stops Elementary x) (d : Device) :
    Stops Routine (on_device d do let _ ← x) :=
  (Stops.bind (h.mono fun _ => Elementary.routine) fun _ => Stops.pure _).zoom

theorem pend_stops (t : InferTask) : Stops Ordinary (pend t) := by
  refine Stops.get.bind fun s => (Stops.modify _).bind fun _ => ?_
  split
  · exact Stops.throw (by simp [Ordinary, NoSizeFault])
  · exact Stops.pure _

theorem remove_task_stops (t : InferTask) : Stops Routine (remove_task t) :=
  Stops.forM (fun _ => Stops.forM (fun _ =>
    ((Stops.ite (free_and_drop_cache_stops _) (free_stops _)).mono fun _ => Elementary.routine).zoom) _) _

theorem clear_cache_stops : Stops Routine clear_cache := by
  refine Stops.forM (fun d => Stops.zoom ?_) _
  exact Stops.modify _

section
variable [Hasher]

theorem init_prefix_cache_blocks_stops (t : InferTask) (devices : List Device) :
    Stops Routine (init_prefix_cache_blocks t devices) :=
  Stops.forM (fun seq => Stops.forM (fun d =>
    on_device_discard_stops (BlockManager.init_prefix_cache_blocks_stops seq) d) _) _

theorem reserve_copy_blocks_stops (r : Nat) (seq : Sequence) (d d' : Device) :
    Stops Routine (reserve_copy_blocks r seq d d') := by
  refine Stops.get.bind fun s => Stops.ite (Stops.pure _) ?_
  split
  · exact Stops.pure _
  · refine Stops.ite ?_ (Stops.pure _)
    exact ((BlockManager.reserve_blocks_stops _ _ _).mono fun _ => Elementary.routine).zoom.bind fun _ => Stops.pure _

theorem plan_stage_stops (r : Nat) (t : InferTask) : Stops Routine (plan_stage r t) := by
  refine (init_prefix_cache_blocks_stops t _).bind fun _ => Stops.get.bind fun s => ?_
  split
  · exact Stops.throw (by simp [Routine, NoSizeFault])
  · exact Stops.ite (Stops.pure _) (reserve_copy_blocks_stops _ _ _ _)

theorem backup_stops (r : Nat) (t : InferTask) : Stops Routine (backup r t) := by
  unfold backup
  split
  · exact Stops.throw (by simp [Routine, NoSizeFault])
  · exact reserve_copy_blocks_stops _ _ _ _

theorem reserve_blocks_stops (r : Nat) (t : InferTask) (d : Device) :
    Stops Routine (reserve_blocks r t d) := by
  unfold reserve_blocks
  split
  · exact Stops.throw (by simp [Routine, NoSizeFault])
  · refine Stops.get.bind fun s => ?_
    exact ((BlockManager.reserve_blocks_stops _ _ _).mono fun _ => Elementary.routine).zoom.bind fun _ => Stops.pure _

theorem trigger_pend_task_stops (session_id : Nat) (region_id : Option Nat) (hash_values : List Nat) :
    Stops Routine (trigger_pend_task session_id region_id hash_values) := by
  refine Stops.get.bind fun s => ?_
  split
  · exact Stops.throw (by simp [Routine, NoSizeFault])
  · refine (Stops.modify _).bind fun _ => Stops.bind ?_ fun _ => ?_
    · unfold activate_region
      split
      · exact on_device_discard_stops (activate_reserved_blocks_stops _ _) _
      · exact Stops.pure _
    · split
      · exact Stops.throw (by simp [Routine, NoSizeFault])
      · exact (on_device_discard_stops (update_prefix_cache_blocks_stops _) _).bind fun _ =>
          Stops.modify _

end

end Scheduler

namespace System

theorem generate_id_stops {E : Panic → Prop} : Stops E generate_id :=
  Stops.get.bind fun _ => (Stops.modify _).bind fun _ => Stops.pure _

theorem create_task_stops {E : Panic → Prop} (request : GenerateRequest) (arrival_time : Nat) :
    Stops E (create_task request arrival_time) :=
  Stops.get.bind fun _ => (Stops.modify _).bind fun _ => Stops.pure _

section
variable [Hasher]

theorem add_request_stops (request : GenerateRequest) (arrival_time : Nat) :
    Stops Ordinary (System.add_request request arrival_time) := by
  refine (create_task_stops _ _).bind fun t => ?_
  refine ((Scheduler.init_prefix_cache_blocks_stops t _).mono fun _ h => ⟨h.1, h.2.1⟩).zoom.bind fun _ => ?_
  refine generate_id_stops.bind fun r => ?_
  refine ((Scheduler.plan_stage_stops r t).mono fun _ h => ⟨h.1, h.2.1⟩).zoom.bind fun plan => ?_
  cases plan with
  | some _ => exact (Scheduler.pend_stops t).zoom.bind fun _ => Stops.pure _
  | none => exact Stops.bind (Stops.zoom (Stops.modify _)) fun _ => Stops.pure _

theorem reserve_request_stops (request : GenerateRequest) (arrival_time : Nat) :
    Stops Routine (System.reserve_request request arrival_time) := by
  refine (create_task_stops _ _).bind fun t => generate_id_stops.bind fun r => ?_
  refine (Scheduler.reserve_blocks_stops r t _).zoom.bind fun _ => ?_
  exact (Stops.modify _).bind fun _ => Stops.pure _

/-- Outside scheduling no subtraction is checked, only cleared blocks are written, and fill levels stay
within their slots. -/
theorem exec_stops [Watch] {op : Op} (hop : op ≠ .schedule) : Stops Ordinary op.exec := by
  cases op with
  | schedule => exact absurd rfl hop
  | add_request request arrival => exact (add_request_stops _ _).bind fun _ => Stops.pure _
  | reserve_request request arrival =>
    exact ((reserve_request_stops _ _).mono fun _ h => ⟨h.1, h.2.1⟩).bind fun _ => Stops.pure _
  | pend_reserved i =>
    refine Stops.get.bind fun s => ?_
    split
    · exact Stops.pure _
    · exact (Stops.modify _).bind fun _ => (Scheduler.pend_stops _).zoom
  | trigger session_id region_id hash_values =>
    exact ((Scheduler.trigger_pend_task_stops _ _ _).mono fun _ h => ⟨h.1, h.2.1⟩).zoom
  | update infer_outputs now =>
    refine Stops.bind (Stops.bind (Stops.zoom ?_) fun _ => (Stops.modify _).bind fun _ =>
      Stops.pure _) fun _ => Stops.pure _
    exact Stops.get.bind fun _ => (Stops.modify _).bind fun _ => Stops.pure _
  | backup i =>
    refine Stops.bind (Stops.get.bind fun s => ?_) fun _ => Stops.pure _
    split
    · exact Stops.pure _
    · exact generate_id_stops.bind fun r => ((Scheduler.backup_stops r _).mono fun _ h => ⟨h.1, h.2.1⟩).zoom
  | remove_task i =>
    refine Stops.get.bind fun s => ?_
    split
    · exact Stops.pure _
    · exact ((Scheduler.remove_task_stops _).mono fun _ h => ⟨h.1, h.2.1⟩).zoom.bind fun _ => Stops.modify _
  | commit region =>
    refine Stops.bind (Stops.zoom (Stops.zoom ?_)) fun _ => Stops.pure _
    exact (activate_reserved_blocks_stops _ _).mono fun _ h => ⟨h.1.1, h.1.2.1⟩
  | pin hash_values =>
    refine Stops.bind (generate_id_stops.bind fun r => Stops.zoom ?_) fun _ => Stops.pure _
    exact ((pin_blocks_by_hashes_stops r _).mono fun _ h => ⟨h.1.1, h.1.2.1⟩).zoom.bind fun _ => Stops.pure _
  | unpin region =>
    exact ((Scheduler.on_device_discard_stops (unpin_blocks_stops _) _).mono fun _ h => ⟨h.1, h.2.1⟩).zoom
  | clear_cache =>
    show Stops Ordinary (System.on_scheduler Scheduler.clear_cache)
    exact (Scheduler.clear_cache_stops.mono fun _ h => ⟨h.1, h.2.1⟩).zoom

end

end System

/-! ### The middle of a scheduling round -/

/-- What scheduling does to a manager, to the sequences in `K`. -/
def BmOp.Schedules (K : List (Nat × List Nat)) : BmOp → Prop
  | alloc_blocks seq | init_prefix_cache_blocks seq => seq.key ∈ K
  | update_filled_len i _ | free i => ∃ seq : Sequence, seq.seq_id = i ∧ seq.key ∈ K
  | _ => False

section
variable [Hasher] {K : List (Nat × List Nat)} {m₀ m m' : BlockManager}

/-- A manager a scheduling round may reach from `m₀`, at its end or on the way. -/
def Touched (K : List (Nat × List Nat)) (m₀ m : BlockManager) : Prop :=
  ∃ ops, Run (fun m op m' => BmOp.Schedules K op ∧ BmOp.Step m op m') m₀ ops m

theorem Touched.refl (K : List (Nat × List Nat)) (m : BlockManager) : Touched K m m := ⟨[], .nil⟩

theorem Touched.step (h : Touched K m₀ m) {op : BmOp} (hop : op.Schedules K) (hs : op.Step m m') :
    Touched K m₀ m' :=
  let ⟨ops, hrun⟩ := h; ⟨ops ++ [op], hrun.snoc ⟨hop, hs⟩⟩

theorem Touched.triple {α : Type} {x : BM α} (op : BmOp) (hop : op.Schedules K)
    (hx : ∀ m m' a, x m = .ok a m' → op.Step m m') :
    Triple (Touched K m₀) x (fun _ => Touched K m₀) AnyError := by
  intro m hm
  cases hrun : x m with
  | ok a m' => exact hm.step hop (hx m m' a hrun)
  | error e m' => trivial

omit [Hasher] in
theorem discard_ok {α : Type} {x : BM α} {a : α} (h : x m = .ok a m') :
    (do let _ ← x : BM PUnit) m = .ok .unit m' :=
  bind_ok.2 ⟨a, m', h, rfl⟩

theorem kept_touched (K : List (Nat × List Nat)) (σ : Scheduler) :
    Scheduler.Kept K (fun d m => Touched K (σ.get_block_manager d) m) AnyError where
  get_num_required_blocks _ seq _ := get_num_required_blocks_triple seq
  alloc_blocks _ seq hseq := Touched.triple (.alloc_blocks seq) hseq fun _ _ _ h =>
    ⟨trivial, discard_ok h⟩
  init_prefix _ seq hseq := Touched.triple (.init_prefix_cache_blocks seq) hseq fun _ _ _ h =>
    ⟨trivial, discard_ok h⟩
  update_filled_len _ seq len hseq :=
    Touched.triple (.update_filled_len seq.seq_id len) ⟨seq, rfl, hseq⟩ fun _ _ _ h =>
      ⟨trivial, h⟩
  free {seq} hseq := Touched.triple (.free seq.seq_id) ⟨seq, rfl, hseq⟩ fun _ _ _ h =>
    ⟨trivial, h⟩
  outOfFuel := trivial
  watched := trivial

/-- A round leaves every manager at the end of such a sequence of operations on the queues' own
sequences. -/
theorem schedule_touched [Watch] {s s' : Scheduler} {batch : Scheduler.Batch}
    (h : Scheduler.schedule s = .ok batch s') (d : Device) :
    Touched (keys (s.waiting ++ s.allocated)) (s.get_block_manager d) (s'.get_block_manager d) := by
  refine ((Scheduler.schedule_kept (kept_touched _ s)).of_ok ⟨fun d => Touched.refl _ _, ?_, ?_⟩ h).devices d
  · exact fun t ht seq hseq => key_mem_keys (List.mem_append_left _ ht) hseq
  · exact fun t ht seq hseq => key_mem_keys (List.mem_append_right _ ht) hseq

theorem Touched.owned {R : List Nat → List Nat → Prop} {Occ : List Nat → Prop}
    {tok : Nat → List Nat} {n lim : Nat} (hR : TokenRel R Occ) (hK : KeysOk Occ tok lim K)
    (hm₀ : m₀.PageInv R Occ tok n none []) (h : Touched K m₀ m) :
    Owned R Occ tok n (K.map Prod.fst) [] m₀ m := by
  obtain ⟨ops, hrun⟩ := h
  refine hrun.invariant (I := Owned R Occ tok n (K.map Prod.fst) [] m₀) (Owned.refl hm₀) ?_
  rintro m op m' hm ⟨hop, -, hs⟩
  have hmem : ∀ {seq : Sequence}, seq.key ∈ K → seq.seq_id ∈ K.map Prod.fst := fun hseq =>
    List.mem_map.2 ⟨_, hseq, rfl⟩
  cases op with
  | alloc_blocks seq =>
    obtain ⟨r, m₁, hs, hret⟩ := bind_ok.1 hs
    cases hret
    exact (alloc_blocks_owned hR (hmem hop) (hK.tok _ hop) (hK.occ _ hop)).of_ok hm hs
  | init_prefix_cache_blocks seq =>
    obtain ⟨r, m₁, hs, hret⟩ := bind_ok.1 hs
    cases hret
    exact (init_prefix_cache_blocks_owned (E := AnyError) hR (hmem hop) (hK.tok _ hop)
      (hK.occ _ hop)).of_ok hm hs
  | update_filled_len i len =>
    obtain ⟨seq, rfl, hseq⟩ := hop
    exact (update_filled_len_owned (hmem hseq)).of_ok hm hs
  | free i =>
    obtain ⟨seq, rfl, hseq⟩ := hop
    exact (free_owned (E := AnyError) (hmem hseq)).of_ok hm hs
  | update_prefix_cache_blocks _ | reserve_blocks _ _ _ | activate_reserved_blocks _ _
  | pin_blocks_by_hashes _ _ | unpin_blocks _ | free_and_drop_cache _ | clear_cache => exact hop.elim

end

/-! ### Content -/

namespace BlockManager

section
variable [Hasher] {bs : Nat} {block : Nat → Block} {T : List Nat} {m : BlockMap}

/-- The blocks of a map hold the tokens up to its slots, one after the other. -/
theorem PageOk.content (hbs : 0 < bs) (h : PageOk (· = ·) bs block T m) :
    m.block_ids.flatMap (fun b => (block b).token_ids) = T.take m.num_allocated_slots := by
  have hstep : ∀ j, (m.block_ids.take j).flatMap (fun b => (block b).token_ids) =
      T.take (min (j * bs) m.num_allocated_slots) := by
    intro j
    induction j with
    | zero => simp
    | succ j ih =>
      cases hb : m.block_ids[j]? with
      | none =>
        -- past the last block
        have hlen : m.block_ids.length ≤ j := List.getElem?_eq_none_iff.1 hb
        have hslots : m.num_allocated_slots ≤ j * bs := by
          rw [h.len] at hlen; exact (div_ceil_le_iff hbs).1 hlen
        have hslots' : m.num_allocated_slots ≤ (j + 1) * bs :=
          Nat.le_trans hslots (Nat.mul_le_mul_right bs (Nat.le_succ j))
        rw [List.take_of_length_le (Nat.le_succ_of_le hlen), ← List.take_of_length_le hlen, ih,
          Nat.min_eq_right hslots, Nat.min_eq_right hslots']
      | some b =>
        have hlt : j * bs < m.num_allocated_slots := by
          obtain ⟨hj, -⟩ := List.getElem?_eq_some_iff.1 hb
          rw [h.len] at hj; exact (lt_div_ceil_iff hbs).1 hj
        have hle : j * bs ≤ min ((j + 1) * bs) m.num_allocated_slots := by
          have : j * bs ≤ (j + 1) * bs := Nat.mul_le_mul_right bs (Nat.le_succ j)
          omega
        rw [List.take_add_one, hb, List.flatMap_append, ih, Nat.min_eq_left (Nat.le_of_lt hlt)]
        have hpage := h.page j b hb
        simp only [Option.toList_some, List.flatMap_cons, List.flatMap_nil, List.append_nil]
        rw [hpage]
        exact slice_append_slice (a := 0) (Nat.zero_le _) hle
  have := hstep m.block_ids.length
  rwa [List.take_length, h.len, Nat.min_eq_right (le_div_ceil_mul hbs)] at this

end

/-- What the map of a sequence says about its blocks. -/
structure Describes (s : BlockManager) (seq : Sequence) (m : BlockMap) : Prop where
  len : m.block_ids.length = div_ceil m.num_allocated_slots s.block_size
  filled_le : m.filled_token_len ≤ m.num_allocated_slots
  slots_le : m.num_allocated_slots ≤ seq.token_ids.length
  content : m.block_ids.flatMap s.tokens = seq.token_ids.take m.num_allocated_slots

section
variable [Hasher] {Occ : List Nat → Prop} {tok : Nat → List Nat} {n : Nat} {s s' : BlockManager}
  {seq : Sequence} {m : BlockMap}

theorem PageInv.describes (h : s.PageInv (· = ·) Occ tok n none [])
    (htok : tok seq.seq_id = seq.token_ids) (hm : s.get_block_map seq.seq_id = some m) :
    s.Describes seq m := by
  have hpage := h.maps _ m (by simp) hm
  rw [htok] at hpage
  exact ⟨hpage.len, hpage.filled_le, hpage.slots_le, hpage.content s.block_size_pos⟩

/-- An allocation for a sequence with a map takes the blocks `get_num_required_blocks` counted. -/
theorem alloc_blocks_takes {R : List Nat → List Nat → Prop} (hR : TokenRel R Occ)
    (h : s.PageInv R Occ tok n none []) (htok : tok seq.seq_id = seq.token_ids)
    (hT : ∀ k, Occ (seq.token_ids.take k)) (hm : s.get_block_map seq.seq_id = some m) {r : Nat}
    (hrun : alloc_blocks seq s = .ok r s') :
    ∃ k taken, get_num_required_blocks seq s = .ok k s ∧ taken.length = k ∧
      s.block_allocator.free_block_ids = taken ++ s'.block_allocator.free_block_ids := by
  obtain ⟨k, hreq⟩ := get_num_required_blocks_returns h htok
  obtain ⟨-, ids, he⟩ := alloc_blocks_pageInv hR h htok hT hrun
  refine ⟨k, ids, hreq, ?_, he.free⟩
  obtain ⟨-, hk⟩ := get_num_required_blocks_ok hreq
  rw [hm] at hk
  rw [he.len, hm]
  exact hk.symm

end

end BlockManager

/-! ### Runs -/

namespace System

section
variable [Hasher] {c : SchedulerConfig} {Occ : List Nat → Prop} {s : System}

theorem SysInv.keys_queues {R : List Nat → List Nat → Prop} {D : Device → Prop} {tok : Nat → List Nat}
    (h : SysInv R Occ D c tok s) :
    KeysOk Occ tok s.next_seq_id (LMServe.keys (s.scheduler.waiting ++ s.scheduler.allocated)) := by
  refine h.keys.subperm (List.Sublist.subperm (List.Sublist.flatMap ?_ _))
  simp only [tasks, List.append_assoc]
  exact (List.sublist_append_left _ _).append_left _

/-- A run of the system in which all prefixes of sequences are in `Occ`. -/
abbrev OccRun [Watch] (Occ : List Nat → Prop) (c : SchedulerConfig) (ops : List Op) (s : System) : Prop :=
  Run (fun s op s' => Op.Step s op s' ∧ s'.Occurring Occ) (System.new c) ops s

/-- Where `compute_hash` tells the prefixes that occur apart and is never `0`: in every reachable
state, and on every device at any point of a scheduling round from there, the map of a live sequence
describes its tokens, and an allocation for it takes exactly the blocks counted beforehand; no step
stops with a subtraction below zero or a block filled beyond its capacity. -/
theorem page_tables_hold (hinj : ∀ P P', Occ P → Occ P' → compute_hash P = compute_hash P' → P = P')
    (hzero : ∀ P, Occ P → compute_hash P ≠ 0) {ops : List Op} (h : OccRun Occ c ops s) :
    (∀ d m, Touched (keys (s.scheduler.waiting ++ s.scheduler.allocated))
        (s.scheduler.get_block_manager d) m →
      ∀ t ∈ s.tasks, ∀ seq ∈ t.seqs, ∀ map, m.get_block_map seq.seq_id = some map →
        m.block_size = c.block_size ∧ m.Describes seq map ∧
        ∀ r m', alloc_blocks seq m = .ok r m' →
          ∃ k taken, get_num_required_blocks seq m = .ok k m ∧ taken.length = k ∧
            m.block_allocator.free_block_ids = taken ++ m'.block_allocator.free_block_ids) ∧
    ∀ (op : Op) e s', op.exec s = .error e s' → e ≠ .subOverflow ∧ e ≠ .appendTokens := by
  have hR : TokenRel (· = ·) Occ := TokenRel.eq hinj
  obtain ⟨tok, hinv⟩ := SysInv.run (D := fun _ => True) hR (fun _ _ _ => hzero) h
  have hK := hinv.keys_queues
  refine ⟨fun d m hm t ht seq hseq map hmap => ?_, fun op e s' herr => ?_⟩
  · obtain ⟨htok, -, hocc⟩ := hinv.known ht hseq
    have hdev := hinv.devices d trivial
    have ho := hm.owned hR hK hdev.page
    exact ⟨ho.block_size.trans hdev.block_size, ho.page.describes htok hmap,
      fun r m' hrun => alloc_blocks_takes hR ho.page htok hocc hmap hrun⟩
  · by_cases hop : op = .schedule
    · subst hop
      rcases bind_error.1 herr with hsch | ⟨_, _, -, hret⟩
      · obtain ⟨σ, hσ, -⟩ := zoom_error.1 hsch
        have hstart : Scheduler.OnDevices (Near (· = ·) Occ (fun _ => True) c tok s.scheduler
            ((keys (s.scheduler.waiting ++ s.scheduler.allocated)).map Prod.fst) fun _ => [])
            s.scheduler := hinv.start
        exact (Scheduler.schedule_kept (kept_near hR hK)).of_error ⟨hstart,
          fun t ht seq hseq => key_mem_keys (List.mem_append_left _ ht) hseq,
          fun t ht seq hseq => key_mem_keys (List.mem_append_right _ ht) hseq⟩ hσ fun _ => trivial
      · cases hret
    · exact (exec_stops hop _ _ _ herr).1

/-- `Occurring`, for a list of prefixes, as a computation. -/
def occurring (prefixes : List (List Nat)) (s : System) : Bool :=
  s.tasks.all fun t => t.seqs.all fun seq =>
    (List.range (seq.token_ids.length + 1)).all fun k => prefixes.contains (seq.token_ids.take k)

omit [Hasher] in
theorem occurring_iff {prefixes : List (List Nat)} :
    s.occurring prefixes = true → s.Occurring (· ∈ prefixes) := by
  intro h t ht seq hseq k
  simp only [occurring, List.all_eq_true, List.contains_eq_mem, decide_eq_true_eq, List.mem_range] at h
  rcases Nat.le_total k seq.token_ids.length with hk | hk
  · exact h t ht seq hseq k (by omega)
  · rw [List.take_of_length_le hk, ← List.take_length (l := seq.token_ids)]
    exact h t ht seq hseq _ (by omega)

/-- A step after which only the listed prefixes occur. -/
def next_occurring (prefixes : List (List Nat)) (s : System) (op : Op) : Option System :=
  (Op.next s op).filter (occurring prefixes)

theorem occ_run_of_follow {prefixes : List (List Nat)} {ops : List Op} {p : System → Bool}
    (h : (Run.follow (next_occurring prefixes) (System.new c) ops).any p = true) :
    ∃ s, OccRun (· ∈ prefixes) c ops s ∧ p s = true := by
  refine Run.exists_of_follow (fun s op s' hs => ?_) h
  obtain ⟨hs, hocc⟩ := Option.filter_eq_some_iff.1 hs
  exact ⟨Op.step_of_next hs, occurring_iff hocc⟩

end

/-- Two prompts with a common first block. -/
def sharedConfig : SchedulerConfig := ⟨8, 64, 64, 2, Nat.two_pos, 8, 8, 8, false, Scheduler.defaultWatermark⟩

def sharedRun : List Op :=
  [.add_request ⟨0, [1, 2, 3], 1, none, false, false⟩ 0,
    .add_request ⟨1, [1, 2, 4], 1, none, false, false⟩ 1, .schedule]

def sharedPrefixes : List (List Nat) := [[], [1], [1, 2], [1, 2, 3], [1, 2, 4]]

theorem page_tables_hold_shared :
    let _ := decimalHasher
    ∃ s m, OccRun (· ∈ sharedPrefixes) sharedConfig sharedRun s ∧
      s.scheduler.gpu_block_manager.get_block_map 1 = some m ∧ m.block_ids = [0, 2] ∧
      m.block_ids.flatMap s.scheduler.gpu_block_manager.tokens = [1, 2, 4] := by
  intro _
  have hfollow : (Run.follow (next_occurring sharedPrefixes) (System.new sharedConfig) sharedRun).any
      (fun s => s.scheduler.gpu_block_manager.get_block_map 1 = some ⟨[0, 2], 3, 3⟩ ∧
        (s.tasks.flatMap (·.seqs)).any fun seq => seq.key = (1, [1, 2, 4])) = true := by
    decide +kernel
  obtain ⟨s, hrun, hs⟩ := occ_run_of_follow hfollow
  simp only [Bool.decide_and, Bool.and_eq_true, decide_eq_true_eq, List.any_eq_true,
    List.mem_flatMap] at hs
  obtain ⟨hmap, seq, ⟨t, ht, hseq⟩, hkey⟩ := hs
  obtain ⟨hid, htokens⟩ := Prod.mk.inj hkey
  have hinj : ∀ P ∈ sharedPrefixes, ∀ P' ∈ sharedPrefixes, compute_hash P = compute_hash P' → P = P' := by
    decide
  have hzero : ∀ P, P ∈ sharedPrefixes → compute_hash P ≠ 0 := by decide
  have hdescribes := (((page_tables_hold (fun P P' hP => hinj P hP P') hzero hrun).1 .Gpu _ (Touched.refl _ _) t ht seq hseq _
    (by rw [hid]; exact hmap)).2.1).content
  refine ⟨s, _, hrun, hmap, rfl, ?_⟩
  rw [htokens] at hdescribes
  exact hdescribes

end System

end LMServe
