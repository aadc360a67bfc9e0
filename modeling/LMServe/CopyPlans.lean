import LMServe.Admission
import LMServe.Handover
import LMServe.Reserving

/-!
# Staging and backup plans

`reserve_copy_blocks` counts the blocks to copy on the map of the source, and `reserve_blocks` counts them
once more on the tokens, with its own rounding. As long as the fill level of the source lies within its
blocks and the tokens, the counts agree, the free blocks asked for are the ones taken, and the two lists are
paired index by index.
-/

namespace LMServe
open Hoare Chunk BlockManager

namespace BlockManager

/-! ### What a region holds -/

section
variable [Hasher] {n r start : Nat} {T : List Nat} {m m' : BlockManager}

omit [Hasher] in
theorem RefInv.ready (h : m.RefInv n []) : m.Ready where
  nodup := h.count.free_nodup
  free b hb := by
    obtain ⟨hlt, hcnt⟩ := (h.count.mem_free b).1 hb
    refine ⟨_, BlockAllocator.getElem?_pool (by rw [h.count.pool_len]; exact hlt), (h.count.status_free b hlt).2 hcnt, ?_⟩
    rw [h.count.ref_eq b hlt, hcnt]
    exact Int.le_refl _

/-- Block `b` holds the full block of tokens at position `i`, and the hash of the prefix that ends with it. -/
structure Stores (m : BlockManager) (T : List Nat) (i b : Nat) : Prop where
  fits : (i + 1) * m.block_size ≤ T.length
  tokens : m.tokens b = slice T (i * m.block_size) ((i + 1) * m.block_size)
  hash : (m.get_block b).hash = compute_hash (T.take ((i + 1) * m.block_size))

theorem Stores.of_take {k i b : Nat} (h : m.Stores (T.take k) i b) : m.Stores T i b := by
  have hfits := h.fits
  rw [List.length_take] at hfits
  have hle := hfits.trans (Nat.min_le_left _ _)
  refine ⟨hfits.trans (Nat.min_le_right _ _), ?_, ?_⟩
  · rw [h.tokens, slice_take hle]
  · rw [h.hash, List.take_take, Nat.min_eq_left hle]

/-- The region returned has a block for each full block of tokens behind `start`. -/
theorem reserve_blocks_stores {region : BlockRegion} (h : m.RefInv n [])
    (hrun : reserve_blocks r T start m = .ok (some region) m') :
    region.block_ids.length = T.length / m.block_size - start / m.block_size ∧
      region.hashes.length = region.block_ids.length ∧ m'.block_size = m.block_size ∧
      ∀ (k b : Nat), region.block_ids[k]? = some b → m'.Stores T (start / m.block_size + k) b ∧
        region.hashes[k]? = some (m'.get_block b).hash := by
  have hsize : m'.block_size = m.block_size :=
    (BmOp.exec_block_size (.reserve_blocks r T start)).of_ok (Op.exec_discard hrun)
  obtain ⟨pairs, m₁, hloop, hrest⟩ := bind_ok.1 (get_ok hrun)
  obtain ⟨hlen, -⟩ := (reserve_loop_ends T _ h.ready).of_ok hloop
  rw [length_full_hashes m.block_size_pos T _ rfl] at hlen
  obtain ⟨hpairs, -, hwritten⟩ := reserve_loop_planned T _ h hloop
  split at hrest
  · cases hrest
  · obtain ⟨rfl, rfl⟩ : BlockRegion.mk r (pairs.map (·.1)) (pairs.map (·.2)) = region ∧ _ = m' := by
      simpa using modify_ok hrest
    refine ⟨by rw [List.length_map, hlen], by rw [List.length_map, List.length_map], hsize, fun k b hb => ?_⟩
    obtain ⟨p, hp, rfl⟩ := Option.map_eq_some_iff.1 ((List.getElem?_map ..).symm.trans hb)
    obtain ⟨-, hhash, off, hoff, hfits, htokens⟩ := hwritten k p hp
    obtain ⟨off', hoff', -, hp₂⟩ := full_hashes_getElem? _ (List.getElem?_zip_eq_some.1 (hpairs ▸ hp)).2
    obtain rfl : off = off' := Option.some.inj (hoff.symm.trans hoff')
    obtain rfl : off = (start / m.block_size + k) * m.block_size := by
      rw [step_by, List.getElem?_map] at hoff
      obtain ⟨_, hk, rfl⟩ := Option.map_eq_some_iff.1 hoff
      obtain ⟨_, rfl⟩ := List.getElem?_eq_some_iff.1 hk
      rw [List.getElem_range, Nat.add_mul]
    rw [Nat.min_eq_left hfits] at hp₂
    rw [← Nat.succ_mul, Nat.succ_eq_add_one] at hfits htokens hp₂
    have hbs : m₁.block_size = m.block_size := hsize
    refine ⟨⟨(Nat.le_of_eq (congrArg _ hbs)).trans hfits, htokens.trans ?_, (hhash.trans hp₂).trans ?_⟩, ?_⟩
    · exact congrArg (fun bs => slice T ((start / m.block_size + k) * bs) ((start / m.block_size + k + 1) * bs))
        hbs.symm
    · exact congrArg (fun bs => compute_hash (T.take ((start / m.block_size + k + 1) * bs))) hbs.symm
    rw [List.getElem?_map, hp]
    exact congrArg some hhash.symm

omit [Hasher] in
theorem get_block_ids_range_full {i stop : Nat} {ids : List Nat} {last : Nat}
    (hrange : m.get_block_ids_range i start stop false = some (ids, last)) :
    ∃ map, m.get_block_map i = some map ∧ start / m.block_size < stop / m.block_size ∧
      ids = slice map.block_ids (start / m.block_size) (min (stop / m.block_size) map.block_ids.length) := by
  unfold get_block_ids_range at hrange
  simp only [Bool.toNat_false, Nat.add_zero] at hrange
  split at hrange
  · cases hrange
  · rename_i hlt
    cases hmap : m.get_block_map i with
    | none => rw [hmap] at hrange; cases hrange
    | some map =>
      rw [hmap] at hrange
      dsimp only at hrange
      split at hrange
      · cases hrange
      · obtain ⟨rfl, -⟩ := Prod.mk.inj (Option.some.inj hrange)
        exact ⟨map, rfl, Nat.lt_of_not_le hlt, rfl⟩

end

end BlockManager

/-! ### Where the counts agree -/

/-- What the sequence has filled on a device lies within its blocks there, and within its tokens. -/
def BlockManager.CopySource (m : BlockManager) (seq : Sequence) : Prop :=
  ∀ map, m.get_block_map seq.seq_id = some map →
    map.filled_token_len ≤ map.block_ids.length * m.block_size ∧ map.filled_token_len ≤ seq.token_ids.length

section
variable [Hasher] {m m' : BlockManager} {seq : Sequence}

/-- A map that is looked up has full blocks of the tokens only. -/
theorem BlockManager.CopySource.init (h : m.CopySource seq) {found : Sequence} {a : Nat}
    (hsame : found.seq_id = seq.seq_id → found.token_ids = seq.token_ids)
    (hrun : BlockManager.init_prefix_cache_blocks found m = .ok a m') : m'.CopySource seq := by
  have hsize : m'.block_size = m.block_size :=
    (BmOp.exec_block_size (.init_prefix_cache_blocks found)).of_ok (Op.exec_discard hrun)
  replace hrun := get_ok hrun
  cases hm : m.get_block_map found.seq_id with
  | some b =>
    rw [hm] at hrun
    obtain ⟨-, rfl⟩ : _ ∧ m = m' := by simpa using hrun
    exact h
  | none =>
    rw [hm] at hrun
    obtain ⟨_, m₁, hretain, hrest⟩ := bind_ok.1 hrun
    have hmaps := (Keeps.maps (retain_all_tables _)).of_ok hretain
    obtain ⟨-, rfl⟩ : _ ∧ _ = m' := by simpa using modify_ok hrest
    intro map hmap
    rw [get_block_map_set_block_map] at hmap
    rw [hsize]
    split at hmap
    · rename_i hid
      obtain rfl := Option.some.inj hmap
      refine ⟨Nat.le_refl _, ?_⟩
      rw [← hsame hid.symm]
      rcases prefix_hits_fit m found.token_ids 0 found.token_ids.length with h0 | hle
      · rw [get_prefix_cache_blocks, h0]; simp
      · rw [get_prefix_cache_blocks]; simpa using hle
    · rw [congrFun hmaps] at hmap
      exact h map hmap

end

namespace Scheduler

/-- The plan `mapping` into `region` copies the blocks `src` has filled for `seq` beyond those filled on
`dst`, index by index; `σ` is the state before, `σ'` the state after the blocks are reserved. -/
structure BlockForBlock [Hasher] (σ : Scheduler) (seq : Sequence) (src dst : Device) (region : DeviceBlockRegion)
    (mapping : BlockMapping) (σ' : Scheduler) : Prop where
  device : region.device = dst
  num_entries : mapping.length = region.block_region.block_ids.length
  count : mapping.length =
    (σ.get_block_manager src).get_filled_token_len seq.seq_id / (σ.get_block_manager src).block_size -
      (σ.get_block_manager dst).get_filled_token_len seq.seq_id / (σ.get_block_manager src).block_size
  num_hashes : region.block_region.hashes.length = region.block_region.block_ids.length
  entries : ∀ (k : Nat) (e : BlockMappingEntry), mapping[k]? = some e → ∃ idx map,
    idx = (σ.get_block_manager dst).get_filled_token_len seq.seq_id / (σ.get_block_manager src).block_size + k ∧
    (σ.get_block_manager src).get_block_map seq.seq_id = some map ∧
    map.block_ids[idx]? = some e.src_block_id ∧ (idx + 1) * (σ.get_block_manager src).block_size ≤ map.filled_token_len ∧
    region.block_region.block_ids[k]? = some e.dst_block_id ∧
    (σ'.get_block_manager dst).Stores seq.token_ids idx e.dst_block_id ∧
    region.block_region.hashes[k]? = some ((σ'.get_block_manager dst).get_block e.dst_block_id).hash

/-- What comes of a call of `reserve_copy_blocks`. -/
def CopyPlanned [Hasher] (σ : Scheduler) (seq : Sequence) (src dst : Device)
    (plan : Option (DeviceBlockRegion × BlockMapping)) (σ' : Scheduler) : Prop :=
  match plan with
  | none => σ' = σ
  | some (region, mapping) => BlockForBlock σ seq src dst region mapping σ'

section
variable [Hasher] {σ : Scheduler} {seq : Sequence} {src dst : Device} {n : Nat}

/-- The call returns, and what it returns is a plan block for block or nothing. -/
theorem reserve_copy_blocks_ends (r : Nat) (hdst : (σ.get_block_manager dst).RefInv n [])
    (hsize : (σ.get_block_manager dst).block_size = (σ.get_block_manager src).block_size)
    (hsrc : (σ.get_block_manager src).CopySource seq) :
    Ends (reserve_copy_blocks r seq src dst) σ (CopyPlanned σ seq src dst) (fun _ _ => False) := by
  refine Ends.get_bind (Ends.ite (fun _ => Ends.pure rfl) fun hlt => ?_)
  cases hrange : (σ.get_block_manager src).get_block_ids_range seq.seq_id
      ((σ.get_block_manager dst).get_filled_token_len seq.seq_id)
      ((σ.get_block_manager src).get_filled_token_len seq.seq_id) false with
  | none => exact Ends.pure rfl
  | some range =>
    obtain ⟨src_block_ids, last⟩ := range
    refine Ends.ite (fun hcan => ?_) fun _ => Ends.pure rfl
    obtain ⟨map, hmap, hpos, rfl⟩ := get_block_ids_range_full hrange
    have hfilled : (σ.get_block_manager src).get_filled_token_len seq.seq_id = map.filled_token_len := by
      rw [get_filled_token_len, hmap]
    rw [hfilled] at hpos hcan ⊢
    obtain ⟨hblocks, htokens⟩ := hsrc map hmap
    -- both counts end with the last full block filled on the source
    have hstop : map.filled_token_len / (σ.get_block_manager src).block_size ≤ map.block_ids.length :=
      Nat.div_le_of_le_mul (by rw [Nat.mul_comm]; exact hblocks)
    rw [Nat.min_eq_left hstop] at hcan ⊢
    rw [length_slice, Nat.min_eq_left hstop, ← hsize] at hcan
    have hends := reserve_blocks_ends hdst.ready r (seq.token_ids.take map.filled_token_len)
      ((σ.get_block_manager dst).get_filled_token_len seq.seq_id)
    rw [List.length_take, Nat.min_eq_left htokens] at hends
    cases hrun : BlockManager.reserve_blocks r (seq.token_ids.take map.filled_token_len)
        ((σ.get_block_manager dst).get_filled_token_len seq.seq_id) (σ.get_block_manager dst) with
    | error e m => exact absurd (le_free_of_can_alloc hdst hcan) (Nat.not_le.2 (hends.of_error hrun).1)
    | ok region m =>
      refine Ends.bind (R := fun x σ' => x = region ∧ σ' = σ.set_block_manager dst m) ?_ ?_
      · exact Ends.run_ok (zoom_ok.2 ⟨m, hrun, rfl⟩) ⟨rfl, rfl⟩
      · rintro region' _ ⟨rfl, rfl⟩
        cases region' with
        | none =>
          have hnone := (hends.of_ok hrun).2.2.2.1 rfl
          rw [hsize] at hnone
          omega
        | some region =>
          obtain ⟨hlen, hhashes, -, hstores⟩ := reserve_blocks_stores hdst hrun
          rw [List.length_take, Nat.min_eq_left htokens, hsize] at hlen
          have hcount : (slice map.block_ids
              ((σ.get_block_manager dst).get_filled_token_len seq.seq_id / (σ.get_block_manager src).block_size)
              (map.filled_token_len / (σ.get_block_manager src).block_size)).length =
                region.block_ids.length := by
            rw [length_slice, Nat.min_eq_left hstop, hlen]
          have hzip : (List.zipWith BlockMappingEntry.mk (slice map.block_ids
              ((σ.get_block_manager dst).get_filled_token_len seq.seq_id / (σ.get_block_manager src).block_size)
              (map.filled_token_len / (σ.get_block_manager src).block_size)) region.block_ids).length =
                region.block_ids.length := by
            rw [List.length_zipWith, hcount, Nat.min_self]
          refine Ends.pure ⟨rfl, hzip, by rw [hzip, hlen, hfilled], hhashes, fun k e he => ?_⟩
          obtain ⟨a, b, ha, hb, rfl⟩ := List.getElem?_zipWith_eq_some.1 he
          obtain ⟨hkept, hhash⟩ := hstores k b hb
          rw [getElem?_slice] at ha
          split at ha
          · rename_i hidx
            rw [hsize] at hkept
            rw [get_set_block_manager, if_pos rfl]
            refine ⟨_, map, rfl, hmap, ha, ?_, hb, hkept.of_take, hhash⟩
            exact (Nat.mul_le_mul_right _ hidx).trans (Nat.div_mul_le_self _ _)
          · cases ha

end

end Scheduler

namespace System

/-- The scheduler is about to call `reserve_copy_blocks`: to stage the head sequence of a new task, after
the two lookups of its prefix, or to back up that of a finished task. -/
inductive PlansCopy [Hasher] (s : System) : Sequence → Device → Device → Scheduler → Prop where
  | stage {request : GenerateRequest} {arrival : Nat} {σ σ' : Scheduler} {head_seq : Sequence}
      (looked_up : Scheduler.init_prefix_cache_blocks (request.to_task s.next_seq_id arrival) [.Host, .Disk]
        s.scheduler = .ok .unit σ)
      (again : Scheduler.init_prefix_cache_blocks (request.to_task s.next_seq_id arrival) [.Host, .Disk] σ =
        .ok .unit σ')
      (head : (request.to_task s.next_seq_id arrival).get_head_seq = some head_seq) :
      PlansCopy s head_seq .Disk .Host σ'
  | backup {t : InferTask} {head_finished_seq : Sequence} (finished : t ∈ s.finished)
      (head : (t.get_seqs .Finished).head? = some head_finished_seq) :
      PlansCopy s head_finished_seq .Host .Disk s.scheduler

section
variable [Hasher] {c : SchedulerConfig} {Occ : List Nat → Prop} {s : System}

/-- What the calls rely on, on each device. -/
def CopyReady (c : SchedulerConfig) (seqs : List Sequence) (d : Device) (m : BlockManager) : Prop :=
  m.RefInv (c.num_blocks d) [] ∧ m.block_size = c.block_size ∧ ∀ seq ∈ seqs, m.CopySource seq

omit [Hasher] in
theorem token_ids_to_task {request : GenerateRequest} {first arrival : Nat} {seq : Sequence}
    (hseq : seq ∈ (request.to_task first arrival).seqs) : seq.token_ids = request.input_ids := by
  obtain ⟨k, -, rfl⟩ := List.mem_map.1 hseq
  rfl

theorem copyReady_of_run {ops : List Op} (hrun : Run Op.Step (System.new c) ops s) (d : Device) :
    CopyReady c [] d (s.scheduler.get_block_manager d) := by
  obtain ⟨bm_ops, hreached⟩ := manager_reached hrun d
  exact ⟨BmOp.run_refInv hreached, block_size_of_run hrun d, nofun⟩

theorem init_prefix_cache_blocks_copyReady {t : InferTask}
    (hsame : ∀ seq ∈ t.seqs, ∀ seq' ∈ t.seqs, seq.token_ids = seq'.token_ids) (devices : List Device) :
    Triple (Scheduler.OnDevices (CopyReady c t.seqs)) (Scheduler.init_prefix_cache_blocks t devices)
      (fun _ => Scheduler.OnDevices (CopyReady c t.seqs)) AnyError := by
  refine Scheduler.init_prefix_cache_blocks_triple fun found hfound d m hm => ?_
  cases hrun : BlockManager.init_prefix_cache_blocks found m with
  | error e m' => trivial
  | ok a m' =>
    have hexec := Op.exec_discard hrun
    refine ⟨(BmOp.exec_refInv (.init_prefix_cache_blocks found)).of_ok ⟨hm.1, trivial⟩ hexec, ?_, fun seq hseq => ?_⟩
    · exact ((BmOp.exec_block_size (.init_prefix_cache_blocks found)).of_ok hexec).trans hm.2.1
    · exact (hm.2.2 seq hseq).init (fun _ => hsame found hfound seq hseq) hrun

/-- See the module doc. Where the host is the source, a hash must not be `0`, the mark of a block without
one: an entry under `0` would fit every cleared block. -/
theorem copy_plans_match {ops : List Op} (h : OccRun Occ c ops s) {seq : Sequence} {src dst : Device}
    (hzero : src = .Host → ∀ P, Occ P → compute_hash P ≠ 0) {σ : Scheduler} (hplans : s.PlansCopy seq src dst σ)
    (region_id : Nat) : Ends (Scheduler.reserve_copy_blocks region_id seq src dst) σ
      (Scheduler.CopyPlanned σ seq src dst) (fun _ _ => False) := by
  have hrun : Run Op.Step (System.new c) ops s := h.mono fun _ _ _ hstep => hstep.1
  have hready := copyReady_of_run hrun
  cases hplans with
  | @stage request arrival _ _ _ hinit hagain hhead =>
    have htask : seq ∈ (request.to_task s.next_seq_id arrival).seqs :=
      (List.mem_filter.1 (List.mem_of_mem_head? hhead)).1
    have hstart : Scheduler.OnDevices (CopyReady c (request.to_task s.next_seq_id arrival).seqs) s.scheduler :=
      fun d => ⟨(hready d).1, (hready d).2.1, fun found hfound map hmap => by
        rw [unmapped_of_run hrun ?_ d] at hmap
        · cases hmap
        · have hid : found.seq_id ∈ (request.to_task s.next_seq_id arrival).ids := List.mem_map.2 ⟨_, hfound, rfl⟩
          rw [Lifecycle.ids_to_task] at hid
          obtain ⟨j, -, hj⟩ := List.mem_map.1 hid
          omega⟩
    have hlook : Triple _ (Scheduler.init_prefix_cache_blocks (request.to_task s.next_seq_id arrival) [.Host, .Disk])
        _ _ := init_prefix_cache_blocks_copyReady (c := c)
      (fun a ha b hb => (token_ids_to_task ha).trans (token_ids_to_task hb).symm) _
    have hend := hlook.of_ok (hlook.of_ok hstart hinit) hagain
    exact Scheduler.reserve_copy_blocks_ends region_id (hend .Host).1
      ((hend .Host).2.1.trans (hend .Disk).2.1.symm) ((hend .Disk).2.2 seq htask)
  | @backup t _ hfin hhead =>
    refine Scheduler.reserve_copy_blocks_ends region_id (hready .Disk).1
      ((hready .Disk).2.1.trans (hready .Host).2.1.symm) fun map hmap => ?_
    obtain ⟨tok, hinv⟩ := SysInv.run (D := (· = .Host)) (TokenRel.lengths Occ)
      (fun d hd _ => hzero rfl) h
    have hmem : seq ∈ t.seqs := (List.mem_filter.1 (List.mem_of_mem_head? hhead)).1
    have htok := (hinv.known (List.mem_append_right _ hfin) hmem).1
    have hpage := (hinv.devices .Host rfl).page.maps seq.seq_id map (by simp) hmap
    rw [htok] at hpage
    refine ⟨hpage.filled_le.trans ?_, hpage.filled_le.trans hpage.slots_le⟩
    rw [hpage.len]
    exact le_div_ceil_mul (BlockManager.block_size_pos _)

end

theorem decimalHasher_ne_zero (P : List Nat) : decimalHasher.compute_hash P ≠ 0 := by
  have hpos : ∀ (l : List Nat) (h : Nat), 0 < h → 0 < l.foldl (fun h t => 10 * h + t) h := fun l => by
    induction l with
    | nil => exact fun _ hh => hh
    | cons t l ih => exact fun h hh => ih _ (Nat.add_pos_left (Nat.mul_pos (by decide) hh) t)
  exact Nat.ne_of_gt (hpos P 1 Nat.one_pos)

/-- Three tokens in blocks of one, written through to the host, and a request that ends with its first output. -/
def finishedConfig : SchedulerConfig := ⟨4, 64, 16, 1, Nat.one_pos, 8, 8, 8, false, Scheduler.defaultWatermark⟩

def finishedRun : List Op :=
  [.add_request ⟨0, [1, 2, 3], 1, some 1, false, false⟩ 0, .schedule,
    .update ((∅ : Table InferOutput).insert 0 ⟨4, 1, "", false⟩) 1]

/-- Its backup copies the three blocks. -/
theorem copy_plans_match_finished :
    let _ := decimalHasher
    ∃ s seq plan σ', Reachable finishedConfig s ∧ s.PlansCopy seq .Host .Disk s.scheduler ∧
      Scheduler.reserve_copy_blocks 0 seq .Host .Disk s.scheduler = .ok (some plan) σ' ∧ plan.2.length = 3 ∧
      Scheduler.BlockForBlock s.scheduler seq .Host .Disk plan.1 plan.2 σ' := by
  let _ := decimalHasher
  have hfollow : (Run.follow Op.next (System.new finishedConfig) finishedRun).any (fun s =>
      s.finished.any fun t => ((t.get_seqs .Finished).head?).any fun seq =>
        match Scheduler.reserve_copy_blocks 0 seq .Host .Disk s.scheduler with
        | .ok plan _ => plan.any fun plan => plan.2.length = 3
        | .error _ _ => false) = true := by
    decide +kernel
  obtain ⟨s, hrun, hs⟩ := Run.exists_of_follow (fun _ _ _ => Op.step_of_next) hfollow
  obtain ⟨t, ht, hs⟩ := List.any_eq_true.1 hs
  obtain ⟨seq, hhead, hs⟩ := (Option.any_eq_true _ _).1 hs
  have hocc : OccRun AnyPrefix finishedConfig finishedRun s :=
    hrun.mono fun _ _ _ hstep => ⟨hstep, fun _ _ _ _ _ => trivial⟩
  have hplans : s.PlansCopy seq .Host .Disk s.scheduler := .backup ht hhead
  have hends := copy_plans_match hocc (fun _ P _ => decimalHasher_ne_zero P) hplans 0
  cases hcall : Scheduler.reserve_copy_blocks 0 seq .Host .Disk s.scheduler with
  | error e σ' => exact (hends.of_error hcall).elim
  | ok plan σ' =>
    rw [hcall] at hs
    obtain ⟨plan, rfl, hlen⟩ := (Option.any_eq_true _ _).1 hs
    exact ⟨s, seq, plan, σ', ⟨_, hrun⟩, hplans, hcall, of_decide_eq_true hlen, hends.of_ok hcall⟩

end System

end LMServe
