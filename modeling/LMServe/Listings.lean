import LMServe.Counted
import LMServe.Frames
import LMServe.Reclaim

/-!
# What copies read and write

A copy plan reads blocks that the map of a sequence lists; a batch writes blocks that the map of the same
sequence lists on the other device, the background thread those of a region. Only freeing the sequence takes a
block out of its map, and only a scheduling round and the removal of a task free sequences.
-/

namespace LMServe
open Hoare Chunk
open Scheduler (Batch)

/-! ### What a sequence keeps -/

namespace BlockManager

section
variable {m m' : BlockManager} {i b : Nat}

theorem mem_blocks_of : b ∈ m.blocks_of i ↔ ∃ map, m.get_block_map i = some map ∧ b ∈ map.block_ids := by
  unfold blocks_of
  cases m.get_block_map i <;> simp

theorem blocks_of_congr (h : m'.get_block_map = m.get_block_map) : m'.blocks_of = m.blocks_of := by
  funext i; unfold blocks_of; rw [h]

theorem blocks_of_set (m : BlockManager) (j i : Nat) (map : BlockMap) :
    (m.set_block_map j map).blocks_of i = if i = j then map.block_ids else m.blocks_of i := by
  unfold blocks_of
  rw [get_block_map_set]
  by_cases hij : i = j
  · simp [hij]
  · simp [hij]

theorem refs_pos_of_blocks_of (h : b ∈ m.blocks_of i) : 0 < m.refs b := by
  obtain ⟨map, hmap, hmem⟩ := mem_blocks_of.1 h
  exact refs_pos_of_mem hmap hmem

theorem lists_of_keeps {α : Type} {x : BM α} (h : Keeps BlockManager.get_block_map x) :
    Preserves (fun m => b ∈ m.blocks_of i) x :=
  h.preserves fun _ _ heq hb => by rw [blocks_of_congr heq]; exact hb

theorem retain_all_lists (ids : List Nat) :
    Keeps BlockManager.get_block_map (forM ids fun b => on_allocator (BlockAllocator.alloc_block_by_id b)) :=
  Keeps.maps (retain_all_tables ids)

section
variable [Hasher]

theorem init_prefix_cache_blocks_lists (seq : Sequence) :
    Preserves (fun m => b ∈ m.blocks_of i) (init_prefix_cache_blocks seq) := by
  refine Preserves.of_ends fun m hb => Ends.get_bind ?_
  cases hmap : m.get_block_map seq.seq_id with
  | some map => exact Ends.pure hb
  | none =>
    refine Ends.bind ((retain_all_lists _).ends m |>.conseq (fun _ _ h => h) fun _ m' h => ?_) fun _ m₁ h₁ => ?_
    · rw [blocks_of_congr h]; exact hb
    · refine Ends.modify_bind (Ends.pure ?_)
      rw [blocks_of_set]
      split
      · rename_i hi
        rw [mem_blocks_of, hi, hmap] at hb
        simp at hb
      · rw [blocks_of_congr h₁]; exact hb

theorem update_prefix_cache_blocks_lists (seq : Sequence) :
    Preserves (fun m => b ∈ m.blocks_of i) (update_prefix_cache_blocks seq) := by
  refine Preserves.of_ends fun m hb => Ends.get_bind ?_
  cases hmap : m.get_block_map seq.seq_id with
  | none => exact (init_prefix_cache_blocks_lists seq).ends hb
  | some map =>
    refine Ends.bind ((get_prefix_cache_blocks_range_keeps BlockManager.get_block_map _ _ _).ends m |>.conseq
      (fun _ _ h => h) fun _ m' h => ?_) fun ids m₁ h₁ => ?_
    · rw [blocks_of_congr h]; exact hb
    refine Ends.bind ((retain_all_lists _).ends m₁ |>.conseq (fun _ _ h => h.trans h₁) fun _ m' h => ?_)
      fun _ m₂ h₂ => ?_
    · rw [blocks_of_congr (h.trans h₁)]; exact hb
    · refine Ends.modify_bind (Ends.pure ?_)
      rw [blocks_of_set]
      split
      · rename_i hi
        obtain ⟨map', hmap', hmem⟩ := mem_blocks_of.1 hb
        obtain rfl : map = map' := Option.some.inj (hmap.symm.trans (hi ▸ hmap'))
        exact List.mem_append_left _ hmem
      · rw [blocks_of_congr h₂]; exact hb

/-- A block stays in a sequence's map as long as nobody frees the sequence. -/
theorem handlerLasting_lists (i b : Nat) : HandlerLasting fun m => b ∈ m.blocks_of i where
  init_prefix_cache_blocks := init_prefix_cache_blocks_lists
  update_prefix_cache_blocks := update_prefix_cache_blocks_lists
  reserve_blocks r T start := lists_of_keeps (reserve_blocks_maps r T start)
  activate_reserved_blocks r hash_values := lists_of_keeps (activate_reserved_blocks_maps r hash_values)
  pin_blocks_by_hashes r hash_values := lists_of_keeps (pin_blocks_by_hashes_maps r hash_values)
  unpin_blocks r := lists_of_keeps (unpin_blocks_maps r)
  clear_cache := lists_of_keeps clear_cache_maps

end

theorem update_filled_len_lists (j len : Nat) : Preserves (fun m => b ∈ m.blocks_of i) (update_filled_len j len) := by
  refine Preserves.of_ends fun m hb => Ends.get_bind ?_
  cases hmap : m.get_block_map j with
  | none => exact Ends.pure hb
  | some map =>
    refine Ends.ite (fun _ => Ends.modify ?_) fun _ => Ends.throw hb
    rw [blocks_of_set]
    split
    · rename_i hi
      obtain ⟨map', hmap', hmem⟩ := mem_blocks_of.1 hb
      obtain rfl : map = map' := Option.some.inj (hmap.symm.trans (hi ▸ hmap'))
      exact hmem
    · exact hb

theorem blocks_of_erase (m : BlockManager) {i j : Nat} (hij : i ≠ j) :
    blocks_of { m with seq_block_mapping_table := m.seq_block_mapping_table.erase j } i = m.blocks_of i := by
  unfold blocks_of
  rw [get_block_map_erase]
  simp [hij]

theorem free_lists {j : Nat} (hij : i ≠ j) : Preserves (fun m => b ∈ m.blocks_of i) (free j) := by
  refine Preserves.of_ends fun m hb => Ends.get_bind ?_
  cases m.get_block_map j with
  | none => exact Ends.pure hb
  | some map =>
    refine Ends.modify_bind ((lists_of_keeps (Keeps.maps (free_loop_tables _ _ _))).ends ?_)
    rw [blocks_of_erase m hij]; exact hb

theorem free_and_drop_cache_lists {j : Nat} (hij : i ≠ j) :
    Preserves (fun m => b ∈ m.blocks_of i) (free_and_drop_cache j) := by
  refine Preserves.of_ends fun m hb => Ends.get_bind ?_
  cases m.get_block_map j with
  | none => exact Ends.pure hb
  | some map =>
    refine Ends.modify_bind ((lists_of_keeps (Keeps.maps (release_and_drop_tables _))).ends ?_)
    rw [blocks_of_erase m hij]; exact hb

theorem get_block_ids_range_lists {start stop : Nat} {partial_block : Bool} {ids : List Nat} {last : Nat}
    (h : m.get_block_ids_range i start stop partial_block = some (ids, last)) : ∀ b ∈ ids, b ∈ m.blocks_of i := by
  unfold get_block_ids_range at h
  dsimp only at h
  split at h
  · cases h
  · split at h
    · cases h
    · rename_i map hmap
      split at h
      · cases h
      · obtain ⟨rfl, -⟩ := Prod.mk.inj (Option.some.inj h)
        exact fun b hb => mem_blocks_of.2 ⟨map, hmap, List.mem_of_mem_take (List.mem_of_mem_drop hb)⟩

end

end BlockManager

/-! ### The sections of the scheduler -/

theorem mem_zipWith_mk {src dst : List Nat} {entry : BlockMappingEntry} (h : entry ∈ src.zipWith BlockMappingEntry.mk dst) :
    entry.src_block_id ∈ src ∧ entry.dst_block_id ∈ dst := by
  obtain ⟨k, hk⟩ := List.mem_iff_getElem?.1 h
  obtain ⟨x, y, hx, hy, rfl⟩ := List.getElem?_zipWith_eq_some.1 hk
  exact ⟨List.mem_of_getElem? hx, List.mem_of_getElem? hy⟩

namespace Scheduler
open BlockManager (get_ok)

/-- The map of the sequence lists the block. -/
def Lists (d : Device) (i b : Nat) (s : Scheduler) : Prop := b ∈ (s.get_block_manager d).blocks_of i

section
variable {i b : Nat} {d : Device} {s : Scheduler}

theorem onManagers_lists : s.OnManagers (fun d' m => d' = d → b ∈ m.blocks_of i) ↔ s.Lists d i b :=
  ⟨fun h => h d rfl, fun h _ hd => hd ▸ h⟩

theorem lists_of_managers {α : Type} {x : SM α}
    (h : Preserves (OnManagers fun d' m => d' = d → b ∈ m.blocks_of i) x) : Preserves (Lists d i b) x :=
  Preserves.of_ends fun _ hs => (h.ends (onManagers_lists.2 hs)).conseq (fun _ _ h => onManagers_lists.1 h)
    fun _ _ h => onManagers_lists.1 h

theorem remove_task_lists {t : InferTask} (hi : i ∉ t.ids) : Preserves (Lists d i b) (remove_task t) := by
  refine lists_of_managers (Lowers.forM fun seq hseq => Lowers.forM fun d' _ => on_device_lasts d' ?_)
  have hne : i ≠ seq.seq_id := fun h => hi (List.mem_map.2 ⟨seq, (List.mem_filter.1 hseq).1, h.symm⟩)
  exact Preserves.imp (Lowers.ite (BlockManager.free_and_drop_cache_lists hne) (BlockManager.free_lists hne)) _

/-- A scheduling round takes nothing from the disk. -/
theorem schedule_lists [Hasher] : Preserves (Lists .Disk i b) schedule :=
  lists_of_managers (schedule_lasts fun _ hd => .of_forall fun _ h => absurd h hd)

theorem update_filled_len_lists (d' : Device) (j len : Nat) :
    Preserves (Lists d i b) (on_device d' (BlockManager.update_filled_len j len)) :=
  lists_of_managers (on_device_lasts d' ((BlockManager.update_filled_len_lists j len).imp _))

theorem lists_of_handler [Hasher] {α : Type} {x : SM α}
    (h : ∀ {P : Device → BlockManager → Prop}, (∀ d, BlockManager.HandlerLasting (P d)) → Preserves (OnManagers P) x) :
    Preserves (Lists d i b) x :=
  lists_of_managers (h fun _ => (BlockManager.handlerLasting_lists i b).imp _)

end

/-- A copy from blocks that the map of a sequence lists to blocks of a region. -/
structure Secured (src dst : Device) (i : Nat) (region : DeviceBlockRegion) (mapping : BlockMapping) (s : Scheduler) :
    Prop where
  device : region.device = dst
  lookup : (s.regions dst).lookup region.block_region.id = some region.block_region.block_ids
  sources : ∀ entry ∈ mapping, s.Lists src i entry.src_block_id
  targets : ∀ entry ∈ mapping, entry.dst_block_id ∈ region.block_region.block_ids

section
variable [Hasher] {r : Nat} {s s' : Scheduler} {region : DeviceBlockRegion} {mapping : BlockMapping}

theorem reserve_copy_blocks_secured {seq : Sequence} {src dst : Device}
    (h : reserve_copy_blocks r seq src dst s = .ok (some (region, mapping)) s') :
    region.block_region.id = r ∧ Secured src dst seq.seq_id region mapping s' := by
  have hlists : ∀ b, s.Lists src seq.seq_id b → s'.Lists src seq.seq_id b := fun b =>
    (lists_of_handler fun hP => reserve_copy_blocks_lasts hP r seq src dst).of_ok h
  replace h := get_ok h
  split at h
  · cases h
  · cases hrange : (s.get_block_manager src).get_block_ids_range seq.seq_id
        ((s.get_block_manager dst).get_filled_token_len seq.seq_id)
        ((s.get_block_manager src).get_filled_token_len seq.seq_id) false with
    | none => simp only [hrange] at h; cases h
    | some found =>
      simp only [hrange] at h
      split at h
      · obtain ⟨region', s₁, hres, h⟩ := bind_ok.1 h
        obtain ⟨⟨x, rfl, rfl, rfl⟩, rfl⟩ : (∃ x, region' = some x ∧ ⟨dst, x⟩ = region ∧
            found.1.zipWith BlockMappingEntry.mk x.block_ids = mapping) ∧ s₁ = s' := by simpa using h
        obtain ⟨m, hm, rfl⟩ := zoom_ok.1 hres
        obtain ⟨hid, htable⟩ := (BlockManager.reserve_blocks_regions r _ _ _).of_ok hm
        refine ⟨hid, rfl, ?_, fun entry hentry => hlists _ ?_, fun entry hentry => (mem_zipWith_mk hentry).2⟩
        · rw [regions_set_block_manager, Function.update_self, htable, hid]
          exact AList.lookup_insert _
        · exact BlockManager.get_block_ids_range_lists hrange _ (mem_zipWith_mk hentry).1
      · cases h

theorem plan_stage_secured {t : InferTask} (h : plan_stage r t s = .ok (some (region, mapping)) s') :
    region.block_region.id = r ∧ ∃ i ∈ t.ids, Secured .Disk .Host i region mapping s' := by
  obtain ⟨_, s₁, -, h⟩ := bind_ok.1 h
  replace h := get_ok h
  cases hhead : t.get_head_seq with
  | none => simp only [hhead] at h; cases h
  | some head =>
    simp only [hhead] at h
    split at h
    · cases h
    · obtain ⟨hid, hplan⟩ := reserve_copy_blocks_secured h
      have hmem : head ∈ t.seqs := (List.mem_filter.1 (List.mem_of_mem_head? hhead)).1
      exact ⟨hid, head.seq_id, List.mem_map_of_mem hmem, hplan⟩

theorem backup_secured {t : InferTask} (h : backup r t s = .ok (some (region, mapping)) s') :
    region.block_region.id = r ∧ ∃ i, Secured .Host .Disk i region mapping s' := by
  unfold backup at h
  cases hhead : (t.get_seqs .Finished).head? with
  | none => simp only [hhead] at h; cases h
  | some head =>
    simp only [hhead] at h
    obtain ⟨hid, hplan⟩ := reserve_copy_blocks_secured h
    exact ⟨hid, _, hplan⟩

theorem reserve_blocks_granted {t : InferTask} {d : Device} (h : reserve_blocks r t d s = .ok (some region) s') :
    region.device = d ∧ region.block_region.id = r ∧
      (s'.regions d).lookup r = some region.block_region.block_ids := by
  unfold reserve_blocks at h
  cases hhead : t.get_head_seq with
  | none => simp only [hhead] at h; cases h
  | some head =>
    simp only [hhead] at h
    obtain ⟨region', s₁, hres, h⟩ := bind_ok.1 (get_ok h)
    obtain ⟨hregion, rfl⟩ : region'.map _ = some region ∧ s₁ = s' := by simpa using h
    obtain ⟨x, rfl, rfl⟩ := Option.map_eq_some_iff.1 hregion
    obtain ⟨m, hm, rfl⟩ := zoom_ok.1 hres
    obtain ⟨hid, htable⟩ := (BlockManager.reserve_blocks_regions r _ _ _).of_ok hm
    refine ⟨rfl, hid, ?_⟩
    rw [regions_set_block_manager, Function.update_self, htable]
    exact AList.lookup_insert _

omit [Hasher] in
theorem pin_blocks_granted {hash_values : List Nat} {d : Device} (h : pin_blocks r hash_values d s = .ok region s') :
    region.device = d ∧ region.block_region.id = r ∧
      (s'.regions d).lookup r = some region.block_region.block_ids := by
  obtain ⟨x, s₁, hpin, h⟩ := bind_ok.1 h
  obtain ⟨rfl, rfl⟩ : _ = region ∧ s₁ = s' := by simpa using h
  obtain ⟨m, hm, rfl⟩ := zoom_ok.1 hpin
  obtain ⟨hid, htable⟩ := (BlockManager.pin_blocks_by_hashes_regions r hash_values _).of_ok hm
  refine ⟨rfl, hid, ?_⟩
  rw [regions_set_block_manager, Function.update_self, htable]
  exact AList.lookup_insert _

/-- A trigger leaves the regions alone except for the one it names. -/
theorem trigger_pend_task_region {session_id : Nat} {region_id : Option Nat} {hash_values : List Nat} {d : Device}
    {ids : List Nat} (hr : ¬ (d = .Host ∧ region_id = some r)) :
    Preserves (fun s => (s.regions d).lookup r = some ids) (trigger_pend_task session_id region_id hash_values) := by
  refine Lowers.get.bind fun s => ?_
  split
  · exact Lowers.throw _
  · refine Lowers.bind (Preserves.modify fun s h => h) fun _ => Lowers.bind ?_ fun _ => ?_
    · unfold activate_region
      split
      · rename_i r'
        refine Preserves.of_ends fun s h => ?_
        have hkeep : ∀ s', Releases .Host r' s s' → (s'.regions d).lookup r = some ids := fun s' hs' => by
          rw [hs'.regions, Function.update_apply]
          split
          · rename_i hd
            have hne : r ≠ r' := fun hrr => hr ⟨hd, by rw [hrr]⟩
            rw [Table.lookup_erase_eq, if_neg hne, ← hd]; exact h
          · exact h
        exact (release_on_device .Host r' (Ends.bind (BlockManager.activate_reserved_blocks_regions _ _ _)
          fun _ _ h => Ends.pure h)).conseq (fun _ s' h => hkeep s' h) fun _ s' h => hkeep s' h
      · exact Lowers.pure _
    · split
      · exact Lowers.throw _
      · refine Lowers.bind ((on_device_holdings .Host (discard_regions
          (BlockManager.update_prefix_cache_blocks_regions _))).preserves fun s s' heq h => ?_) fun _ =>
          Preserves.modify fun s h => h
        rw [(holdings_eq heq).2]; exact h

end

/-! #### The copies of a batch -/

/-- The maps of one sequence list what the mapping copies between. -/
def Listed (src dst : Device) (s : Scheduler) (mapping : BlockMapping) : Prop :=
  ∀ entry ∈ mapping, ∃ i, s.Lists src i entry.src_block_id ∧ s.Lists dst i entry.dst_block_id

/-- The maps list what the batch copies, reads and writes. -/
structure Batch.Listed (batch : Batch) (s : Scheduler) : Prop where
  fetched : ∀ mapping ∈ batch.fetch_block_mappings, s.Listed .Host .Gpu mapping
  written : ∀ mapping ∈ batch.write_through_block_mappings, s.Listed .Gpu .Host mapping
  inputs : ∀ input ∈ batch.infer_inputs, ∀ b ∈ input.block_ids, s.Lists .Gpu input.seq_id b

section
variable {src dst : Device} {s s' : Scheduler}

theorem Listed.mono {mapping : BlockMapping} (h : s.Listed src dst mapping)
    (hkeep : ∀ d i b, s.Lists d i b → s'.Lists d i b) : s'.Listed src dst mapping := fun entry hentry => by
  obtain ⟨i, hsrc, hdst⟩ := h entry hentry
  exact ⟨i, hkeep _ _ _ hsrc, hkeep _ _ _ hdst⟩

theorem Batch.Listed.mono {batch : Batch} (h : batch.Listed s) (hkeep : ∀ d i b, s.Lists d i b → s'.Lists d i b) :
    batch.Listed s' where
  fetched mapping hm := (h.fetched mapping hm).mono hkeep
  written mapping hm := (h.written mapping hm).mono hkeep
  inputs input hinput b hb := hkeep _ _ _ (h.inputs input hinput b hb)

theorem copy_blocks_listed {seq : Sequence} {p : Bool} {mapping : BlockMapping} {filled : Nat}
    (h : s.copy_blocks seq src dst p = some (mapping, filled)) : s.Listed src dst mapping := by
  unfold copy_blocks at h
  dsimp only at h
  split at h
  · split at h
    · rename_i hsrc hdst
      obtain ⟨rfl, -⟩ := Prod.mk.inj (Option.some.inj h)
      refine fun entry hentry => ⟨seq.seq_id, ?_, ?_⟩
      · exact BlockManager.get_block_ids_range_lists hsrc _ (mem_zipWith_mk hentry).1
      · exact BlockManager.get_block_ids_range_lists hdst _ (mem_zipWith_mk hentry).2
    · cases h
  · cases h

/-- A plan joins the list, and what was planned before stays listed. -/
theorem plan_copy_listed {seq : Sequence} {p : Bool} {mappings mappings' : List BlockMapping}
    (h : plan_copy seq src dst p mappings s = .ok mappings' s') :
    (∀ d i b, s.Lists d i b → s'.Lists d i b) ∧
      ((∀ mapping ∈ mappings, s.Listed src dst mapping) → ∀ mapping ∈ mappings', s'.Listed src dst mapping) := by
  replace h := BlockManager.get_ok h
  cases hcopy : s.copy_blocks seq src dst p with
  | none =>
    simp only [hcopy] at h
    cases h
    exact ⟨fun _ _ _ h => h, fun h => h⟩
  | some plan =>
    obtain ⟨mapping, filled⟩ := plan
    simp only [hcopy] at h
    obtain ⟨_, s₁, hupd, h⟩ := bind_ok.1 h
    obtain ⟨rfl, rfl⟩ : mappings ++ [mapping] = mappings' ∧ s₁ = s' := by simpa using h
    have hkeep : ∀ d i b, s.Lists d i b → s₁.Lists d i b := fun d i b =>
      (update_filled_len_lists dst seq.seq_id filled).of_ok hupd
    refine ⟨hkeep, fun hold m hm => ?_⟩
    rcases List.mem_append.1 hm with hm | hm
    · exact (hold m hm).mono hkeep
    · rw [List.mem_singleton.1 hm]; exact (copy_blocks_listed hcopy).mono hkeep

theorem dispatch_input_listed {seq : Sequence} {acc acc' : Batch} (h : dispatch_input seq acc s = .ok acc' s')
    (hacc : acc.Listed s) : acc'.Listed s' := by
  rcases dispatch_input_ok h with ⟨rfl, rfl, -⟩ | ⟨ids, k, s₁, write_through, -, hids, hupd, hplan, rfl⟩
  · exact hacc
  · have hkeep : ∀ d i b, s.Lists d i b → s₁.Lists d i b := fun d i b =>
      (update_filled_len_lists .Gpu seq.seq_id _).of_ok hupd
    obtain ⟨hkeep', hmapped⟩ := plan_copy_listed hplan
    have hall : acc.Listed s' := hacc.mono fun d i b hb => hkeep' d i b (hkeep d i b hb)
    refine ⟨hall.fetched, hmapped fun m hm => (hacc.written m hm).mono hkeep, fun input hinput b hb => ?_⟩
    rcases List.mem_append.1 hinput with hinput | hinput
    · exact hall.inputs input hinput b hb
    · obtain rfl := List.mem_singleton.1 hinput
      have hlists : s.Lists .Gpu seq.seq_id b := BlockManager.get_block_ids_range_lists hids b hb
      exact hkeep' _ _ _ (hkeep _ _ _ hlists)

theorem dispatch_loop_listed (seqs : List Sequence) : ∀ {acc acc' : Batch} {s s' : Scheduler},
    dispatch_loop seqs acc s = .ok acc' s' → acc.Listed s → acc'.Listed s' := by
  induction seqs with
  | nil => intro acc acc' s s' h hacc; cases h; exact hacc
  | cons seq seqs ih =>
    intro acc acc' s s' h hacc
    replace h := BlockManager.get_ok h
    split at h
    · cases h; exact hacc
    · obtain ⟨fetch, s₁, hplan, h⟩ := bind_ok.1 h
      obtain ⟨acc₂, s₂, hinput, h⟩ := bind_ok.1 h
      obtain ⟨hkeep, hmapped⟩ := plan_copy_listed hplan
      have hacc₁ := hacc.mono hkeep
      exact ih h (dispatch_input_listed hinput ⟨hmapped hacc.fetched, hacc₁.written, hacc₁.inputs⟩)

/-- What a scheduling round sends to the workers is listed when the round is over. -/
theorem schedule_listed [Hasher] {batch : Batch} (h : schedule s = .ok batch s') : batch.Listed s' := by
  rw [schedule_eq] at h
  obtain ⟨_, s₁, -, h⟩ := bind_ok.1 h
  obtain ⟨batch', s₂, hdispatch, h⟩ := bind_ok.1 h
  obtain ⟨rfl, rfl⟩ : batch' = batch ∧ _ = s' := by simpa using BlockManager.modify_ok h
  have hmapped := dispatch_loop_listed _ (BlockManager.get_ok hdispatch) ⟨by simp, by simp, by simp⟩
  exact hmapped.mono fun d i b hb => by cases d <;> exact hb

end

end Scheduler

end LMServe
