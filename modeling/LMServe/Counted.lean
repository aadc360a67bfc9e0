import LMServe.FreeList

/-!
# The counts survive panics

A panic in the middle of an operation leaks the blocks taken so far, and nothing else: whatever the engine
does, and wherever it stops, the reference counts are those of the block maps, the regions and some leaked
blocks (`Counted`). So a block that a map or a region lists is in use and not in the free list.
-/

namespace LMServe
open Hoare Chunk

namespace BlockManager

/-- The counts are right once the leaked blocks are counted too. -/
def Counted (n : Nat) (m : BlockManager) : Prop := ∃ held, m.RefInv n held

variable {n : Nat} {held : List Nat} {m m' : BlockManager}

theorem RefInv.counted (h : m.RefInv n held) : m.Counted n := ⟨held, h⟩

theorem Counted.new (bs : Nat) (hbs : 0 < bs) (n : Nat) : (new bs hbs n).Counted n := (RefInv.new bs hbs n).counted

theorem counted_of_refInv {α : Type} {x : BM α}
    (h : ∀ held, Triple (RefInv n held) x (fun _ s => s.RefInv n held) fun _ => False) : Preserves (Counted n) x :=
  Preserves.of_ends fun m ⟨held, hm⟩ => by
    obtain ⟨a, m', hrun, hm'⟩ := (h held).returns hm
    exact Ends.run_ok hrun hm'.counted

/-- What returns keeps the references, and what stops has leaked blocks only. -/
theorem counted_of_ends {α : Type} {x : BM α} {E : Panic → Prop}
    (h : ∀ held, Triple (RefInv n held) x (fun _ s => s.RefInv n held) E)
    (hstop : ∀ m held, m.RefInv n held → Ends x m (fun _ _ => True) fun _ => Counted n) : Preserves (Counted n) x :=
  Preserves.of_ends fun m ⟨held, hm⟩ => by
    cases hrun : x m with
    | ok a m' => exact Ends.run_ok hrun ((h held).of_ok hm hrun).counted
    | error e m' => exact Ends.run_error hrun ((hstop m held hm).of_error hrun)

/-- A region replaced by another one of the same id is leaked. -/
theorem RefInv.insert_region_counted {ids : List Nat} (h : m.RefInv n (ids ++ held)) (r : Nat) :
    Counted n { m with reserved_blocks_table := m.reserved_blocks_table.insert r ids } := by
  cases hr : m.reserved_blocks_table.lookup r with
  | none => exact (h.insert_region hr).counted
  | some old =>
    have herase : RefInv n (ids ++ (old ++ held)) { m with reserved_blocks_table := m.reserved_blocks_table.erase r } :=
      (h.erase_region hr).congr_held fun b => by simp only [List.count_append]; omega
    have hinsert := herase.insert_region (r := r) (AList.lookup_erase r _)
    have heq : (m.reserved_blocks_table.erase r).insert r ids = m.reserved_blocks_table.insert r ids := by
      refine AList.ext ?_
      rw [AList.entries_insert, AList.entries_insert]
      exact congrArg _ (congrArg AList.entries (Table.erase_of_none (AList.lookup_erase r _)))
    rw [heq] at hinsert
    exact hinsert.counted

theorem clear_cache_counted : Preserves (Counted n) clear_cache :=
  Preserves.modify fun m ⟨held, h⟩ => (h.set_table fun _ _ hk => by simp at hk).counted

theorem alloc_block_counted : Preserves (Counted n) (on_allocator BlockAllocator.alloc_block) := by
  refine Preserves.of_ends fun m ⟨held, h⟩ => ?_
  cases hrun : on_allocator BlockAllocator.alloc_block m with
  | ok b m' => exact Ends.run_ok hrun ((alloc_block_refInv held).of_ok h hrun).1.counted
  | error e m' =>
    obtain ⟨a, ha, rfl⟩ := zoom_error.1 hrun
    obtain ⟨-, hfree⟩ := BlockAllocator.alloc_block_error h.count ha
    unfold BlockAllocator.alloc_block at ha
    rw [hfree] at ha
    cases ha
    exact Ends.run_error hrun h.counted

section
variable [Hasher]

/-- A block is written to which the same block was read before. -/
theorem publish_if_full_ends {b : Nat} {block : Block} (h : m.RefInv n held) (hb : b < n)
    (hcnt : block.ref_cnt = (m.get_block b).ref_cnt) (hstatus : block.status = (m.get_block b).status) (T : List Nat) :
    Ends (publish_if_full b block T) m (fun _ => Counted n) fun _ => Counted n :=
  (((publish_if_full_refInv hb block T).post fun _ _ h => h.counted).ends ⟨h, hcnt, hstatus⟩)

theorem fill_last_block_counted (seq : Sequence) (slots tokens : Nat) :
    Preserves (Counted n) (fill_last_block seq slots tokens) := by
  refine Lowers.ite (Lowers.pure _) (Preserves.of_ends fun m ⟨held, h⟩ => Ends.get_bind ?_)
  cases hlast : m.get_last_block_id seq.seq_id with
  | none => exact Ends.throw h.counted
  | some l =>
    obtain ⟨map, hmap, hmem⟩ := get_last_block_id_mem hlast
    refine Ends.bind (R := fun block m' => m' = m ∧ block = m.get_block l)
      (get_block_mut_ends (fun _ => ⟨rfl, rfl⟩) h.counted) ?_
    rintro block m' ⟨rfl, rfl⟩
    refine Ends.ite (fun _ => ?_) fun _ => Ends.pure h.counted
    refine Ends.bind (R := fun block m₁ => m₁ = m' ∧ block.ref_cnt = (m'.get_block l).ref_cnt ∧
      block.status = (m'.get_block l).status) (append_tokens_ends (fun _ => ⟨rfl, rfl, rfl⟩) h.counted) ?_
    rintro block m₁ ⟨rfl, hcnt, hstatus⟩
    exact Ends.bind (publish_if_full_ends h (h.lt_of_mem_map hmap hmem) hcnt hstatus _) fun _ _ h => Ends.pure h

theorem alloc_new_block_counted (T : List Nat) (off : Nat) : Preserves (Counted n) (alloc_new_block T off) := by
  refine Lowers.get.bind fun s => Preserves.of_ends fun m ⟨held, h⟩ => ?_
  refine Ends.bind ((alloc_block_refInv held).ends_preserves alloc_block_counted h h.counted) fun b m₁ ⟨h₁, hb⟩ => ?_
  refine Ends.get_bind (Ends.modify_bind ?_)
  have herase := h₁.erase_table (m₁.get_block b).hash
  refine Ends.bind (R := fun block m₂ => m₂.RefInv n (b :: held) ∧ block.ref_cnt = (m₂.get_block b).ref_cnt ∧
    block.status = (m₂.get_block b).status) (append_tokens_ends (fun _ => ⟨herase, rfl, rfl⟩) herase.counted) ?_
  rintro block m₂ ⟨h₂, hcnt, hstatus⟩
  exact Ends.bind (publish_if_full_ends h₂ hb hcnt hstatus _) fun _ _ h => Ends.pure h

theorem alloc_blocks_counted (seq : Sequence) : Preserves (Counted n) (alloc_blocks seq) := by
  refine counted_of_ends (fun _ => alloc_blocks_refInv seq) fun m held h => ?_
  refine Ends.get_bind (Ends.bind (R := fun _ => Counted n)
    (Ends.ite (fun _ => Ends.pure h.counted) fun _ => Ends.throw h.counted) fun tokens m₁ h₁ => ?_)
  refine Ends.bind ((fill_last_block_counted seq _ _).ends h₁) fun slots m₂ h₂ => Ends.get_bind ?_
  have hloop : ∀ offsets : List Nat, Preserves (Counted n) (offsets.mapM (alloc_new_block seq.token_ids)) :=
    fun offsets => Lowers.mapM fun off _ => alloc_new_block_counted _ off
  -- no step after the loop stops
  exact Ends.bind ((hloop _).ends h₂) fun ids m₃ _ => Ends.modify_bind (Ends.pure trivial)

theorem init_prefix_cache_blocks_counted (seq : Sequence) : Preserves (Counted n) (init_prefix_cache_blocks seq) :=
  counted_of_refInv fun _ => init_prefix_cache_blocks_refInv seq

theorem update_prefix_cache_blocks_counted (seq : Sequence) : Preserves (Counted n) (update_prefix_cache_blocks seq) := by
  refine counted_of_ends (fun _ => update_prefix_cache_blocks_refInv seq) fun m held h => Ends.get_bind ?_
  cases hmap : m.get_block_map seq.seq_id with
  | none => exact ((init_prefix_cache_blocks_counted seq).ends h.counted).conseq (fun _ _ _ => trivial) fun _ _ h => h
  | some map =>
    -- only the range check stops, on the state it found
    refine Ends.bind (R := fun ids m' => m'.RefInv n held ∧ ∀ b ∈ ids, b < n) (Ends.get_bind ?_)
      fun ids m₁ ⟨h₁, hlt⟩ => ?_
    · exact Ends.ite (fun _ => Ends.pure ⟨h, prefix_hits_lt h _ _ _⟩) fun _ => Ends.throw h.counted
    · exact Ends.bind ((retain_all_refInv hlt held).ends h₁) fun _ m₂ _ => Ends.modify_bind (Ends.pure trivial)

theorem reserve_loop_counted (T offsets : List Nat) : Preserves (Counted n) (reserve_loop T offsets) := by
  induction offsets with
  | nil => exact Lowers.pure _
  | cons off offsets ih =>
    refine Lowers.get.bind fun s => Lowers.ite (Lowers.pure _) (Preserves.of_ends fun m ⟨held, h⟩ => ?_)
    refine Ends.bind ((alloc_block_refInv held).ends_preserves alloc_block_counted h h.counted) fun b m₁ ⟨h₁, hb⟩ => ?_
    refine Ends.get_bind (Ends.bind (R := fun block m₂ => m₂.RefInv n (b :: held) ∧
      block.ref_cnt = (m₂.get_block b).ref_cnt ∧ block.status = (m₂.get_block b).status)
      (append_tokens_ends (fun _ => ⟨h₁, rfl, rfl⟩) h₁.counted) ?_)
    rintro block m₂ ⟨h₂, hcnt, hstatus⟩
    refine Ends.modify_bind (Ends.bind (ih.ends ?_) fun _ _ h => Ends.pure h)
    have hwrite : ∀ hash, (m₂.set_block b { block with hash := hash }).RefInv n (b :: held) :=
      fun hash => h₂.set_block _ hcnt hstatus
    exact (hwrite _).counted

theorem reserve_blocks_counted (r : Nat) (T : List Nat) (start : Nat) : Preserves (Counted n) (reserve_blocks r T start) := by
  refine Lowers.get.bind fun s => Preserves.of_ends fun m ⟨held, h⟩ => ?_
  refine Ends.bind ((reserve_loop_refInv T _ held).ends_preserves (reserve_loop_counted T _) h h.counted)
    fun pairs m₁ h₁ => ?_
  exact Ends.ite (fun _ => Ends.pure h₁.counted) fun _ =>
    Ends.modify_bind (Ends.pure (h₁.insert_region_counted r))

omit [Hasher] in
theorem pin_blocks_by_hashes_counted (r : Nat) (hash_values : List Nat) :
    Preserves (Counted n) (pin_blocks_by_hashes r hash_values) := by
  refine Preserves.of_ends fun m ⟨held, h⟩ => Ends.bind ((pin_loop_refInv hash_values held).ends h) fun pairs m₁ h₁ => ?_
  exact Ends.modify_bind (Ends.pure (h₁.insert_region_counted r))

omit [Hasher] in
theorem update_filled_len_counted (i len : Nat) : Preserves (Counted n) (update_filled_len i len) := by
  refine counted_of_ends (fun _ => update_filled_len_refInv i len) fun m held h => Ends.get_bind ?_
  cases m.get_block_map i with
  | none => exact Ends.pure trivial
  | some map => exact Ends.ite (fun _ => Ends.modify trivial) fun _ => Ends.throw h.counted

theorem lasting_counted (n : Nat) : Lasting (Counted n) where
  alloc_blocks := alloc_blocks_counted
  init_prefix_cache_blocks := init_prefix_cache_blocks_counted
  update_prefix_cache_blocks := update_prefix_cache_blocks_counted
  reserve_blocks := reserve_blocks_counted
  activate_reserved_blocks r hash_values := counted_of_refInv fun _ => activate_reserved_blocks_refInv r hash_values
  pin_blocks_by_hashes := pin_blocks_by_hashes_counted
  unpin_blocks r := counted_of_refInv fun _ => unpin_blocks_refInv r
  update_filled_len := update_filled_len_counted
  free i := counted_of_refInv fun _ => free_refInv i
  free_and_drop_cache i := counted_of_refInv fun _ => free_and_drop_cache_refInv i
  clear_cache := clear_cache_counted

end

/-! What the counts say of a state that panics have led to. -/

theorem Counted.lt_of_refs {b : Nat} (h : m.Counted n) (hb : 0 < m.refs b) : b < n := by
  obtain ⟨held, h⟩ := h
  have := h.count.cnt_lt b (Nat.add_pos_left hb _)
  rwa [h.total] at this

theorem Counted.ref_cnt_pos {b : Nat} (h : m.Counted n) (hb : 0 < m.refs b) : 0 < (m.get_block b).ref_cnt := by
  have hlt := h.lt_of_refs hb
  obtain ⟨held, h⟩ := h
  rw [h.ref_cnt hlt]
  omega

theorem Counted.mem_free_iff {b : Nat} (h : m.Counted n) (hb : b < n) :
    b ∈ m.block_allocator.free_block_ids ↔ (m.get_block b).ref_cnt = 0 := by
  obtain ⟨held, h⟩ := h
  rw [h.count.mem_free, h.ref_cnt hb, h.total]
  omega

theorem Counted.status_iff {b : Nat} (h : m.Counted n) (hb : b < n) :
    (m.get_block b).status = .Free ↔ (m.get_block b).ref_cnt = 0 := by
  obtain ⟨held, h⟩ := h
  rw [h.ref_cnt hb]
  have := h.count.status_free b (by rw [h.total]; exact hb)
  exact this.trans (by omega)

theorem Counted.refs_le {b : Nat} (h : m.Counted n) (hb : b < n) : (m.refs b : Int) ≤ (m.get_block b).ref_cnt := by
  obtain ⟨held, h⟩ := h
  rw [h.ref_cnt hb]
  omega

end BlockManager

namespace EngineOp

section
variable [Hasher] {c : SchedulerConfig} {ops : List EngineOp} {e : Engine}

theorem run_counted (h : Run Step (Engine.new c) ops e) (d : Device) :
    (e.system.scheduler.get_block_manager d).Counted (c.num_blocks d) :=
  run_managers (fun d => BlockManager.lasting_counted (c.num_blocks d)) (fun _ => .new _ _ _) h d

/-- In every run of the engine, panics and what follows them included: no block has fewer references than there
are listings of it, a block is in the free list if and only if it has none and is `Free`, and what a map, a region
or the hash table names is a block of the pool, in use if a map or a region names it. -/
theorem counts_survive_panics (h : Run Step (Engine.new c) ops e) (d : Device) :
    let m := e.system.scheduler.get_block_manager d
    (∀ b, b < c.num_blocks d → (m.refs b : Int) ≤ (m.get_block b).ref_cnt ∧
      (b ∈ m.block_allocator.free_block_ids ↔ (m.get_block b).ref_cnt = 0) ∧
      ((m.get_block b).status = .Free ↔ (m.get_block b).ref_cnt = 0)) ∧
    (∀ b, 0 < m.refs b → b < c.num_blocks d ∧ b ∉ m.block_allocator.free_block_ids) ∧
    (∀ hash b, m.lookup_block_id hash = some b → b < c.num_blocks d) := by
  intro m
  have hm : m.Counted (c.num_blocks d) := run_counted h d
  refine ⟨fun b hb => ⟨hm.refs_le hb, hm.mem_free_iff hb, hm.status_iff hb⟩, fun b hb => ?_, fun hash b hl => ?_⟩
  · have hlt := hm.lt_of_refs hb
    refine ⟨hlt, fun hmem => ?_⟩
    have hpos := hm.ref_cnt_pos hb
    have hzero := (hm.mem_free_iff hlt).1 hmem
    omega
  · obtain ⟨held, hinv⟩ := hm
    exact hinv.lookup_lt hl

end

/-- A reservation for two blocks on a host with one: the handler panics with the block taken, and the block is
neither listed nor handed out again. -/
theorem counts_survive_panics_reserve :
    let _ := decimalHasher
    ∃ e, Run Step (Engine.new ⟨8, 64, 16, 1, Nat.one_pos, 4, 1, 4, false, Scheduler.defaultWatermark⟩)
        [reserve_request ⟨0, [1, 2], 1, none, false, false⟩ 0] e ∧
      (e.system.scheduler.host_block_manager.get_block 0).ref_cnt = 1 ∧
      e.system.scheduler.host_block_manager.refs 0 = 0 ∧
      0 ∉ e.system.scheduler.host_block_manager.block_allocator.free_block_ids := by
  let _ := decimalHasher
  have hfollow : (Run.follow next (Engine.new ⟨8, 64, 16, 1, Nat.one_pos, 4, 1, 4, false, Scheduler.defaultWatermark⟩)
      [reserve_request ⟨0, [1, 2], 1, none, false, false⟩ 0]).any (fun e =>
        decide ((e.system.scheduler.host_block_manager.get_block 0).ref_cnt = 1) &&
          decide (e.system.scheduler.host_block_manager.refs 0 = 0)) = true := by decide +kernel
  obtain ⟨e, hrun, he⟩ := Run.exists_of_follow (fun _ _ _ h => h) hfollow
  simp only [Bool.and_eq_true, decide_eq_true_eq] at he
  have hfree := ((counts_survive_panics hrun .Host).1 0 (by decide)).2.1
  refine ⟨e, hrun, he.1, he.2, fun hmem => ?_⟩
  have hone : (e.system.scheduler.host_block_manager.get_block 0).ref_cnt = 0 := hfree.1 hmem
  omega

end EngineOp

end LMServe
