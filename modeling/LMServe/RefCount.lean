import LMServe.BlockManager

/-!
# Reference counts

`RefInv held s`: the reference count of every block is the number of times it is listed in the
sequences' block maps, in the reserved regions and in `held`, and the blocks with count zero are
exactly the free ones. `held` are the blocks an operation has taken and not yet stored: with it the
invariant can be followed through the loops, one allocator call at a time.
-/

namespace LMServe

/-- The panics that report a broken allocator, and block ids outside the pool. -/
def Panic.isFault : Panic → Bool
  | .outOfBounds _ | .allocUsedBlock _ | .doubleFree _ | .alreadyInFreeList _
  | .brokenAllocator _ => true
  | _ => false

/-! ### The allocator -/

namespace BlockAllocator

/-- The pool and the free list agree with the counts `cnt`. -/
structure CountInv (cnt : Nat → Nat) (a : BlockAllocator) : Prop where
  pool_len : a.block_pool.length = a.num_total_blocks
  free_nodup : a.free_block_ids.Nodup
  ref_eq : ∀ b, b < a.num_total_blocks → (a.get_block b).ref_cnt = cnt b
  mem_free : ∀ b, b ∈ a.free_block_ids ↔ b < a.num_total_blocks ∧ cnt b = 0
  status_free : ∀ b, b < a.num_total_blocks → ((a.get_block b).status = .Free ↔ cnt b = 0)
  cnt_lt : ∀ b, 0 < cnt b → b < a.num_total_blocks

variable {a a' : BlockAllocator} {cnt cnt' : Nat → Nat} {b : Nat}

theorem getElem?_pool (hb : b < a.block_pool.length) :
    a.block_pool[b]? = some (a.get_block b) := by
  simp [get_block, List.getD_eq_getElem?_getD, List.getElem?_eq_getElem hb]

theorem get_block_set (a : BlockAllocator) (b b' : Nat) (block : Block) (free : List Nat) :
    ({ a with block_pool := a.block_pool.set b block, free_block_ids := free } :
      BlockAllocator).get_block b' =
      if b' = b ∧ b < a.block_pool.length then block else a.get_block b' := by
  simp only [get_block, List.getD_eq_getElem?_getD, List.getElem?_set]
  by_cases h : b = b'
  · subst h
    by_cases hb : b < a.block_pool.length <;> simp [hb]
  · simp [h, Ne.symm h]

theorem alloc_block_ok (h : alloc_block a = .ok b a') :
    ∃ rest, a.free_block_ids = b :: rest ∧ b < a.block_pool.length ∧
      a' = { a with
        free_block_ids := rest
        block_pool := a.block_pool.set b { a.get_block b with status := .Used, ref_cnt := 1 } } := by
  unfold alloc_block at h
  split at h
  · simp at h
  · rename_i b' rest hfree
    dsimp only at h
    split at h
    · simp at h
    · rename_i block hblock
      obtain ⟨hlt, -⟩ := List.getElem?_eq_some_iff.1 hblock
      rw [getElem?_pool hlt] at hblock
      obtain rfl := Option.some.inj hblock
      split at h
      · simp at h
      · simp only [EStateM.Result.ok.injEq] at h
        obtain ⟨rfl, rfl⟩ := h
        exact ⟨rest, hfree, hlt, rfl⟩

/-- One more reference to the block a free list entry or a live reference names. -/
theorem CountInv.retain (h : CountInv cnt a) (hb : b < a.num_total_blocks) (block : Block)
    (hstatus : block.status = .Used) (href : block.ref_cnt = cnt b + 1) (free : List Nat)
    (hfree : ∀ x, x ∈ free ↔ x ∈ a.free_block_ids ∧ x ≠ b) (hnd : free.Nodup)
    (hcnt : ∀ x, cnt' x = if x = b then cnt x + 1 else cnt x) :
    CountInv cnt' { a with block_pool := a.block_pool.set b block, free_block_ids := free } := by
  have hb' : b < a.block_pool.length := by rw [h.pool_len]; exact hb
  refine ⟨?_, hnd, ?_, ?_, ?_, ?_⟩
  · simp [h.pool_len]
  · intro x hx
    rw [get_block_set]
    by_cases hxb : x = b
    · subst hxb; simp [hb', href, hcnt]
    · simp [hxb, h.ref_eq x hx, hcnt]
  · intro x
    rw [hfree, h.mem_free, hcnt]
    by_cases hxb : x = b
    · simp [hxb]
    · simp [hxb]
  · intro x hx
    rw [get_block_set]
    by_cases hxb : x = b
    · subst hxb; simp [hb', hstatus, hcnt]
    · simp [hxb, h.status_free x hx, hcnt]
  · intro x hx
    by_cases hxb : x = b
    · rw [hxb]; exact hb
    · rw [hcnt, if_neg hxb] at hx; exact h.cnt_lt x hx

variable (cnt') in
theorem alloc_block_count (h : CountInv cnt a) (hcnt : ∀ x, cnt' x = if x = b then cnt x + 1 else cnt x)
    (hrun : alloc_block a = .ok b a') : CountInv cnt' a' ∧ cnt b = 0 := by
  obtain ⟨rest, hfree, -, rfl⟩ := alloc_block_ok hrun
  have hnd : (b :: rest).Nodup := hfree ▸ h.free_nodup
  obtain ⟨hb, hzero⟩ := (h.mem_free b).1 (by rw [hfree]; simp)
  refine ⟨?_, hzero⟩
  refine h.retain hb _ rfl (by simp [hzero]) rest (fun x => ?_) (List.nodup_cons.1 hnd).2 hcnt
  rw [hfree, List.mem_cons]
  constructor
  · intro hx
    exact ⟨.inr hx, fun hxb => (List.nodup_cons.1 hnd).1 (hxb ▸ hx)⟩
  · rintro ⟨rfl | hx, hne⟩
    · exact absurd rfl hne
    · exact hx

/-- Under the invariant `alloc_block` fails only on an empty free list. -/
theorem alloc_block_error {e : Panic} (h : CountInv cnt a) (hrun : alloc_block a = .error e a') :
    e = .allBlocksInUse ∧ a.free_block_ids = [] := by
  unfold alloc_block at hrun
  split at hrun
  · rename_i hfree
    simp only [EStateM.Result.error.injEq] at hrun
    exact ⟨hrun.1.symm, hfree⟩
  · rename_i b rest hfree
    obtain ⟨hb, hzero⟩ := (h.mem_free b).1 (by rw [hfree]; simp)
    have hget : a.block_pool[b]? = some (a.get_block b) := getElem?_pool (by rw [h.pool_len]; exact hb)
    have hstatus := (h.status_free b hb).2 hzero
    have href := h.ref_eq b hb
    simp [hget, hstatus, href, hzero] at hrun

variable (cnt') in
theorem alloc_block_by_id_ok (h : CountInv cnt a) (hb : b < a.num_total_blocks)
    (hcnt : ∀ x, cnt' x = if x = b then cnt x + 1 else cnt x) :
    ∃ free block, alloc_block_by_id b a =
        .ok .unit { a with block_pool := a.block_pool.set b block, free_block_ids := free } ∧
      free = a.free_block_ids.erase b ∧
      block = { a.get_block b with status := .Used, ref_cnt := (a.get_block b).ref_cnt + 1 } ∧
      CountInv cnt' { a with block_pool := a.block_pool.set b block, free_block_ids := free } := by
  have hget : a.block_pool[b]? = some (a.get_block b) := getElem?_pool (by rw [h.pool_len]; exact hb)
  refine ⟨_, _, ?_, rfl, rfl, ?_⟩
  · unfold alloc_block_by_id
    by_cases hstatus : (a.get_block b).status = .Free
    · have hmem : b ∈ a.free_block_ids := (h.mem_free b).2 ⟨hb, (h.status_free b hb).1 hstatus⟩
      simp [hget, hstatus, hmem]
    · -- a block in use is not in the free list, so erasing it there changes nothing
      have hused : (a.get_block b).status = .Used := by
        cases hs : (a.get_block b).status with
        | Free => exact absurd hs hstatus
        | Used => rfl
      have hmem : b ∉ a.free_block_ids := fun hm =>
        hstatus ((h.status_free b hb).2 ((h.mem_free b).1 hm).2)
      simp [hget, hused, List.erase_of_not_mem hmem]
  · refine h.retain hb _ rfl (by simp [h.ref_eq b hb]) _ (fun x => ?_) (h.free_nodup.erase b) hcnt
    rw [h.free_nodup.mem_erase_iff]; tauto

variable (cnt') in
theorem free_block_ok (h : CountInv cnt a) (hpos : 0 < cnt b)
    (hcnt : ∀ x, cnt' x = if x = b then cnt x - 1 else cnt x) :
    ∃ free block, free_block b a =
        .ok .unit { a with block_pool := a.block_pool.set b block, free_block_ids := free } ∧
      free = (if cnt b = 1 then a.free_block_ids ++ [b] else a.free_block_ids) ∧
      block = { a.get_block b with
        status := if cnt b = 1 then .Free else .Used
        ref_cnt := (a.get_block b).ref_cnt - 1 } ∧
      CountInv cnt' { a with block_pool := a.block_pool.set b block, free_block_ids := free } := by
  have hb := h.cnt_lt b hpos
  have hb' : b < a.block_pool.length := by rw [h.pool_len]; exact hb
  have hget : a.block_pool[b]? = some (a.get_block b) := getElem?_pool hb'
  have href := h.ref_eq b hb
  have hmem : b ∉ a.free_block_ids := fun hm => by
    have := ((h.mem_free b).1 hm).2; omega
  have hused : (a.get_block b).status = .Used := by
    cases hs : (a.get_block b).status with
    | Free => have := (h.status_free b hb).1 hs; omega
    | Used => rfl
  refine ⟨_, _, ?_, rfl, rfl, ?_⟩
  · unfold free_block
    by_cases hone : cnt b = 1
    · simp [hget, hused, href, hone, hmem]
    · have hne : ((cnt b : Int) - 1 = 0) = False := by simp; omega
      simp [hget, hused, href, hone, hne]
  · refine ⟨by simp [h.pool_len], ?_, ?_, ?_, ?_, ?_⟩
    · show (if cnt b = 1 then a.free_block_ids ++ [b] else a.free_block_ids).Nodup
      split
      · exact List.nodup_append.2 ⟨h.free_nodup, List.nodup_singleton b, fun x hx y hy => by
          rw [List.mem_singleton] at hy; subst hy; exact fun hxy => hmem (hxy ▸ hx)⟩
      · exact h.free_nodup
    · intro x hx
      rw [get_block_set, hcnt]
      by_cases hxb : x = b
      · subst hxb; simp only [hb', and_self, ↓reduceIte, href]; omega
      · simp [hxb, h.ref_eq x hx]
    · intro x
      rw [hcnt]
      by_cases hxb : x = b
      · subst hxb
        by_cases hone : cnt x = 1
        · simp [hone, hb]
        · have hne : ¬ cnt x - 1 = 0 := by omega
          simp [hone, hmem, hne]
      · by_cases hone : cnt b = 1
        · simp [hone, hxb, h.mem_free]
        · simp [hone, hxb, h.mem_free]
    · intro x hx
      rw [get_block_set, hcnt]
      by_cases hxb : x = b
      · subst hxb
        by_cases hone : cnt x = 1
        · simp [hone, hb']
        · have hne : ¬ cnt x - 1 = 0 := by omega
          simp [hone, hb', hne]
      · simp [hxb, h.status_free x hx]
    · intro x hx
      rw [hcnt] at hx
      by_cases hxb : x = b
      · rw [hxb]; exact hb
      · rw [if_neg hxb] at hx; exact h.cnt_lt x hx

end BlockAllocator

/-! ### The manager -/

namespace BlockManager

/-- How often a block is listed in the block maps and in the regions. -/
def refs (s : BlockManager) (b : Nat) : Nat :=
  s.seq_block_mapping_table.total (fun m => m.block_ids.count b) +
    s.reserved_blocks_table.total (fun ids => ids.count b)

/-- See the module doc. `n` is the number of blocks of the pool. -/
structure RefInv (n : Nat) (held : List Nat) (s : BlockManager) : Prop where
  total : s.block_allocator.num_total_blocks = n
  count : s.block_allocator.CountInv fun b => s.refs b + held.count b
  /-- The hash table lists blocks of the pool only. -/
  table_lt : ∀ h b, s.hash_block_table.lookup h = some b → b < n

variable {n : Nat} {held held' : List Nat} {s s' : BlockManager}

theorem RefInv.congr_held (h : s.RefInv n held) (hc : ∀ b, held'.count b = held.count b) :
    s.RefInv n held' := by
  refine ⟨h.total, ?_, h.table_lt⟩
  simp only [hc]; exact h.count

theorem RefInv.ref_cnt (h : s.RefInv n held) {b : Nat} (hb : b < n) :
    (s.get_block b).ref_cnt = s.refs b + held.count b := by
  have := h.count.ref_eq b (by rw [h.total]; exact hb)
  exact_mod_cast this

theorem RefInv.pool_len (h : s.RefInv n held) : s.block_allocator.block_pool.length = n := by
  rw [h.count.pool_len, h.total]

theorem RefInv.lt_of_mem (h : s.RefInv n held) {b : Nat} (hb : b ∈ held) : b < n := by
  have := h.count.cnt_lt b (Nat.lt_of_lt_of_le (List.count_pos_iff.2 hb) (Nat.le_add_left _ _))
  rwa [h.total] at this

theorem RefInv.lt_of_mem_map (h : s.RefInv n held) {i : Nat} {m : BlockMap} {b : Nat}
    (hm : s.get_block_map i = some m) (hb : b ∈ m.block_ids) : b < n := by
  have h1 : 0 < m.block_ids.count b := List.count_pos_iff.2 hb
  have h2 := Table.le_total (fun m : BlockMap => m.block_ids.count b) hm
  have := h.count.cnt_lt b (by unfold refs; omega)
  rwa [h.total] at this

theorem RefInv.lookup_lt (h : s.RefInv n held) {hash b : Nat}
    (hl : s.lookup_block_id hash = some b) : b < n := by
  unfold lookup_block_id at hl
  split at hl
  · rename_i b' hb'
    split at hl
    · obtain rfl := Option.some.inj hl; exact h.table_lt _ _ hb'
    · simp at hl
  · simp at hl

/-- Only the references, the statuses and the free list matter. -/
theorem RefInv.frame (h : s.RefInv n held)
    (hm : s'.seq_block_mapping_table = s.seq_block_mapping_table)
    (hr : s'.reserved_blocks_table = s.reserved_blocks_table)
    (hn : s'.block_allocator.num_total_blocks = s.block_allocator.num_total_blocks)
    (hf : s'.block_allocator.free_block_ids = s.block_allocator.free_block_ids)
    (hl : s'.block_allocator.block_pool.length = s.block_allocator.block_pool.length)
    (hb : ∀ b, (s'.get_block b).ref_cnt = (s.get_block b).ref_cnt ∧
      (s'.get_block b).status = (s.get_block b).status)
    (ht : ∀ h b, s'.hash_block_table.lookup h = some b → b < n) : s'.RefInv n held := by
  have hrefs : s'.refs = s.refs := by funext b; simp only [refs, hm, hr]
  refine ⟨by rw [hn, h.total], ?_, ht⟩
  rw [hrefs]
  refine ⟨by rw [hl, hn, h.count.pool_len], by rw [hf]; exact h.count.free_nodup, ?_, ?_, ?_, ?_⟩
  · intro b hlt; exact (hb b).1.trans (h.count.ref_eq b (by rwa [hn] at hlt))
  · intro b; rw [hf, hn]; exact h.count.mem_free b
  · intro b hlt
    show (s'.get_block b).status = .Free ↔ _
    rw [(hb b).2]; exact h.count.status_free b (by rwa [hn] at hlt)
  · intro b hlt; rw [hn]; exact h.count.cnt_lt b hlt

theorem RefInv.allocator (h : s.RefInv n held) {a : BlockAllocator}
    (hn : a.num_total_blocks = s.block_allocator.num_total_blocks)
    (ha : a.CountInv fun b => s.refs b + held'.count b) :
    RefInv n held' { s with block_allocator := a } :=
  ⟨by show a.num_total_blocks = n; rw [hn, h.total], ha, h.table_lt⟩

@[simp] theorem get_block_set_block (s : BlockManager) (b b' : Nat) (block : Block) :
    (s.set_block b block).get_block b' =
      if b' = b ∧ b < s.block_allocator.block_pool.length then block else s.get_block b' :=
  BlockAllocator.get_block_set s.block_allocator b b' block s.block_allocator.free_block_ids

theorem RefInv.set_block (h : s.RefInv n held) {b : Nat} (block : Block)
    (href : block.ref_cnt = (s.get_block b).ref_cnt) (hst : block.status = (s.get_block b).status) :
    (s.set_block b block).RefInv n held := by
  refine h.frame rfl rfl rfl rfl (by simp [BlockManager.set_block]) (fun b' => ?_) h.table_lt
  rw [get_block_set_block]
  split
  · rename_i hb'; rw [hb'.1]; exact ⟨href, hst⟩
  · exact ⟨rfl, rfl⟩

theorem RefInv.set_table (h : s.RefInv n held) {t : Table Nat}
    (ht : ∀ h b, t.lookup h = some b → b < n) : RefInv n held { s with hash_block_table := t } :=
  h.frame rfl rfl rfl rfl rfl (fun _ => ⟨rfl, rfl⟩) ht

theorem RefInv.erase_table (h : s.RefInv n held) (k : Nat) :
    RefInv n held { s with hash_block_table := s.hash_block_table.erase k } := by
  refine h.set_table fun k' b hk => ?_
  rw [Table.lookup_erase_eq] at hk
  split at hk
  · simp at hk
  · exact h.table_lt _ _ hk

theorem RefInv.insert_table (h : s.RefInv n held) (k : Nat) {b : Nat} (hb : b < n) :
    RefInv n held { s with hash_block_table := s.hash_block_table.insert k b } := by
  refine h.set_table fun k' b' hk => ?_
  rw [Table.lookup_insert_eq] at hk
  split at hk
  · obtain rfl := Option.some.inj hk; exact hb
  · exact h.table_lt _ _ hk

/-- Moving references between `held` and the block map of one sequence. -/
theorem RefInv.set_block_map (h : s.RefInv n held) {i : Nat} {m : BlockMap}
    (hc : ∀ b, held.count b + (match s.get_block_map i with
      | some m => m.block_ids.count b
      | none => 0) = held'.count b + m.block_ids.count b) :
    (s.set_block_map i m).RefInv n held' := by
  have hcnt : (fun b => (s.set_block_map i m).refs b + held'.count b) =
      fun b => s.refs b + held.count b := by
    funext b
    have hb := hc b
    simp only [refs, BlockManager.set_block_map, Table.total_insert]
    cases hm : s.get_block_map i with
    | none =>
      have hm' : s.seq_block_mapping_table.lookup i = none := hm
      rw [Table.total_erase_none _ hm']
      simp only [hm] at hb; omega
    | some m₀ =>
      have hm' : s.seq_block_mapping_table.lookup i = some m₀ := hm
      have := Table.total_erase (fun m => m.block_ids.count b) hm'
      simp only [hm] at hb; omega
  refine ⟨h.total, ?_, h.table_lt⟩
  rw [hcnt]; exact h.count

theorem RefInv.erase_block_map (h : s.RefInv n held) {i : Nat} {m : BlockMap}
    (hm : s.get_block_map i = some m) :
    RefInv n (m.block_ids ++ held)
      { s with seq_block_mapping_table := s.seq_block_mapping_table.erase i } := by
  have hcnt : (fun b => s.refs b + held.count b) = fun b =>
      refs { s with seq_block_mapping_table := s.seq_block_mapping_table.erase i } b +
        (m.block_ids ++ held).count b := by
    funext b
    have := Table.total_erase (fun m => m.block_ids.count b) hm
    simp only [refs, List.count_append] at this ⊢
    omega
  refine ⟨h.total, ?_, h.table_lt⟩
  rw [← hcnt]; exact h.count

theorem RefInv.insert_region {ids : List Nat} (h : s.RefInv n (ids ++ held)) {r : Nat}
    (hr : s.reserved_blocks_table.lookup r = none) :
    RefInv n held { s with reserved_blocks_table := s.reserved_blocks_table.insert r ids } := by
  have hcnt : (fun b => s.refs b + (ids ++ held).count b) = fun b =>
      refs { s with reserved_blocks_table := s.reserved_blocks_table.insert r ids } b +
        held.count b := by
    funext b
    simp only [refs, List.count_append, Table.total_insert_fresh _ ids hr]
    omega
  refine ⟨h.total, ?_, h.table_lt⟩
  rw [← hcnt]; exact h.count

theorem RefInv.erase_region (h : s.RefInv n held) {r : Nat} {ids : List Nat}
    (hr : s.reserved_blocks_table.lookup r = some ids) :
    RefInv n (ids ++ held)
      { s with reserved_blocks_table := s.reserved_blocks_table.erase r } := by
  have hcnt : (fun b => s.refs b + held.count b) = fun b =>
      refs { s with reserved_blocks_table := s.reserved_blocks_table.erase r } b +
        (ids ++ held).count b := by
    funext b
    have := Table.total_erase (fun ids => ids.count b) hr
    simp only [refs, List.count_append] at this ⊢
    omega
  refine ⟨h.total, ?_, h.table_lt⟩
  rw [← hcnt]; exact h.count

theorem RefInv.new (bs : Nat) (hbs : 0 < bs) (n : Nat) : (new bs hbs n).RefInv n [] := by
  have hget : ∀ b, (BlockAllocator.new n).get_block b = Block.new := by
    intro b
    simp only [BlockAllocator.get_block, BlockAllocator.new, List.getD_eq_getElem?_getD,
      List.getElem?_replicate]
    split <;> rfl
  refine ⟨rfl, ?_, ?_⟩
  · refine ⟨?_, ?_, ?_, ?_, ?_, ?_⟩
    · simp [BlockManager.new, BlockAllocator.new]
    · exact List.nodup_range
    · intro b _
      show ((BlockAllocator.new n).get_block b).ref_cnt = _
      rw [hget]; rfl
    · intro b
      simp [BlockManager.new, BlockAllocator.new, refs]
    · intro b _
      show ((BlockAllocator.new n).get_block b).status = _ ↔ _
      rw [hget]; simp [Block.new, refs, BlockManager.new]
    · intro b hb
      simp [refs, BlockManager.new] at hb
  · intro h b hb
    simp [BlockManager.new] at hb

end BlockManager

end LMServe
