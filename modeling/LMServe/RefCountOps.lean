import LMServe.RefCount
import LMServe.Tables
import LMServe.Lib.Run

/-!
# Every manager operation keeps the reference counts

One triple per operation: from `RefInv` it returns to `RefInv`, and it never stops with one of the
allocator's faults. The result for whole runs follows by induction.
-/

namespace LMServe
open Hoare Chunk

namespace BlockManager

variable {n : Nat} {held : List Nat} {E : Panic → Prop}

/-- The errors that are not faults of the allocator. -/
def NoFault (e : Panic) : Prop := e.isFault = false

theorem alloc_block_refInv (held : List Nat) :
    Triple (RefInv n held) (on_allocator BlockAllocator.alloc_block)
      (fun b s => s.RefInv n (b :: held) ∧ b < n) NoFault := by
  refine Triple.zoom fun s hs => ?_
  rintro _ rfl
  cases h : BlockAllocator.alloc_block s.block_allocator with
  | ok b a =>
    obtain ⟨hcount, -⟩ := BlockAllocator.alloc_block_count
      (fun x => s.refs x + (b :: held).count x) hs.count
      (fun x => by
        by_cases hx : x = b
        · subst hx; simp; omega
        · simp [hx, Ne.symm hx]) h
    obtain ⟨rest, -, hlt, rfl⟩ := BlockAllocator.alloc_block_ok h
    refine ⟨hs.allocator rfl hcount, ?_⟩
    rw [hs.pool_len] at hlt; exact hlt
  | error e a => obtain ⟨rfl, -⟩ := BlockAllocator.alloc_block_error hs.count h; rfl

theorem alloc_block_by_id_refInv (held : List Nat) {b : Nat} (hb : b < n) :
    Triple (RefInv n held) (on_allocator (BlockAllocator.alloc_block_by_id b))
      (fun _ s => s.RefInv n (b :: held)) E := by
  refine Triple.zoom fun s hs => ?_
  rintro _ rfl
  obtain ⟨free, block, hrun, -, -, hcount⟩ := BlockAllocator.alloc_block_by_id_ok
    (fun x => s.refs x + (b :: held).count x) hs.count (by rw [hs.total]; exact hb)
    (fun x => by
      by_cases hx : x = b
      · subst hx; simp; omega
      · simp [hx, Ne.symm hx])
  rw [hrun]
  exact hs.allocator rfl hcount

theorem free_block_refInv (held : List Nat) (b : Nat) :
    Triple (RefInv n (b :: held)) (on_allocator (BlockAllocator.free_block b))
      (fun _ s => s.RefInv n held) E := by
  refine Triple.zoom fun s hs => ?_
  rintro _ rfl
  obtain ⟨free, block, hrun, -, -, hcount⟩ := BlockAllocator.free_block_ok
    (fun x => s.refs x + held.count x) (b := b) hs.count (by simp)
    (fun x => by
      by_cases hx : x = b
      · subst hx; simp
      · simp [hx, Ne.symm hx])
  rw [hrun]
  exact hs.allocator rfl hcount

/-- The re-pinning loop of the prefix cache operations. -/
theorem retain_all_refInv {ids : List Nat} (hids : ∀ b ∈ ids, b < n) (held : List Nat) :
    Triple (RefInv n held) (forM ids fun b => on_allocator (BlockAllocator.alloc_block_by_id b))
      (fun _ s => s.RefInv n (ids ++ held)) E := by
  induction ids generalizing held with
  | nil => exact Triple.pure fun s hs => hs
  | cons b ids ih =>
    rw [List.forM_cons]
    refine Triple.bind (alloc_block_by_id_refInv held (hids b (by simp))) fun _ => ?_
    refine (ih (fun x hx => hids x (by simp [hx])) (b :: held)).post fun _ s hs => ?_
    exact hs.congr_held fun x => by simp [List.count_cons, List.count_append]; omega

theorem release_all_refInv (ids held : List Nat) :
    Triple (RefInv n (ids ++ held)) (forM ids fun b => on_allocator (BlockAllocator.free_block b))
      (fun _ s => s.RefInv n held) E := by
  induction ids with
  | nil => exact Triple.pure fun s hs => hs
  | cons b ids ih =>
    rw [List.forM_cons]
    exact Triple.bind (free_block_refInv (ids ++ held) b) fun _ => ih

theorem checked_sub_refInv (a b : Nat) :
    Triple (RefInv n held) (checked_sub a b) (fun _ s => s.RefInv n held) NoFault :=
  Triple.ite (fun _ => Triple.pure fun _ hs => hs) fun _ => Triple.throw rfl

theorem get_block_mut_refInv {b : Nat} (hb : b < n) :
    Triple (RefInv n held) (get_block_mut b)
      (fun block s => s.RefInv n held ∧ block = s.get_block b) E := by
  refine Triple.get_bind fun s hs => ?_
  have hget := BlockAllocator.getElem?_pool (a := s.block_allocator) (b := b)
    (by rw [hs.pool_len]; exact hb)
  rw [hget]
  exact Triple.pure fun s' hs' => by subst hs'; exact ⟨hs, rfl⟩

theorem append_tokens_refInv {P : BlockManager → Prop} (block : Block) (tokens : List Nat) :
    Triple P (append_tokens block tokens)
      (fun block' s => P s ∧ block'.ref_cnt = block.ref_cnt ∧ block'.status = block.status)
      NoFault := by
  refine Triple.get_bind fun s hs => Triple.ite (fun _ => ?_) fun _ => Triple.throw rfl
  exact Triple.pure fun s' hs' => by subst hs'; exact ⟨hs, rfl, rfl⟩

theorem get_last_block_id_mem {s : BlockManager} {i b : Nat} (h : s.get_last_block_id i = some b) :
    ∃ m, s.get_block_map i = some m ∧ b ∈ m.block_ids := by
  unfold get_last_block_id at h
  split at h
  · exact ⟨_, ‹_›, List.mem_of_getLast? h⟩
  · simp at h

/-! ### Regions, filling and freeing -/

theorem publish_reserved_refInv (hash_values : List Nat) (h : Nat) {b : Nat} (hb : b < n) :
    Triple (RefInv n held) (publish_reserved hash_values h b) (fun _ s => s.RefInv n held)
      E := by
  refine Triple.modify fun s hs => ?_
  split
  · exact hs.insert_table _ hb
  · exact hs

theorem activate_block_refInv (hash_values : List Nat) (b : Nat) (held : List Nat) :
    Triple (RefInv n (b :: held)) (activate_block hash_values b) (fun _ s => s.RefInv n held)
      E := by
  refine Triple.get_bind fun s hs => ?_
  have hb := hs.lt_of_mem (List.mem_cons_self ..)
  refine Triple.bind ((publish_reserved_refInv hash_values _ hb).pre
    fun s' (hs' : s' = s) => hs' ▸ hs) fun _ => ?_
  exact Triple.bind (free_block_refInv held b) fun _ => Triple.pure fun _ h => h

theorem activate_all_refInv (hash_values ids held : List Nat) :
    Triple (RefInv n (ids ++ held)) (ids.mapM (activate_block hash_values))
      (fun _ s => s.RefInv n held) E := by
  refine Triple.mapM (fun ids _ (s : BlockManager) => s.RefInv n (ids ++ held)) ?_ ids []
  intro b ids _
  exact activate_block_refInv hash_values b (ids ++ held)

theorem activate_reserved_blocks_refInv (r : Nat) (hash_values : List Nat) :
    Triple (RefInv n held) (activate_reserved_blocks r hash_values) (fun _ s => s.RefInv n held)
      E := by
  refine Triple.get_bind fun s hs => ?_
  split
  · exact Triple.pure fun s' (hs' : s' = s) => hs' ▸ hs
  · rename_i ids hids
    refine Triple.bind (Triple.modify (Q := fun _ s => s.RefInv n (ids ++ held)) ?_) fun _ => ?_
    · rintro _ rfl; exact hs.erase_region hids
    · exact Triple.bind (activate_all_refInv hash_values ids held) fun _ => Triple.pure fun _ h => h

theorem pin_loop_refInv (hash_values held : List Nat) :
    Triple (RefInv n held) (pin_loop hash_values)
      (fun pairs s => s.RefInv n (pairs.map (·.1) ++ held)) E := by
  induction hash_values generalizing held with
  | nil => exact Triple.pure fun _ h => h
  | cons hash rest ih =>
    refine Triple.get_bind fun s hs => ?_
    split
    · rename_i b hb
      refine Triple.bind ((alloc_block_by_id_refInv held (hs.lookup_lt hb)).pre
        fun s' (hs' : s' = s) => hs' ▸ hs) fun _ => ?_
      refine Triple.bind (ih (b :: held)) fun pairs => Triple.pure fun s' h => ?_
      exact h.congr_held fun x => by simp [List.count_cons, List.count_append]; omega
    · exact Triple.pure fun s' (hs' : s' = s) => by subst hs'; exact hs

theorem pin_loop_regions (hash_values : List Nat) :
    Keeps reserved_blocks_table (pin_loop hash_values) := (pin_loop_tables hash_values).part (·.2.2)

theorem pin_blocks_by_hashes_refInv (r : Nat) (hash_values : List Nat) :
    Triple (fun s => s.RefInv n held ∧ s.reserved_blocks_table.lookup r = none)
      (pin_blocks_by_hashes r hash_values) (fun _ s => s.RefInv n held) NoFault := by
  refine Triple.bind ((pin_loop_refInv hash_values held).frame (pin_loop_regions hash_values)
    (fun t => t.lookup r = none)) fun pairs => ?_
  exact Triple.bind (Triple.modify (Q := fun _ s => s.RefInv n held)
    fun s' h => h.1.insert_region h.2) fun _ => Triple.pure fun _ h => h

theorem unpin_blocks_refInv (r : Nat) :
    Triple (RefInv n held) (unpin_blocks r) (fun _ s => s.RefInv n held) E := by
  refine Triple.get_bind fun s hs => ?_
  split
  · exact Triple.pure fun s' (hs' : s' = s) => hs' ▸ hs
  · rename_i ids hids
    refine Triple.bind (Triple.modify (Q := fun _ s => s.RefInv n (ids ++ held)) ?_) fun _ => ?_
    · rintro _ rfl; exact hs.erase_region hids
    · exact Triple.bind (release_all_refInv ids held) fun _ => Triple.pure fun _ h => h

theorem update_filled_len_refInv (i len : Nat) :
    Triple (RefInv n held) (update_filled_len i len) (fun _ s => s.RefInv n held) NoFault := by
  refine Triple.get_bind fun s hs => ?_
  split
  · exact Triple.pure fun s' (hs' : s' = s) => hs' ▸ hs
  · rename_i m hm
    refine Triple.ite (fun _ => Triple.modify ?_) fun _ => Triple.throw rfl
    rintro _ rfl
    exact hs.set_block_map fun b => by simp only [hm]

theorem drop_cache_refInv {b : Nat} (hb : b < n) :
    Triple (RefInv n held) (drop_cache b) (fun _ s => s.RefInv n held) E := by
  refine Triple.bind (get_block_mut_refInv hb) fun block => ?_
  refine Triple.ite (fun _ => Triple.modify ?_) fun _ => Triple.pure fun _ h => h.1
  rintro s ⟨hs, rfl⟩
  exact (hs.set_block (s.get_block b).clear rfl rfl).erase_table _

theorem free_loop_refInv (filled freed : Nat) (ids held : List Nat) :
    Triple (RefInv n (ids ++ held)) (free_loop filled freed ids) (fun _ s => s.RefInv n held)
      E := by
  induction ids generalizing freed with
  | nil => exact Triple.pure fun _ h => h
  | cons b ids ih =>
    intro s hs
    have hb := hs.lt_of_mem (List.mem_cons_self ..)
    refine Triple.bind (free_block_refInv (ids ++ held) b) (fun _ => ?_) s hs
    refine Triple.get_bind fun s₁ h₁ => ?_
    refine Triple.bind (R := fun _ => RefInv n (ids ++ held)) ?_ fun _ => ih _
    refine Triple.ite (fun _ => ?_) fun _ => Triple.pure fun s' (hs' : s' = s₁) => hs' ▸ h₁
    exact (drop_cache_refInv hb).pre fun s' (hs' : s' = s₁) => hs' ▸ h₁

theorem free_refInv (i : Nat) :
    Triple (RefInv n held) (free i) (fun _ s => s.RefInv n held) E := by
  refine Triple.get_bind fun s hs => ?_
  split
  · exact Triple.pure fun s' (hs' : s' = s) => hs' ▸ hs
  · rename_i m hm
    refine Triple.bind (Triple.modify (Q := fun _ s => s.RefInv n (m.block_ids ++ held)) ?_)
      fun _ => free_loop_refInv _ _ _ _
    rintro _ rfl; exact hs.erase_block_map hm

theorem free_and_drop_cache_refInv (i : Nat) :
    Triple (RefInv n held) (free_and_drop_cache i) (fun _ s => s.RefInv n held) E := by
  refine Triple.get_bind fun s hs => ?_
  split
  · exact Triple.pure fun s' (hs' : s' = s) => hs' ▸ hs
  · rename_i m hm
    refine Triple.bind (Triple.modify (Q := fun _ s => s.RefInv n (m.block_ids ++ held)) ?_)
      fun _ => Triple.forM (fun ids (s : BlockManager) => s.RefInv n (ids ++ held)) ?_ _
    · rintro _ rfl; exact hs.erase_block_map hm
    · intro b ids s' hs'
      have hb := hs'.lt_of_mem (List.mem_cons_self ..)
      exact Triple.bind (free_block_refInv (ids ++ held) b) (fun _ => drop_cache_refInv hb) s' hs'

theorem clear_cache_refInv :
    Triple (RefInv n held) clear_cache (fun _ s => s.RefInv n held) E :=
  Triple.modify fun _ hs => hs.set_table fun _ _ h => by simp at h

/-! ### Allocation and prefix caching -/

section hashing
variable [Hasher]

theorem publish_if_full_refInv {b : Nat} (hb : b < n) (block : Block) (tokens : List Nat) :
    Triple (fun s => s.RefInv n held ∧ block.ref_cnt = (s.get_block b).ref_cnt ∧
        block.status = (s.get_block b).status)
      (publish_if_full b block tokens) (fun _ s => s.RefInv n held) E := by
  refine Triple.modify fun s ⟨hs, href, hst⟩ => ?_
  split
  · exact (hs.set_block { block with hash := compute_hash tokens } href
      hst).insert_table _ hb
  · exact hs.set_block block href hst

theorem fill_last_block_refInv (seq : Sequence) (slots tokens : Nat) :
    Triple (RefInv n held) (fill_last_block seq slots tokens) (fun _ s => s.RefInv n held)
      NoFault := by
  refine Triple.ite (fun _ => Triple.pure fun _ h => h) fun _ => ?_
  refine Triple.get_bind fun s hs => ?_
  split
  · exact Triple.throw rfl
  · rename_i b hb
    obtain ⟨m, hm, hmem⟩ := get_last_block_id_mem hb
    have hlt := hs.lt_of_mem_map hm hmem
    refine Triple.bind ((get_block_mut_refInv hlt).pre fun s' (hs' : s' = s) => hs' ▸ hs)
      fun block => ?_
    refine Triple.ite (fun _ => ?_) fun _ => Triple.pure fun s' h => h.1
    refine Triple.bind (append_tokens_refInv block _) fun block' => ?_
    refine Triple.bind ((publish_if_full_refInv hlt block' _).pre ?_) fun _ =>
      Triple.pure fun s' h => h
    rintro s' ⟨⟨h, rfl⟩, href, hst⟩
    exact ⟨h, href, hst⟩

theorem alloc_new_block_refInv (token_ids : List Nat) (offset : Nat) (held : List Nat) :
    Triple (RefInv n held) (alloc_new_block token_ids offset)
      (fun b s => s.RefInv n (b :: held) ∧ b < n) NoFault := by
  refine Triple.get_bind fun s hs => ?_
  refine Triple.bind ((alloc_block_refInv held).pre fun s' (hs' : s' = s) => hs' ▸ hs) fun b => ?_
  refine Triple.get_bind fun s₁ ⟨h₁, hb⟩ => ?_
  refine Triple.bind (Triple.modify (Q := fun _ s' => s'.RefInv n (b :: held) ∧
    s'.get_block b = s₁.get_block b) ?_) fun _ => ?_
  · rintro _ rfl
    exact ⟨h₁.erase_table _, rfl⟩
  refine Triple.bind (append_tokens_refInv _ _) fun block => ?_
  refine Triple.bind ((publish_if_full_refInv hb block _).pre ?_) fun _ =>
    Triple.pure fun s' h => ⟨h, hb⟩
  rintro s' ⟨⟨h, hget⟩, href, hst⟩
  exact ⟨h, by rw [href, hget]; rfl, by rw [hst, hget]; rfl⟩

theorem alloc_new_blocks_refInv (token_ids offsets : List Nat) :
    Triple (RefInv n held) (offsets.mapM (alloc_new_block token_ids))
      (fun ids s => s.RefInv n (ids ++ held)) NoFault := by
  refine (Triple.mapM (fun _ ids (s : BlockManager) => s.RefInv n (ids ++ held)) ?_ offsets []).post
    fun ids s hs => by simpa using hs
  intro offset _ ids
  refine (alloc_new_block_refInv token_ids offset (ids ++ held)).post fun b s hs => ?_
  exact hs.1.congr_held fun x => by simp [List.count_append, List.count_cons]; omega

theorem alloc_blocks_refInv (seq : Sequence) :
    Triple (RefInv n held) (alloc_blocks seq) (fun _ s => s.RefInv n held) NoFault := by
  refine Triple.get_bind fun s hs => ?_
  refine Triple.bind ((checked_sub_refInv _ _).pre fun s' (hs' : s' = s) => hs' ▸ hs)
    fun tokens => ?_
  refine Triple.bind (fill_last_block_refInv seq _ tokens) fun slots => ?_
  refine Triple.get_bind fun s₁ h₁ => ?_
  refine Triple.bind ((alloc_new_blocks_refInv seq.token_ids _).pre
    fun s' (hs' : s' = s₁) => hs' ▸ h₁) fun ids => ?_
  refine Triple.bind (Triple.modify (Q := fun _ s => s.RefInv n held) fun s₂ h₂ => ?_) fun _ =>
    Triple.pure fun _ h => h
  split
  · rename_i m hm
    refine h₂.set_block_map fun b => ?_
    simp only [hm, BlockMap.append_block_ids, List.count_append]; omega
  · rename_i hm
    refine h₂.set_block_map fun b => ?_
    simp only [hm, List.count_append]; omega

theorem prefix_hits_lt {s : BlockManager} (hs : s.RefInv n held) (token_ids : List Nat)
    (stop : Nat) (offsets : List Nat) : ∀ b ∈ s.prefix_hits token_ids stop offsets, b < n := by
  induction offsets with
  | nil => simp [prefix_hits]
  | cons offset rest ih =>
    intro b hb
    unfold prefix_hits at hb
    dsimp only at hb
    split at hb
    · simp at hb
    · split at hb
      · rename_i b' hb'
        rcases List.mem_cons.1 hb with rfl | hb
        · exact hs.lookup_lt hb'
        · exact ih b hb
      · simp at hb

theorem init_prefix_cache_blocks_refInv (seq : Sequence) :
    Triple (RefInv n held) (init_prefix_cache_blocks seq) (fun _ s => s.RefInv n held)
      E := by
  refine Triple.get_bind fun s hs => ?_
  split
  · exact Triple.pure fun s' (hs' : s' = s) => hs' ▸ hs
  · rename_i hm
    have hlt : ∀ b ∈ s.get_prefix_cache_blocks seq.token_ids, b < n := prefix_hits_lt hs _ _ _
    refine Triple.bind (((retain_all_refInv hlt held).frame
      (f := seq_block_mapping_table) (Keeps.forM (fun _ => on_allocator_keeps (fun _ _ => rfl) _) _)
      (fun t => t.lookup seq.seq_id = none)).pre ?_) fun _ => ?_
    · rintro _ rfl
      exact ⟨hs, hm⟩
    · refine Triple.bind (Triple.modify (Q := fun _ s => s.RefInv n held) fun s' ⟨h', hm'⟩ => ?_)
        fun _ => Triple.pure fun _ h => h
      refine h'.set_block_map fun b => ?_
      have hm'' : s'.get_block_map seq.seq_id = none := hm'
      simp only [hm'', List.count_append]; omega

variable (n held) in
theorem get_prefix_cache_blocks_range_refInv (token_ids : List Nat) (start stop : Nat) :
    Triple (RefInv n held) (get_prefix_cache_blocks_range token_ids start stop)
      (fun ids s => s.RefInv n held ∧ ∀ b ∈ ids, b < n) NoFault := by
  refine Triple.get_bind fun s hs => ?_
  refine Triple.ite (fun _ => ?_) fun _ => Triple.throw rfl
  exact Triple.pure fun s' hs' => by subst hs'; exact ⟨hs, prefix_hits_lt hs _ _ _⟩

theorem update_prefix_cache_blocks_refInv (seq : Sequence) :
    Triple (RefInv n held) (update_prefix_cache_blocks seq) (fun _ s => s.RefInv n held)
      NoFault := by
  refine Triple.get_bind fun s hs => ?_
  split
  · exact (init_prefix_cache_blocks_refInv seq).pre fun s' (hs' : s' = s) => hs' ▸ hs
  · rename_i m hm
    refine Triple.bind (((get_prefix_cache_blocks_range_refInv n held _ _ _).frame
      (get_prefix_cache_blocks_range_keeps seq_block_mapping_table _ _ _)
      (fun t => t.lookup seq.seq_id = some m)).pre ?_) fun ids => ?_
    · rintro _ rfl; exact ⟨hs, hm⟩
    rintro s₁ ⟨⟨h₁, hlt⟩, hm₁⟩
    refine Triple.bind ((retain_all_refInv hlt held).frame (f := seq_block_mapping_table)
      (Keeps.forM (fun _ => on_allocator_keeps (fun _ _ => rfl) _) _)
      (fun t => t.lookup seq.seq_id = some m)) (fun _ => ?_) s₁ ⟨h₁, hm₁⟩
    refine Triple.bind (Triple.modify (Q := fun _ s => s.RefInv n held) fun s' ⟨h', hm'⟩ => ?_)
      fun _ => Triple.pure fun _ h => h
    refine h'.set_block_map fun b => ?_
    have hm'' : s'.get_block_map seq.seq_id = some m := hm'
    simp only [hm'', List.count_append]; omega

theorem reserve_loop_refInv (token_ids offsets : List Nat) (held : List Nat) :
    Triple (RefInv n held) (reserve_loop token_ids offsets)
      (fun pairs s => s.RefInv n (pairs.map (·.1) ++ held)) NoFault := by
  induction offsets generalizing held with
  | nil => exact Triple.pure fun _ h => h
  | cons offset rest ih =>
    refine Triple.get_bind fun s hs => ?_
    refine Triple.ite (fun _ => Triple.pure fun s' (hs' : s' = s) => by
      subst hs'; exact hs) fun _ => ?_
    refine Triple.bind ((alloc_block_refInv held).pre fun s' (hs' : s' = s) => hs' ▸ hs)
      fun b => ?_
    refine Triple.get_bind fun s₁ ⟨h₁, hb⟩ => ?_
    refine Triple.bind (append_tokens_refInv _ _) fun block => ?_
    refine Triple.bind (Triple.modify (Q := fun _ s => s.RefInv n (b :: held)) ?_) fun _ => ?_
    · rintro _ ⟨rfl, href, hst⟩
      exact h₁.set_block _ href hst
    · refine Triple.bind (ih (b :: held)) fun pairs => Triple.pure fun s' h => ?_
      exact h.congr_held fun x => by simp [List.count_cons, List.count_append]; omega

theorem reserve_loop_regions (token_ids offsets : List Nat) :
    Keeps reserved_blocks_table (reserve_loop token_ids offsets) :=
  (reserve_loop_tables token_ids offsets).part (·.2.2)

theorem reserve_blocks_refInv (r : Nat) (token_ids : List Nat) (start : Nat) :
    Triple (fun s => s.RefInv n held ∧ s.reserved_blocks_table.lookup r = none)
      (reserve_blocks r token_ids start) (fun _ s => s.RefInv n held) NoFault := by
  refine Triple.get_bind fun s hs => ?_
  refine Triple.bind (((reserve_loop_refInv token_ids _ held).frame
    (reserve_loop_regions token_ids _) (fun t => t.lookup r = none)).pre
    fun s' (hs' : s' = s) => hs' ▸ hs) fun pairs => ?_
  refine Triple.ite (fun hp => Triple.pure fun s' h => ?_) fun _ => ?_
  · rw [List.isEmpty_iff.1 hp] at h; exact h.1
  · exact Triple.bind (Triple.modify (Q := fun _ s => s.RefInv n held)
      fun s' h => h.1.insert_region h.2) fun _ => Triple.pure fun _ h => h

end hashing

end BlockManager

/-! ### Runs of a manager -/

/-- The operations of a manager, with their arguments. -/
inductive BmOp where
  | alloc_blocks (seq : Sequence)
  | init_prefix_cache_blocks (seq : Sequence)
  | update_prefix_cache_blocks (seq : Sequence)
  | reserve_blocks (region_id : Nat) (token_ids : List Nat) (start : Nat)
  | activate_reserved_blocks (region_id : Nat) (hash_values : List Nat)
  | pin_blocks_by_hashes (region_id : Nat) (hash_values : List Nat)
  | unpin_blocks (region_id : Nat)
  | update_filled_len (seq_id new_filled_token_len : Nat)
  | free (seq_id : Nat)
  | free_and_drop_cache (seq_id : Nat)
  | clear_cache

namespace BmOp

theorem discard {α : Type} {P : BlockManager → Prop} {x : BM α} {E : Panic → Prop}
    (h : Triple P x (fun _ => P) E) : Triple P (do let _ ← x) (fun _ => P) E :=
  Triple.bind h fun _ => Triple.pure fun _ h => h

section runs
variable [Hasher]

def exec : BmOp → BM PUnit
  | alloc_blocks seq => do let _ ← BlockManager.alloc_blocks seq
  | init_prefix_cache_blocks seq => do let _ ← BlockManager.init_prefix_cache_blocks seq
  | update_prefix_cache_blocks seq => do let _ ← BlockManager.update_prefix_cache_blocks seq
  | reserve_blocks r token_ids start => do let _ ← BlockManager.reserve_blocks r token_ids start
  | activate_reserved_blocks r hashes => do
    let _ ← BlockManager.activate_reserved_blocks r hashes
  | pin_blocks_by_hashes r hashes => do let _ ← BlockManager.pin_blocks_by_hashes r hashes
  | unpin_blocks r => do let _ ← BlockManager.unpin_blocks r
  | update_filled_len i len => BlockManager.update_filled_len i len
  | free i => BlockManager.free i
  | free_and_drop_cache i => BlockManager.free_and_drop_cache i
  | clear_cache => BlockManager.clear_cache

/-- A region is created under an id no outstanding region has. -/
def Fresh (s : BlockManager) : BmOp → Prop
  | reserve_blocks r _ _ | pin_blocks_by_hashes r _ => s.reserved_blocks_table.lookup r = none
  | _ => True

instance (s : BlockManager) : DecidablePred (Fresh s)
  | reserve_blocks _ _ _ | pin_blocks_by_hashes _ _ => inferInstanceAs (Decidable (_ = none))
  | alloc_blocks _ | init_prefix_cache_blocks _ | update_prefix_cache_blocks _
  | activate_reserved_blocks _ _ | unpin_blocks _ | update_filled_len _ _ | free _
  | free_and_drop_cache _ | clear_cache => isTrue trivial

/-- One operation that returns normally. -/
def Step (s : BlockManager) (op : BmOp) (s' : BlockManager) : Prop :=
  op.Fresh s ∧ op.exec s = .ok .unit s'

theorem exec_refInv {n : Nat} (op : BmOp) :
    Triple (fun s => s.RefInv n [] ∧ op.Fresh s) op.exec (fun _ s => s.RefInv n [])
      BlockManager.NoFault := by
  cases op with
  | alloc_blocks seq =>
    exact (discard (BlockManager.alloc_blocks_refInv seq)).pre fun _ h => h.1
  | init_prefix_cache_blocks seq =>
    exact (discard (BlockManager.init_prefix_cache_blocks_refInv seq)).pre fun _ h => h.1
  | update_prefix_cache_blocks seq =>
    exact (discard (BlockManager.update_prefix_cache_blocks_refInv seq)).pre fun _ h => h.1
  | reserve_blocks r token_ids start =>
    exact Triple.bind (BlockManager.reserve_blocks_refInv r token_ids start) fun _ =>
      Triple.pure fun _ h => h
  | activate_reserved_blocks r hashes =>
    exact (discard (BlockManager.activate_reserved_blocks_refInv r hashes)).pre fun _ h => h.1
  | pin_blocks_by_hashes r hashes =>
    exact Triple.bind (BlockManager.pin_blocks_by_hashes_refInv r hashes) fun _ =>
      Triple.pure fun _ h => h
  | unpin_blocks r => exact (discard (BlockManager.unpin_blocks_refInv r)).pre fun _ h => h.1
  | update_filled_len i len =>
    exact (BlockManager.update_filled_len_refInv i len).pre fun _ h => h.1
  | free i => exact (BlockManager.free_refInv i).pre fun _ h => h.1
  | free_and_drop_cache i =>
    exact (BlockManager.free_and_drop_cache_refInv i).pre fun _ h => h.1
  | clear_cache => exact BlockManager.clear_cache_refInv.pre fun _ h => h.1

theorem run_refInv {bs n : Nat} {hbs : 0 < bs} {ops : List BmOp} {s : BlockManager}
    (h : Run Step (BlockManager.new bs hbs n) ops s) : s.RefInv n [] :=
  h.invariant (I := BlockManager.RefInv n []) (BlockManager.RefInv.new bs hbs n)
    fun _ op _ hI hs => (exec_refInv op).of_ok ⟨hI, hs.1⟩ hs.2

/-- After any operations that return normally, in any order: a block's reference count is the number
of times the block maps and the regions list it; the free list, the status and a zero count agree;
the block `alloc_block` would hand out next is referred to by nobody; and the next operation cannot
stop with a double free or one of the allocator's other faults. -/
theorem ref_cnt_eq_refs {bs n : Nat} {hbs : 0 < bs} {ops : List BmOp} {s : BlockManager}
    (h : Run Step (BlockManager.new bs hbs n) ops s) :
    (∀ b, b < n → (s.get_block b).ref_cnt = s.refs b ∧
      (b ∈ s.block_allocator.free_block_ids ↔ (s.get_block b).status = .Free) ∧
      ((s.get_block b).status = .Free ↔ (s.get_block b).ref_cnt = 0)) ∧
    (∀ b a, BlockAllocator.alloc_block s.block_allocator = .ok b a → b < n ∧ s.refs b = 0) ∧
    (∀ op : BmOp, op.Fresh s → ∀ e s', op.exec s = .error e s' → e.isFault = false) := by
  have hI := run_refInv h
  refine ⟨fun b hb => ?_, fun b a ha => ?_, fun op hop e s' he => ?_⟩
  · have hb' : b < s.block_allocator.num_total_blocks := by rw [hI.total]; exact hb
    have href : (s.get_block b).ref_cnt = s.refs b := by simpa using hI.ref_cnt hb
    have hfree := hI.count.mem_free b
    have hstatus : (s.get_block b).status = .Free ↔ _ := hI.count.status_free b hb'
    refine ⟨href, ?_, ?_⟩
    · rw [hfree, hstatus]; exact and_iff_right hb'
    · rw [hstatus, href]; simp
  · obtain ⟨rest, hfree, -, -⟩ := BlockAllocator.alloc_block_ok ha
    have := (hI.count.mem_free b).1 (by rw [hfree]; simp)
    rw [hI.total] at this; simpa using this
  · exact (exec_refInv op).of_error ⟨hI, hop⟩ he

/-- `Step` as a function. -/
def next (s : BlockManager) (op : BmOp) : Option BlockManager :=
  if op.Fresh s then
    match op.exec s with
    | .ok _ s' => some s'
    | .error _ _ => none
  else none

theorem step_of_next {s s' : BlockManager} {op : BmOp} (h : next s op = some s') : Step s op s' := by
  unfold next at h
  split at h
  · rename_i hfresh
    split at h
    · rename_i s₁ hexec
      obtain rfl := Option.some.inj h
      exact ⟨hfresh, hexec⟩
    · cases h
  · cases h

end runs

/-- Two sequences with a common first block, one of them freed. -/
theorem ref_cnt_eq_refs_shared :
    let _ := decimalHasher
    let a := Sequence.new 0 0 [1, 2, 3] none false false
    let b := Sequence.new 1 1 [1, 2, 4] none false false
    ∃ s, Run Step (BlockManager.new 2 (by decide) 4)
        [alloc_blocks a, init_prefix_cache_blocks b, alloc_blocks b, free 0] s ∧
      (s.get_block 0).ref_cnt = 1 ∧ s.refs 0 = 1 := by
  intro _ a b
  have hfollow : (Run.follow next (BlockManager.new 2 (by decide) 4)
      [alloc_blocks a, init_prefix_cache_blocks b, alloc_blocks b, free 0]).any
      (fun s => (s.get_block 0).ref_cnt = 1) = true := by decide +kernel
  obtain ⟨s, hrun, hs⟩ := Run.exists_of_follow (fun _ _ _ => step_of_next) hfollow
  have href : (s.get_block 0).ref_cnt = 1 := by simpa using hs
  refine ⟨s, hrun, href, ?_⟩
  have := ((ref_cnt_eq_refs hrun).1 0 (by decide)).1
  omega

end BmOp

end LMServe
