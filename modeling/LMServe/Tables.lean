import LMServe.BlockManager

/-!
# What work on single blocks leaves alone

Taking blocks, writing them, publishing them and giving them up touches the allocator and the table of
hashes. The block size, the maps of the sequences and the regions (`tables`) stay as they are, however
the operation ends.
-/

namespace LMServe
open Hoare Chunk

namespace BlockManager

/-- The part of a manager that work on single blocks does not touch. -/
def tables (m : BlockManager) : Nat × Table BlockMap × Table (List Nat) :=
  (m.block_size, m.seq_block_mapping_table, m.reserved_blocks_table)

theorem on_allocator_keeps {α γ : Type} {f : BlockManager → γ}
    (h : ∀ a s, f { s with block_allocator := a } = f s) (x : EStateM Panic BlockAllocator α) :
    Keeps f (on_allocator x) :=
  Keeps.zoom h

theorem on_allocator_tables {α : Type} (x : EStateM Panic BlockAllocator α) :
    Keeps tables (on_allocator x) :=
  on_allocator_keeps (fun _ _ => rfl) x

theorem append_tokens_keeps {γ : Type} {f : BlockManager → γ} (block : Block) (l : List Nat) :
    Keeps f (append_tokens block l) :=
  Keeps.get.bind fun _ => Keeps.ite (Keeps.pure _) (Keeps.throw _)

theorem drop_cache_tables (b : Nat) : Keeps tables (drop_cache b) := by
  refine Keeps.bind (Keeps.get.bind fun s => ?_) fun block =>
    Keeps.ite (Keeps.modify fun _ => rfl) (Keeps.pure _)
  split
  · exact Keeps.pure _
  · exact Keeps.throw _

theorem free_loop_tables (filled : Nat) (ids : List Nat) :
    ∀ cnt, Keeps tables (free_loop filled cnt ids) := by
  induction ids with
  | nil => exact fun _ => Keeps.pure _
  | cons b ids ih =>
    intro cnt
    refine (on_allocator_tables _).bind fun _ => Keeps.get.bind fun s => ?_
    exact (Keeps.ite (drop_cache_tables b) (Keeps.pure _)).bind fun _ => ih _

theorem release_and_drop_tables (ids : List Nat) :
    Keeps tables (forM ids fun b => do on_allocator (BlockAllocator.free_block b); drop_cache b) :=
  Keeps.forM (fun b => (on_allocator_tables _).bind fun _ => drop_cache_tables b) ids

theorem retain_all_tables (ids : List Nat) :
    Keeps tables (forM ids fun b => on_allocator (BlockAllocator.alloc_block_by_id b)) :=
  Keeps.forM (fun _ => on_allocator_tables _) ids

theorem activate_all_tables (hash_values ids : List Nat) :
    Keeps tables (ids.mapM (activate_block hash_values)) := by
  refine Keeps.mapM (fun b => Keeps.get.bind fun s => Keeps.bind (Keeps.modify fun s' => ?_) fun _ => ?_) ids
  · split <;> rfl
  · exact (on_allocator_tables _).bind fun _ => Keeps.pure _

/-- Looking blocks up changes no entry of the hash table. -/
theorem retain_all_table (ids : List Nat) : Keeps hash_block_table
    (forM ids fun b => on_allocator (BlockAllocator.alloc_block_by_id b)) :=
  Keeps.forM (fun _ => on_allocator_keeps (fun _ _ => rfl) _) ids

theorem unpin_blocks_table (r : Nat) : Keeps hash_block_table (unpin_blocks r) := by
  refine Keeps.get.bind fun s => ?_
  split
  · exact Keeps.pure _
  · refine Keeps.bind (Keeps.modify fun _ => rfl) fun _ => Keeps.bind ?_ fun _ => Keeps.pure _
    exact Keeps.forM (fun _ => on_allocator_keeps (fun _ _ => rfl) _) _

theorem update_filled_len_table (i len : Nat) : Keeps hash_block_table (update_filled_len i len) := by
  refine Keeps.get.bind fun s => ?_
  split
  · exact Keeps.pure _
  · exact Keeps.ite (Keeps.modify fun _ => rfl) (Keeps.throw _)

theorem pin_loop_table (hash_values : List Nat) : Keeps hash_block_table (pin_loop hash_values) := by
  induction hash_values with
  | nil => exact Keeps.pure _
  | cons hash rest ih =>
    refine Keeps.get.bind fun s => ?_
    split
    · exact (on_allocator_keeps (fun _ _ => rfl) _).bind fun _ => ih.bind fun _ => Keeps.pure _
    · exact Keeps.pure _

theorem pin_blocks_by_hashes_table (r : Nat) (hash_values : List Nat) :
    Keeps hash_block_table (pin_blocks_by_hashes r hash_values) :=
  (pin_loop_table hash_values).bind fun _ => Keeps.bind (Keeps.modify fun _ => rfl) fun _ => Keeps.pure _

theorem pin_loop_tables (hash_values : List Nat) : Keeps tables (pin_loop hash_values) := by
  induction hash_values with
  | nil => exact Keeps.pure _
  | cons hash rest ih =>
    refine Keeps.get.bind fun s => ?_
    split
    · exact (on_allocator_tables _).bind fun _ => ih.bind fun _ => Keeps.pure _
    · exact Keeps.pure _

section
variable [Hasher]

theorem get_num_required_blocks_keeps {γ : Type} (f : BlockManager → γ) (seq : Sequence) :
    Keeps f (get_num_required_blocks seq) := by
  have hsub : ∀ a b, Keeps f (checked_sub a b) := fun a b => Keeps.ite (Keeps.pure _) (Keeps.throw _)
  refine Keeps.get.bind fun m => ?_
  split
  · exact hsub _ _
  · exact hsub _ _

theorem can_alloc_seq_keeps {γ : Type} (f : BlockManager → γ) (seq : Sequence) (w : Watermark) :
    Keeps f (can_alloc_seq seq w) :=
  (get_num_required_blocks_keeps f seq).bind fun _ => Keeps.get.bind fun _ => Keeps.pure _

theorem get_prefix_cache_blocks_range_keeps {γ : Type} (f : BlockManager → γ) (token_ids : List Nat)
    (start stop : Nat) : Keeps f (get_prefix_cache_blocks_range token_ids start stop) := by
  refine Keeps.get.bind fun s => ?_
  exact Keeps.ite (Keeps.pure _) (Keeps.throw _)

theorem reserve_loop_tables (token_ids offsets : List Nat) :
    Keeps tables (reserve_loop token_ids offsets) := by
  induction offsets with
  | nil => exact Keeps.pure _
  | cons offset rest ih =>
    refine Keeps.get.bind fun s => Keeps.ite (Keeps.pure _) ?_
    refine (on_allocator_tables _).bind fun b => Keeps.get.bind fun s₁ => ?_
    refine (append_tokens_keeps _ _).bind fun block => ?_
    refine Keeps.bind (Keeps.modify fun _ => rfl) fun _ => ?_
    exact ih.bind fun _ => Keeps.pure _

theorem init_prefix_cache_blocks_table (seq : Sequence) :
    Keeps hash_block_table (init_prefix_cache_blocks seq) := by
  refine Keeps.get.bind fun s => ?_
  split
  · exact Keeps.pure _
  · exact (retain_all_table _).bind fun _ => Keeps.bind (Keeps.modify fun _ => rfl) fun _ => Keeps.pure _

theorem update_prefix_cache_blocks_table (seq : Sequence) :
    Keeps hash_block_table (update_prefix_cache_blocks seq) := by
  refine Keeps.get.bind fun s => ?_
  split
  · exact init_prefix_cache_blocks_table seq
  · refine (get_prefix_cache_blocks_range_keeps _ _ _ _).bind fun ids => ?_
    exact (retain_all_table _).bind fun _ => Keeps.bind (Keeps.modify fun _ => rfl) fun _ => Keeps.pure _

theorem reserve_loop_table (token_ids offsets : List Nat) :
    Keeps hash_block_table (reserve_loop token_ids offsets) := by
  induction offsets with
  | nil => exact Keeps.pure _
  | cons offset rest ih =>
    refine Keeps.get.bind fun s => Keeps.ite (Keeps.pure _) ?_
    refine (on_allocator_keeps (fun _ _ => rfl) _).bind fun b => Keeps.get.bind fun s₁ => ?_
    refine (append_tokens_keeps _ _).bind fun block => ?_
    exact Keeps.bind (Keeps.modify fun _ => rfl) fun _ => ih.bind fun _ => Keeps.pure _

theorem reserve_blocks_table (r : Nat) (token_ids : List Nat) (start : Nat) :
    Keeps hash_block_table (reserve_blocks r token_ids start) := by
  refine Keeps.get.bind fun s => (reserve_loop_table _ _).bind fun pairs => ?_
  exact Keeps.ite (Keeps.pure _) (Keeps.bind (Keeps.modify fun _ => rfl) fun _ => Keeps.pure _)

theorem publish_if_full_tables (b : Nat) (block : Block) (T : List Nat) :
    Keeps tables (publish_if_full b block T) := by
  refine Keeps.modify fun s => ?_
  split <;> rfl

theorem alloc_new_block_tables (T : List Nat) (off : Nat) : Keeps tables (alloc_new_block T off) := by
  refine Keeps.get.bind fun s => (on_allocator_tables _).bind fun b => ?_
  refine Keeps.get.bind fun s₁ => Keeps.bind (Keeps.modify fun _ => rfl) fun _ => ?_
  refine (append_tokens_keeps _ _).bind fun block => ?_
  exact (publish_if_full_tables _ _ _).bind fun _ => Keeps.pure _

theorem fill_last_block_tables (seq : Sequence) (slots tokens : Nat) :
    Keeps tables (fill_last_block seq slots tokens) := by
  refine Keeps.ite (Keeps.pure _) (Keeps.get.bind fun s => ?_)
  split
  · exact Keeps.throw _
  · refine Keeps.bind (Keeps.get.bind fun s => ?_) fun block => Keeps.ite ?_ (Keeps.pure _)
    · split
      · exact Keeps.pure _
      · exact Keeps.throw _
    · refine (append_tokens_keeps _ _).bind fun block => ?_
      exact (publish_if_full_tables _ _ _).bind fun _ => Keeps.pure _

end

end BlockManager

end LMServe
