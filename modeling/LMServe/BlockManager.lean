import LMServe.Sequence
import LMServe.BlockAllocator
import LMServe.Lib.Chunk

/-!
# The block manager (`block_manager.rs`, `BlockManager`)

One manager per device. It keeps, for each sequence, the list of its blocks (`BlockMap`), a table
from prefix hashes to blocks for prefix caching, and the blocks reserved by regions. The hash
function (`hash.rs`, an `ahash` state with fixed seeds) is a parameter.
-/

namespace LMServe
open Chunk

/-- `compute_hash` of `hash.rs`, on token prefixes. -/
class Hasher where
  compute_hash : List Nat → Nat

export Hasher (compute_hash)

/-- The hash function of the concrete runs below: the tokens as decimal digits after a leading `1`,
never `0` and without collisions on tokens below ten. -/
abbrev decimalHasher : Hasher := ⟨fun l => l.foldl (fun h t => 10 * h + t) 1⟩

structure BlockMap where
  block_ids : List Nat
  num_allocated_slots : Nat
  filled_token_len : Nat
deriving DecidableEq, Repr

/-- The map a sequence without one starts from. -/
def BlockMap.empty : BlockMap := ⟨[], 0, 0⟩

def BlockMap.append_block_ids (m : BlockMap) (block_ids : List Nat) (num_allocated_slots : Nat) :
    BlockMap :=
  { m with
    block_ids := m.block_ids ++ block_ids
    num_allocated_slots := m.num_allocated_slots + num_allocated_slots }

/-- The blocks reserved by one `reserve_blocks` or `pin_blocks_by_hashes` call. -/
structure BlockRegion where
  id : Nat
  block_ids : List Nat
  hashes : List Nat
deriving DecidableEq, Repr

/-- With `block_size = 0` every division of the source panics, so no manager gets past its first
call; the type excludes it. -/
structure BlockManager where
  block_size : Nat
  block_size_pos : 0 < block_size
  seq_block_mapping_table : Table BlockMap
  hash_block_table : Table Nat
  block_allocator : BlockAllocator
  reserved_blocks_table : Table (List Nat)

/-- Operations of a manager. -/
abbrev BM := EStateM Panic BlockManager

/-- `a - b` on `usize`. -/
def checked_sub {σ : Type} (a b : Nat) : EStateM Panic σ Nat :=
  if b ≤ a then pure (a - b) else throw .subOverflow

namespace BlockManager

variable [Hasher]

def new (block_size : Nat) (h : 0 < block_size) (num_blocks : Nat) : BlockManager where
  block_size := block_size
  block_size_pos := h
  seq_block_mapping_table := ∅
  hash_block_table := ∅
  block_allocator := BlockAllocator.new num_blocks
  reserved_blocks_table := ∅

def get_block (s : BlockManager) (block_id : Nat) : Block := s.block_allocator.get_block block_id

/-- Overwrite a block of the pool. -/
def set_block (s : BlockManager) (block_id : Nat) (block : Block) : BlockManager :=
  { s with
    block_allocator := { s.block_allocator with
      block_pool := s.block_allocator.block_pool.set block_id block } }

def get_block_map (s : BlockManager) (seq_id : Nat) : Option BlockMap :=
  s.seq_block_mapping_table.lookup seq_id

def set_block_map (s : BlockManager) (seq_id : Nat) (m : BlockMap) : BlockManager :=
  { s with seq_block_mapping_table := s.seq_block_mapping_table.insert seq_id m }

/-- Run an allocator operation. -/
def on_allocator {α : Type} (x : EStateM Panic BlockAllocator α) : BM α :=
  Hoare.zoom block_allocator (fun a s => { s with block_allocator := a }) x

/-! ### Queries -/

/-- Return (block_range, last_filled_token_idx) -/
def get_block_ids_range (s : BlockManager) (seq_id start stop : Nat)
    (include_partial_block : Bool) : Option (List Nat × Nat) :=
  let block_start := start / s.block_size
  let block_end := stop / s.block_size + include_partial_block.toNat
  if block_start ≥ block_end then none
  else
    match s.get_block_map seq_id with
    | none => none
    | some block_map =>
      let block_ids := block_map.block_ids
      if block_start ≥ block_ids.length then none
      else
        let block_end := min block_end block_ids.length
        let last_block := s.get_block (block_ids.getD (block_end - 1) 0)
        let last_token_idx := (block_end - 1) * s.block_size + last_block.token_ids.length
        some (slice block_ids block_start block_end, min last_token_idx block_map.filled_token_len)

def get_filled_token_len (s : BlockManager) (seq_id : Nat) : Nat :=
  match s.get_block_map seq_id with
  | some block_map => block_map.filled_token_len
  | none => 0

def get_num_allocated_blocks (s : BlockManager) (seq_id : Nat) : Nat :=
  match s.get_block_map seq_id with
  | some block_map => block_map.block_ids.length
  | none => 0

def get_num_allocated_unique_blocks (s : BlockManager) (seq_id : Nat) : Nat :=
  match s.get_block_map seq_id with
  | some block_map => block_map.block_ids.countP fun b => (s.get_block b).ref_cnt = 1
  | none => 0

def get_last_block_id (s : BlockManager) (seq_id : Nat) : Option Nat :=
  match s.get_block_map seq_id with
  | some block_map => block_map.block_ids.getLast?
  | none => none

def get_num_allocated_slots (s : BlockManager) (seq_id : Nat) : Nat :=
  match s.get_block_map seq_id with
  | some block_map => block_map.num_allocated_slots
  | none => 0

def lookup_block_id (s : BlockManager) (hash : Nat) : Option Nat :=
  match s.hash_block_table.lookup hash with
  | some block_id => if (s.get_block block_id).hash = hash then some block_id else none
  | none => none

/-- Compares tokens and logs a warning; every caller ignores the answer. -/
def check_hash_collision (s : BlockManager) (block_id : Nat) (token_ids : List Nat) : Bool :=
  (s.get_block block_id).token_ids = token_ids

/-- The loop shared by the two prefix lookups, over the token offsets still to visit: it ends at
the first offset without a full block of tokens or without a table hit. -/
def prefix_hits (s : BlockManager) (token_ids : List Nat) (stop : Nat) : List Nat → List Nat
  | [] => []
  | token_offset :: rest =>
    let token_end := min (token_offset + s.block_size) stop
    if token_end - token_offset < s.block_size then []
    else
      match s.lookup_block_id (compute_hash (token_ids.take token_end)) with
      | some block_id => block_id :: prefix_hits s token_ids stop rest
      | none => []

def get_prefix_cache_blocks (s : BlockManager) (token_ids : List Nat) : List Nat :=
  s.prefix_hits token_ids token_ids.length (step_by 0 token_ids.length s.block_size)

/-- The source returns the end of the match as well; its only caller drops it. -/
def get_prefix_cache_blocks_range (token_ids : List Nat) (start stop : Nat) : BM (List Nat) := do
  let s ← get
  let start := div_ceil start s.block_size * s.block_size
  let stop := min stop token_ids.length
  if start ≤ stop then
    pure (s.prefix_hits token_ids stop (step_by start stop s.block_size))
  else throw .rangeOrder

def get_num_required_blocks (seq : Sequence) : BM Nat := do
  let s ← get
  let num_total_blocks := div_ceil seq.token_ids.length s.block_size
  match s.get_block_map seq.seq_id with
  | some _ => checked_sub num_total_blocks (s.get_num_allocated_blocks seq.seq_id)
  | none => checked_sub num_total_blocks (s.get_prefix_cache_blocks seq.token_ids).length

def can_alloc_blocks (s : BlockManager) (num_blocks : Nat) (watermark : Watermark) : Bool :=
  s.block_allocator.can_alloc_blocks num_blocks watermark

def can_alloc_seq (seq : Sequence) (watermark : Watermark) : BM Bool := do
  let num_blocks ← get_num_required_blocks seq
  return (← get).can_alloc_blocks num_blocks watermark

/-! ### Allocation -/

def get_block_mut (block_id : Nat) : BM Block := do
  match (← get).block_allocator.block_pool[block_id]? with
  | some block => pure block
  | none => throw (.outOfBounds block_id)

/-- `Block::append_tokens`, on the block read by `get_block_mut`. -/
def append_tokens (block : Block) (new_token_ids : List Nat) : BM Block := do
  if block.token_ids.length + new_token_ids.length ≤ (← get).block_size then
    pure { block with token_ids := block.token_ids ++ new_token_ids }
  else throw .appendTokens

/-- Write a block back; if it has just become full, publish it under the hash of the tokens up to
its end. -/
def publish_if_full (block_id : Nat) (block : Block) (tokens : List Nat) : BM PUnit :=
  modify fun s =>
    if block.get_num_empty_slots s.block_size = 0 then
      let hash := compute_hash tokens
      { s.set_block block_id { block with hash := hash } with
        hash_block_table := s.hash_block_table.insert hash block_id }
    else s.set_block block_id block

/-- First half of `alloc_blocks`, for a sequence that has slots already: fill up its last block.
Returns the number of slots allocated so far. -/
def fill_last_block (seq : Sequence) (num_allocated_slots num_alloc_tokens : Nat) : BM Nat := do
  if num_allocated_slots = 0 then pure 0 else
  let s ← get
  match s.get_last_block_id seq.seq_id with
  | none => throw .lastBlockNotFound
  | some last_block_id =>
    let last_block ← get_block_mut last_block_id
    let num_append_slots := min (last_block.get_num_empty_slots s.block_size) num_alloc_tokens
    if 0 < num_append_slots then
      let token_end := num_allocated_slots + num_append_slots
      let last_block ← append_tokens last_block (slice seq.token_ids num_allocated_slots token_end)
      publish_if_full last_block_id last_block (seq.token_ids.take token_end)
      pure (num_allocated_slots + num_append_slots)
    else pure num_allocated_slots

/-- Body of the loop of `alloc_blocks`: a new block for the tokens from `token_offset` on. The
table entry left behind by the block's previous content is removed. -/
def alloc_new_block (token_ids : List Nat) (token_offset : Nat) : BM Nat := do
  let token_end := min (token_offset + (← get).block_size) token_ids.length
  let block_id ← on_allocator BlockAllocator.alloc_block
  let block := (← get).get_block block_id
  modify fun s => { s with hash_block_table := s.hash_block_table.erase block.hash }
  let block ← append_tokens block.clear (slice token_ids token_offset token_end)
  publish_if_full block_id block (token_ids.take token_end)
  pure block_id

def alloc_blocks (seq : Sequence) : BM Nat := do
  let num_allocated_slots := (← get).get_num_allocated_slots seq.seq_id
  let total_token_len := seq.token_ids.length
  let num_alloc_tokens ← checked_sub total_token_len num_allocated_slots
  let num_allocated_slots ← fill_last_block seq num_allocated_slots num_alloc_tokens
  let offsets := step_by num_allocated_slots total_token_len (← get).block_size
  let new_block_ids ← offsets.mapM (alloc_new_block seq.token_ids)
  modify fun s =>
    match s.get_block_map seq.seq_id with
    | some block_map =>
      s.set_block_map seq.seq_id (block_map.append_block_ids new_block_ids num_alloc_tokens)
    | none => s.set_block_map seq.seq_id ⟨new_block_ids, num_alloc_tokens, 0⟩
  pure num_alloc_tokens

def init_prefix_cache_blocks (seq : Sequence) : BM Nat := do
  let s ← get
  match s.get_block_map seq.seq_id with
  | some _ => pure 0
  | none =>
    let block_ids := s.get_prefix_cache_blocks seq.token_ids
    forM block_ids fun b => on_allocator (BlockAllocator.alloc_block_by_id b)
    let reused_token_len := block_ids.length * s.block_size
    modify (·.set_block_map seq.seq_id ⟨block_ids, reused_token_len, reused_token_len⟩)
    pure reused_token_len

def update_prefix_cache_blocks (seq : Sequence) : BM Nat := do
  let s ← get
  match s.get_block_map seq.seq_id with
  | none => init_prefix_cache_blocks seq
  | some block_map =>
    let block_ids ← get_prefix_cache_blocks_range seq.token_ids block_map.filled_token_len
      seq.token_ids.length
    forM block_ids fun b => on_allocator (BlockAllocator.alloc_block_by_id b)
    let cached_token_len := block_map.filled_token_len + block_ids.length * s.block_size
    modify (·.set_block_map seq.seq_id
      ⟨block_map.block_ids ++ block_ids, cached_token_len, cached_token_len⟩)
    pure (cached_token_len - block_map.filled_token_len)

/-! ### Regions -/

/-- The loop of `reserve_blocks`: a block for each full block of tokens. Nothing is published, and
the table entry of the block's previous content stays. -/
def reserve_loop (token_ids : List Nat) : List Nat → BM (List (Nat × Nat))
  | [] => pure []
  | token_offset :: rest => do
    let block_size := (← get).block_size
    let token_end := min (token_offset + block_size) token_ids.length
    if token_end - token_offset < block_size then pure []
    else
      let block_id ← on_allocator BlockAllocator.alloc_block
      let block ← append_tokens ((← get).get_block block_id).clear
        (slice token_ids token_offset token_end)
      let hash := compute_hash (token_ids.take token_end)
      modify (·.set_block block_id { block with hash := hash })
      return (block_id, hash) :: (← reserve_loop token_ids rest)

def insert_region (region : BlockRegion) : BM PUnit :=
  modify fun s =>
    { s with reserved_blocks_table := s.reserved_blocks_table.insert region.id region.block_ids }

/-- `region_id` is the id `generate_id` draws for the region. -/
def reserve_blocks (region_id : Nat) (token_ids : List Nat) (start : Nat) :
    BM (Option BlockRegion) := do
  let block_size := (← get).block_size
  let start := start / block_size * block_size
  let pairs ← reserve_loop token_ids (step_by start token_ids.length block_size)
  if pairs.isEmpty then pure none
  else
    let region : BlockRegion := ⟨region_id, pairs.map (·.1), pairs.map (·.2)⟩
    insert_region region
    pure (some region)

/-- `hash_block_table.entry(h).or_insert(block_id)`, for the blocks whose hash is listed. -/
def publish_reserved (hash_values : List Nat) (h block_id : Nat) : BM PUnit :=
  modify fun s =>
    if h ∈ hash_values ∧ s.hash_block_table.lookup h = none then
      { s with hash_block_table := s.hash_block_table.insert h block_id }
    else s

/-- Body of the loop of `activate_reserved_blocks`: publish the block and give up the region's
reference. -/
def activate_block (hash_values : List Nat) (block_id : Nat) : BM Nat := do
  let h := ((← get).get_block block_id).hash
  publish_reserved hash_values h block_id
  on_allocator (BlockAllocator.free_block block_id)
  pure (if h ∈ hash_values then 1 else 0)

def activate_reserved_blocks (region_id : Nat) (hash_values : List Nat) : BM Nat := do
  match (← get).reserved_blocks_table.lookup region_id with
  | none => pure 0
  | some block_ids =>
    modify fun s => { s with reserved_blocks_table := s.reserved_blocks_table.erase region_id }
    let activated ← block_ids.mapM (activate_block hash_values)
    pure activated.sum

def pin_loop : List Nat → BM (List (Nat × Nat))
  | [] => pure []
  | hash :: rest => do
    match (← get).lookup_block_id hash with
    | some block_id =>
      on_allocator (BlockAllocator.alloc_block_by_id block_id)
      return (block_id, hash) :: (← pin_loop rest)
    | none => pure []

def pin_blocks_by_hashes (region_id : Nat) (hash_values : List Nat) : BM BlockRegion := do
  let pairs ← pin_loop hash_values
  let region : BlockRegion := ⟨region_id, pairs.map (·.1), pairs.map (·.2)⟩
  insert_region region
  pure region

def unpin_blocks (region_id : Nat) : BM Nat := do
  match (← get).reserved_blocks_table.lookup region_id with
  | none => pure 0
  | some block_ids =>
    modify fun s => { s with reserved_blocks_table := s.reserved_blocks_table.erase region_id }
    forM block_ids fun b => on_allocator (BlockAllocator.free_block b)
    pure block_ids.length

/-! ### Filling and freeing -/

def update_filled_len (seq_id new_filled_token_len : Nat) : BM PUnit := do
  match (← get).get_block_map seq_id with
  | none => pure .unit
  | some block_map =>
    if new_filled_token_len ≤ block_map.num_allocated_slots then
      modify (·.set_block_map seq_id { block_map with filled_token_len := new_filled_token_len })
    else throw .filledBeyondSlots

def drop_cache (block_id : Nat) : BM PUnit := do
  let block ← get_block_mut block_id
  if block.ref_cnt = 0 then
    modify fun s =>
      { s.set_block block_id block.clear with
        hash_block_table := s.hash_block_table.erase block.hash }
  else pure .unit

/-- A block whose last token lies beyond the filled ones is forgotten. -/
def drop_unfilled (filled_token_len freed_token_cnt block_id : Nat) : BM PUnit :=
  if filled_token_len < freed_token_cnt then drop_cache block_id else pure .unit

/-- The loop of `free`: `freed_token_cnt` counts the tokens of the blocks already given up. -/
def free_loop (filled_token_len : Nat) : Nat → List Nat → BM PUnit
  | _, [] => pure .unit
  | freed_token_cnt, block_id :: rest => do
    on_allocator (BlockAllocator.free_block block_id)
    let freed_token_cnt := freed_token_cnt + (← get).block_size
    drop_unfilled filled_token_len freed_token_cnt block_id
    free_loop filled_token_len freed_token_cnt rest

/-- Logically free all blocks associated with the given sequence: the filled ones stay findable
until they are handed out again. -/
def free (seq_id : Nat) : BM PUnit := do
  match (← get).get_block_map seq_id with
  | none => pure .unit
  | some block_map =>
    modify fun s => { s with seq_block_mapping_table := s.seq_block_mapping_table.erase seq_id }
    free_loop block_map.filled_token_len 0 block_map.block_ids

/-- Free all blocks of the sequence and forget the ones nobody else refers to. -/
def free_and_drop_cache (seq_id : Nat) : BM PUnit := do
  match (← get).get_block_map seq_id with
  | none => pure .unit
  | some block_map =>
    modify fun s => { s with seq_block_mapping_table := s.seq_block_mapping_table.erase seq_id }
    forM block_map.block_ids fun b => do
      on_allocator (BlockAllocator.free_block b)
      drop_cache b

def clear_cache : BM PUnit := modify fun s => { s with hash_block_table := ∅ }

end BlockManager

end LMServe
