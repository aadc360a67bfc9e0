import LMServe.Lib.Hoare

/-!
# The block allocator (`block_manager.rs`, `Block` and `BlockAllocator`)

A pool of fixed-size KV blocks with reference counts and a free list. A freed block keeps its
tokens and its hash, so it can be taken back by id until `alloc_block` hands it out again.
`Panic` lists the ways the code can stop; the state at the point of the panic is kept, because the
async mutex around the scheduler is not poisoned by it.
-/

namespace LMServe

/-- Panics and failed assertions of the engine's code. -/
inductive Panic where
  /-- "Block ID {} is out of bounds" -/
  | outOfBounds (block_id : Nat)
  /-- "Cannot allocate block: all blocks are already in use." -/
  | allBlocksInUse
  /-- "Cannot allocate block {block_id}: alread in used." -/
  | allocUsedBlock (block_id : Nat)
  /-- "Double free detected for block {}." -/
  | doubleFree (block_id : Nat)
  /-- "Block {block_id} is already exists in free list" -/
  | alreadyInFreeList (block_id : Nat)
  /-- "BrokenAllocatorError: block {block_id} is free but not in free list" -/
  | brokenAllocator (block_id : Nat)
  /-- the capacity assertion of `append_tokens` -/
  | appendTokens
  /-- "Not found a last block" -/
  | lastBlockNotFound
  /-- `assert!(new_filled_token_len <= block_map.num_allocated_slots)` -/
  | filledBeyondSlots
  /-- `assert!(start <= end)` of `get_prefix_cache_blocks_range` -/
  | rangeOrder
  /-- a `usize` subtraction below zero (the build profile has `overflow-checks = true`) -/
  | subOverflow
  /-- "No active sequence found" -/
  | noActiveSeq
  /-- "No finished sequence found" -/
  | noFinishedSeq
  /-- "A duplicate session id is already pending" -/
  | duplicatePending
  /-- "no pending task found for session_id: {}" -/
  | noPendingTask (session_id : Nat)
  /-- the bound on a loop's iterations was too small; no loop reaches it -/
  | outOfFuel
  /-- a watched condition failed; not a panic of the code -/
  | watched
deriving DecidableEq, Repr

inductive BlockStatus where
  | Free
  | Used
deriving DecidableEq, Repr

/-- A block's `id` is its index in the pool, and `block_size` is the manager's. -/
structure Block where
  ref_cnt : Int
  status : BlockStatus
  token_ids : List Nat
  hash : Nat
deriving DecidableEq, Repr

namespace Block

def new : Block := ⟨0, .Free, [], 0⟩

def get_num_empty_slots (block_size : Nat) (b : Block) : Nat := block_size - b.token_ids.length

def clear (b : Block) : Block := { b with token_ids := [], hash := 0 }

end Block

structure BlockAllocator where
  num_total_blocks : Nat
  block_pool : List Block
  /-- a `LinkedHashSet`, in insertion order -/
  free_block_ids : List Nat
deriving DecidableEq, Repr

/-- An admission watermark by its limits: what `(watermark * num_total_blocks as f32) as usize` is for each number of
blocks. The assertion that the watermark is in `(0, 1]` keeps it below the total. -/
structure Watermark where
  limit : Nat → Nat
  limit_le : ∀ n, limit n ≤ n

/-- Watermark `1.0`. -/
def Watermark.full : Watermark := ⟨id, fun _ => le_rfl⟩

/-- The watermark `num / den` without rounding: `⌊num / den * n⌋`. -/
def Watermark.floor (num den : Nat) (h : num ≤ den) : Watermark where
  limit n := num * n / den
  limit_le n := Nat.div_le_of_le_mul (Nat.mul_le_mul_right n h)

@[simp] theorem Watermark.limit_full (n : Nat) : Watermark.full.limit n = n := rfl

namespace BlockAllocator

def new (num_blocks : Nat) : BlockAllocator where
  num_total_blocks := num_blocks
  block_pool := List.replicate num_blocks Block.new
  free_block_ids := List.range num_blocks

/-- The block with this id. Only ids of the pool are ever stored (`RefInv`), so the panic of the
source for other ids is left to the functions that write blocks. -/
def get_block (s : BlockAllocator) (block_id : Nat) : Block := s.block_pool.getD block_id Block.new

def can_alloc_blocks (s : BlockAllocator) (num_required_blocks : Nat) (watermark : Watermark) :
    Bool :=
  let num_used_blocks := s.num_total_blocks - s.free_block_ids.length
  num_used_blocks + num_required_blocks ≤ watermark.limit s.num_total_blocks

def alloc_block : EStateM Panic BlockAllocator Nat := fun s =>
  match s.free_block_ids with
  | [] => .error .allBlocksInUse s
  | block_id :: rest =>
    let s := { s with free_block_ids := rest }
    match s.block_pool[block_id]? with
    | none => .error (.outOfBounds block_id) s
    | some block =>
      if block.status = .Used ∨ 0 < block.ref_cnt then .error (.allocUsedBlock block_id) s
      else
        .ok block_id { s with
          block_pool := s.block_pool.set block_id { block with status := .Used, ref_cnt := 1 } }

def free_block (block_id : Nat) : EStateM Panic BlockAllocator PUnit := fun s =>
  match s.block_pool[block_id]? with
  | none => .error (.outOfBounds block_id) s
  | some block =>
    if block.status ≠ .Free ∨ block.ref_cnt ≤ 0 then
      let block := { block with ref_cnt := block.ref_cnt - 1 }
      if block.ref_cnt = 0 then
        let s := { s with block_pool := s.block_pool.set block_id { block with status := .Free } }
        if block_id ∈ s.free_block_ids then
          -- the set moves an element it already has to the end
          .error (.alreadyInFreeList block_id)
            { s with free_block_ids := s.free_block_ids.erase block_id ++ [block_id] }
        else .ok .unit { s with free_block_ids := s.free_block_ids ++ [block_id] }
      else .ok .unit { s with block_pool := s.block_pool.set block_id block }
    else .error (.doubleFree block_id) s

def alloc_block_by_id (block_id : Nat) : EStateM Panic BlockAllocator PUnit := fun s =>
  match s.block_pool[block_id]? with
  | none => .error (.outOfBounds block_id) s
  | some block =>
    if block.status = .Free then
      if block_id ∈ s.free_block_ids then
        .ok .unit { s with
          free_block_ids := s.free_block_ids.erase block_id
          block_pool := s.block_pool.set block_id
            { block with status := .Used, ref_cnt := block.ref_cnt + 1 } }
      else .error (.brokenAllocator block_id) s
    else
      .ok .unit { s with
        block_pool := s.block_pool.set block_id { block with ref_cnt := block.ref_cnt + 1 } }

end BlockAllocator

end LMServe
