import LMServe.RefCount

/-!
# Bad frees (`block_manager.rs`, `BlockAllocator`)

The allocator's three calls in any order, with any block ids. `free_block` is to stop at a block that
is not in use, but its assertion asks for a status other than `Free` or for a count that is not
positive, and a free block has count zero: the call goes through and the count drops below zero. Every other call
stops or keeps status, count and free list in agreement.
-/

namespace LMServe.BlockAllocator

inductive Call where
  | alloc_block
  | alloc_block_by_id (block_id : Nat)
  | free_block (block_id : Nat)
deriving DecidableEq, Repr

def Call.exec : Call → EStateM Panic BlockAllocator PUnit
  | .alloc_block => do let _ ← BlockAllocator.alloc_block
  | .alloc_block_by_id block_id => BlockAllocator.alloc_block_by_id block_id
  | .free_block block_id => BlockAllocator.free_block block_id

/-- The allocator after a call, whether it returns or stops. -/
def after (a : BlockAllocator) (c : Call) : BlockAllocator :=
  match c.exec a with
  | .ok _ a' => a'
  | .error _ a' => a'

/-- Status, reference count and free list agree about every block. -/
structure Sound (a : BlockAllocator) : Prop where
  nonneg : ∀ b, b < a.num_total_blocks → 0 ≤ (a.get_block b).ref_cnt
  status_iff : ∀ b, b < a.num_total_blocks → ((a.get_block b).status = .Free ↔ (a.get_block b).ref_cnt = 0)
  mem_iff : ∀ b, b < a.num_total_blocks → ((a.get_block b).status = .Free ↔ b ∈ a.free_block_ids)

/-- The call stops or leaves a sound allocator, and a free of a block that is not in use stops. -/
def Checked (a : BlockAllocator) (c : Call) : Prop :=
  (∀ a', c.exec a = .ok .unit a' → a'.Sound) ∧
  ∀ b, c = .free_block b → b < a.num_total_blocks → (a.get_block b).status = .Free →
    ∃ a', c.exec a = .error (.doubleFree b) a'

/-- The call does not free a block of the pool that is not in use. -/
def FreesUsed (a : BlockAllocator) (c : Call) : Prop :=
  ∀ b, c = .free_block b → b < a.num_total_blocks → (a.get_block b).status ≠ .Free

/-- `P` of every call, at the allocator the calls before it leave. -/
def Throughout (P : BlockAllocator → Call → Prop) : BlockAllocator → List Call → Prop
  | _, [] => True
  | a, c :: calls => P a c ∧ Throughout P (a.after c) calls

/-- Pool and free list agree with some counts. -/
def Counted (a : BlockAllocator) : Prop := ∃ cnt, a.CountInv cnt

variable {a a' : BlockAllocator} {cnt : Nat → Nat} {b : Nat} {c : Call}

theorem Counted.new (n : Nat) : (new n).Counted :=
  ⟨_, (BlockManager.RefInv.new 1 Nat.one_pos n).count⟩

theorem CountInv.sound (h : a.CountInv cnt) : a.Sound where
  nonneg := fun b hb => by rw [h.ref_eq b hb]; exact Int.natCast_nonneg _
  status_iff := fun b hb => by rw [h.status_free b hb, h.ref_eq b hb]; exact Int.natCast_eq_zero.symm
  mem_iff := fun b hb => by rw [h.status_free b hb, h.mem_free]; exact (and_iff_right hb).symm

/-! ### One call -/

/-- The assertion lets a free block pass. -/
theorem free_block_free (h : a.CountInv cnt) (hb : b < a.num_total_blocks)
    (hfree : (a.get_block b).status = .Free) :
    free_block b a = .ok .unit
      { a with block_pool := a.block_pool.set b { a.get_block b with ref_cnt := -1 } } := by
  have hget : a.block_pool[b]? = some (a.get_block b) := getElem?_pool (by rw [h.pool_len]; exact hb)
  have href : (a.get_block b).ref_cnt = 0 := (h.sound.status_iff b hb).1 hfree
  simp [free_block, hget, href]

theorem not_checked_of_free (h : a.CountInv cnt) (hb : b < a.num_total_blocks)
    (hfree : (a.get_block b).status = .Free) : ¬ a.Checked (.free_block b) := by
  intro hc
  have hneg := (hc.1 _ (free_block_free h hb hfree)).nonneg b hb
  have hlt : b < a.block_pool.length := by rw [h.pool_len]; exact hb
  simp [get_block, hlt] at hneg

theorem out_of_bounds (h : a.CountInv cnt) (hb : ¬ b < a.num_total_blocks) : a.block_pool[b]? = none :=
  List.getElem?_eq_none (by rw [h.pool_len]; omega)

/-- Every other call stops where it is or keeps the counts. -/
theorem exec_cases (h : a.CountInv cnt) (hc : a.FreesUsed c) :
    (∃ e, c.exec a = .error e a) ∨ ∃ a', c.exec a = .ok .unit a' ∧ a'.Counted := by
  cases c with
  | alloc_block =>
    cases hx : alloc_block a with
    | ok b a' =>
      refine .inr ⟨a', ?_, _, (alloc_block_count _ h (fun _ => rfl) hx).1⟩
      rw [Call.exec, Hoare.bind_apply, hx]
      rfl
    | error e a' =>
      have hnil := (alloc_block_error h hx).2
      refine .inl ⟨.allBlocksInUse, ?_⟩
      simp [Call.exec, Hoare.bind_apply, alloc_block, hnil]
  | alloc_block_by_id b =>
    by_cases hb : b < a.num_total_blocks
    · obtain ⟨free, block, hx, -, -, hcount⟩ := alloc_block_by_id_ok _ h hb fun _ => rfl
      exact .inr ⟨_, hx, _, hcount⟩
    · exact .inl ⟨.outOfBounds b, by simp [Call.exec, alloc_block_by_id, out_of_bounds h hb]⟩
  | free_block b =>
    by_cases hb : b < a.num_total_blocks
    · have hpos : 0 < cnt b := Nat.pos_of_ne_zero fun hz => hc b rfl hb ((h.status_free b hb).2 hz)
      obtain ⟨free, block, hx, -, -, hcount⟩ := free_block_ok _ h hpos fun _ => rfl
      exact .inr ⟨_, hx, _, hcount⟩
    · exact .inl ⟨.outOfBounds b, by simp [Call.exec, free_block, out_of_bounds h hb]⟩

theorem Counted.after (h : a.Counted) (hc : a.FreesUsed c) : (a.after c).Counted := by
  obtain ⟨cnt, hcount⟩ := h
  rcases exec_cases hcount hc with ⟨e, he⟩ | ⟨a', ha', hcount'⟩
  · rw [BlockAllocator.after, he]
    exact ⟨cnt, hcount⟩
  · rw [BlockAllocator.after, ha']
    exact hcount'

theorem Counted.checked (h : a.Counted) (hc : a.FreesUsed c) : a.Checked c := by
  obtain ⟨cnt, hcount⟩ := h
  refine ⟨fun a' ha' => ?_, fun b hb hlt hfree => absurd hfree (hc b hb hlt)⟩
  rcases exec_cases hcount hc with ⟨e, he⟩ | ⟨a'', ha'', cnt', hcount'⟩
  · rw [he] at ha'; cases ha'
  · rw [ha''] at ha'; cases ha'
    exact hcount'.sound

theorem Counted.checked_iff (h : a.Counted) : a.Checked c ↔ a.FreesUsed c := by
  refine ⟨?_, h.checked⟩
  rintro hc b rfl hb hfree
  obtain ⟨cnt, hcount⟩ := h
  exact not_checked_of_free hcount hb hfree hc

/-! ### Sequences of calls -/

theorem Counted.throughout_iff {calls : List Call} (h : a.Counted) :
    Throughout Checked a calls ↔ Throughout FreesUsed a calls := by
  induction calls generalizing a with
  | nil => exact Iff.rfl
  | cons c calls ih =>
    rw [Throughout, Throughout, h.checked_iff]
    exact and_congr_right fun hc => ih (h.after hc)

/-- Every call of a sequence stops or leaves a sound allocator, and stops if it frees what is not in
use: this holds of exactly the sequences that free nothing that is not in use. -/
theorem checked_iff_frees_used (n : Nat) (calls : List Call) :
    Throughout Checked (new n) calls ↔ Throughout FreesUsed (new n) calls :=
  (Counted.new n).throughout_iff

/-- One free of the only block of a fresh pool. -/
theorem fresh_block_freed : ¬ Throughout Checked (new 1) [.free_block 0] := fun h => by
  obtain ⟨a', ha'⟩ := h.1.2 0 rfl (by decide) rfl
  cases ha'

end LMServe.BlockAllocator
