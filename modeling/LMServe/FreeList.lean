import LMServe.Custody
import LMServe.Tables

/-!
# The free list survives panics

A panic leaves the state as it was at that point, and the engine goes on with it. What the three
operations of the allocator preserve (`Lasting`) holds of the three allocators whatever the engine does,
and wherever it stops: every block of a free list can be handed out (`Ready`), and pools keep their size.
-/

namespace LMServe
open Hoare Chunk

/-! ### The allocator -/

namespace BlockAllocator

/-- `J` outlasts the operations, also where they panic, and the writing of what a block holds. -/
structure Lasting (J : BlockAllocator → Prop) : Prop where
  alloc_block : Preserves J alloc_block
  free_block : ∀ b, Preserves J (free_block b)
  alloc_block_by_id : ∀ b, Preserves J (alloc_block_by_id b)
  set_block : ∀ {a : BlockAllocator} {b : Nat} {block : Block}, J a → block.status = (a.get_block b).status →
    block.ref_cnt = (a.get_block b).ref_cnt → J { a with block_pool := a.block_pool.set b block }

/-- Every block of the free list can be handed out. -/
structure Ready (a : BlockAllocator) : Prop where
  nodup : a.free_block_ids.Nodup
  free : ∀ b ∈ a.free_block_ids, ∃ block, a.block_pool[b]? = some block ∧ block.status = .Free ∧
    block.ref_cnt ≤ 0

theorem Ready.new (n : Nat) : (BlockAllocator.new n).Ready where
  nodup := List.nodup_range
  free := fun b hb => by
    have hlt : b < n := List.mem_range.1 hb
    exact ⟨Block.new, by simp [BlockAllocator.new, hlt], rfl, le_refl _⟩

section
variable {a a' : BlockAllocator} {b : Nat} {block : Block}

theorem Ready.sublist (h : a.Ready) (hl : a'.free_block_ids.Sublist a.free_block_ids)
    (hpool : ∀ x ∈ a'.free_block_ids, a'.block_pool[x]? = a.block_pool[x]?) : a'.Ready where
  nodup := h.nodup.sublist hl
  free := fun x hx => by rw [hpool x hx]; exact h.free x (hl.subset hx)

theorem Ready.set (h : a.Ready) (hb : b ∈ a.free_block_ids → block.status = .Free ∧ block.ref_cnt ≤ 0) :
    ({ a with block_pool := a.block_pool.set b block } : BlockAllocator).Ready where
  nodup := h.nodup
  free := fun x hx => by
    obtain ⟨old, hold, hfree⟩ := h.free x hx
    by_cases hxb : b = x
    · subst hxb
      have hlt := (List.getElem?_eq_some_iff.1 hold).1
      exact ⟨block, List.getElem?_set_self hlt, hb hx⟩
    · exact ⟨old, by rw [List.getElem?_set_ne hxb]; exact hold, hfree⟩

theorem Ready.append (h : a.Ready) (hb : a.block_pool[b]? = some block) (hfree : block.status = .Free)
    (hcnt : block.ref_cnt ≤ 0) :
    ({ a with free_block_ids := a.free_block_ids.erase b ++ [b] } : BlockAllocator).Ready where
  nodup := by
    refine List.nodup_append.2 ⟨h.nodup.erase b, List.nodup_singleton b, ?_⟩
    rintro x hx y hy rfl
    obtain rfl := List.mem_singleton.1 hy
    exact h.nodup.not_mem_erase hx
  free := fun x hx => by
    rcases List.mem_append.1 hx with hx | hx
    · exact h.free x (List.mem_of_mem_erase hx)
    · obtain rfl := List.mem_singleton.1 hx
      exact ⟨block, hb, hfree, hcnt⟩

theorem alloc_block_ready : Preserves Ready alloc_block := by
  refine Preserves.of_ends fun a h => ?_
  unfold Ends alloc_block
  cases hfree : a.free_block_ids with
  | nil => exact h
  | cons b rest =>
    have hrest : ({ a with free_block_ids := rest } : BlockAllocator).Ready :=
      h.sublist (by rw [hfree]; exact List.sublist_cons_self b rest) fun _ _ => rfl
    have hnot : b ∉ rest := (List.nodup_cons.1 (hfree ▸ h.nodup)).1
    dsimp only
    cases hblock : a.block_pool[b]? with
    | none => exact hrest
    | some block =>
      dsimp only
      by_cases hused : block.status = .Used ∨ 0 < block.ref_cnt
      · rw [if_pos hused]; exact hrest
      · rw [if_neg hused]; exact hrest.set fun hmem => absurd hmem hnot

theorem free_block_ready (b : Nat) : Preserves Ready (free_block b) := by
  refine Preserves.of_ends fun a h => ?_
  unfold Ends free_block
  cases hblock : a.block_pool[b]? with
  | none => exact h
  | some block =>
    have hlt := (List.getElem?_eq_some_iff.1 hblock).1
    dsimp only
    by_cases hguard : block.status ≠ .Free ∨ block.ref_cnt ≤ 0
    · rw [if_pos hguard]
      by_cases hzero : block.ref_cnt - 1 = 0
      · rw [if_pos hzero]
        have hset : Ready { a with
            block_pool := a.block_pool.set b ⟨block.ref_cnt - 1, .Free, block.token_ids, block.hash⟩ } :=
          h.set fun _ => ⟨rfl, le_of_eq hzero⟩
        replace hset := hset.append (List.getElem?_set_self hlt) rfl (le_of_eq hzero)
        by_cases hmem : b ∈ a.free_block_ids
        · rw [if_pos hmem]; exact hset
        · rw [if_neg hmem]
          rw [List.erase_of_not_mem hmem] at hset
          exact hset
      · rw [if_neg hzero]
        -- the count of a free block in the list only falls
        refine h.set fun hmem => ?_
        obtain ⟨old, hold, hfree, hcnt⟩ := h.free b hmem
        obtain rfl : block = old := Option.some.inj (hblock.symm.trans hold)
        exact ⟨hfree, by dsimp only; omega⟩
    · rw [if_neg hguard]; exact h

theorem alloc_block_by_id_ready (b : Nat) : Preserves Ready (alloc_block_by_id b) := by
  refine Preserves.of_ends fun a h => ?_
  unfold Ends alloc_block_by_id
  cases hblock : a.block_pool[b]? with
  | none => exact h
  | some block =>
    dsimp only
    by_cases hstatus : block.status = .Free
    · rw [if_pos hstatus]
      by_cases hmem : b ∈ a.free_block_ids
      · rw [if_pos hmem]
        have herase : ({ a with free_block_ids := a.free_block_ids.erase b } : BlockAllocator).Ready :=
          h.sublist List.erase_sublist fun _ _ => rfl
        exact herase.set fun hmem => absurd hmem h.nodup.not_mem_erase
      · rw [if_neg hmem]; exact h
    · rw [if_neg hstatus]
      refine h.set fun hmem => ?_
      obtain ⟨old, hold, hfree, -⟩ := h.free b hmem
      obtain rfl : block = old := Option.some.inj (hblock.symm.trans hold)
      exact absurd hfree hstatus

theorem lasting_num_total_blocks (n : Nat) : Lasting (·.num_total_blocks = n) where
  alloc_block := Preserves.of_ends fun a h => by
    unfold Ends alloc_block
    cases a.free_block_ids with
    | nil => exact h
    | cons b rest =>
      dsimp only
      cases a.block_pool[b]? with
      | none => exact h
      | some block =>
        dsimp only
        by_cases hused : block.status = .Used ∨ 0 < block.ref_cnt
        · rw [if_pos hused]; exact h
        · rw [if_neg hused]; exact h
  free_block b := Preserves.of_ends fun a h => by
    unfold Ends free_block
    cases a.block_pool[b]? with
    | none => exact h
    | some block =>
      dsimp only
      by_cases hguard : block.status ≠ .Free ∨ block.ref_cnt ≤ 0
      · rw [if_pos hguard]
        by_cases hzero : block.ref_cnt - 1 = 0
        · rw [if_pos hzero]
          by_cases hmem : b ∈ a.free_block_ids
          · rw [if_pos hmem]; exact h
          · rw [if_neg hmem]; exact h
        · rw [if_neg hzero]; exact h
      · rw [if_neg hguard]; exact h
  alloc_block_by_id b := Preserves.of_ends fun a h => by
    unfold Ends alloc_block_by_id
    cases a.block_pool[b]? with
    | none => exact h
    | some block =>
      dsimp only
      by_cases hstatus : block.status = .Free
      · rw [if_pos hstatus]
        by_cases hmem : b ∈ a.free_block_ids
        · rw [if_pos hmem]; exact h
        · rw [if_neg hmem]; exact h
      · rw [if_neg hstatus]; exact h
  set_block h _ _ := h

theorem lasting_ready : Lasting Ready where
  alloc_block := alloc_block_ready
  free_block := free_block_ready
  alloc_block_by_id := alloc_block_by_id_ready
  set_block {a b block} h hstatus hcnt := h.set fun hmem => by
    obtain ⟨old, hold, hfree⟩ := h.free b hmem
    rw [hstatus, hcnt, get_block, List.getD_eq_getElem?_getD, hold]
    exact hfree

end

end BlockAllocator

/-! ### A manager -/

namespace BlockManager

abbrev Ready (m : BlockManager) : Prop := m.block_allocator.Ready

abbrev OnAllocator (J : BlockAllocator → Prop) (m : BlockManager) : Prop := J m.block_allocator

section
variable {J : BlockAllocator → Prop} {m : BlockManager} {b : Nat}

theorem on_allocator_lasts {α : Type} {x : EStateM Panic BlockAllocator α} (h : Preserves J x) :
    Preserves (OnAllocator J) (on_allocator x) :=
  Lowers.zoom h fun _ _ h => h

theorem lasts_of_keeps {α : Type} {x : BM α} (h : Keeps block_allocator x) : Preserves (OnAllocator J) x :=
  h.preserves fun _ _ heq hJ => by unfold OnAllocator; rw [heq]; exact hJ

theorem get_block_mut_ends {Q : Block → BlockManager → Prop} {F : Panic → BlockManager → Prop}
    (hok : m.block_allocator.block_pool[b]? = some (m.get_block b) → Q (m.get_block b) m)
    (herr : F (.outOfBounds b) m) : Ends (get_block_mut b) m Q F := by
  refine Ends.get_bind ?_
  cases hb : m.block_allocator.block_pool[b]? with
  | none => exact herr
  | some block =>
    have hget : m.get_block b = block := by
      rw [get_block, BlockAllocator.get_block, List.getD_eq_getElem?_getD, hb]; rfl
    rw [hget] at hok
    exact hok hb

section
variable (hJ : BlockAllocator.Lasting J)
include hJ

theorem drop_cache_lasts (b : Nat) : Preserves (OnAllocator J) (drop_cache b) := by
  refine Preserves.of_ends fun m h => Ends.bind (R := fun block m' => m' = m ∧ block = m.get_block b)
    (get_block_mut_ends (fun _ => ⟨rfl, rfl⟩) h) ?_
  rintro block m' ⟨rfl, rfl⟩
  refine Ends.ite (fun _ => Ends.modify ?_) fun _ => Ends.pure h
  have hstatus : (m'.get_block b).clear.status = (m'.get_block b).status := rfl
  exact hJ.set_block h hstatus rfl

theorem free_loop_lasts (filled : Nat) (ids : List Nat) : ∀ cnt, Preserves (OnAllocator J) (free_loop filled cnt ids) := by
  induction ids with
  | nil => exact fun _ => Lowers.pure _
  | cons b ids ih =>
    intro cnt
    refine (on_allocator_lasts (hJ.free_block b)).bind fun _ => Lowers.get.bind fun s => ?_
    exact (Lowers.ite (drop_cache_lasts hJ b) (Lowers.pure _)).bind fun _ => ih _

theorem free_lasts (i : Nat) : Preserves (OnAllocator J) (free i) := by
  refine Lowers.get.bind fun s => ?_
  split
  · exact Lowers.pure _
  · exact Lowers.bind (Preserves.modify fun _ h => h) fun _ => free_loop_lasts hJ _ _ _

theorem free_and_drop_cache_lasts (i : Nat) : Preserves (OnAllocator J) (free_and_drop_cache i) := by
  refine Lowers.get.bind fun s => ?_
  split
  · exact Lowers.pure _
  · exact Lowers.bind (Preserves.modify fun _ h => h) fun _ => Lowers.forM fun b _ =>
      (on_allocator_lasts (hJ.free_block b)).bind fun _ => drop_cache_lasts hJ b

omit hJ in
theorem update_filled_len_lasts (i len : Nat) : Preserves (OnAllocator J) (update_filled_len i len) := by
  refine Lowers.get.bind fun s => ?_
  split
  · exact Lowers.pure _
  · exact Lowers.ite (Preserves.modify fun _ h => h) (Lowers.throw _)

theorem unpin_blocks_lasts (r : Nat) : Preserves (OnAllocator J) (unpin_blocks r) := by
  refine Lowers.get.bind fun s => ?_
  split
  · exact Lowers.pure _
  · refine Lowers.bind (Preserves.modify fun _ h => h) fun _ => Lowers.bind (Lowers.forM fun b _ => ?_)
      fun _ => Lowers.pure _
    exact on_allocator_lasts (hJ.free_block b)

theorem activate_reserved_blocks_lasts (r : Nat) (hash_values : List Nat) :
    Preserves (OnAllocator J) (activate_reserved_blocks r hash_values) := by
  refine Lowers.get.bind fun s => ?_
  split
  · exact Lowers.pure _
  · refine Lowers.bind (Preserves.modify fun _ h => h) fun _ => Lowers.bind (Lowers.mapM fun b _ => ?_)
      fun _ => Lowers.pure _
    refine Lowers.get.bind fun m => Lowers.bind (Preserves.modify fun m h => ?_) fun _ =>
      (on_allocator_lasts (hJ.free_block b)).bind fun _ => Lowers.pure _
    split <;> exact h

theorem pin_blocks_by_hashes_lasts (r : Nat) (hash_values : List Nat) :
    Preserves (OnAllocator J) (pin_blocks_by_hashes r hash_values) := by
  have hloop : Preserves (OnAllocator J) (pin_loop hash_values) := by
    induction hash_values with
    | nil => exact Lowers.pure _
    | cons hash rest ih =>
      refine Lowers.get.bind fun s => ?_
      split
      · exact (on_allocator_lasts (hJ.alloc_block_by_id _)).bind fun _ =>
          ih.bind fun _ => Lowers.pure _
      · exact Lowers.pure _
  exact hloop.bind fun _ => Lowers.bind (Preserves.modify fun _ h => h) fun _ => Lowers.pure _

omit hJ in
theorem clear_cache_lasts : Preserves (OnAllocator J) clear_cache := Preserves.modify fun _ h => h

theorem retain_all_lasts (ids : List Nat) :
    Preserves (OnAllocator J) (forM ids fun b => on_allocator (BlockAllocator.alloc_block_by_id b)) :=
  Lowers.forM fun b _ => on_allocator_lasts (hJ.alloc_block_by_id b)

section
variable [Hasher]

theorem publish_if_full_lasts {block : Block} (h : m.OnAllocator J) (hstatus : block.status = (m.get_block b).status)
    (hcnt : block.ref_cnt = (m.get_block b).ref_cnt) (T : List Nat) :
    Ends (publish_if_full b block T) m (fun _ => OnAllocator J) fun _ => OnAllocator J := by
  refine Ends.modify ?_
  split
  · have hhash : { block with hash := compute_hash T }.status = (m.get_block b).status := hstatus
    exact hJ.set_block h hhash hcnt
  · exact hJ.set_block h hstatus hcnt

omit hJ [Hasher] in
theorem append_tokens_ends {block : Block} {l : List Nat} {Q : Block → BlockManager → Prop}
    {F : Panic → BlockManager → Prop} (hok : block.token_ids.length + l.length ≤ m.block_size →
      Q { block with token_ids := block.token_ids ++ l } m) (herr : F .appendTokens m) :
    Ends (append_tokens block l) m Q F :=
  Ends.get_bind (Ends.ite hok fun _ => herr)

theorem fill_last_block_lasts (seq : Sequence) (slots tokens : Nat) :
    Preserves (OnAllocator J) (fill_last_block seq slots tokens) := by
  refine Lowers.ite (Lowers.pure _) (Preserves.of_ends fun m h => Ends.get_bind ?_)
  cases m.get_last_block_id seq.seq_id with
  | none => exact Ends.throw h
  | some l =>
    refine Ends.bind (R := fun block m' => m' = m ∧ block = m.get_block l)
      (get_block_mut_ends (fun _ => ⟨rfl, rfl⟩) h) ?_
    rintro block m' ⟨rfl, rfl⟩
    refine Ends.ite (fun _ => ?_) fun _ => Ends.pure h
    refine Ends.bind (R := fun block m' => m'.OnAllocator J ∧ block.status = (m'.get_block l).status ∧
      block.ref_cnt = (m'.get_block l).ref_cnt) (append_tokens_ends (fun _ => ⟨h, rfl, rfl⟩) h) ?_
    rintro block m₁ ⟨h₁, hstatus, hcnt⟩
    exact Ends.bind (publish_if_full_lasts hJ h₁ hstatus hcnt _) fun _ _ h₂ => Ends.pure h₂

theorem alloc_new_block_lasts (T : List Nat) (off : Nat) : Preserves (OnAllocator J) (alloc_new_block T off) := by
  refine Lowers.get.bind fun s => (on_allocator_lasts hJ.alloc_block).bind fun b => ?_
  refine Preserves.of_ends fun m h => Ends.get_bind (Ends.modify_bind ?_)
  refine Ends.bind (R := fun block m' => m'.OnAllocator J ∧ block.status = (m'.get_block b).status ∧
    block.ref_cnt = (m'.get_block b).ref_cnt) (append_tokens_ends (fun _ => ⟨h, rfl, rfl⟩) h) ?_
  rintro block m₁ ⟨h₁, hstatus, hcnt⟩
  exact Ends.bind (publish_if_full_lasts hJ h₁ hstatus hcnt _) fun _ _ h₂ => Ends.pure h₂

theorem alloc_blocks_lasts (seq : Sequence) : Preserves (OnAllocator J) (alloc_blocks seq) := by
  refine Lowers.get.bind fun s => (Lowers.ite (Lowers.pure _) (Lowers.throw _)).bind fun tokens => ?_
  refine (fill_last_block_lasts hJ seq _ _).bind fun slots => Lowers.get.bind fun s₁ => ?_
  refine (Lowers.mapM fun off _ => alloc_new_block_lasts hJ _ off).bind fun ids => ?_
  refine Lowers.bind (Preserves.modify fun m h => ?_) fun _ => Lowers.pure _
  split <;> exact h

theorem init_prefix_cache_blocks_lasts (seq : Sequence) : Preserves (OnAllocator J) (init_prefix_cache_blocks seq) := by
  refine Lowers.get.bind fun s => ?_
  split
  · exact Lowers.pure _
  · exact (retain_all_lasts hJ _).bind fun _ => Lowers.bind (Preserves.modify fun _ h => h) fun _ => Lowers.pure _

theorem update_prefix_cache_blocks_lasts (seq : Sequence) : Preserves (OnAllocator J) (update_prefix_cache_blocks seq) := by
  refine Lowers.get.bind fun s => ?_
  split
  · exact init_prefix_cache_blocks_lasts hJ seq
  · refine (lasts_of_keeps (get_prefix_cache_blocks_range_keeps _ _ _ _)).bind fun ids => ?_
    exact (retain_all_lasts hJ _).bind fun _ => Lowers.bind (Preserves.modify fun _ h => h) fun _ => Lowers.pure _

theorem reserve_loop_lasts (T offsets : List Nat) : Preserves (OnAllocator J) (reserve_loop T offsets) := by
  induction offsets with
  | nil => exact Lowers.pure _
  | cons off offsets ih =>
    refine Lowers.get.bind fun s => Lowers.ite (Lowers.pure _) ?_
    refine (on_allocator_lasts hJ.alloc_block).bind fun b => ?_
    refine Preserves.of_ends fun m h => Ends.get_bind ?_
    refine Ends.bind (R := fun block m' => m'.OnAllocator J ∧ block.status = (m'.get_block b).status ∧
      block.ref_cnt = (m'.get_block b).ref_cnt) (append_tokens_ends (fun _ => ⟨h, rfl, rfl⟩) h) ?_
    rintro block m₁ ⟨h₁, hstatus, hcnt⟩
    refine Ends.modify_bind (Ends.bind (ih.ends ?_) fun _ _ h₂ => Ends.pure h₂)
    exact hJ.set_block h₁ hstatus hcnt

theorem reserve_blocks_lasts (r : Nat) (T : List Nat) (start : Nat) : Preserves (OnAllocator J) (reserve_blocks r T start) := by
  refine Lowers.get.bind fun s => (reserve_loop_lasts hJ _ _).bind fun pairs => ?_
  exact Lowers.ite (Lowers.pure _) (Lowers.bind (Preserves.modify fun _ h => h) fun _ => Lowers.pure _)

end

end

end

/-- `P` outlasts the operations of a manager, also where they panic. -/
structure Lasting [Hasher] (P : BlockManager → Prop) : Prop where
  alloc_blocks : ∀ seq, Preserves P (alloc_blocks seq)
  init_prefix_cache_blocks : ∀ seq, Preserves P (init_prefix_cache_blocks seq)
  update_prefix_cache_blocks : ∀ seq, Preserves P (update_prefix_cache_blocks seq)
  reserve_blocks : ∀ r T start, Preserves P (reserve_blocks r T start)
  activate_reserved_blocks : ∀ r hash_values, Preserves P (activate_reserved_blocks r hash_values)
  pin_blocks_by_hashes : ∀ r hash_values, Preserves P (pin_blocks_by_hashes r hash_values)
  unpin_blocks : ∀ r, Preserves P (unpin_blocks r)
  update_filled_len : ∀ i len, Preserves P (update_filled_len i len)
  free : ∀ i, Preserves P (free i)
  free_and_drop_cache : ∀ i, Preserves P (free_and_drop_cache i)
  clear_cache : Preserves P clear_cache

/-- `P` outlasts the operations of the request handlers and of the background thread, which free no sequence. -/
structure HandlerLasting [Hasher] (P : BlockManager → Prop) : Prop where
  init_prefix_cache_blocks : ∀ seq, Preserves P (init_prefix_cache_blocks seq)
  update_prefix_cache_blocks : ∀ seq, Preserves P (update_prefix_cache_blocks seq)
  reserve_blocks : ∀ r T start, Preserves P (reserve_blocks r T start)
  activate_reserved_blocks : ∀ r hash_values, Preserves P (activate_reserved_blocks r hash_values)
  pin_blocks_by_hashes : ∀ r hash_values, Preserves P (pin_blocks_by_hashes r hash_values)
  unpin_blocks : ∀ r, Preserves P (unpin_blocks r)
  clear_cache : Preserves P clear_cache

theorem Lasting.handler [Hasher] {P : BlockManager → Prop} (h : Lasting P) : HandlerLasting P where
  init_prefix_cache_blocks := h.init_prefix_cache_blocks
  update_prefix_cache_blocks := h.update_prefix_cache_blocks
  reserve_blocks := h.reserve_blocks
  activate_reserved_blocks := h.activate_reserved_blocks
  pin_blocks_by_hashes := h.pin_blocks_by_hashes
  unpin_blocks := h.unpin_blocks
  clear_cache := h.clear_cache

theorem HandlerLasting.imp [Hasher] {P : BlockManager → Prop} (h : HandlerLasting P) (q : Prop) :
    HandlerLasting fun m => q → P m where
  init_prefix_cache_blocks seq := (h.init_prefix_cache_blocks seq).imp q
  update_prefix_cache_blocks seq := (h.update_prefix_cache_blocks seq).imp q
  reserve_blocks r T start := (h.reserve_blocks r T start).imp q
  activate_reserved_blocks r hash_values := (h.activate_reserved_blocks r hash_values).imp q
  pin_blocks_by_hashes r hash_values := (h.pin_blocks_by_hashes r hash_values).imp q
  unpin_blocks r := (h.unpin_blocks r).imp q
  clear_cache := h.clear_cache.imp q

theorem Lasting.of_forall [Hasher] {P : BlockManager → Prop} (h : ∀ m, P m) : Lasting P where
  alloc_blocks _ := .of_forall h
  init_prefix_cache_blocks _ := .of_forall h
  update_prefix_cache_blocks _ := .of_forall h
  reserve_blocks _ _ _ := .of_forall h
  activate_reserved_blocks _ _ := .of_forall h
  pin_blocks_by_hashes _ _ := .of_forall h
  unpin_blocks _ := .of_forall h
  update_filled_len _ _ := .of_forall h
  free _ := .of_forall h
  free_and_drop_cache _ := .of_forall h
  clear_cache := .of_forall h

theorem lasting_on_allocator [Hasher] {J : BlockAllocator → Prop} (hJ : BlockAllocator.Lasting J) :
    Lasting (OnAllocator J) where
  alloc_blocks := alloc_blocks_lasts hJ
  init_prefix_cache_blocks := init_prefix_cache_blocks_lasts hJ
  update_prefix_cache_blocks := update_prefix_cache_blocks_lasts hJ
  reserve_blocks := reserve_blocks_lasts hJ
  activate_reserved_blocks := activate_reserved_blocks_lasts hJ
  pin_blocks_by_hashes := pin_blocks_by_hashes_lasts hJ
  unpin_blocks := unpin_blocks_lasts hJ
  update_filled_len := update_filled_len_lasts
  free := free_lasts hJ
  free_and_drop_cache := free_and_drop_cache_lasts hJ
  clear_cache := clear_cache_lasts

end BlockManager

/-! ### The scheduler -/

namespace Scheduler

abbrev Ready (s : Scheduler) : Prop := ∀ d, (s.get_block_manager d).Ready

/-- `J` holds of every device's allocator. -/
abbrev OnAllocators (J : Device → BlockAllocator → Prop) (s : Scheduler) : Prop :=
  ∀ d, J d (s.get_block_manager d).block_allocator

/-- `P` holds of every device's manager. -/
abbrev OnManagers (P : Device → BlockManager → Prop) (s : Scheduler) : Prop := ∀ d, P d (s.get_block_manager d)

section
variable {P : Device → BlockManager → Prop}

theorem on_device_lasts {α : Type} (d : Device) {x : BM α} (h : Preserves (P d) x) :
    Preserves (OnManagers P) (on_device d x) := by
  refine Lowers.zoom h fun m s hm hs d' => ?_
  rw [get_set_block_manager]
  split
  · rename_i heq
    rw [heq]
    exact hm (hs d)
  · exact hs d'

theorem lasts_of_keeps {α : Type} {P : BlockManager → Prop} {x : BM α} (h : Keeps id x) : Preserves P x :=
  h.preserves fun s s' heq hP => by
    obtain rfl : s' = s := heq
    exact hP

theorem modify_lasts {f : Scheduler → Scheduler} (h : ∀ s d, (f s).get_block_manager d = s.get_block_manager d) :
    Preserves (OnManagers P) (modify f : SM PUnit) :=
  Preserves.modify fun s hs d => by rw [h s d]; exact hs d

theorem remove_task_lasts [Hasher] (hP : ∀ d, BlockManager.Lasting (P d)) (t : InferTask) :
    Preserves (OnManagers P) (remove_task t) :=
  Lowers.forM fun _ _ => Lowers.forM fun d _ => on_device_lasts d
    (Lowers.ite ((hP _).free_and_drop_cache _) ((hP _).free _))

section
variable [Hasher] (hP : ∀ d, BlockManager.HandlerLasting (P d))
include hP

theorem clear_cache_lasts : Preserves (OnManagers P) clear_cache :=
  Lowers.forM fun d _ => on_device_lasts d (hP d).clear_cache

omit hP [Hasher] in
theorem update_lasts (infer_outputs : Table InferOutput) (now : Nat) : Preserves (OnManagers P) (update infer_outputs now) :=
  Lowers.get.bind fun s => Lowers.bind (modify_lasts fun _ d => by cases d <;> rfl) fun _ => Lowers.pure _

omit hP [Hasher] in
theorem add_lasts (t : InferTask) : Preserves (OnManagers P) (add t) := modify_lasts fun _ d => by cases d <;> rfl

omit hP [Hasher] in
theorem pend_lasts (t : InferTask) : Preserves (OnManagers P) (pend t) := by
  refine Lowers.get.bind fun s => Lowers.bind (modify_lasts fun _ d => by cases d <;> rfl) fun _ => ?_
  split
  · exact Lowers.throw _
  · exact Lowers.pure _

theorem pin_blocks_lasts (r : Nat) (hash_values : List Nat) (d : Device) :
    Preserves (OnManagers P) (pin_blocks r hash_values d) :=
  (on_device_lasts d ((hP _).pin_blocks_by_hashes _ _)).bind fun _ => Lowers.pure _

theorem unpin_blocks_lasts (region : DeviceBlockRegion) : Preserves (OnManagers P) (unpin_blocks region) :=
  on_device_lasts _ (((hP _).unpin_blocks _).bind fun _ => Lowers.pure _)

theorem commit_reserved_blocks_lasts (region : DeviceBlockRegion) :
    Preserves (OnManagers P) (commit_reserved_blocks region) :=
  on_device_lasts _ ((hP _).activate_reserved_blocks _ _)

theorem init_prefix_cache_blocks_lasts (t : InferTask) (devices : List Device) :
    Preserves (OnManagers P) (init_prefix_cache_blocks t devices) :=
  Lowers.forM fun seq _ => Lowers.forM fun d _ => on_device_lasts d
    (((hP _).init_prefix_cache_blocks seq).bind fun _ => Lowers.pure _)

theorem reserve_copy_blocks_lasts (r : Nat) (seq : Sequence) (d d' : Device) :
    Preserves (OnManagers P) (reserve_copy_blocks r seq d d') := by
  refine Lowers.get.bind fun s => Lowers.ite (Lowers.pure _) ?_
  split
  · exact Lowers.pure _
  · exact Lowers.ite ((on_device_lasts d' ((hP _).reserve_blocks _ _ _)).bind fun _ =>
      Lowers.pure _) (Lowers.pure _)

theorem plan_stage_lasts (r : Nat) (t : InferTask) : Preserves (OnManagers P) (plan_stage r t) := by
  refine (init_prefix_cache_blocks_lasts hP t _).bind fun _ => Lowers.get.bind fun s => ?_
  split
  · exact Lowers.throw _
  · exact Lowers.ite (Lowers.pure _) (reserve_copy_blocks_lasts hP _ _ _ _)

theorem backup_lasts (r : Nat) (t : InferTask) : Preserves (OnManagers P) (backup r t) := by
  unfold backup
  split
  · exact Lowers.throw _
  · exact reserve_copy_blocks_lasts hP _ _ _ _

theorem reserve_blocks_lasts (r : Nat) (t : InferTask) (d : Device) : Preserves (OnManagers P) (reserve_blocks r t d) := by
  unfold reserve_blocks
  split
  · exact Lowers.throw _
  · exact Lowers.get.bind fun _ => (on_device_lasts d ((hP _).reserve_blocks _ _ _)).bind fun _ =>
      Lowers.pure _

theorem trigger_pend_task_lasts (session_id : Nat) (region_id : Option Nat) (hash_values : List Nat) :
    Preserves (OnManagers P) (trigger_pend_task session_id region_id hash_values) := by
  refine Lowers.get.bind fun s => ?_
  split
  · exact Lowers.throw _
  · refine Lowers.bind (modify_lasts fun _ d => by cases d <;> rfl) fun _ => Lowers.bind ?_ fun _ => ?_
    · unfold activate_region
      split
      · exact on_device_lasts .Host (((hP _).activate_reserved_blocks _ _).bind fun _ => Lowers.pure _)
      · exact Lowers.pure _
    · split
      · exact Lowers.throw _
      · refine Lowers.bind (on_device_lasts .Host (((hP _).update_prefix_cache_blocks _).bind
          fun _ => Lowers.pure _)) fun _ => modify_lasts fun _ d => by cases d <;> rfl

end

/-! A scheduling round leaves the disk alone. -/

section
variable [Hasher] [Watch] (hP : ∀ d, d ≠ .Disk → BlockManager.Lasting (P d))
include hP

omit hP [Hasher] [Watch] in
theorem watch_ready {σ : Type} {I : σ → Prop} (c : Bool) : Preserves I (watch c : EStateM Panic σ PUnit) :=
  Lowers.ite (Lowers.pure _) (Lowers.throw _)

theorem try_alloc_infer_task_lasts (t : InferTask) (w : Watermark) {d : Device} (hd : d ≠ .Disk) :
    Preserves (OnManagers P) (try_alloc_infer_task t w d) := by
  have hloop : ∀ seqs : List Sequence, Preserves (P d) (try_alloc_loop w seqs) := by
    intro seqs
    induction seqs with
    | nil => exact Lowers.pure _
    | cons seq rest ih =>
      refine Lowers.ite ?_ (ih.bind fun _ => Lowers.pure _)
      refine (lasts_of_keeps (BlockManager.get_num_required_blocks_keeps id _)).bind fun k =>
        Lowers.get.bind fun m => Lowers.ite ?_ (Lowers.pure _)
      refine Lowers.get.bind fun m₁ => (watch_ready _).bind fun _ => ?_
      refine ((hP _ hd).init_prefix_cache_blocks seq).bind fun _ => ?_
      exact ((hP _ hd).alloc_blocks seq).bind fun _ => ih.bind fun _ => Lowers.pure _
  exact (on_device_lasts d (hloop _)).bind fun _ => (watch_ready _).bind fun _ => Lowers.pure _

theorem try_extend_infer_task_lasts (t : InferTask) (w : Watermark) {d : Device} (hd : d ≠ .Disk) :
    Preserves (OnManagers P) (try_extend_infer_task t w d) := by
  have hloop : ∀ seqs : List Sequence, Preserves (P d) (try_extend_loop w seqs) := by
    intro seqs
    induction seqs with
    | nil => exact Lowers.pure _
    | cons seq rest ih =>
      refine (lasts_of_keeps (BlockManager.can_alloc_seq_keeps id _ _)).bind fun ok =>
        Lowers.ite ?_ (Lowers.pure _)
      exact ((hP _ hd).alloc_blocks seq).bind fun _ => ih.bind fun _ => Lowers.pure _
  exact (on_device_lasts d (hloop _)).bind fun _ => (watch_ready _).bind fun _ => Lowers.pure _

theorem preempt_infer_task_lasts (t : InferTask) : Preserves (OnManagers P) (preempt_infer_task t) :=
  (watch_ready _).bind fun _ => Lowers.bind (Lowers.forM fun _ _ =>
    on_device_lasts .Gpu ((hP .Gpu (by simp)).free _)) fun _ => Lowers.pure _

omit hP [Watch] in
theorem can_alloc_infer_task_lasts (t : InferTask) (k : Nat) (w : Watermark) (d : Device) :
    Preserves (OnManagers P) (can_alloc_infer_task t k w d) := by
  have hloop : ∀ seqs : List Sequence, Preserves (P d) (can_alloc_loop k w seqs) := by
    intro seqs
    induction seqs with
    | nil => exact Lowers.pure _
    | cons seq rest ih =>
      exact (lasts_of_keeps (BlockManager.get_num_required_blocks_keeps id _)).bind fun _ =>
        Lowers.get.bind fun _ => Lowers.ite (ih.bind fun _ => Lowers.pure _) (Lowers.pure _)
  exact (on_device_lasts d (hloop _)).bind fun _ => Lowers.pure _

theorem extend_allocated_lasts (fuel : Nat) : ∀ extended, Preserves (OnManagers P) (extend_allocated fuel extended) := by
  induction fuel with
  | zero => exact fun _ => Lowers.throw _
  | succ fuel ih =>
    intro extended
    refine Lowers.get.bind fun s => ?_
    split
    · exact Lowers.pure _
    · refine Lowers.bind (modify_lasts fun _ d => by cases d <;> rfl) fun _ =>
        (try_extend_infer_task_lasts hP _ _ (by simp)).bind fun ok => Lowers.ite ?_ ?_
      · exact (try_extend_infer_task_lasts hP _ _ (by simp)).bind fun _ => ih _
      · split
        · refine Lowers.bind (modify_lasts fun _ d => by cases d <;> rfl) fun _ =>
            (preempt_infer_task_lasts hP _).bind fun _ => ?_
          exact Lowers.bind (modify_lasts fun _ d => by cases d <;> rfl) fun _ => ih _
        · refine (watch_ready _).bind fun _ => ?_
          exact Lowers.bind (modify_lasts fun _ d => by cases d <;> rfl) fun _ => Lowers.pure _

theorem admit_in_order_lasts (fuel : Nat) : Preserves (OnManagers P) (admit_in_order fuel) := by
  induction fuel with
  | zero => exact Lowers.throw _
  | succ fuel ih =>
    refine Lowers.get.bind fun s => ?_
    split
    · exact Lowers.pure _
    · refine Lowers.bind (modify_lasts fun _ d => by cases d <;> rfl) fun _ =>
        (try_alloc_infer_task_lasts hP _ _ (by simp)).bind fun r => Lowers.ite ?_ ?_
      · refine (try_extend_infer_task_lasts hP _ _ (by simp)).bind fun _ => ?_
        exact Lowers.bind (modify_lasts fun _ d => by cases d <;> rfl) fun _ => ih
      · exact modify_lasts fun _ d => by cases d <;> rfl

theorem preempt_promoted_lasts (promoted : List InferTask) : ∀ t, Preserves (OnManagers P) (preempt_promoted t promoted) := by
  induction promoted with
  | nil => exact fun _ => watch_ready _
  | cons u promoted ih =>
    intro t
    refine (preempt_infer_task_lasts hP u).bind fun _ =>
      Lowers.bind (modify_lasts fun _ d => by cases d <;> rfl) fun _ => Lowers.get.bind fun s => ?_
    refine (try_alloc_infer_task_lasts hP _ _ (by simp)).bind fun r => Lowers.ite ?_ (ih _)
    exact (try_extend_infer_task_lasts hP _ _ (by simp)).bind fun _ => modify_lasts fun _ d => by cases d <;> rfl

theorem reorder_round_lasts (t : InferTask) : Preserves (OnManagers P) (reorder_round t) := by
  refine Lowers.get.bind fun s => (try_alloc_infer_task_lasts hP _ _ (by simp)).bind fun r => Lowers.ite ?_ ?_
  · refine (try_extend_infer_task_lasts hP _ _ (by simp)).bind fun _ => ?_
    exact Lowers.bind (modify_lasts fun _ d => by cases d <;> rfl) fun _ => Lowers.pure _
  · refine Lowers.get.bind fun s₁ => Lowers.ite (Lowers.pure _) ?_
    refine Lowers.bind (modify_lasts fun _ d => by cases d <;> rfl) fun _ =>
      (can_alloc_infer_task_lasts _ _ _ _).bind fun ok => Lowers.ite ?_ ?_
    · exact (preempt_promoted_lasts hP _ _).bind fun _ => Lowers.pure _
    · exact Lowers.bind (modify_lasts fun _ d => by cases d <;> rfl) fun _ => Lowers.pure _

theorem reorder_loop_lasts (fuel : Nat) : ∀ next, Preserves (OnManagers P) (reorder_loop fuel next) := by
  induction fuel with
  | zero => exact fun _ => Lowers.throw _
  | succ fuel ih =>
    intro next
    refine Lowers.get.bind fun s => ?_
    split
    · exact Lowers.pure _
    · exact Lowers.bind (modify_lasts fun _ d => by cases d <;> rfl) fun _ =>
        (reorder_round_lasts hP _).bind fun _ => ih _

omit [Watch] in
theorem plan_copy_lasts (seq : Sequence) (d : Device) {d' : Device} (hd : d' ≠ .Disk) (p : Bool)
    (mappings : List BlockMapping) : Preserves (OnManagers P) (plan_copy seq d d' p mappings) := by
  refine Lowers.get.bind fun s => ?_
  split
  · exact (on_device_lasts d' ((hP _ hd).update_filled_len _ _)).bind fun _ => Lowers.pure _
  · exact Lowers.pure _

omit [Watch] in
theorem dispatch_lasts : Preserves (OnManagers P) dispatch := by
  have hinput : ∀ (seq : Sequence) (acc : Batch), Preserves (OnManagers P) (dispatch_input seq acc) := by
    intro seq acc
    refine Lowers.get.bind fun s => Lowers.ite ?_ (Lowers.pure _)
    split
    · exact Lowers.pure _
    · exact (on_device_lasts .Gpu ((hP .Gpu (by simp)).update_filled_len _ _)).bind fun _ =>
        (plan_copy_lasts hP _ _ (by simp) _ _).bind fun _ => Lowers.pure _
  have hloop : ∀ (seqs : List Sequence) (acc : Batch), Preserves (OnManagers P) (dispatch_loop seqs acc) := by
    intro seqs
    induction seqs with
    | nil => exact fun _ => Lowers.pure _
    | cons seq rest ih =>
      exact fun acc => Lowers.get.bind fun s => Lowers.ite (Lowers.pure _)
        ((plan_copy_lasts hP _ _ (by simp) _ _).bind fun _ => (hinput _ _).bind fun _ => ih _)
  exact Lowers.get.bind fun s => hloop _ _

theorem schedule_lasts : Preserves (OnManagers P) schedule := by
  have hextend : Preserves (OnManagers P) extend_tasks := Lowers.get.bind fun s =>
    (extend_allocated_lasts hP _ _).bind fun _ => modify_lasts fun _ d => by cases d <;> rfl
  have henter : Preserves (OnManagers P) admit_waiting := Lowers.get.bind fun s => Lowers.ite
    (Lowers.get.bind fun s₁ => (reorder_loop_lasts hP _ _).bind fun _ => modify_lasts fun _ d => by cases d <;> rfl)
    (admit_in_order_lasts hP _)
  exact hextend.bind fun _ => henter.bind fun _ => (dispatch_lasts hP).bind fun _ =>
    Lowers.bind (modify_lasts fun _ d => by cases d <;> rfl) fun _ => Lowers.pure _

end

end

end Scheduler

/-! ### The engine -/

namespace System

abbrev Ready (s : System) : Prop := s.scheduler.Ready

abbrev OnAllocators (J : Device → BlockAllocator → Prop) (s : System) : Prop := s.scheduler.OnAllocators J

abbrev OnManagers (P : Device → BlockManager → Prop) (s : System) : Prop := s.scheduler.OnManagers P

section
variable [Hasher] {P : Device → BlockManager → Prop} (hP : ∀ d, BlockManager.HandlerLasting (P d))
include hP

omit hP [Hasher] in
theorem on_scheduler_lasts {α : Type} {x : SM α} (h : Preserves (Scheduler.OnManagers P) x) :
    Preserves (OnManagers P) (on_scheduler x) := Lowers.zoom h fun _ _ h => h

omit hP [Hasher] in
theorem generate_id_lasts : Preserves (OnManagers P) generate_id :=
  Lowers.get.bind fun _ => Lowers.bind (Preserves.modify fun _ h => h) fun _ => Lowers.pure _

omit hP [Hasher] in
theorem create_task_lasts (request : GenerateRequest) (arrival : Nat) : Preserves (OnManagers P) (create_task request arrival) :=
  Lowers.get.bind fun _ => Lowers.bind (Preserves.modify fun _ h => h) fun _ => Lowers.pure _

theorem add_request_lasts (request : GenerateRequest) (arrival : Nat) : Preserves (OnManagers P) (add_request request arrival) := by
  refine (create_task_lasts _ _).bind fun t =>
    (on_scheduler_lasts (Scheduler.init_prefix_cache_blocks_lasts hP _ _)).bind fun _ => generate_id_lasts.bind fun r =>
    (on_scheduler_lasts (Scheduler.plan_stage_lasts hP _ _)).bind fun plan => ?_
  split
  · exact (on_scheduler_lasts (Scheduler.pend_lasts _)).bind fun _ => Lowers.pure _
  · exact (on_scheduler_lasts (Scheduler.add_lasts _)).bind fun _ => Lowers.pure _

theorem reserve_request_lasts (request : GenerateRequest) (arrival : Nat) :
    Preserves (OnManagers P) (reserve_request request arrival) :=
  (create_task_lasts _ _).bind fun _ => generate_id_lasts.bind fun _ =>
    (on_scheduler_lasts (Scheduler.reserve_blocks_lasts hP _ _ _)).bind fun _ =>
    Lowers.bind (Preserves.modify fun _ h => h) fun _ => Lowers.pure _

omit hP [Hasher] in
theorem pend_reserved_lasts (i : Nat) : Preserves (OnManagers P) (pend_reserved i) := by
  refine Lowers.get.bind fun s => ?_
  split
  · exact Lowers.pure _
  · exact Lowers.bind (Preserves.modify fun _ h => h) fun _ => on_scheduler_lasts (Scheduler.pend_lasts _)

omit hP [Hasher] in
theorem update_lasts (infer_outputs : Table InferOutput) (now : Nat) : Preserves (OnManagers P) (update infer_outputs now) :=
  (on_scheduler_lasts (Scheduler.update_lasts _ _)).bind fun _ =>
    Lowers.bind (Preserves.modify fun _ h => h) fun _ => Lowers.pure _

theorem backup_lasts (i : Nat) : Preserves (OnManagers P) (backup i) := by
  refine Lowers.get.bind fun s => ?_
  split
  · exact Lowers.pure _
  · exact generate_id_lasts.bind fun _ => on_scheduler_lasts (Scheduler.backup_lasts hP _ _)

omit hP in
theorem remove_task_lasts (hP : ∀ d, BlockManager.Lasting (P d)) (i : Nat) : Preserves (OnManagers P) (remove_task i) := by
  refine Lowers.get.bind fun s => ?_
  split
  · exact Lowers.pure _
  · exact (on_scheduler_lasts (Scheduler.remove_task_lasts hP _)).bind fun _ => Preserves.modify fun _ h => h

theorem pin_blocks_lasts (hash_values : List Nat) : Preserves (OnManagers P) (pin_blocks hash_values) :=
  generate_id_lasts.bind fun _ => on_scheduler_lasts (Scheduler.pin_blocks_lasts hP _ _ _)

end

end System

/-- The sections of the scheduler lock that a step of the engine may run. -/
inductive EngineOp.Runs [Hasher] : EngineOp → ∀ {α : Type}, SysM α → Prop
  | add_request (request : GenerateRequest) (arrival : Nat) :
      Runs (.add_request request arrival) (System.add_request request arrival)
  | reserve_request (request : GenerateRequest) (arrival : Nat) :
      Runs (.reserve_request request arrival) (System.reserve_request request arrival)
  | pend_reserved (i : Nat) : Runs (.pend_reserved i) (System.pend_reserved i)
  | trigger (k session_id : Nat) (region_id : Option Nat) (hash_values : List Nat) :
      Runs (.trigger_request k hash_values)
        (System.on_scheduler (Scheduler.trigger_pend_task session_id region_id hash_values))
  | schedule : Runs .schedule (System.on_scheduler Scheduler.schedule)
  | update (infer_outputs : Table InferOutput) (now : Nat) :
      Runs (.update infer_outputs now) (System.update infer_outputs now)
  | backup : Runs .finish (System.backup 0)
  | remove_task : Runs .finish (System.remove_task 0)
  | swap_in (session_id : Nat) (region_id : Option Nat) (hash_values : List Nat) :
      Runs .callback (System.on_scheduler (Scheduler.trigger_pend_task session_id region_id hash_values))
  | commit (region : DeviceBlockRegion) :
      Runs .callback (System.on_scheduler (Scheduler.commit_reserved_blocks region))
  | pin (hash_values : List Nat) : Runs (.push_kv hash_values) (System.pin_blocks hash_values)
  | unpin (i : Nat) (region : DeviceBlockRegion) :
      Runs (.push_done i) (System.on_scheduler (Scheduler.unpin_blocks region))
  | clear_cache : Runs .clear_done (System.on_scheduler Scheduler.clear_cache)

/-- What handlers and background thread leave alone, the sections outside the engine loop leave alone. -/
theorem EngineOp.Runs.handler_lasts [Hasher] {op : EngineOp} {α : Type} {x : SysM α} (h : Runs op x)
    (hschedule : op ≠ .schedule) (hfinish : op ≠ .finish) {P : Device → BlockManager → Prop}
    (hP : ∀ d, BlockManager.HandlerLasting (P d)) : Preserves (System.OnManagers P) x := by
  cases h with
  | add_request request arrival => exact System.add_request_lasts hP _ _
  | reserve_request request arrival => exact System.reserve_request_lasts hP _ _
  | pend_reserved i => exact System.pend_reserved_lasts _
  | trigger k session_id region_id hash_values =>
    exact System.on_scheduler_lasts (Scheduler.trigger_pend_task_lasts hP _ _ _)
  | schedule => exact absurd rfl hschedule
  | update infer_outputs now => exact System.update_lasts _ _
  | backup => exact absurd rfl hfinish
  | remove_task => exact absurd rfl hfinish
  | swap_in session_id region_id hash_values =>
    exact System.on_scheduler_lasts (Scheduler.trigger_pend_task_lasts hP _ _ _)
  | commit region => exact System.on_scheduler_lasts (Scheduler.commit_reserved_blocks_lasts hP _)
  | pin hash_values => exact System.pin_blocks_lasts hP _
  | unpin i region => exact System.on_scheduler_lasts (Scheduler.unpin_blocks_lasts hP _)
  | clear_cache => exact System.on_scheduler_lasts (Scheduler.clear_cache_lasts hP)

theorem EngineOp.Runs.lasts [Hasher] {op : EngineOp} {α : Type} {x : SysM α} (h : Runs op x)
    {P : Device → BlockManager → Prop} (hP : ∀ d, BlockManager.Lasting (P d)) :
    Preserves (System.OnManagers P) x := by
  have hhandler := fun d => (hP d).handler
  by_cases hschedule : op = .schedule
  · subst hschedule
    cases h with
    | schedule => exact System.on_scheduler_lasts (Scheduler.schedule_lasts fun d _ => hP d)
  · by_cases hfinish : op = .finish
    · subst hfinish
      cases h with
      | backup => exact System.backup_lasts hhandler _
      | remove_task => exact System.remove_task_lasts hP _
    · exact h.handler_lasts hschedule hfinish hhandler

/-- A section leaves the system as it ends or panics. -/
theorem attempt_preserves {α : Type} {I : System → Prop} {x : SysM α} (h : Preserves I x) {s : System} (hs : I s) :
    I (attempt x s).2 := by
  unfold attempt
  cases hx : x s with
  | ok a s' => exact h.of_ok hx hs
  | error e s' => exact h.of_error hx hs

namespace EngineOp

section
variable [Hasher] {e e' : Engine} {op : EngineOp}

/-- What the sections of a step preserve, however they end, the step preserves. -/
theorem step_preserves {I : System → Prop} (hI : ∀ {α : Type} {x : SysM α}, Runs op x → Preserves I x)
    (hs : op.Step e e') (h : I e.system) : I e'.system := by
  obtain ⟨-, hs⟩ := next_eq hs
  cases op with
  | add_request request arrival_time =>
    have hatt := attempt_preserves (hI (.add_request request arrival_time)) h
    obtain rfl := Option.some.inj hs
    unfold Engine.add_request
    split
    · rename_i heq; rw [submit_system]; rw [heq] at hatt; exact hatt
    · rename_i heq; rw [heq] at hatt; exact hatt
  | reserve_request request arrival_time =>
    have hatt := attempt_preserves (hI (.reserve_request request arrival_time)) h
    obtain rfl := Option.some.inj hs
    unfold Engine.reserve_request
    split <;> rename_i heq <;> rw [heq] at hatt <;> exact hatt
  | pend_reserved i =>
    have hatt := attempt_preserves (hI (.pend_reserved i)) h
    simp only [exec, Engine.pend_reserved] at hs
    split at hs
    · split at hs <;> rename_i heq <;> rw [heq] at hatt <;> obtain rfl := Option.some.inj hs <;> exact hatt
    · cases hs
  | trigger_request k hash_values =>
    simp only [exec, Engine.trigger_request] at hs
    split at hs
    · obtain rfl := Option.some.inj hs
      exact attempt_preserves (hI (.trigger _ _ _ _)) h
    · cases hs
  | push_kv hash_values =>
    have hatt := attempt_preserves (hI (.pin hash_values)) h
    obtain rfl := Option.some.inj hs
    unfold Engine.push_kv
    split <;> rename_i heq <;> rw [heq] at hatt <;> exact hatt
  | push_done i =>
    simp only [exec, Engine.push_done] at hs
    split at hs
    · obtain rfl := Option.some.inj hs
      exact attempt_preserves (hI (.unpin _ _)) h
    · cases hs
  | schedule =>
    have hatt := attempt_preserves (hI .schedule) h
    simp only [exec, Engine.schedule] at hs
    split at hs
    · split at hs
      · obtain rfl := Option.some.inj hs; exact h
      · split at hs <;> rename_i heq <;> rw [heq] at hatt <;> obtain rfl := Option.some.inj hs <;> exact hatt
    · cases hs
  | execute_failed =>
    simp only [exec, Engine.execute_failed] at hs
    split at hs
    · obtain rfl := Option.some.inj hs; exact h
    · cases hs
  | update infer_outputs now =>
    have hatt := attempt_preserves (hI (.update infer_outputs now)) h
    simp only [exec, Engine.update] at hs
    split at hs
    · split at hs <;> rename_i heq <;> rw [heq] at hatt <;> obtain rfl := Option.some.inj hs <;> exact hatt
    · cases hs
  | finish =>
    have hatt := attempt_preserves (hI .backup) h
    simp only [exec, Engine.finish] at hs
    split at hs
    · split at hs
      · rename_i plan s heq
        rw [heq] at hatt
        have hsys : (Engine.submit_swap_out plan { e with system := s }).system = s := by
          unfold Engine.submit_swap_out
          split
          · rw [submit_system]
          · rfl
        have hatt' := attempt_preserves (hI .remove_task) hatt
        rw [hsys] at hs
        split at hs <;> rename_i heq' <;> rw [heq'] at hatt' <;> obtain rfl := Option.some.inj hs <;> exact hatt'
      · rename_i heq
        rw [heq] at hatt
        obtain rfl := Option.some.inj hs
        exact hatt
    · cases hs
  | copy_done =>
    simp only [exec, Engine.copy_done] at hs
    split at hs
    · obtain rfl := Option.some.inj hs; exact h
    · cases hs
  | copy_failed =>
    simp only [exec, Engine.copy_failed] at hs
    split at hs
    · obtain rfl := Option.some.inj hs; exact h
    · cases hs
  | copy_panicked =>
    simp only [exec, Engine.copy_panicked] at hs
    split at hs
    · obtain rfl := Option.some.inj hs; exact h
    · cases hs
  | callback =>
    have hcomplete : ∀ {α : Type} {x : SysM α}, Runs .callback x → I (Engine.complete x e).system := by
      intro α x hx
      have hatt := attempt_preserves (hI hx) h
      unfold Engine.complete
      split <;> rename_i heq <;> rw [heq] at hatt <;> exact hatt
    simp only [exec, Engine.callback] at hs
    split at hs
    · split at hs
      · obtain rfl := Option.some.inj hs; exact hcomplete (.swap_in _ _ _)
      · obtain rfl := Option.some.inj hs; exact hcomplete (.commit _)
      · cases hs
    · cases hs
  | notify =>
    simp only [exec, Engine.notify] at hs
    split at hs
    · obtain rfl := Option.some.inj hs; exact h
    · cases hs
  | clear_cache => obtain rfl := Option.some.inj hs; exact h
  | clear_try =>
    simp only [exec, Engine.clear_try] at hs
    split at hs
    · cases hs
    · split at hs
      · obtain rfl := Option.some.inj hs; rw [submit_system]; exact h
      · obtain rfl := Option.some.inj hs; exact h
  | clear_done =>
    simp only [exec, Engine.clear_done] at hs
    split at hs
    · obtain rfl := Option.some.inj hs
      exact attempt_preserves (hI .clear_cache) h
    · cases hs

/-- In every run of the engine, also one with panics, what lasts and held of the new managers holds. -/
theorem run_managers {P : Device → BlockManager → Prop} (hP : ∀ d, BlockManager.Lasting (P d)) {c : SchedulerConfig}
    (hnew : ∀ d, P d (.new c.block_size c.block_size_pos (c.num_blocks d))) {ops : List EngineOp}
    (h : Run Step (Engine.new c) ops e) : e.system.OnManagers P :=
  h.invariant (I := fun e => e.system.OnManagers P) (fun d => by cases d <;> exact hnew _)
    fun _ _ _ he hs => step_preserves (fun hx => hx.lasts hP) hs he

theorem run_lasts {J : Device → BlockAllocator → Prop} (hJ : ∀ d, BlockAllocator.Lasting (J d)) {c : SchedulerConfig}
    (hnew : ∀ d, J d (.new (c.num_blocks d))) {ops : List EngineOp} (h : Run Step (Engine.new c) ops e) :
    e.system.OnAllocators J :=
  run_managers (fun d => BlockManager.lasting_on_allocator (hJ d)) hnew h

theorem run_ready {c : SchedulerConfig} {ops : List EngineOp} (h : Run Step (Engine.new c) ops e) : e.system.Ready :=
  run_lasts (fun _ => BlockAllocator.lasting_ready) (fun _ => .new _) h

theorem run_num_total_blocks {c : SchedulerConfig} {ops : List EngineOp} (h : Run Step (Engine.new c) ops e)
    (d : Device) : (e.system.scheduler.get_block_manager d).block_allocator.num_total_blocks = c.num_blocks d :=
  run_lasts (J := fun d a => a.num_total_blocks = c.num_blocks d)
    (fun d => BlockAllocator.lasting_num_total_blocks (c.num_blocks d)) (fun _ => rfl) h d

end

end EngineOp

end LMServe
