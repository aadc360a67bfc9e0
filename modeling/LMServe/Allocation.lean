import LMServe.PageTableOps

/-!
# When an allocation runs out of blocks

Whether `alloc_blocks` stops with "all blocks are already in use" is decided by the reference counts and by
how many tokens the last block of the map holds (`num_missing_blocks`). Where the page tables hold it does so
exactly if the free list is shorter than the blocks missing, and its subtraction and the
capacity assertion of `append_tokens` cannot fail. `get_num_required_blocks` counts the blocks
missing, and its subtraction cannot fail either.
-/

namespace LMServe
open Hoare Chunk

namespace BlockManager

section
variable [Hasher] {R : List Nat → List Nat → Prop} {Occ : List Nat → Prop} {tok : Nat → List Nat}
  {n : Nat} {s : BlockManager}

theorem fill_last_block_returns (h : s.RefInv n []) (seq : Sequence) {slots b : Nat} (hslots : slots ≠ 0)
    (hlast : s.get_last_block_id seq.seq_id = some b) :
    ∃ s', fill_last_block seq slots (seq.token_ids.length - slots) s =
        .ok (slots + min ((s.get_block b).get_num_empty_slots s.block_size) (seq.token_ids.length - slots)) s' ∧
      s'.RefInv n [] ∧ s'.block_size = s.block_size ∧
      s'.block_allocator.free_block_ids = s.block_allocator.free_block_ids := by
  obtain ⟨m, hm, hmem⟩ := get_last_block_id_mem hlast
  have hmut : get_block_mut b s = .ok (s.get_block b) s := by
    unfold get_block_mut
    rw [bind_apply, get_apply]
    dsimp only
    rw [BlockAllocator.getElem?_pool (by rw [h.pool_len]; exact h.lt_of_mem_map hm hmem)]
    rfl
  have hfill := Eq.refl (fill_last_block seq slots (seq.token_ids.length - slots) s)
  conv_rhs at hfill =>
    unfold fill_last_block
    rw [if_neg hslots, bind_apply, get_apply]
    dsimp only
    rw [hlast]
    dsimp only
    rw [bind_apply, hmut]
  dsimp only at hfill
  by_cases hpos : 0 < min ((s.get_block b).get_num_empty_slots s.block_size) (seq.token_ids.length - slots)
  · have hroom : (s.get_block b).token_ids.length + (slice seq.token_ids slots
        (slots + min ((s.get_block b).get_num_empty_slots s.block_size) (seq.token_ids.length - slots))).length ≤
          s.block_size := by
      unfold Block.get_num_empty_slots at hpos ⊢
      rw [length_slice]; omega
    rw [if_pos hpos] at hfill
    simp only [bind_apply, append_tokens, get_apply, hroom, ↓reduceIte, pure_apply, publish_if_full,
      modify_apply] at hfill
    refine ⟨_, hfill, (fill_last_block_refInv seq _ _).of_ok h hfill, ?_, ?_⟩
    · split <;> rfl
    · split <;> rfl
  · -- no empty slot, or nothing to put there
    rw [if_neg hpos] at hfill
    refine ⟨s, hfill.trans ?_, h, rfl, rfl⟩
    rw [Nat.le_zero.1 (Nat.not_lt.1 hpos), Nat.add_zero]
    rfl

theorem alloc_blocks_after_fill {seq : Sequence} {slots filled : Nat} {s₁ : BlockManager}
    (hslots : s.get_num_allocated_slots seq.seq_id = slots) (hle : slots ≤ seq.token_ids.length)
    (hfill : fill_last_block seq slots (seq.token_ids.length - slots) s = .ok filled s₁) (href : s₁.RefInv n [])
    (hbs : s₁.block_size = s.block_size) (hfree : s₁.block_allocator.free_block_ids = s.block_allocator.free_block_ids) :
    (div_ceil (seq.token_ids.length - filled) s.block_size ≤ s.block_allocator.free_block_ids.length →
        ∃ r s', alloc_blocks seq s = .ok r s') ∧
      (s.block_allocator.free_block_ids.length < div_ceil (seq.token_ids.length - filled) s.block_size →
        ∃ s', alloc_blocks seq s = .error .allBlocksInUse s') := by
  obtain ⟨hok, herr⟩ := alloc_new_blocks_of_free seq.token_ids
    (step_by filled seq.token_ids.length s₁.block_size) href
  rw [length_step_by, hbs, hfree] at hok herr
  have hrun : alloc_blocks seq s = _ := bind_apply get _ s
  simp only [get_apply, hslots, bind_apply, checked_sub, hle, ↓reduceIte, pure_apply, hfill, hbs] at hrun
  refine ⟨fun hge => ?_, fun hlt => ?_⟩
  · obtain ⟨ids, s₂, hs₂⟩ := hok hge
    simp only [hs₂, modify_apply] at hrun
    exact ⟨_, _, hrun⟩
  · obtain ⟨s₂, hs₂⟩ := herr hlt
    simp only [hs₂] at hrun
    exact ⟨s₂, hrun⟩

/-- The blocks a sequence of this length lacks once the last block of its map is filled up, whatever the blocks
hold. A map with slots and without blocks stops the allocation before that. -/
def num_missing_blocks (s : BlockManager) (m : BlockMap) (total_token_len : Nat) : Nat :=
  if m.num_allocated_slots = 0 then div_ceil total_token_len s.block_size
  else match m.block_ids.getLast? with
    | none => 0
    | some b => div_ceil (total_token_len - m.num_allocated_slots -
        (s.get_block b).get_num_empty_slots s.block_size) s.block_size

/-- Whether an allocation runs out of blocks, of the reference counts alone. -/
theorem alloc_blocks_runs_out_iff (h : s.RefInv n []) (seq : Sequence) {m : BlockMap}
    (hm : m = (s.get_block_map seq.seq_id).getD .empty) : (∃ s', alloc_blocks seq s = .error .allBlocksInUse s') ↔
      s.block_allocator.free_block_ids.length < s.num_missing_blocks m seq.token_ids.length := by
  have hslots : s.get_num_allocated_slots seq.seq_id = m.num_allocated_slots := by
    rw [hm]; unfold get_num_allocated_slots
    cases s.get_block_map seq.seq_id <;> rfl
  have hlast : s.get_last_block_id seq.seq_id = m.block_ids.getLast? := by
    rw [hm]; unfold get_last_block_id
    cases s.get_block_map seq.seq_id <;> rfl
  have hrun : alloc_blocks seq s = _ := bind_apply get _ s
  simp only [get_apply, hslots, bind_apply, checked_sub] at hrun
  rcases Nat.lt_or_ge seq.token_ids.length m.num_allocated_slots with hlt | hle
  · -- the subtraction of the slots fails
    simp only [Nat.not_le.2 hlt, ↓reduceIte, throw_apply] at hrun
    have hzero : s.num_missing_blocks m seq.token_ids.length = 0 := by
      rw [num_missing_blocks, if_neg (by omega)]
      cases m.block_ids.getLast? with
      | none => rfl
      | some b =>
        dsimp only
        rw [Nat.sub_eq_zero_of_le hlt.le, Nat.zero_sub, div_ceil_zero s.block_size_pos]
    simp [hrun, hzero]
  · have hexact : ∀ {filled : Nat} {s₁ : BlockManager},
        fill_last_block seq m.num_allocated_slots (seq.token_ids.length - m.num_allocated_slots) s = .ok filled s₁ →
        s₁.RefInv n [] → s₁.block_size = s.block_size →
        s₁.block_allocator.free_block_ids = s.block_allocator.free_block_ids →
        ((∃ s', alloc_blocks seq s = .error .allBlocksInUse s') ↔ s.block_allocator.free_block_ids.length <
          div_ceil (seq.token_ids.length - filled) s.block_size) := by
      intro filled s₁ hfill href hbs hfree
      obtain ⟨hok, herr⟩ := alloc_blocks_after_fill hslots hle hfill href hbs hfree
      refine ⟨fun ⟨s', hs'⟩ => Nat.lt_of_not_le fun hge => ?_, herr⟩
      obtain ⟨r, s'', hs''⟩ := hok hge
      rw [hs'] at hs''
      cases hs''
    by_cases hzero : m.num_allocated_slots = 0
    · rw [num_missing_blocks, if_pos hzero]
      refine @hexact 0 s ?_ h rfl rfl
      unfold fill_last_block
      rw [if_pos hzero]; rfl
    · rw [num_missing_blocks, if_neg hzero]
      cases hb : m.block_ids.getLast? with
      | none =>
        have hfill : fill_last_block seq m.num_allocated_slots (seq.token_ids.length - m.num_allocated_slots) s =
            .error .lastBlockNotFound s := by
          unfold fill_last_block
          rw [if_neg hzero, bind_apply, get_apply]
          dsimp only
          rw [hlast, hb]; rfl
        simp only [hle, ↓reduceIte, pure_apply, hfill] at hrun
        simp [hrun]
      | some b =>
        obtain ⟨s₁, hfill, href, hbs, hfree⟩ := fill_last_block_returns h seq hzero (hlast.trans hb)
        rw [hexact hfill href hbs hfree]
        dsimp only
        rw [show seq.token_ids.length - (m.num_allocated_slots + min ((s.get_block b).get_num_empty_slots s.block_size)
          (seq.token_ids.length - m.num_allocated_slots)) = seq.token_ids.length - m.num_allocated_slots -
            (s.get_block b).get_num_empty_slots s.block_size by omega]

theorem init_prefix_cache_blocks_attaches (h : s.RefInv n []) {seq : Sequence} (hnone : s.get_block_map seq.seq_id = none) :
    ∃ r s', init_prefix_cache_blocks seq s = .ok r s' ∧ s'.RefInv n [] ∧
      Attached seq.seq_id .empty (s.get_prefix_cache_blocks seq.token_ids) s s' := by
  obtain ⟨ids, hids⟩ : ∃ ids, s.get_prefix_cache_blocks seq.token_ids = ids := ⟨_, rfl⟩
  have hlt : ∀ b ∈ ids, b < n := hids ▸ prefix_hits_lt h _ _ _
  obtain ⟨s₁, hretain, -, hq, hfree⟩ := retain_all_spec hlt h
  have hrun : init_prefix_cache_blocks seq s = .ok (ids.length * s.block_size)
      (s₁.set_block_map seq.seq_id ⟨ids, ids.length * s.block_size, ids.length * s.block_size⟩) := by
    unfold init_prefix_cache_blocks
    rw [bind_apply, get_apply]
    dsimp only
    rw [hnone, hids]
    dsimp only
    rw [bind_apply, hretain]
    rfl
  have href := (@init_prefix_cache_blocks_refInv _ _ NoFault _ seq).of_ok h hrun
  rw [hids]
  refine ⟨_, _, hrun, href, hq.block_size, ?_, fun j hj => ?_, hq.table, hq.regions, hq.content, hfree⟩
  · rw [get_block_map_set_block_map, if_pos rfl]
    simp [BlockMap.empty]
  · rw [get_block_map_set_block_map, if_neg hj, hq.get_block_map]

/-- With page tables the last block is filled up to its end, or to the end of the tokens. -/
theorem fill_last_block_total (hR : TokenRel R Occ) (h : s.PageInv R Occ tok n none []) {seq : Sequence}
    {m : BlockMap} (hm : m = (s.get_block_map seq.seq_id).getD .empty)
    (hle : m.num_allocated_slots ≤ seq.token_ids.length) :
    ∃ s', fill_last_block seq m.num_allocated_slots
        (seq.token_ids.length - m.num_allocated_slots) s =
          .ok (min seq.token_ids.length (m.block_ids.length * s.block_size)) s' ∧
      s'.RefInv n [] ∧ s'.block_size = s.block_size ∧
      s'.block_allocator.free_block_ids = s.block_allocator.free_block_ids := by
  have hbs := s.block_size_pos
  by_cases hzero : m.num_allocated_slots = 0
  · have hids : m.block_ids.length * s.block_size = 0 := by
      cases hmap : s.get_block_map seq.seq_id with
      | none => rw [hm, hmap]; exact Nat.zero_mul _
      | some m' =>
        rw [hmap] at hm
        obtain rfl : m = m' := hm
        rw [(h.maps _ m (by simp) hmap).len, hzero, div_ceil_zero hbs, Nat.zero_mul]
    refine ⟨s, ?_, h.ref, rfl, rfl⟩
    unfold fill_last_block
    rw [if_pos hzero, hids, Nat.min_zero]; rfl
  · have hmap : s.get_block_map seq.seq_id = some m := by
      cases hmap : s.get_block_map seq.seq_id with
      | none => rw [hmap] at hm; rw [hm] at hzero; exact absurd rfl hzero
      | some m' => rw [hmap] at hm; rw [hm]; rfl
    obtain ⟨b, hlast, hget, hlen, hlow, hhigh, htoks⟩ := (h.maps _ m (by simp) hmap).last hR hbs
      (Nat.pos_of_ne_zero hzero)
    have hid : s.get_last_block_id seq.seq_id = some b := by
      simp only [get_last_block_id, hmap]; exact hlast
    have hsucc : (m.block_ids.length - 1) * s.block_size + s.block_size =
        m.block_ids.length * s.block_size := by
      rw [← Nat.succ_mul, Nat.succ_eq_add_one, Nat.sub_add_cancel hlen]
    have hempty : (s.get_block b).get_num_empty_slots s.block_size =
        m.block_ids.length * s.block_size - m.num_allocated_slots := by
      unfold Block.get_num_empty_slots
      rw [htoks]; omega
    obtain ⟨s', hfill, hrest⟩ := fill_last_block_returns h.ref seq hzero hid
    refine ⟨s', ?_, hrest⟩
    rw [hfill, hempty]
    congr 1
    omega

/-- An allocation returns if the free list is long enough, and else runs out of blocks. -/
theorem alloc_blocks_returns (hR : TokenRel R Occ) (h : s.PageInv R Occ tok n none []) (seq : Sequence)
    {m : BlockMap} (hm : m = (s.get_block_map seq.seq_id).getD .empty)
    (hle : m.num_allocated_slots ≤ seq.token_ids.length) :
    (div_ceil seq.token_ids.length s.block_size - m.block_ids.length ≤
        s.block_allocator.free_block_ids.length → ∃ r s', alloc_blocks seq s = .ok r s') ∧
      (s.block_allocator.free_block_ids.length <
        div_ceil seq.token_ids.length s.block_size - m.block_ids.length →
        ∃ s', alloc_blocks seq s = .error .allBlocksInUse s') := by
  have hslots : s.get_num_allocated_slots seq.seq_id = m.num_allocated_slots := by
    rw [hm]; unfold get_num_allocated_slots
    cases s.get_block_map seq.seq_id <;> rfl
  obtain ⟨s₁, hfill, href, hbs, hfree⟩ := fill_last_block_total hR h hm hle
  have hlack : div_ceil (seq.token_ids.length - min seq.token_ids.length (m.block_ids.length * s.block_size))
      s.block_size = div_ceil seq.token_ids.length s.block_size - m.block_ids.length := by
    rw [← div_ceil_sub_mul s.block_size_pos]
    congr 1; omega
  rw [← hlack]
  exact alloc_blocks_after_fill hslots hle hfill href hbs hfree

theorem alloc_blocks_of_free (hR : TokenRel R Occ) (h : s.PageInv R Occ tok n none []) (seq : Sequence)
    {m : BlockMap} (hm : m = (s.get_block_map seq.seq_id).getD .empty)
    (hle : m.num_allocated_slots ≤ seq.token_ids.length) :
    (∃ s', alloc_blocks seq s = .error .allBlocksInUse s') ↔
      s.block_allocator.free_block_ids.length <
        div_ceil seq.token_ids.length s.block_size - m.block_ids.length := by
  obtain ⟨hok, herr⟩ := alloc_blocks_returns hR h seq hm hle
  refine ⟨fun ⟨s', hs'⟩ => Nat.lt_of_not_le fun hge => ?_, herr⟩
  obtain ⟨r, s'', hs''⟩ := hok hge
  rw [hs'] at hs''
  cases hs''

theorem alloc_blocks_error (hR : TokenRel R Occ) (h : s.PageInv R Occ tok n none []) {seq : Sequence}
    (htok : tok seq.seq_id = seq.token_ids) {e : Panic} {s' : BlockManager}
    (hrun : alloc_blocks seq s = .error e s') : e = .allBlocksInUse := by
  have hle : ((s.get_block_map seq.seq_id).getD .empty).num_allocated_slots ≤ seq.token_ids.length := by
    cases hmap : s.get_block_map seq.seq_id with
    | none => exact Nat.zero_le _
    | some m => rw [← htok]; exact (h.maps _ m (by simp) hmap).slots_le
  obtain ⟨hok, herr⟩ := alloc_blocks_returns hR h seq rfl hle
  rcases Nat.lt_or_ge s.block_allocator.free_block_ids.length (div_ceil seq.token_ids.length
    s.block_size - ((s.get_block_map seq.seq_id).getD .empty).block_ids.length) with hlt | hge
  · obtain ⟨s'', hs''⟩ := herr hlt
    rw [hrun] at hs''
    cases hs''
    rfl
  · obtain ⟨r, s'', hs''⟩ := hok hge
    rw [hrun] at hs''
    cases hs''

end

/-! ### Counting the blocks missing -/

section
variable [Hasher] {seq : Sequence} {m : BlockManager}

theorem get_num_required_blocks_ok {k : Nat} {m' : BlockManager}
    (h : get_num_required_blocks seq m = .ok k m') :
    m' = m ∧ k = div_ceil seq.token_ids.length m.block_size -
      match m.get_block_map seq.seq_id with
      | some b => b.block_ids.length
      | none => (m.get_prefix_cache_blocks seq.token_ids).length := by
  have hrun := get_ok h
  cases hb : m.get_block_map seq.seq_id with
  | none =>
    simp only [hb] at hrun
    obtain ⟨rfl, rfl, -⟩ := checked_sub_ok hrun
    exact ⟨rfl, rfl⟩
  | some b =>
    simp only [hb] at hrun
    obtain ⟨rfl, rfl, -⟩ := checked_sub_ok hrun
    refine ⟨rfl, ?_⟩
    simp only [get_num_allocated_blocks, hb]

theorem length_prefix_hits_le (token_ids : List Nat) (stop : Nat) (offsets : List Nat) :
    (m.prefix_hits token_ids stop offsets).length ≤ offsets.length := by
  induction offsets with
  | nil => exact Nat.le_refl _
  | cons off offsets ih =>
    simp only [prefix_hits]
    split
    · exact Nat.zero_le _
    · split
      · simpa using ih
      · exact Nat.zero_le _

/-- The subtraction of `get_num_required_blocks` is one of a smaller number. -/
theorem get_num_required_blocks_returns {R : List Nat → List Nat → Prop} {Occ : List Nat → Prop}
    {tok : Nat → List Nat} {n : Nat} (h : m.PageInv R Occ tok n none [])
    (htok : tok seq.seq_id = seq.token_ids) : ∃ k, get_num_required_blocks seq m = .ok k m := by
  have hbs := m.block_size_pos
  have hrun : get_num_required_blocks seq m = _ := bind_apply get _ m
  simp only [get_apply] at hrun
  cases hmap : m.get_block_map seq.seq_id with
  | none =>
    have hle : (m.get_prefix_cache_blocks seq.token_ids).length ≤
        div_ceil seq.token_ids.length m.block_size := by
      have := length_prefix_hits_le (m := m) seq.token_ids seq.token_ids.length
        (step_by 0 seq.token_ids.length m.block_size)
      rw [length_step_by, Nat.sub_zero] at this
      exact this
    simp only [hmap, checked_sub, if_pos hle] at hrun
    exact ⟨_, hrun⟩
  | some b =>
    have hpage := h.maps _ b (by simp) hmap
    have hle : m.get_num_allocated_blocks seq.seq_id ≤ div_ceil seq.token_ids.length m.block_size := by
      simp only [get_num_allocated_blocks, hmap]
      rw [hpage.len]
      exact div_ceil_mono hbs (by rw [← htok]; exact hpage.slots_le)
    simp only [hmap, checked_sub, if_pos hle] at hrun
    exact ⟨_, hrun⟩

end

end BlockManager

end LMServe
