import LMServe.PageTableOps

/-!
# Filling, freeing and regions keep the page tables

The rest of the manager's operations. None of them can stop here, apart from the assertion of
`update_filled_len` and `reserve_blocks` on an empty free list.
-/

namespace LMServe
open Hoare Chunk

namespace BlockManager

variable {n : Nat} {held : List Nat} {s s' : BlockManager}

/-- Blocks in `gone` may have been forgotten, the rest is as before. -/
structure Forgotten (gone : Nat → Prop) (s s' : BlockManager) : Prop where
  block_size : s'.block_size = s.block_size
  maps : s'.seq_block_mapping_table = s.seq_block_mapping_table
  regions : s'.reserved_blocks_table = s.reserved_blocks_table
  content : ∀ x, ((s'.get_block x).token_ids = (s.get_block x).token_ids ∧
      (s'.get_block x).hash = (s.get_block x).hash) ∨
    ((s'.get_block x).token_ids = [] ∧ (s'.get_block x).hash = 0 ∧ gone x)
  table : ∀ k x, s'.hash_block_table.lookup k = some x → s.hash_block_table.lookup k = some x

theorem Quiet.forgotten {gone : Nat → Prop} (h : Quiet s s') : Forgotten gone s s' :=
  ⟨h.block_size, h.maps, h.regions, fun x => .inl (h.content x), fun k x hx => by rwa [h.table] at hx⟩

theorem Forgotten.mono {gone gone' : Nat → Prop} (h : Forgotten gone s s')
    (hg : ∀ x, gone x → gone' x) : Forgotten gone' s s' :=
  { h with content := fun x => (h.content x).imp id fun hx => ⟨hx.1, hx.2.1, hg x hx.2.2⟩ }

theorem Forgotten.trans {gone : Nat → Prop} {s'' : BlockManager} (h : Forgotten gone s s')
    (h' : Forgotten gone s' s'') : Forgotten gone s s'' := by
  refine ⟨h'.block_size.trans h.block_size, h'.maps.trans h.maps, h'.regions.trans h.regions,
    fun x => ?_, fun k x hx => h.table k x (h'.table k x hx)⟩
  rcases h'.content x with hx' | hx'
  · rcases h.content x with hx | hx
    · exact .inl ⟨hx'.1.trans hx.1, hx'.2.trans hx.2⟩
    · exact .inr ⟨hx'.1.trans hx.1, hx'.2.trans hx.2.1, hx.2.2⟩
  · exact .inr hx'

theorem Forgotten.refs {gone : Nat → Prop} (h : Forgotten gone s s') (b : Nat) :
    s'.refs b = s.refs b := by
  simp only [BlockManager.refs, h.maps, h.regions]

theorem Forgotten.hash_zero {gone : Nat → Prop} (h : Forgotten gone s s') {b : Nat}
    (hb : (s.get_block b).hash = 0) : (s'.get_block b).hash = 0 := by
  rcases h.content b with hx | hx
  · rw [hx.2, hb]
  · exact hx.2.1

theorem free_loop_zero (ids : List Nat) : ∀ (s : BlockManager) (cnt : Nat),
    free_loop 0 cnt ids s = (forM ids fun b => do
      on_allocator (BlockAllocator.free_block b)
      drop_cache b : BM PUnit) s := by
  induction ids with
  | nil => intro s cnt; rfl
  | cons b ids ih =>
    intro s cnt
    rw [free_loop, List.forM_cons, bind_apply, bind_apply, bind_apply]
    cases on_allocator (BlockAllocator.free_block b) s with
    | error e s₁ => rfl
    | ok _ s₁ =>
      have hpos : 0 < cnt + s₁.block_size := Nat.lt_of_lt_of_le s₁.block_size_pos (Nat.le_add_left _ _)
      simp only [bind_apply, get_apply, drop_unfilled, hpos, ↓reduceIte]
      cases drop_cache b s₁ with
      | error e s₂ => rfl
      | ok _ s₂ => exact ih s₂ _

section
variable [Hasher] {R : List Nat → List Nat → Prop} {Occ : List Nat → Prop} {tok : Nat → List Nat}
  {skip : Option Nat}

/-! ### Filling -/

omit [Hasher] in
theorem update_filled_len_error {i len : Nat} {e : Panic}
    (hrun : update_filled_len i len s = .error e s') : e = .filledBeyondSlots := by
  rcases bind_error.mp hrun with hget | ⟨a, s₁, hget, hrest⟩
  · cases hget
  · cases hm : a.get_block_map i with
    | none => rw [hm] at hrest; cases hrest
    | some m =>
      rw [hm] at hrest
      dsimp only at hrest
      split at hrest
      · cases hrest
      · cases hrest; rfl

theorem update_filled_len_pageInv {i len : Nat} (h : s.PageInv R Occ tok n none held)
    (hrun : update_filled_len i len s = .ok .unit s') :
    s'.PageInv R Occ tok n none held ∧
      ((s.get_block_map i = none ∧ s' = s) ∨ ∃ m, s.get_block_map i = some m ∧
        len ≤ m.num_allocated_slots ∧ s' = s.set_block_map i { m with filled_token_len := len }) := by
  replace hrun := get_ok hrun
  cases hm : s.get_block_map i with
  | none =>
    rw [hm] at hrun
    obtain rfl : s = s' := by simpa using hrun
    exact ⟨h, .inl ⟨rfl, rfl⟩⟩
  | some m =>
    rw [hm] at hrun
    dsimp only at hrun
    split at hrun
    · rename_i hle
      obtain rfl : _ = s' := by simpa using hrun
      refine ⟨(h.skip_some i).set_block_map (fun b => by rw [hm]) ?_, .inr ⟨m, rfl, hle, rfl⟩⟩
      exact (h.maps i m (by simp) hm).set_filled hle
    · simp at hrun

/-! ### Freeing -/

theorem PageInv.erase_block_map (h : s.PageInv R Occ tok n none held) {i : Nat} {m : BlockMap}
    (hm : s.get_block_map i = some m) :
    PageInv R Occ tok n none (m.block_ids ++ held)
      { s with seq_block_mapping_table := s.seq_block_mapping_table.erase i } := by
  have hr := h.ref.erase_block_map hm
  refine ⟨hr, fun j m' _ hm' => ?_, h.capacity, fun b hb hlt => ?_, h.tagged, h.zero, h.regions⟩
  · have hm'' : (s.seq_block_mapping_table.erase i).lookup j = some m' := hm'
    rw [Table.lookup_erase_eq] at hm''
    split at hm''
    · cases hm''
    · exact h.maps j m' (by simp) hm''
  · have h1 := h.ref.ref_cnt hb
    have h2 := hr.ref_cnt hb
    have h3 := h.unshared b hb hlt
    have h4 : (get_block { s with seq_block_mapping_table := s.seq_block_mapping_table.erase i } b).ref_cnt
      = (s.get_block b).ref_cnt := rfl
    omega

theorem PageInv.free_block {b : Nat} (h : s.PageInv R Occ tok n skip (b :: held)) :
    ∃ s', on_allocator (BlockAllocator.free_block b) s = .ok .unit s' ∧
      s'.PageInv R Occ tok n skip held ∧ Quiet s s' := by
  obtain ⟨s', hrun, hr, hq, -⟩ := free_block_spec h.ref
  refine ⟨s', hrun, h.quiet hq hr fun x hx hlt => ?_, hq⟩
  have := h.unshared x hx hlt
  rw [List.count_cons] at this; omega

theorem drop_cache_pageInv {b : Nat} (h : s.PageInv R Occ tok n none held) (hb : b < n) :
    ∃ s', drop_cache b s = .ok .unit s' ∧ s'.PageInv R Occ tok n none held ∧
      Forgotten (fun x => x = b ∧ s.refs x + held.count x = 0) s s' ∧
      (s.refs b + held.count b = 0 → (s'.get_block b).hash = 0) := by
  have hlt : b < s.block_allocator.block_pool.length := by rw [h.ref.pool_len]; exact hb
  have hget := BlockAllocator.getElem?_pool (a := s.block_allocator) hlt
  have href := h.ref.ref_cnt hb
  have hrun : drop_cache b s = _ := bind_apply (get_block_mut b) _ s
  simp only [get_block_mut, bind_apply, get_apply, hget, pure_apply] at hrun
  by_cases hzero : s.refs b + held.count b = 0
  · have hcnt : (s.block_allocator.get_block b).ref_cnt = 0 := by
      refine href.trans ?_; exact_mod_cast hzero
    rw [if_pos hcnt, modify_apply] at hrun
    have hr := (drop_cache_refInv (E := NoFault) hb).of_ok h.ref hrun
    have hnew : ∀ x, (s.set_block b (s.get_block b).clear).get_block x =
        if x = b then (s.get_block b).clear else s.get_block x := fun x => by
      rw [get_block_set_block]; simp [hlt]
    have htable : ∀ k x, (s.hash_block_table.erase (s.get_block b).hash).lookup k = some x →
        s.hash_block_table.lookup k = some x := fun k x hx => by
      rw [Table.lookup_erase_eq] at hx
      split at hx
      · cases hx
      · exact hx
    have hself := (hnew b).trans (if_pos rfl)
    have hzero' : (s.hash_block_table.erase (s.get_block b).hash).lookup 0 ≠ some b := by
      rw [Table.lookup_erase_eq]
      split
      · simp
      · rename_i hne; exact fun h0 => hne (h.zero b h0).symm
    obtain ⟨hmaps, hregions⟩ := not_mem_of_refs_eq_zero (s := s) (b := b) (by omega)
    refine ⟨_, hrun, h.write (b := b) hr (fun _ _ => rfl) rfl rfl rfl
      (fun x hx => (hnew x).trans (if_neg hx)) (fun x hx _ => htable 0 x hx) ?_ ?_ ?_
      (fun i m _ hm => hmaps i m hm) hregions (by omega), ⟨rfl, rfl, rfl, fun x => ?_, htable⟩, ?_⟩
    · show ((s.set_block b (s.get_block b).clear).get_block b).token_ids.length ≤ _
      rw [hself]; exact Nat.zero_le _
    · rintro (h0 | h0)
      · refine absurd ?_ h0
        show ((s.set_block b (s.get_block b).clear).get_block b).hash = 0
        rw [hself]; rfl
      · exact absurd h0 hzero'
    · intro h0; exact absurd h0 hzero'
    · by_cases hx : x = b
      · right
        show ((s.set_block b (s.get_block b).clear).get_block x).token_ids = [] ∧
          ((s.set_block b (s.get_block b).clear).get_block x).hash = 0 ∧ _
        rw [hnew x, if_pos hx]; exact ⟨rfl, rfl, hx, by rw [hx]; exact hzero⟩
      · left
        show ((s.set_block b (s.get_block b).clear).get_block x).token_ids = _ ∧
          ((s.set_block b (s.get_block b).clear).get_block x).hash = _
        rw [hnew x, if_neg hx]; exact ⟨rfl, rfl⟩
    · intro _
      show ((s.set_block b (s.get_block b).clear).get_block b).hash = 0
      rw [hself]; rfl
  · have hcnt : ¬ (s.block_allocator.get_block b).ref_cnt = 0 := fun h0 => hzero (by
      have h1 : (s.block_allocator.get_block b).ref_cnt = _ := href
      omega)
    rw [if_neg hcnt, pure_apply] at hrun
    exact ⟨s, hrun, h, (Quiet.refl s).forgotten, fun h0 => absurd h0 hzero⟩

/-- The loop of `free`, over blocks whose references the caller holds. Of the blocks behind the
filled tokens, exactly those that nobody else refers to lose their hash. -/
theorem free_loop_pageInv (filled : Nat) (ids : List Nat) : ∀ {s : BlockManager} (cnt : Nat),
    s.PageInv R Occ tok n none (ids ++ held) →
    ∃ s', free_loop filled cnt ids s = .ok .unit s' ∧ s'.PageInv R Occ tok n none held ∧
      Forgotten (fun x => s.refs x + held.count x = 0 ∧
        ∃ k, ids[k]? = some x ∧ filled < cnt + (k + 1) * s.block_size) s s' ∧
      ∀ k x, ids[k]? = some x → filled < cnt + (k + 1) * s.block_size →
        s.refs x + held.count x = 0 → (s'.get_block x).hash = 0 := by
  induction ids with
  | nil =>
    intro s cnt h
    exact ⟨s, rfl, h, (Quiet.refl s).forgotten, fun k x hk => by simp at hk⟩
  | cons b ids ih =>
    intro s cnt h
    have hb := h.ref.lt_of_mem (List.mem_cons_self ..)
    obtain ⟨s₁, hfree, h₁, hq⟩ := h.free_block
    have hidx : ∀ k, cnt + s.block_size + (k + 1) * s.block_size =
        cnt + (k + 1 + 1) * s.block_size := fun k => by rw [Nat.succ_mul (k + 1)]; omega
    -- after the optional drop
    obtain ⟨s₂, hdrop, h₂, hf₂, hz₂⟩ : ∃ s₂, drop_unfilled filled (cnt + s.block_size) b s₁ =
        .ok .unit s₂ ∧ s₂.PageInv R Occ tok n none (ids ++ held) ∧
        Forgotten (fun x => x = b ∧ s.refs x + (ids ++ held).count x = 0 ∧
          filled < cnt + s.block_size) s₁ s₂ ∧
        (filled < cnt + s.block_size → s.refs b + (ids ++ held).count b = 0 →
          (s₂.get_block b).hash = 0) := by
      unfold drop_unfilled
      by_cases hlt : filled < cnt + s.block_size
      · rw [if_pos hlt]
        obtain ⟨s₂, hrun, h₂, hf, hz⟩ := drop_cache_pageInv h₁ hb
        refine ⟨s₂, hrun, h₂, hf.mono fun x hx => ⟨hx.1, ?_, hlt⟩, fun _ h0 => hz ?_⟩
        · rw [← hq.refs]; exact hx.2
        · rw [hq.refs]; exact h0
      · rw [if_neg hlt]
        exact ⟨s₁, rfl, h₁, (Quiet.refl s₁).forgotten, fun h => absurd h hlt⟩
    obtain ⟨s', hrun, h', hf', hz'⟩ := ih (cnt + s.block_size) h₂
    have hbs₂ : s₂.block_size = s.block_size := hf₂.block_size.trans hq.block_size
    have hrefs₂ : ∀ x, s₂.refs x = s.refs x := fun x => (hf₂.refs x).trans (hq.refs x)
    refine ⟨s', ?_, h', ?_, fun k x hk hlt hzero => ?_⟩
    · rw [free_loop, bind_apply, hfree]
      simp only [bind_apply, get_apply, hq.block_size, hdrop]
      exact hrun
    · refine (hq.forgotten.trans (hf₂.mono fun x hx => ?_)).trans (hf'.mono fun x hx => ?_)
      · obtain ⟨rfl, hzero, hlt⟩ := hx
        rw [List.count_append] at hzero
        exact ⟨by omega, 0, rfl, by simpa using hlt⟩
      · obtain ⟨hzero, k, hk, hlt⟩ := hx
        rw [hrefs₂] at hzero
        rw [hbs₂, hidx] at hlt
        exact ⟨hzero, k + 1, by simpa using hk, hlt⟩
    · -- the last occurrence of the block is the one that drops it
      cases k with
      | succ k => exact hz' k x (by simpa using hk) (by rw [hbs₂, hidx]; exact hlt)
                    (by rw [hrefs₂]; exact hzero)
      | zero =>
        obtain rfl : b = x := by simpa using hk
        rw [Nat.zero_add, Nat.one_mul] at hlt
        by_cases hmem : b ∈ ids
        · obtain ⟨j, hj⟩ := List.getElem?_of_mem hmem
          exact hz' j b hj (by omega) (by rw [hrefs₂]; exact hzero)
        · refine hf'.hash_zero (hz₂ hlt ?_)
          rw [List.count_append, List.count_eq_zero.2 hmem]; omega

/-- The effect of freeing sequence `i` with map `m`: the map is gone; of its blocks, those behind
`filled` that nobody else refers to have been forgotten. -/
structure Freed (i : Nat) (m : BlockMap) (filled : Nat) (s s' : BlockManager) : Prop where
  block_size : s'.block_size = s.block_size
  map : s'.get_block_map i = none
  maps : ∀ j, j ≠ i → s'.get_block_map j = s.get_block_map j
  regions : s'.reserved_blocks_table = s.reserved_blocks_table
  content : ∀ x, ((s'.get_block x).token_ids = (s.get_block x).token_ids ∧
      (s'.get_block x).hash = (s.get_block x).hash) ∨
    ((s'.get_block x).token_ids = [] ∧ (s'.get_block x).hash = 0 ∧ s'.refs x = 0)
  table : ∀ k x, s'.hash_block_table.lookup k = some x → s.hash_block_table.lookup k = some x
  dropped : ∀ k x, m.block_ids[k]? = some x → filled < (k + 1) * s.block_size → s'.refs x = 0 →
    (s'.get_block x).hash = 0

theorem free_pageInv (i : Nat) (h : s.PageInv R Occ tok n none []) :
    ∃ s', free i s = .ok .unit s' ∧ s'.PageInv R Occ tok n none [] ∧
      ((s.get_block_map i = none ∧ s' = s) ∨
        ∃ m, s.get_block_map i = some m ∧ Freed i m m.filled_token_len s s') := by
  have hrun : free i s = _ := bind_apply get _ s
  simp only [get_apply] at hrun
  cases hm : s.get_block_map i with
  | none =>
    simp only [hm, pure_apply] at hrun
    exact ⟨s, hrun, h, .inl ⟨rfl, rfl⟩⟩
  | some m =>
    simp only [hm, bind_apply, modify_apply] at hrun
    obtain ⟨s', hloop, h', hf, hz⟩ := free_loop_pageInv m.filled_token_len
      m.block_ids 0 (h.erase_block_map hm)
    have hrefs := hf.refs
    simp only [List.count_nil, Nat.add_zero, Nat.zero_add, ← hrefs] at hf hz
    refine ⟨s', hrun.trans hloop, h', .inr ⟨m, rfl, hf.block_size, ?_, fun j hj => ?_, hf.regions,
      fun x => (hf.content x).imp id fun hx => ⟨hx.1, hx.2.1, hx.2.2.1⟩, hf.table, hz⟩⟩
    · rw [BlockManager.get_block_map, hf.maps, Table.lookup_erase_eq, if_pos rfl]
    · rw [BlockManager.get_block_map, hf.maps, Table.lookup_erase_eq, if_neg hj]; rfl

/-- `free_and_drop_cache` always returns; all blocks that nobody else refers to are forgotten. -/
theorem free_and_drop_cache_pageInv (i : Nat) (h : s.PageInv R Occ tok n none []) :
    ∃ s', free_and_drop_cache i s = .ok .unit s' ∧ s'.PageInv R Occ tok n none [] ∧
      ((s.get_block_map i = none ∧ s' = s) ∨
        ∃ m, s.get_block_map i = some m ∧ Freed i m 0 s s') := by
  have hrun : free_and_drop_cache i s = _ := bind_apply get _ s
  simp only [get_apply] at hrun
  cases hm : s.get_block_map i with
  | none =>
    simp only [hm, pure_apply] at hrun
    exact ⟨s, hrun, h, .inl ⟨rfl, rfl⟩⟩
  | some m =>
    simp only [hm, bind_apply, modify_apply] at hrun
    -- the loop is the one of `free` for a sequence of which nothing is filled
    obtain ⟨s', hloop, h', hf, hz⟩ := free_loop_pageInv 0
      m.block_ids 0 (h.erase_block_map hm)
    have hrefs := hf.refs
    simp only [List.count_nil, Nat.add_zero, Nat.zero_add, ← hrefs] at hf hz
    refine ⟨s', hrun.trans ?_, h', .inr ⟨m, rfl, hf.block_size, ?_, fun j hj => ?_, hf.regions,
      fun x => (hf.content x).imp id fun hx => ⟨hx.1, hx.2.1, hx.2.2.1⟩, hf.table, hz⟩⟩
    · rw [← free_loop_zero]; exact hloop
    · rw [BlockManager.get_block_map, hf.maps, Table.lookup_erase_eq, if_pos rfl]
    · rw [BlockManager.get_block_map, hf.maps, Table.lookup_erase_eq, if_neg hj]; rfl

theorem clear_cache_pageInv (h : s.PageInv R Occ tok n skip held) :
    PageInv R Occ tok n skip held { s with hash_block_table := ∅ } :=
  { ref := h.ref.set_table fun _ _ hk => by simp at hk
    maps := h.maps
    capacity := h.capacity
    unshared := h.unshared
    tagged := fun b hb ht => h.tagged b hb (ht.imp id fun h0 => by simp at h0)
    zero := fun b hb => by simp at hb
    regions := h.regions }

end

end BlockManager

end LMServe
