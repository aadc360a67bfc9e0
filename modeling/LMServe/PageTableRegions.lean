import LMServe.PageTableFree

/-!
# Regions keep the page tables

Reserving, activating, pinning and unpinning. Here the hash function must not return `0`, the hash
of a block without one: a reserved block keeps the table entries of its previous content, and an
entry under `0` would make them valid when the block is handed out again and not filled.
-/

namespace LMServe
open Hoare Chunk

namespace BlockManager

variable [Hasher] {R : List Nat → List Nat → Prop} {Occ : List Nat → Prop} {tok : Nat → List Nat}
  {n : Nat} {skip : Option Nat} {held : List Nat} {s s' : BlockManager}

theorem PageInv.lookup_zero (hz : ∀ P, Occ P → compute_hash P ≠ 0)
    (h : s.PageInv R Occ tok n skip held) : s.hash_block_table.lookup 0 = none := by
  cases h0 : s.hash_block_table.lookup 0 with
  | none => rfl
  | some b =>
    obtain ⟨P, hP, hk, -, -⟩ := h.tagged b (h.ref.table_lt 0 b h0) (.inr h0)
    exact absurd (hk.trans (h.zero b h0)) (hz P hP)

theorem PageInv.insert_region {ids : List Nat} {r : Nat} (h : s.PageInv R Occ tok n skip (ids ++ held))
    (hr : s.reserved_blocks_table.lookup r = none) (hids : ∀ b ∈ ids, (s.get_block b).hash ≠ 0) :
    PageInv R Occ tok n skip held
      { s with reserved_blocks_table := s.reserved_blocks_table.insert r ids } := by
  have href := h.ref.insert_region hr
  refine ⟨href, h.maps, h.capacity, fun b hb hlt => ?_, h.tagged, h.zero, fun r' ids' hr' b hb => ?_⟩
  · have h1 := h.ref.ref_cnt hb
    have h2 := href.ref_cnt hb
    have h3 := h.unshared b hb hlt
    have h4 : (get_block { s with reserved_blocks_table := s.reserved_blocks_table.insert r ids }
      b).ref_cnt = (s.get_block b).ref_cnt := rfl
    omega
  · have hr'' : (s.reserved_blocks_table.insert r ids).lookup r' = some ids' := hr'
    rw [Table.lookup_insert_eq] at hr''
    split at hr''
    · obtain rfl := Option.some.inj hr''; exact hids b hb
    · exact h.regions r' ids' hr'' b hb

theorem PageInv.erase_region {ids : List Nat} {r : Nat} (h : s.PageInv R Occ tok n skip held)
    (hr : s.reserved_blocks_table.lookup r = some ids) :
    PageInv R Occ tok n skip (ids ++ held)
      { s with reserved_blocks_table := s.reserved_blocks_table.erase r } := by
  have href := h.ref.erase_region hr
  refine ⟨href, h.maps, h.capacity, fun b hb hlt => ?_, h.tagged, h.zero, fun r' ids' hr' b hb => ?_⟩
  · have h1 := h.ref.ref_cnt hb
    have h2 := href.ref_cnt hb
    have h3 := h.unshared b hb hlt
    have h4 : (get_block { s with reserved_blocks_table := s.reserved_blocks_table.erase r }
      b).ref_cnt = (s.get_block b).ref_cnt := rfl
    omega
  · have hr'' : (s.reserved_blocks_table.erase r).lookup r' = some ids' := hr'
    rw [Table.lookup_erase_eq] at hr''
    split at hr''
    · cases hr''
    · exact h.regions r' ids' hr'' b hb

/-! ### Reserving -/

theorem reserve_loop_pageInv (hR : TokenRel R Occ) (hz : ∀ P, Occ P → compute_hash P ≠ 0)
    {T : List Nat} (hT : ∀ k, Occ (T.take k)) (offsets : List Nat) :
    ∀ {s s' : BlockManager} {held : List Nat} {pairs : List (Nat × Nat)},
    s.PageInv R Occ tok n none held → reserve_loop T offsets s = .ok pairs s' →
    s'.PageInv R Occ tok n none (pairs.map (·.1) ++ held) ∧ Grown (pairs.map (·.1)) s s' ∧
      s'.hash_block_table = s.hash_block_table ∧
      ∀ p ∈ pairs, (s'.get_block p.1).hash = p.2 ∧ p.2 ≠ 0 := by
  induction offsets with
  | nil =>
    intro s s' held pairs h hrun
    obtain ⟨rfl, rfl⟩ : [] = pairs ∧ s = s' := by simpa [reserve_loop] using hrun
    exact ⟨h, Grown.refl s, rfl, by simp⟩
  | cons off offsets ih =>
    intro s s' held pairs h hrun
    replace hrun := get_ok hrun
    dsimp only at hrun
    split at hrun
    · obtain ⟨rfl, rfl⟩ : [] = pairs ∧ s = s' := by simpa using hrun
      exact ⟨h, Grown.refl s, rfl, by simp⟩
    rename_i hfull
    have hbs := s.block_size_pos
    have hend : off + s.block_size ≤ T.length := by omega
    rw [Nat.min_eq_left hend] at hrun
    obtain ⟨b, s₁, halloc, hrest⟩ := bind_ok.1 hrun
    obtain ⟨h₁, hq, hb, hrefs, hnot, hfree, hother⟩ := alloc_block_spec h.ref halloc
    replace hrest := get_ok hrest
    obtain ⟨block, s₂, happ, hwrite⟩ := bind_ok.1 hrest
    obtain ⟨hblock, rfl, -⟩ := append_tokens_ok happ
    obtain ⟨pairs', s₃, hloop, hret⟩ := bind_ok.1 (modify_ok hwrite)
    obtain ⟨rfl, rfl⟩ : (b, compute_hash (T.take (off + s.block_size))) :: pairs' = pairs ∧ s₃ = s' := by
      simpa using hret
    -- the state with the block written
    obtain ⟨s₄, hs₄⟩ : ∃ s₄, s₄ = s₂.set_block b
      { block with hash := compute_hash (T.take (off + s.block_size)) } := ⟨_, rfl⟩
    rw [← hs₄] at hloop
    have hlt : b < s₂.block_allocator.block_pool.length := by rw [h₁.pool_len]; exact hb
    have hget : ∀ x, s₄.get_block x = if x = b then
        { block with hash := compute_hash (T.take (off + s.block_size)) } else s₂.get_block x := by
      intro x; rw [hs₄, get_block_set_block]; simp [hlt]
    have hself := (hget b).trans (if_pos rfl)
    have htoks : s₄.tokens b = slice T off (off + s.block_size) := by
      unfold tokens; rw [hself, hblock]; rfl
    have hhash : (s₄.get_block b).hash = compute_hash (T.take (off + s.block_size)) := by
      rw [hself]
    have hr₄ : s₄.RefInv n (b :: held) := by
      rw [hs₄]; exact h₁.set_block _ (by rw [hblock]; rfl) (by rw [hblock]; rfl)
    have hg : Grown [b] s s₄ := by
      refine ⟨⟨?_, ?_, ?_, fun x hx => ?_, fun k x hx => ?_⟩, ?_, by simpa using hrefs⟩
      · rw [hs₄]; exact hq.block_size
      · rw [hs₄]; exact hq.maps
      · rw [hs₄]; exact hq.regions
      · rw [hget, if_neg (by simpa using hx)]; exact hother x (by simpa using hx)
      · rw [hs₄] at hx; right; rw [← hq.table]; exact hx
      · rw [hs₄, hfree]; rfl
    have htable : s₄.hash_block_table = s.hash_block_table := by rw [hs₄]; exact hq.table
    obtain ⟨hmaps, hregions⟩ := not_mem_of_refs_eq_zero hrefs
    have h₄ : s₄.PageInv R Occ tok n none (b :: held) := by
      refine h.write (b := b) hr₄ (fun x hx => List.count_cons_of_ne (Ne.symm hx)) hg.block_size
        hg.maps hg.regions (fun x hx => hg.other x (by simpa using hx)) ?_ ?_ ?_ ?_
        (fun i m _ hm => hmaps i m hm) hregions ?_
      · intro x hx _; rwa [htable] at hx
      · rw [htoks, length_slice]; omega
      · intro _
        rw [htoks, hhash, ← last_block_take hend]
        exact ⟨_, hT _, rfl, by simp; omega, hR.refl _⟩
      · intro h0; rw [htable, h.lookup_zero hz] at h0; cases h0
      · rw [hrefs, List.count_cons_self, List.count_eq_zero.2 hnot]
    obtain ⟨h', hg', htable', hpairs⟩ := ih h₄ hloop
    have hnot' : b ∉ pairs'.map (·.1) := fun hmem => by
      have hnd := h.ref.count.free_nodup
      rw [hg.free, hg'.free] at hnd
      simp only [List.singleton_append, List.nodup_cons] at hnd
      exact hnd.1 (List.mem_append_left _ hmem)
    refine ⟨h'.congr_held fun x => by simp [List.count_cons, List.count_append]; omega,
      hg.trans hg', htable'.trans htable, fun p hp => ?_⟩
    rcases List.mem_cons.1 hp with rfl | hp
    · exact ⟨by rw [hg'.other b hnot', hhash], hz _ (hT _)⟩
    · exact hpairs p hp

theorem reserve_loop_nil {T offsets : List Nat} (hrun : reserve_loop T offsets s = .ok [] s') :
    s' = s := by
  cases offsets with
  | nil =>
    obtain rfl : s = s' := by simpa [reserve_loop] using hrun
    rfl
  | cons off offsets =>
    replace hrun := get_ok hrun
    dsimp only at hrun
    split at hrun
    · obtain rfl : s = s' := by simpa using hrun
      rfl
    · obtain ⟨b, s₁, -, hrest⟩ := bind_ok.1 hrun
      obtain ⟨block, s₂, -, hwrite⟩ := bind_ok.1 (get_ok hrest)
      obtain ⟨pairs', s₃, -, hret⟩ := bind_ok.1 (modify_ok hwrite)
      simp at hret

/-- The effect of reserving the region `region`: its blocks are new ones. -/
structure Reserved (region : BlockRegion) (s s' : BlockManager) : Prop where
  block_size : s'.block_size = s.block_size
  maps : s'.seq_block_mapping_table = s.seq_block_mapping_table
  table : s'.hash_block_table = s.hash_block_table
  regions : s'.reserved_blocks_table = s.reserved_blocks_table.insert region.id region.block_ids
  free : s.block_allocator.free_block_ids = region.block_ids ++ s'.block_allocator.free_block_ids
  unused : ∀ b ∈ region.block_ids, s.refs b = 0
  other : ∀ x, x ∉ region.block_ids → s'.get_block x = s.get_block x

theorem reserve_blocks_pageInv (hR : TokenRel R Occ) (hz : ∀ P, Occ P → compute_hash P ≠ 0)
    {T : List Nat} (hT : ∀ k, Occ (T.take k)) {r start : Nat} {region : Option BlockRegion}
    (h : s.PageInv R Occ tok n none held) (hr : s.reserved_blocks_table.lookup r = none)
    (hrun : reserve_blocks r T start s = .ok region s') :
    s'.PageInv R Occ tok n none held ∧ ((region = none ∧ s' = s) ∨
      ∃ reg, region = some reg ∧ reg.id = r ∧ Reserved reg s s') := by
  replace hrun := get_ok hrun
  obtain ⟨pairs, s₁, hloop, hrest⟩ := bind_ok.1 hrun
  obtain ⟨h₁, hg, htable, hpairs⟩ := reserve_loop_pageInv hR hz hT _ h hloop
  by_cases hp : pairs.isEmpty
  · rw [if_pos hp] at hrest
    obtain ⟨rfl, rfl⟩ : none = region ∧ s₁ = s' := by simpa using hrest
    obtain rfl := List.isEmpty_iff.1 hp
    obtain rfl := reserve_loop_nil hloop
    exact ⟨h, .inl ⟨rfl, rfl⟩⟩
  · rw [if_neg hp] at hrest
    obtain ⟨rfl, rfl⟩ : some _ = region ∧ _ = s' := by simpa using modify_ok hrest
    refine ⟨h₁.insert_region (by rw [hg.regions]; exact hr) fun b hb => ?_, .inr ⟨_, rfl, rfl,
      hg.block_size, hg.maps, htable, ?_, hg.free, hg.unused, hg.other⟩⟩
    · obtain ⟨p, hp', rfl⟩ := List.mem_map.1 hb
      rw [(hpairs p hp').1]; exact (hpairs p hp').2
    · show s₁.reserved_blocks_table.insert _ _ = _
      rw [hg.regions]

/-! ### Activating -/

/-- Blocks of `ids` may have been added to the table, each under its own hash out of `hash_values`. -/
structure Activated (ids hash_values : List Nat) (s s' : BlockManager) : Prop where
  block_size : s'.block_size = s.block_size
  maps : s'.seq_block_mapping_table = s.seq_block_mapping_table
  regions : s'.reserved_blocks_table = s.reserved_blocks_table
  content : ∀ b, (s'.get_block b).token_ids = (s.get_block b).token_ids ∧
    (s'.get_block b).hash = (s.get_block b).hash
  table : ∀ k x, s'.hash_block_table.lookup k = some x → s.hash_block_table.lookup k = some x ∨
    (x ∈ ids ∧ k ∈ hash_values ∧ (s.get_block x).hash = k)

omit [Hasher] in
theorem Activated.trans {ids ids' hash_values : List Nat} {s'' : BlockManager}
    (h : Activated ids hash_values s s') (h' : Activated ids' hash_values s' s'') :
    Activated (ids ++ ids') hash_values s s'' := by
  refine ⟨h'.block_size.trans h.block_size, h'.maps.trans h.maps, h'.regions.trans h.regions,
    fun b => ⟨(h'.content b).1.trans (h.content b).1, (h'.content b).2.trans (h.content b).2⟩,
    fun k x hx => ?_⟩
  rcases h'.table k x hx with hx | ⟨hx, hk, hh⟩
  · exact (h.table k x hx).imp id fun hx => ⟨List.mem_append_left _ hx.1, hx.2⟩
  · exact .inr ⟨List.mem_append_right _ hx, hk, by rw [← (h.content x).2]; exact hh⟩

theorem activate_block_pageInv (hash_values : List Nat) {b : Nat}
    (h : s.PageInv R Occ tok n none (b :: held)) (hb : (s.get_block b).hash ≠ 0) :
    ∃ r s', activate_block hash_values b s = .ok r s' ∧ s'.PageInv R Occ tok n none held ∧
      Activated [b] hash_values s s' := by
  have hlt := h.ref.lt_of_mem (List.mem_cons_self ..)
  -- the table entry
  obtain ⟨s₁, hpub, h₁, hact⟩ : ∃ s₁, publish_reserved hash_values (s.get_block b).hash b s =
      .ok .unit s₁ ∧ s₁.PageInv R Occ tok n none (b :: held) ∧ Activated [b] hash_values s s₁ := by
    refine ⟨_, rfl, ?_⟩
    beta_reduce
    by_cases hc : (s.get_block b).hash ∈ hash_values ∧
        s.hash_block_table.lookup (s.get_block b).hash = none
    · rw [if_pos hc]
      have htable : ∀ k x, (s.hash_block_table.insert (s.get_block b).hash b).lookup k = some x →
          s.hash_block_table.lookup k = some x ∨ (x = b ∧ k = (s.get_block b).hash) := fun k x hx => by
        rw [Table.lookup_insert_eq] at hx
        split at hx
        · exact .inr ⟨(Option.some.inj hx).symm, ‹_›⟩
        · exact .inl hx
      have hzero : ∀ x, (s.hash_block_table.insert (s.get_block b).hash b).lookup 0 = some x →
          s.hash_block_table.lookup 0 = some x := fun x hx =>
        (htable 0 x hx).resolve_right fun hx => hb hx.2.symm
      refine ⟨⟨h.ref.insert_table _ hlt, h.maps, h.capacity, h.unshared,
        fun x hx ht => h.tagged x hx (ht.imp id fun h0 => hzero x h0), fun x hx => h.zero x (hzero x hx),
        h.regions⟩, rfl, rfl, rfl, fun _ => ⟨rfl, rfl⟩, fun k x hx => ?_⟩
      refine (htable k x hx).imp id ?_
      rintro ⟨rfl, rfl⟩
      exact ⟨by simp, hc.1, rfl⟩
    · rw [if_neg hc]
      exact ⟨h, rfl, rfl, rfl, fun _ => ⟨rfl, rfl⟩, fun k x hx => .inl hx⟩
  obtain ⟨s₂, hfree, h₂, hq⟩ := h₁.free_block
  refine ⟨if (s.get_block b).hash ∈ hash_values then 1 else 0, s₂, ?_, h₂,
    hq.block_size.trans hact.block_size, hq.maps.trans hact.maps,
    hq.regions.trans hact.regions, fun x => ⟨(hq.content x).1.trans (hact.content x).1,
      (hq.content x).2.trans (hact.content x).2⟩, fun k x hx => ?_⟩
  · unfold activate_block
    rw [bind_apply, get_apply]
    simp only [bind_apply, hpub, hfree, pure_apply]
  · rw [hq.table] at hx; exact hact.table k x hx

theorem activate_all_pageInv (hash_values : List Nat) (ids : List Nat) : ∀ {s : BlockManager},
    s.PageInv R Occ tok n none (ids ++ held) → (∀ b ∈ ids, (s.get_block b).hash ≠ 0) →
    ∃ r s', ids.mapM (activate_block hash_values) s = .ok r s' ∧
      s'.PageInv R Occ tok n none held ∧ Activated ids hash_values s s' := by
  induction ids with
  | nil =>
    intro s h _
    exact ⟨[], s, by rw [List.mapM_nil]; rfl, h, rfl, rfl, rfl, fun _ => ⟨rfl, rfl⟩,
      fun k x hx => .inl hx⟩
  | cons b ids ih =>
    intro s h hids
    obtain ⟨r, s₁, hrun, h₁, hact⟩ := activate_block_pageInv hash_values h
      (hids b (by simp))
    obtain ⟨rs, s₂, hruns, h₂, hact₂⟩ := ih h₁ fun x hx => by
      rw [(hact.content x).2]; exact hids x (by simp [hx])
    refine ⟨r :: rs, s₂, ?_, h₂, hact.trans hact₂⟩
    rw [List.mapM_cons, bind_apply, hrun]
    simp only [bind_apply, hruns, pure_apply]

theorem activate_reserved_blocks_pageInv (r : Nat) (hash_values : List Nat)
    (h : s.PageInv R Occ tok n none held) :
    ∃ a s', activate_reserved_blocks r hash_values s = .ok a s' ∧ s'.PageInv R Occ tok n none held ∧
      ((s.reserved_blocks_table.lookup r = none ∧ s' = s) ∨
        ∃ ids, s.reserved_blocks_table.lookup r = some ids ∧ Activated ids hash_values
          { s with reserved_blocks_table := s.reserved_blocks_table.erase r } s') := by
  have hrun : activate_reserved_blocks r hash_values s = _ := bind_apply get _ s
  simp only [get_apply] at hrun
  cases hr : s.reserved_blocks_table.lookup r with
  | none =>
    simp only [hr, pure_apply] at hrun
    exact ⟨0, s, hrun, h, .inl ⟨rfl, rfl⟩⟩
  | some ids =>
    simp only [hr, bind_apply, modify_apply] at hrun
    obtain ⟨as, s', hall, h', hact⟩ := activate_all_pageInv hash_values ids
      (h.erase_region hr) fun b hb => h.regions r ids hr b hb
    simp only [hall, pure_apply] at hrun
    exact ⟨_, s', hrun, h', .inr ⟨ids, rfl, hact⟩⟩

/-! ### Pinning -/

/-- `pin_loop` always returns: it takes references to blocks it finds. -/
theorem pin_loop_pageInv (hR : TokenRel R Occ) (hz : ∀ P, Occ P → compute_hash P ≠ 0)
    (hash_values : List Nat) : ∀ {s : BlockManager} {held : List Nat},
    s.PageInv R Occ tok n none held →
    ∃ pairs s', pin_loop hash_values s = .ok pairs s' ∧
      s'.PageInv R Occ tok n none (pairs.map (·.1) ++ held) ∧ Quiet s s' ∧
      ∀ p ∈ pairs, p.2 ∈ hash_values ∧ s.lookup_block_id p.2 = some p.1 ∧
        (s.get_block p.1).hash ≠ 0 := by
  induction hash_values with
  | nil => intro s held h; exact ⟨[], s, rfl, h, .refl s, by simp⟩
  | cons k hash_values ih =>
    intro s held h
    have hrun : pin_loop (k :: hash_values) s = _ := bind_apply get _ s
    simp only [get_apply] at hrun
    cases hk : s.lookup_block_id k with
    | none =>
      simp only [hk, pure_apply] at hrun
      exact ⟨[], s, hrun, h, .refl s, by simp⟩
    | some b =>
      obtain ⟨hb, hhash, htag⟩ := h.lookup hk
      have hne : (s.get_block b).hash ≠ 0 := by
        obtain ⟨P, hP, hPk, -, -⟩ := htag
        rw [hhash, ← hPk]; exact hz P hP
      obtain ⟨s₁, hret, h₁, hq, -⟩ := h.retain_all [b] fun x hx => by
        rw [List.mem_singleton.1 hx]; exact ⟨hb, htag.length hR⟩
      rw [List.forM_cons, bind_apply] at hret
      obtain ⟨pairs, s₂, hloop, h₂, hq₂, hpairs⟩ := ih h₁
      cases halloc : on_allocator (BlockAllocator.alloc_block_by_id b) s with
      | error e s' => rw [halloc] at hret; cases hret
      | ok _ s' =>
        rw [halloc] at hret
        obtain rfl : s' = s₁ := by simpa using hret
        simp only [hk, bind_apply, halloc, hloop, pure_apply] at hrun
        refine ⟨_, s₂, hrun, h₂.congr_held fun x => ?_, hq.trans hq₂, fun p hp => ?_⟩
        · simp [List.count_cons, List.count_append]; omega
        · rcases List.mem_cons.1 hp with rfl | hp
          · exact ⟨by simp, hk, hne⟩
          · have := hpairs p hp
            rw [hq.lookup, (hq.content p.1).2] at this
            exact ⟨List.mem_cons_of_mem _ this.1, this.2⟩

/-- The effect of pinning: a region of blocks found under the given hashes. -/
structure Pinned (region : BlockRegion) (hash_values : List Nat) (s s' : BlockManager) : Prop where
  block_size : s'.block_size = s.block_size
  maps : s'.seq_block_mapping_table = s.seq_block_mapping_table
  table : s'.hash_block_table = s.hash_block_table
  regions : s'.reserved_blocks_table = s.reserved_blocks_table.insert region.id region.block_ids
  content : ∀ b, (s'.get_block b).token_ids = (s.get_block b).token_ids ∧
    (s'.get_block b).hash = (s.get_block b).hash
  found : ∀ b ∈ region.block_ids, ∃ k ∈ hash_values, s.lookup_block_id k = some b

theorem pin_blocks_by_hashes_pageInv (hR : TokenRel R Occ) (hz : ∀ P, Occ P → compute_hash P ≠ 0)
    {r : Nat} (hash_values : List Nat) (h : s.PageInv R Occ tok n none held)
    (hr : s.reserved_blocks_table.lookup r = none) :
    ∃ region s', pin_blocks_by_hashes r hash_values s = .ok region s' ∧
      s'.PageInv R Occ tok n none held ∧ region.id = r ∧ Pinned region hash_values s s' := by
  obtain ⟨pairs, s₁, hloop, h₁, hq, hpairs⟩ := pin_loop_pageInv hR hz hash_values h
  have hrun : pin_blocks_by_hashes r hash_values s = _ := bind_apply (pin_loop hash_values) _ s
  simp only [hloop, bind_apply, insert_region, modify_apply, pure_apply] at hrun
  refine ⟨_, _, hrun, h₁.insert_region (by rw [hq.regions]; exact hr) fun b hb => ?_, rfl,
    hq.block_size, hq.maps, hq.table, ?_, hq.content, fun b hb => ?_⟩
  · obtain ⟨p, hp, rfl⟩ := List.mem_map.1 hb
    rw [(hq.content p.1).2]; exact (hpairs p hp).2.2
  · show s₁.reserved_blocks_table.insert _ _ = _
    rw [hq.regions]
  · obtain ⟨p, hp, rfl⟩ := List.mem_map.1 hb
    exact ⟨p.2, (hpairs p hp).1, (hpairs p hp).2.1⟩

theorem PageInv.release_all (ids : List Nat) : ∀ {s : BlockManager},
    s.PageInv R Occ tok n skip (ids ++ held) →
    ∃ s', forM ids (fun b => on_allocator (BlockAllocator.free_block b)) s = .ok .unit s' ∧
      s'.PageInv R Occ tok n skip held ∧ Quiet s s' := by
  induction ids with
  | nil => intro s h; exact ⟨s, rfl, h, .refl s⟩
  | cons b ids ih =>
    intro s h
    obtain ⟨s₁, hrun, h₁, hq⟩ := h.free_block
    obtain ⟨s₂, hrun₂, h₂, hq₂⟩ := ih h₁
    refine ⟨s₂, ?_, h₂, hq.trans hq₂⟩
    rw [List.forM_cons, bind_apply, hrun]; exact hrun₂

theorem unpin_blocks_pageInv (r : Nat) (h : s.PageInv R Occ tok n none held) :
    ∃ a s', unpin_blocks r s = .ok a s' ∧ s'.PageInv R Occ tok n none held ∧
      Quiet { s with reserved_blocks_table := s.reserved_blocks_table.erase r } s' := by
  have hrun : unpin_blocks r s = _ := bind_apply get _ s
  simp only [get_apply] at hrun
  cases hr : s.reserved_blocks_table.lookup r with
  | none =>
    simp only [hr, pure_apply] at hrun
    refine ⟨0, s, hrun, h, rfl, rfl, rfl, ?_, fun _ => ⟨rfl, rfl⟩⟩
    exact AList.ext (List.kerase_of_notMem_keys (AList.lookup_eq_none.1 hr)).symm
  | some ids =>
    simp only [hr, bind_apply, modify_apply] at hrun
    obtain ⟨s', hrel, h', hq⟩ := (h.erase_region hr).release_all ids
    simp only [hrel, pure_apply] at hrun
    exact ⟨_, s', hrun, h', hq⟩

end BlockManager

end LMServe
