import LMServe.HashTable

/-!
# Blocks in use keep their content

A full block that somebody refers to before and after an operation has the same tokens and the same hash
after it. So the blocks of a region carry, until the region is given up, what `reserve_blocks` wrote
into them.
-/

namespace LMServe
open Hoare Chunk

namespace BlockManager

section
variable {n x : Nat} {m m' : BlockManager}

/-! ### Loops -/

theorem forM_content {g : Nat → BM PUnit} (hg : ∀ b m m', g b m = .ok .unit m' → Quiet m m') (ids : List Nat) : ∀ {m m' : BlockManager}, forM ids g m = .ok .unit m' →
    m'.content = m.content := by
  induction ids with
  | nil =>
    intro m m' hrun
    obtain rfl : m = m' := by simpa using hrun
    rfl
  | cons b ids ih =>
    intro m m' hrun
    rw [List.forM_cons] at hrun
    obtain ⟨_, m₁, hone, hrest⟩ := bind_ok.1 hrun
    rw [ih hrest, (hg _ _ _ hone).content_eq]

theorem pin_loop_content (hash_values : List Nat) : ∀ {m m' : BlockManager} {pairs : List (Nat × Nat)},
    pin_loop hash_values m = .ok pairs m' → m'.content = m.content := by
  induction hash_values with
  | nil =>
    intro m m' pairs hrun
    obtain ⟨-, rfl⟩ : _ ∧ m = m' := by simpa [pin_loop] using hrun
    rfl
  | cons hash hash_values ih =>
    intro m m' pairs hrun
    replace hrun := get_ok hrun
    cases hlook : m.lookup_block_id hash with
    | none =>
      rw [hlook] at hrun
      obtain ⟨-, rfl⟩ : _ ∧ m = m' := by simpa using hrun
      rfl
    | some b =>
      rw [hlook] at hrun
      obtain ⟨_, m₁, hone, hrest⟩ := bind_ok.1 hrun
      obtain ⟨rest, m₂, hloop, hret⟩ := bind_ok.1 hrest
      obtain ⟨-, rfl⟩ : _ ∧ m₂ = m' := by simpa using hret
      rw [ih hloop, (alloc_block_by_id_quiet hone).content_eq]

/-- A block that is referred to is not among the dropped ones. -/
theorem free_loop_content (filled : Nat) (ids : List Nat) : ∀ {m m' : BlockManager} (cnt : Nat),
    m.RefInv n ids → 0 < m.refs x → free_loop filled cnt ids m = .ok .unit m' →
    m'.content x = m.content x := by
  induction ids with
  | nil =>
    intro m m' cnt _ _ hrun
    obtain rfl : m = m' := by simpa [free_loop] using hrun
    rfl
  | cons b ids ih =>
    intro m m' cnt hinv hx hrun
    obtain ⟨_, m₁, hfree, hrest⟩ := bind_ok.1 hrun
    obtain ⟨_, m₂, hdrop, hloop⟩ := bind_ok.1 (get_ok hrest)
    obtain ⟨hinv₂, -, hrefs, hcontent, -⟩ := release_block_ok _ hinv hfree hdrop
    rw [ih _ hinv₂ (by rw [hrefs]; exact hx) hloop, hcontent x (.inr hx)]

section
variable [Hasher]

theorem alloc_new_blocks_content {T : List Nat} (offsets : List Nat) :
    ∀ {m m' : BlockManager} {held ids : List Nat}, m.RefInv n held →
    x ∉ m.block_allocator.free_block_ids → offsets.mapM (alloc_new_block T) m = .ok ids m' →
    m'.content x = m.content x := by
  induction offsets with
  | nil =>
    intro m m' held ids _ _ hrun
    rw [List.mapM_nil] at hrun
    obtain ⟨-, rfl⟩ : _ ∧ m = m' := by simpa using hrun
    rfl
  | cons off offsets ih =>
    intro m m' held ids hinv hx hrun
    rw [List.mapM_cons] at hrun
    obtain ⟨y, m₁, hone, hrest⟩ := bind_ok.1 hrun
    obtain ⟨ys, m₂, hloop, hret⟩ := bind_ok.1 hrest
    obtain ⟨-, rfl⟩ : _ ∧ m₂ = m' := by simpa using hret
    have hren := alloc_new_block_ok hinv hone
    have hinv₁ := ((alloc_new_block_refInv T off held).of_ok hinv hone).1
    rw [hren.free, List.mem_cons, not_or] at hx
    rw [ih hinv₁ hx.2 hloop, content, content, hren.other x hx.1]

theorem fill_last_block_content {seq : Sequence} {slots tokens r : Nat} (hinv : m.RefInv n [])
    (hfull : (m.tokens x).length = m.block_size) (hrun : fill_last_block seq slots tokens m = .ok r m') :
    m'.content x = m.content x ∧ m'.block_allocator.free_block_ids = m.block_allocator.free_block_ids := by
  unfold fill_last_block at hrun
  split at hrun
  · obtain ⟨-, rfl⟩ : _ ∧ m = m' := by simpa using hrun
    exact ⟨rfl, rfl⟩
  · replace hrun := get_ok hrun
    cases hlast : m.get_last_block_id seq.seq_id with
    | none => rw [hlast] at hrun; simp at hrun
    | some l =>
      rw [hlast] at hrun
      obtain ⟨map, hmap, hmem⟩ := get_last_block_id_mem hlast
      have hlt : l < n := hinv.lt_of_mem_map hmap hmem
      obtain ⟨block, m₁, hget, hrest⟩ := bind_ok.1 hrun
      obtain ⟨rfl, rfl⟩ := get_block_mut_ok hinv hlt hget
      dsimp only at hrest
      split at hrest
      · rename_i hpos
        have hxl : x ≠ l := by
          rintro rfl
          have hslots : (m₁.get_block x).get_num_empty_slots m₁.block_size = 0 := by
            rw [Block.get_num_empty_slots, show (m₁.get_block x).token_ids.length = _ from hfull, Nat.sub_self]
          omega
        obtain ⟨block, m₂, happ, hrest⟩ := bind_ok.1 hrest
        obtain ⟨-, rfl, -⟩ := append_tokens_ok happ
        obtain ⟨_, m₃, hpub, hret⟩ := bind_ok.1 hrest
        obtain ⟨-, rfl⟩ : _ ∧ m₃ = m' := by simpa using hret
        obtain ⟨-, -, -, hfree, hother, -⟩ := publish_if_full_ok hlt hinv hpub
        exact ⟨by rw [content, content, hother x hxl], hfree⟩
      · obtain ⟨-, rfl⟩ : _ ∧ m₁ = m' := by simpa using hrest
        exact ⟨rfl, rfl⟩

theorem reserve_loop_content {T : List Nat} (offsets : List Nat) :
    ∀ {m m' : BlockManager} {held : List Nat} {pairs : List (Nat × Nat)}, m.RefInv n held →
    x ∉ m.block_allocator.free_block_ids → reserve_loop T offsets m = .ok pairs m' →
    m'.content x = m.content x := by
  induction offsets with
  | nil =>
    intro m m' held pairs _ _ hrun
    obtain ⟨-, rfl⟩ : _ ∧ m = m' := by simpa [reserve_loop] using hrun
    rfl
  | cons off offsets ih =>
    intro m m' held pairs hinv hx hrun
    replace hrun := get_ok hrun
    dsimp only at hrun
    split at hrun
    · obtain ⟨-, rfl⟩ : _ ∧ m = m' := by simpa using hrun
      rfl
    · obtain ⟨b, m₁, halloc, hrest⟩ := bind_ok.1 hrun
      obtain ⟨hinv₁, hq, -, -, -, hfree, -⟩ := alloc_block_spec hinv halloc
      obtain ⟨block, m₂, happ, hwrite⟩ := bind_ok.1 (get_ok hrest)
      obtain ⟨hblock, rfl, -⟩ := append_tokens_ok happ
      obtain ⟨pairs', m₃, hloop, hret⟩ := bind_ok.1 (modify_ok hwrite)
      obtain ⟨-, rfl⟩ : _ ∧ m₃ = m' := by simpa using hret
      rw [hfree, List.mem_cons, not_or] at hx
      have hinv₂ := hinv₁.set_block (b := b) { block with
        hash := compute_hash (T.take (min (off + m.block_size) T.length)) }
        (by rw [hblock]; rfl) (by rw [hblock]; rfl)
      rw [ih hinv₂ hx.2 hloop, ← hq.content_eq, content, content, get_block_set_block, if_neg fun h => hx.1 h.1]

/-! ### Operations -/

omit [Hasher] in
theorem RefInv.not_free (hinv : m.RefInv n []) (hx : 0 < m.refs x) : x ∉ m.block_allocator.free_block_ids :=
  fun hfree => by
    have hzero := ((hinv.count.mem_free x).1 hfree).2
    omega

theorem alloc_blocks_content {seq : Sequence} {r : Nat} (hinv : m.RefInv n []) (hx : 0 < m.refs x)
    (hfull : (m.tokens x).length = m.block_size) (hrun : alloc_blocks seq m = .ok r m') :
    m'.content x = m.content x := by
  replace hrun := get_ok hrun
  obtain ⟨tokens, m₁, hsub, hrest⟩ := bind_ok.1 hrun
  obtain ⟨rfl, rfl, -⟩ := checked_sub_ok hsub
  obtain ⟨slots, m₂, hfill, hrest⟩ := bind_ok.1 hrest
  obtain ⟨ids, m₃, hloop, hmap⟩ := bind_ok.1 (get_ok hrest)
  obtain ⟨hsame, hfree⟩ := fill_last_block_content hinv hfull hfill
  have hinv₂ := (fill_last_block_refInv seq _ _).of_ok hinv hfill
  have hloop' := alloc_new_blocks_content _ hinv₂ (by rw [hfree]; exact hinv.not_free hx) hloop
  obtain ⟨-, rfl⟩ : _ ∧ _ = m' := by simpa using modify_ok hmap
  rw [← hsame, ← hloop']
  split <;> rfl

theorem init_prefix_cache_blocks_content {seq : Sequence} {r : Nat}
    (hrun : init_prefix_cache_blocks seq m = .ok r m') : m'.content = m.content := by
  replace hrun := get_ok hrun
  cases hm : m.get_block_map seq.seq_id with
  | some b =>
    rw [hm] at hrun
    obtain ⟨-, rfl⟩ : _ ∧ m = m' := by simpa using hrun
    rfl
  | none =>
    rw [hm] at hrun
    obtain ⟨_, m₁, hretain, hrest⟩ := bind_ok.1 hrun
    obtain ⟨-, rfl⟩ : _ ∧ _ = m' := by simpa using modify_ok hrest
    exact (forM_content (fun _ _ _ => alloc_block_by_id_quiet) _ hretain :)

theorem update_prefix_cache_blocks_content {seq : Sequence} {r : Nat}
    (hrun : update_prefix_cache_blocks seq m = .ok r m') : m'.content = m.content := by
  replace hrun := get_ok hrun
  cases hm : m.get_block_map seq.seq_id with
  | none => rw [hm] at hrun; exact init_prefix_cache_blocks_content hrun
  | some b =>
    rw [hm] at hrun
    obtain ⟨ids, m₁, hrange, hrest⟩ := bind_ok.1 hrun
    obtain ⟨_, m₂, hretain, hrest⟩ := bind_ok.1 hrest
    obtain ⟨-, rfl⟩ : _ ∧ _ = m' := by simpa using modify_ok hrest
    have hsame := (get_prefix_cache_blocks_range_keeps content _ _ _).of_ok hrange
    exact (forM_content (fun _ _ _ => alloc_block_by_id_quiet) _ hretain).trans hsame

theorem reserve_blocks_content {T : List Nat} {r start : Nat} {region : Option BlockRegion}
    (hinv : m.RefInv n []) (hx : 0 < m.refs x) (hrun : reserve_blocks r T start m = .ok region m') :
    m'.content x = m.content x := by
  obtain ⟨pairs, m₁, hloop, hrest⟩ := bind_ok.1 (get_ok hrun)
  have hsame := reserve_loop_content _ hinv (hinv.not_free hx) hloop
  split at hrest
  · obtain ⟨-, rfl⟩ : _ ∧ m₁ = m' := by simpa using hrest
    exact hsame
  · obtain ⟨-, rfl⟩ : _ ∧ _ = m' := by simpa using modify_ok hrest
    exact hsame

omit [Hasher] in
theorem free_map_content {i filled : Nat} {map : BlockMap} (hinv : m.RefInv n [])
    (hmap : m.get_block_map i = some map)
    (hrun : free_loop filled 0 map.block_ids
      { m with seq_block_mapping_table := m.seq_block_mapping_table.erase i } = .ok .unit m')
    (hx : 0 < m'.refs x) : m'.content x = m.content x := by
  have herased := hinv.erase_block_map hmap
  rw [List.append_nil] at herased
  have hrefs : m'.refs x = refs { m with seq_block_mapping_table := m.seq_block_mapping_table.erase i } x := by
    have htables := (free_loop_tables _ _ _).of_ok hrun
    simp only [tables, Prod.mk.injEq] at htables
    unfold refs
    rw [htables.2.1, htables.2.2]
  rw [hrefs] at hx
  exact (free_loop_content filled map.block_ids 0 herased hx hrun :)

end

end

end BlockManager

namespace BmOp

section
variable [Hasher] {n x : Nat} {m m' : BlockManager} {op : BmOp}

/-- A full block that somebody refers to before and after the operation. -/
theorem step_content (hinv : m.RefInv n []) (hs : op.Step m m') (hx : 0 < m.refs x) (hx' : 0 < m'.refs x)
    (hfull : (m.tokens x).length = m.block_size) : m'.content x = m.content x := by
  obtain ⟨-, hrun⟩ := hs
  have hdone : ∀ {α : Type} {y : BM α}, (∀ {a m₁}, y m = .ok a m₁ → m₁.content x = m.content x) →
      (do let _ ← y : BM PUnit) m = .ok .unit m' → m'.content x = m.content x := by
    intro α y hy hrun
    obtain ⟨a, m₁, hone, hret⟩ := bind_ok.1 hrun
    cases hret
    exact hy hone
  cases op with
  | alloc_blocks seq => exact hdone (BlockManager.alloc_blocks_content hinv hx hfull) hrun
  | init_prefix_cache_blocks seq =>
    exact hdone (fun h => congrFun (BlockManager.init_prefix_cache_blocks_content h) x) hrun
  | update_prefix_cache_blocks seq =>
    exact hdone (fun h => congrFun (BlockManager.update_prefix_cache_blocks_content h) x) hrun
  | reserve_blocks r T start => exact hdone (BlockManager.reserve_blocks_content hinv hx) hrun
  | activate_reserved_blocks r hash_values =>
    refine hdone (fun h => ?_) hrun
    obtain ⟨-, -, hcontent, -⟩ := BlockManager.activate_reserved_blocks_ok h
    exact Prod.ext (hcontent x).1 (hcontent x).2
  | pin_blocks_by_hashes r hash_values =>
    refine hdone (fun h => ?_) hrun
    obtain ⟨pairs, m₁, hloop, hrest⟩ := bind_ok.1 h
    obtain ⟨-, rfl⟩ := by simpa using BlockManager.modify_ok hrest
    exact congrFun (BlockManager.pin_loop_content _ hloop) x
  | unpin_blocks r =>
    refine hdone (fun h => ?_) hrun
    replace h := BlockManager.get_ok h
    cases hlook : m.reserved_blocks_table.lookup r with
    | none =>
      rw [hlook] at h
      obtain ⟨-, rfl⟩ := by simpa using h
      rfl
    | some ids =>
      rw [hlook] at h
      obtain ⟨_, m₁, hloop, hret⟩ := bind_ok.1 (BlockManager.modify_ok h)
      obtain ⟨-, rfl⟩ := by simpa using hret
      exact congrFun (BlockManager.forM_content (fun _ _ _ => free_block_quiet) _ hloop) x
  | update_filled_len i len =>
    replace hrun := BlockManager.get_ok hrun
    cases hmap : m.get_block_map i with
    | none =>
      rw [hmap] at hrun
      obtain rfl : m = m' := by simpa using hrun
      rfl
    | some map =>
      rw [hmap] at hrun
      dsimp only at hrun
      split at hrun
      · obtain rfl : _ = m' := by simpa using hrun
        rfl
      · simp at hrun
  | free i =>
    replace hrun := BlockManager.get_ok hrun
    cases hmap : m.get_block_map i with
    | none =>
      rw [hmap] at hrun
      obtain rfl : m = m' := by simpa using hrun
      rfl
    | some map =>
      rw [hmap] at hrun
      exact BlockManager.free_map_content hinv hmap (BlockManager.modify_ok hrun) hx'
  | free_and_drop_cache i =>
    replace hrun := BlockManager.get_ok hrun
    cases hmap : m.get_block_map i with
    | none =>
      rw [hmap] at hrun
      obtain rfl : m = m' := by simpa using hrun
      rfl
    | some map =>
      rw [hmap] at hrun
      replace hrun := BlockManager.modify_ok hrun
      rw [← BlockManager.free_loop_zero map.block_ids _ 0] at hrun
      exact BlockManager.free_map_content hinv hmap hrun hx'
  | clear_cache =>
    obtain rfl : { m with hash_block_table := ∅ } = m' := by
      simpa [exec, BlockManager.clear_cache] using hrun
    rfl

theorem exec_block_size (op : BmOp) : Keeps BlockManager.block_size op.exec := by
  have hdone : ∀ {α : Type} {x : BM α}, Keeps BlockManager.block_size x →
      Keeps BlockManager.block_size (do let _ ← x : BM PUnit) := fun hx => hx.bind fun _ => Keeps.pure _
  have htables : ∀ {α : Type} {x : BM α}, Keeps BlockManager.tables x → Keeps BlockManager.block_size x :=
    fun hx => hx.part (·.1)
  have hinit : ∀ seq, Keeps BlockManager.block_size (BlockManager.init_prefix_cache_blocks seq) := fun seq => by
    refine Keeps.get.bind fun m => ?_
    split
    · exact Keeps.pure _
    · exact (htables (BlockManager.retain_all_tables _)).bind fun _ =>
        Keeps.bind (Keeps.modify fun _ => rfl) fun _ => Keeps.pure _
  cases op with
  | alloc_blocks seq =>
    refine hdone (Keeps.get.bind fun m => (Keeps.ite (Keeps.pure _) (Keeps.throw _)).bind fun tokens => ?_)
    refine (htables (BlockManager.fill_last_block_tables _ _ _)).bind fun slots => Keeps.get.bind fun m₁ => ?_
    refine (Keeps.mapM (fun off => htables (BlockManager.alloc_new_block_tables _ off)) _).bind fun ids => ?_
    refine Keeps.bind (Keeps.modify fun m₂ => ?_) fun _ => Keeps.pure _
    split <;> rfl
  | init_prefix_cache_blocks seq => exact hdone (hinit seq)
  | update_prefix_cache_blocks seq =>
    refine hdone (Keeps.get.bind fun m => ?_)
    split
    · exact hinit seq
    · refine (BlockManager.get_prefix_cache_blocks_range_keeps _ _ _ _).bind fun ids => ?_
      exact (htables (BlockManager.retain_all_tables _)).bind fun _ =>
        Keeps.bind (Keeps.modify fun _ => rfl) fun _ => Keeps.pure _
  | reserve_blocks r T start =>
    refine hdone (Keeps.get.bind fun m => (htables (BlockManager.reserve_loop_tables _ _)).bind fun pairs => ?_)
    exact Keeps.ite (Keeps.pure _) (Keeps.bind (Keeps.modify fun _ => rfl) fun _ => Keeps.pure _)
  | activate_reserved_blocks r hash_values =>
    refine hdone (Keeps.get.bind fun m => ?_)
    split
    · exact Keeps.pure _
    · refine Keeps.bind (Keeps.modify fun _ => rfl) fun _ => ?_
      exact (htables (BlockManager.activate_all_tables _ _)).bind fun _ => Keeps.pure _
  | pin_blocks_by_hashes r hash_values =>
    refine hdone ((htables (BlockManager.pin_loop_tables _)).bind fun pairs => ?_)
    exact Keeps.bind (Keeps.modify fun _ => rfl) fun _ => Keeps.pure _
  | unpin_blocks r =>
    refine hdone (Keeps.get.bind fun m => ?_)
    split
    · exact Keeps.pure _
    · refine Keeps.bind (Keeps.modify fun _ => rfl) fun _ => Keeps.bind ?_ fun _ => Keeps.pure _
      exact htables (Keeps.forM (fun _ => BlockManager.on_allocator_tables _) _)
  | update_filled_len i len =>
    refine Keeps.get.bind fun m => ?_
    split
    · exact Keeps.pure _
    · exact Keeps.ite (Keeps.modify fun _ => rfl) (Keeps.throw _)
  | free i =>
    refine Keeps.get.bind fun m => ?_
    split
    · exact Keeps.pure _
    · exact Keeps.bind (Keeps.modify fun _ => rfl) fun _ => htables (BlockManager.free_loop_tables _ _ _)
  | free_and_drop_cache i =>
    refine Keeps.get.bind fun m => ?_
    split
    · exact Keeps.pure _
    · exact Keeps.bind (Keeps.modify fun _ => rfl) fun _ => htables (BlockManager.release_and_drop_tables _)
  | clear_cache => exact Keeps.modify fun _ => rfl

end

end BmOp

/-! ### Regions -/

namespace BlockManager

section
variable [Hasher] {n q r start : Nat} {T ids : List Nat} {m m' : BlockManager}

/-- The blocks `ids` are full, and carry the hashes of the prefixes of `T` that end with them, from
block position `q` on. -/
def Stamped (m : BlockManager) (T : List Nat) (q : Nat) (ids : List Nat) : Prop :=
  ∀ j x, ids[j]? = some x → (q + j + 1) * m.block_size ≤ T.length ∧ (m.tokens x).length = m.block_size ∧
    (m.get_block x).hash = compute_hash (T.take ((q + j + 1) * m.block_size))

theorem full_hashes_getElem? {bs : Nat} {T : List Nat} (offsets : List Nat) : ∀ {j h : Nat},
    (full_hashes bs T offsets)[j]? = some h → ∃ off, offsets[j]? = some off ∧ (0 < bs → off + bs ≤ T.length) ∧
      h = compute_hash (T.take (min (off + bs) T.length)) := by
  induction offsets with
  | nil => intro j h hj; simp [full_hashes] at hj
  | cons off offsets ih =>
    intro j h hj
    rw [full_hashes] at hj
    split at hj
    · simp at hj
    · rename_i hfull
      cases j with
      | zero =>
        obtain rfl := Option.some.inj hj
        exact ⟨off, rfl, fun _ => by omega, rfl⟩
      | succ j => exact ih hj

theorem reserve_blocks_stamped (hinv : m.RefInv n []) {region : Option BlockRegion}
    (hrun : reserve_blocks r T start m = .ok region m') (hfresh : m.reserved_blocks_table.lookup r = none)
    (hr : m'.reserved_blocks_table.lookup r = some ids) : m'.Stamped T (start / m.block_size) ids := by
  obtain ⟨-, hwritten, hinsert, hsame⟩ := reserve_blocks_planned hinv hrun
  have hsize : m'.block_size = m.block_size :=
    (BmOp.exec_block_size (.reserve_blocks r T start)).of_ok (bind_ok.2 ⟨region, m', hrun, rfl⟩)
  by_cases hp : m.planned T start = []
  · rw [hsame hp, hfresh] at hr; cases hr
  · rw [hinsert hp, Table.lookup_insert_eq, if_pos rfl] at hr
    obtain rfl := Option.some.inj hr
    intro j x hj
    rw [List.getElem?_map] at hj
    obtain ⟨p, hpj, rfl⟩ := Option.map_eq_some_iff.1 hj
    obtain ⟨-, hhash, hlen⟩ := hwritten p (List.mem_of_getElem? hpj)
    obtain ⟨off, hoff, hfits, hp2⟩ := full_hashes_getElem? _ (List.getElem?_zip_eq_some.1 hpj).2
    replace hfits := hfits m.block_size_pos
    obtain ⟨k, hk, rfl⟩ : ∃ k, k = j ∧ start / m.block_size * m.block_size + k * m.block_size = off := by
      rw [step_by, List.getElem?_map] at hoff
      obtain ⟨k, hk, rfl⟩ := Option.map_eq_some_iff.1 hoff
      obtain ⟨_, rfl⟩ := List.getElem?_eq_some_iff.1 hk
      exact ⟨_, List.getElem_range _, rfl⟩
    subst hk
    have hend : start / m.block_size * m.block_size + k * m.block_size + m.block_size =
        (start / m.block_size + k + 1) * m.block_size := by ring
    rw [hend] at hfits hp2
    rw [hsize, hhash, hp2, Nat.min_eq_left hfits]
    exact ⟨hfits, hlen, rfl⟩

omit [Hasher] in
theorem refs_pos_of_region {x : Nat} (hr : m.reserved_blocks_table.lookup r = some ids) (hx : x ∈ ids) :
    0 < m.refs x := by
  have h₁ : 0 < ids.count x := List.count_pos_iff.2 hx
  have h₂ := Table.le_total (fun ids : List Nat => ids.count x) hr
  unfold refs
  omega

theorem Stamped.step {op : BmOp} (h : m.Stamped T q ids) (hinv : m.RefInv n []) (hs : op.Step m m')
    (hr : m.reserved_blocks_table.lookup r = some ids) (hr' : m'.reserved_blocks_table.lookup r = some ids) :
    m'.Stamped T q ids := by
  intro j x hj
  obtain ⟨hfits, hlen, hhash⟩ := h j x hj
  have hx := List.mem_of_getElem? hj
  have hcontent := BmOp.step_content hinv hs (refs_pos_of_region hr hx) (refs_pos_of_region hr' hx) hlen
  have hsize : m'.block_size = m.block_size := (BmOp.exec_block_size op).of_ok hs.2
  rw [hsize, ← hhash]
  exact ⟨hfits, (congrArg (fun c => c.1.length) hcontent).trans hlen, congrArg Prod.snd hcontent⟩

end

end BlockManager

end LMServe
