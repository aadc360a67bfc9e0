import LMServe.Reservations
import LMServe.PageTableRegions

/-!
# What freeing and activating does to the table of hashes

`free` and `free_and_drop_cache` remove the entries of the hashes of the blocks they drop, whichever
block an entry leads to. An activation adds entries under the listed hashes where there are none.
-/

namespace LMServe
open Hoare Chunk

namespace BlockManager

/-! ### Freeing -/

section
variable {n : Nat} {m m' : BlockManager}

/-- The blocks of a sequence from the given one on that nobody else refers to. -/
def dropped_from (m : BlockManager) (seq_id : Nat) (start : BlockMap → Nat) : List Nat :=
  match m.get_block_map seq_id with
  | some map => (map.block_ids.drop (start map)).filter fun b =>
      (m.get_block b).ref_cnt = map.block_ids.count b
  | none => []

theorem drop_cache_ok {held : List Nat} {b : Nat} (h : m.RefInv n held) (hb : b < n)
    (hrun : drop_cache b m = .ok .unit m') :
    m' = if (m.get_block b).ref_cnt = 0 then
      { m.set_block b (m.get_block b).clear with
        hash_block_table := m.hash_block_table.erase (m.get_block b).hash } else m := by
  obtain ⟨block, m₁, hget, hrest⟩ := bind_ok.1 hrun
  obtain ⟨rfl, rfl⟩ := get_block_mut_ok h hb hget
  split at hrest
  · rename_i hzero
    rw [if_pos hzero]
    exact (by simpa using hrest : _ = m').symm
  · rename_i hpos
    rw [if_neg hpos]
    exact (by simpa using hrest : _ = m').symm

/-- Position by position: the blocks of `ids` beyond the filled tokens. -/
theorem drop_unfilled_cons {bs : Nat} (hbs : 0 < bs) (filled cnt b : Nat) (ids : List Nat) :
    (filled < cnt + bs → (b :: ids).drop ((filled - cnt) / bs) = b :: ids ∧
      ids.drop ((filled - (cnt + bs)) / bs) = ids) ∧
    (¬ filled < cnt + bs → (b :: ids).drop ((filled - cnt) / bs) =
      ids.drop ((filled - (cnt + bs)) / bs)) := by
  constructor
  · intro hlt
    have h₁ : (filled - cnt) / bs = 0 := Nat.div_eq_of_lt (by omega)
    have h₂ : filled - (cnt + bs) = 0 := by omega
    rw [h₁, h₂, Nat.zero_div]
    exact ⟨rfl, rfl⟩
  · intro hge
    have hsplit : filled - cnt = filled - (cnt + bs) + bs := by omega
    rw [hsplit, Nat.add_div_right _ hbs]
    rfl

/-- The tokens and the hash of a block. -/
def content (m : BlockManager) (b : Nat) : List Nat × Nat := ((m.get_block b).token_ids, (m.get_block b).hash)

theorem Quiet.content_eq (h : Quiet m m') : m'.content = m.content := by
  funext b
  exact Prod.ext (h.content b).1 (h.content b).2

/-- Giving up one reference to `b`, and the block if `drop` says so: the entry of `h` is lost exactly if
the block has this hash, nobody else refers to it and it is dropped, and a block that is referred to
keeps its content. -/
theorem release_block_ok {ids : List Nat} {b : Nat} (drop : Prop) [Decidable drop] {m₁ : BlockManager}
    (hinv : m.RefInv n (b :: ids))
    (hfree : on_allocator (BlockAllocator.free_block b) m = .ok .unit m₁)
    (hdrop : (if drop then drop_cache b else pure .unit) m₁ = .ok .unit m') :
    m'.RefInv n ids ∧ m'.block_size = m.block_size ∧ (∀ x, m'.refs x = m.refs x) ∧
      (∀ x, x ∈ ids ∨ 0 < m.refs x → m'.content x = m.content x) ∧
      ∀ h, m'.hash_block_table.lookup h =
        if drop ∧ m.refs b = 0 ∧ b ∉ ids ∧ (m.get_block b).hash = h then none
        else m.hash_block_table.lookup h := by
  obtain ⟨m₁', hfree', hinv₁, hq, -⟩ := free_block_spec hinv
  obtain rfl : m₁' = m₁ := by
    rw [hfree] at hfree'
    simpa using hfree'.symm
  have hb : b < n := hinv.lt_of_mem (List.mem_cons_self ..)
  have hcnt := hinv₁.ref_cnt hb
  rw [hq.refs] at hcnt
  have hunchanged : (¬ drop ∨ ¬ (m.refs b = 0 ∧ b ∉ ids)) → m₁' = m' →
      m'.RefInv n ids ∧ m'.block_size = m.block_size ∧ (∀ x, m'.refs x = m.refs x) ∧
      (∀ x, x ∈ ids ∨ 0 < m.refs x → m'.content x = m.content x) ∧
      ∀ h, m'.hash_block_table.lookup h =
        if drop ∧ m.refs b = 0 ∧ b ∉ ids ∧ (m.get_block b).hash = h then none
        else m.hash_block_table.lookup h := by
    rintro hno rfl
    refine ⟨hinv₁, hq.block_size, hq.refs, fun x _ => congrFun hq.content_eq x, fun h => ?_⟩
    rw [if_neg (by tauto), hq.table]
  by_cases hd : drop
  · rw [if_pos hd] at hdrop
    have hm' := drop_cache_ok hinv₁ hb hdrop
    by_cases hlast : m.refs b = 0 ∧ b ∉ ids
    · rw [if_pos (by rw [hcnt, hlast.1, List.count_eq_zero.2 hlast.2]; rfl)] at hm'
      subst hm'
      refine ⟨(hinv₁.set_block (b := b) (m₁'.get_block b).clear rfl rfl).erase_table _,
        hq.block_size, hq.refs, fun x hx => ?_, fun h => ?_⟩
      · have hxb : x ≠ b := by
          rintro rfl
          rcases hx with hx | hx
          · exact hlast.2 hx
          · rw [hlast.1] at hx; exact absurd hx (Nat.lt_irrefl 0)
        have hsame : (m₁'.set_block b (m₁'.get_block b).clear).get_block x = m₁'.get_block x := by
          rw [get_block_set_block, if_neg fun h => hxb h.1]
        rw [← hq.content_eq]
        exact congrArg (fun block : Block => (block.token_ids, block.hash)) hsame
      · show (m₁'.hash_block_table.erase (m₁'.get_block b).hash).lookup h = _
        rw [Table.lookup_erase_eq, hq.table, (hq.content b).2]
        refine if_congr ?_ rfl rfl
        constructor
        · rintro rfl; exact ⟨hd, hlast.1, hlast.2, rfl⟩
        · rintro ⟨-, -, -, hh⟩; exact hh.symm
    · refine hunchanged (.inr hlast) ?_
      rw [hm', if_neg]
      rw [hcnt]
      intro hzero
      refine hlast ⟨by omega, fun hmem => ?_⟩
      have := List.count_pos_iff.2 hmem
      omega
  · rw [if_neg hd] at hdrop
    exact hunchanged (.inl hd) (by simpa using hdrop)

/-- The loop of `free` loses the entry of `h` if it drops a block with this hash, and otherwise leaves
it alone. -/
theorem free_loop_table (h filled : Nat) (ids : List Nat) : ∀ {m m' : BlockManager} (cnt : Nat),
    m.RefInv n ids → free_loop filled cnt ids m = .ok .unit m' →
    m'.hash_block_table.lookup h = if ∃ b ∈ ids.drop ((filled - cnt) / m.block_size),
        m.refs b = 0 ∧ (m.get_block b).hash = h then none
      else m.hash_block_table.lookup h := by
  induction ids with
  | nil =>
    intro m m' cnt _ hrun
    obtain rfl : m = m' := by simpa [free_loop] using hrun
    simp
  | cons b ids ih =>
    intro m m' cnt hinv hrun
    obtain ⟨_, m₁, hfree, hrest⟩ := bind_ok.1 hrun
    obtain ⟨_, m₂, hdrop, hloop⟩ := bind_ok.1 (get_ok hrest)
    have hsize : m₁.block_size = m.block_size :=
      (on_allocator_keeps (f := block_size) (fun _ _ => rfl) _).of_ok hfree
    rw [hsize] at hdrop hloop
    obtain ⟨hinv₂, hsize₂, hrefs, hcontent, htable⟩ := release_block_ok _ hinv hfree hdrop
    obtain ⟨hunfilled, hfilled⟩ := drop_unfilled_cons m.block_size_pos filled cnt b ids
    -- what the rest of the loop drops
    have hlater : (∃ x ∈ ids.drop ((filled - (cnt + m.block_size)) / m.block_size),
          m₂.refs x = 0 ∧ (m₂.get_block x).hash = h) ↔
        ∃ x ∈ ids.drop ((filled - (cnt + m.block_size)) / m.block_size),
          m.refs x = 0 ∧ (m.get_block x).hash = h := by
      refine exists_congr fun x => and_congr_right fun hx => ?_
      rw [hrefs, show (m₂.get_block x).hash = (m.get_block x).hash from
        congrArg Prod.snd (hcontent x (.inl (List.mem_of_mem_drop hx)))]
    have hrun' := ih _ hinv₂ hloop
    rw [hsize₂, if_congr hlater rfl rfl, htable] at hrun'
    rw [hrun']
    by_cases hlt : filled < cnt + m.block_size
    · obtain ⟨hall, hrest⟩ := hunfilled hlt
      rw [hall, hrest]
      by_cases hmore : ∃ x ∈ ids, m.refs x = 0 ∧ (m.get_block x).hash = h
      · obtain ⟨x, hx, hx'⟩ := hmore
        rw [if_pos ⟨x, hx, hx'⟩, if_pos ⟨x, List.mem_cons_of_mem _ hx, hx'⟩]
      · rw [if_neg hmore]
        refine if_congr ?_ rfl rfl
        constructor
        · rintro ⟨-, hzero, -, hh⟩; exact ⟨b, List.mem_cons_self .., hzero, hh⟩
        · rintro ⟨x, hx, hzero, hh⟩
          rcases List.mem_cons.1 hx with rfl | hx
          · exact ⟨hlt, hzero, fun hmem => hmore ⟨x, hmem, hzero, hh⟩, hh⟩
          · exact absurd ⟨x, hx, hzero, hh⟩ hmore
    · rw [hfilled hlt, if_neg (c := filled < cnt + m.block_size ∧ _) fun hd => hlt hd.1]

theorem free_map_table {i filled : Nat} {map : BlockMap} (hinv : m.RefInv n [])
    (hmap : m.get_block_map i = some map)
    (hrun : free_loop filled 0 map.block_ids
      { m with seq_block_mapping_table := m.seq_block_mapping_table.erase i } = .ok .unit m') (h : Nat) :
    m'.hash_block_table.lookup h =
      if ∃ b ∈ m.dropped_from i fun _ => filled / m.block_size, (m.get_block b).hash = h then none
      else m.hash_block_table.lookup h := by
  have herased := hinv.erase_block_map hmap
  rw [List.append_nil] at herased
  rw [free_loop_table h filled map.block_ids 0 herased hrun]
  refine if_congr (exists_congr fun b => ?_) rfl rfl
  rw [dropped_from, hmap]
  simp only [List.mem_filter, decide_eq_true_eq, and_assoc, Nat.sub_zero]
  refine and_congr_right fun hb => and_congr_left fun _ => ?_
  have hlt : b < n := hinv.lt_of_mem_map hmap (List.mem_of_mem_drop hb)
  have h₁ := herased.ref_cnt hlt
  show _ = 0 ↔ (m.get_block b).ref_cnt = _
  replace h₁ : (m.get_block b).ref_cnt = _ := h₁
  rw [h₁]
  omega

theorem free_table {i : Nat} (hinv : m.RefInv n []) (hrun : free i m = .ok .unit m') (h : Nat) :
    m'.hash_block_table.lookup h =
      if ∃ b ∈ m.dropped_from i fun map => map.filled_token_len / m.block_size,
        (m.get_block b).hash = h then none
      else m.hash_block_table.lookup h := by
  replace hrun := get_ok hrun
  cases hmap : m.get_block_map i with
  | none =>
    rw [hmap] at hrun
    obtain rfl : m = m' := by simpa using hrun
    simp [dropped_from, hmap]
  | some map =>
    rw [hmap] at hrun
    rw [free_map_table hinv hmap (modify_ok hrun) h]
    simp only [dropped_from, hmap]

theorem free_and_drop_cache_table {i : Nat} (hinv : m.RefInv n [])
    (hrun : free_and_drop_cache i m = .ok .unit m') (h : Nat) :
    m'.hash_block_table.lookup h =
      if ∃ b ∈ m.dropped_from i fun _ => 0, (m.get_block b).hash = h then none
      else m.hash_block_table.lookup h := by
  replace hrun := get_ok hrun
  cases hmap : m.get_block_map i with
  | none =>
    rw [hmap] at hrun
    obtain rfl : m = m' := by simpa using hrun
    simp [dropped_from, hmap]
  | some map =>
    rw [hmap] at hrun
    replace hrun := modify_ok hrun
    rw [← free_loop_zero map.block_ids _ 0] at hrun
    rw [free_map_table hinv hmap hrun h, Nat.zero_div]

end

/-! ### Activating -/

section
variable {m m' : BlockManager} {hash_values : List Nat}

/-- The block found under `h` once the blocks `ids` are published: the one listed already, or else the
first of them with this hash. -/
def published_block (m : BlockManager) (ids : List Nat) (h : Nat) : Option Nat :=
  match m.hash_block_table.lookup h with
  | some b => some b
  | none => ids.find? fun b => (m.get_block b).hash = h

theorem activate_block_ok {b k : Nat} (hrun : activate_block hash_values b m = .ok k m') :
    m'.get_block_map = m.get_block_map ∧ m'.block_size = m.block_size ∧
      (∀ x, (m'.get_block x).token_ids = (m.get_block x).token_ids ∧
        (m'.get_block x).hash = (m.get_block x).hash) ∧
      ∀ h, m'.hash_block_table.lookup h =
        if h ∈ hash_values then m.published_block [b] h else m.hash_block_table.lookup h := by
  obtain ⟨_, m₁, hpub, hrest⟩ := bind_ok.1 (get_ok hrun)
  obtain ⟨_, m₂, hfree, hret⟩ := bind_ok.1 hrest
  obtain ⟨-, rfl⟩ : _ ∧ m₂ = m' := by simpa using hret
  have hq := BmOp.free_block_quiet hfree
  have hm₁ : (if (m.get_block b).hash ∈ hash_values ∧
      m.hash_block_table.lookup (m.get_block b).hash = none then
        { m with hash_block_table := m.hash_block_table.insert (m.get_block b).hash b }
      else m) = m₁ := by simpa [publish_reserved] using hpub
  have hsame : m₁.seq_block_mapping_table = m.seq_block_mapping_table ∧ m₁.block_size = m.block_size ∧
      m₁.get_block = m.get_block := by
    rw [← hm₁]
    split <;> exact ⟨rfl, rfl, rfl⟩
  obtain ⟨hmaps, hsize, hblock⟩ := hsame
  refine ⟨?_, hq.block_size.trans hsize, fun x => ?_, fun h => ?_⟩
  · funext i
    rw [hq.get_block_map, BlockManager.get_block_map, hmaps]
    rfl
  · rw [← hblock]; exact hq.content x
  · rw [hq.table, ← hm₁]
    unfold published_block
    cases hlook : m.hash_block_table.lookup h with
    | some c =>
      have hkeep : (if (m.get_block b).hash ∈ hash_values ∧
          m.hash_block_table.lookup (m.get_block b).hash = none then
            { m with hash_block_table := m.hash_block_table.insert (m.get_block b).hash b }
          else m).hash_block_table.lookup h = some c := by
        split
        · rename_i hnew
          show (m.hash_block_table.insert _ _).lookup h = _
          rw [Table.lookup_insert_eq, if_neg, hlook]
          rintro rfl
          rw [hnew.2] at hlook; cases hlook
        · exact hlook
      rw [hkeep, ite_self]
    | none =>
      by_cases hh : (m.get_block b).hash = h
      · subst hh
        by_cases hlisted : (m.get_block b).hash ∈ hash_values
        · rw [if_pos ⟨hlisted, hlook⟩, if_pos hlisted]
          simp
        · rw [if_neg fun hnew => hlisted hnew.1, if_neg hlisted, hlook]
      · have hkeep : (if (m.get_block b).hash ∈ hash_values ∧
            m.hash_block_table.lookup (m.get_block b).hash = none then
              { m with hash_block_table := m.hash_block_table.insert (m.get_block b).hash b }
            else m).hash_block_table.lookup h = none := by
          split
          · show (m.hash_block_table.insert _ _).lookup h = _
            rw [Table.lookup_insert_eq, if_neg (Ne.symm hh), hlook]
          · exact hlook
        rw [hkeep]
        simp [hh]

/-- An activation lists blocks under the given hashes, where the table has no entry. -/
theorem activate_all_ok (ids : List Nat) : ∀ {m m' : BlockManager} {l : List Nat},
    ids.mapM (activate_block hash_values) m = .ok l m' →
    m'.get_block_map = m.get_block_map ∧ m'.block_size = m.block_size ∧
      (∀ x, (m'.get_block x).token_ids = (m.get_block x).token_ids ∧
        (m'.get_block x).hash = (m.get_block x).hash) ∧
      ∀ h, m'.hash_block_table.lookup h =
        if h ∈ hash_values then m.published_block ids h else m.hash_block_table.lookup h := by
  induction ids with
  | nil =>
    intro m m' l hrun
    rw [List.mapM_nil] at hrun
    obtain ⟨-, rfl⟩ : _ ∧ m = m' := by simpa using hrun
    refine ⟨rfl, rfl, fun _ => ⟨rfl, rfl⟩, fun h => ?_⟩
    unfold published_block
    cases m.hash_block_table.lookup h <;> simp
  | cons b ids ih =>
    intro m m' l hrun
    rw [List.mapM_cons] at hrun
    obtain ⟨k, m₁, hone, hrest⟩ := bind_ok.1 hrun
    obtain ⟨ks, m₂, hloop, hret⟩ := bind_ok.1 hrest
    obtain ⟨-, rfl⟩ : _ ∧ m₂ = m' := by simpa using hret
    obtain ⟨hmaps, hsize, hcontent, htable⟩ := activate_block_ok hone
    obtain ⟨ihmaps, ihsize, ihcontent, ihtable⟩ := ih hloop
    refine ⟨ihmaps.trans hmaps, ihsize.trans hsize, fun x => ⟨(ihcontent x).1.trans (hcontent x).1,
      (ihcontent x).2.trans (hcontent x).2⟩, fun h => ?_⟩
    rw [ihtable]
    by_cases hh : h ∈ hash_values
    · rw [if_pos hh, if_pos hh, published_block, htable, if_pos hh]
      simp only [(hcontent _).2]
      unfold published_block
      cases hlook : m.hash_block_table.lookup h with
      | some c => rfl
      | none =>
        by_cases hb : (m.get_block b).hash = h
        · simp [hb]
        · simp [hb]
    · rw [if_neg hh, if_neg hh, htable, if_neg hh]

theorem activate_reserved_blocks_ok {r k : Nat} (hrun : activate_reserved_blocks r hash_values m = .ok k m') :
    m'.get_block_map = m.get_block_map ∧ m'.block_size = m.block_size ∧
      (∀ x, (m'.get_block x).token_ids = (m.get_block x).token_ids ∧
        (m'.get_block x).hash = (m.get_block x).hash) ∧
      ∀ h, m'.hash_block_table.lookup h = if h ∈ hash_values then
          m.published_block ((m.reserved_blocks_table.lookup r).getD []) h
        else m.hash_block_table.lookup h := by
  replace hrun := get_ok hrun
  cases hr : m.reserved_blocks_table.lookup r with
  | none =>
    rw [hr] at hrun
    obtain ⟨-, rfl⟩ : _ ∧ m = m' := by simpa using hrun
    refine ⟨rfl, rfl, fun _ => ⟨rfl, rfl⟩, fun h => ?_⟩
    unfold published_block
    cases m.hash_block_table.lookup h <;> simp
  | some ids =>
    rw [hr] at hrun
    obtain ⟨l, m₁, hloop, hret⟩ := bind_ok.1 (modify_ok hrun)
    obtain ⟨-, rfl⟩ : _ ∧ m₁ = m' := by simpa using hret
    have hall := activate_all_ok ids hloop
    exact hall

end

end BlockManager

end LMServe
