import LMServe.PageTableOps

/-!
# Reserved blocks out of sight

A block reserved for a copy must not be found before its content has arrived. Operations leave a block
of an outstanding region alone: it is referred to once, so nobody is handed it, and as long as the
hash table does not list it under its own hash, no lookup returns it. What may go wrong is the
reservation itself: `reserve_blocks` gives a recycled block a new hash and does not look whether the
table still lists the block under that hash, from an earlier life.
-/

namespace LMServe
open Hoare Chunk

theorem BlockAllocator.alloc_block_ref_cnt {a a' : BlockAllocator} {b : Nat}
    (h : alloc_block a = .ok b a') : (a.get_block b).ref_cnt ≤ 0 := by
  unfold alloc_block at h
  split at h
  · cases h
  · dsimp only at h
    split at h
    · cases h
    · rename_i block hblock
      obtain ⟨hlt, -⟩ := List.getElem?_eq_some_iff.1 hblock
      rw [getElem?_pool hlt] at hblock
      obtain rfl := Option.some.inj hblock
      split at h
      · cases h
      · rename_i hused
        cases h
        exact Int.not_lt.1 fun hpos => hused (.inr hpos)

namespace BlockManager

section
variable {b : Nat} {m₀ m m' : BlockManager}

/-- Block `b` has not been written since `m₀`, nor entered into the hash table. -/
structure Unwritten (b : Nat) (m₀ m : BlockManager) : Prop where
  block : m.get_block b = m₀.get_block b
  table : ∀ k, m.hash_block_table.lookup k = some b → m₀.hash_block_table.lookup k = some b

/-- The table does not list block `b` under its hash. -/
def Hidden (m : BlockManager) (b : Nat) : Prop :=
  m.hash_block_table.lookup (m.get_block b).hash ≠ some b

/-- Block `b` has one reference and is hidden. -/
structure Sealed (m : BlockManager) (b : Nat) : Prop where
  ref_cnt : (m.get_block b).ref_cnt = 1
  hidden : m.Hidden b

theorem Unwritten.refl (b : Nat) (m : BlockManager) : Unwritten b m m := ⟨rfl, fun _ hk => hk⟩

theorem Hidden.of_unwritten (h : m.Hidden b) (hw : Unwritten b m m') : m'.Hidden b := fun hk => by
  rw [hw.block] at hk; exact h (hw.table _ hk)

theorem Sealed.of_unwritten (h : m.Sealed b) (hw : Unwritten b m m') : m'.Sealed b :=
  ⟨by rw [hw.block]; exact h.ref_cnt, h.hidden.of_unwritten hw⟩

theorem lookup_block_id_eq_some {k : Nat} :
    m.lookup_block_id k = some b ↔ m.hash_block_table.lookup k = some b ∧ (m.get_block b).hash = k := by
  unfold lookup_block_id
  cases hk : m.hash_block_table.lookup k with
  | none => simp
  | some b' =>
    dsimp only
    split
    · rename_i hhash
      constructor
      · rintro ⟨⟩; exact ⟨rfl, hhash⟩
      · rintro ⟨⟨⟩, -⟩; rfl
    · rename_i hhash
      constructor
      · rintro ⟨⟩
      · rintro ⟨⟨⟩, h⟩; exact absurd h hhash

theorem Hidden.lookup (h : m.Hidden b) (k : Nat) : m.lookup_block_id k ≠ some b := fun hk => by
  obtain ⟨hk, rfl⟩ := lookup_block_id_eq_some.1 hk
  exact h hk

theorem Unwritten.congr (h : Unwritten b m₀ m) (hb : m'.get_block b = m.get_block b)
    (ht : ∀ k, m'.hash_block_table.lookup k = some b → m.hash_block_table.lookup k = some b) :
    Unwritten b m₀ m' :=
  ⟨hb.trans h.block, fun k hk => h.table k (ht k hk)⟩

/-! ### The allocator -/

theorem get_block_write {x : Nat} {block : Block} {l : List Nat} (hx : x ≠ b) :
    get_block { m with block_allocator := { m.block_allocator with
      block_pool := m.block_allocator.block_pool.set x block, free_block_ids := l } } b =
      m.get_block b := by
  refine (BlockAllocator.get_block_set m.block_allocator x b block l).trans ?_
  rw [if_neg fun h => hx h.1.symm]; rfl

theorem alloc_block_unwritten (h : (m₀.get_block b).ref_cnt = 1) :
    Triple (Unwritten b m₀) (on_allocator BlockAllocator.alloc_block)
      (fun x m => Unwritten b m₀ m ∧ x ≠ b) fun _ => True := by
  intro m hm
  cases hrun : on_allocator BlockAllocator.alloc_block m with
  | error e m' => trivial
  | ok x m' =>
    obtain ⟨a, ha, rfl⟩ := zoom_ok.1 hrun
    have hzero := BlockAllocator.alloc_block_ref_cnt ha
    obtain ⟨rest, -, -, rfl⟩ := BlockAllocator.alloc_block_ok ha
    have hx : x ≠ b := by
      rintro rfl
      rw [← hm.block] at h
      have hone : (m.block_allocator.get_block x).ref_cnt = 1 := h
      omega
    exact ⟨hm.congr (get_block_write hx) fun _ hk => hk, hx⟩

theorem alloc_block_by_id_quiet {x : Nat}
    (hrun : on_allocator (BlockAllocator.alloc_block_by_id x) m = .ok .unit m') : Quiet m m' := by
  obtain ⟨a, ha, rfl⟩ := zoom_ok.1 hrun
  unfold BlockAllocator.alloc_block_by_id at ha
  split at ha
  · cases ha
  · rename_i block hblock
    obtain ⟨hlt, -⟩ := List.getElem?_eq_some_iff.1 hblock
    rw [BlockAllocator.getElem?_pool hlt] at hblock
    obtain rfl := Option.some.inj hblock
    split at ha
    · split at ha
      · cases ha; exact quiet_of_set rfl rfl
      · cases ha
    · cases ha; exact quiet_of_set (l := m.block_allocator.free_block_ids) rfl rfl

theorem alloc_block_by_id_unwritten {x : Nat} (hx : x ≠ b) :
    Triple (Unwritten b m₀) (on_allocator (BlockAllocator.alloc_block_by_id x))
      (fun _ => Unwritten b m₀) fun _ => True := by
  intro m hm
  cases hrun : on_allocator (BlockAllocator.alloc_block_by_id x) m with
  | error e m' => trivial
  | ok _ m' =>
    obtain ⟨a, ha, rfl⟩ := zoom_ok.1 hrun
    unfold BlockAllocator.alloc_block_by_id at ha
    split at ha
    · cases ha
    · split at ha
      · split at ha
        · cases ha; exact hm.congr (get_block_write hx) fun _ hk => hk
        · cases ha
      · cases ha; exact hm.congr (get_block_write hx) fun _ hk => hk

theorem free_block_unwritten {x : Nat} (hx : x ≠ b) :
    Triple (Unwritten b m₀) (on_allocator (BlockAllocator.free_block x))
      (fun _ => Unwritten b m₀) fun _ => True := by
  intro m hm
  cases hrun : on_allocator (BlockAllocator.free_block x) m with
  | error e m' => trivial
  | ok _ m' =>
    obtain ⟨a, ha, rfl⟩ := zoom_ok.1 hrun
    unfold BlockAllocator.free_block at ha
    split at ha
    · cases ha
    · split at ha
      · dsimp only at ha
        split at ha
        · split at ha
          · cases ha
          · cases ha; exact hm.congr (get_block_write hx) fun _ hk => hk
        · cases ha; exact hm.congr (get_block_write hx) fun _ hk => hk
      · cases ha

theorem retain_all_unwritten {ids : List Nat} (hids : b ∉ ids) :
    Triple (Unwritten b m₀) (forM ids fun x => on_allocator (BlockAllocator.alloc_block_by_id x))
      (fun _ => Unwritten b m₀) fun _ => True :=
  triple_forM_mem fun _ hx => alloc_block_by_id_unwritten fun h => hids (h ▸ hx)

/-! ### The other writes -/

theorem Unwritten.erase_table (h : Unwritten b m₀ m) (k : Nat) :
    Unwritten b m₀ { m with hash_block_table := m.hash_block_table.erase k } := by
  refine h.congr rfl fun k' hk' => ?_
  rw [Table.lookup_erase_eq] at hk'
  split at hk'
  · cases hk'
  · exact hk'

theorem Unwritten.insert_table (h : Unwritten b m₀ m) (k : Nat) {x : Nat} (hx : x ≠ b) :
    Unwritten b m₀ { m with hash_block_table := m.hash_block_table.insert k x } := by
  refine h.congr rfl fun k' hk' => ?_
  rw [Table.lookup_insert_eq] at hk'
  split at hk'
  · exact absurd (Option.some.inj hk') hx
  · exact hk'

theorem Unwritten.set_block (h : Unwritten b m₀ m) {x : Nat} (hx : x ≠ b) (block : Block) :
    Unwritten b m₀ (m.set_block x block) :=
  h.congr (get_block_write (l := m.block_allocator.free_block_ids) hx) fun _ hk => hk

/-- Maps and regions do not matter. -/
theorem Unwritten.of_tables (h : Unwritten b m₀ m) (ha : m'.block_allocator = m.block_allocator)
    (ht : m'.hash_block_table = m.hash_block_table) : Unwritten b m₀ m' :=
  h.congr (by unfold get_block; rw [ha]) fun k hk => by rw [ht] at hk; exact hk

theorem drop_cache_unwritten {x : Nat} (hx : x ≠ b) :
    Triple (Unwritten b m₀) (drop_cache x) (fun _ => Unwritten b m₀) fun _ => True := by
  refine Triple.bind (R := fun _ => Unwritten b m₀) (Triple.get_bind fun s hs => ?_) fun block => ?_
  · split
    · exact Triple.pure fun _ h => h ▸ hs
    · exact Triple.throw trivial
  · refine Triple.ite (fun _ => Triple.modify fun m hm => ?_) fun _ => Triple.pure fun _ h => h
    exact (hm.set_block hx _).erase_table _

theorem free_loop_unwritten (filled : Nat) {ids : List Nat} (hids : b ∉ ids) : ∀ cnt,
    Triple (Unwritten b m₀) (free_loop filled cnt ids) (fun _ => Unwritten b m₀) fun _ => True := by
  induction ids with
  | nil => exact fun _ => Triple.pure fun _ h => h
  | cons x ids ih =>
    intro cnt
    obtain ⟨hx, hids⟩ := not_or.1 fun h => hids (List.mem_cons.2 h)
    refine Triple.bind (free_block_unwritten (Ne.symm hx)) fun _ => Triple.get_bind fun s hs => ?_
    refine Triple.bind (R := fun _ => Unwritten b m₀) ?_ fun _ => ih hids _
    refine Triple.ite (fun _ => ?_) fun _ => Triple.pure fun _ h => h ▸ hs
    exact (drop_cache_unwritten (Ne.symm hx)).pre fun _ h => h ▸ hs

theorem free_unwritten {i : Nat} (hmaps : ∀ map, m₀.get_block_map i = some map → b ∉ map.block_ids) :
    Triple (· = m₀) (free i) (fun _ => Unwritten b m₀) fun _ => True := by
  refine Triple.get_bind fun s hs => ?_
  subst hs
  split
  · exact Triple.pure fun _ h => h ▸ .refl b _
  · rename_i map hmap
    refine Triple.bind (Triple.modify (Q := fun _ => Unwritten b s) fun m hm => ?_) fun _ =>
      free_loop_unwritten _ (hmaps map hmap) _
    subst hm; exact (Unwritten.refl b m).of_tables rfl rfl

theorem free_and_drop_cache_unwritten {i : Nat}
    (hmaps : ∀ map, m₀.get_block_map i = some map → b ∉ map.block_ids) :
    Triple (· = m₀) (free_and_drop_cache i) (fun _ => Unwritten b m₀) fun _ => True := by
  refine Triple.get_bind fun s hs => ?_
  subst hs
  split
  · exact Triple.pure fun _ h => h ▸ .refl b _
  · rename_i map hmap
    refine Triple.bind (Triple.modify (Q := fun _ => Unwritten b s) fun m hm => ?_) fun _ =>
      triple_forM_mem fun x hx => ?_
    · subst hm; exact (Unwritten.refl b m).of_tables rfl rfl
    · have hxb : x ≠ b := fun h => hmaps map hmap (h ▸ hx)
      exact Triple.bind (free_block_unwritten hxb) fun _ => drop_cache_unwritten hxb

theorem update_filled_len_unwritten (i len : Nat) :
    Triple (Unwritten b m₀) (update_filled_len i len) (fun _ => Unwritten b m₀) fun _ => True := by
  refine Triple.get_bind fun s hs => ?_
  split
  · exact Triple.pure fun _ h => h ▸ hs
  · refine Triple.ite (fun _ => Triple.modify fun m hm => ?_) fun _ => Triple.throw trivial
    subst hm; exact hs.of_tables rfl rfl

theorem unpin_blocks_unwritten {r : Nat}
    (hregion : ∀ ids, m₀.reserved_blocks_table.lookup r = some ids → b ∉ ids) :
    Triple (· = m₀) (unpin_blocks r) (fun _ => Unwritten b m₀) fun _ => True := by
  refine Triple.get_bind fun s hs => ?_
  subst hs
  split
  · exact Triple.pure fun _ h => h ▸ .refl b _
  · rename_i ids hids
    refine Triple.bind (Triple.modify (Q := fun _ => Unwritten b s) fun m hm => ?_) fun _ =>
      Triple.bind (triple_forM_mem fun x hx => free_block_unwritten fun h => hregion ids hids (h ▸ hx))
        fun _ => Triple.pure fun _ h => h
    subst hm; exact (Unwritten.refl b m).of_tables rfl rfl

theorem activate_block_unwritten (hash_values : List Nat) {x : Nat} (hx : x ≠ b) :
    Triple (Unwritten b m₀) (activate_block hash_values x) (fun _ => Unwritten b m₀) fun _ => True := by
  refine Triple.get_bind fun s hs => ?_
  refine Triple.bind (Triple.modify (Q := fun _ => Unwritten b m₀) fun m hm => ?_) fun _ =>
    Triple.bind (free_block_unwritten hx) fun _ => Triple.pure fun _ h => h
  subst hm
  split
  · exact hs.insert_table _ hx
  · exact hs

theorem activate_reserved_blocks_unwritten {r : Nat} (hash_values : List Nat)
    (hregion : ∀ ids, m₀.reserved_blocks_table.lookup r = some ids → b ∉ ids) :
    Triple (· = m₀) (activate_reserved_blocks r hash_values) (fun _ => Unwritten b m₀)
      fun _ => True := by
  refine Triple.get_bind fun s hs => ?_
  subst hs
  split
  · exact Triple.pure fun _ h => h ▸ .refl b _
  · rename_i ids hids
    refine Triple.bind (Triple.modify (Q := fun _ => Unwritten b s) fun m hm => ?_) fun _ => ?_
    · subst hm; exact (Unwritten.refl b m).of_tables rfl rfl
    · refine Triple.bind (R := fun _ => Unwritten b s) ?_ fun _ => Triple.pure fun _ h => h
      refine Triple.pre (P := fun m => Unwritten b s m ∧ b ∉ ids) ?_ fun m hm => ⟨hm, hregion ids hids⟩
      refine (Triple.mapM (fun ids _ m => Unwritten b s m ∧ b ∉ ids) (fun x l _ => ?_) ids []).post
        fun _ _ h => h.1
      rintro m ⟨hm, hmem⟩
      obtain ⟨hx, hl⟩ := not_or.1 fun h => hmem (List.mem_cons.2 h)
      exact ((activate_block_unwritten hash_values (Ne.symm hx)).post fun _ m hm => ⟨hm, hl⟩) m hm

end

section
variable [Hasher] {b : Nat} {m₀ m m' : BlockManager}

theorem Hidden.not_mem_hits (h : m.Hidden b) (T : List Nat) (stop : Nat) (offsets : List Nat) :
    b ∉ m.prefix_hits T stop offsets := by
  induction offsets with
  | nil => simp [prefix_hits]
  | cons off offsets ih =>
    simp only [prefix_hits]
    split
    · simp
    · split
      · rename_i x hx
        refine List.not_mem_cons_of_ne_of_not_mem (fun hbx => ?_) ih
        subst hbx; exact h.lookup _ hx
      · simp

omit [Hasher] in
theorem append_tokens_unwritten {P : BlockManager → Prop} (block : Block) (l : List Nat) :
    Triple P (append_tokens block l) (fun _ => P) fun _ => True :=
  Triple.get_bind fun _ hs => Triple.ite (fun _ => Triple.pure fun _ h => h ▸ hs) fun _ =>
    Triple.throw trivial

theorem publish_if_full_unwritten {x : Nat} (hx : x ≠ b) (block : Block) (l : List Nat) :
    Triple (Unwritten b m₀) (publish_if_full x block l) (fun _ => Unwritten b m₀) fun _ => True := by
  refine Triple.modify fun m hm => ?_
  split
  · exact (hm.set_block hx _).insert_table _ hx
  · exact hm.set_block hx _

theorem alloc_new_block_unwritten (h : (m₀.get_block b).ref_cnt = 1) (T : List Nat) (off : Nat) :
    Triple (Unwritten b m₀) (alloc_new_block T off) (fun _ => Unwritten b m₀) fun _ => True := by
  refine Triple.get_bind fun s hs => Triple.bind ((alloc_block_unwritten h).pre fun _ e => e ▸ hs)
    fun x => ?_
  rintro m ⟨hm, hx⟩
  refine Triple.get_bind (P := Unwritten b m₀) (fun s₁ hs₁ => ?_) m hm
  refine Triple.bind (Triple.modify (Q := fun _ => Unwritten b m₀) fun m e => ?_) fun _ => ?_
  · subst e; exact hs₁.erase_table _
  · refine Triple.bind (append_tokens_unwritten _ _) fun block => ?_
    exact Triple.bind (publish_if_full_unwritten hx _ _) fun _ => Triple.pure fun _ h => h

theorem fill_last_block_unwritten {seq : Sequence} (slots tokens : Nat)
    (hmaps : ∀ map, m₀.get_block_map seq.seq_id = some map → b ∉ map.block_ids) :
    Triple (· = m₀) (fill_last_block seq slots tokens) (fun _ => Unwritten b m₀) fun _ => True := by
  refine Triple.ite (fun _ => Triple.pure fun _ h => h ▸ .refl b _) fun _ => ?_
  refine Triple.get_bind fun s hs => ?_
  subst hs
  split
  · exact Triple.throw trivial
  · rename_i x hx
    obtain ⟨map, hmap, hmem⟩ := get_last_block_id_mem hx
    have hxb : x ≠ b := fun h => hmaps map hmap (h ▸ hmem)
    refine Triple.bind (R := fun _ => Unwritten b s) (Triple.get_bind fun s' hs' => ?_) fun block => ?_
    · split
      · exact Triple.pure fun _ h => by rw [h, hs']; exact .refl b _
      · exact Triple.throw trivial
    · refine Triple.ite (fun _ => ?_) fun _ => Triple.pure fun _ h => h
      refine Triple.bind (append_tokens_unwritten _ _) fun block' => ?_
      exact Triple.bind (publish_if_full_unwritten hxb _ _) fun _ => Triple.pure fun _ h => h

theorem alloc_blocks_unwritten (h : m₀.Sealed b) {seq : Sequence}
    (hmaps : ∀ map, m₀.get_block_map seq.seq_id = some map → b ∉ map.block_ids) :
    Triple (· = m₀) (alloc_blocks seq) (fun _ => Unwritten b m₀) fun _ => True := by
  refine Triple.get_bind fun s hs => ?_
  subst hs
  refine Triple.bind (R := fun _ => (· = s)) (Triple.ite (fun _ => Triple.pure fun _ h => h) fun _ =>
    Triple.throw trivial) fun tokens => ?_
  refine Triple.bind (fill_last_block_unwritten _ tokens hmaps) fun slots => ?_
  refine Triple.get_bind fun s₁ hs₁ => ?_
  refine Triple.bind (R := fun _ => Unwritten b s) ?_ fun ids => ?_
  · refine Triple.pre (Triple.mapM (fun _ _ => Unwritten b s) (fun off _ _ => ?_) _ []) fun _ e => e ▸ hs₁
    exact alloc_new_block_unwritten h.ref_cnt _ off
  · refine Triple.bind (Triple.modify (Q := fun _ => Unwritten b s) fun m hm => ?_) fun _ =>
      Triple.pure fun _ h => h
    split <;> exact hm.of_tables rfl rfl

theorem init_prefix_cache_blocks_unwritten (h : m₀.Sealed b) (seq : Sequence) :
    Triple (· = m₀) (init_prefix_cache_blocks seq) (fun _ => Unwritten b m₀) fun _ => True := by
  refine Triple.get_bind fun s hs => ?_
  subst hs
  split
  · exact Triple.pure fun _ h => h ▸ .refl b _
  · refine Triple.bind (R := fun _ => Unwritten b s) ((retain_all_unwritten
      (h.hidden.not_mem_hits _ _ _)).pre fun _ e => by rw [e]; exact .refl b s) fun _ => ?_
    refine Triple.bind (Triple.modify (Q := fun _ => Unwritten b s) fun m hm => ?_) fun _ =>
      Triple.pure fun _ h => h
    exact hm.of_tables rfl rfl

theorem update_prefix_cache_blocks_unwritten (h : m₀.Sealed b) (seq : Sequence) :
    Triple (· = m₀) (update_prefix_cache_blocks seq) (fun _ => Unwritten b m₀) fun _ => True := by
  refine Triple.get_bind fun s hs => ?_
  subst hs
  split
  · exact init_prefix_cache_blocks_unwritten h seq
  · refine Triple.bind (R := fun ids m => Unwritten b s m ∧ b ∉ ids) (Triple.get_bind fun s' hs' => ?_)
      fun ids => ?_
    · subst hs'
      refine Triple.ite (fun _ => Triple.pure fun _ e => ?_) fun _ => Triple.throw trivial
      subst e; exact ⟨.refl b _, h.hidden.not_mem_hits _ _ _⟩
    · rintro m ⟨hm, hids⟩
      refine Triple.bind (retain_all_unwritten hids) (fun _ => ?_) m hm
      refine Triple.bind (Triple.modify (Q := fun _ => Unwritten b s) fun m hm => ?_) fun _ =>
        Triple.pure fun _ h => h
      exact hm.of_tables rfl rfl

omit [Hasher] in
theorem pin_loop_unwritten (h : m₀.Hidden b) (hash_values : List Nat) :
    Triple (Unwritten b m₀) (pin_loop hash_values)
      (fun pairs m => Unwritten b m₀ m ∧ b ∉ pairs.map (·.1)) fun _ => True := by
  induction hash_values with
  | nil => exact Triple.pure fun _ hm => ⟨hm, by simp⟩
  | cons hash hash_values ih =>
    refine Triple.get_bind fun s hs => ?_
    split
    · rename_i x hx
      have hxb : x ≠ b := fun e => (h.of_unwritten hs).lookup hash (e ▸ hx)
      refine Triple.bind ((alloc_block_by_id_unwritten hxb).pre fun _ e => e ▸ hs) fun _ => ?_
      refine Triple.bind ih fun pairs => Triple.pure fun m hm => ⟨hm.1, ?_⟩
      exact List.not_mem_cons_of_ne_of_not_mem (Ne.symm hxb) hm.2
    · exact Triple.pure fun _ e => e ▸ ⟨hs, by simp⟩

omit [Hasher] in
theorem pin_blocks_by_hashes_unwritten (h : m₀.Hidden b) (r : Nat) (hash_values : List Nat) :
    Triple (· = m₀) (pin_blocks_by_hashes r hash_values)
      (fun region m => Unwritten b m₀ m ∧ b ∉ region.block_ids) fun _ => True := by
  refine Triple.bind ((pin_loop_unwritten h hash_values).pre
    fun _ e => by rw [e]; exact .refl b m₀) fun pairs => ?_
  obtain ⟨region, hregion⟩ : ∃ region, region = BlockRegion.mk r (pairs.map (·.1)) (pairs.map (·.2)) :=
    ⟨_, rfl⟩
  have hinsert : Triple (fun m => Unwritten b m₀ m ∧ b ∉ pairs.map (·.1)) (insert_region region)
      (fun _ m => Unwritten b m₀ m ∧ b ∉ pairs.map (·.1)) fun _ => True :=
    Triple.modify fun m hm => ⟨hm.1.of_tables rfl rfl, hm.2⟩
  rw [← hregion]
  refine Triple.bind hinsert fun _ => Triple.pure fun _ hm => ⟨hm.1, ?_⟩
  rw [hregion]; exact hm.2

theorem reserve_loop_unwritten (h : (m₀.get_block b).ref_cnt = 1) (T offsets : List Nat) :
    Triple (Unwritten b m₀) (reserve_loop T offsets) (fun _ => Unwritten b m₀) fun _ => True := by
  induction offsets with
  | nil => exact Triple.pure fun _ h => h
  | cons off offsets ih =>
    refine Triple.get_bind fun s hs => Triple.ite (fun _ => Triple.pure fun _ e => e ▸ hs) fun _ => ?_
    refine Triple.bind ((alloc_block_unwritten h).pre fun _ e => e ▸ hs) fun x => ?_
    rintro m ⟨hm, hx⟩
    refine Triple.get_bind (P := Unwritten b m₀) (fun s₁ hs₁ => ?_) m hm
    refine Triple.bind ((append_tokens_unwritten _ _).pre fun _ e => e ▸ hs₁) fun block => ?_
    refine Triple.bind (Triple.modify (Q := fun _ => Unwritten b m₀) fun m hm => hm.set_block hx _)
      fun _ => Triple.bind ih fun _ => Triple.pure fun _ h => h

theorem reserve_blocks_unwritten (h : m₀.Sealed b) (r : Nat) (T : List Nat) (start : Nat) :
    Triple (· = m₀) (reserve_blocks r T start) (fun _ => Unwritten b m₀) fun _ => True := by
  refine Triple.get_bind fun s hs => ?_
  refine Triple.bind ((reserve_loop_unwritten h.ref_cnt _ _).pre fun _ e => ?_) fun pairs => ?_
  · rw [e, hs]; exact .refl b _
  · refine Triple.ite (fun _ => Triple.pure fun _ h => h) fun _ => ?_
    refine Triple.bind (Triple.modify (Q := fun _ => Unwritten b m₀) fun m hm => ?_) fun _ =>
      Triple.pure fun _ h => h
    exact hm.of_tables rfl rfl

/-! ### What a lookup cannot find -/

/-- No lookup finds block `b`. -/
structure Invisible (m : BlockManager) (b : Nat) : Prop where
  lookup : ∀ hash, m.lookup_block_id hash ≠ some b
  prefixes : ∀ T, b ∉ m.get_prefix_cache_blocks T
  range : ∀ T start stop ids m', get_prefix_cache_blocks_range T start stop m = .ok ids m' → b ∉ ids
  pin : ∀ r hash_values region m', pin_blocks_by_hashes r hash_values m = .ok region m' →
    b ∉ region.block_ids

theorem Hidden.invisible (h : m.Hidden b) : m.Invisible b where
  lookup := h.lookup
  prefixes T := h.not_mem_hits _ _ _
  range T start stop ids m' hrun := by
    replace hrun := get_ok hrun
    split at hrun
    · obtain ⟨rfl, -⟩ : _ = ids ∧ _ := by simpa using hrun
      exact h.not_mem_hits _ _ _
    · cases hrun
  pin r hash_values region m' hrun :=
    ((pin_blocks_by_hashes_unwritten h r hash_values).of_ok rfl hrun).2

/-! ### Reserving -/

/-- The hashes `reserve_loop` gives out for these offsets. -/
def full_hashes (block_size : Nat) (T : List Nat) : List Nat → List Nat
  | [] => []
  | off :: offsets =>
    let stop := min (off + block_size) T.length
    if stop - off < block_size then []
    else compute_hash (T.take stop) :: full_hashes block_size T offsets

/-- The blocks `reserve_blocks` would take next, each with the hash it would be given. -/
def planned (m : BlockManager) (T : List Nat) (start : Nat) : List (Nat × Nat) :=
  m.block_allocator.free_block_ids.zip
    (full_hashes m.block_size T (step_by (start / m.block_size * m.block_size) T.length m.block_size))

theorem reserve_loop_planned {n : Nat} (T offsets : List Nat) :
    ∀ {m m' : BlockManager} {held : List Nat} {pairs : List (Nat × Nat)}, m.RefInv n held →
    reserve_loop T offsets m = .ok pairs m' →
    pairs = m.block_allocator.free_block_ids.zip (full_hashes m.block_size T offsets) ∧
      m'.hash_block_table = m.hash_block_table ∧
      ∀ (k : Nat) (p : Nat × Nat), pairs[k]? = some p →
        (m'.get_block p.1).ref_cnt = 1 ∧ (m'.get_block p.1).hash = p.2 ∧
        ∃ off, offsets[k]? = some off ∧ off + m.block_size ≤ T.length ∧
          m'.tokens p.1 = slice T off (off + m.block_size) := by
  induction offsets with
  | nil =>
    intro m m' held pairs h hrun
    obtain ⟨rfl, rfl⟩ : [] = pairs ∧ m = m' := by simpa [reserve_loop] using hrun
    exact ⟨by simp [full_hashes], rfl, nofun⟩
  | cons off offsets ih =>
    intro m m' held pairs h hrun
    replace hrun := get_ok hrun
    dsimp only at hrun
    by_cases hfull : min (off + m.block_size) T.length - off < m.block_size
    · rw [if_pos hfull] at hrun
      obtain ⟨rfl, rfl⟩ : [] = pairs ∧ m = m' := by simpa using hrun
      exact ⟨by simp [full_hashes, hfull], rfl, nofun⟩
    · have hend : min (off + m.block_size) T.length = off + m.block_size := by
        have := m.block_size_pos
        omega
      rw [if_neg hfull] at hrun
      obtain ⟨b, m₁, halloc, hrest⟩ := bind_ok.1 hrun
      obtain ⟨h₁, hq, hb, hrefs, hnot, hfree, -⟩ := alloc_block_spec h halloc
      replace hrest := get_ok hrest
      obtain ⟨block, m₂, happ, hwrite⟩ := bind_ok.1 hrest
      obtain ⟨hblock, rfl, -⟩ := append_tokens_ok happ
      obtain ⟨pairs', m₃, hloop, hret⟩ := bind_ok.1 (modify_ok hwrite)
      rw [hend] at hblock hloop hret
      obtain ⟨rfl, rfl⟩ : (b, compute_hash (T.take (off + m.block_size))) :: pairs' = pairs ∧ m₃ = m' := by
        simpa using hret
      have hset := h₁.set_block (b := b) { block with hash := compute_hash (T.take (off + m.block_size)) }
        (by rw [hblock]; rfl) (by rw [hblock]; rfl)
      obtain ⟨hpairs, htable, hwritten⟩ := ih hset hloop
      have hlt : b < m₂.block_allocator.block_pool.length := by rw [h₁.pool_len]; exact hb
      have hget : (m₂.set_block b { block with
          hash := compute_hash (T.take (off + m.block_size)) }).get_block b = _ :=
        (get_block_set_block ..).trans (if_pos ⟨rfl, hlt⟩)
      have hone := hset.ref_cnt hb
      have hrefs' : (m₂.set_block b { block with
          hash := compute_hash (T.take (off + m.block_size)) }).refs b = 0 := by
        rw [← hrefs, ← hq.refs]; rfl
      rw [hrefs', List.count_cons_self, List.count_eq_zero.2 hnot] at hone
      -- the rest of the loop leaves the block alone
      have hkept := (reserve_loop_unwritten (b := b) (by simpa using hone) T offsets).of_ok
        (Unwritten.refl b _) hloop
      have hsize : (m₂.set_block b { block with
          hash := compute_hash (T.take (off + m.block_size)) }).block_size = m.block_size := hq.block_size
      rw [hsize] at hpairs
      refine ⟨?_, htable.trans hq.table, fun k p hp => ?_⟩
      · rw [full_hashes, if_neg hfull, hfree, List.zip_cons_cons, hpairs, hend]; rfl
      · cases k with
        | zero =>
          obtain rfl := Option.some.inj hp
          refine ⟨?_, ?_, off, rfl, by omega, ?_⟩
          · rw [hkept.block]; simpa using hone
          · rw [hkept.block, hget]
          · rw [tokens, hkept.block, hget, hblock]; rfl
        | succ k => exact hsize ▸ hwritten k p hp

/-- A new region's blocks and hashes are the planned ones. -/
theorem reserve_blocks_planned {n r start : Nat} {T : List Nat} {region : Option BlockRegion}
    (h : m.RefInv n []) (hrun : reserve_blocks r T start m = .ok region m') :
    m'.hash_block_table = m.hash_block_table ∧
      (∀ p ∈ m.planned T start, (m'.get_block p.1).ref_cnt = 1 ∧ (m'.get_block p.1).hash = p.2 ∧
        (m'.tokens p.1).length = m.block_size) ∧
      (m.planned T start ≠ [] → m'.reserved_blocks_table =
        m.reserved_blocks_table.insert r ((m.planned T start).map (·.1))) ∧
      (m.planned T start = [] → m'.reserved_blocks_table = m.reserved_blocks_table) := by
  replace hrun := get_ok hrun
  obtain ⟨pairs, m₁, hloop, hrest⟩ := bind_ok.1 hrun
  obtain ⟨hpairs, htable, hwritten⟩ := reserve_loop_planned T _ h hloop
  replace hwritten : ∀ p ∈ pairs, (m₁.get_block p.1).ref_cnt = 1 ∧ (m₁.get_block p.1).hash = p.2 ∧
      (m₁.tokens p.1).length = m.block_size := by
    intro p hp
    obtain ⟨k, hk⟩ := List.mem_iff_getElem?.1 hp
    obtain ⟨hcnt, hhash, off, -, hfits, htokens⟩ := hwritten k p hk
    exact ⟨hcnt, hhash, by rw [htokens, length_slice]; omega⟩
  have hregions := (reserve_loop_regions T _).of_ok hloop
  rw [planned, ← hpairs]
  by_cases hp : pairs = []
  · rw [if_pos (by rw [hp]; rfl)] at hrest
    obtain ⟨rfl, rfl⟩ : none = region ∧ m₁ = m' := by simpa using hrest
    exact ⟨htable, hwritten, fun hne => absurd hp hne, fun _ => hregions⟩
  · rw [if_neg (by simpa using hp)] at hrest
    obtain ⟨rfl, rfl⟩ : some _ = region ∧ _ = m' := by simpa using modify_ok hrest
    refine ⟨htable, hwritten, fun _ => ?_, fun hnil => absurd hnil hp⟩
    show m₁.reserved_blocks_table.insert _ _ = _
    rw [hregions]

end

end BlockManager

end LMServe
