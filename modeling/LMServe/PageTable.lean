import LMServe.RefCountOps
import Mathlib.Data.List.Nodup

/-!
# The page tables

`PageInv R Occ tok n skip held s`: every sequence's block map has one block per started chunk of its
slots, and the tokens stored in the blocks are, up to `R`, those of the sequence, `tok`; a block that
is not full is listed only once; a block that carries a hash holds, up to `R`, the last tokens of a
prefix in `Occ` with that hash. `R` is equality when the hash function is assumed to tell the
prefixes in `Occ` apart, and equality of lengths when nothing is assumed of it; the same proofs
serve both.

As with `RefInv`, `held` lists the blocks an operation has taken and not yet stored, and `skip` is
the sequence whose map the operation is about to replace.
-/

namespace LMServe
open Hoare Chunk

/-- The last `bs` tokens of a prefix. -/
def last_block (bs : Nat) (P : List Nat) : List Nat := P.drop (P.length - bs)

theorem length_last_block {bs : Nat} {P : List Nat} (h : bs ≤ P.length) :
    (last_block bs P).length = bs := by
  simp [last_block]; omega

theorem last_block_take {bs off : Nat} {T : List Nat} (h : off + bs ≤ T.length) :
    last_block bs (T.take (off + bs)) = slice T off (off + bs) := by
  simp [last_block, slice, Nat.min_eq_left h]

/-- What the proofs use of the relation between stored and expected tokens. -/
structure TokenRel [Hasher] (R : List Nat → List Nat → Prop) (Occ : List Nat → Prop) : Prop where
  refl : ∀ l, R l l
  length_eq : ∀ {l l'}, R l l' → l.length = l'.length
  append : ∀ {l l'}, R l l' → ∀ k, R (l ++ k) (l' ++ k)
  /-- A hash stands for one prefix. -/
  hit : ∀ {bs l P P'}, Occ P → Occ P' → compute_hash P = compute_hash P' → bs ≤ P.length →
    bs ≤ P'.length → R l (last_block bs P) → R l (last_block bs P')

/-- Equality of lengths. -/
def SameLength (l l' : List Nat) : Prop := l.length = l'.length

/-- Any prefix may occur. -/
def AnyPrefix (_ : List Nat) : Prop := True

theorem TokenRel.lengths [Hasher] (Occ : List Nat → Prop) : TokenRel SameLength Occ where
  refl _ := rfl
  length_eq h := h
  append h k := by simpa [SameLength] using h
  hit _ _ _ hP hP' h := by
    have h' : _ = _ := h
    rw [length_last_block hP] at h'
    exact h'.trans (length_last_block hP').symm

theorem TokenRel.eq [Hasher] {Occ : List Nat → Prop}
    (hinj : ∀ P P', Occ P → Occ P' → compute_hash P = compute_hash P' → P = P') :
    TokenRel (· = ·) Occ where
  refl _ := rfl
  length_eq h := by rw [h]
  append h k := by rw [h]
  hit hP hP' hash _ _ h := by rw [hinj _ _ hP hP' hash] at h; exact h

namespace BlockManager

/-- The tokens stored in a block. -/
def tokens (s : BlockManager) (b : Nat) : List Nat := (s.get_block b).token_ids

@[simp] theorem get_block_map_set_block_map (s : BlockManager) (i j : Nat) (m : BlockMap) :
    (s.set_block_map i m).get_block_map j = if j = i then some m else s.get_block_map j :=
  Table.lookup_insert_eq i j m s.seq_block_mapping_table

/-- A block map describes the first `num_allocated_slots` tokens of `T`; its full blocks carry the
hash of the tokens up to their end. -/
structure PageOk [Hasher] (R : List Nat → List Nat → Prop) (bs : Nat) (block : Nat → Block)
    (T : List Nat) (m : BlockMap) : Prop where
  len : m.block_ids.length = div_ceil m.num_allocated_slots bs
  filled_le : m.filled_token_len ≤ m.num_allocated_slots
  slots_le : m.num_allocated_slots ≤ T.length
  page : ∀ i b, m.block_ids[i]? = some b →
    R (block b).token_ids (slice T (i * bs) (min ((i + 1) * bs) m.num_allocated_slots))
  hash : ∀ i b, m.block_ids[i]? = some b → (i + 1) * bs ≤ m.num_allocated_slots →
    (block b).hash = compute_hash (T.take ((i + 1) * bs))

section
variable [Hasher] {R : List Nat → List Nat → Prop} {bs : Nat} {block block' : Nat → Block}
  {T T' : List Nat} {m : BlockMap}

theorem PageOk.congr (h : PageOk R bs block T m)
    (hc : ∀ b ∈ m.block_ids, (block' b).token_ids = (block b).token_ids ∧
      (block' b).hash = (block b).hash) : PageOk R bs block' T m :=
  ⟨h.len, h.filled_le, h.slots_le,
   fun i b hb => by rw [(hc b (List.mem_of_getElem? hb)).1]; exact h.page i b hb,
   fun i b hb hi => by rw [(hc b (List.mem_of_getElem? hb)).2]; exact h.hash i b hb hi⟩

theorem PageOk.extend (h : PageOk R bs block T m) (hT : T <+: T') : PageOk R bs block T' m := by
  refine ⟨h.len, h.filled_le, Nat.le_trans h.slots_le hT.length_le, fun i b hb => ?_,
    fun i b hb hi => ?_⟩
  · rw [ slice_prefix hT (Nat.le_trans (Nat.min_le_right _ _) h.slots_le)]; exact h.page i b hb
  · obtain ⟨U, rfl⟩ := hT
    rw [List.take_append_of_le_length (Nat.le_trans hi h.slots_le)]; exact h.hash i b hb hi

theorem PageOk.set_filled (h : PageOk R bs block T m) {f : Nat} (hf : f ≤ m.num_allocated_slots) :
    PageOk R bs block T { m with filled_token_len := f } :=
  ⟨h.len, hf, h.slots_le, h.page, h.hash⟩

theorem PageOk.empty (hbs : 0 < bs) : PageOk R bs block T .empty :=
  ⟨(div_ceil_zero hbs).symm, Nat.le_refl _, Nat.zero_le _, fun i b hb => by simp [BlockMap.empty] at hb,
   fun i b hb => by simp [BlockMap.empty] at hb⟩

theorem PageOk.length_page {Occ : List Nat → Prop} (hR : TokenRel R Occ) (h : PageOk R bs block T m)
    {i b : Nat} (hb : m.block_ids[i]? = some b) :
    (block b).token_ids.length = min ((i + 1) * bs) m.num_allocated_slots - i * bs := by
  rw [hR.length_eq (h.page i b hb), length_slice]
  have := h.slots_le
  omega

theorem PageOk.snoc (hbs : 0 < bs) (h : PageOk R bs block T m)
    (hfull : m.num_allocated_slots = m.block_ids.length * bs) (b stop : Nat)
    (hlt : m.num_allocated_slots < stop) (hstop : stop ≤ m.num_allocated_slots + bs)
    (hT : stop ≤ T.length) (hb : R (block b).token_ids (slice T m.num_allocated_slots stop))
    (hhash : stop = m.num_allocated_slots + bs → (block b).hash = compute_hash (T.take stop)) :
    PageOk R bs block T
      { m with block_ids := m.block_ids ++ [b], num_allocated_slots := stop } := by
  have hmul : (m.block_ids.length + 1) * bs = m.num_allocated_slots + bs := by
    rw [Nat.add_mul, hfull]; omega
  have hold : ∀ {i}, i < m.block_ids.length → (i + 1) * bs ≤ m.num_allocated_slots := fun hi => by
    rw [hfull]; exact Nat.mul_le_mul_right bs hi
  refine ⟨?_, Nat.le_trans h.filled_le (Nat.le_of_lt hlt), hT, fun i c hc => ?_, fun i c hc hi => ?_⟩
  · simp only [List.length_append, List.length_singleton]
    apply Nat.le_antisymm
    · rw [Nat.add_one_le_iff, lt_div_ceil_iff hbs, ← hfull]; exact hlt
    · rw [div_ceil_le_iff hbs, hmul]; exact hstop
  · rcases Nat.lt_trichotomy i m.block_ids.length with hi | rfl | hi
    · rw [List.getElem?_append_left hi] at hc
      have := h.page i c hc
      rw [Nat.min_eq_left (hold hi)] at this
      rwa [Nat.min_eq_left (Nat.le_trans (hold hi) (Nat.le_of_lt hlt))]
    · simp only [List.getElem?_append_right (Nat.le_refl _), Nat.sub_self,
        List.getElem?_cons_zero, Option.some.injEq] at hc
      subst hc
      rw [← hfull, hmul, Nat.min_eq_right hstop]; exact hb
    · rw [List.getElem?_eq_none (by simp; omega)] at hc; cases hc
  · rcases Nat.lt_trichotomy i m.block_ids.length with hlt' | rfl | hlt'
    · rw [List.getElem?_append_left hlt'] at hc
      exact h.hash i c hc (hold hlt')
    · simp only [List.getElem?_append_right (Nat.le_refl _), Nat.sub_self,
        List.getElem?_cons_zero, Option.some.injEq] at hc
      subst hc
      rw [hmul] at hi ⊢
      have hend : stop = m.num_allocated_slots + bs := Nat.le_antisymm hstop hi
      rw [← hend]; exact hhash hend
    · rw [List.getElem?_eq_none (by simp; omega)] at hc; cases hc

end

/-- A block with content `l` and hash `k` holds the end of a prefix with that hash. -/
def Tagged [Hasher] (R : List Nat → List Nat → Prop) (Occ : List Nat → Prop) (bs : Nat) (l : List Nat)
    (k : Nat) : Prop :=
  ∃ P, Occ P ∧ compute_hash P = k ∧ bs ≤ P.length ∧ R l (last_block bs P)

theorem Tagged.length [Hasher] {R : List Nat → List Nat → Prop} {Occ : List Nat → Prop} {bs : Nat}
    {l : List Nat} {k : Nat} (hR : TokenRel R Occ) (h : Tagged R Occ bs l k) : l.length = bs := by
  obtain ⟨P, -, -, hP, hl⟩ := h
  rw [hR.length_eq hl, length_last_block hP]

/-- See the module doc. The entry of the table under `0`, the hash of a block without one, is not
stale. -/
structure PageInv [Hasher] (R : List Nat → List Nat → Prop) (Occ : List Nat → Prop)
    (tok : Nat → List Nat) (n : Nat) (skip : Option Nat) (held : List Nat) (s : BlockManager) :
    Prop where
  ref : s.RefInv n held
  maps : ∀ i m, skip ≠ some i → s.get_block_map i = some m →
    PageOk R s.block_size s.get_block (tok i) m
  capacity : ∀ b, (s.tokens b).length ≤ s.block_size
  unshared : ∀ b, b < n → (s.tokens b).length < s.block_size → s.refs b + held.count b ≤ 1
  tagged : ∀ b, b < n → ((s.get_block b).hash ≠ 0 ∨ s.hash_block_table.lookup 0 = some b) →
    Tagged R Occ s.block_size (s.tokens b) (s.get_block b).hash
  zero : ∀ b, s.hash_block_table.lookup 0 = some b → (s.get_block b).hash = 0
  regions : ∀ r ids, s.reserved_blocks_table.lookup r = some ids →
    ∀ b ∈ ids, (s.get_block b).hash ≠ 0

section
variable {n : Nat} {s s' : BlockManager} {held held' : List Nat}

theorem refs_pos_of_mem {i : Nat} {m : BlockMap} {b : Nat} (hm : s.get_block_map i = some m)
    (hb : b ∈ m.block_ids) : 0 < s.refs b := by
  have h1 : 0 < m.block_ids.count b := List.count_pos_iff.2 hb
  have h2 := Table.le_total (fun m : BlockMap => m.block_ids.count b) hm
  unfold refs; omega

/-- A block listed in two maps, or twice in one, has two references. -/
theorem count_le_refs {i : Nat} {m : BlockMap} (hm : s.get_block_map i = some m) (b : Nat) :
    m.block_ids.count b ≤ s.refs b := by
  have := Table.le_total (fun m : BlockMap => m.block_ids.count b) hm
  unfold refs; omega

theorem count_add_count_le_refs {i j : Nat} {m m' : BlockMap} (hij : j ≠ i)
    (hm : s.get_block_map i = some m) (hm' : s.get_block_map j = some m') (b : Nat) :
    m.block_ids.count b + m'.block_ids.count b ≤ s.refs b := by
  have h1 := Table.total_erase (fun m : BlockMap => m.block_ids.count b) hm
  have h2 : (s.seq_block_mapping_table.erase i).lookup j = some m' := by
    rw [Table.lookup_erase_eq, if_neg hij]; exact hm'
  have h3 := Table.le_total (fun m : BlockMap => m.block_ids.count b) h2
  unfold refs; omega

theorem refs_eq_zero_of_unmapped (hmaps : ∀ i, s.get_block_map i = none)
    (hregions : ∀ r, s.reserved_blocks_table.lookup r = none) (b : Nat) : s.refs b = 0 := by
  refine Nat.add_eq_zero_iff.2 ⟨?_, ?_⟩ <;> refine Nat.eq_zero_of_not_pos fun hpos => ?_
  · obtain ⟨i, m, hm, -⟩ := (Table.total_pos_iff _ _).1 hpos
    exact absurd (hm.symm.trans (hmaps i)) (Option.some_ne_none m)
  · obtain ⟨r, ids, hr, -⟩ := (Table.total_pos_iff _ _).1 hpos
    exact absurd (hr.symm.trans (hregions r)) (Option.some_ne_none ids)

theorem not_mem_of_refs_eq_zero {b : Nat} (hb : s.refs b = 0) :
    (∀ i m, s.get_block_map i = some m → b ∉ m.block_ids) ∧
      ∀ r ids, s.reserved_blocks_table.lookup r = some ids → b ∉ ids := by
  refine ⟨fun i m hm hmem => ?_, fun r ids hr hmem => ?_⟩
  · have := refs_pos_of_mem hm hmem; omega
  · have h1 : 0 < ids.count b := List.count_pos_iff.2 hmem
    have h2 := Table.le_total (fun ids : List Nat => ids.count b) hr
    unfold refs at hb; omega

/-! ### Operations that only move references -/

/-- Only reference counts, statuses and the free list differ. -/
structure Quiet (s s' : BlockManager) : Prop where
  block_size : s'.block_size = s.block_size
  maps : s'.seq_block_mapping_table = s.seq_block_mapping_table
  table : s'.hash_block_table = s.hash_block_table
  regions : s'.reserved_blocks_table = s.reserved_blocks_table
  content : ∀ b, (s'.get_block b).token_ids = (s.get_block b).token_ids ∧
    (s'.get_block b).hash = (s.get_block b).hash

theorem Quiet.refl (s : BlockManager) : Quiet s s := ⟨rfl, rfl, rfl, rfl, fun _ => ⟨rfl, rfl⟩⟩

theorem Quiet.trans {s'' : BlockManager} (h : Quiet s s') (h' : Quiet s' s'') : Quiet s s'' :=
  ⟨h'.block_size.trans h.block_size, h'.maps.trans h.maps, h'.table.trans h.table,
   h'.regions.trans h.regions, fun b => ⟨(h'.content b).1.trans (h.content b).1,
    (h'.content b).2.trans (h.content b).2⟩⟩

theorem Quiet.refs (h : Quiet s s') (b : Nat) : s'.refs b = s.refs b := by
  simp only [BlockManager.refs, h.maps, h.regions]

theorem Quiet.tokens (h : Quiet s s') : s'.tokens = s.tokens := by
  funext b; exact (h.content b).1

theorem Quiet.get_block_map (h : Quiet s s') (i : Nat) : s'.get_block_map i = s.get_block_map i := by
  simp only [BlockManager.get_block_map, h.maps]

theorem Quiet.lookup (h : Quiet s s') (hash : Nat) :
    s'.lookup_block_id hash = s.lookup_block_id hash := by
  simp only [lookup_block_id, h.table, (h.content _).2]

theorem quiet_of_set {b : Nat} {block : Block} {l : List Nat}
    (ht : block.token_ids = (s.get_block b).token_ids) (hh : block.hash = (s.get_block b).hash) :
    Quiet s { s with block_allocator := { s.block_allocator with
      block_pool := s.block_allocator.block_pool.set b block, free_block_ids := l } } := by
  refine ⟨rfl, rfl, rfl, rfl, fun x => ?_⟩
  have := BlockAllocator.get_block_set s.block_allocator b x block l
  show ((BlockAllocator.get_block _ x).token_ids = _) ∧ ((BlockAllocator.get_block _ x).hash = _)
  rw [this]
  split
  · rename_i hx; rw [hx.1]; exact ⟨ht, hh⟩
  · exact ⟨rfl, rfl⟩

theorem alloc_block_spec {b : Nat} (h : s.RefInv n held)
    (hrun : on_allocator BlockAllocator.alloc_block s = .ok b s') :
    s'.RefInv n (b :: held) ∧ Quiet s s' ∧ b < n ∧ s.refs b = 0 ∧ b ∉ held ∧
      s.block_allocator.free_block_ids = b :: s'.block_allocator.free_block_ids ∧
      ∀ x, x ≠ b → s'.get_block x = s.get_block x := by
  have hinv := (alloc_block_refInv held).of_ok h hrun
  obtain ⟨a, ha, rfl⟩ := zoom_ok.1 hrun
  obtain ⟨rest, hfree, hlt, rfl⟩ := BlockAllocator.alloc_block_ok ha
  have hzero := ((h.count.mem_free b).1 (by rw [hfree]; simp)).2
  simp only [Nat.add_eq_zero_iff, List.count_eq_zero] at hzero
  refine ⟨hinv.1, quiet_of_set rfl rfl, hinv.2, hzero.1, hzero.2, hfree, fun x hx => ?_⟩
  refine (BlockAllocator.get_block_set s.block_allocator b x _ rest).trans ?_
  rw [if_neg fun h => hx h.1]; rfl

theorem alloc_block_by_id_spec {b : Nat} (h : s.RefInv n held) (hb : b < n) :
    ∃ s', on_allocator (BlockAllocator.alloc_block_by_id b) s = .ok .unit s' ∧
      s'.RefInv n (b :: held) ∧ Quiet s s' ∧
      s'.block_allocator.free_block_ids = s.block_allocator.free_block_ids.erase b := by
  obtain ⟨free, block, hrun, hfree, hblock, -⟩ := BlockAllocator.alloc_block_by_id_ok
    (fun x => if x = b then s.refs x + held.count x + 1 else s.refs x + held.count x)
    h.count (by rw [h.total]; exact hb) (fun x => rfl)
  have hrun' : on_allocator (BlockAllocator.alloc_block_by_id b) s = .ok .unit
      { s with block_allocator := { s.block_allocator with
        block_pool := s.block_allocator.block_pool.set b block, free_block_ids := free } } :=
    zoom_ok.2 ⟨_, hrun, rfl⟩
  exact ⟨_, hrun', (alloc_block_by_id_refInv (E := NoFault) held hb).of_ok h hrun',
    quiet_of_set (by rw [hblock]; rfl) (by rw [hblock]; rfl), hfree⟩

/-- The re-pinning loop of the prefix cache operations always returns. -/
theorem retain_all_spec {ids : List Nat} (hids : ∀ b ∈ ids, b < n) :
    ∀ {s : BlockManager} {held : List Nat}, s.RefInv n held →
    ∃ s', forM ids (fun b => on_allocator (BlockAllocator.alloc_block_by_id b)) s = .ok .unit s' ∧
      s'.RefInv n (ids ++ held) ∧ Quiet s s' ∧
      s'.block_allocator.free_block_ids = s.block_allocator.free_block_ids.diff ids := by
  induction ids with
  | nil => intro s held h; exact ⟨s, rfl, h, .refl s, rfl⟩
  | cons b ids ih =>
    intro s held h
    obtain ⟨s₁, hrun, h₁, hq, hfree⟩ := alloc_block_by_id_spec h (hids b (by simp))
    obtain ⟨s₂, hrun₂, h₂, hq₂, hfree₂⟩ := ih (fun x hx => hids x (by simp [hx])) h₁
    refine ⟨s₂, ?_, h₂.congr_held fun x => ?_, hq.trans hq₂, ?_⟩
    · rw [List.forM_cons, bind_apply, hrun]; exact hrun₂
    · simp [List.count_cons, List.count_append]; omega
    · rw [hfree₂, hfree, List.diff_cons]

theorem free_block_spec {b : Nat} (h : s.RefInv n (b :: held)) :
    ∃ s', on_allocator (BlockAllocator.free_block b) s = .ok .unit s' ∧
      s'.RefInv n held ∧ Quiet s s' ∧
      s'.block_allocator.free_block_ids =
        if s.refs b + held.count b = 0 then s.block_allocator.free_block_ids ++ [b]
        else s.block_allocator.free_block_ids := by
  obtain ⟨free, block, hrun, hfree, hblock, -⟩ := BlockAllocator.free_block_ok (b := b)
    (fun x => if x = b then s.refs x + (b :: held).count x - 1
      else s.refs x + (b :: held).count x) h.count (by simp) (fun x => rfl)
  have hrun' : on_allocator (BlockAllocator.free_block b) s = .ok .unit
      { s with block_allocator := { s.block_allocator with
        block_pool := s.block_allocator.block_pool.set b block, free_block_ids := free } } :=
    zoom_ok.2 ⟨_, hrun, rfl⟩
  refine ⟨_, hrun', (free_block_refInv (E := NoFault) held b).of_ok h hrun',
    quiet_of_set (by rw [hblock]; rfl) (by rw [hblock]; rfl), ?_⟩
  show free = _
  rw [hfree]; simp [← Nat.add_assoc]

end

section
variable [Hasher] {R : List Nat → List Nat → Prop} {Occ : List Nat → Prop}
  {tok tok' : Nat → List Nat} {n : Nat} {skip : Option Nat} {held held' : List Nat}
  {s s' : BlockManager}

theorem PageInv.lookup (h : s.PageInv R Occ tok n skip held) {k b : Nat}
    (hk : s.lookup_block_id k = some b) :
    b < n ∧ (s.get_block b).hash = k ∧ Tagged R Occ s.block_size (s.tokens b) k := by
  have hlt := h.ref.lookup_lt hk
  unfold lookup_block_id at hk
  split at hk
  · rename_i b' hb'
    split at hk
    · rename_i hash
      obtain rfl := Option.some.inj hk
      refine ⟨hlt, hash, ?_⟩
      subst hash
      apply h.tagged _ hlt
      by_cases h0 : (s.get_block b').hash = 0
      · right; rw [← h0]; exact hb'
      · exact .inl h0
    · cases hk
  · cases hk

/-- Moving references does not touch the page tables, as long as blocks that are not full stay
unshared. -/
theorem PageInv.quiet (h : s.PageInv R Occ tok n skip held) (hq : Quiet s s')
    (hr : s'.RefInv n held')
    (hu : ∀ b, b < n → (s.tokens b).length < s.block_size → s.refs b + held'.count b ≤ 1) :
    s'.PageInv R Occ tok n skip held' := by
  have hhash : ∀ b, (s'.get_block b).hash = (s.get_block b).hash := fun b => (hq.content b).2
  refine ⟨hr, fun i m hi hm => ?_, fun b => ?_, fun b hb hlt => ?_, fun b hb ht => ?_, fun b hb => ?_,
    fun r ids hids b hb => ?_⟩
  · rw [hq.block_size]
    exact (h.maps i m hi (by rw [← hq.get_block_map]; exact hm)).congr fun b _ => hq.content b
  · rw [hq.block_size, hq.tokens]; exact h.capacity b
  · rw [hq.refs]
    rw [hq.block_size, hq.tokens] at hlt
    exact hu b hb hlt
  · rw [hhash, hq.table] at ht
    rw [hq.block_size, hq.tokens, hhash]
    exact h.tagged b hb ht
  · rw [hq.table] at hb
    rw [hhash]; exact h.zero b hb
  · rw [hq.regions] at hids
    rw [hhash]; exact h.regions r ids hids b hb

/-- Writing a block that only the skipped map may list, with what becomes of the table. -/
theorem PageInv.write (h : s.PageInv R Occ tok n skip held) {b : Nat} (hr : s'.RefInv n held')
    (hheld : ∀ x, x ≠ b → held'.count x = held.count x) (hbs : s'.block_size = s.block_size)
    (hm : s'.seq_block_mapping_table = s.seq_block_mapping_table)
    (hreg : s'.reserved_blocks_table = s.reserved_blocks_table)
    (hc : ∀ x, x ≠ b → s'.get_block x = s.get_block x)
    (ht : ∀ x, s'.hash_block_table.lookup 0 = some x → x ≠ b → s.hash_block_table.lookup 0 = some x)
    (hlen : (s'.tokens b).length ≤ s.block_size)
    (htag : ((s'.get_block b).hash ≠ 0 ∨ s'.hash_block_table.lookup 0 = some b) →
      Tagged R Occ s.block_size (s'.tokens b) (s'.get_block b).hash)
    (hzero : s'.hash_block_table.lookup 0 = some b → (s'.get_block b).hash = 0)
    (hmaps : ∀ i m, skip ≠ some i → s.get_block_map i = some m → b ∉ m.block_ids)
    (hregions : ∀ r ids, s.reserved_blocks_table.lookup r = some ids → b ∉ ids)
    (hcount : s.refs b + held'.count b ≤ 1) : s'.PageInv R Occ tok n skip held' := by
  have htok : ∀ x, x ≠ b → s'.tokens x = s.tokens x := fun x hx => by
    unfold BlockManager.tokens; rw [hc x hx]
  have hmap : ∀ i, s'.get_block_map i = s.get_block_map i := fun i => by
    simp only [BlockManager.get_block_map, hm]
  refine ⟨hr, fun i m hi hmi => ?_, fun x => ?_, fun x hx hlt => ?_, fun x hx hx' => ?_,
    fun x hx => ?_, fun r ids hids x hx => ?_⟩
  · rw [hmap] at hmi
    rw [hbs]
    refine (h.maps i m hi hmi).congr fun x hx => ?_
    rw [hc x fun hxb => hmaps i m hi hmi (hxb ▸ hx)]; exact ⟨rfl, rfl⟩
  · by_cases hxb : x = b
    · rw [hxb, hbs]; exact hlen
    · rw [htok x hxb, hbs]; exact h.capacity x
  · have hrefs : s'.refs x = s.refs x := by simp only [BlockManager.refs, hm, hreg]
    rw [hrefs]
    by_cases hxb : x = b
    · rw [hxb]; exact hcount
    · rw [htok x hxb, hbs] at hlt; rw [hheld x hxb]; exact h.unshared x hx hlt
  · rw [hbs]
    by_cases hxb : x = b
    · rw [hxb] at hx' ⊢; exact htag hx'
    · rw [hc x hxb] at hx' ⊢
      rw [htok x hxb]
      exact h.tagged x hx (hx'.imp id fun hx' => ht x hx' hxb)
  · by_cases hxb : x = b
    · rw [hxb] at hx ⊢; exact hzero hx
    · rw [hc x hxb]; exact h.zero x (ht x hx hxb)
  · rw [hreg] at hids
    rw [hc x fun hxb => hregions r ids hids (hxb ▸ hx)]
    exact h.regions r ids hids x hx

theorem PageInv.congr_held (h : s.PageInv R Occ tok n skip held)
    (hc : ∀ b, held'.count b = held.count b) : s.PageInv R Occ tok n skip held' :=
  { h with
    ref := h.ref.congr_held hc
    unshared := fun b hb hlt => by rw [hc]; exact h.unshared b hb hlt }

/-- The invariant of another sequence's map does not depend on what is skipped. -/
theorem PageInv.skip_some (h : s.PageInv R Occ tok n none held) (i : Nat) :
    s.PageInv R Occ tok n (some i) held :=
  { h with maps := fun j m _ hm => h.maps j m (by simp) hm }

theorem PageInv.set_block_map {i : Nat} {m : BlockMap} (h : s.PageInv R Occ tok n (some i) held)
    (hc : ∀ b, held.count b + (match s.get_block_map i with
      | some m => m.block_ids.count b
      | none => 0) = held'.count b + m.block_ids.count b)
    (hm : PageOk R s.block_size s.get_block (tok i) m) :
    (s.set_block_map i m).PageInv R Occ tok n none held' := by
  have hr := h.ref.set_block_map hc
  refine ⟨hr, fun j m' _ hm' => ?_, h.capacity, fun b hb hlt => ?_, h.tagged, h.zero, h.regions⟩
  · rw [get_block_map_set_block_map] at hm'
    split at hm'
    · rename_i hj
      obtain rfl := Option.some.inj hm'
      rw [hj]; exact hm
    · rename_i hj
      exact h.maps j m' (by simpa using Ne.symm hj) hm'
  · have h1 := h.ref.ref_cnt hb
    have h2 := hr.ref_cnt hb
    have h3 := h.unshared b hb hlt
    have h4 : ((s.set_block_map i m).get_block b).ref_cnt = (s.get_block b).ref_cnt := rfl
    omega

end

end BlockManager

end LMServe
