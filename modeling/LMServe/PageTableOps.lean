import LMServe.PageTable

/-!
# Every manager operation keeps the page tables

For each operation, what it did when it returned, and that `PageInv` holds again. The operations
that take blocks are also shown to return whenever the free list is long enough: they stop with
`allBlocksInUse` or not at all.
-/

namespace LMServe
open Hoare Chunk

namespace BlockManager

variable {n : Nat} {held : List Nat} {s s' : BlockManager}

/-! ### Taking blocks -/

/-- Only the blocks `ids` and the table were written. -/
structure Rewritten (ids : List Nat) (s s' : BlockManager) : Prop where
  block_size : s'.block_size = s.block_size
  maps : s'.seq_block_mapping_table = s.seq_block_mapping_table
  regions : s'.reserved_blocks_table = s.reserved_blocks_table
  other : ∀ x, x ∉ ids → s'.get_block x = s.get_block x
  table : ∀ k x, s'.hash_block_table.lookup k = some x →
    x ∈ ids ∨ s.hash_block_table.lookup k = some x

theorem Rewritten.refl (ids : List Nat) (s : BlockManager) : Rewritten ids s s :=
  ⟨rfl, rfl, rfl, fun _ _ => rfl, fun _ _ h => .inr h⟩

theorem Rewritten.refs {ids : List Nat} (h : Rewritten ids s s') (b : Nat) : s'.refs b = s.refs b := by
  simp only [BlockManager.refs, h.maps, h.regions]

theorem Rewritten.get_block_map {ids : List Nat} (h : Rewritten ids s s') (i : Nat) :
    s'.get_block_map i = s.get_block_map i := by
  simp only [BlockManager.get_block_map, h.maps]

theorem Rewritten.trans {ids ids' : List Nat} {s'' : BlockManager} (h : Rewritten ids s s')
    (h' : Rewritten ids' s' s'') : Rewritten (ids ++ ids') s s'' := by
  refine ⟨h'.block_size.trans h.block_size, h'.maps.trans h.maps, h'.regions.trans h.regions,
    fun x hx => ?_, fun k x hx => ?_⟩
  · rw [List.mem_append, not_or] at hx
    rw [h'.other x hx.2, h.other x hx.1]
  · rcases h'.table k x hx with hx | hx
    · exact .inl (List.mem_append_right _ hx)
    · exact (h.table k x hx).imp (List.mem_append_left _) id

/-- The blocks written are new ones, from the front of the free list. -/
structure Grown (ids : List Nat) (s s' : BlockManager) : Prop extends Rewritten ids s s' where
  free : s.block_allocator.free_block_ids = ids ++ s'.block_allocator.free_block_ids
  unused : ∀ b ∈ ids, s.refs b = 0

theorem Grown.refl (s : BlockManager) : Grown [] s s := ⟨.refl [] s, rfl, by simp⟩

theorem Grown.trans {ids ids' : List Nat} {s'' : BlockManager} (h : Grown ids s s')
    (h' : Grown ids' s' s'') : Grown (ids ++ ids') s s'' := by
  refine ⟨h.toRewritten.trans h'.toRewritten, ?_, fun b hb => ?_⟩
  · rw [h.free, h'.free, List.append_assoc]
  · rcases List.mem_append.1 hb with hb | hb
    · exact h.unused b hb
    · rw [← h.refs]; exact h'.unused b hb

theorem get_ok {σ ε α : Type} {f : σ → EStateM ε σ α} {s s' : σ} {a : α}
    (h : (get >>= f) s = .ok a s') : f s s = .ok a s' := by
  rw [bind_apply] at h; exact h

theorem modify_ok {σ ε α : Type} {g : σ → σ} {f : PUnit → EStateM ε σ α} {s s' : σ} {a : α}
    (h : (modify g >>= f) s = .ok a s') : f .unit (g s) = .ok a s' := by
  rw [bind_apply] at h; exact h

theorem append_tokens_ok {block block' : Block} {l : List Nat}
    (h : append_tokens block l s = .ok block' s') :
    block' = { block with token_ids := block.token_ids ++ l } ∧ s' = s ∧
      block.token_ids.length + l.length ≤ s.block_size := by
  replace h := get_ok h
  split at h
  · simp only [pure_apply, EStateM.Result.ok.injEq] at h
    exact ⟨h.1.symm, h.2.symm, ‹_›⟩
  · simp at h

theorem get_block_mut_ok {b : Nat} {block : Block} (hs : s.RefInv n held) (hb : b < n)
    (h : get_block_mut b s = .ok block s') : block = s.get_block b ∧ s' = s := by
  have hget := BlockAllocator.getElem?_pool (a := s.block_allocator) (b := b)
    (by rw [hs.pool_len]; exact hb)
  replace h := get_ok h
  rw [hget] at h
  obtain ⟨rfl, rfl⟩ : _ ∧ _ := by simpa using h
  exact ⟨rfl, rfl⟩

theorem checked_sub_ok {a b r : Nat} (h : checked_sub a b s = .ok r s') :
    r = a - b ∧ s' = s ∧ b ≤ a := by
  unfold checked_sub at h
  split at h
  · obtain ⟨rfl, rfl⟩ : _ ∧ _ := by simpa using h
    exact ⟨rfl, rfl, ‹_›⟩
  · simp at h

section
variable [Hasher]

/-- The effect of `alloc_new_block`: `b`, the head of the free list, now holds the tokens from
`off` on. If they fill it, it is published under their hash. -/
structure Renewed (T : List Nat) (off b : Nat) (s s' : BlockManager) : Prop where
  block_size : s'.block_size = s.block_size
  maps : s'.seq_block_mapping_table = s.seq_block_mapping_table
  regions : s'.reserved_blocks_table = s.reserved_blocks_table
  free : s.block_allocator.free_block_ids = b :: s'.block_allocator.free_block_ids
  other : ∀ x, x ≠ b → s'.get_block x = s.get_block x
  tokens : s'.tokens b = slice T off (min (off + s.block_size) T.length)
  published : (s'.tokens b).length = s.block_size →
    (s'.get_block b).hash = compute_hash (T.take (min (off + s.block_size) T.length)) ∧
    s'.hash_block_table = (s.hash_block_table.erase (s.get_block b).hash).insert
      (compute_hash (T.take (min (off + s.block_size) T.length))) b
  unpublished : (s'.tokens b).length < s.block_size → (s'.get_block b).hash = 0 ∧
    s'.hash_block_table = s.hash_block_table.erase (s.get_block b).hash

theorem publish_if_full_ok {b : Nat} {block : Block} {P : List Nat} (hb : b < n)
    (hs : s.RefInv n held) (h : publish_if_full b block P s = .ok .unit s') :
    s'.block_size = s.block_size ∧ s'.seq_block_mapping_table = s.seq_block_mapping_table ∧
      s'.reserved_blocks_table = s.reserved_blocks_table ∧
      s'.block_allocator.free_block_ids = s.block_allocator.free_block_ids ∧
      (∀ x, x ≠ b → s'.get_block x = s.get_block x) ∧ s'.tokens b = block.token_ids ∧
      (s.block_size ≤ block.token_ids.length → (s'.get_block b).hash = compute_hash P ∧
        s'.hash_block_table = s.hash_block_table.insert (compute_hash P) b) ∧
      (block.token_ids.length < s.block_size → (s'.get_block b).hash = block.hash ∧
        s'.hash_block_table = s.hash_block_table) := by
  have hlt : b < s.block_allocator.block_pool.length := by rw [hs.pool_len]; exact hb
  have hset : ∀ block', (s.set_block b block').get_block b = block' := fun block' => by
    rw [get_block_set_block, if_pos ⟨rfl, hlt⟩]
  have hother : ∀ block' x, x ≠ b → (s.set_block b block').get_block x = s.get_block x :=
    fun block' x hx => by rw [get_block_set_block, if_neg fun h => hx h.1]
  unfold publish_if_full at h
  simp only [modify_apply, EStateM.Result.ok.injEq, true_and, Block.get_num_empty_slots,
    Nat.sub_eq_zero_iff_le] at h
  by_cases hfull : s.block_size ≤ block.token_ids.length
  · rw [if_pos hfull] at h
    subst h
    have hb' := hset { block with hash := compute_hash P }
    refine ⟨rfl, rfl, rfl, rfl, hother _, ?_, fun _ => ⟨?_, rfl⟩,
      fun hlt => absurd hfull (Nat.not_le.2 hlt)⟩
    · exact (congrArg Block.token_ids hb' :)
    · exact (congrArg Block.hash hb' :)
  · rw [if_neg hfull] at h
    subst h
    exact ⟨rfl, rfl, rfl, rfl, hother _, congrArg Block.token_ids (hset block),
      fun h => absurd h hfull, fun _ => ⟨congrArg Block.hash (hset block), rfl⟩⟩

theorem alloc_new_block_ok {T : List Nat} {off b : Nat} (hs : s.RefInv n held)
    (h : alloc_new_block T off s = .ok b s') : Renewed T off b s s' := by
  obtain ⟨b', s₁, halloc, hrest⟩ := bind_ok.1 (get_ok h)
  obtain ⟨h₁, hq, hlt, -, -, hfree, hother⟩ := alloc_block_spec hs halloc
  replace hrest := modify_ok (get_ok hrest)
  obtain ⟨s₂, hs₂⟩ : ∃ s₂, s₂ =
    { s₁ with hash_block_table := s₁.hash_block_table.erase (s₁.get_block b').hash } := ⟨_, rfl⟩
  rw [← hs₂] at hrest
  have hbs₂ : s₂.block_size = s.block_size := by rw [hs₂]; exact hq.block_size
  have htable₂ : s₂.hash_block_table = s.hash_block_table.erase (s.get_block b').hash := by
    rw [hs₂, ← hq.table, ← (hq.content b').2]
  have h₂ : s₂.RefInv n (b' :: held) := by rw [hs₂]; exact h₁.erase_table _
  obtain ⟨block, s₃, happ, hwrite⟩ := bind_ok.1 hrest
  obtain ⟨hblock, rfl, hlen⟩ := append_tokens_ok happ
  have hblock' : block.token_ids = slice T off (min (off + s.block_size) T.length) := by
    rw [hblock]; rfl
  have hhash : block.hash = 0 := by rw [hblock]; rfl
  obtain ⟨_, s₄, hpub, hret⟩ := bind_ok.1 hwrite
  obtain ⟨rfl, rfl⟩ : b' = b ∧ s₄ = s' := by simpa using hret
  obtain ⟨hbs, hm, hr, hf, ho, htok, hpos, hneg⟩ := publish_if_full_ok hlt h₂ hpub
  refine ⟨hbs.trans hbs₂, ?_, ?_, ?_, fun x hx => ?_, htok.trans hblock', fun hfull => ?_,
    fun hpart => ?_⟩
  · rw [hm, hs₂]; exact hq.maps
  · rw [hr, hs₂]; exact hq.regions
  · rw [hfree, hf, hs₂]
  · rw [ho x hx, hs₂]; exact hother x hx
  · rw [htok] at hfull
    rw [← htable₂]
    exact hpos (by rw [hbs₂, hfull])
  · rw [htok] at hpart
    rw [← htable₂, ← hhash]
    exact hneg (by rw [hbs₂]; exact hpart)

theorem alloc_new_block_of_free (T : List Nat) (off : Nat) (hs : s.RefInv n held) :
    (s.block_allocator.free_block_ids ≠ [] → ∃ b s', alloc_new_block T off s = .ok b s') ∧
      (s.block_allocator.free_block_ids = [] →
        ∃ s', alloc_new_block T off s = .error .allBlocksInUse s') := by
  have hget : alloc_new_block T off s = _ := bind_apply get _ s
  simp only [get_apply] at hget
  rw [hget, bind_apply]
  cases halloc : on_allocator BlockAllocator.alloc_block s with
  | error e s₁ =>
    obtain ⟨a, ha, -⟩ := zoom_error.1 halloc
    obtain ⟨rfl, hfree⟩ := BlockAllocator.alloc_block_error hs.count ha
    exact ⟨fun hne => absurd hfree hne, fun _ => ⟨s₁, rfl⟩⟩
  | ok b s₁ =>
    obtain ⟨-, hq, -, -, -, hfree, -⟩ := alloc_block_spec hs halloc
    refine ⟨fun _ => ?_, fun hnil => by rw [hnil] at hfree; cases hfree⟩
    have hlen : (s₁.get_block b).clear.token_ids.length +
        (slice T off (min (off + s.block_size) T.length)).length ≤ s₁.block_size := by
      rw [hq.block_size]; simp [Block.clear]; omega
    simp only [bind_apply, get_apply, modify_apply, append_tokens, hlen, ↓reduceIte, pure_apply,
      publish_if_full]
    exact ⟨_, _, rfl⟩

/-- The loop of `alloc_blocks` returns exactly if the free list is long enough. -/
theorem alloc_new_blocks_of_free (T : List Nat) (offsets : List Nat) :
    ∀ {s : BlockManager} {held : List Nat}, s.RefInv n held →
    (offsets.length ≤ s.block_allocator.free_block_ids.length →
      ∃ ids s', offsets.mapM (alloc_new_block T) s = .ok ids s') ∧
    (s.block_allocator.free_block_ids.length < offsets.length →
      ∃ s', offsets.mapM (alloc_new_block T) s = .error .allBlocksInUse s') := by
  induction offsets with
  | nil =>
    intro s held _
    exact ⟨fun _ => ⟨[], s, by rw [List.mapM_nil]; rfl⟩, fun h => absurd h (Nat.not_lt_zero _)⟩
  | cons off offsets ih =>
    intro s held hs
    obtain ⟨hok, herr⟩ := alloc_new_block_of_free T off hs
    rw [List.mapM_cons, bind_apply]
    by_cases hnil : s.block_allocator.free_block_ids = []
    · obtain ⟨s', he⟩ := herr hnil
      rw [he, hnil]
      exact ⟨fun h => absurd h (by simp), fun _ => ⟨s', rfl⟩⟩
    · obtain ⟨b, s₁, hb⟩ := hok hnil
      have hren := alloc_new_block_ok hs hb
      obtain ⟨ih1, ih2⟩ := ih ((alloc_new_block_refInv T off held).of_ok hs hb).1
      rw [hb, hren.free]
      simp only [List.length_cons, Nat.add_le_add_iff_right, Nat.add_lt_add_iff_right, bind_apply]
      refine ⟨fun hle => ?_, fun hlt => ?_⟩
      · obtain ⟨ids, s', hrun⟩ := ih1 hle
        rw [hrun]; exact ⟨b :: ids, s', rfl⟩
      · obtain ⟨s', hrun⟩ := ih2 hlt
        rw [hrun]; exact ⟨s', rfl⟩

theorem Renewed.grown {T : List Nat} {off b : Nat} (h : Renewed T off b s s') (hb : s.refs b = 0)
    (hlen : (s'.tokens b).length ≤ s.block_size) : Grown [b] s s' := by
  refine ⟨⟨h.block_size, h.maps, h.regions, fun x hx => ?_, fun k x hx => ?_⟩, by simpa using h.free,
    by simpa using hb⟩
  · exact h.other x (by simpa using hx)
  · rcases Nat.lt_or_eq_of_le hlen with hpart | hfull
    · rw [(h.unpublished hpart).2, Table.lookup_erase_eq] at hx
      split at hx
      · cases hx
      · exact .inr hx
    · rw [(h.published hfull).2, Table.lookup_insert_eq, Table.lookup_erase_eq] at hx
      split at hx
      · exact .inl (by simp [Option.some.inj hx])
      · split at hx
        · cases hx
        · exact .inr hx

/-- The effect of `alloc_blocks` on a sequence with map `m` (`.empty` if it had none): the new blocks
`ids` are appended and every token has a slot; of the other blocks only the last one of `m` may have
been written. -/
structure Extended (seq : Sequence) (m : BlockMap) (ids : List Nat) (s s' : BlockManager) : Prop where
  block_size : s'.block_size = s.block_size
  map : s'.get_block_map seq.seq_id = some { m with
    block_ids := m.block_ids ++ ids, num_allocated_slots := seq.token_ids.length }
  maps : ∀ j, j ≠ seq.seq_id → s'.get_block_map j = s.get_block_map j
  regions : s'.reserved_blocks_table = s.reserved_blocks_table
  free : s.block_allocator.free_block_ids = ids ++ s'.block_allocator.free_block_ids
  len : ids.length = div_ceil seq.token_ids.length s.block_size - m.block_ids.length
  other : ∀ x, x ∉ m.block_ids.getLast?.toList ++ ids → s'.get_block x = s.get_block x
  unused : ∀ b ∈ ids, s.refs b = 0
  table : ∀ k x, s'.hash_block_table.lookup k = some x →
    x ∈ m.block_ids.getLast?.toList ++ ids ∨ s.hash_block_table.lookup k = some x

section
variable {R : List Nat → List Nat → Prop} {Occ : List Nat → Prop} {tok : Nat → List Nat}
  {skip : Option Nat} (hR : TokenRel R Occ)
include hR

theorem alloc_new_block_pageInv {T : List Nat} {off b : Nat} (hT : ∀ k, Occ (T.take k))
    (h : s.PageInv R Occ tok n skip held) (hrun : alloc_new_block T off s = .ok b s') :
    s'.PageInv R Occ tok n skip (b :: held) ∧ Renewed T off b s s' ∧ b < n ∧ s.refs b = 0 ∧
      b ∉ held := by
  have hren := alloc_new_block_ok h.ref hrun
  obtain ⟨hr, hb⟩ := (alloc_new_block_refInv T off held).of_ok h.ref hrun
  have hzero := ((h.ref.count.mem_free b).1 (by rw [hren.free]; simp)).2
  simp only [Nat.add_eq_zero_iff, List.count_eq_zero] at hzero
  obtain ⟨hrefs, hheld⟩ := hzero
  obtain ⟨hmaps, hregions⟩ := not_mem_of_refs_eq_zero hrefs
  have hlen : (s'.tokens b).length ≤ s.block_size := by rw [hren.tokens]; simp; omega
  -- an entry of the table for `b` left after erasing its hash is not the one under `0`
  have herase : (s.hash_block_table.erase (s.get_block b).hash).lookup 0 ≠ some b := by
    rw [Table.lookup_erase_eq]
    split
    · simp
    · rename_i hne; exact fun h0 => hne (h.zero b h0).symm
  refine ⟨h.write (b := b) hr (fun x hx => List.count_cons_of_ne (Ne.symm hx)) hren.block_size
    hren.maps hren.regions hren.other ?_ hlen ?_ ?_ (fun i m _ hm => hmaps i m hm) hregions ?_,
    hren, hb, hrefs, hheld⟩
  · intro x hx hxb
    rcases Nat.lt_or_eq_of_le hlen with hpart | hfull
    · rw [(hren.unpublished hpart).2, Table.lookup_erase_eq] at hx
      split at hx
      · cases hx
      · exact hx
    · rw [(hren.published hfull).2, Table.lookup_insert_eq, Table.lookup_erase_eq] at hx
      split at hx
      · exact absurd (Option.some.inj hx).symm hxb
      · split at hx
        · cases hx
        · exact hx
  · intro htag
    rcases Nat.lt_or_eq_of_le hlen with hpart | hfull
    · rw [(hren.unpublished hpart).2, (hren.unpublished hpart).1] at htag
      rcases htag with h0 | h0
      · exact absurd rfl h0
      · exact absurd h0 herase
    · have hend : off + s.block_size ≤ T.length := by
        rw [hren.tokens, length_slice] at hfull
        have := s.block_size_pos; omega
      rw [hren.tokens, (hren.published hfull).1, Nat.min_eq_left hend, ← last_block_take hend]
      exact ⟨_, hT _, rfl, by simp; omega, hR.refl _⟩
  · intro h0
    rcases Nat.lt_or_eq_of_le hlen with hpart | hfull
    · exact (hren.unpublished hpart).1
    · rw [(hren.published hfull).2, Table.lookup_insert_eq] at h0
      split at h0
      · rename_i hk; rw [(hren.published hfull).1]; exact hk.symm
      · exact absurd h0 herase
  · rw [hrefs, List.count_cons_self, List.count_eq_zero.2 hheld]

/-- The loop of `alloc_blocks`, for a map `m` in the making whose blocks are all full. -/
theorem alloc_new_blocks_pageInv {T : List Nat} (hT : ∀ k, Occ (T.take k)) (k : Nat) :
    ∀ {s s' : BlockManager} {held : List Nat} {m : BlockMap} {ids : List Nat},
    T.length - m.num_allocated_slots ≤ k → m.num_allocated_slots ≤ T.length →
    s.PageInv R Occ tok n skip held → PageOk R s.block_size s.get_block T m →
    m.num_allocated_slots = m.block_ids.length * s.block_size →
    (∀ b ∈ m.block_ids, 0 < s.refs b + held.count b) →
    (step_by m.num_allocated_slots T.length s.block_size).mapM (alloc_new_block T) s = .ok ids s' →
    s'.PageInv R Occ tok n skip (ids ++ held) ∧ Grown ids s s' ∧
      ids.length = div_ceil (T.length - m.num_allocated_slots) s.block_size ∧
      PageOk R s.block_size s'.get_block T
        { m with block_ids := m.block_ids ++ ids, num_allocated_slots := T.length } := by
  induction k with
  | zero =>
    intro s s' held m ids hk hle h hm _ _ hrun
    have hL : m.num_allocated_slots = T.length := by omega
    rw [step_by_nil s.block_size_pos (by omega), List.mapM_nil] at hrun
    obtain ⟨rfl, rfl⟩ : _ ∧ _ := by simpa using hrun
    rw [hL, Nat.sub_self, div_ceil_zero s.block_size_pos]
    refine ⟨h, Grown.refl s, rfl, ?_⟩
    rw [← hL, List.append_nil]; exact hm
  | succ k ih =>
    intro s s' held m ids hk hle h hm hfull hheld hrun
    rcases Nat.lt_or_eq_of_le hle with hlt | hL
    · rw [step_by_cons s.block_size_pos hlt, List.mapM_cons] at hrun
      obtain ⟨b, s₁, hb, hrun⟩ := bind_ok.1 hrun
      obtain ⟨ids', s₂, hids, hret⟩ := bind_ok.1 hrun
      obtain ⟨rfl, rfl⟩ : b :: ids' = ids ∧ s₂ = s' := by simpa using hret
      obtain ⟨h₁, hren, -, hrefs, hnot⟩ := alloc_new_block_pageInv hR hT h hb
      have hbs := s.block_size_pos
      have hlen : (s₁.tokens b).length ≤ s.block_size := by rw [hren.tokens]; simp; omega
      have hg := hren.grown hrefs hlen
      -- the blocks listed so far are not the new one
      have hne : ∀ x ∈ m.block_ids, x ∉ [b] := fun x hx hxb => by
        rw [List.mem_singleton] at hxb
        have := hheld x hx
        rw [hxb, hrefs, List.count_eq_zero.2 hnot] at this; omega
      have hm₁ : PageOk R s.block_size s₁.get_block T m := hm.congr fun x hx => by
        rw [hg.other x (hne x hx)]; exact ⟨rfl, rfl⟩
      have hsnoc := hm₁.snoc hbs hfull b
        (min (m.num_allocated_slots + s.block_size) T.length) (by omega) (by omega) (by omega)
        (by
          show R (s₁.tokens b) _
          rw [hren.tokens]; exact hR.refl _)
        (fun hstop => (hren.published (by rw [hren.tokens, length_slice]; omega)).1)
      have hdiv : div_ceil (T.length - m.num_allocated_slots) s.block_size =
          div_ceil (T.length - (m.num_allocated_slots + s.block_size)) s.block_size + 1 := by
        have h1 := length_step_by m.num_allocated_slots T.length s.block_size
        rw [step_by_cons hbs hlt, List.length_cons, length_step_by] at h1
        exact h1.symm
      rcases Nat.lt_or_ge (m.num_allocated_slots + s.block_size) T.length with hmore | hend
      · rw [Nat.min_eq_left (Nat.le_of_lt hmore)] at hsnoc
        obtain ⟨h₂, hg₂, hlen₂, hm₂⟩ := ih (m := { m with
            block_ids := m.block_ids ++ [b]
            num_allocated_slots := m.num_allocated_slots + s.block_size })
          (by simp only; omega) (by simp only; omega) h₁ (by rw [hren.block_size]; exact hsnoc)
          (by simp only [List.length_append, List.length_singleton]
              rw [hren.block_size, Nat.add_mul, hfull]; omega)
          (fun x hx => by
            rw [hg.refs]
            rcases List.mem_append.1 hx with hx | hx
            · have := hheld x hx
              rw [List.count_cons]; omega
            · rw [List.mem_singleton.1 hx, List.count_cons_self]; omega)
          (by rw [hren.block_size]; exact hids)
        rw [hren.block_size] at hlen₂ hm₂
        refine ⟨h₂.congr_held fun x => by simp [List.count_cons, List.count_append]; omega,
          hg.trans hg₂, ?_, ?_⟩
        · rw [List.length_cons, hlen₂, hdiv]
        · simpa using hm₂
      · rw [step_by_nil hbs hend, List.mapM_nil] at hids
        obtain ⟨rfl, rfl⟩ : _ ∧ _ := by simpa using hids
        rw [Nat.min_eq_right hend] at hsnoc
        refine ⟨h₁, hg, ?_, hsnoc⟩
        rw [hdiv, Nat.sub_eq_zero_of_le hend, div_ceil_zero hbs]; rfl
    · rw [step_by_nil s.block_size_pos (by omega), List.mapM_nil] at hrun
      obtain ⟨rfl, rfl⟩ : _ ∧ _ := by simpa using hrun
      rw [hL, Nat.sub_self, div_ceil_zero s.block_size_pos]
      refine ⟨h, Grown.refl s, rfl, ?_⟩
      rw [← hL, List.append_nil]; exact hm

theorem PageOk.last {T : List Nat} {m : BlockMap} {block : Nat → Block} {bs : Nat} (hbs : 0 < bs)
    (hm : PageOk R bs block T m) (hpos : 0 < m.num_allocated_slots) :
    ∃ b, m.block_ids.getLast? = some b ∧ m.block_ids[m.block_ids.length - 1]? = some b ∧
      0 < m.block_ids.length ∧ (m.block_ids.length - 1) * bs < m.num_allocated_slots ∧
      m.num_allocated_slots ≤ m.block_ids.length * bs ∧
      (block b).token_ids.length = m.num_allocated_slots - (m.block_ids.length - 1) * bs := by
  have hlen : 0 < m.block_ids.length := by
    rw [hm.len]; exact (lt_div_ceil_iff hbs).2 (by simpa using hpos)
  have hle : m.num_allocated_slots ≤ m.block_ids.length * bs := by
    rw [hm.len]; exact le_div_ceil_mul hbs
  have hlt : (m.block_ids.length - 1) * bs < m.num_allocated_slots := by
    rw [← lt_div_ceil_iff hbs, ← hm.len]; omega
  have hget : m.block_ids[m.block_ids.length - 1]? = some (m.block_ids.getLast (by
      intro h; rw [h] at hlen; exact absurd hlen (Nat.lt_irrefl 0))) := by
    rw [← List.getLast?_eq_getElem?, List.getLast?_eq_some_getLast]
  refine ⟨_, (List.getLast?_eq_getElem?).trans hget, hget, hlen, hlt, hle, ?_⟩
  rw [hm.length_page hR hget, Nat.sub_add_cancel hlen, Nat.min_eq_right hle]

theorem PageOk.fill {T : List Nat} {m : BlockMap} {block block' : Nat → Block} {bs stop b : Nat}
    (hbs : 0 < bs) (hm : PageOk R bs block T m)
    (hb : m.block_ids[m.block_ids.length - 1]? = some b) (hlen : 0 < m.block_ids.length)
    (hlow : (m.block_ids.length - 1) * bs < m.num_allocated_slots)
    (hle : m.num_allocated_slots ≤ stop) (hstop : stop ≤ m.block_ids.length * bs)
    (hT : stop ≤ T.length) (hone : ∀ i, m.block_ids[i]? = some b → i = m.block_ids.length - 1)
    (hother : ∀ x, x ≠ b → block' x = block x)
    (htok : (block' b).token_ids = (block b).token_ids ++ slice T m.num_allocated_slots stop)
    (hhash : stop = m.block_ids.length * bs → (block' b).hash = compute_hash (T.take stop)) :
    PageOk R bs block' T { m with num_allocated_slots := stop } := by
  have hmul : (m.block_ids.length - 1 + 1) * bs = m.block_ids.length * bs := by
    rw [Nat.sub_add_cancel hlen]
  have hold : ∀ {i}, i < m.block_ids.length - 1 → (i + 1) * bs ≤ m.num_allocated_slots := fun hi =>
    Nat.le_trans (Nat.mul_le_mul_right bs hi) (Nat.le_of_lt hlow)
  have hbelow : ∀ {i c}, m.block_ids[i]? = some c → c ≠ b → i < m.block_ids.length - 1 := by
    intro i c hc hcb
    obtain ⟨hi, -⟩ := List.getElem?_eq_some_iff.1 hc
    rcases Nat.lt_or_eq_of_le (Nat.le_sub_one_of_lt hi) with h | h
    · exact h
    · rw [h, hb] at hc; exact absurd (Option.some.inj hc).symm hcb
  refine ⟨?_, Nat.le_trans hm.filled_le hle, hT, fun i c hc => ?_, fun i c hc hi => ?_⟩
  · refine Nat.le_antisymm ?_ ((div_ceil_le_iff hbs).2 hstop)
    rw [hm.len]; exact div_ceil_mono hbs hle
  · by_cases hcb : c = b
    · subst hcb
      obtain rfl := hone i hc
      have hpage := hm.page _ c hc
      rw [hmul, Nat.min_eq_right (Nat.le_trans hle hstop)] at hpage
      simp only [htok, hmul]
      rw [Nat.min_eq_right hstop, ← slice_append_slice (Nat.le_of_lt hlow) hle]
      exact hR.append hpage _
    · rw [hother c hcb]
      have h1 := hold (hbelow hc hcb)
      have hpage := hm.page i c hc
      rw [Nat.min_eq_left h1] at hpage
      simp only
      rw [Nat.min_eq_left (Nat.le_trans h1 hle)]; exact hpage
  · by_cases hcb : c = b
    · subst hcb
      obtain rfl := hone i hc
      rw [hmul] at hi ⊢
      have hend : stop = m.block_ids.length * bs := Nat.le_antisymm hstop hi
      rw [← hend]; exact hhash hend
    · rw [hother c hcb]; exact hm.hash i c hc (hold (hbelow hc hcb))

omit hR in
/-- A block listed once in a map and nowhere else. -/
theorem PageInv.last_unshared {i : Nat} {m : BlockMap} {b j : Nat}
    (h : s.PageInv R Occ tok n none held) (hm : s.get_block_map i = some m)
    (hb : m.block_ids[j]? = some b) (hlt : (s.tokens b).length < s.block_size) :
    b < n ∧ held.count b = 0 ∧ (∀ k, m.block_ids[k]? = some b → k = j) ∧
      (∀ i' m', i' ≠ i → s.get_block_map i' = some m' → b ∉ m'.block_ids) ∧
      (∀ r ids, s.reserved_blocks_table.lookup r = some ids → b ∉ ids) ∧
      s.refs b + held.count b ≤ 1 := by
  have hmem := List.mem_of_getElem? hb
  have hbn := h.ref.lt_of_mem_map hm hmem
  have hcount := h.unshared b hbn hlt
  have hone : 0 < m.block_ids.count b := List.count_pos_iff.2 hmem
  have hrefs := count_le_refs hm b
  refine ⟨hbn, by omega, fun k hk => ?_, fun i' m' hi' hm' hmem' => ?_, fun r ids hr hmem' => ?_,
    hcount⟩
  · by_contra hne
    have := List.two_le_count hne hk hb
    omega
  · have h1 : 0 < m'.block_ids.count b := List.count_pos_iff.2 hmem'
    have h2 := count_add_count_le_refs hi' hm hm' b
    omega
  · have h1 : 0 < ids.count b := List.count_pos_iff.2 hmem'
    have h2 := Table.le_total (fun ids : List Nat => ids.count b) hr
    have h3 := Table.le_total (fun m : BlockMap => m.block_ids.count b) hm
    unfold refs at hcount; omega

theorem fill_last_block_pageInv {seq : Sequence} {m : BlockMap} {r : Nat}
    (h : s.PageInv R Occ tok n none held) (hm : s.get_block_map seq.seq_id = some m)
    (htok : tok seq.seq_id = seq.token_ids) (hT : ∀ k, Occ (seq.token_ids.take k))
    (hrun : fill_last_block seq m.num_allocated_slots
      (seq.token_ids.length - m.num_allocated_slots) s = .ok r s') :
    s'.PageInv R Occ tok n (some seq.seq_id) held ∧ Rewritten m.block_ids.getLast?.toList s s' ∧
      s'.block_allocator.free_block_ids = s.block_allocator.free_block_ids ∧
      PageOk R s.block_size s'.get_block seq.token_ids { m with num_allocated_slots := r } ∧
      (r = seq.token_ids.length ∨ r = m.block_ids.length * s.block_size) := by
  have hbs := s.block_size_pos
  have hpage := h.maps _ m (by simp) hm
  rw [htok] at hpage
  unfold fill_last_block at hrun
  by_cases hzero : m.num_allocated_slots = 0
  · rw [if_pos hzero] at hrun
    obtain ⟨rfl, rfl⟩ : 0 = r ∧ s = s' := by simpa using hrun
    refine ⟨h.skip_some _, .refl _ s, rfl, by rw [← hzero]; exact hpage, .inr ?_⟩
    rw [hpage.len, hzero, div_ceil_zero hbs, Nat.zero_mul]
  · rw [if_neg hzero] at hrun
    replace hrun := get_ok hrun
    obtain ⟨b, hlast, hget, hlen, hlow, hle, htoks⟩ := hpage.last hR hbs (Nat.pos_of_ne_zero hzero)
    have hsucc : (m.block_ids.length - 1) * s.block_size + s.block_size =
        m.block_ids.length * s.block_size := by
      rw [← Nat.succ_mul, Nat.succ_eq_add_one, Nat.sub_add_cancel hlen]
    have hid : s.get_last_block_id seq.seq_id = some b := by
      simp only [get_last_block_id, hm]; exact hlast
    rw [hid] at hrun
    obtain ⟨block, s₁, hmut, hrest⟩ := bind_ok.1 hrun
    have hbn := h.ref.lt_of_mem_map hm (List.mem_of_getElem? hget)
    obtain ⟨rfl, rfl⟩ := get_block_mut_ok h.ref hbn hmut
    have hslots := hpage.slots_le
    simp only [Block.get_num_empty_slots, htoks] at hrest
    by_cases hpos : 0 < min (s₁.block_size - (m.num_allocated_slots -
        (m.block_ids.length - 1) * s₁.block_size)) (seq.token_ids.length - m.num_allocated_slots)
    · rw [if_pos hpos] at hrest
      obtain ⟨stop, hstop⟩ : ∃ stop, stop = m.num_allocated_slots +
        min (s₁.block_size - (m.num_allocated_slots - (m.block_ids.length - 1) * s₁.block_size))
          (seq.token_ids.length - m.num_allocated_slots) := ⟨_, rfl⟩
      rw [← hstop] at hrest
      obtain ⟨block, s₂, happ, hwrite⟩ := bind_ok.1 hrest
      obtain ⟨hblock, rfl, -⟩ := append_tokens_ok happ
      obtain ⟨_, s₃, hpub, hret⟩ := bind_ok.1 hwrite
      obtain ⟨rfl, rfl⟩ : stop = r ∧ s₃ = s' := by simpa using hret
      have hblock' : block.token_ids = s₂.tokens b ++
          slice seq.token_ids m.num_allocated_slots stop := by rw [hblock]; rfl
      have htoks' : (s₂.tokens b).length = _ := htoks
      have hblen : block.token_ids.length = stop - (m.block_ids.length - 1) * s₂.block_size := by
        rw [hblock', List.length_append, htoks', length_slice]; omega
      obtain ⟨-, hcnt, hone, hmaps, hregions, hcount⟩ := h.last_unshared hm hget
        (by rw [htoks']; omega)
      obtain ⟨hbs₃, hmaps₃, hreg₃, hfree₃, hother, htok₃, hpubl, hunpubl⟩ :=
        publish_if_full_ok hbn h.ref hpub
      have hnot0 : s₂.hash_block_table.lookup 0 ≠ some b := fun h0 => by
        have := (h.tagged b hbn (.inr h0)).length hR
        omega
      have hnohash : (s₂.get_block b).hash = 0 := by
        by_contra h0
        have := (h.tagged b hbn (.inl h0)).length hR
        omega
      have hr : s₃.RefInv n held := (publish_if_full_refInv (E := NoFault) hbn block _).of_ok
        ⟨h.ref, by rw [hblock], by rw [hblock]⟩ hpub
      have hpage' : PageOk R s₂.block_size s₃.get_block seq.token_ids
          { m with num_allocated_slots := stop } := by
        refine hpage.fill hR hbs hget hlen hlow (by omega) (by omega) (by omega) hone hother ?_
          fun hend => (hpubl (by omega)).1
        exact htok₃.trans hblock'
      refine ⟨(h.skip_some _).write (b := b) hr (fun _ _ => rfl) hbs₃ hmaps₃ hreg₃ hother ?_ ?_ ?_ ?_
        (fun i' m' hi' hm' => hmaps i' m' (fun hii => hi' (by rw [hii])) hm') hregions hcount,
        ?_, hfree₃, hpage', ?_⟩
      · intro x hx hxb
        rcases Nat.lt_or_ge block.token_ids.length s₂.block_size with hpart | hfull
        · rwa [(hunpubl hpart).2] at hx
        · rw [(hpubl hfull).2, Table.lookup_insert_eq] at hx
          split at hx
          · exact absurd (Option.some.inj hx).symm hxb
          · exact hx
      · rw [htok₃]; omega
      · intro htag
        rcases Nat.lt_or_ge block.token_ids.length s₂.block_size with hpart | hfull
        · rw [(hunpubl hpart).1, (hunpubl hpart).2, hblock] at htag
          rcases htag with htag | htag
          · exact absurd hnohash htag
          · exact absurd htag hnot0
        · have hend : stop = m.block_ids.length * s₂.block_size := by omega
          have hlastp := hpage'.page _ b hget
          simp only [Nat.sub_add_cancel hlen] at hlastp
          rw [← hend, Nat.min_self, hend, ← hsucc, ← last_block_take (by omega), hsucc, ← hend]
            at hlastp
          exact ⟨_, hT stop, (hpubl hfull).1.symm, by simp; omega, hlastp⟩
      · intro h0
        rcases Nat.lt_or_ge block.token_ids.length s₂.block_size with hpart | hfull
        · rw [(hunpubl hpart).2] at h0; exact absurd h0 hnot0
        · rw [(hpubl hfull).2, Table.lookup_insert_eq] at h0
          split at h0
          · rename_i hk; rw [(hpubl hfull).1]; exact hk.symm
          · exact absurd h0 hnot0
      · rw [hlast]
        refine ⟨hbs₃, hmaps₃, hreg₃, fun x hx => hother x (by simpa using hx), fun k x hx => ?_⟩
        rcases Nat.lt_or_ge block.token_ids.length s₂.block_size with hpart | hfull
        · rw [(hunpubl hpart).2] at hx; exact .inr hx
        · rw [(hpubl hfull).2, Table.lookup_insert_eq] at hx
          split at hx
          · exact .inl (by simp [Option.some.inj hx])
          · exact .inr hx
      · omega
    · rw [if_neg hpos] at hrest
      obtain ⟨rfl, rfl⟩ : m.num_allocated_slots = r ∧ s₁ = s' := by simpa using hrest
      exact ⟨h.skip_some _, .refl _ _, rfl, hpage, by omega⟩

theorem alloc_blocks_pageInv {seq : Sequence} {r : Nat} (h : s.PageInv R Occ tok n none held)
    (htok : tok seq.seq_id = seq.token_ids) (hT : ∀ k, Occ (seq.token_ids.take k))
    (hrun : alloc_blocks seq s = .ok r s') :
    s'.PageInv R Occ tok n none held ∧
      ∃ ids, Extended seq ((s.get_block_map seq.seq_id).getD .empty) ids s s' := by
  have hbs := s.block_size_pos
  replace hrun := get_ok hrun
  obtain ⟨tokens, s₁, hsub, hrest⟩ := bind_ok.1 hrun
  obtain ⟨rfl, rfl, hle⟩ := checked_sub_ok hsub
  obtain ⟨r', s₂, hfill, hrest⟩ := bind_ok.1 hrest
  replace hrest := get_ok hrest
  obtain ⟨ids, s₃, hids, hrest⟩ := bind_ok.1 hrest
  obtain ⟨_, s₄, hmod, hret⟩ := bind_ok.1 hrest
  obtain ⟨-, rfl⟩ : _ ∧ s₄ = s' := by simpa using hret
  simp only [modify_apply, EStateM.Result.ok.injEq, true_and] at hmod
  obtain ⟨m, hm⟩ : ∃ m, m = (s₁.get_block_map seq.seq_id).getD .empty := ⟨_, rfl⟩
  rw [← hm]
  -- the state after filling the last block, whether or not there is a map
  obtain ⟨h₂, hw₂, hfree₂, hpage₂, hr', hlisted⟩ :
      s₂.PageInv R Occ tok n (some seq.seq_id) held ∧
      Rewritten m.block_ids.getLast?.toList s₁ s₂ ∧
      s₂.block_allocator.free_block_ids = s₁.block_allocator.free_block_ids ∧
      PageOk R s₁.block_size s₂.get_block seq.token_ids { m with num_allocated_slots := r' } ∧
      (r' = seq.token_ids.length ∨ r' = m.block_ids.length * s₁.block_size) ∧
      ∀ b ∈ m.block_ids, 0 < s₁.refs b := by
    cases hmap : s₁.get_block_map seq.seq_id with
    | none =>
      obtain rfl : m = .empty := by rw [hm, hmap]; rfl
      have hslots : s₁.get_num_allocated_slots seq.seq_id = 0 := by
        simp only [get_num_allocated_slots, hmap]
      rw [hslots] at hfill
      obtain ⟨rfl, rfl⟩ : 0 = r' ∧ s₁ = s₂ := by simpa [fill_last_block] using hfill
      exact ⟨h.skip_some _, .refl _ _, rfl, .empty hbs, .inr (by simp [BlockMap.empty]),
        fun b hb => by simp [BlockMap.empty] at hb⟩
    | some m₀ =>
      obtain rfl : m = m₀ := by rw [hm, hmap]; rfl
      have hslots : s₁.get_num_allocated_slots seq.seq_id = m.num_allocated_slots := by
        simp only [get_num_allocated_slots, hmap]
      rw [hslots] at hfill
      obtain ⟨h1, h2, h3, h4, h5⟩ := fill_last_block_pageInv hR h hmap htok hT hfill
      exact ⟨h1, h2, h3, h4, h5, fun b hb => refs_pos_of_mem hmap hb⟩
  have hr'le : r' ≤ seq.token_ids.length := hpage₂.slots_le
  -- the loop: nothing is left to do, or the blocks so far are full
  obtain ⟨h₃, hg, hlen, hpage₃⟩ : s₃.PageInv R Occ tok n (some seq.seq_id) (ids ++ held) ∧
      Grown ids s₂ s₃ ∧ ids.length = div_ceil (seq.token_ids.length - r') s₁.block_size ∧
      PageOk R s₁.block_size s₃.get_block seq.token_ids { m with
        block_ids := m.block_ids ++ ids, num_allocated_slots := seq.token_ids.length } := by
    rcases Nat.lt_or_eq_of_le hr'le with hlt | hL
    · have hfull : r' = m.block_ids.length * s₂.block_size := by rw [hw₂.block_size]; omega
      have := alloc_new_blocks_pageInv hR (m := { m with num_allocated_slots := r' }) hT _
        (Nat.le_refl _) hr'le h₂ (by rw [hw₂.block_size]; exact hpage₂) hfull
        (fun b hb => by rw [hw₂.refs]; have := hlisted b hb; omega) hids
      rw [hw₂.block_size] at this; exact this
    · rw [hL, step_by_nil s₂.block_size_pos (Nat.le_refl _), List.mapM_nil] at hids
      obtain ⟨rfl, rfl⟩ : _ ∧ _ := by simpa using hids
      refine ⟨h₂, Grown.refl s₂, by rw [hL, Nat.sub_self, div_ceil_zero hbs]; rfl, ?_⟩
      rw [List.append_nil, ← hL]; exact hpage₂
  have hmap₃ : s₃.get_block_map seq.seq_id = s₁.get_block_map seq.seq_id := by
    rw [hg.get_block_map, hw₂.get_block_map]
  have hs₄ : s₄ = s₃.set_block_map seq.seq_id { m with
      block_ids := m.block_ids ++ ids, num_allocated_slots := seq.token_ids.length } := by
    rw [← hmod, hmap₃]
    cases hmap : s₁.get_block_map seq.seq_id with
    | none =>
      obtain rfl : m = .empty := by rw [hm, hmap]; rfl
      simp only [get_num_allocated_slots, hmap, BlockMap.empty, Nat.sub_zero, List.nil_append]
    | some m₀ =>
      obtain rfl : m = m₀ := by rw [hm, hmap]; rfl
      simp only [get_num_allocated_slots, hmap] at hle
      simp only [get_num_allocated_slots, hmap, BlockMap.append_block_ids]
      rw [Nat.add_sub_cancel' hle]
  have hbs₃ : s₃.block_size = s₁.block_size := by rw [hg.block_size, hw₂.block_size]
  subst hs₄
  refine ⟨h₃.set_block_map (fun b => ?_) (by rw [htok, hbs₃]; exact hpage₃), ids, ?_⟩
  · rw [hmap₃]
    cases hmap : s₁.get_block_map seq.seq_id with
    | none =>
      obtain rfl : m = .empty := by rw [hm, hmap]; rfl
      simp [BlockMap.empty]; omega
    | some m₀ =>
      obtain rfl : m = m₀ := by rw [hm, hmap]; rfl
      simp [List.count_append]; omega
  · have hw := hw₂.trans hg.toRewritten
    refine ⟨hbs₃, ?_, fun j hj => ?_, hw.regions, ?_, ?_, hw.other, fun b hb => ?_, hw.table⟩
    · rw [get_block_map_set_block_map, if_pos rfl]
    · rw [get_block_map_set_block_map, if_neg hj, hw.get_block_map]
    · rw [← hfree₂, hg.free]; rfl
    · rcases hr' with hr' | hr'
      · have := hpage₂.len
        simp only at this
        rw [hlen, this, hr', Nat.sub_self, div_ceil_zero hbs, Nat.sub_self]
      · rw [hlen, hr', div_ceil_sub_mul hbs]
    · rw [← hw₂.refs]; exact hg.unused b hb

/-! ### The prefix cache -/

omit hR in
theorem prefix_hits_get {T : List Nat} {stop : Nat} (k : Nat) :
    ∀ {start b : Nat}, (s.prefix_hits T stop (step_by start stop s.block_size))[k]? = some b →
      start + (k + 1) * s.block_size ≤ stop ∧
      s.lookup_block_id (compute_hash (T.take (start + (k + 1) * s.block_size))) = some b := by
  have hbs := s.block_size_pos
  induction k with
  | zero =>
    intro start b hb
    rcases Nat.lt_or_ge start stop with hlt | hge
    · rw [step_by_cons hbs hlt] at hb
      unfold prefix_hits at hb
      dsimp only at hb
      split at hb
      · simp at hb
      · have hle : start + s.block_size ≤ stop := by omega
        rw [Nat.min_eq_left hle] at hb
        split at hb
        · rename_i b' hb'
          obtain rfl : b' = b := by simpa using hb
          simpa using ⟨hle, hb'⟩
        · simp at hb
    · rw [step_by_nil hbs hge] at hb; simp [prefix_hits] at hb
  | succ k ih =>
    intro start b hb
    rcases Nat.lt_or_ge start stop with hlt | hge
    · rw [step_by_cons hbs hlt] at hb
      unfold prefix_hits at hb
      dsimp only at hb
      split at hb
      · simp at hb
      · split at hb
        · rw [List.getElem?_cons_succ] at hb
          have hstep : start + s.block_size + (k + 1) * s.block_size =
              start + (k + 1 + 1) * s.block_size := by rw [Nat.succ_mul (k + 1)]; omega
          rw [← hstep]; exact ih hb
        · simp at hb
    · rw [step_by_nil hbs hge] at hb; simp [prefix_hits] at hb

/-- A block found under the hash of a prefix holds the end of that prefix. -/
theorem PageInv.hit {T : List Nat} {b : Nat} (h : s.PageInv R Occ tok n skip held) (off : Nat)
    (hT : ∀ k, Occ (T.take k)) (hle : off + s.block_size ≤ T.length)
    (hb : s.lookup_block_id (compute_hash (T.take (off + s.block_size))) = some b) :
    b < n ∧ (s.tokens b).length = s.block_size ∧
      R (s.get_block b).token_ids (slice T off (off + s.block_size)) ∧
      (s.get_block b).hash = compute_hash (T.take (off + s.block_size)) := by
  obtain ⟨hlt, hhash, htag⟩ := h.lookup hb
  refine ⟨hlt, htag.length hR, ?_, hhash⟩
  obtain ⟨P, hP, hk, hlen, hl⟩ := htag
  rw [← last_block_take hle]
  exact hR.hit hP (hT _) hk hlen (by simp; omega) hl

omit hR in
theorem PageOk.append_hits {T : List Nat} {block : Nat → Block} {bs : Nat} (hbs : 0 < bs)
    (ids : List Nat) : ∀ {m : BlockMap}, PageOk R bs block T m →
    m.num_allocated_slots = m.block_ids.length * bs →
    (∀ k b, ids[k]? = some b → m.num_allocated_slots + k * bs + bs ≤ T.length ∧
      R (block b).token_ids (slice T (m.num_allocated_slots + k * bs)
        (m.num_allocated_slots + k * bs + bs)) ∧
      (block b).hash = compute_hash (T.take (m.num_allocated_slots + k * bs + bs))) →
    PageOk R bs block T { m with
      block_ids := m.block_ids ++ ids
      num_allocated_slots := m.num_allocated_slots + ids.length * bs } := by
  induction ids with
  | nil => intro m hm _ _; simpa using hm
  | cons b ids ih =>
    intro m hm hfull hhits
    obtain ⟨hle, hpage, hhash⟩ := hhits 0 b rfl
    rw [Nat.zero_mul, Nat.add_zero] at hle hpage hhash
    have hsnoc := hm.snoc hbs hfull b (m.num_allocated_slots + bs) (by omega)
      (Nat.le_refl _) hle hpage fun _ => hhash
    have := ih hsnoc (by simp [Nat.add_mul, hfull]) fun k c hc => by
      have hkc := hhits (k + 1) c (by simpa using hc)
      have hk : m.num_allocated_slots + (k + 1) * bs = m.num_allocated_slots + bs + k * bs := by
        rw [Nat.succ_mul]; omega
      rw [hk] at hkc; exact hkc
    simp only [List.append_assoc, List.singleton_append] at this
    have hlen : m.num_allocated_slots + bs + ids.length * bs =
        m.num_allocated_slots + (b :: ids).length * bs := by
      rw [List.length_cons, Nat.succ_mul]; omega
    rw [hlen] at this; exact this

omit hR in
theorem PageInv.retain_all (h : s.PageInv R Occ tok n skip held) (ids : List Nat)
    (hids : ∀ b ∈ ids, b < n ∧ (s.tokens b).length = s.block_size) :
    ∃ s', forM ids (fun b => on_allocator (BlockAllocator.alloc_block_by_id b)) s = .ok .unit s' ∧
      s'.PageInv R Occ tok n skip (ids ++ held) ∧ Quiet s s' ∧
      s'.block_allocator.free_block_ids = s.block_allocator.free_block_ids.diff ids := by
  obtain ⟨s', hrun, hr, hq, hfree⟩ := retain_all_spec (fun b hb => (hids b hb).1) h.ref
  refine ⟨s', hrun, h.quiet hq hr fun b hb hlt => ?_, hq, hfree⟩
  have hnot : ids.count b = 0 := List.count_eq_zero.2 fun hmem => by
    have := (hids b hmem).2; omega
  rw [List.count_append, hnot, Nat.zero_add]; exact h.unshared b hb hlt

/-- The effect of attaching found blocks to a sequence with map `m` (`.empty` if it had none). -/
structure Attached (i : Nat) (m : BlockMap) (ids : List Nat) (s s' : BlockManager) : Prop where
  block_size : s'.block_size = s.block_size
  map : s'.get_block_map i = some ⟨m.block_ids ++ ids,
    m.num_allocated_slots + ids.length * s.block_size,
    m.num_allocated_slots + ids.length * s.block_size⟩
  maps : ∀ j, j ≠ i → s'.get_block_map j = s.get_block_map j
  table : s'.hash_block_table = s.hash_block_table
  regions : s'.reserved_blocks_table = s.reserved_blocks_table
  content : ∀ b, (s'.get_block b).token_ids = (s.get_block b).token_ids ∧
    (s'.get_block b).hash = (s.get_block b).hash
  free : s'.block_allocator.free_block_ids = s.block_allocator.free_block_ids.diff ids

/-- Attaching the blocks `ids` found for the tokens behind a map whose blocks are all full. -/
theorem PageInv.attach {i : Nat} {m : BlockMap}
    (h : s.PageInv R Occ tok n none held) (ids : List Nat) (hm : m = (s.get_block_map i).getD .empty)
    (hfull : m.num_allocated_slots = m.block_ids.length * s.block_size)
    (hT : ∀ k, Occ ((tok i).take k))
    (hids : ∀ k b, ids[k]? = some b →
      m.num_allocated_slots + (k + 1) * s.block_size ≤ (tok i).length ∧
      s.lookup_block_id (compute_hash ((tok i).take (m.num_allocated_slots +
        (k + 1) * s.block_size))) = some b) :
    ∃ s₁, forM ids (fun b => on_allocator (BlockAllocator.alloc_block_by_id b)) s = .ok .unit s₁ ∧
      let s' := s₁.set_block_map i ⟨m.block_ids ++ ids,
        m.num_allocated_slots + ids.length * s.block_size,
        m.num_allocated_slots + ids.length * s.block_size⟩
      s'.PageInv R Occ tok n none held ∧ Attached i m ids s s' := by
  have hbs := s.block_size_pos
  have hhit : ∀ k b, ids[k]? = some b → _ := fun k b hb =>
    h.hit hR (T := tok i) (m.num_allocated_slots + k * s.block_size) hT
      (by have := (hids k b hb).1; rw [Nat.succ_mul] at this; omega)
      (by
        have := (hids k b hb).2
        rw [Nat.succ_mul, ← Nat.add_assoc] at this; exact this)
  obtain ⟨s₁, hrun, h₁, hq, hfree⟩ := h.retain_all ids fun b hb => by
    obtain ⟨k, hk⟩ := List.getElem?_of_mem hb
    exact ⟨(hhit k b hk).1, (hhit k b hk).2.1⟩
  refine ⟨s₁, hrun, ?_⟩
  have hpage : PageOk R s.block_size s.get_block (tok i) m := by
    cases hmap : s.get_block_map i with
    | none => rw [hm, hmap]; exact .empty hbs
    | some m' => rw [hm, hmap]; exact h.maps i m' (by simp) hmap
  have hpage' := PageOk.append_hits hbs ids hpage hfull fun k b hb =>
    ⟨by have := (hids k b hb).1; rw [Nat.succ_mul] at this; omega, (hhit k b hb).2.2.1,
      (hhit k b hb).2.2.2⟩
  have hpage₁ := (hpage'.congr fun b _ => hq.content b).set_filled (Nat.le_refl _)
  constructor
  · refine (h₁.skip_some i).set_block_map (fun b => ?_) (by rw [hq.block_size]; exact hpage₁)
    rw [hq.get_block_map]
    cases hmap : s.get_block_map i with
    | none =>
      obtain rfl : m = .empty := by rw [hm, hmap]; rfl
      simp [BlockMap.empty]; omega
    | some m' =>
      obtain rfl : m = m' := by rw [hm, hmap]; rfl
      simp [List.count_append]; omega
  · refine ⟨hq.block_size, ?_, fun j hj => ?_, hq.table, hq.regions, hq.content, hfree⟩
    · rw [get_block_map_set_block_map, if_pos rfl]
    · rw [get_block_map_set_block_map, if_neg hj, hq.get_block_map]

/-- `init_prefix_cache_blocks` always returns: it does nothing, or it attaches the blocks found. -/
theorem init_prefix_cache_blocks_pageInv {seq : Sequence} (h : s.PageInv R Occ tok n none held)
    (htok : tok seq.seq_id = seq.token_ids) (hT : ∀ k, Occ (seq.token_ids.take k)) :
    ∃ r s', init_prefix_cache_blocks seq s = .ok r s' ∧ s'.PageInv R Occ tok n none held ∧
      ((∃ m, s.get_block_map seq.seq_id = some m ∧ s' = s) ∨
        (s.get_block_map seq.seq_id = none ∧
          Attached seq.seq_id .empty (s.get_prefix_cache_blocks seq.token_ids) s s')) := by
  have hrun : init_prefix_cache_blocks seq s = _ := bind_apply get _ s
  simp only [get_apply] at hrun
  cases hmap : s.get_block_map seq.seq_id with
  | some m =>
    simp only [hmap] at hrun
    exact ⟨0, s, hrun, h, .inl ⟨m, rfl, rfl⟩⟩
  | none =>
    simp only [hmap] at hrun
    obtain ⟨s₁, hfor, h', hatt⟩ := h.attach hR (i := seq.seq_id) (m := .empty)
      (s.get_prefix_cache_blocks seq.token_ids) (by rw [hmap]; rfl) (by simp [BlockMap.empty])
      (by rw [htok]; exact hT) fun k b hb => by
        rw [htok]; simpa [BlockMap.empty] using prefix_hits_get k hb
    rw [bind_apply, hfor] at hrun
    simp only [bind_apply, modify_apply, pure_apply] at hrun
    refine ⟨_, _, hrun, ?_, .inr ⟨rfl, ?_⟩⟩
    · simpa [BlockMap.empty] using h'
    · simpa [BlockMap.empty] using hatt

theorem update_prefix_cache_blocks_pageInv {seq : Sequence} (h : s.PageInv R Occ tok n none held)
    (htok : tok seq.seq_id = seq.token_ids) (hT : ∀ k, Occ (seq.token_ids.take k)) {m : BlockMap}
    (hmap : s.get_block_map seq.seq_id = some m) (hfilled : m.filled_token_len = m.num_allocated_slots)
    (hfull : m.num_allocated_slots = m.block_ids.length * s.block_size) :
    ∃ r s', update_prefix_cache_blocks seq s = .ok r s' ∧ s'.PageInv R Occ tok n none held ∧
      Attached seq.seq_id m (s.prefix_hits seq.token_ids seq.token_ids.length
        (step_by m.num_allocated_slots seq.token_ids.length s.block_size)) s s' := by
  have hbs := s.block_size_pos
  have hrun : update_prefix_cache_blocks seq s = _ := bind_apply get _ s
  simp only [get_apply, hmap] at hrun
  have hslots := (h.maps _ m (by simp) hmap).slots_le
  rw [htok] at hslots
  have hrange : get_prefix_cache_blocks_range seq.token_ids m.filled_token_len seq.token_ids.length s =
      .ok (s.prefix_hits seq.token_ids seq.token_ids.length
        (step_by m.num_allocated_slots seq.token_ids.length s.block_size)) s := by
    have hstart : div_ceil m.filled_token_len s.block_size * s.block_size = m.num_allocated_slots := by
      rw [hfilled, hfull, div_ceil_mul hbs]
    unfold get_prefix_cache_blocks_range
    rw [bind_apply, get_apply]
    simp only [hstart, Nat.min_self, hslots, ↓reduceIte, pure_apply]
  obtain ⟨s₁, hfor, h', hatt⟩ := h.attach hR (i := seq.seq_id) (m := m)
    (s.prefix_hits seq.token_ids seq.token_ids.length
      (step_by m.num_allocated_slots seq.token_ids.length s.block_size)) (by rw [hmap]; rfl) hfull
    (by rw [htok]; exact hT) fun k b hb => by rw [htok]; exact prefix_hits_get k hb
  rw [bind_apply, hrange] at hrun
  simp only [bind_apply, hfor, modify_apply, pure_apply, hfilled] at hrun
  exact ⟨_, _, hrun, h', hatt⟩

end

end

end BlockManager

end LMServe
