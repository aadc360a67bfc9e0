import LMServe.PageTableRegions
import LMServe.Allocation
import LMServe.Scheduling

/-!
# Footprints

What each operation of a manager may change, in a form that composes: `Owned … ids rids m₀ m` says
that from `m₀` to `m` the page tables were kept, only the maps of the sequences `ids` changed, and
only the regions `rids` are new. `KeysOk` says of the sequences in use that their ids are distinct
and that `tok` knows their tokens.
-/

namespace LMServe
open Hoare Chunk

theorem keys_perm {l l' : List InferTask} (h : l.Perm l') : (keys l).Perm (keys l') :=
  h.flatMap_right _

theorem key_mem_keys {t : InferTask} {l : List InferTask} {seq : Sequence} (ht : t ∈ l)
    (hs : seq ∈ t.seqs) : seq.key ∈ keys l :=
  List.mem_flatMap.2 ⟨t, ht, List.mem_map.2 ⟨seq, hs, rfl⟩⟩

/-- Distinct ids below `lim`, with the tokens `tok`, all of whose prefixes are in `Occ`. -/
structure KeysOk (Occ : List Nat → Prop) (tok : Nat → List Nat) (lim : Nat)
    (K : List (Nat × List Nat)) : Prop where
  nodup : (K.map Prod.fst).Nodup
  tok : ∀ p ∈ K, tok p.1 = p.2
  lt : ∀ p ∈ K, p.1 < lim
  occ : ∀ p ∈ K, ∀ k, Occ (p.2.take k)

section
variable {Occ : List Nat → Prop} {tok : Nat → List Nat} {lim : Nat} {K K' : List (Nat × List Nat)}

theorem KeysOk.subperm (h : KeysOk Occ tok lim K) (hK : K'.Subperm K) : KeysOk Occ tok lim K' := by
  have hmem : ∀ p ∈ K', p ∈ K := fun p hp => hK.subset hp
  refine ⟨?_, fun p hp => h.tok p (hmem p hp), fun p hp => h.lt p (hmem p hp),
    fun p hp => h.occ p (hmem p hp)⟩
  obtain ⟨l, hl, hsub⟩ := hK
  have h1 : (l.map Prod.fst).Nodup := (hsub.map Prod.fst).nodup h.nodup
  exact ((hl.map Prod.fst).nodup_iff).1 h1

theorem KeysOk.perm (h : KeysOk Occ tok lim K) (hK : K'.Perm K) : KeysOk Occ tok lim K' :=
  h.subperm hK.subperm

theorem KeysOk.disjoint (h : KeysOk Occ tok lim (K ++ K')) {p q : Nat × List Nat} (hp : p ∈ K)
    (hq : q ∈ K') : p.1 ≠ q.1 := by
  have := h.nodup
  rw [List.map_append, List.nodup_append] at this
  exact this.2.2 p.1 (List.mem_map.2 ⟨p, hp, rfl⟩) q.1 (List.mem_map.2 ⟨q, hq, rfl⟩)

end

/-! ### Footprints on one device -/

/-- Neither a subtraction below zero nor a block filled beyond its capacity. -/
def NoSizeFault (e : Panic) : Prop := e ≠ .subOverflow ∧ e ≠ .appendTokens

namespace BlockManager

/-- A change of the maps of the sequences `ids` that keeps the page tables; regions outside `rids`
are only given up. -/
structure Owned [Hasher] (R : List Nat → List Nat → Prop) (Occ : List Nat → Prop)
    (tok : Nat → List Nat) (n : Nat) (ids rids : List Nat) (m₀ m : BlockManager) : Prop where
  page : m.PageInv R Occ tok n none []
  block_size : m.block_size = m₀.block_size
  maps : ∀ j, j ∉ ids → m.get_block_map j = m₀.get_block_map j
  regions : ∀ r, r ∉ rids → m₀.reserved_blocks_table.lookup r = none →
    m.reserved_blocks_table.lookup r = none

/-- All blocks of the map, if there is one, are full and filled. -/
def Aligned (bs : Nat) (m : Option BlockMap) : Prop :=
  ∀ m' ∈ m, m'.filled_token_len = m'.num_allocated_slots ∧
    m'.num_allocated_slots = m'.block_ids.length * bs

section
variable [Hasher] {R : List Nat → List Nat → Prop} {Occ : List Nat → Prop} {tok : Nat → List Nat}
  {n : Nat} {ids ids' rids rids' : List Nat} {m₀ m₁ m m' : BlockManager}

theorem Owned.refl (h : m.PageInv R Occ tok n none []) : Owned R Occ tok n ids rids m m :=
  ⟨h, rfl, fun _ _ => rfl, fun _ _ hr => hr⟩

theorem Owned.mono (h : Owned R Occ tok n ids rids m₀ m) (hi : ∀ i ∈ ids, i ∈ ids')
    (hr : ∀ r ∈ rids, r ∈ rids') : Owned R Occ tok n ids' rids' m₀ m :=
  ⟨h.page, h.block_size, fun j hj => h.maps j fun hj' => hj (hi j hj'),
   fun r hr' => h.regions r fun hr'' => hr' (hr r hr'')⟩

theorem Owned.step (h : Owned R Occ tok n ids rids m₀ m) (hp : m'.PageInv R Occ tok n none [])
    (hbs : m'.block_size = m.block_size) (hr : m'.reserved_blocks_table = m.reserved_blocks_table)
    {i : Nat} (hi : i ∈ ids) (hm : ∀ j, j ≠ i → m'.get_block_map j = m.get_block_map j) :
    Owned R Occ tok n ids rids m₀ m' :=
  ⟨hp, hbs.trans h.block_size, fun j hj => (hm j fun hji => hj (hji ▸ hi)).trans (h.maps j hj),
   fun r hr' h0 => by rw [hr]; exact h.regions r hr' h0⟩

theorem Owned.still (h : Owned R Occ tok n ids rids m₀ m) (hp : m'.PageInv R Occ tok n none [])
    (hbs : m'.block_size = m.block_size)
    (hm : m'.seq_block_mapping_table = m.seq_block_mapping_table)
    (hr : ∀ r, r ∉ rids → m.reserved_blocks_table.lookup r = none →
      m'.reserved_blocks_table.lookup r = none) : Owned R Occ tok n ids rids m₀ m' :=
  ⟨hp, hbs.trans h.block_size, fun j hj => by
    rw [← h.maps j hj]; simp only [BlockManager.get_block_map, hm],
   fun r hr' h0 => hr r hr' (h.regions r hr' h0)⟩

/-! ### The operations -/

theorem update_filled_len_owned {i len : Nat} (hi : i ∈ ids) : Triple (Owned R Occ tok n ids rids m₀)
    (update_filled_len i len) (fun _ => Owned R Occ tok n ids rids m₀) NoSizeFault := by
  intro m h
  cases hrun : update_filled_len i len m with
  | error e m' => rw [update_filled_len_error hrun]; exact ⟨by decide, by decide⟩
  | ok r m' =>
    obtain ⟨h', ⟨-, rfl⟩ | ⟨m₁, -, -, rfl⟩⟩ := update_filled_len_pageInv h.page hrun
    · exact h
    · exact h.step h' rfl rfl hi fun j hj => by
        rw [get_block_map_set_block_map, if_neg hj]

theorem free_owned {E : Panic → Prop} {i : Nat} (hi : i ∈ ids) :
    Triple (Owned R Occ tok n ids rids m₀) (free i) (fun _ => Owned R Occ tok n ids rids m₀) E := by
  intro m h
  obtain ⟨m', hrun, h', ⟨-, rfl⟩ | ⟨m₁, -, he⟩⟩ := free_pageInv i h.page
  · rw [hrun]; exact h
  · rw [hrun]; exact h.step h' he.block_size he.regions hi he.maps

theorem free_and_drop_cache_owned {i : Nat} (hi : i ∈ ids) :
    Triple (Owned R Occ tok n ids rids m₀) (free_and_drop_cache i)
      (fun _ => Owned R Occ tok n ids rids m₀) AnyError := by
  intro m h
  obtain ⟨m', hrun, h', ⟨-, rfl⟩ | ⟨m₁, -, he⟩⟩ := free_and_drop_cache_pageInv i h.page
  · rw [hrun]; exact h
  · rw [hrun]; exact h.step h' he.block_size he.regions hi he.maps

theorem clear_cache_owned : Triple (Owned R Occ tok n ids rids m₀) clear_cache
    (fun _ => Owned R Occ tok n ids rids m₀) AnyError :=
  Triple.modify fun _ h => h.still (clear_cache_pageInv h.page) rfl rfl fun _ _ hr => hr

theorem activate_reserved_blocks_owned (r : Nat) (hash_values : List Nat) :
    Triple (Owned R Occ tok n ids rids m₀) (activate_reserved_blocks r hash_values)
      (fun _ => Owned R Occ tok n ids rids m₀) AnyError := by
  intro m h
  obtain ⟨a, m', hrun, h', ⟨-, rfl⟩ | ⟨bs, -, he⟩⟩ :=
    activate_reserved_blocks_pageInv r hash_values h.page
  · rw [hrun]; exact h
  · rw [hrun]
    refine h.still h' he.block_size he.maps fun r' _ hr' => ?_
    rw [he.regions, Table.lookup_erase_eq]
    split
    · rfl
    · exact hr'

theorem unpin_blocks_owned (r : Nat) : Triple (Owned R Occ tok n ids rids m₀) (unpin_blocks r)
    (fun _ => Owned R Occ tok n ids rids m₀) AnyError := by
  intro m h
  obtain ⟨a, m', hrun, h', hq⟩ := unpin_blocks_pageInv r h.page
  rw [hrun]
  refine h.still h' hq.block_size hq.maps fun r' _ hr' => ?_
  rw [hq.regions, Table.lookup_erase_eq]
  split
  · rfl
  · exact hr'

theorem get_num_required_blocks_owned {E : Panic → Prop} {seq : Sequence}
    (htok : tok seq.seq_id = seq.token_ids) : Triple (Owned R Occ tok n ids rids m₀)
    (get_num_required_blocks seq) (fun _ => Owned R Occ tok n ids rids m₀) E := by
  intro m h
  obtain ⟨k, hrun⟩ := get_num_required_blocks_returns h.page htok
  rw [hrun]; exact h

section
variable (hR : TokenRel R Occ) {seq : Sequence} (hi : seq.seq_id ∈ ids)
  (htok : tok seq.seq_id = seq.token_ids) (hT : ∀ k, Occ (seq.token_ids.take k))
include hR hi htok hT

theorem alloc_blocks_owned : Triple (Owned R Occ tok n ids rids m₀) (alloc_blocks seq)
    (fun _ => Owned R Occ tok n ids rids m₀) NoSizeFault := by
  intro m h
  cases hrun : alloc_blocks seq m with
  | error e m' => rw [alloc_blocks_error hR h.page htok hrun]; exact ⟨by decide, by decide⟩
  | ok r m' =>
    obtain ⟨h', ids', he⟩ := alloc_blocks_pageInv hR h.page htok hT hrun
    exact h.step h' he.block_size he.regions hi he.maps

/-- Attached blocks are full and filled. -/
theorem init_prefix_cache_blocks_owned {E : Panic → Prop} : Triple (Owned R Occ tok n ids rids m₀)
    (init_prefix_cache_blocks seq) (fun _ => Owned R Occ tok n ids rids m₀) E := by
  intro m h
  obtain ⟨r, m', hrun, h', ⟨_, _, rfl⟩ | ⟨-, he⟩⟩ :=
    init_prefix_cache_blocks_pageInv hR h.page htok hT
  · rw [hrun]; exact h
  · rw [hrun]; exact h.step h' he.block_size he.regions hi he.maps

theorem init_prefix_cache_blocks_aligned : Triple
    (fun m => Owned R Occ tok n ids rids m₀ m ∧ ∀ i ∈ ids, Aligned m₀.block_size (m.get_block_map i))
    (init_prefix_cache_blocks seq) (fun _ m => Owned R Occ tok n ids rids m₀ m ∧
      ∀ i ∈ ids, Aligned m₀.block_size (m.get_block_map i)) AnyError := by
  intro m ⟨h, hal⟩
  obtain ⟨r, m', hrun, h', ⟨_, _, rfl⟩ | ⟨-, he⟩⟩ :=
    init_prefix_cache_blocks_pageInv hR h.page htok hT
  · rw [hrun]; exact ⟨h, hal⟩
  · rw [hrun]
    refine ⟨h.step h' he.block_size he.regions hi he.maps, fun i hids => ?_⟩
    by_cases hseq : i = seq.seq_id
    · rw [hseq, he.map]
      rintro _ ⟨⟩
      simp [BlockMap.empty, h.block_size]
    · rw [he.maps i hseq]; exact hal i hids

theorem update_prefix_cache_blocks_owned : Triple
    (fun m => Owned R Occ tok n ids rids m₀ m ∧ Aligned m₀.block_size (m.get_block_map seq.seq_id))
    (update_prefix_cache_blocks seq) (fun _ => Owned R Occ tok n ids rids m₀) AnyError := by
  intro m ⟨h, hal⟩
  cases hmap : m.get_block_map seq.seq_id with
  | none =>
    have hinit : Triple (Owned R Occ tok n ids rids m₀) (init_prefix_cache_blocks seq)
        (fun _ => Owned R Occ tok n ids rids m₀) AnyError :=
      init_prefix_cache_blocks_owned hR hi htok hT
    have hrun : update_prefix_cache_blocks seq m = init_prefix_cache_blocks seq m := by
      have hrun : update_prefix_cache_blocks seq m = _ := bind_apply get _ m
      simpa only [get_apply, hmap] using hrun
    rw [hrun]; exact hinit m h
  | some m₁ =>
    obtain ⟨hfilled, hfull⟩ := hal m₁ hmap
    obtain ⟨r, m', hrun, h', he⟩ := update_prefix_cache_blocks_pageInv hR h.page htok hT hmap hfilled
      (by rw [h.block_size]; exact hfull)
    rw [hrun]; exact h.step h' he.block_size he.regions hi he.maps

end

section
variable (hR : TokenRel R Occ) (hz : ∀ P, Occ P → compute_hash P ≠ 0) {r : Nat}
  (hfresh : m₀.reserved_blocks_table.lookup r = none)
include hR hz hfresh

theorem reserve_blocks_owned {T : List Nat} (hT : ∀ k, Occ (T.take k)) (start : Nat) :
    Triple (Owned R Occ tok n ids [] m₀) (reserve_blocks r T start)
      (fun _ => Owned R Occ tok n ids [r] m₀) AnyError := by
  intro m h
  have hr := h.regions r (by simp) hfresh
  cases hrun : reserve_blocks r T start m with
  | error e m' => trivial
  | ok region m' =>
    have hm : Owned R Occ tok n ids [r] m₀ m := h.mono (fun _ hi => hi) (by simp)
    obtain ⟨h', ⟨-, rfl⟩ | ⟨reg, -, hreg, he⟩⟩ := reserve_blocks_pageInv hR hz hT h.page hr hrun
    · exact hm
    · refine hm.still h' he.block_size he.maps fun r' hr' h0 => ?_
      rw [he.regions, Table.lookup_insert_eq, if_neg (by rw [hreg]; simpa using hr')]
      exact h0

theorem pin_blocks_by_hashes_owned (hash_values : List Nat) :
    Triple (Owned R Occ tok n ids [] m₀) (pin_blocks_by_hashes r hash_values)
      (fun _ => Owned R Occ tok n ids [r] m₀) AnyError := by
  intro m h
  obtain ⟨reg, m', hrun, h', hreg, he⟩ := pin_blocks_by_hashes_pageInv hR hz hash_values h.page
    (h.regions r (by simp) hfresh)
  rw [hrun]
  have hm : Owned R Occ tok n ids [r] m₀ m := h.mono (fun _ hi => hi) (by simp)
  refine hm.still h' he.block_size he.maps fun r' hr' h0 => ?_
  rw [he.regions, Table.lookup_insert_eq, if_neg (by rw [hreg]; simpa using hr')]
  exact h0

end

end

end BlockManager

end LMServe
