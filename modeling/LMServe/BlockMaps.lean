import LMServe.Pages

/-!
# What the operations do to the block maps

Whatever the state of the blocks, an operation on a sequence sets the map of this sequence and leaves
the other maps alone. `alloc_blocks` makes slots for all its tokens, a prefix lookup makes slots no
further than the tokens reach, and `update_filled_len` is the only one that can run into the assertion
on the fill level.
-/

namespace LMServe
open Hoare Chunk

/-- The slots of the map, if there is one, hold at most `n` tokens, and no more are filled than there
are slots. -/
def Sized (n : Nat) (m : Option BlockMap) : Prop :=
  ∀ b ∈ m, b.filled_token_len ≤ b.num_allocated_slots ∧ b.num_allocated_slots ≤ n

theorem Sized.none (n : Nat) : Sized n none := by simp [Sized]

theorem Sized.mono {n n' : Nat} {m : Option BlockMap} (h : Sized n m) (hn : n ≤ n') : Sized n' m :=
  fun b hb => ⟨(h b hb).1, Nat.le_trans (h b hb).2 hn⟩

theorem sized_some {n : Nat} {b : BlockMap} :
    Sized n (some b) ↔ b.filled_token_len ≤ b.num_allocated_slots ∧ b.num_allocated_slots ≤ n := by
  simp [Sized]

namespace BlockManager

section
variable {m m' : BlockManager}

theorem get_block_map_of_tables (h : m'.tables = m.tables) : m'.get_block_map = m.get_block_map := by
  simp only [tables, Prod.mk.injEq] at h
  funext i
  simp only [BlockManager.get_block_map, h.2.1]

theorem get_block_map_set (m : BlockManager) (i : Nat) (b : BlockMap) :
    (m.set_block_map i b).get_block_map = Function.update m.get_block_map i (some b) := by
  funext j
  rw [get_block_map_set_block_map]
  unfold Function.update
  split <;> simp [*]

theorem get_block_map_erase (m : BlockManager) (i : Nat) :
    BlockManager.get_block_map
        { m with seq_block_mapping_table := m.seq_block_mapping_table.erase i } =
      Function.update m.get_block_map i none := by
  funext j
  unfold BlockManager.get_block_map Function.update
  rw [Table.lookup_erase_eq]
  split <;> simp [*]

theorem Keeps.maps {α : Type} {x : BM α} (h : Keeps tables x) : Keeps BlockManager.get_block_map x := by
  intro m
  have := h m
  cases hx : x m with
  | ok a m' => rw [hx] at this; exact get_block_map_of_tables this
  | error e m' => rw [hx] at this; exact get_block_map_of_tables this

/-! ### Freeing and filling -/

theorem update_filled_len_maps {i len : Nat} (h : update_filled_len i len m = .ok .unit m') :
    m'.get_block_map = m.get_block_map ∧ m.get_block_map i = none ∨
      ∃ b, m.get_block_map i = some b ∧ len ≤ b.num_allocated_slots ∧
        m'.get_block_map =
          Function.update m.get_block_map i (some { b with filled_token_len := len }) := by
  replace h := get_ok h
  cases hm : m.get_block_map i with
  | none =>
    rw [hm] at h
    obtain rfl : m = m' := by simpa using h
    exact .inl ⟨rfl, rfl⟩
  | some b =>
    rw [hm] at h
    dsimp only at h
    split at h
    · obtain rfl : _ = m' := by simpa using h
      exact .inr ⟨b, rfl, ‹_›, get_block_map_set _ _ _⟩
    · simp at h

theorem free_maps {i : Nat} (h : free i m = .ok .unit m') :
    m'.get_block_map = Function.update m.get_block_map i none := by
  replace h := get_ok h
  cases hm : m.get_block_map i with
  | none =>
    rw [hm] at h
    obtain rfl : m = m' := by simpa using h
    rw [← hm, Function.update_eq_self]
  | some b =>
    rw [hm] at h
    have hkeep := (Keeps.maps (free_loop_tables _ _ _)).of_ok (modify_ok h)
    rw [hkeep, get_block_map_erase]

theorem free_and_drop_cache_maps {i : Nat} (h : free_and_drop_cache i m = .ok .unit m') :
    m'.get_block_map = Function.update m.get_block_map i none := by
  replace h := get_ok h
  cases hm : m.get_block_map i with
  | none =>
    rw [hm] at h
    obtain rfl : m = m' := by simpa using h
    rw [← hm, Function.update_eq_self]
  | some b =>
    rw [hm] at h
    have hkeep := (Keeps.maps (release_and_drop_tables _)).of_ok (modify_ok h)
    rw [hkeep, get_block_map_erase]

/-! ### Regions -/

theorem activate_reserved_blocks_maps (r : Nat) (hash_values : List Nat) :
    Keeps BlockManager.get_block_map (activate_reserved_blocks r hash_values) := by
  refine Keeps.get.bind fun m => ?_
  split
  · exact Keeps.pure _
  · refine Keeps.bind (Keeps.modify fun _ => rfl) fun _ => ?_
    exact (Keeps.maps (activate_all_tables _ _)).bind fun _ => Keeps.pure _

theorem unpin_blocks_maps (r : Nat) : Keeps BlockManager.get_block_map (unpin_blocks r) := by
  refine Keeps.get.bind fun m => ?_
  split
  · exact Keeps.pure _
  · refine Keeps.bind (Keeps.modify fun _ => rfl) fun _ => Keeps.bind ?_ fun _ => Keeps.pure _
    exact Keeps.maps (Keeps.forM (fun _ => on_allocator_tables _) _)

theorem pin_blocks_by_hashes_maps (r : Nat) (hash_values : List Nat) :
    Keeps BlockManager.get_block_map (pin_blocks_by_hashes r hash_values) :=
  (Keeps.maps (pin_loop_tables _)).bind fun _ => Keeps.bind (Keeps.modify fun _ => rfl) fun _ => Keeps.pure _

theorem reserve_blocks_maps [Hasher] (r : Nat) (T : List Nat) (start : Nat) :
    Keeps BlockManager.get_block_map (reserve_blocks r T start) := by
  refine Keeps.get.bind fun m => (Keeps.maps (reserve_loop_tables _ _)).bind fun pairs => ?_
  exact Keeps.ite (Keeps.pure _) (Keeps.bind (Keeps.modify fun _ => rfl) fun _ => Keeps.pure _)

theorem clear_cache_maps : Keeps BlockManager.get_block_map clear_cache := Keeps.modify fun _ => rfl

/-! ### Allocation and prefix lookup -/

variable [Hasher]

theorem alloc_blocks_maps {seq : Sequence} {r : Nat} (h : alloc_blocks seq m = .ok r m') :
    ∃ b, m'.get_block_map = Function.update m.get_block_map seq.seq_id (some b) ∧
      b.num_allocated_slots = seq.token_ids.length ∧
      b.filled_token_len = m.get_filled_token_len seq.seq_id ∧
      m.get_num_allocated_slots seq.seq_id ≤ seq.token_ids.length := by
  replace h := get_ok h
  obtain ⟨k, m₁, hsub, h⟩ := bind_ok.1 h
  obtain ⟨rfl, hm₁, hle⟩ := checked_sub_ok hsub
  obtain rfl : m = m₁ := hm₁.symm
  obtain ⟨slots, m₂, hfill, h⟩ := bind_ok.1 h
  replace h := get_ok h
  obtain ⟨ids, m₃, hnew, h⟩ := bind_ok.1 h
  have hmaps : m₃.get_block_map = m.get_block_map :=
    ((Keeps.maps (Keeps.mapM (fun _ => alloc_new_block_tables _ _) _)).of_ok hnew).trans
      ((Keeps.maps (fill_last_block_tables _ _ _)).of_ok hfill)
  obtain ⟨-, rfl⟩ : _ ∧ _ = m' := by simpa using modify_ok h
  rw [hmaps]
  cases hm : m.get_block_map seq.seq_id with
  | none =>
    refine ⟨_, by rw [get_block_map_set, hmaps], ?_, ?_, hle⟩
    · simp [get_num_allocated_slots, hm]
    · simp [get_filled_token_len, hm]
  | some b =>
    refine ⟨_, by rw [get_block_map_set, hmaps], ?_, ?_, hle⟩
    · simp only [get_num_allocated_slots, hm] at hle
      simp only [BlockMap.append_block_ids, get_num_allocated_slots, hm]
      omega
    · simp [BlockMap.append_block_ids, get_filled_token_len, hm]

theorem prefix_hits_length (s : BlockManager) (T : List Nat) (stop : Nat) (k : Nat) : ∀ start : Nat,
    (s.prefix_hits T stop ((List.range k).map fun j => start + j * s.block_size)).length = 0 ∨
      start + (s.prefix_hits T stop ((List.range k).map fun j => start + j * s.block_size)).length *
        s.block_size ≤ stop := by
  induction k with
  | zero => exact fun _ => .inl rfl
  | succ k ih =>
    intro start
    have hrange : (List.range (k + 1)).map (fun j => start + j * s.block_size) =
        start :: (List.range k).map fun j => (start + s.block_size) + j * s.block_size := by
      rw [List.range_succ_eq_map, List.map_cons, List.map_map]
      refine congrArg₂ _ (by simp) (List.map_congr_left fun j _ => ?_)
      simp only [Function.comp_apply, Nat.succ_eq_add_one, Nat.add_mul, Nat.one_mul]
      omega
    rw [hrange, prefix_hits]
    split
    · exact .inl rfl
    · split
      · right
        have hpos := s.block_size_pos
        rw [List.length_cons, Nat.add_mul, Nat.one_mul]
        rcases ih (start + s.block_size) with h0 | hle
        · rw [h0]; omega
        · omega
      · exact .inl rfl

theorem prefix_hits_fit (s : BlockManager) (T : List Nat) (start stop : Nat) :
    (s.prefix_hits T stop (step_by start stop s.block_size)).length = 0 ∨
      start + (s.prefix_hits T stop (step_by start stop s.block_size)).length * s.block_size ≤ stop :=
  prefix_hits_length s T stop _ start

/-- An existing map stays; a new one is full, filled and no longer than the tokens. -/
theorem init_prefix_cache_blocks_maps {seq : Sequence} {r : Nat}
    (h : init_prefix_cache_blocks seq m = .ok r m') :
    ∃ b, m'.get_block_map = Function.update m.get_block_map seq.seq_id (some b) ∧
      (m.get_block_map seq.seq_id = some b ∨
        m.get_block_map seq.seq_id = none ∧ Sized seq.token_ids.length (some b)) := by
  replace h := get_ok h
  cases hm : m.get_block_map seq.seq_id with
  | some b =>
    rw [hm] at h
    obtain ⟨-, rfl⟩ : _ ∧ m = m' := by simpa using h
    exact ⟨b, by rw [← hm, Function.update_eq_self], .inl rfl⟩
  | none =>
    rw [hm] at h
    obtain ⟨_, m₁, hretain, h⟩ := bind_ok.1 h
    have hmaps := (Keeps.maps (retain_all_tables _)).of_ok hretain
    obtain ⟨-, rfl⟩ : _ ∧ _ = m' := by simpa using modify_ok h
    refine ⟨_, by rw [get_block_map_set, hmaps], .inr ⟨rfl, sized_some.2 ⟨Nat.le_refl _, ?_⟩⟩⟩
    rcases prefix_hits_fit m seq.token_ids 0 seq.token_ids.length with h0 | hle
    · rw [get_prefix_cache_blocks, h0]; simp
    · rw [get_prefix_cache_blocks]; simpa using hle

theorem update_prefix_cache_blocks_maps {seq : Sequence} {r : Nat}
    (h : update_prefix_cache_blocks seq m = .ok r m') :
    ∃ b, m'.get_block_map = Function.update m.get_block_map seq.seq_id (some b) ∧
      (Sized seq.token_ids.length (m.get_block_map seq.seq_id) → Sized seq.token_ids.length (some b)) := by
  replace h := get_ok h
  cases hm : m.get_block_map seq.seq_id with
  | none =>
    rw [hm] at h
    obtain ⟨b, hb, hold | ⟨-, hsized⟩⟩ := init_prefix_cache_blocks_maps h
    · rw [hm] at hold; cases hold
    · exact ⟨b, hb, fun _ => hsized⟩
  | some b =>
    rw [hm] at h
    obtain ⟨ids, m₁, hrange, h⟩ := bind_ok.1 h
    obtain ⟨_, m₂, hretain, h⟩ := bind_ok.1 h
    have hmaps : m₂.get_block_map = m.get_block_map :=
      ((Keeps.maps (retain_all_tables _)).of_ok hretain).trans
        ((get_prefix_cache_blocks_range_keeps _ _ _ _).of_ok hrange)
    obtain ⟨-, rfl⟩ : _ ∧ _ = m' := by simpa using modify_ok h
    refine ⟨_, by rw [get_block_map_set, hmaps], fun hsized => sized_some.2 ⟨Nat.le_refl _, ?_⟩⟩
    obtain ⟨hfilled, hslots⟩ := sized_some.1 hsized
    replace hrange := get_ok hrange
    split at hrange
    · obtain ⟨rfl, -⟩ : _ = ids ∧ _ := by simpa using hrange
      have hround := le_div_ceil_mul (a := b.filled_token_len) m.block_size_pos
      rcases prefix_hits_fit m seq.token_ids
        (div_ceil b.filled_token_len m.block_size * m.block_size) seq.token_ids.length with h0 | hle
      · rw [h0]; dsimp only; omega
      · dsimp only; omega
    · simp at hrange

/-! ### Where the assertion on the fill level is not -/

/-- Not the assertion of `update_filled_len`. -/
def WithinSlots (e : Panic) : Prop := e ≠ .filledBeyondSlots

/-- What the managers raise when blocks are allocated. -/
def Allocating (e : Panic) : Prop := WithinSlots e ∧ e ≠ .outOfFuel

omit [Hasher] in
theorem Allocating.withinSlots {e : Panic} (h : Allocating e) : WithinSlots e := h.1

omit [Hasher] in
theorem allocating_of_elementary {e : Panic} (h : Elementary e) : Allocating e := ⟨h.1.2.1, h.2⟩

omit [Hasher] in
theorem checked_sub_stops {σ : Type} (a b : Nat) :
    Stops Allocating (checked_sub a b : EStateM Panic σ Nat) :=
  Stops.ite (Stops.pure _) (Stops.throw (by simp [Allocating, WithinSlots]))

theorem get_num_required_blocks_stops (seq : Sequence) :
    Stops Allocating (get_num_required_blocks seq) := by
  refine Stops.get.bind fun s => ?_
  split
  · exact checked_sub_stops _ _
  · exact checked_sub_stops _ _

theorem can_alloc_seq_stops (seq : Sequence) (w : Watermark) : Stops Allocating (can_alloc_seq seq w) :=
  (get_num_required_blocks_stops seq).bind fun _ => Stops.get.bind fun _ => Stops.pure _

omit [Hasher] in
theorem append_tokens_stops (block : Block) (l : List Nat) : Stops Allocating (append_tokens block l) :=
  Stops.get.bind fun _ => Stops.ite (Stops.pure _) (Stops.throw (by simp [Allocating, WithinSlots]))

theorem alloc_new_block_stops (T : List Nat) (off : Nat) : Stops Allocating (alloc_new_block T off) := by
  refine Stops.get.bind fun s => Stops.bind ?_ fun b => Stops.get.bind fun s₁ => ?_
  · exact (BlockAllocator.alloc_block_stops.mono fun _ => allocating_of_elementary).zoom
  · refine (Stops.modify _).bind fun _ => (append_tokens_stops _ _).bind fun block => ?_
    exact Stops.bind (Stops.modify _) fun _ => Stops.pure _

theorem fill_last_block_stops (seq : Sequence) (slots tokens : Nat) :
    Stops Allocating (fill_last_block seq slots tokens) := by
  refine Stops.ite (Stops.pure _) (Stops.get.bind fun s => ?_)
  split
  · exact Stops.throw (by simp [Allocating, WithinSlots])
  · refine Stops.bind (Stops.get.bind fun s => ?_) fun block => Stops.ite ?_ (Stops.pure _)
    · split
      · exact Stops.pure _
      · exact Stops.throw (by simp [Allocating, WithinSlots])
    · refine (append_tokens_stops _ _).bind fun block => ?_
      exact Stops.bind (Stops.modify _) fun _ => Stops.pure _

theorem alloc_blocks_stops (seq : Sequence) : Stops Allocating (alloc_blocks seq) := by
  refine Stops.get.bind fun s => (checked_sub_stops _ _).bind fun tokens => ?_
  refine (fill_last_block_stops _ _ _).bind fun slots => Stops.get.bind fun s₁ => ?_
  refine (Stops.mapM (fun off => alloc_new_block_stops _ off) _).bind fun ids => ?_
  exact (Stops.modify _).bind fun _ => Stops.pure _

end

end BlockManager

end LMServe
