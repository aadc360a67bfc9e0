import LMServe.HashTable

/-!
# What reclaiming a block forgets

Several blocks may carry one hash while the table lists one of them, and `alloc_blocks`, `free` and
`free_and_drop_cache` remove table entries by hash. So the entry of a block that stays valid is lost
when another block with its hash is recycled or dropped, unless the allocation that recycles it
publishes a block under the same hash later on. No other operation loses an entry.
-/

namespace LMServe
open Hoare Chunk

namespace BlockManager

/-! ### What an operation reclaims -/

section
variable [Hasher]

/-- The hash under which a new block for the tokens from `off` on is published, if they fill it. -/
def new_hash (block_size : Nat) (T : List Nat) (off : Nat) : Option Nat :=
  if off + block_size ≤ T.length then some (compute_hash (T.take (off + block_size))) else none

/-- For each block a loop of `alloc_blocks` takes: the hash of its old content, and the one it is
published under. -/
def recycled_at (m : BlockManager) (T offsets : List Nat) : List (Nat × Option Nat) :=
  (m.block_allocator.free_block_ids.zip offsets).map fun p =>
    ((m.get_block p.1).hash, new_hash m.block_size T p.2)

omit [Hasher] in
/-- The slots of a sequence once its last block is filled up. -/
def filled_up_slots (m : BlockManager) (seq : Sequence) : Nat :=
  let slots := m.get_num_allocated_slots seq.seq_id
  if slots = 0 then 0
  else match m.get_last_block_id seq.seq_id with
    | some b => slots + min ((m.get_block b).get_num_empty_slots m.block_size) (seq.token_ids.length - slots)
    | none => slots

def recycled (m : BlockManager) (seq : Sequence) : List (Nat × Option Nat) :=
  m.recycled_at seq.token_ids (step_by (m.filled_up_slots seq) seq.token_ids.length m.block_size)

/-- A recycled block carried hash `h`, and neither it nor a later one is published under `h`. -/
def evicts (h : Nat) : List (Nat × Option Nat) → Bool
  | [] => false
  | p :: rest => (p.1 = h && (p :: rest).all fun q => q.2 ≠ some h) || evicts h rest

end

/-! ### Allocating -/

section
variable [Hasher] {n h : Nat} {m m' : BlockManager}

theorem alloc_new_block_table {held : List Nat} {T : List Nat} {off y : Nat} (hinv : m.RefInv n held)
    (hrun : alloc_new_block T off m = .ok y m') :
    m'.hash_block_table.lookup h =
      (if new_hash m.block_size T off = some h then some y
      else if (m.get_block y).hash = h then none else m.hash_block_table.lookup h) ∧
    (new_hash m.block_size T off = some h → (m'.get_block y).hash = h) := by
  have hren := alloc_new_block_ok hinv hrun
  have hlen : (m'.tokens y).length = min (off + m.block_size) T.length - off := by
    rw [hren.tokens, length_slice]; omega
  have hpos := m.block_size_pos
  by_cases hfull : off + m.block_size ≤ T.length
  · obtain ⟨hhash, htable⟩ := hren.published (by omega)
    rw [Nat.min_eq_left hfull] at hhash htable
    rw [new_hash, if_pos hfull, htable, Table.lookup_insert_eq, Table.lookup_erase_eq]
    refine ⟨?_, fun e => hhash.trans (Option.some.inj e)⟩
    simp only [Option.some.injEq, eq_comm]
  · obtain ⟨-, htable⟩ := hren.unpublished (by omega)
    rw [new_hash, if_neg hfull, htable, Table.lookup_erase_eq]
    refine ⟨?_, fun e => by cases e⟩
    simp only [reduceCtorEq, if_false, eq_comm]

/-- The table lists, under `h`, `b` or a block in use with this hash. -/
def ListedAs (h b : Nat) (m : BlockManager) : Prop :=
  ∃ x, m.hash_block_table.lookup h = some x ∧
    (x = b ∨ (m.get_block x).hash = h ∧ x ∉ m.block_allocator.free_block_ids)

/-- What becomes of the entry of `h` while blocks are recycled. -/
theorem alloc_new_blocks_table (b : Nat) {T : List Nat} (offsets : List Nat) :
    ∀ {m m' : BlockManager} {held ids : List Nat}, m.RefInv n held →
    offsets.mapM (alloc_new_block T) m = .ok ids m' →
    ((evicts h (m.recycled_at T offsets) = true ∨ (m.hash_block_table.lookup h = none ∧
        ∀ q ∈ m.recycled_at T offsets, q.2 ≠ some h)) → m'.hash_block_table.lookup h = none) ∧
    (evicts h (m.recycled_at T offsets) = false →
      (m.ListedAs h b ∨ ∃ q ∈ m.recycled_at T offsets, q.2 = some h) → m'.ListedAs h b) := by
  induction offsets with
  | nil =>
    intro m m' held ids _ hrun
    rw [List.mapM_nil] at hrun
    obtain ⟨-, rfl⟩ : _ ∧ m = m' := by simpa using hrun
    simp [recycled_at, evicts]
  | cons off offsets ih =>
    intro m m' held ids hinv hrun
    rw [List.mapM_cons] at hrun
    obtain ⟨y, m₁, hone, hrest⟩ := bind_ok.1 hrun
    obtain ⟨ys, m₂, hloop, hret⟩ := bind_ok.1 hrest
    obtain ⟨-, rfl⟩ : _ ∧ m₂ = m' := by simpa using hret
    have hinv₁ := ((alloc_new_block_refInv T off held).of_ok hinv hone).1
    have hren := alloc_new_block_ok hinv hone
    obtain ⟨htable, hnew⟩ := alloc_new_block_table (h := h) hinv hone
    have hnodup := hinv.count.free_nodup
    rw [hren.free, List.nodup_cons] at hnodup
    -- the blocks still to be taken are as before
    have hcons : m.recycled_at T (off :: offsets) =
        ((m.get_block y).hash, new_hash m.block_size T off) :: m₁.recycled_at T offsets := by
      rw [recycled_at, recycled_at, hren.free, List.zip_cons_cons, List.map_cons, hren.block_size]
      refine congrArg _ (List.map_congr_left fun p hp => ?_)
      rw [hren.other p.1 fun e => hnodup.1 (e ▸ (List.of_mem_zip hp).1)]
    obtain ⟨ih₁, ih₂⟩ := ih hinv₁ hloop
    rw [hcons]
    generalize m₁.recycled_at T offsets = rest at ih₁ ih₂
    simp only [evicts, List.all_cons, Bool.or_eq_true, Bool.or_eq_false_iff, Bool.and_eq_true,
      List.all_eq_true, List.forall_mem_cons, decide_eq_true_eq, List.exists_mem_cons_iff]
    constructor
    · rintro ((⟨hh, hy, hlater⟩ | hlater) | ⟨hnone, hy, hlater⟩)
      · refine ih₁ (.inr ⟨?_, hlater⟩)
        rw [htable, if_neg hy, if_pos hh]
      · exact ih₁ (.inl hlater)
      · refine ih₁ (.inr ⟨?_, hlater⟩)
        rw [htable, if_neg hy, hnone, ite_self]
    · rintro ⟨hno, hrest⟩ hlisted
      refine ih₂ hrest ?_
      by_cases hy : new_hash m.block_size T off = some h
      · exact .inl ⟨y, by rw [htable, if_pos hy], .inr ⟨hnew hy, hnodup.1⟩⟩
      by_cases hlater : ∃ q ∈ rest, q.2 = some h
      · exact .inr hlater
      rcases hlisted with ⟨x, hx, hxb⟩ | hy' | hlater'
      · have hh : (m.get_block y).hash ≠ h := fun hh => by
          rw [Bool.and_eq_false_iff] at hno
          rcases hno with hno | hno
          · exact of_decide_eq_false hno hh
          · rw [Bool.and_eq_false_iff] at hno
            rcases hno with hno | hno
            · exact of_decide_eq_false hno hy
            · rw [List.all_eq_false] at hno
              obtain ⟨q, hq, hqh⟩ := hno
              exact hlater ⟨q, hq, by simpa using hqh⟩
        refine .inl ⟨x, by rw [htable, if_neg hy, if_neg hh, hx], hxb.imp id ?_⟩
        rintro ⟨hxh, hfree⟩
        rw [hren.free, List.mem_cons, not_or] at hfree
        exact ⟨by rw [hren.other x hfree.1]; exact hxh, hfree.2⟩
      · exact absurd hy' hy
      · exact absurd hlater' hlater

/-- Filling the last block up touches no free block, and publishes only a block in use. -/
theorem fill_last_block_table {seq : Sequence} {b slots r : Nat} (hinv : m.RefInv n [])
    (hb : m.hash_block_table.lookup h = some b) (hslots : m.get_num_allocated_slots seq.seq_id = slots)
    (hrun : fill_last_block seq slots (seq.token_ids.length - slots) m = .ok r m') :
    r = m.filled_up_slots seq ∧ m'.ListedAs h b ∧ m'.block_size = m.block_size ∧
      m'.block_allocator.free_block_ids = m.block_allocator.free_block_ids ∧
      ∀ x ∈ m.block_allocator.free_block_ids, m'.get_block x = m.get_block x := by
  unfold fill_last_block at hrun
  unfold filled_up_slots
  rw [hslots]
  by_cases hzero : slots = 0
  · rw [if_pos hzero] at hrun ⊢
    obtain ⟨rfl, rfl⟩ : 0 = r ∧ m = m' := by simpa using hrun
    exact ⟨rfl, ⟨b, hb, .inl rfl⟩, rfl, rfl, fun _ _ => rfl⟩
  · rw [if_neg hzero] at hrun ⊢
    replace hrun := get_ok hrun
    cases hlast : m.get_last_block_id seq.seq_id with
    | none => rw [hlast] at hrun; simp at hrun
    | some l =>
      rw [hlast] at hrun
      obtain ⟨map, hmap, hmem⟩ := get_last_block_id_mem hlast
      have hlt : l < n := hinv.lt_of_mem_map hmap hmem
      have hused : l ∉ m.block_allocator.free_block_ids := fun hfree => by
        have h₁ := ((hinv.count.mem_free l).1 hfree).2
        have h₂ := refs_pos_of_mem hmap hmem
        omega
      obtain ⟨block, m₁, hget, hrest⟩ := bind_ok.1 hrun
      obtain ⟨rfl, rfl⟩ := get_block_mut_ok hinv hlt hget
      dsimp only at hrest ⊢
      by_cases hpos : 0 < min ((m₁.get_block l).get_num_empty_slots m₁.block_size)
          (seq.token_ids.length - slots)
      · rw [if_pos hpos] at hrest
        obtain ⟨block, m₂, happ, hrest⟩ := bind_ok.1 hrest
        obtain ⟨-, rfl, -⟩ := append_tokens_ok happ
        obtain ⟨_, m₃, hpub, hret⟩ := bind_ok.1 hrest
        obtain ⟨rfl, rfl⟩ : _ = r ∧ m₃ = m' := by simpa using hret
        obtain ⟨hbs, -, -, hfree, hother, -, hfull, hpart⟩ := publish_if_full_ok hlt hinv hpub
        refine ⟨rfl, ?_, hbs, hfree, fun x hx => hother x fun e => hused (e ▸ hx)⟩
        rcases Nat.lt_or_ge block.token_ids.length m₂.block_size with hlen | hlen
        · exact ⟨b, by rw [(hpart hlen).2]; exact hb, .inl rfl⟩
        · obtain ⟨hhash, htable⟩ := hfull hlen
          unfold ListedAs
          rw [htable]
          simp only [Table.lookup_insert_eq]
          by_cases hh : h = compute_hash (seq.token_ids.take (slots +
              min ((m₂.get_block l).get_num_empty_slots m₂.block_size) (seq.token_ids.length - slots)))
          · rw [if_pos hh]
            exact ⟨l, rfl, .inr ⟨by rw [hhash, hh], by rw [hfree]; exact hused⟩⟩
          · rw [if_neg hh]
            exact ⟨b, hb, .inl rfl⟩
      · rw [if_neg hpos] at hrest
        obtain ⟨rfl, rfl⟩ : slots = r ∧ m₁ = m' := by simpa using hrest
        exact ⟨by omega, ⟨b, hb, .inl rfl⟩, rfl, rfl, fun _ _ => rfl⟩

theorem alloc_blocks_table {seq : Sequence} {b r : Nat} (hinv : m.RefInv n [])
    (hb : m.hash_block_table.lookup h = some b) (hrun : alloc_blocks seq m = .ok r m') :
    (evicts h (m.recycled seq) = true → m'.hash_block_table.lookup h = none) ∧
      (evicts h (m.recycled seq) = false → m'.ListedAs h b) := by
  replace hrun := get_ok hrun
  obtain ⟨tokens, m₁, hsub, hrest⟩ := bind_ok.1 hrun
  obtain ⟨rfl, rfl, -⟩ := checked_sub_ok hsub
  obtain ⟨slots, m₂, hfill, hrest⟩ := bind_ok.1 hrest
  replace hrest := get_ok hrest
  obtain ⟨ids, m₃, hloop, hmap⟩ := bind_ok.1 hrest
  obtain ⟨rfl, hlisted, hbs, hfree, hsame⟩ := fill_last_block_table hinv hb rfl hfill
  have hinv₂ := (fill_last_block_refInv seq _ _).of_ok hinv hfill
  obtain ⟨hgone, hkept⟩ := alloc_new_blocks_table b _ hinv₂ hloop
  have hrecycled : m₂.recycled_at seq.token_ids (step_by (m₁.filled_up_slots seq)
      seq.token_ids.length m₂.block_size) = m₁.recycled seq := by
    rw [recycled, recycled_at, recycled_at, hfree, hbs]
    refine List.map_congr_left fun p hp => ?_
    rw [hsame p.1 (List.of_mem_zip hp).1]
  rw [hrecycled] at hgone hkept
  -- the new map
  have hend : m'.hash_block_table = m₃.hash_block_table ∧ m'.block_allocator = m₃.block_allocator := by
    obtain ⟨-, rfl⟩ : _ ∧ _ = m' := by simpa using modify_ok hmap
    split <;> exact ⟨rfl, rfl⟩
  unfold ListedAs BlockManager.get_block at hkept ⊢
  rw [hend.1, hend.2]
  exact ⟨fun h => hgone (.inl h), fun h => hkept h (.inl hlisted)⟩

end

end BlockManager

namespace BmOp

section
variable [Hasher] {n : Nat} {m m' : BlockManager}

/-- The operation reclaims a block with hash `h` and removes the entry of `h` with it. -/
def Loses (m : BlockManager) (h : Nat) : BmOp → Prop
  | alloc_blocks seq => BlockManager.evicts h (m.recycled seq) = true
  | free i => ∃ b ∈ m.dropped_from i fun map => map.filled_token_len / m.block_size,
      (m.get_block b).hash = h
  | free_and_drop_cache i => ∃ b ∈ m.dropped_from i fun _ => 0, (m.get_block b).hash = h
  | _ => False

instance (m : BlockManager) (h : Nat) : DecidablePred (Loses m h)
  | alloc_blocks _ => inferInstanceAs (Decidable (_ = true))
  | free _ | free_and_drop_cache _ => inferInstanceAs (Decidable (∃ b ∈ _, _))
  | init_prefix_cache_blocks _ | update_prefix_cache_blocks _ | reserve_blocks _ _ _
  | activate_reserved_blocks _ _ | pin_blocks_by_hashes _ _ | unpin_blocks _ | update_filled_len _ _
  | clear_cache => isFalse not_false

theorem lookup_block_id_isSome_iff {op : BmOp} (hinv : m.RefInv n []) (hop : op ≠ .clear_cache)
    (hrun : op.exec m = .ok .unit m') {h b : Nat} (hb : m.lookup_block_id h = some b)
    (hhash : (m'.get_block b).hash = h) : (m'.lookup_block_id h).isSome ↔ ¬ op.Loses m h := by
  obtain ⟨htable, -⟩ := BlockManager.lookup_block_id_eq_some.1 hb
  have hfound : m'.hash_block_table.lookup h = some b → (m'.lookup_block_id h).isSome := fun hk => by
    rw [BlockManager.lookup_block_id_eq_some.2 ⟨hk, hhash⟩]; rfl
  have hlost : m'.hash_block_table.lookup h = none → ¬ (m'.lookup_block_id h).isSome := fun hk => by
    simp [BlockManager.lookup_block_id, hk]
  -- the operations that reclaim nothing
  have hsame : ∀ {α : Type} {x : BM α}, Keeps BlockManager.hash_block_table x →
      (do let _ ← x : BM PUnit) m = .ok .unit m' → (m'.lookup_block_id h).isSome := by
    intro α x hx hrun
    obtain ⟨a, m₁, hx', hret⟩ := bind_ok.1 hrun
    cases hret
    exact hfound ((congrArg (·.lookup h) (hx.of_ok hx')).trans htable)
  have hdropped : ∀ {p : Prop} [Decidable p], m'.hash_block_table.lookup h =
      (if p then none else m.hash_block_table.lookup h) → ((m'.lookup_block_id h).isSome ↔ ¬ p) := by
    intro p _ hk
    by_cases hp : p
    · rw [if_pos hp] at hk
      exact iff_of_false (hlost hk) (not_not.2 hp)
    · rw [if_neg hp, htable] at hk
      exact iff_of_true (hfound hk) hp
  cases op with
  | alloc_blocks seq =>
    obtain ⟨r, m₁, hrun, hret⟩ := bind_ok.1 hrun
    cases hret
    obtain ⟨hgone, hkept⟩ := BlockManager.alloc_blocks_table hinv htable hrun
    cases hev : BlockManager.evicts h (m.recycled seq) with
    | true => exact iff_of_false (hlost (hgone hev)) (not_not.2 hev)
    | false =>
      obtain ⟨x, hx, hxb⟩ := hkept hev
      refine iff_of_true ?_ (by rw [Loses, hev]; exact Bool.false_ne_true)
      have hxh : (m'.get_block x).hash = h := by
        rcases hxb with rfl | ⟨hxh, -⟩
        · exact hhash
        · exact hxh
      rw [BlockManager.lookup_block_id_eq_some.2 ⟨hx, hxh⟩]
      rfl
  | free i => exact hdropped (BlockManager.free_table hinv hrun h)
  | free_and_drop_cache i => exact hdropped (BlockManager.free_and_drop_cache_table hinv hrun h)
  | init_prefix_cache_blocks seq =>
    exact iff_of_true (hsame (BlockManager.init_prefix_cache_blocks_table seq) hrun) not_false
  | update_prefix_cache_blocks seq =>
    exact iff_of_true (hsame (BlockManager.update_prefix_cache_blocks_table seq) hrun) not_false
  | reserve_blocks r T start =>
    exact iff_of_true (hsame (BlockManager.reserve_blocks_table r T start) hrun) not_false
  | activate_reserved_blocks r hash_values =>
    obtain ⟨a, m₁, hrun, hret⟩ := bind_ok.1 hrun
    cases hret
    obtain ⟨-, -, -, hactivated⟩ := BlockManager.activate_reserved_blocks_ok hrun
    refine iff_of_true (hfound ?_) not_false
    rw [hactivated, BlockManager.published_block, htable, ite_self]
  | pin_blocks_by_hashes r hash_values =>
    exact iff_of_true (hsame (BlockManager.pin_blocks_by_hashes_table r hash_values) hrun) not_false
  | unpin_blocks r => exact iff_of_true (hsame (BlockManager.unpin_blocks_table r) hrun) not_false
  | update_filled_len i len =>
    refine iff_of_true (hfound ?_) not_false
    rw [(BlockManager.update_filled_len_table i len).of_ok hrun]
    exact htable
  | clear_cache => exact absurd rfl hop

/-- From any reachable state, by any operation but `clear_cache`: the cache entry of a block that still
carries its hash is found afterwards exactly if the operation does not reclaim another block with this
hash. -/
theorem cache_entry_survives_iff {bs : Nat} {hbs : 0 < bs} {ops : List BmOp}
    (hrun : Run Step (BlockManager.new bs hbs n) ops m) {op : BmOp} (hop : op ≠ .clear_cache)
    (hs : Step m op m') {h b : Nat} (hb : m.lookup_block_id h = some b)
    (hhash : (m'.get_block b).hash = h) : (m'.lookup_block_id h).isSome ↔ ¬ op.Loses m h :=
  lookup_block_id_isSome_iff (run_refInv hrun) hop hs.2 hb hhash

end

/-- Two requests for the same prompt are computed in one batch; the first one is not to be cached. -/
def twiceComputed : List BmOp :=
  let a := Sequence.new 0 0 [1, 2] none false true
  let b := Sequence.new 1 1 [1, 2] none false false
  [.init_prefix_cache_blocks a, .init_prefix_cache_blocks b, .alloc_blocks a, .alloc_blocks b,
    .update_filled_len 0 2, .update_filled_len 1 2]

/-- Two ends of the first request: its block given up, and kept for the cache. -/
theorem exists_twice_computed :
    let _ := decimalHasher
    ∃ m m' m'', Run Step (BlockManager.new 2 (by decide) 2) twiceComputed m ∧ m.lookup_block_id 112 = some 1 ∧
      (m.get_block 0).hash = 112 ∧ (m.get_block 1).token_ids = [1, 2] ∧
      (Step m (.free_and_drop_cache 0) m' ∧ (m'.get_block 1).hash = 112 ∧
        (m'.get_block 1).token_ids = [1, 2] ∧ m'.lookup_block_id 112 = none) ∧
      Step m (.free 0) m'' ∧ (m''.get_block 1).hash = 112 ∧ ¬ Loses m 112 (.free 0) := by
  intro _
  have hfollow : (Run.follow next (BlockManager.new 2 (by decide) 2) twiceComputed).any (fun m =>
      (m.lookup_block_id 112 = some 1 ∧ (m.get_block 0).hash = 112 ∧ (m.get_block 1).token_ids = [1, 2]) &&
      ((next m (.free_and_drop_cache 0)).any fun m' => (m'.get_block 1).hash = 112 ∧
        (m'.get_block 1).token_ids = [1, 2] ∧ m'.lookup_block_id 112 = none) &&
      ((next m (.free 0)).any fun m'' => (m''.get_block 1).hash = 112 ∧ ¬ Loses m 112 (.free 0))) = true := by
    decide +kernel
  obtain ⟨m, hrun, hm⟩ := Run.exists_of_follow (fun _ _ _ => step_of_next) hfollow
  obtain ⟨hm, hfree⟩ := Bool.and_eq_true_iff.1 hm
  obtain ⟨hm, hdrop⟩ := Bool.and_eq_true_iff.1 hm
  obtain ⟨m', hnext, hm'⟩ := Option.any_eq_true _ _ |>.1 hdrop
  obtain ⟨m'', hnext', hm''⟩ := Option.any_eq_true _ _ |>.1 hfree
  obtain ⟨hentry, hfirst, htokens⟩ := of_decide_eq_true hm
  exact ⟨m, m', m'', hrun, hentry, hfirst, htokens, ⟨step_of_next hnext, of_decide_eq_true hm'⟩, step_of_next hnext',
    of_decide_eq_true hm''⟩

/-- Both blocks have the hash. The entry goes if the first one is given up, and stays if it is kept. -/
theorem cache_entry_survives_twice :
    let _ := decimalHasher
    ∃ m m', Run Step (BlockManager.new 2 (by decide) 2) twiceComputed m ∧
      m.lookup_block_id 112 = some 1 ∧ (m.get_block 0).hash = 112 ∧ Loses m 112 (.free_and_drop_cache 0) ∧
      Step m (.free 0) m' ∧ (m'.lookup_block_id 112).isSome := by
  intro _
  obtain ⟨m, m', m'', hrun, hb, hfirst, -, ⟨hs, hhash, -, hnone⟩, hfree, hhash', hkeeps⟩ := exists_twice_computed
  refine ⟨m, m'', hrun, hb, hfirst, not_not.1 fun hkeeps => ?_, hfree,
    (cache_entry_survives_iff hrun (by simp) hfree hb hhash').2 hkeeps⟩
  have hsome := (cache_entry_survives_iff hrun (by simp) hs hb hhash).2 hkeeps
  rw [hnone] at hsome
  cases hsome

/-- The entry of the second request's block goes with the block of the first. -/
theorem cache_entry_lost :
    let _ := decimalHasher
    ∃ m m', Run Step (BlockManager.new 2 (by decide) 2) twiceComputed m ∧
      Step m (.free_and_drop_cache 0) m' ∧ m.lookup_block_id 112 = some 1 ∧
      (m'.get_block 1).hash = 112 ∧ (m'.get_block 1).token_ids = (m.get_block 1).token_ids ∧
      ¬ (m'.lookup_block_id 112).isSome := by
  intro _
  obtain ⟨m, m', -, hrun, hb, -, htokens, ⟨hs, hhash, htokens', hnone⟩, -⟩ := exists_twice_computed
  exact ⟨m, m', hrun, hs, hb, hhash, htokens'.trans htokens.symm, by simp [hnone]⟩

end BmOp

end LMServe
