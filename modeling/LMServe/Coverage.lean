import LMServe.CopyPlans
import LMServe.Filling
import LMServe.Sharing

/-!
# What a copy plan of dispatch covers

`copy_blocks` clamps two ranges of blocks on their own, pairs them up to the shorter one, and computes the new
fill level on the source alone. Where the host is filled up to the end of a block, and no further than the
slots on the GPU, both ranges end behind the new fill level.
-/

namespace LMServe
open Hoare Chunk BlockManager Ownership

/-- Where a range of blocks ends that is asked for up to `stop`. -/
def BlockMap.range_end (b : BlockMap) (bs stop : Nat) (include_partial_block : Bool) : Nat :=
  min (stop / bs + include_partial_block.toNat) (div_ceil b.num_allocated_slots bs)

section
variable {b : BlockMap} {bs stop : Nat}

/-- With the last, partial block, the range reaches `stop`. -/
theorem BlockMap.le_range_end (hbs : 0 < bs) (h : stop ≤ b.num_allocated_slots) :
    stop ≤ b.range_end bs stop true * bs := by
  have hslots := le_div_ceil_mul (a := b.num_allocated_slots) hbs
  have hstop := Nat.lt_div_mul_add hbs (a := stop)
  rcases Nat.le_total (stop / bs + true.toNat) (div_ceil b.num_allocated_slots bs) with hle | hle
  · rw [range_end, Nat.min_eq_left hle, Bool.toNat_true, Nat.add_mul]
    omega
  · rw [range_end, Nat.min_eq_right hle]
    exact h.trans hslots

/-- Without it, it ends with the last full block. -/
theorem BlockMap.range_end_full (hbs : 0 < bs) (h : stop ≤ b.num_allocated_slots) :
    b.range_end bs stop false = stop / bs := by
  unfold range_end
  rw [Bool.toNat_false, Nat.add_zero, Nat.min_eq_left]
  exact Nat.div_le_of_le_mul (Nat.mul_comm .. ▸ h.trans (le_div_ceil_mul hbs))

end

namespace BlockManager

section
variable [Hasher] {i start stop last : Nat} {p : Bool} {T ids : List Nat} {m : BlockManager}

theorem get_block_ids_range_ends
    (hpage : ∀ b, m.get_block_map i = some b → PageOk SameLength m.block_size m.get_block T b)
    (h : m.get_block_ids_range i start stop p = some (ids, last)) :
    ∃ b, m.get_block_map i = some b ∧ start / m.block_size < BlockMap.range_end b m.block_size stop p ∧
      ids = slice b.block_ids (start / m.block_size) (BlockMap.range_end b m.block_size stop p) ∧
      last = min (BlockMap.range_end b m.block_size stop p * m.block_size) b.filled_token_len := by
  unfold get_block_ids_range at h
  dsimp only at h
  split at h
  · cases h
  · rename_i hlt
    cases hb : m.get_block_map i with
    | none => rw [hb] at h; cases h
    | some b =>
      rw [hb] at h
      dsimp only at h
      split at h
      · cases h
      · rename_i hlen
        obtain ⟨hids, hlast⟩ := Prod.mk.inj (Option.some.inj h)
        have hok := hpage b hb
        rw [hok.len] at hids hlast hlen
        obtain ⟨e, he⟩ : ∃ e, e = BlockMap.range_end b m.block_size stop p := ⟨_, rfl⟩
        rw [← BlockMap.range_end, ← he] at hids hlast
        have hpos : start / m.block_size < e := by rw [he, BlockMap.range_end]; omega
        have hle : e ≤ div_ceil b.num_allocated_slots m.block_size := he ▸ Nat.min_le_right _ _
        refine ⟨b, rfl, he ▸ hpos, he ▸ hids.symm, ?_⟩
        rw [← he, ← hlast]
        -- the tokens of the last block reach to its end or to the last slot
        obtain ⟨k, rfl⟩ : ∃ k, e = k + 1 := Nat.exists_eq_succ_of_ne_zero (Nat.ne_of_gt (Nat.zero_lt_of_lt hpos))
        rw [Nat.add_sub_cancel]
        have hmem : b.block_ids[k]? = some (b.block_ids.getD k 0) := by
          rw [List.getD_eq_getElem?_getD, List.getElem?_eq_getElem (hok.len ▸ hle), Option.getD_some]
        have htokens := hok.length_page (TokenRel.lengths AnyPrefix) hmem
        have hstart : k * m.block_size < b.num_allocated_slots := (lt_div_ceil_iff m.block_size_pos).1 hle
        have hfilled := hok.filled_le
        rw [htokens, Nat.add_mul]
        omega

end

/-- The maps describe the tokens `tok`, as far as lengths go. -/
structure Paged [Hasher] (bs : Nat) (tok : Nat → List Nat) (m : BlockManager) : Prop where
  block_size : m.block_size = bs
  maps : ∀ i b, m.get_block_map i = some b → PageOk SameLength bs m.get_block (tok i) b

end BlockManager

namespace Scheduler

/-- The plan `mapping` pairs the blocks of `src` and `dst` at the same place of the maps of `seq`, from the
one that the fill level of `dst` lies in; the new level `filled_end` is higher, and not behind the blocks
paired, what `src` has filled, or the slots on `dst`. -/
structure Covers (s : Scheduler) (bs : Nat) (seq : Sequence) (src dst : Device) (mapping : BlockMapping)
    (filled_end : Nat) : Prop where
  entries : ∀ (k : Nat) (e : BlockMappingEntry), mapping[k]? = some e → ∃ src_map dst_map,
    (s.get_block_manager src).get_block_map seq.seq_id = some src_map ∧
    (s.get_block_manager dst).get_block_map seq.seq_id = some dst_map ∧
    src_map.block_ids[(s.get_block_manager dst).get_filled_token_len seq.seq_id / bs + k]? = some e.src_block_id ∧
    dst_map.block_ids[(s.get_block_manager dst).get_filled_token_len seq.seq_id / bs + k]? = some e.dst_block_id
  covered : ∀ q, (s.get_block_manager dst).get_filled_token_len seq.seq_id ≤ q → q < filled_end →
    q / bs - (s.get_block_manager dst).get_filled_token_len seq.seq_id / bs < mapping.length
  rises : (s.get_block_manager dst).get_filled_token_len seq.seq_id < filled_end
  le_filled : filled_end ≤ (s.get_block_manager src).get_filled_token_len seq.seq_id
  le_slots : filled_end ≤ (s.get_block_manager dst).get_num_allocated_slots seq.seq_id

/-- What a plan between two maps consists of; it is asked for up to `stop`. -/
structure Planned (bs : Nat) (src_map dst_map : BlockMap) (stop : Nat) (p : Bool) (mapping : BlockMapping)
    (filled_end : Nat) : Prop where
  stop_eq : stop = min src_map.filled_token_len dst_map.num_allocated_slots
  below : dst_map.filled_token_len < stop
  starts : dst_map.filled_token_len / bs < BlockMap.range_end src_map bs stop p
  src_filled : src_map.filled_token_len ≤ src_map.num_allocated_slots
  src_len : src_map.block_ids.length = div_ceil src_map.num_allocated_slots bs
  dst_len : dst_map.block_ids.length = div_ceil dst_map.num_allocated_slots bs
  mapping_eq : mapping =
    (slice src_map.block_ids (dst_map.filled_token_len / bs) (BlockMap.range_end src_map bs stop p)).zipWith
      BlockMappingEntry.mk
      (slice dst_map.block_ids (dst_map.filled_token_len / bs) (BlockMap.range_end dst_map bs stop p))
  filled_end_eq : filled_end = min (BlockMap.range_end src_map bs stop p * bs) src_map.filled_token_len

section
variable [Hasher] {bs : Nat} {tok : Nat → List Nat} {s : Scheduler} {seq : Sequence} {src dst : Device} {p : Bool}
  {mapping : BlockMapping} {filled_end : Nat}

theorem copy_blocks_planned (hsrc : (s.get_block_manager src).Paged bs tok)
    (hdst : (s.get_block_manager dst).Paged bs tok)
    (h : s.copy_blocks seq src dst p = some (mapping, filled_end)) :
    ∃ src_map dst_map stop, (s.get_block_manager src).get_block_map seq.seq_id = some src_map ∧
      (s.get_block_manager dst).get_block_map seq.seq_id = some dst_map ∧
      Planned bs src_map dst_map stop p mapping filled_end := by
  obtain ⟨hsize, hpage⟩ := hsrc
  obtain ⟨hsize', hpage'⟩ := hdst
  unfold copy_blocks at h
  dsimp only at h
  split at h
  · rename_i hlt
    split at h
    · rename_i src_ids last dst_ids last' hrange hrange'
      obtain ⟨rfl, rfl⟩ := Prod.mk.inj (Option.some.inj h)
      obtain ⟨src_map, hmap, hpos, rfl, rfl⟩ := get_block_ids_range_ends (by rw [hsize]; exact hpage _) hrange
      obtain ⟨dst_map, hmap', -, rfl, -⟩ := get_block_ids_range_ends (by rw [hsize']; exact hpage' _) hrange'
      have hsrc_filled : (s.get_block_manager src).get_filled_token_len seq.seq_id = src_map.filled_token_len := by
        rw [get_filled_token_len, hmap]
      have hdst_filled : (s.get_block_manager dst).get_filled_token_len seq.seq_id = dst_map.filled_token_len := by
        rw [get_filled_token_len, hmap']
      have hslots : (s.get_block_manager dst).get_num_allocated_slots seq.seq_id = dst_map.num_allocated_slots := by
        rw [get_num_allocated_slots, hmap']
      simp only [hsize, hsize', hsrc_filled, hdst_filled, hslots] at hlt hpos ⊢
      exact ⟨src_map, dst_map, _, hmap, hmap', rfl, hlt, hpos, (hpage _ _ hmap).filled_le, (hpage _ _ hmap).len,
        (hpage' _ _ hmap').len, rfl, rfl⟩
    · cases h
  · cases h

omit [Hasher] in
/-- Both ranges are to end behind the new fill level. -/
theorem Planned.covers {src_map dst_map : BlockMap} {stop : Nat} (hbs : 0 < bs)
    (hsrc : (s.get_block_manager src).get_block_map seq.seq_id = some src_map)
    (hdst : (s.get_block_manager dst).get_block_map seq.seq_id = some dst_map)
    (h : Planned bs src_map dst_map stop p mapping filled_end)
    (hreach : filled_end ≤ BlockMap.range_end dst_map bs stop p * bs)
    (hrises : dst_map.filled_token_len < filled_end) (hslots : filled_end ≤ dst_map.num_allocated_slots) :
    s.Covers bs seq src dst mapping filled_end := by
  have hsrc_filled : (s.get_block_manager src).get_filled_token_len seq.seq_id = src_map.filled_token_len := by
    rw [get_filled_token_len, hsrc]
  have hdst_filled : (s.get_block_manager dst).get_filled_token_len seq.seq_id = dst_map.filled_token_len := by
    rw [get_filled_token_len, hdst]
  refine ⟨fun k e he => ?_, fun q hq hlt => ?_, ?_, ?_, ?_⟩
  · rw [h.mapping_eq] at he
    obtain ⟨a, b, ha, hb, rfl⟩ := List.getElem?_zipWith_eq_some.1 he
    rw [getElem?_slice] at ha hb
    split at ha
    · split at hb
      · exact ⟨src_map, dst_map, hsrc, hdst, hdst_filled ▸ ha, hdst_filled ▸ hb⟩
      · cases hb
    · cases ha
  · have hend : filled_end ≤ BlockMap.range_end src_map bs stop p * bs := h.filled_end_eq ▸ Nat.min_le_left _ _
    have hqsrc := (Nat.div_lt_iff_lt_mul hbs).2 (hlt.trans_le hend)
    have hqdst := (Nat.div_lt_iff_lt_mul hbs).2 (hlt.trans_le hreach)
    have hle := Nat.div_le_div_right (c := bs) (hdst_filled ▸ hq)
    have hlen : ∀ b : BlockMap, b.block_ids.length = div_ceil b.num_allocated_slots bs →
        BlockMap.range_end b bs stop p ≤ b.block_ids.length := fun b hb => hb ▸ Nat.min_le_right _ _
    rw [h.mapping_eq, List.length_zipWith, length_slice, length_slice, Nat.min_eq_left (hlen _ h.src_len),
      Nat.min_eq_left (hlen _ h.dst_len), hdst_filled]
    exact Nat.lt_min.2 ⟨Nat.sub_lt_sub_right hle hqsrc, Nat.sub_lt_sub_right hle hqdst⟩
  · rw [hdst_filled]; exact hrises
  · rw [hsrc_filled, h.filled_end_eq]; exact Nat.min_le_right _ _
  · rw [get_num_allocated_slots, hdst]; exact hslots

end

/-! ### The two directions -/

section
variable [Hasher] {bs : Nat} {tok : Nat → List Nat} {s : Scheduler} {seq : Sequence} {mapping : BlockMapping}
  {filled_end : Nat}

theorem fetch_covers (hbs : 0 < bs) (h : s.Levels bs) (hhost : (s.get_block_manager .Host).Paged bs tok)
    (hgpu : (s.get_block_manager .Gpu).Paged bs tok) (hcopy : s.copy_blocks seq .Host .Gpu true = some (mapping, filled_end)) :
    s.Covers bs seq .Host .Gpu mapping filled_end ∧ filled_end = s.host_filled seq.seq_id := by
  obtain ⟨b, g, stop, hb, hg, hplan⟩ := copy_blocks_planned hhost hgpu hcopy
  have hfilled : s.host_filled seq.seq_id = b.filled_token_len := by
    rw [host_filled, get_filled_token_len, show s.host_block_manager.get_block_map seq.seq_id = some b from hb]
  have hstop := hplan.stop_eq
  have hbelow := hplan.below
  have hle : b.filled_token_len ≤ g.num_allocated_slots := hfilled ▸ h.covered _ g hg
  rw [Nat.min_eq_left hle] at hstop
  have hend : filled_end = b.filled_token_len := by
    rw [hplan.filled_end_eq]
    refine Nat.min_eq_right ?_
    rw [← hstop]
    exact BlockMap.le_range_end hbs (hstop ▸ hplan.src_filled)
  refine ⟨hplan.covers hbs hb hg ?_ (by omega) (hend ▸ hle), hend.trans hfilled.symm⟩
  rw [hend, ← hstop]
  exact BlockMap.le_range_end hbs (hstop ▸ hle)

theorem write_covers (hbs : 0 < bs) (h : s.Levels bs) (hhost : (s.get_block_manager .Host).Paged bs tok)
    (hgpu : (s.get_block_manager .Gpu).Paged bs tok) (hcopy : s.copy_blocks seq .Gpu .Host false = some (mapping, filled_end)) :
    s.Covers bs seq .Gpu .Host mapping filled_end ∧ bs ∣ filled_end := by
  obtain ⟨g, b, stop, hg, hb, hplan⟩ := copy_blocks_planned hgpu hhost hcopy
  have hsrc : stop ≤ g.num_allocated_slots :=
    (hplan.stop_eq ▸ Nat.min_le_left _ _ : stop ≤ g.filled_token_len).trans hplan.src_filled
  have hdst : stop ≤ b.num_allocated_slots := hplan.stop_eq ▸ Nat.min_le_right _ _
  have hround := Nat.div_mul_le_self stop bs
  have hend : filled_end = stop / bs * bs := by
    rw [hplan.filled_end_eq, BlockMap.range_end_full hbs hsrc]
    exact Nat.min_eq_left (hround.trans (hplan.stop_eq ▸ Nat.min_le_left _ _))
  refine ⟨hplan.covers hbs hg hb ?_ ?_ (hend ▸ hround.trans hdst), hend ▸ Nat.dvd_mul_left _ _⟩
  · rw [hend, BlockMap.range_end_full hbs hdst]
  · -- what is filled on the host ends with a block before the last one
    have hfilled : s.host_filled seq.seq_id = b.filled_token_len := by
      rw [host_filled, get_filled_token_len, show s.host_block_manager.get_block_map seq.seq_id = some b from hb]
    have hflush := hfilled ▸ h.flush seq.seq_id
    have hstarts := hplan.starts
    rw [BlockMap.range_end_full hbs hsrc] at hstarts
    rw [hend, ← Nat.div_mul_cancel hflush]
    exact Nat.mul_lt_mul_of_pos_right hstarts hbs

end

/-! ### On the way through a dispatch -/

/-- The fill levels are those of `σ` or higher. -/
def Raised (σ s : Scheduler) : Prop :=
  ∀ d i, (σ.get_block_manager d).get_filled_token_len i ≤ (s.get_block_manager d).get_filled_token_len i

section
variable {bs i len : Nat} {σ s s' : Scheduler} {d : Device}

theorem Raised.fill (h : Raised σ s) (hrun : on_device d (update_filled_len i len) s = .ok .unit s')
    (hle : (s.get_block_manager d).get_filled_token_len i ≤ len) : Raised σ s' := by
  obtain ⟨m, hm, rfl⟩ := on_device_ok hrun
  intro d' j
  refine (h d' j).trans ?_
  rw [get_set_block_manager]
  split
  · rename_i hd
    rw [hd]
    rcases update_filled_len_maps hm with ⟨hsame, -⟩ | ⟨b, hb, -, hmaps⟩
    · rw [get_filled_token_len_of_maps hsame]
    · rw [filled_of_maps hmaps]
      split
      · rename_i hj; rw [hj]; exact hle
      · exact Nat.le_refl _
  · exact Nat.le_refl _

theorem Levels.fill_gpu (h : s.Levels bs) (hrun : on_device .Gpu (update_filled_len i len) s = .ok .unit s') :
    s'.Levels bs := by
  obtain ⟨m, hm, rfl⟩ := on_device_ok hrun
  refine ⟨h.flush, fun j g hg => ?_⟩
  replace hg : m.get_block_map j = some g := hg
  show s.host_filled j ≤ g.num_allocated_slots
  rcases update_filled_len_maps hm with ⟨hsame, -⟩ | ⟨b, hb, hslots, hmaps⟩
  · exact h.covered j g (congrFun hsame j ▸ hg)
  · rw [hmaps] at hg
    by_cases hj : j = i
    · rw [hj, Function.update_self] at hg
      rw [← Option.some.inj hg, hj]
      exact h.covered i b hb
    · rw [Function.update_of_ne hj] at hg
      exact h.covered j g hg

/-- The level on the host may move to the end of a block within the slots on the GPU. -/
theorem Levels.fill_host (h : s.Levels bs) (hrun : on_device .Host (update_filled_len i len) s = .ok .unit s')
    (hdvd : bs ∣ len) (hle : ∀ g, s.gpu_block_manager.get_block_map i = some g → len ≤ g.num_allocated_slots) :
    s'.Levels bs := by
  obtain ⟨m, hm, rfl⟩ := on_device_ok hrun
  have hfilled : ∀ j, m.get_filled_token_len j = s.host_filled j ∨ j = i ∧ m.get_filled_token_len j = len := by
    intro j
    rcases update_filled_len_maps hm with ⟨hsame, -⟩ | ⟨b, hb, hslots, hmaps⟩
    · exact .inl (congrFun (get_filled_token_len_of_maps hsame) j)
    · rw [filled_of_maps hmaps]
      split
      · exact .inr ⟨‹_›, rfl⟩
      · exact .inl rfl
  refine ⟨fun j => ?_, fun j g hg => ?_⟩
  · show bs ∣ m.get_filled_token_len j
    rcases hfilled j with hj | ⟨-, hj⟩
    · exact hj ▸ h.flush j
    · exact hj ▸ hdvd
  · show m.get_filled_token_len j ≤ g.num_allocated_slots
    rcases hfilled j with hj | ⟨rfl, hj⟩
    · exact hj ▸ h.covered j g hg
    · exact hj ▸ hle g hg

end

/-- `dispatch`, begun in `σ`, calls `copy_blocks` for `seq` in `s`: before the fill level on the GPU is read,
and after it has been moved to the end of the input. -/
inductive Copies (σ : Scheduler) : Sequence → Device → Device → Bool → Scheduler → Prop where
  | fetch {seq : Sequence} {rest : List Sequence} {acc : Batch} {s : Scheduler}
      (at_seq : LoopAt σ (seq :: rest) acc s)
      (goes_on : ¬ (s.max_batch_size ≤ acc.running_batch.entries.length ∨ acc.token_budget = 0)) :
      Copies σ seq .Host .Gpu true s
  | write {seq : Sequence} {rest : List Sequence} {acc : Batch} {fetch : List BlockMapping} {s s₁ s₂ : Scheduler}
      (at_seq : LoopAt σ (seq :: rest) acc s)
      (goes_on : ¬ (s.max_batch_size ≤ acc.running_batch.entries.length ∨ acc.token_budget = 0))
      (fetched : plan_copy seq .Host .Gpu true acc.fetch_block_mappings s = .ok fetch s₁)
      (input_len : 0 < s₁.chunk_len seq acc.token_budget)
      (filled : on_device .Gpu (update_filled_len seq.seq_id
        (s₁.chunk_start seq + s₁.chunk_len seq acc.token_budget)) s₁ = .ok .unit s₂) :
      Copies σ seq .Gpu .Host false s₂

/-- What `dispatch` has done so far. -/
structure Dispatched (bs : Nat) (σ s : Scheduler) : Prop where
  levels : s.Levels bs
  raised : Raised σ s

section
variable {bs : Nat} {σ s s' : Scheduler} {seq : Sequence} {l l' : List BlockMapping}

theorem plan_copy_ok {d d' : Device} {p : Bool} (h : plan_copy seq d d' p l s = .ok l' s') :
    s.copy_blocks seq d d' p = none ∧ l' = l ∧ s' = s ∨ ∃ mapping filled_end,
      s.copy_blocks seq d d' p = some (mapping, filled_end) ∧ l' = l ++ [mapping] ∧
        on_device d' (update_filled_len seq.seq_id filled_end) s = .ok .unit s' := by
  replace h := get_ok h
  cases hcopy : s.copy_blocks seq d d' p with
  | none =>
    rw [hcopy] at h
    obtain ⟨rfl, rfl⟩ : l = l' ∧ s = s' := by simpa using h
    exact .inl ⟨rfl, rfl, rfl⟩
  | some plan =>
    rw [hcopy] at h
    obtain ⟨_, s₁, hfill, h⟩ := bind_ok.1 h
    obtain ⟨rfl, rfl⟩ : l ++ [plan.1] = l' ∧ s₁ = s' := by simpa using h
    exact .inr ⟨_, _, rfl, rfl, hfill⟩

section
variable [Hasher] {tok : Nat → List Nat}

theorem Dispatched.fetch (h : Dispatched bs σ s) (hbs : 0 < bs) (hhost : (s.get_block_manager .Host).Paged bs tok)
    (hgpu : (s.get_block_manager .Gpu).Paged bs tok) (hrun : plan_copy seq .Host .Gpu true l s = .ok l' s') :
    Dispatched bs σ s' := by
  rcases plan_copy_ok hrun with ⟨-, -, rfl⟩ | ⟨mapping, filled_end, hcopy, -, hfill⟩
  · exact h
  · have hrises := (fetch_covers hbs h.levels hhost hgpu hcopy).1.rises.le
    exact ⟨h.levels.fill_gpu hfill, h.raised.fill hfill hrises⟩

theorem Dispatched.write (h : Dispatched bs σ s) (hbs : 0 < bs) (hhost : (s.get_block_manager .Host).Paged bs tok)
    (hgpu : (s.get_block_manager .Gpu).Paged bs tok) (hrun : plan_copy seq .Gpu .Host false l s = .ok l' s') :
    Dispatched bs σ s' := by
  rcases plan_copy_ok hrun with ⟨-, -, rfl⟩ | ⟨mapping, filled_end, hcopy, -, hfill⟩
  · exact h
  · obtain ⟨hcovers, hdvd⟩ := write_covers hbs h.levels hhost hgpu hcopy
    refine ⟨h.levels.fill_host hfill hdvd fun g hg => ?_, h.raised.fill hfill hcovers.rises.le⟩
    have hle := hcovers.le_filled
    rw [get_filled_token_len, show (s.get_block_manager .Gpu).get_block_map seq.seq_id = some g from hg] at hle
    exact hle.trans (hgpu.maps _ g hg).filled_le

/-- Even where all tokens are filled and the last one is dispatched once more. -/
theorem filled_le_chunk {token_budget : Nat} (hgpu : (s.get_block_manager .Gpu).Paged bs tok)
    (htok : tok seq.seq_id = seq.token_ids) (hlen : 0 < s.chunk_len seq token_budget) :
    s.gpu_block_manager.get_filled_token_len seq.seq_id ≤ s.chunk_start seq + s.chunk_len seq token_budget := by
  have hfilled : s.gpu_block_manager.get_filled_token_len seq.seq_id ≤ seq.token_ids.length := by
    rw [get_filled_token_len]
    cases hg : s.gpu_block_manager.get_block_map seq.seq_id with
    | none => exact Nat.zero_le _
    | some g =>
      have hok := hgpu.maps seq.seq_id g hg
      exact hok.filled_le.trans (htok ▸ hok.slots_le)
  unfold chunk_len chunk_start at *
  omega

theorem Dispatched.input {token_budget : Nat} (h : Dispatched bs σ s)
    (hgpu : (s.get_block_manager .Gpu).Paged bs tok) (htok : tok seq.seq_id = seq.token_ids)
    (hlen : 0 < s.chunk_len seq token_budget)
    (hrun : on_device .Gpu (update_filled_len seq.seq_id (s.chunk_start seq + s.chunk_len seq token_budget)) s =
      .ok .unit s') : Dispatched bs σ s' :=
  ⟨h.levels.fill_gpu hrun, h.raised.fill hrun (filled_le_chunk hgpu htok hlen)⟩

end

/-! ### Every call of `copy_blocks` -/

section
variable [Hasher] {K : List (Nat × List Nat)} {I : Device → BlockManager → Prop} {E : Panic → Prop}
  {tok : Nat → List Nat} {seqs : List Sequence} {acc batch : Batch} (hI : Kept K I E)
  (hpaged : ∀ d m, d ≠ .Disk → I d m → m.Paged bs tok) (htok : ∀ p ∈ K, tok p.1 = p.2)
include hI hpaged htok

theorem LoopAt.dispatched (hbs : 0 < bs) (hσ : Sound K I σ) (hlevels : σ.Levels bs) (h : LoopAt σ seqs acc s) :
    Sound K I s ∧ (∀ seq ∈ seqs, seq.key ∈ K) ∧ Dispatched bs σ s := by
  induction h with
  | start =>
    refine ⟨hσ, fun seq hseq => ?_, hlevels, fun _ _ => Nat.le_refl _⟩
    obtain ⟨t, ht, hseq⟩ := List.mem_flatMap.1 hseq
    exact hσ.allocated t ht seq (List.mem_filter.1 hseq).1
  | @next seq rest acc acc' fetch s s₁ s₂ _ _ hfetch hinput ih =>
    obtain ⟨hs, hseqs, hd⟩ := ih
    have hkey := hseqs seq List.mem_cons_self
    have hs₁ := (plan_copy_kept hI hkey _ _ _ _).of_ok hs hfetch
    have hs₂ := (dispatch_input_kept hI hkey _).of_ok hs₁ hinput
    have hd₁ := hd.fetch hbs (hpaged _ _ (by simp) (hs.devices .Host)) (hpaged _ _ (by simp) (hs.devices .Gpu)) hfetch
    refine ⟨hs₂, fun seq' hseq' => hseqs seq' (List.mem_cons_of_mem _ hseq'), ?_⟩
    rcases dispatch_input_ok hinput with ⟨-, rfl, -⟩ | ⟨ids, k, s₃, wt, hlen, -, hfill, hwrite, -⟩
    · exact hd₁
    · have hs₃ := ((on_device_triple (hI.update_filled_len .Gpu _ hkey)).of_ok hs₁.devices hfill)
      exact (hd₁.input (hpaged _ _ (by simp) (hs₁.devices .Gpu)) (htok _ hkey) hlen hfill).write hbs
        (hpaged _ _ (by simp) (hs₃ .Host)) (hpaged _ _ (by simp) (hs₃ .Gpu)) hwrite

theorem Copies.covers {src dst : Device} {p : Bool} {mapping : BlockMapping} {filled_end : Nat} (hbs : 0 < bs)
    (hσ : Sound K I σ) (hlevels : σ.Levels bs) (h : Copies σ seq src dst p s)
    (hcopy : s.copy_blocks seq src dst p = some (mapping, filled_end)) :
    s.Covers bs seq src dst mapping filled_end ∧ (dst = .Host → bs ∣ filled_end) ∧ Dispatched bs σ s := by
  cases h with
  | fetch hat =>
    obtain ⟨hs, -, hd⟩ := hat.dispatched hI hpaged htok hbs hσ hlevels
    exact ⟨(fetch_covers hbs hd.levels (hpaged _ _ (by simp) (hs.devices .Host))
      (hpaged _ _ (by simp) (hs.devices .Gpu)) hcopy).1, nofun, hd⟩
  | @write rest acc fetch s₀ s₁ _ hat _ hfetch hlen hfill =>
    obtain ⟨hs, hseqs, hd⟩ := hat.dispatched hI hpaged htok hbs hσ hlevels
    have hkey := hseqs seq List.mem_cons_self
    have hs₁ := (plan_copy_kept hI hkey _ _ _ _).of_ok hs hfetch
    have hs₂ := (on_device_triple (hI.update_filled_len .Gpu _ hkey)).of_ok hs₁.devices hfill
    have hd₂ := (hd.fetch hbs (hpaged _ _ (by simp) (hs.devices .Host)) (hpaged _ _ (by simp) (hs.devices .Gpu))
      hfetch).input (hpaged _ _ (by simp) (hs₁.devices .Gpu)) (htok _ hkey) hlen hfill
    obtain ⟨hcovers, hdvd⟩ := write_covers hbs hd₂.levels (hpaged _ _ (by simp) (hs₂ .Host))
      (hpaged _ _ (by simp) (hs₂ .Gpu)) hcopy
    exact ⟨hcovers, fun _ => hdvd, hd₂⟩

end

theorem LoopAt.of_dispatch_loop {seqs : List Sequence} : ∀ {acc batch : Batch} {s : Scheduler}, LoopAt σ seqs acc s →
    dispatch_loop seqs acc s = .ok batch s' → ∃ rest, LoopAt σ rest batch s' := by
  induction seqs with
  | nil =>
    intro acc batch s hat h
    obtain ⟨rfl, rfl⟩ : acc = batch ∧ s = s' := by simpa [dispatch_loop] using h
    exact ⟨_, hat⟩
  | cons seq seqs ih =>
    intro acc batch s hat h
    replace h := get_ok h
    split at h
    · obtain ⟨rfl, rfl⟩ : acc = batch ∧ s = s' := by simpa using h
      exact ⟨_, hat⟩
    · rename_i hgo
      obtain ⟨fetch, s₁, hfetch, h⟩ := bind_ok.1 h
      obtain ⟨acc', s₂, hinput, h⟩ := bind_ok.1 h
      exact ih (hat.next hgo hfetch hinput) h

/-- The plans of a batch are what these calls return. -/
theorem LoopAt.mappings {seqs : List Sequence} {acc : Batch} (h : LoopAt σ seqs acc s) :
    (∀ mapping ∈ acc.fetch_block_mappings, ∃ seq s₀ filled_end, Copies σ seq .Host .Gpu true s₀ ∧
        s₀.copy_blocks seq .Host .Gpu true = some (mapping, filled_end)) ∧
      ∀ mapping ∈ acc.write_through_block_mappings, ∃ seq s₀ filled_end, Copies σ seq .Gpu .Host false s₀ ∧
        s₀.copy_blocks seq .Gpu .Host false = some (mapping, filled_end) := by
  induction h with
  | start => exact ⟨nofun, nofun⟩
  | @next seq rest acc acc' fetch s s₁ s₂ hat hgo hfetch hinput ih =>
    have hfetched : ∀ mapping ∈ fetch, ∃ seq s₀ filled_end, Copies σ seq .Host .Gpu true s₀ ∧
        s₀.copy_blocks seq .Host .Gpu true = some (mapping, filled_end) := by
      rcases plan_copy_ok hfetch with ⟨-, rfl, -⟩ | ⟨mapping, filled_end, hcopy, rfl, -⟩
      · exact ih.1
      · intro c hc
        rcases List.mem_append.1 hc with hc | hc
        · exact ih.1 c hc
        · obtain rfl := List.mem_singleton.1 hc
          exact ⟨seq, s, filled_end, .fetch hat hgo, hcopy⟩
    rcases dispatch_input_ok hinput with ⟨rfl, rfl, -⟩ | ⟨ids, k, s₃, wt, hlen, -, hfill, hwrite, rfl⟩
    · exact ⟨hfetched, ih.2⟩
    · refine ⟨hfetched, ?_⟩
      rcases plan_copy_ok hwrite with ⟨-, rfl, -⟩ | ⟨mapping, filled_end, hcopy, rfl, -⟩
      · exact ih.2
      · intro c hc
        rcases List.mem_append.1 hc with hc | hc
        · exact ih.2 c hc
        · obtain rfl := List.mem_singleton.1 hc
          exact ⟨seq, s₃, filled_end, .write hat hgo hfetch hlen hfill, hcopy⟩

end

end Scheduler

namespace System

section
variable [Hasher] [Watch] {c : SchedulerConfig} {Occ : List Nat → Prop} {ops : List Op} {tok : Nat → List Nat}
  {s s' : System} {σ : Scheduler}

omit [Watch] in
theorem SysInv.paged (h : SysInv SameLength Occ (· ≠ .Disk) c tok s) {ids : List Nat} {rids : Device → List Nat}
    (d : Device) (m : BlockManager) (hd : d ≠ .Disk)
    (hm : Near SameLength Occ (· ≠ .Disk) c tok s.scheduler ids rids d m) : m.Paged c.block_size tok := by
  have hsize : m.block_size = c.block_size := (hm hd).block_size.trans (h.devices d hd).block_size
  exact ⟨hsize, fun i b hb => hsize ▸ (hm hd).page.maps i b (by simp) hb⟩

theorem SysInv.phases_levels (h : SysInv SameLength Occ (· ≠ .Disk) c tok s) (hlevels : s.scheduler.Levels c.block_size)
    (hrun : Scheduler.phases s.scheduler = .ok .unit σ) : σ.Levels c.block_size := by
  refine hlevels.phases (fun p hp => ?_) hrun
  unfold Scheduler.host_filled get_filled_token_len
  cases hb : s.scheduler.host_block_manager.get_block_map p.1 with
  | none => exact Nat.zero_le _
  | some b =>
    have hok := (h.devices .Host (by simp)).page.maps p.1 b (by simp) hb
    exact hok.filled_le.trans (h.keys_queues.tok p hp ▸ hok.slots_le)

theorem Leveled.schedule (hrun : Run Op.Step (System.new c) ops s) (h : Leveled c.block_size s)
    (hinv : SysInv SameLength Occ (· ≠ .Disk) c tok s) (hs : Op.Step s .schedule s') : Leveled c.block_size s' := by
  refine ⟨?_, fun t ht i hi => ?_⟩
  · obtain ⟨batch, s₁, hsch, hret⟩ := bind_ok.1 hs
    obtain rfl : s₁ = s' := by simpa using hret
    obtain ⟨σ', hσ', rfl⟩ := on_scheduler_ok hsch
    rw [Scheduler.schedule_eq] at hσ'
    obtain ⟨_, σ, hphases, hσ'⟩ := bind_ok.1 hσ'
    obtain ⟨batch', σ₁, hdispatch, hσ'⟩ := bind_ok.1 hσ'
    obtain ⟨-, rfl⟩ : _ ∧ _ = σ' := by simpa using modify_ok hσ'
    obtain ⟨rest, hat⟩ := Scheduler.LoopAt.start.of_dispatch_loop (get_ok hdispatch)
    have hend := hat.dispatched (kept_near (TokenRel.lengths Occ) hinv.keys_queues) hinv.paged hinv.keys_queues.tok
      c.block_size_pos (hinv.phases_sound (TokenRel.lengths Occ) hphases) (hinv.phases_levels h.levels hphases)
    exact ⟨hend.2.2.levels.flush, hend.2.2.levels.covered⟩
  · -- neither a task that was parked before nor a new one is scheduled
    have hnone : (∀ u ∈ Op.schedule.acts_on s, i ∉ u.ids) → s.scheduler.gpu_block_manager.get_block_map i = none →
        s'.scheduler.gpu_block_manager.get_block_map i = none := fun hother hi =>
      (congrFun (Op.step_maps_other (regionsBelow hrun).nextFree hs hother) .Gpu).trans hi
    rcases (Op.Parks.of_step hs).mem_parked ht with ⟨hold, -⟩ | ⟨request, arrival, rfl⟩
    · exact hnone ((anyStages_of_run hrun).parked_untouched hold (fun _ _ _ hop => by cases hop) hi) (h.parked t hold i hi)
    · refine hnone (fun u hu hiu => ?_) (unmapped_of_new hrun hi .Gpu)
      obtain ⟨seq, hseq, rfl⟩ := List.mem_map.1 hiu
      have hlt := (hinv.known (List.mem_append_left _ (List.mem_append_left _ (List.mem_append_left _ hu))) hseq).2.1
      rw [Lifecycle.ids_to_task] at hi
      obtain ⟨k, -, hk⟩ := List.mem_map.1 hi
      omega

theorem leveled_of_run (hzero : ∀ P, Occ P → compute_hash P ≠ 0) (h : OccRun Occ c ops s) :
    Leveled c.block_size s := by
  refine (h.invariant (I := fun s => (∃ ops, OccRun Occ c ops s) ∧ Leveled c.block_size s)
    ⟨⟨[], .nil⟩, ⟨fun i => Nat.dvd_zero _, nofun⟩, fun _ _ _ _ => rfl⟩ fun s op s' hs hstep => ?_).2
  · obtain ⟨⟨ops', hrun⟩, hl⟩ := hs
    refine ⟨⟨_, hrun.snoc hstep⟩, ?_⟩
    have hplain : Run Op.Step (System.new c) ops' s := hrun.mono fun _ _ _ hstep => hstep.1
    by_cases hop : op = .schedule
    · subst hop
      obtain ⟨tok, hinv⟩ := SysInv.run (D := (· ≠ .Disk)) (TokenRel.lengths Occ) (fun _ _ _ => hzero) hrun
      exact hl.schedule hplain hinv hstep.1
    · exact hl.step hop hplain hstep.1

/-- In every run in which no prefix has the hash `0`, the mark of a block without one: the host is always filled
up to the end of a block. Whenever `dispatch` calls `copy_blocks` and gets a plan, the plan pairs blocks at the same
place of the maps of the sequence, covers what it claims, and moves the fill level up, on the host to the end of
a block. The plans of a batch are those, and no fill level falls on the way. -/
theorem copy_plans_cover (hzero : ∀ P, Occ P → compute_hash P ≠ 0) (h : OccRun Occ c ops s) :
    (∀ i, c.block_size ∣ s.scheduler.host_filled i) ∧
    ∀ σ, Scheduler.phases s.scheduler = .ok .unit σ →
      (∀ seq src dst p s₀ mapping filled_end, Scheduler.Copies σ seq src dst p s₀ →
        s₀.copy_blocks seq src dst p = some (mapping, filled_end) →
          s₀.Covers c.block_size seq src dst mapping filled_end ∧ (dst = .Host → c.block_size ∣ filled_end) ∧
          (∀ i, c.block_size ∣ s₀.host_filled i) ∧ Scheduler.Raised σ s₀) ∧
      ∀ batch σ', Scheduler.dispatch σ = .ok batch σ' →
        (∀ i, c.block_size ∣ σ'.host_filled i) ∧ Scheduler.Raised σ σ' ∧
        (∀ mapping ∈ batch.fetch_block_mappings, ∃ seq s₀ filled_end, Scheduler.Copies σ seq .Host .Gpu true s₀ ∧
          s₀.copy_blocks seq .Host .Gpu true = some (mapping, filled_end)) ∧
        ∀ mapping ∈ batch.write_through_block_mappings, ∃ seq s₀ filled_end,
          Scheduler.Copies σ seq .Gpu .Host false s₀ ∧
          s₀.copy_blocks seq .Gpu .Host false = some (mapping, filled_end) := by
  have hlevels := (leveled_of_run hzero h).levels
  obtain ⟨tok, hinv⟩ := SysInv.run (D := (· ≠ .Disk)) (TokenRel.lengths Occ) (fun _ _ _ => hzero) h
  have hkept : Scheduler.Kept _ (Near SameLength Occ (· ≠ .Disk) c tok s.scheduler _ fun _ => []) (Safe (· ≠ .Disk)) :=
    kept_near (TokenRel.lengths Occ) hinv.keys_queues
  refine ⟨hlevels.flush, fun σ hphases => ⟨fun seq src dst p s₀ mapping filled_end hcall hcopy => ?_,
    fun batch σ' hdispatch => ?_⟩⟩
  · obtain ⟨hcovers, hdvd, hd⟩ := hcall.covers hkept hinv.paged hinv.keys_queues.tok c.block_size_pos
      (hinv.phases_sound (TokenRel.lengths Occ) hphases) (hinv.phases_levels hlevels hphases) hcopy
    exact ⟨hcovers, hdvd, hd.levels.flush, hd.raised⟩
  · obtain ⟨rest, hat⟩ := Scheduler.LoopAt.start.of_dispatch_loop (get_ok hdispatch)
    obtain ⟨-, -, hd⟩ := hat.dispatched hkept hinv.paged hinv.keys_queues.tok c.block_size_pos
      (hinv.phases_sound (TokenRel.lengths Occ) hphases) (hinv.phases_levels hlevels hphases)
    exact ⟨hd.levels.flush, hd.raised, hat.mappings.1, hat.mappings.2⟩

end

/-- Five blocks of size one on the GPU. -/
def evictingConfig : SchedulerConfig := ⟨4, 64, 16, 1, Nat.one_pos, 5, 16, 8, false, Scheduler.defaultWatermark⟩

/-- Three tokens are written through to the host, four others take their blocks on the GPU, and the three come
again with a fourth. -/
def evictedRun : List Op :=
  [.add_request ⟨0, [1, 2, 3], 1, some 1, false, false⟩ 0, .schedule, results [(0, 9)] 0, .remove_task 0,
    .add_request ⟨1, [5, 6, 7, 8], 1, some 1, false, false⟩ 1, .schedule, results [(1, 9)] 1, .remove_task 0,
    .add_request ⟨2, [1, 2, 3, 4], 1, some 1, false, false⟩ 2]

/-- The next batch fetches blocks. -/
def fetches [Hasher] (s : System) : Bool :=
  match Scheduler.phases s.scheduler with
  | .ok _ σ => match Scheduler.dispatch σ with
    | .ok batch _ => !batch.fetch_block_mappings.isEmpty
    | .error _ _ => false
  | .error _ _ => false

/-- They are fetched from the host. -/
theorem copy_plans_cover_evicted :
    let _ := decimalHasher
    ∃ s σ seq s₀ mapping filled_end, Reachable evictingConfig s ∧ Scheduler.phases s.scheduler = .ok .unit σ ∧
      Scheduler.Copies σ seq .Host .Gpu true s₀ ∧
      s₀.copy_blocks seq .Host .Gpu true = some (mapping, filled_end) ∧
      s₀.Covers 1 seq .Host .Gpu mapping filled_end := by
  let _ := decimalHasher
  have hfollow : (Run.follow Op.next (System.new evictingConfig) evictedRun).any fetches = true := by
    decide +kernel
  obtain ⟨s, hrun, hs⟩ := Run.exists_of_follow (fun _ _ _ => Op.step_of_next) hfollow
  have hocc : OccRun AnyPrefix evictingConfig evictedRun s :=
    hrun.mono fun _ _ _ hstep => ⟨hstep, fun _ _ _ _ _ => trivial⟩
  have hcover := copy_plans_cover (fun P _ => decimalHasher_ne_zero P) hocc
  unfold fetches at hs
  cases hphases : Scheduler.phases s.scheduler with
  | error e σ => rw [hphases] at hs; cases hs
  | ok a σ =>
    rw [hphases] at hs
    cases hdispatch : Scheduler.dispatch σ with
    | error e σ' => simp only [hdispatch] at hs; cases hs
    | ok batch σ' =>
      simp only [hdispatch] at hs
      obtain ⟨mapping, hmem⟩ := List.exists_mem_of_ne_nil batch.fetch_block_mappings fun hnil => by
        rw [hnil] at hs; cases hs
      obtain ⟨seq, s₀, filled_end, hcall, hcopy⟩ := ((hcover.2 σ hphases).2 batch σ' hdispatch).2.2.1 mapping hmem
      exact ⟨s, σ, seq, s₀, mapping, filled_end, ⟨_, hrun⟩, hphases, hcall, hcopy,
        ((hcover.2 σ hphases).1 seq _ _ _ s₀ mapping filled_end hcall hcopy).1⟩

end System

end LMServe
