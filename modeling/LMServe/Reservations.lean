import LMServe.Hidden

/-!
# Reserved blocks in runs of a manager

In a run of manager operations whose reservations are all `careful`, every block of a region that
`reserve_blocks` created and that has not been given up is invisible, and stays so through an
activation that does not list its hash. A reservation that is not careful makes a block of its own
region visible at once.
-/

namespace LMServe
open Hoare Chunk

namespace BlockManager

/-! ### The table of regions -/

section
variable {m m' : BlockManager}

theorem free_regions (i : Nat) : Keeps reserved_blocks_table (free i) := by
  refine Keeps.get.bind fun s => ?_
  split
  · exact Keeps.pure _
  · exact Keeps.bind (Keeps.modify fun _ => rfl) fun _ => (free_loop_tables _ _ _).part (·.2.2)

theorem free_and_drop_cache_regions (i : Nat) : Keeps reserved_blocks_table (free_and_drop_cache i) := by
  refine Keeps.get.bind fun s => ?_
  split
  · exact Keeps.pure _
  · exact Keeps.bind (Keeps.modify fun _ => rfl) fun _ => (release_and_drop_tables _).part (·.2.2)

theorem update_filled_len_regions (i len : Nat) :
    Keeps reserved_blocks_table (update_filled_len i len) := by
  refine Keeps.get.bind fun s => ?_
  split
  · exact Keeps.pure _
  · exact Keeps.ite (Keeps.modify fun _ => rfl) (Keeps.throw _)

section
variable [Hasher]

theorem alloc_blocks_regions (seq : Sequence) : Keeps reserved_blocks_table (alloc_blocks seq) := by
  refine Keeps.get.bind fun s => (Keeps.ite (Keeps.pure _) (Keeps.throw _)).bind fun tokens => ?_
  refine ((fill_last_block_tables _ _ _).part (·.2.2)).bind fun slots => Keeps.get.bind fun s₁ => ?_
  refine (Keeps.mapM (fun off => (alloc_new_block_tables _ off).part (·.2.2)) _).bind fun ids => ?_
  refine Keeps.bind (Keeps.modify fun s₂ => ?_) fun _ => Keeps.pure _
  split <;> rfl

omit [Hasher] in
theorem activate_all_regions (hash_values ids : List Nat) :
    Keeps reserved_blocks_table (ids.mapM (activate_block hash_values)) :=
  (activate_all_tables hash_values ids).part (·.2.2)

theorem init_prefix_cache_blocks_regions (seq : Sequence) :
    Keeps reserved_blocks_table (init_prefix_cache_blocks seq) := by
  refine Keeps.get.bind fun s => ?_
  split
  · exact Keeps.pure _
  · exact ((retain_all_tables _).part (·.2.2)).bind fun _ => Keeps.bind (Keeps.modify fun _ => rfl) fun _ => Keeps.pure _

theorem update_prefix_cache_blocks_regions (seq : Sequence) :
    Keeps reserved_blocks_table (update_prefix_cache_blocks seq) := by
  refine Keeps.get.bind fun s => ?_
  split
  · exact init_prefix_cache_blocks_regions seq
  · refine (get_prefix_cache_blocks_range_keeps _ _ _ _).bind fun ids => ?_
    exact ((retain_all_tables _).part (·.2.2)).bind fun _ => Keeps.bind (Keeps.modify fun _ => rfl) fun _ => Keeps.pure _

/-! ### One operation -/

omit [Hasher] in
/-- A block of a region with one reference is listed nowhere else. -/
theorem RefInv.sole {n r b : Nat} {ids : List Nat} (h : m.RefInv n [])
    (hr : m.reserved_blocks_table.lookup r = some ids) (hb : b ∈ ids)
    (hone : (m.get_block b).ref_cnt = 1) :
    (∀ i map, m.get_block_map i = some map → b ∉ map.block_ids) ∧
      ∀ r' ids', r' ≠ r → m.reserved_blocks_table.lookup r' = some ids' → b ∉ ids' := by
  have hcount : 0 < ids.count b := List.count_pos_iff.2 hb
  have hle := Table.le_total (fun ids : List Nat => ids.count b) hr
  have hlt : b < n := by
    have hpos : 0 < m.refs b + ([] : List Nat).count b := by unfold refs; omega
    have := h.count.cnt_lt b hpos
    rwa [h.total] at this
  have hrefs : m.refs b = 1 := by
    have := h.ref_cnt hlt
    rw [hone] at this
    simp only [List.count_nil] at this
    omega
  refine ⟨fun i map hmap hmem => ?_, fun r' ids' hne hr' hmem => ?_⟩
  · have h1 : 0 < map.block_ids.count b := List.count_pos_iff.2 hmem
    have h2 := Table.le_total (fun map : BlockMap => map.block_ids.count b) hmap
    unfold refs at hrefs; omega
  · have h1 : 0 < ids'.count b := List.count_pos_iff.2 hmem
    have h2 := Table.total_erase (fun ids : List Nat => ids.count b) hr
    have h3 : (m.reserved_blocks_table.erase r).lookup r' = some ids' := by
      rw [Table.lookup_erase_eq, if_neg hne]; exact hr'
    have h4 := Table.le_total (fun ids : List Nat => ids.count b) h3
    unfold refs at hrefs; omega

end

end

end BlockManager

namespace BmOp

/-- The operation gives the region up. -/
def Releases (r : Nat) : BmOp → Prop
  | activate_reserved_blocks r' _ | unpin_blocks r' => r' = r
  | _ => False

section
variable [Hasher] {m m' : BlockManager} {n r b k : Nat} {ids : List Nat} {op : BmOp}

/-- An operation that does not give up the region of a sealed block leaves the block alone. -/
theorem exec_unwritten (h : m.RefInv n []) (hr : m.reserved_blocks_table.lookup r = some ids)
    (hb : b ∈ ids) (hs : m.Sealed b) (hop : ¬ op.Releases r) (hrun : op.exec m = .ok .unit m') :
    BlockManager.Unwritten b m m' := by
  obtain ⟨hmaps, hregions⟩ := h.sole hr hb hs.ref_cnt
  have hdrop : ∀ {α : Type} {x : BM α}, Triple (· = m) x (fun _ => BlockManager.Unwritten b m) (fun _ => True) →
      (do let _ ← x : BM PUnit) m = .ok .unit m' → BlockManager.Unwritten b m m' := by
    intro α x hx hrun
    obtain ⟨a, m₁, hx', hret⟩ := bind_ok.1 hrun
    cases hret
    exact hx.of_ok rfl hx'
  cases op with
  | alloc_blocks seq => exact hdrop (BlockManager.alloc_blocks_unwritten hs fun map => hmaps _ map) hrun
  | init_prefix_cache_blocks seq => exact hdrop (BlockManager.init_prefix_cache_blocks_unwritten hs seq) hrun
  | update_prefix_cache_blocks seq =>
    exact hdrop (BlockManager.update_prefix_cache_blocks_unwritten hs seq) hrun
  | reserve_blocks r' T start => exact hdrop (BlockManager.reserve_blocks_unwritten hs r' T start) hrun
  | activate_reserved_blocks r' hash_values =>
    exact hdrop (BlockManager.activate_reserved_blocks_unwritten hash_values
      fun ids' => hregions r' ids' hop) hrun
  | pin_blocks_by_hashes r' hash_values =>
    exact hdrop ((BlockManager.pin_blocks_by_hashes_unwritten hs.hidden r' hash_values).post
      fun _ _ h => h.1) hrun
  | unpin_blocks r' =>
    exact hdrop (BlockManager.unpin_blocks_unwritten fun ids' => hregions r' ids' hop) hrun
  | update_filled_len i len =>
    exact (BlockManager.update_filled_len_unwritten i len).of_ok (.refl b m) hrun
  | free i => exact (BlockManager.free_unwritten fun map => hmaps i map).of_ok rfl hrun
  | free_and_drop_cache i =>
    exact (BlockManager.free_and_drop_cache_unwritten fun map => hmaps i map).of_ok rfl hrun
  | clear_cache =>
    obtain rfl : { m with hash_block_table := ∅ } = m' := by
      simpa [exec, BlockManager.clear_cache] using hrun
    exact (BlockManager.Unwritten.refl b m).congr rfl fun k hk => by simp at hk

/-- A region of the state after an operation was there before, or the operation created it. -/
theorem exec_regions (hrun : op.exec m = .ok .unit m')
    (hr : m'.reserved_blocks_table.lookup r = some ids) :
    (¬ op.Releases r ∧ m.reserved_blocks_table.lookup r = some ids) ∨
      (∃ T start, op = .reserve_blocks r T start) ∨ ∃ hash_values, op = .pin_blocks_by_hashes r hash_values := by
  have hkeep : ∀ {α : Type} {x : BM α}, Keeps BlockManager.reserved_blocks_table x →
      (do let _ ← x : BM PUnit) m = .ok .unit m' → m.reserved_blocks_table.lookup r = some ids := by
    intro α x hx hrun
    obtain ⟨a, m₁, hx', hret⟩ := bind_ok.1 hrun
    cases hret
    rw [← hx.of_ok hx']; exact hr
  cases op with
  | alloc_blocks seq => exact .inl ⟨not_false, hkeep (BlockManager.alloc_blocks_regions seq) hrun⟩
  | init_prefix_cache_blocks seq =>
    exact .inl ⟨not_false, hkeep (BlockManager.init_prefix_cache_blocks_regions seq) hrun⟩
  | update_prefix_cache_blocks seq =>
    exact .inl ⟨not_false, hkeep (BlockManager.update_prefix_cache_blocks_regions seq) hrun⟩
  | reserve_blocks r' T start =>
    by_cases hr' : r' = r
    · subst hr'; exact .inr (.inl ⟨T, start, rfl⟩)
    · obtain ⟨region, m₁, hrun, hret⟩ := bind_ok.1 hrun
      cases hret
      obtain ⟨pairs, m₂, hloop, hrest⟩ := bind_ok.1 (BlockManager.get_ok hrun)
      have hregions := (BlockManager.reserve_loop_regions T _).of_ok hloop
      refine .inl ⟨not_false, ?_⟩
      split at hrest
      · obtain ⟨-, rfl⟩ : _ ∧ m₂ = m' := by simpa using hrest
        rw [← hregions]; exact hr
      · obtain ⟨-, rfl⟩ : _ ∧ _ = m' := by simpa using BlockManager.modify_ok hrest
        rw [Table.lookup_insert_eq, if_neg (Ne.symm hr'), hregions] at hr
        exact hr
  | pin_blocks_by_hashes r' hash_values =>
    by_cases hr' : r' = r
    · subst hr'; exact .inr (.inr ⟨hash_values, rfl⟩)
    · obtain ⟨region, m₁, hrun, hret⟩ := bind_ok.1 hrun
      cases hret
      obtain ⟨pairs, m₂, hloop, hrest⟩ := bind_ok.1 hrun
      have hregions := (BlockManager.pin_loop_regions hash_values).of_ok hloop
      obtain ⟨-, rfl⟩ : _ ∧ _ = m' := by simpa using BlockManager.modify_ok hrest
      rw [Table.lookup_insert_eq, if_neg (Ne.symm hr'), hregions] at hr
      exact .inl ⟨not_false, hr⟩
  | activate_reserved_blocks r' hash_values =>
    obtain ⟨k, m₁, hrun, hret⟩ := bind_ok.1 hrun
    cases hret
    replace hrun := BlockManager.get_ok hrun
    cases hlook : m.reserved_blocks_table.lookup r' with
    | none =>
      rw [hlook] at hrun
      obtain ⟨-, rfl⟩ : _ ∧ m = m' := by simpa using hrun
      refine .inl ⟨fun h => ?_, hr⟩
      obtain rfl : r' = r := h
      rw [hlook] at hr; cases hr
    | some ids' =>
      rw [hlook] at hrun
      obtain ⟨l, m₂, hloop, hret⟩ := bind_ok.1 (BlockManager.modify_ok hrun)
      obtain ⟨-, rfl⟩ : _ ∧ m₂ = m' := by simpa using hret
      rw [(BlockManager.activate_all_regions _ _).of_ok hloop, Table.lookup_erase_eq] at hr
      split at hr
      · cases hr
      · rename_i hne; exact .inl ⟨fun h => hne (Eq.symm h), hr⟩
  | unpin_blocks r' =>
    obtain ⟨k, m₁, hrun, hret⟩ := bind_ok.1 hrun
    cases hret
    replace hrun := BlockManager.get_ok hrun
    cases hlook : m.reserved_blocks_table.lookup r' with
    | none =>
      rw [hlook] at hrun
      obtain ⟨-, rfl⟩ : _ ∧ m = m' := by simpa using hrun
      refine .inl ⟨fun h => ?_, hr⟩
      obtain rfl : r' = r := h
      rw [hlook] at hr; cases hr
    | some ids' =>
      rw [hlook] at hrun
      obtain ⟨l, m₂, hloop, hret⟩ := bind_ok.1 (BlockManager.modify_ok hrun)
      obtain ⟨-, rfl⟩ : _ ∧ m₂ = m' := by simpa using hret
      have hregions : Keeps BlockManager.reserved_blocks_table
          (forM ids' fun b => BlockManager.on_allocator (BlockAllocator.free_block b)) :=
        Keeps.forM (fun _ => BlockManager.on_allocator_keeps (fun _ _ => rfl) _) _
      rw [hregions.of_ok hloop, Table.lookup_erase_eq] at hr
      split at hr
      · cases hr
      · rename_i hne; exact .inl ⟨fun h => hne (Eq.symm h), hr⟩
  | update_filled_len i len =>
    rw [(BlockManager.update_filled_len_regions i len).of_ok hrun] at hr; exact .inl ⟨not_false, hr⟩
  | free i => rw [(BlockManager.free_regions i).of_ok hrun] at hr; exact .inl ⟨not_false, hr⟩
  | free_and_drop_cache i =>
    rw [(BlockManager.free_and_drop_cache_regions i).of_ok hrun] at hr; exact .inl ⟨not_false, hr⟩
  | clear_cache =>
    obtain rfl : { m with hash_block_table := ∅ } = m' := by
      simpa [exec, BlockManager.clear_cache] using hrun
    exact .inl ⟨not_false, hr⟩

/-! ### Runs -/

/-- The regions that `reserve_blocks` created and that were not given up since. -/
def track (res : List Nat) : BmOp → List Nat
  | reserve_blocks r _ _ => r :: res
  | activate_reserved_blocks r _ | unpin_blocks r | pin_blocks_by_hashes r _ => res.filter (· ≠ r)
  | _ => res

def reserved_regions (ops : List BmOp) : List Nat := ops.foldl track []

/-- A reservation is careful if the table does not list any of the blocks it takes under the very hash
the block is given. -/
def careful (m : BlockManager) : BmOp → Bool
  | reserve_blocks _ T start =>
    (m.planned T start).all fun p => m.hash_block_table.lookup p.2 ≠ some p.1
  | _ => true

/-- The blocks of the regions `res` are sealed. -/
def AllSealed (res : List Nat) (m : BlockManager) : Prop :=
  ∀ r ∈ res, ∀ ids, m.reserved_blocks_table.lookup r = some ids → ∀ b ∈ ids, m.Sealed b

theorem AllSealed.step {res : List Nat} (h : AllSealed res m) (href : m.RefInv n [])
    (hs : Step m op m') (hcare : op.careful m = true) : AllSealed (track res op) m' := by
  obtain ⟨hfresh, hrun⟩ := hs
  intro r hres ids hr b hb
  rcases exec_regions hrun hr with ⟨hop, hold⟩ | ⟨T, start, rfl⟩ | ⟨hash_values, rfl⟩
  · -- an old region
    have hmem : r ∈ res := by
      cases op with
      | reserve_blocks r' T start =>
        rcases List.mem_cons.1 hres with rfl | hres
        · rw [show m.reserved_blocks_table.lookup r = none from hfresh] at hold; cases hold
        · exact hres
      | activate_reserved_blocks r' _ | unpin_blocks r' | pin_blocks_by_hashes r' _ =>
        exact (List.mem_filter.1 hres).1
      | alloc_blocks _ | init_prefix_cache_blocks _ | update_prefix_cache_blocks _
      | update_filled_len _ _ | free _ | free_and_drop_cache _ | clear_cache => exact hres
    have hsealed := h r hmem ids hold b hb
    exact hsealed.of_unwritten (exec_unwritten href hold hb hsealed hop hrun)
  · -- the new one
    obtain ⟨region, m₁, hrun, hret⟩ := bind_ok.1 hrun
    cases hret
    obtain ⟨htable, hwritten, hinsert, hsame⟩ := BlockManager.reserve_blocks_planned href hrun
    by_cases hp : m.planned T start = []
    · rw [hsame hp, show m.reserved_blocks_table.lookup r = none from hfresh] at hr; cases hr
    · rw [hinsert hp, Table.lookup_insert_eq, if_pos rfl] at hr
      obtain rfl := Option.some.inj hr
      obtain ⟨p, hpmem, rfl⟩ := List.mem_map.1 hb
      obtain ⟨hone, hhash, -⟩ := hwritten p hpmem
      simp only [careful, List.all_eq_true, decide_eq_true_eq] at hcare
      refine ⟨hone, fun hk => hcare p hpmem ?_⟩
      rw [hhash, htable] at hk; exact hk
  · simp only [track, List.mem_filter, decide_not, Bool.not_eq_true', decide_eq_false_iff_not,
      not_true, and_false] at hres

theorem run_allSealed {bs : Nat} {hbs : 0 < bs} {ops : List BmOp}
    (h : Run (fun m op m' => op.careful m = true ∧ Step m op m') (BlockManager.new bs hbs n) ops m) :
    AllSealed (reserved_regions ops) m := by
  induction h with
  | nil => exact fun r hr => by simp [reserved_regions] at hr
  | @snoc ops op m₁ m₂ hprev hs ih =>
    have href := run_refInv (hprev.mono fun _ _ _ h => h.2)
    rw [reserved_regions, List.foldl_append]
    exact ih.step href hs.2 hs.1

omit [Hasher] in
theorem free_block_quiet {x : Nat} (hrun : BlockManager.on_allocator (BlockAllocator.free_block x) m =
    .ok .unit m') : BlockManager.Quiet m m' := by
  obtain ⟨a, ha, rfl⟩ := zoom_ok.1 hrun
  unfold BlockAllocator.free_block at ha
  split at ha
  · cases ha
  · rename_i block hblock
    obtain ⟨hlt, -⟩ := List.getElem?_eq_some_iff.1 hblock
    rw [BlockAllocator.getElem?_pool hlt] at hblock
    obtain rfl := Option.some.inj hblock
    split at ha
    · dsimp only at ha
      split at ha
      · split at ha
        · cases ha
        · cases ha; exact BlockManager.quiet_of_set rfl rfl
      · cases ha; exact BlockManager.quiet_of_set (l := m.block_allocator.free_block_ids) rfl rfl
    · cases ha

/-- Block `b` has hash `h`, and the table does not list it there. -/
def HiddenUnder (h b : Nat) (m : BlockManager) : Prop :=
  (m.get_block b).hash = h ∧ m.hash_block_table.lookup h ≠ some b

omit [Hasher] in
/-- An activation publishes blocks under the listed hashes only. -/
theorem activate_block_hiddenUnder {hash_values : List Nat} {h : Nat} (hh : h ∉ hash_values) (x : Nat) :
    Triple (HiddenUnder h b) (BlockManager.activate_block hash_values x) (fun _ => HiddenUnder h b)
      fun _ => True := by
  refine Triple.get_bind fun s hs => Triple.bind (R := fun _ => HiddenUnder h b)
    (Triple.modify fun s' e => ?_) fun _ => ?_
  · subst e
    split
    · rename_i hlisted
      refine ⟨hs.1, ?_⟩
      show (s'.hash_block_table.insert _ _).lookup h ≠ some b
      rw [Table.lookup_insert_eq, if_neg]
      · exact hs.2
      · rintro rfl; exact hh hlisted.1
    · exact hs
  · refine Triple.bind (R := fun _ => HiddenUnder h b) (fun s hs => ?_) fun _ => Triple.pure fun _ h => h
    cases hfree : BlockManager.on_allocator (BlockAllocator.free_block x) s with
    | error e s' => trivial
    | ok _ s' =>
      have hq := free_block_quiet hfree
      exact ⟨(hq.content b).2.trans hs.1, by rw [hq.table]; exact hs.2⟩

omit [Hasher] in
theorem activate_hidden {hash_values : List Nat} (hb : m.Hidden b)
    (hhash : (m.get_block b).hash ∉ hash_values)
    (hrun : BlockManager.activate_reserved_blocks r hash_values m = .ok k m') : m'.Hidden b := by
  replace hrun := BlockManager.get_ok hrun
  cases hlook : m.reserved_blocks_table.lookup r with
  | none =>
    rw [hlook] at hrun
    obtain ⟨-, rfl⟩ : _ ∧ m = m' := by simpa using hrun
    exact hb
  | some ids =>
    rw [hlook] at hrun
    obtain ⟨l, m₁, hloop, hret⟩ := bind_ok.1 (BlockManager.modify_ok hrun)
    obtain ⟨-, rfl⟩ : _ ∧ m₁ = m' := by simpa using hret
    have hstart : HiddenUnder (m.get_block b).hash b
        { m with reserved_blocks_table := m.reserved_blocks_table.erase r } := ⟨rfl, hb⟩
    obtain ⟨hsame, hnot⟩ := (Triple.mapM (fun _ _ => HiddenUnder (m.get_block b).hash b)
      (fun x _ _ => activate_block_hiddenUnder hhash x) ids []).of_ok hstart hloop
    intro hk
    rw [hsame] at hk; exact hnot hk

/-- In every run whose reservations are all careful, the blocks of a region that `reserve_blocks` created
and that was not given up are found by no lookup, and after the region's activation the ones whose
hash it does not list are still not found. A reservation that is not careful, from any state of a run,
makes a block of its region visible right away. -/
theorem reserved_blocks_invisible {bs : Nat} {hbs : 0 < bs} {ops : List BmOp}
    (h : Run (fun m op m' => op.careful m = true ∧ Step m op m') (BlockManager.new bs hbs n) ops m) :
    (∀ r ∈ reserved_regions ops, ∀ ids, m.reserved_blocks_table.lookup r = some ids → ∀ b ∈ ids,
      m.Invisible b ∧ ∀ hash_values m', Step m (.activate_reserved_blocks r hash_values) m' →
        (m.get_block b).hash ∉ hash_values → m'.Invisible b) ∧
    ∀ r T start m', Step m (.reserve_blocks r T start) m' → careful m (.reserve_blocks r T start) = false →
      ∃ ids, m'.reserved_blocks_table.lookup r = some ids ∧ ∃ b ∈ ids, ¬ m'.Invisible b := by
  have href := run_refInv (h.mono fun _ _ _ h => h.2)
  refine ⟨fun r hr ids hids b hb => ?_, fun r T start m' ⟨hfresh, hrun⟩ hcare => ?_⟩
  · have hsealed := run_allSealed h r hr ids hids b hb
    refine ⟨hsealed.hidden.invisible, fun hash_values m' ⟨_, hrun⟩ hhash => ?_⟩
    obtain ⟨k, m₁, hrun, hret⟩ := bind_ok.1 hrun
    cases hret
    exact (activate_hidden hsealed.hidden hhash hrun).invisible
  · obtain ⟨region, m₁, hrun, hret⟩ := bind_ok.1 hrun
    cases hret
    obtain ⟨htable, hwritten, hinsert, -⟩ := BlockManager.reserve_blocks_planned href hrun
    simp only [careful, List.all_eq_false, decide_eq_true_eq, not_not] at hcare
    obtain ⟨p, hp, hlook⟩ := hcare
    refine ⟨_, ?_, p.1, List.mem_map.2 ⟨p, hp, rfl⟩, fun hinv => hinv.lookup p.2 ?_⟩
    · rw [hinsert (List.ne_nil_of_mem hp), Table.lookup_insert_eq, if_pos rfl]
    · rw [BlockManager.lookup_block_id_eq_some, htable]
      exact ⟨hlook, (hwritten p hp).2.1⟩

/-- `next`, for careful operations. -/
def careful_next (m : BlockManager) (op : BmOp) : Option BlockManager :=
  if op.careful m then next m op else none

theorem step_of_careful_next (h : careful_next m op = some m') :
    op.careful m = true ∧ Step m op m' := by
  unfold careful_next at h
  split at h
  · rename_i hcare; exact ⟨hcare, step_of_next h⟩
  · cases h

end

theorem reserved_blocks_invisible_first :
    let _ := decimalHasher
    ∃ m, Run (fun m op m' => op.careful m = true ∧ Step m op m')
        (BlockManager.new 2 (by decide) 1) [.reserve_blocks 0 [1, 2] 0] m ∧
      m.reserved_blocks_table.lookup 0 = some [0] ∧ m.Invisible 0 := by
  intro _
  have hfollow : (Run.follow careful_next (BlockManager.new 2 (by decide) 1)
      [.reserve_blocks 0 [1, 2] 0]).any
      (fun m => m.reserved_blocks_table.lookup 0 = some [0]) = true := by decide +kernel
  obtain ⟨m, hrun, hm⟩ := Run.exists_of_follow (fun _ _ _ => step_of_careful_next) hfollow
  have hids : m.reserved_blocks_table.lookup 0 = some [0] := by simpa using hm
  exact ⟨m, hrun, hids, ((reserved_blocks_invisible hrun).1 0 (by decide) _ hids 0 (by decide)).1⟩

/-- Two copies of the same prefix through a pool of one block: the block comes back under the hash the
table has kept for it. -/
def twiceReserved : List BmOp :=
  let _ := decimalHasher
  [.reserve_blocks 0 [1, 2] 0, .activate_reserved_blocks 0 [compute_hash [1, 2]],
    .reserve_blocks 1 [1, 2] 0]

theorem reserved_block_visible :
    let _ := decimalHasher
    ∃ m, Run Step (BlockManager.new 2 (by decide) 1) twiceReserved m ∧
      1 ∈ reserved_regions twiceReserved ∧ m.reserved_blocks_table.lookup 1 = some [0] ∧
      m.lookup_block_id (compute_hash [1, 2]) = some 0 ∧ m.get_prefix_cache_blocks [1, 2] = [0] := by
  intro _
  have hfollow : (Run.follow next (BlockManager.new 2 (by decide) 1) twiceReserved).any
      (fun m => m.reserved_blocks_table.lookup 1 = some [0] ∧
        m.lookup_block_id (compute_hash [1, 2]) = some 0 ∧
        m.get_prefix_cache_blocks [1, 2] = [0]) = true := by decide +kernel
  obtain ⟨m, hrun, hm⟩ := Run.exists_of_follow (fun _ _ _ => step_of_next) hfollow
  exact ⟨m, hrun, by decide, by simpa using hm⟩

end BmOp

end LMServe
