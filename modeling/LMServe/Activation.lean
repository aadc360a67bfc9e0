import LMServe.Content
import LMServe.MapFrame

/-!
# What an activation makes findable

`activate_reserved_blocks` keeps an entry that the table has already. So it makes the blocks of a region
findable exactly if the entries of their hashes, where there are any, lead to blocks with these hashes
and tokens (`Publishable`). `reserve_blocks` recycles blocks without removing their entries, so there
are others. Where all the blocks of a region become findable, the trigger of the task it was reserved
for extends the map of the head sequence by all of them.
-/

namespace LMServe
open Hoare Chunk Ownership

namespace BlockManager

section
variable {n r : Nat} {ids hash_values : List Nat} {m m' : BlockManager}

/-! ### Publishing a region -/

/-- Under the listed hashes of the blocks `ids`, the table leads to blocks with the same hash and tokens, if
anywhere; and these blocks have the same tokens if they have the same hash. -/
def Publishable (m : BlockManager) (ids hash_values : List Nat) : Prop :=
  ∀ x ∈ ids, (m.get_block x).hash ∈ hash_values →
    (∀ b, m.hash_block_table.lookup (m.get_block x).hash = some b → m.content b = m.content x) ∧
    ∀ y ∈ ids, (m.get_block y).hash = (m.get_block x).hash → m.content y = m.content x

instance (m : BlockManager) (ids hash_values : List Nat) : Decidable (m.Publishable ids hash_values) :=
  have : ∀ x, Decidable (∀ b, m.hash_block_table.lookup (m.get_block x).hash = some b →
      m.content b = m.content x) := fun x =>
    match h : m.hash_block_table.lookup (m.get_block x).hash with
    | some b => decidable_of_iff (m.content b = m.content x)
        ⟨fun hb b' hb' => Option.some.inj hb' ▸ hb, fun hb => hb b rfl⟩
    | none => isTrue fun b hb => by cases hb
  inferInstanceAs (Decidable (∀ x ∈ ids, _ → _ ∧ _))

/-- Block `x` is found under its hash, or another block with the same content is. -/
def Found (m m' : BlockManager) (x : Nat) : Prop :=
  ∃ b, m'.lookup_block_id (m.get_block x).hash = some b ∧ (m'.get_block b).hash = (m.get_block x).hash ∧
    (m'.get_block b).token_ids = (m.get_block x).token_ids

theorem exists_activated (hinv : m.RefInv n []) (r : Nat) (hash_values : List Nat) :
    ∃ k m', activate_reserved_blocks r hash_values m = .ok k m' := by
  have hone : ∀ {b : Nat} {held : List Nat} {m : BlockManager}, m.RefInv n (b :: held) →
      ∃ k m', activate_block hash_values b m = .ok k m' ∧ m'.RefInv n held := by
    intro b held m hinv
    have hb : b < n := hinv.lt_of_mem (List.mem_cons_self ..)
    obtain ⟨m₁, hpub, hinv₁⟩ : ∃ m₁, publish_reserved hash_values (m.get_block b).hash b m = .ok .unit m₁ ∧
        m₁.RefInv n (b :: held) := by
      refine ⟨_, rfl, ?_⟩
      exact (publish_reserved_refInv (E := NoFault) hash_values _ hb).of_ok hinv rfl
    obtain ⟨m₂, hfree, hinv₂, -⟩ := free_block_spec hinv₁
    exact ⟨_, m₂, bind_ok.2 ⟨m, m, rfl, bind_ok.2 ⟨.unit, m₁, hpub, bind_ok.2 ⟨.unit, m₂, hfree, rfl⟩⟩⟩, hinv₂⟩
  have hall : ∀ (ids : List Nat) {m : BlockManager}, m.RefInv n ids →
      ∃ l m', ids.mapM (activate_block hash_values) m = .ok l m' := by
    intro ids
    induction ids with
    | nil => exact fun {m} _ => ⟨[], m, by rw [List.mapM_nil]; rfl⟩
    | cons b ids ih =>
      intro m hinv
      obtain ⟨k, m₁, hb, hinv₁⟩ := hone hinv
      obtain ⟨l, m₂, hl⟩ := ih hinv₁
      exact ⟨k :: l, m₂, by rw [List.mapM_cons]; exact bind_ok.2 ⟨k, m₁, hb, bind_ok.2 ⟨l, m₂, hl, rfl⟩⟩⟩
  unfold activate_reserved_blocks
  rw [bind_apply, get_apply]
  dsimp only
  cases hr : m.reserved_blocks_table.lookup r with
  | none => exact ⟨0, m, rfl⟩
  | some ids =>
    have herased := hinv.erase_region hr
    rw [List.append_nil] at herased
    obtain ⟨l, m', hl⟩ := hall ids herased
    exact ⟨l.sum, m', bind_ok.2 ⟨.unit, _, rfl, bind_ok.2 ⟨l, m', hl, rfl⟩⟩⟩

theorem activated_found_iff (hr : m.reserved_blocks_table.lookup r = some ids) {k : Nat}
    (hrun : activate_reserved_blocks r hash_values m = .ok k m') :
    (∀ x ∈ ids, (m.get_block x).hash ∈ hash_values → Found m m' x) ↔ m.Publishable ids hash_values := by
  obtain ⟨-, -, hcontent, htable⟩ := activate_reserved_blocks_ok hrun
  rw [hr] at htable
  -- what is found under a listed hash of the region
  have hlook : ∀ x ∈ ids, (m.get_block x).hash ∈ hash_values → ∃ b,
      m'.hash_block_table.lookup (m.get_block x).hash = some b ∧
      (m.hash_block_table.lookup (m.get_block x).hash = some b ∨
        m.hash_block_table.lookup (m.get_block x).hash = none ∧ b ∈ ids ∧
          (m.get_block b).hash = (m.get_block x).hash) := by
    intro x hx hlisted
    rw [htable, if_pos hlisted, Option.getD_some, published_block]
    cases hold : m.hash_block_table.lookup (m.get_block x).hash with
    | some b => exact ⟨b, rfl, .inl rfl⟩
    | none =>
      dsimp only
      cases hfind : ids.find? fun b => (m.get_block b).hash = (m.get_block x).hash with
      | none => exact absurd (List.find?_eq_none.1 hfind x hx) (by simp)
      | some b =>
        exact ⟨b, rfl, .inr ⟨rfl, List.mem_of_find?_eq_some hfind, by simpa using List.find?_some hfind⟩⟩
  have hfound : ∀ x ∈ ids, ∀ b, m'.hash_block_table.lookup (m.get_block x).hash = some b →
      (Found m m' x ↔ m.content b = m.content x) := by
    intro x _ b hb
    constructor
    · rintro ⟨b', hb', hhash, htokens⟩
      obtain ⟨hb', -⟩ := lookup_block_id_eq_some.1 hb'
      obtain rfl : b' = b := Option.some.inj (hb'.symm.trans hb)
      exact Prod.ext ((hcontent b').1.symm.trans htokens) ((hcontent b').2.symm.trans hhash)
    · intro hsame
      have hhash : (m'.get_block b).hash = (m.get_block x).hash := (hcontent b).2.trans (congrArg Prod.snd hsame)
      exact ⟨b, lookup_block_id_eq_some.2 ⟨hb, hhash⟩, hhash, (hcontent b).1.trans (congrArg Prod.fst hsame)⟩
  constructor
  · intro h x hx hlisted
    obtain ⟨b, hb, hcase⟩ := hlook x hx hlisted
    have hbx := (hfound x hx b hb).1 (h x hx hlisted)
    refine ⟨fun b' hb' => ?_, fun y hy hyx => ?_⟩
    · rcases hcase with hold | ⟨hnone, -⟩
      · obtain rfl : b = b' := Option.some.inj (hold.symm.trans hb')
        exact hbx
      · rw [hnone] at hb'; cases hb'
    · have hby := (hfound y hy b (hyx ▸ hb)).1 (h y hy (hyx ▸ hlisted))
      exact hby.symm.trans hbx
  · intro h x hx hlisted
    obtain ⟨b, hb, hcase⟩ := hlook x hx hlisted
    refine (hfound x hx b hb).2 ?_
    rcases hcase with hold | ⟨-, hmem, hhash⟩
    · exact (h x hx hlisted).1 b hold
    · exact (h x hx hlisted).2 b hmem hhash

/-! ### Looking up a prefix -/

variable [Hasher]

/-- As many hits as there are blocks found in a row. -/
theorem le_prefix_hits {T : List Nat} {stop : Nat} (k : Nat) : ∀ {start : Nat},
    (0 < k → start + k * m.block_size ≤ stop) →
    (∀ j < k, (m.lookup_block_id (compute_hash (T.take (start + (j + 1) * m.block_size)))).isSome) →
    k ≤ (m.prefix_hits T stop (step_by start stop m.block_size)).length := by
  induction k with
  | zero => exact fun _ _ => Nat.zero_le _
  | succ k ih =>
    intro start hstop hfound
    have hpos := m.block_size_pos
    replace hstop := hstop (Nat.succ_pos k)
    rw [Nat.add_mul, Nat.one_mul] at hstop
    rw [step_by_cons hpos (by omega), prefix_hits]
    rw [if_neg (by omega), Nat.min_eq_left (by omega)]
    have hfirst := hfound 0 (Nat.succ_pos k)
    rw [Nat.zero_add, Nat.one_mul] at hfirst
    obtain ⟨b, hb⟩ := Option.isSome_iff_exists.1 hfirst
    rw [hb, List.length_cons]
    refine Nat.succ_le_succ (ih (fun _ => by omega) fun j hj => ?_)
    have hshift : start + m.block_size + (j + 1) * m.block_size = start + (j + 1 + 1) * m.block_size := by ring
    rw [hshift]
    exact hfound (j + 1) (Nat.succ_lt_succ hj)

theorem init_prefix_filled {seq : Sequence} {k a : Nat} (hnone : m.get_block_map seq.seq_id = none)
    (hlen : 0 < k → k * m.block_size ≤ seq.token_ids.length)
    (hfound : ∀ j < k, (m.lookup_block_id (compute_hash (seq.token_ids.take ((j + 1) * m.block_size)))).isSome)
    (hrun : init_prefix_cache_blocks seq m = .ok a m') : k * m.block_size ≤ m'.get_filled_token_len seq.seq_id := by
  replace hrun := get_ok hrun
  rw [hnone] at hrun
  obtain ⟨_, m₁, hretain, hrest⟩ := bind_ok.1 hrun
  obtain ⟨-, rfl⟩ : _ ∧ _ = m' := by simpa using modify_ok hrest
  rw [get_filled_token_len, get_block_map_set_block_map, if_pos rfl]
  refine Nat.mul_le_mul_right _ (le_prefix_hits k (by rwa [Nat.zero_add]) fun j hj => ?_)
  rw [Nat.zero_add]
  exact hfound j hj

theorem update_prefix_filled {seq : Sequence} {q k a : Nat} (hfilled : m.get_filled_token_len seq.seq_id = q * m.block_size)
    (hlen : 0 < k → (q + k) * m.block_size ≤ seq.token_ids.length)
    (hfound : ∀ j < k, (m.lookup_block_id (compute_hash (seq.token_ids.take ((q + j + 1) * m.block_size)))).isSome)
    (hrun : update_prefix_cache_blocks seq m = .ok a m') :
    (q + k) * m.block_size ≤ m'.get_filled_token_len seq.seq_id := by
  have hpos := m.block_size_pos
  replace hrun := get_ok hrun
  cases hm : m.get_block_map seq.seq_id with
  | none =>
    rw [hm] at hrun
    rw [get_filled_token_len, hm] at hfilled
    obtain rfl : q = 0 := by
      rcases Nat.mul_eq_zero.1 hfilled.symm with h | h
      · exact h
      · omega
    simp only [Nat.zero_add] at hlen hfound ⊢
    exact init_prefix_filled hm hlen hfound hrun
  | some map =>
    rw [hm] at hrun
    rw [get_filled_token_len, hm] at hfilled
    dsimp only at hfilled hrun
    obtain ⟨ids, m₁, hrange, hrest⟩ := bind_ok.1 hrun
    obtain ⟨_, m₂, hretain, hrest⟩ := bind_ok.1 hrest
    obtain ⟨-, rfl⟩ : _ ∧ _ = m' := by simpa using modify_ok hrest
    rw [get_filled_token_len, get_block_map_set_block_map, if_pos rfl]
    dsimp only
    replace hrange := get_ok hrange
    rw [hfilled, div_ceil_mul hpos, Nat.min_self] at hrange
    split at hrange
    · obtain ⟨rfl, -⟩ : _ = ids ∧ _ := by simpa using hrange
      rw [hfilled, Nat.add_mul]
      refine Nat.add_le_add_left (Nat.mul_le_mul_right _ (le_prefix_hits k ?_ fun j hj => ?_)) _
      · rwa [← Nat.add_mul]
      · rw [← Nat.add_mul, ← Nat.add_assoc]
        exact hfound j hj
    · simp at hrange

omit [Hasher] in
theorem filled_of_maps {i : Nat} {map : BlockMap}
    (hmaps : m'.get_block_map = Function.update m.get_block_map i (some map)) (j : Nat) :
    m'.get_filled_token_len j = if j = i then map.filled_token_len else m.get_filled_token_len j := by
  unfold get_filled_token_len
  rw [congrFun hmaps j]
  by_cases hj : j = i
  · rw [hj, Function.update_self, if_pos rfl]
  · rw [Function.update_of_ne hj, if_neg hj]

theorem init_prefix_filled_eq {seq : Sequence} {a : Nat} (hrun : init_prefix_cache_blocks seq m = .ok a m') :
    (∀ j, m'.get_filled_token_len j = m.get_filled_token_len j) ∨
      ∃ k, ∀ j, m'.get_filled_token_len j =
        if j = seq.seq_id then k * m.block_size else m.get_filled_token_len j := by
  replace hrun := get_ok hrun
  cases hm : m.get_block_map seq.seq_id with
  | some b =>
    rw [hm] at hrun
    obtain ⟨-, rfl⟩ : _ ∧ m = m' := by simpa using hrun
    exact .inl fun _ => rfl
  | none =>
    rw [hm] at hrun
    obtain ⟨_, m₁, hretain, hrest⟩ := bind_ok.1 hrun
    have hmaps := (Keeps.maps (retain_all_tables _)).of_ok hretain
    obtain ⟨-, rfl⟩ : _ ∧ _ = m' := by simpa using modify_ok hrest
    refine .inr ⟨(m.get_prefix_cache_blocks seq.token_ids).length, fun j => ?_⟩
    rw [get_filled_token_len, get_block_map_set_block_map, congrFun hmaps]
    by_cases hj : j = seq.seq_id
    · rw [if_pos hj, if_pos hj]
    · rw [if_neg hj, if_neg hj]; rfl

/-! ### A reserved region -/

section
variable {q : Nat} {T : List Nat}

theorem Stamped.of_take {k : Nat} (h : m.Stamped (T.take k) q ids) : m.Stamped T q ids := by
  intro j x hj
  obtain ⟨hfits, hlen, hhash⟩ := h j x hj
  rw [List.length_take] at hfits
  refine ⟨hfits.trans (Nat.min_le_right _ _), hlen, ?_⟩
  rw [hhash, List.take_take, Nat.min_eq_left (hfits.trans (Nat.min_le_left _ _))]

/-- A region that continues the map of a sequence becomes a part of it when all its blocks can be
published. -/
theorem Stamped.filled {seq : Sequence} {m₁ : BlockManager} {a b : Nat} (h : m.Stamped seq.token_ids q ids)
    (hr : m.reserved_blocks_table.lookup r = some ids) (hpub : m.Publishable ids hash_values)
    (hall : ∀ x ∈ ids, (m.get_block x).hash ∈ hash_values)
    (hfilled : m.get_filled_token_len seq.seq_id = q * m.block_size)
    (hact : activate_reserved_blocks r hash_values m = .ok a m₁)
    (hupd : update_prefix_cache_blocks seq m₁ = .ok b m') :
    m.get_filled_token_len seq.seq_id + ids.length * m.block_size ≤ m'.get_filled_token_len seq.seq_id := by
  have hfound := (activated_found_iff hr hact).2 hpub
  obtain ⟨hmaps, hsize, -, -⟩ := activate_reserved_blocks_ok hact
  have hfilled₁ : m₁.get_filled_token_len seq.seq_id = q * m₁.block_size := by
    rw [hsize, ← hfilled, get_filled_token_len, hmaps]; rfl
  have hgrown := update_prefix_filled (k := ids.length) hfilled₁ ?_ ?_ hupd
  · rw [hfilled, ← Nat.add_mul, ← hsize]
    exact hgrown
  · -- the last block ends within the tokens
    intro hpos
    have hlast : ids.length - 1 < ids.length := by omega
    obtain ⟨hfits, -, -⟩ := h _ _ (List.getElem?_eq_getElem hlast)
    rwa [show q + (ids.length - 1) + 1 = q + ids.length by omega, ← hsize] at hfits
  · intro j hj
    have hx : ids[j]? = some ids[j] := List.getElem?_eq_getElem hj
    obtain ⟨-, -, hhash⟩ := h j _ hx
    obtain ⟨c, hc, -⟩ := hfound ids[j] (List.getElem_mem hj) (hall _ (List.getElem_mem hj))
    rw [hsize, ← hhash, hc]
    rfl

end

end

/-! ### Fill levels -/

section
variable [Hasher] {i : Nat} {m m' : BlockManager}

/-- The map of the sequence, if there is one, is filled up to the end of a block. -/
def Flush (i : Nat) (m : BlockManager) : Prop := m.block_size ∣ m.get_filled_token_len i

theorem Flush.init {seq : Sequence} (h : Flush i m) (hs : (BmOp.init_prefix_cache_blocks seq).Step m m') :
    Flush i m' := by
  have hsize : m'.block_size = m.block_size := (BmOp.exec_block_size _).of_ok hs.2
  obtain ⟨a, m₁, hrun, hret⟩ := bind_ok.1 hs.2
  obtain rfl : m₁ = m' := by simpa using hret
  unfold Flush at h ⊢
  rw [hsize]
  rcases init_prefix_filled_eq hrun with hsame | ⟨k, hnew⟩
  · rw [hsame]; exact h
  · rw [hnew]
    split
    · exact Nat.dvd_mul_left _ _
    · exact h

theorem Flush.reserve {r start : Nat} {T : List Nat} (h : Flush i m) (hs : (BmOp.reserve_blocks r T start).Step m m') :
    Flush i m' := by
  have hsize : m'.block_size = m.block_size := (BmOp.exec_block_size _).of_ok hs.2
  unfold Flush at h ⊢
  rw [hsize, get_filled_token_len, BmOp.step_map_other hs (by simp [BmOp.map_of])]
  exact h

end

end BlockManager

open BlockManager

/-! ### From the request to the trigger -/

/-- Nothing is asked of any task. -/
def Lifecycle.anyStages [Watch] : Lifecycle where
  waiting := seqStage (fun _ _ => True) fun _ h => h
  allocated := seqStage (fun _ _ => True) fun _ h => h
  ready := seqStage (fun _ _ => True) fun _ h => h
  finished := seqStage (fun _ _ => True) fun _ h => h
  gone := fun _ => True
  gone_refilled := fun _ h => h
  gone_none := trivial
  extend := fun _ _ _ _ _ _ _ => trivial
  mirror := fun _ _ _ _ _ => trivial
  admission := fun _ _ _ _ _ _ _ => trivial
  preempt := fun _ _ _ _ _ => trivial
  settle := fun h => h
  give_up := fun h _ => h
  drop := fun _ _ _ _ => trivial
  create := fun _ _ _ => trivial
  look_up := fun _ _ _ _ => trivial
  update := fun {t t' f} _ _ => by split <;> exact fun _ _ => trivial
  remove := fun _ _ _ _ => trivial

namespace Scheduler

section
variable [Hasher] {r : Nat} {s s' : Scheduler}

/-- At most one region is reserved, for the tokens behind what the destination has filled. -/
theorem reserve_copy_blocks_ok {seq : Sequence} {src_dev dst_dev : Device}
    {plan : Option (DeviceBlockRegion × BlockMapping)}
    (h : reserve_copy_blocks r seq src_dev dst_dev s = .ok plan s') :
    s' = s ∨ ∃ k region m, BlockManager.reserve_blocks r (seq.token_ids.take k)
      ((s.get_block_manager dst_dev).get_filled_token_len seq.seq_id) (s.get_block_manager dst_dev) = .ok region m ∧
        s' = s.set_block_manager dst_dev m := by
  replace h := BlockManager.get_ok h
  split at h
  · obtain ⟨-, rfl⟩ : _ ∧ s = s' := by simpa using h
    exact .inl rfl
  · cases hrange : (s.get_block_manager src_dev).get_block_ids_range seq.seq_id
        ((s.get_block_manager dst_dev).get_filled_token_len seq.seq_id)
        ((s.get_block_manager src_dev).get_filled_token_len seq.seq_id) false with
    | none =>
      simp only [hrange] at h
      obtain ⟨-, rfl⟩ : _ ∧ s = s' := by simpa using h
      exact .inl rfl
    | some range =>
      simp only [hrange] at h
      split at h
      · obtain ⟨region, s₁, hon, hret⟩ := bind_ok.1 h
        obtain ⟨-, rfl⟩ : _ ∧ s₁ = s' := by simpa using hret
        obtain ⟨m, hm, rfl⟩ := on_device_ok hon
        exact .inr ⟨_, region, m, hm, rfl⟩
      · obtain ⟨-, rfl⟩ : _ ∧ s = s' := by simpa using h
        exact .inl rfl

theorem plan_stage_ok {t : InferTask} {plan : Option (DeviceBlockRegion × BlockMapping)}
    (h : plan_stage r t s = .ok plan s') : ∃ σ head, init_prefix_cache_blocks t [.Host, .Disk] s = .ok .unit σ ∧
      t.get_head_seq = some head ∧ (s' = σ ∨ ∃ k region m, BlockManager.reserve_blocks r (head.token_ids.take k)
        (σ.host_block_manager.get_filled_token_len head.seq_id) σ.host_block_manager = .ok region m ∧
          s' = σ.set_block_manager .Host m) := by
  obtain ⟨_, σ, hinit, hrest⟩ := bind_ok.1 h
  replace hrest := BlockManager.get_ok hrest
  cases hhead : t.get_head_seq with
  | none => rw [hhead] at hrest; simp at hrest
  | some head =>
    rw [hhead] at hrest
    dsimp only at hrest
    split at hrest
    · obtain ⟨-, rfl⟩ : _ ∧ σ = s' := by simpa using hrest
      exact ⟨σ, head, hinit, rfl, .inl rfl⟩
    · have hcopy := reserve_copy_blocks_ok hrest
      exact ⟨σ, head, hinit, rfl, hcopy⟩

end

end Scheduler

namespace Op

section
variable [Hasher] {s s' : System} {op : Op} {request : GenerateRequest} {arrival : Nat}

/-- The step is the one with which the engine accepts the request. -/
def Accepts (op : Op) (request : GenerateRequest) (arrival : Nat) : Prop :=
  op = .add_request request arrival ∨ op = .reserve_request request arrival

omit [Hasher] in
theorem Accepts.draws (h : op.Accepts request arrival) : op.draws s = true := by
  rcases h with rfl | rfl <;> rfl

theorem Accepts.reserved (hop : op.Accepts request arrival) (hs : op.Step s s') :
    ∃ σ head, Preparing s op σ ∧ (request.to_task s.next_seq_id arrival).get_head_seq = some head ∧
      (s'.scheduler.host_block_manager = σ.host_block_manager ∨ ∃ k region,
        reserve_blocks s.next_region_id (head.token_ids.take k)
          (σ.host_block_manager.get_filled_token_len head.seq_id) σ.host_block_manager =
            .ok region s'.scheduler.host_block_manager) := by
  rcases hop with rfl | rfl
  · obtain ⟨plan, s₁, hrun, hs⟩ := bind_ok.1 hs
    obtain rfl : s₁ = s' := by simpa using hs
    obtain ⟨σ, σ₁, σ₂, plan', hσ, hσ₁, rfl, hdev, -⟩ := System.add_request_ok hrun
    obtain ⟨σ', head, hinit, hhead, hcase⟩ := Scheduler.plan_stage_ok hσ₁
    have hlook : Triple (Preparing s (.add_request request arrival))
        (Scheduler.init_prefix_cache_blocks (request.to_task s.next_seq_id arrival) [.Host, .Disk])
        (fun _ => Preparing s (.add_request request arrival)) AnyError :=
      Scheduler.init_prefix_cache_blocks_triple fun seq hseq d => init_prefix_unreserved (.look_up d hseq)
    refine ⟨σ', head, hlook.of_ok (hlook.of_ok (Preparing.start s _) hσ) hinit, hhead, ?_⟩
    rcases hcase with rfl | ⟨k, region, m, hm, rfl⟩
    · exact .inl (hdev .Host)
    · refine .inr ⟨k, region, ?_⟩
      rw [show σ₂.host_block_manager = m from hdev .Host]
      exact hm
  · obtain ⟨region, s₁, hrun, hs⟩ := bind_ok.1 hs
    obtain rfl : s₁ = s' := by simpa using hs
    obtain ⟨t, s₂, hcreate, hrun⟩ := bind_ok.1 hrun
    obtain ⟨rfl, rfl⟩ := System.create_task_ok hcreate
    obtain ⟨r, s₃, hid, hrun⟩ := bind_ok.1 hrun
    obtain ⟨rfl, rfl⟩ := System.generate_id_ok hid
    obtain ⟨reg, s₄, hsch, hrun⟩ := bind_ok.1 hrun
    obtain ⟨σ, hσ, rfl⟩ := System.on_scheduler_ok hsch
    obtain ⟨-, rfl⟩ : _ ∧ _ = s₁ := by simpa using modify_ok hrun
    unfold Scheduler.reserve_blocks at hσ
    cases hhead : (request.to_task s.next_seq_id arrival).get_head_seq with
    | none => rw [hhead] at hσ; simp at hσ
    | some head =>
      rw [hhead] at hσ
      obtain ⟨region', σ₁, hon, hret⟩ := bind_ok.1 (get_ok hσ)
      obtain ⟨-, rfl⟩ : _ ∧ σ₁ = σ := by simpa using hret
      obtain ⟨m, hm, rfl⟩ := Scheduler.on_device_ok hon
      refine ⟨s.scheduler, head, Preparing.start s _, rfl, .inr ⟨head.token_ids.length, region', ?_⟩⟩
      rw [List.take_length]
      exact hm

end

end Op

namespace System

section
variable [Hasher] {c : SchedulerConfig} {s s' : System} {t : InferTask} {head : Sequence} {q r : Nat}

/-- The task `t` with head sequence `head` is not triggered yet: its map on the host ends with block
position `q`, and the region `r`, as long as it is outstanding, continues there. -/
structure Kept (t : InferTask) (head : Sequence) (q r : Nat) (s : System) : Prop where
  lt : r < s.next_region_id
  new : ∀ i ∈ t.ids, i < s.next_seq_id
  filled : t ∈ s.parked → s.scheduler.host_block_manager.get_filled_token_len head.seq_id =
    q * s.scheduler.host_block_manager.block_size
  stamped : ∀ ids, s.scheduler.host_block_manager.reserved_blocks_table.lookup r = some ids →
    s.scheduler.host_block_manager.Stamped head.token_ids q ids

/-- Somebody waits for the region `r` before triggering the session's task `t`. -/
def Awaits (c : SchedulerConfig) (t : InferTask) (session_id r : Nat) (s : System) : Prop :=
  ∃ s₀ s₁ op request arrival ops, Reachable c s₀ ∧ Op.Accepts op request arrival ∧ op.Step s₀ s₁ ∧
    Run Op.Step s₁ ops s ∧ r = s₀.next_region_id ∧ t = request.to_task s₀.next_seq_id arrival ∧
    s.scheduler.pending.lookup session_id = some t

theorem block_size_of_run [Watch] {ops : List Op} (hrun : Run Op.Step (System.new c) ops s) (d : Device) :
    (s.scheduler.get_block_manager d).block_size = c.block_size := by
  obtain ⟨bm_ops, hreached⟩ := manager_reached hrun d
  exact hreached.invariant (I := fun m => m.block_size = c.block_size) rfl fun m o m' hm hstep =>
    ((BmOp.exec_block_size o).of_ok hstep.2).trans hm

theorem anyStages_of_run [Watch] {ops : List Op} (hrun : Run Op.Step (System.new c) ops s) :
    Lifecycle.anyStages.Inv s :=
  hrun.invariant (Lifecycle.Inv.new _ c) fun _ _ _ hi hstep => hi.step hstep

theorem unmapped_of_run [Watch] {ops : List Op} (hrun : Run Op.Step (System.new c) ops s) {i : Nat}
    (hi : s.next_seq_id ≤ i) (d : Device) : (s.scheduler.get_block_manager d).get_block_map i = none := by
  have hinv := anyStages_of_run hrun
  refine congrFun ((hinv.rest i fun p hp hip => ?_).2 hi) d
  have hlt := hinv.inside p hp _ hip
  omega

theorem Kept.start {op : Op} {request : GenerateRequest} {arrival : Nat} (hop : op.Accepts request arrival)
    (hreach : Reachable c s) (hs : op.Step s s')
    (hhead : (request.to_task s.next_seq_id arrival).get_head_seq = some head) :
    ∃ q, Kept (request.to_task s.next_seq_id arrival) head q s.next_region_id s' := by
  obtain ⟨ops, hrun⟩ := hreach
  obtain ⟨bm_ops, hreached⟩ := manager_reached hrun .Host
  have hfree := (regionsBelow hrun).nextFree
  obtain ⟨σ, head', hprep, hhead', hcase⟩ := hop.reserved hs
  obtain rfl : head = head' := Option.some.inj (hhead.symm.trans hhead')
  have hseq : head ∈ (request.to_task s.next_seq_id arrival).seqs :=
    (List.mem_filter.1 (List.mem_of_mem_head? hhead)).1
  obtain ⟨j, -, hj⟩ : ∃ j < request.num_samples, s.next_seq_id + j = head.seq_id := by
    have hid : head.seq_id ∈ (request.to_task s.next_seq_id arrival).ids := List.mem_map.2 ⟨_, hseq, rfl⟩
    rw [Lifecycle.ids_to_task] at hid
    obtain ⟨j, hj, hid⟩ := List.mem_map.1 hid
    exact ⟨j, List.mem_range.1 hj, hid⟩
  have hnone : s.scheduler.host_block_manager.get_block_map head.seq_id = none :=
    unmapped_of_run hrun (by omega) .Host
  have hflush : Done (op.Does s .Host) s.scheduler.host_block_manager σ.host_block_manager →
      Flush head.seq_id σ.host_block_manager := fun hdone => by
    refine hdone.invariant (I := Flush head.seq_id) ?_ fun m o m' hm ho hstep => ?_
    · unfold Flush
      rw [get_filled_token_len, hnone]
      exact Nat.dvd_zero _
    · rcases hop with rfl | rfl
      · cases ho with
        | look_up => exact hm.init hstep
        | stage => exact hm.reserve hstep
      · cases ho with
        | reserve => exact hm.reserve hstep
  obtain ⟨q, hq⟩ := hflush (hprep .Host).1
  have hrefs : σ.host_block_manager.RefInv (c.num_blocks .Host) [] :=
    (hprep .Host).1.invariant (I := fun m => m.RefInv _ []) (BmOp.run_refInv hreached)
      fun _ o _ hm _ hstep => (BmOp.exec_refInv o).of_ok ⟨hm, hstep.1⟩ hstep.2
  have hfresh : σ.host_block_manager.reserved_blocks_table.lookup s.next_region_id = none := by
    rw [show σ.host_block_manager.reserved_blocks_table = _ from (hprep .Host).2]
    exact hfree .Host
  -- reserving leaves the maps and the block size alone
  have hsame : s'.scheduler.host_block_manager.block_size = σ.host_block_manager.block_size ∧
      s'.scheduler.host_block_manager.get_filled_token_len head.seq_id =
        σ.host_block_manager.get_filled_token_len head.seq_id := by
    rcases hcase with hsame | ⟨k, region, hreserve⟩
    · rw [hsame]; exact ⟨rfl, rfl⟩
    · have hstep : (BmOp.reserve_blocks s.next_region_id (head.token_ids.take k)
          (σ.host_block_manager.get_filled_token_len head.seq_id)).Step σ.host_block_manager
          s'.scheduler.host_block_manager := ⟨hfresh, Op.exec_discard hreserve⟩
      refine ⟨(BmOp.exec_block_size _).of_ok hstep.2, ?_⟩
      rw [get_filled_token_len, BmOp.step_map_other hstep (by simp [BmOp.map_of])]
      rfl
  refine ⟨q, ?_, fun i hi => ?_, fun _ => ?_, fun ids hids => ?_⟩
  · rw [Op.next_region_of_step hs, if_pos hop.draws]; exact Nat.lt_succ_self _
  · rw [Lifecycle.ids_to_task] at hi
    obtain ⟨j, hj, rfl⟩ := List.mem_map.1 hi
    have hnext : s'.next_seq_id = s.next_seq_id + request.num_samples := by
      rcases hop with rfl | rfl <;> exact (Op.Parks.of_step hs).2.1
    rw [hnext]
    exact Nat.add_lt_add_left (List.mem_range.1 hj) _
  · rw [hsame.2, hsame.1, hq, Nat.mul_comm]
  · rcases hcase with hsame | ⟨k, region, hreserve⟩
    · rw [hsame, hfresh] at hids; cases hids
    · have hstamped := (reserve_blocks_stamped hrefs hreserve hfresh hids).of_take
      rwa [hq, Nat.mul_div_cancel_left _ σ.host_block_manager.block_size_pos] at hstamped

theorem Kept.step {op : Op} (h : Kept t head q r s) (hmem : head.seq_id ∈ t.ids) {n : Nat}
    (hrefs : s.scheduler.host_block_manager.RefInv n []) (hinv : Lifecycle.anyStages.Inv s) (hfree : Op.NextFree s)
    (hs : op.Step s s') : Kept t head q r s' := by
  have hparks := Op.Parks.of_step hs
  have hdone := Op.Doing.step hfree hs .Host
  have hsize : s'.scheduler.host_block_manager.block_size = s.scheduler.host_block_manager.block_size :=
    hdone.invariant (I := fun m => m.block_size = s.scheduler.host_block_manager.block_size) rfl
      fun m o m' hm _ hstep => ((BmOp.exec_block_size o).of_ok hstep.2).trans hm
  refine ⟨?_, fun i hi => Nat.lt_of_lt_of_le (h.new i hi) hparks.next_seq_le, fun ht => ?_, fun ids hids => ?_⟩
  · have hlt := h.lt
    rw [Op.next_region_of_step hs]
    split <;> omega
  · rcases hparks.mem_parked ht with ⟨hold, htrigger⟩ | ⟨request, arrival, rfl⟩
    · -- the step works on other tasks
      have hother : ∀ u ∈ op.acts_on s, head.seq_id ∉ u.ids :=
        hinv.parked_untouched hold (fun session_id region_id hash_values hop u hu => by
          rcases htrigger _ _ _ hop with hres | ⟨i, hi, hpend⟩
          · exact hinv.pending_apart_reserving hres
              ((Table.values_erase_perm hu).subset (List.mem_cons_self ..))
          · exact hinv.pending_apart hi hpend hu) hmem
      have hmaps : s'.scheduler.host_block_manager.get_block_map head.seq_id =
          s.scheduler.host_block_manager.get_block_map head.seq_id :=
        congrFun (Op.step_maps_other hfree hs hother) Device.Host
      rw [hsize, ← h.filled hold, get_filled_token_len, hmaps]
      rfl
    · rw [Lifecycle.ids_to_task] at hmem
      obtain ⟨j, -, hj⟩ := List.mem_map.1 hmem
      have hlt := h.new head.seq_id (by rw [Lifecycle.ids_to_task]; exact hmem)
      omega
  · have hkept := hdone.invariant (I := fun m => m.RefInv n [] ∧ ∀ ids,
      m.reserved_blocks_table.lookup r = some ids → m.Stamped head.token_ids q ids) ⟨hrefs, h.stamped⟩
      fun m o m' hm ho hstep => ⟨(BmOp.exec_refInv o).of_ok ⟨hm.1, hstep.1⟩ hstep.2, fun ids hids => ?_⟩
    · exact hkept.2 ids hids
    · rcases BmOp.exec_regions hstep.2 hids with ⟨-, hold⟩ | hnew
      · exact (hm.2 ids hold).step hm.1 hstep hold hids
      · exact absurd (ho.draws hnew).1 (Nat.ne_of_lt h.lt)

theorem Awaits.kept {session_id : Nat} (h : Awaits c t session_id r s) (hhead : t.get_head_seq = some head) :
    ∃ q, Kept t head q r s := by
  obtain ⟨s₀, s₁, op, request, arrival, ops, hreach, hop, hs, hrun, rfl, rfl, -⟩ := h
  obtain ⟨q, hstart⟩ := Kept.start hop hreach hs hhead
  have hmem : head.seq_id ∈ (request.to_task s₀.next_seq_id arrival).ids :=
    List.mem_map.2 ⟨_, (List.mem_filter.1 (List.mem_of_mem_head? hhead)).1, rfl⟩
  obtain ⟨ops₀, hrun₀⟩ := hreach
  refine ⟨q, (hrun.invariant (I := fun s => (∃ ops, Run Op.Step (System.new c) ops s) ∧ Kept _ head q _ s)
    ⟨⟨_, hrun₀.snoc hs⟩, hstart⟩ fun s o s' hs hstep => ?_).2⟩
  obtain ⟨⟨ops', hrun'⟩, hkept⟩ := hs
  obtain ⟨bm_ops, hreached⟩ := manager_reached hrun' .Host
  exact ⟨⟨_, hrun'.snoc hstep⟩, hkept.step hmem (BmOp.run_refInv hreached)
    (anyStages_of_run hrun')
    (regionsBelow hrun').nextFree hstep⟩

/-- The trigger activates the region, looks up the prefixes of the head sequence, and queues the task. -/
theorem trigger_ok {session_id : Nat} {hash_values : List Nat}
    (hs : Op.Step s (.trigger session_id (some r) hash_values) s')
    (ht : s.scheduler.pending.lookup session_id = some t) (hhead : t.get_head_seq = some head) :
    ∃ k m a m', activate_reserved_blocks r hash_values s.scheduler.host_block_manager = .ok k m ∧
      update_prefix_cache_blocks head m = .ok a m' ∧ s'.scheduler.host_block_manager = m' := by
  obtain ⟨σ, hσ, rfl⟩ := on_scheduler_ok hs
  replace hσ := get_ok hσ
  simp only [ht] at hσ
  obtain ⟨_, σ₁, hact, hσ⟩ := bind_ok.1 (modify_ok hσ)
  simp only [hhead] at hσ
  obtain ⟨_, σ₂, hupd, hσ⟩ := bind_ok.1 hσ
  obtain rfl : _ = σ := by simpa using hσ
  obtain ⟨m, hm, rfl⟩ := Scheduler.on_device_ok hact
  obtain ⟨k, m₁, hactivate, hret⟩ := bind_ok.1 hm
  obtain rfl : m₁ = m := by simpa using hret
  obtain ⟨m', hm', rfl⟩ := Scheduler.on_device_ok hupd
  obtain ⟨a, m₂, hupdate, hret⟩ := bind_ok.1 hm'
  obtain rfl : m₂ = m' := by simpa using hret
  exact ⟨k, m₁, a, m₂, hactivate, hupdate, rfl⟩

/-- Exactly when every block of the region that is to be found can be published, activating the region makes
these blocks findable; and the trigger of the task that waits for it, with all its hashes, extends the map
of the head sequence on the host by the whole region. -/
theorem activation_publishes_iff {bs n : Nat} {hbs : 0 < bs} {ops : List BmOp} {m : BlockManager}
    (hrun : Run BmOp.Step (BlockManager.new bs hbs n) ops m) {ids : List Nat}
    (hr : m.reserved_blocks_table.lookup r = some ids) (hash_values : List Nat) :
    ((∃ k m', activate_reserved_blocks r hash_values m = .ok k m' ∧
        ∀ x ∈ ids, (m.get_block x).hash ∈ hash_values → Found m m' x) ∧
      ∀ c s s' t session_id head, s.scheduler.host_block_manager = m → Awaits c t session_id r s →
        t.get_head_seq = some head → (∀ x ∈ ids, (m.get_block x).hash ∈ hash_values) →
        Op.Step s (.trigger session_id (some r) hash_values) s' →
          m.get_filled_token_len head.seq_id + m.block_size * ids.length ≤
            s'.scheduler.host_block_manager.get_filled_token_len head.seq_id) ↔
      m.Publishable ids hash_values := by
  obtain ⟨k, m', hact⟩ := exists_activated (BmOp.run_refInv hrun) r hash_values
  have hiff := activated_found_iff hr hact
  constructor
  · rintro ⟨⟨k', m'', hact', hfound⟩, -⟩
    obtain ⟨-, rfl⟩ : _ ∧ m' = m'' := by simpa using hact.symm.trans hact'
    exact hiff.1 hfound
  · intro hpub
    refine ⟨⟨k, m', hact, hiff.2 hpub⟩, ?_⟩
    rintro c s s' t session_id head rfl hawaits hhead hall hs
    obtain ⟨q, hkept⟩ := hawaits.kept hhead
    have hpend : s.scheduler.pending.lookup session_id = some t := by
      obtain ⟨-, -, -, -, -, -, -, -, -, -, -, -, hpend⟩ := hawaits
      exact hpend
    obtain ⟨k₁, m₁, a, m₂, hact₁, hupd, hs'⟩ := trigger_ok hs hpend hhead
    rw [hs', Nat.mul_comm]
    refine (hkept.stamped ids hr).filled hr hpub hall (hkept.filled ?_) hact₁ hupd
    exact List.mem_append_left _ ((Table.values_erase_perm hpend).subset (List.mem_cons_self ..))

omit [Hasher] in
theorem activation_publishes_first :
    let _ := decimalHasher
    ∃ m, Run BmOp.Step (BlockManager.new 2 (by decide) 2) [.reserve_blocks 0 [1, 2] 0] m ∧
      ∃ k m', activate_reserved_blocks 0 [112] m = .ok k m' ∧ Found m m' 0 := by
  intro _
  have hfollow : (Run.follow BmOp.next (BlockManager.new 2 (by decide) 2) [.reserve_blocks 0 [1, 2] 0]).any
      (fun m => m.reserved_blocks_table.lookup 0 = some [0] ∧ m.Publishable [0] [112] ∧
        (m.get_block 0).hash = 112) = true := by decide +kernel
  obtain ⟨m, hrun, hm⟩ := Run.exists_of_follow (fun _ _ _ => BmOp.step_of_next) hfollow
  obtain ⟨hr, hpub, hhash⟩ := of_decide_eq_true hm
  obtain ⟨⟨k, m', hact, hfound⟩, -⟩ := (activation_publishes_iff hrun hr [112]).2 hpub
  exact ⟨m, hrun, k, m', hact, hfound 0 (List.mem_singleton_self _) (by simp [hhash])⟩

/-- A prefix is cached, its block is recycled for a longer one, and it is reserved again. -/
def reservedAgain : List BmOp :=
  [.reserve_blocks 0 [1, 2] 0, .activate_reserved_blocks 0 [112], .reserve_blocks 1 [3, 4, 5, 6] 0,
    .activate_reserved_blocks 1 [134, 13456], .reserve_blocks 2 [1, 2] 0]

omit [Hasher] in
/-- The entry of the recycled block is still there. -/
theorem activated_block_not_found :
    let _ := decimalHasher
    ∃ m m', Run BmOp.Step (BlockManager.new 2 (by decide) 2) reservedAgain m ∧
      m.reserved_blocks_table.lookup 2 = some [1] ∧ (m.get_block 1).hash = 112 ∧
      BmOp.Step m (.activate_reserved_blocks 2 [112]) m' ∧ m'.lookup_block_id 112 = none := by
  intro _
  have hfollow : (Run.follow BmOp.next (BlockManager.new 2 (by decide) 2) reservedAgain).any (fun m =>
      (BmOp.next m (.activate_reserved_blocks 2 [112])).any fun m' =>
        m.reserved_blocks_table.lookup 2 = some [1] ∧ (m.get_block 1).hash = 112 ∧
        m'.lookup_block_id 112 = none) = true := by decide +kernel
  obtain ⟨m, hrun, hm⟩ := Run.exists_of_follow (fun _ _ _ => BmOp.step_of_next) hfollow
  obtain ⟨m', hnext, hm'⟩ := Option.any_eq_true _ _ |>.1 hm
  obtain ⟨hr, hhash, hnone⟩ := of_decide_eq_true hm'
  exact ⟨m, m', hrun, hr, hhash, BmOp.step_of_next hnext, hnone⟩

end

end System

end LMServe
