import LMServe.Activation
import LMServe.Lib.Scatter
import LMServe.Transfer

/-!
# A hand-over pairs blocks by position

Nothing in a transfer names a hash: the decode node describes its reserved blocks, the prefill node pins
blocks for the hashes it was given, up to the first miss, and each rank writes its local blocks into the
first of the described ones. The lists line up: the `i`-th pinned block was found under the hash that
the `i`-th reserved block carries, and only these reserved blocks are activated by the trigger.
-/

namespace LMServe
open Hoare BlockManager

namespace BlockManager

/-- The region that `reserve_blocks` returns: by position, its blocks are full and carry its hashes. -/
theorem reserve_blocks_region [Hasher] {n r start : Nat} {T : List Nat} {region : BlockRegion} {m m' : BlockManager}
    (hinv : m.RefInv n []) (hrun : reserve_blocks r T start m = .ok (some region) m') :
    region.id = r ∧ m'.reserved_blocks_table.lookup r = some region.block_ids ∧ region.block_ids.Nodup ∧
      m'.block_size = m.block_size ∧
      ∀ (i b h : Nat), region.block_ids[i]? = some b → region.hashes[i]? = some h →
        (m'.get_block b).hash = h ∧ (m'.tokens b).length = m.block_size := by
  have hsize : m'.block_size = m.block_size :=
    (BmOp.exec_block_size (.reserve_blocks r T start)).of_ok (bind_ok.2 ⟨_, m', hrun, rfl⟩)
  obtain ⟨pairs, m₁, hloop, hrest⟩ := bind_ok.1 (get_ok hrun)
  obtain ⟨hpairs, -, hwritten⟩ := reserve_loop_planned T _ hinv hloop
  split at hrest
  · cases hrest
  · obtain ⟨rfl, rfl⟩ : BlockRegion.mk r (pairs.map (·.1)) (pairs.map (·.2)) = region ∧ _ = m' := by
      simpa using modify_ok hrest
    refine ⟨rfl, (Table.lookup_insert_eq ..).trans (if_pos rfl), ?_, hsize, fun i b h hb hh => ?_⟩
    · have hprefix : pairs.map (·.1) <+: m.block_allocator.free_block_ids := by
        rw [hpairs, List.zip_eq_zip_take_min, List.map_fst_zip (by simp)]
        exact List.take_prefix _ _
      exact hinv.count.free_nodup.sublist hprefix.sublist
    · obtain ⟨p, hp, rfl⟩ := Option.map_eq_some_iff.1 ((List.getElem?_map ..).symm.trans hb)
      have hh' := (List.getElem?_map ..).symm.trans hh
      rw [hp] at hh'
      obtain rfl := Option.some.inj hh'
      obtain ⟨-, hhash, off, -, hfits, htokens⟩ := hwritten i p hp
      refine ⟨hhash, ?_⟩
      show (m₁.tokens p.1).length = _
      rw [htokens, Chunk.length_slice]
      omega

end BlockManager

/-! ### Regions in a run -/

theorem Reachable.run [Hasher] {c : SchedulerConfig} {s s' : System} {ops : List Op} (h : Reachable c s)
    (hrun : Run Op.Step s ops s') : Reachable c s' :=
  hrun.invariant h fun _ _ _ ⟨_, h⟩ hs => ⟨_, h.snoc hs⟩

namespace System

section
variable [Hasher] {c : SchedulerConfig} {s s' : System} {r : Nat} {ids : List Nat}

/-- A region outstanding at the end of a run was outstanding at its start, if its id was drawn before; and its
full blocks have kept their content. -/
theorem region_content_of_run {ops : List Op} (hreach : Reachable c s) (hrun : Run Op.Step s ops s')
    (hlt : r < s.next_region_id)
    (hr : s'.scheduler.host_block_manager.reserved_blocks_table.lookup r = some ids) :
    s.scheduler.host_block_manager.reserved_blocks_table.lookup r = some ids ∧
      ∀ x ∈ ids, (s.scheduler.host_block_manager.tokens x).length = s.scheduler.host_block_manager.block_size →
        s'.scheduler.host_block_manager.content x = s.scheduler.host_block_manager.content x := by
  let I : BlockManager → Prop := fun m => m.RefInv (c.num_blocks .Host) [] ∧
    m.block_size = s.scheduler.host_block_manager.block_size ∧
    ∀ ids, m.reserved_blocks_table.lookup r = some ids →
      s.scheduler.host_block_manager.reserved_blocks_table.lookup r = some ids ∧
      ∀ x ∈ ids, (s.scheduler.host_block_manager.tokens x).length = s.scheduler.host_block_manager.block_size →
        m.content x = s.scheduler.host_block_manager.content x
  obtain ⟨ops₀, hrun₀⟩ := hreach
  obtain ⟨bm_ops, hreached⟩ := manager_reached hrun₀ .Host
  refine (hrun.invariant (I := fun s' => (∃ ops, Run Op.Step (System.new c) ops s') ∧ r < s'.next_region_id ∧
    I s'.scheduler.host_block_manager) ⟨⟨_, hrun₀⟩, hlt, BmOp.run_refInv hreached, rfl,
      fun ids hids => ⟨hids, fun _ _ _ => rfl⟩⟩ ?_).2.2.2.2 ids hr
  rintro s₁ op s₂ ⟨⟨ops₁, hrun₁⟩, hlt₁, hI⟩ hs
  refine ⟨⟨_, hrun₁.snoc hs⟩, ?_, ?_⟩
  · rw [Op.next_region_of_step hs]
    split <;> omega
  · refine (Op.Doing.step (regionsBelow hrun₁).nextFree hs .Host).invariant (I := I) hI ?_
    rintro m o m' ⟨hrefs, hsize, hkept⟩ ho hstep
    refine ⟨(BmOp.exec_refInv o).of_ok ⟨hrefs, hstep.1⟩ hstep.2,
      ((BmOp.exec_block_size o).of_ok hstep.2).trans hsize, fun ids hids => ?_⟩
    rcases BmOp.exec_regions hstep.2 hids with ⟨-, hold⟩ | hnew
    · obtain ⟨hfirst, hcontent⟩ := hkept ids hold
      refine ⟨hfirst, fun x hx hfull => ?_⟩
      have hsame := hcontent x hx hfull
      have hfull' : (m.tokens x).length = m.block_size := by
        rw [hsize, ← hfull]; exact congrArg (fun c => c.1.length) hsame
      exact (BmOp.step_content hrefs hstep (refs_pos_of_region hold hx) (refs_pos_of_region hids hx) hfull').trans hsame
    · exact absurd (ho.draws hnew).1 (Nat.ne_of_lt hlt₁)

theorem reserve_request_region {request : GenerateRequest} {arrival : Nat} {region : DeviceBlockRegion}
    (hreach : Reachable c s) (hrun : reserve_request request arrival s = .ok (some region) s') :
    Reachable c s' ∧ region.block_region.id < s'.next_region_id ∧
      s'.scheduler.host_block_manager.reserved_blocks_table.lookup region.block_region.id =
        some region.block_region.block_ids ∧
      region.block_region.block_ids.Nodup ∧
      ∀ (i b h : Nat), region.block_region.block_ids[i]? = some b → region.block_region.hashes[i]? = some h →
        (s'.scheduler.host_block_manager.get_block b).hash = h ∧
          (s'.scheduler.host_block_manager.tokens b).length = s'.scheduler.host_block_manager.block_size := by
  obtain ⟨ops, hops⟩ := hreach
  obtain ⟨bm_ops, hreached⟩ := manager_reached hops .Host
  have hstep : Op.Step s (.reserve_request request arrival) s' := bind_ok.2 ⟨_, _, hrun, rfl⟩
  refine ⟨⟨_, hops.snoc hstep⟩, ?_⟩
  obtain ⟨t, s₂, hcreate, hrun⟩ := bind_ok.1 hrun
  obtain ⟨rfl, rfl⟩ := create_task_ok hcreate
  obtain ⟨r, s₃, hid, hrun⟩ := bind_ok.1 hrun
  obtain ⟨rfl, rfl⟩ := generate_id_ok hid
  obtain ⟨reg, s₄, hsch, hrun⟩ := bind_ok.1 hrun
  obtain ⟨σ, hσ, rfl⟩ := on_scheduler_ok hsch
  obtain ⟨rfl, rfl⟩ : reg = some region ∧ _ = s' := by simpa using modify_ok hrun
  unfold Scheduler.reserve_blocks at hσ
  cases hhead : (request.to_task s.next_seq_id arrival).get_head_seq with
  | none => rw [hhead] at hσ; simp at hσ
  | some head =>
    rw [hhead] at hσ
    obtain ⟨region', σ₁, hon, hret⟩ := bind_ok.1 (get_ok hσ)
    obtain ⟨hregion, rfl⟩ : region'.map _ = some region ∧ σ₁ = σ := by simpa using hret
    obtain ⟨r', rfl, rfl⟩ := Option.map_eq_some_iff.1 hregion
    obtain ⟨m, hm, rfl⟩ := Scheduler.on_device_ok hon
    obtain ⟨hid, hlook, hnd, hsize, hpos⟩ := reserve_blocks_region (BmOp.run_refInv hreached) hm
    refine ⟨?_, ?_, hnd, fun i b h hb hh => ?_⟩
    · rw [hid]; exact Nat.lt_succ_self _
    · rw [hid]; exact hlook
    · obtain ⟨hhash, hlen⟩ := hpos i b h hb hh
      exact ⟨hhash, hlen.trans hsize.symm⟩

end

end System

/-! ### The trigger -/

namespace Scheduler

variable [Hasher] {r k : Nat} {hash_values : List Nat} {σ : Scheduler} {m : BlockManager}

/-- However a trigger ends, the table of the host is as it was, or as activating the region makes it. -/
theorem trigger_pend_task_table (hact : activate_reserved_blocks r hash_values σ.host_block_manager = .ok k m)
    (session_id : Nat) :
    Ends (trigger_pend_task session_id (some r) hash_values) σ
      (fun _ σ' => σ'.host_block_manager.hash_block_table = m.hash_block_table)
      (fun _ σ' => σ'.host_block_manager.hash_block_table = σ.host_block_manager.hash_block_table ∨
        σ'.host_block_manager.hash_block_table = m.hash_block_table) := by
  refine Ends.get_bind ?_
  cases σ.pending.lookup session_id with
  | none => exact Ends.throw (.inl rfl)
  | some t =>
    refine Ends.modify_bind (Ends.bind
      (R := fun _ σ' => σ'.host_block_manager.hash_block_table = m.hash_block_table) ?_ fun _ σ₁ h₁ => ?_)
    · refine Ends.zoom (Ends.bind (R := fun _ m' => m' = m) (Ends.run_ok hact rfl) fun _ m' hm' => Ends.pure ?_)
      rw [hm']; rfl
    · cases t.get_head_seq with
      | none => exact Ends.throw (.inr h₁)
      | some head =>
        refine Ends.bind (R := fun _ σ' => σ'.host_block_manager.hash_block_table = m.hash_block_table)
          (Ends.zoom ?_) fun _ σ₂ h₂ => Ends.modify h₂
        have hkeep : Keeps BlockManager.hash_block_table
            (do let _ ← BlockManager.update_prefix_cache_blocks head : BM PUnit) :=
          (BlockManager.update_prefix_cache_blocks_table head).bind fun _ => Keeps.pure _
        exact (hkeep.ends σ₁.host_block_manager).conseq (fun _ _ h => h.trans h₁) fun _ _ h => .inr (h.trans h₁)

end Scheduler

namespace System

section
variable [Hasher] {c : SchedulerConfig} {s : System} {session_id r h b : Nat} {hash_values : List Nat}

theorem activated_first (hreach : Reachable c s)
    (ha : Activated h b s (triggered session_id (some r) hash_values s)) :
    h ∈ hash_values ∧ ∃ ids, s.scheduler.host_block_manager.reserved_blocks_table.lookup r = some ids ∧
      ids.find? (fun x => (s.scheduler.host_block_manager.get_block x).hash = h) = some b := by
  have hlisted := activated_mem ha
  obtain ⟨ops, hops⟩ := hreach
  obtain ⟨bm_ops, hreached⟩ := manager_reached hops .Host
  obtain ⟨k, m, hact⟩ := exists_activated (BmOp.run_refInv hreached) r hash_values
  obtain ⟨-, -, -, htable⟩ := activate_reserved_blocks_ok hact
  obtain ⟨hnew, hold⟩ := ha
  have hm : m.hash_block_table.lookup h = some b := by
    have hends := Scheduler.trigger_pend_task_table hact session_id
    unfold triggered attempt on_scheduler zoom at hnew
    cases hrun : Scheduler.trigger_pend_task session_id (some r) hash_values s.scheduler with
    | ok _ σ =>
      rw [hrun] at hnew
      rw [← hends.of_ok hrun]
      exact hnew
    | error _ σ =>
      rw [hrun] at hnew
      rcases hends.of_error hrun with hsame | hsame
      · exact absurd (hsame ▸ hnew) hold
      · rw [← hsame]; exact hnew
  refine ⟨hlisted, ?_⟩
  rw [htable, if_pos hlisted, published_block] at hm
  cases hlook : s.scheduler.host_block_manager.hash_block_table.lookup h with
  | some x =>
    rw [show (s.scheduler.get_block_manager .Host).hash_block_table.lookup h = some x from hlook] at hm
    obtain rfl := Option.some.inj hm
    exact absurd hlook hold
  | none =>
    rw [show (s.scheduler.get_block_manager .Host).hash_block_table.lookup h = none from hlook] at hm
    cases hr : s.scheduler.host_block_manager.reserved_blocks_table.lookup r with
    | none =>
      rw [show (s.scheduler.get_block_manager .Host).reserved_blocks_table.lookup r = none from hr] at hm
      cases hm
    | some ids =>
      rw [show (s.scheduler.get_block_manager .Host).reserved_blocks_table.lookup r = some ids from hr] at hm
      exact ⟨ids, rfl, hm⟩

section
variable {workers : List KvWorker} {peer_names : List Nat} {ranks : Nat} {prefill : System}
  {region : Option DeviceBlockRegion} {hashes : List Nat}

omit [Hasher] in
/-- The calls to the workers: what is pinned was found under the first hashes, and every request has it for the
local blocks. -/
theorem transfer_requests_pinned
    (htransfer : success_hashes workers peer_names (.of ranks region) prefill = some hashes) :
    ∃ pairs : List (Nat × Nat), hashes = pairs.map (·.2) ∧
      pairs.map (·.2) <+: (ReserveOutput.of ranks region).hash_values ∧
      (∀ p ∈ pairs, prefill.scheduler.host_block_manager.lookup_block_id p.2 = some p.1) ∧
      (pairs = [] ↔ (ReserveOutput.of ranks region).hash_values.head?.bind
        prefill.scheduler.host_block_manager.lookup_block_id = none) ∧
      (pairs ≠ [] → (transfer_requests peer_names (.of ranks region) prefill).length = workers.length) ∧
      ∀ q ∈ transfer_requests peer_names (.of ranks region) prefill, q.block_ids = pairs.map (·.1) ∧
        ∃ r ∈ region, q.kv_descs = r.block_region.block_ids := by
  have hdescs : ∀ {ids : List Nat}, ∀ q ∈ KVWorkerGroup.push_requests peer_names
      (ReserveOutput.of ranks region).kv_descs ids, q.block_ids = ids ∧
      ∃ r ∈ region, q.kv_descs = r.block_region.block_ids := by
    intro ids q hq
    obtain ⟨hmem, hids⟩ := push_requests_mem hq
    refine ⟨hids, ?_⟩
    cases region with
    | none => cases hmem
    | some r => exact ⟨r, rfl, List.eq_of_mem_replicate hmem⟩
  rcases success_hashes_eq_some htransfer with ⟨hempty, rfl⟩ | ⟨pinned, s, hpin, hpush⟩
  · refine ⟨[], rfl, List.nil_prefix, by simp, by simp [hempty], fun h => absurd rfl h, fun q hq => ?_⟩
    unfold transfer_requests at hq
    split at hq
    · rename_i r s hpin
      obtain ⟨pairs, hids, -, hpre, -⟩ := pin_blocks_found hpin
      obtain ⟨hq, hr⟩ := hdescs q hq
      rw [hempty, List.prefix_nil] at hpre
      rw [hq, hids, List.map_eq_nil_iff.1 hpre]
      exact ⟨rfl, hr⟩
    · cases hq
  · obtain ⟨pairs, hids, hhashes, hpre, hfound, hnil⟩ := pin_blocks_found hpin
    obtain ⟨rfl, hnum⟩ := push_kv_eq_some hpush
    refine ⟨pairs, hhashes, hpre, hfound, hnil, fun hne => ?_, fun q hq => ?_⟩
    · rw [transfer_requests, hpin]
      exact hnum (by rw [hids]; simpa using hne)
    · rw [transfer_requests, hpin] at hq
      rw [← hids]
      exact hdescs q hq

omit [Hasher] in
theorem transfer_requests_ranks {reserve_res : ReserveOutput} {k : Nat} {q : PushKvRequest}
    (hq : (transfer_requests peer_names reserve_res prefill)[k]? = some q) :
    peer_names[k]? = some q.peer_name ∧ reserve_res.kv_descs[k]? = some q.kv_descs := by
  unfold transfer_requests at hq
  split at hq
  · obtain ⟨_, _, hpeer, hdescs, rfl⟩ := List.getElem?_zipWith_eq_some.1 hq
    exact ⟨hpeer, hdescs⟩
  · simp at hq

omit [Hasher] in
/-- Position `i` of the lists of a hand-over: hash `h`, the reserved block `b`, and the block `src` that the
prefill node has found. -/
structure Paired (prefill : System) (requests : List PushKvRequest) (r : DeviceBlockRegion)
    (i h b src : Nat) : Prop where
  hash : r.block_region.hashes[i]? = some h
  reserved : r.block_region.block_ids[i]? = some b
  found : prefill.scheduler.host_block_manager.lookup_block_id h = some src
  remote : ∀ q ∈ requests, q.kv_descs[i]? = some b
  local_block : ∀ q ∈ requests, q.block_ids[i]? = some src

section
variable {request : GenerateRequest} {arrival : Nat} {decode decode' decode'' : System} {ops : List Op} {i : Nat}

theorem exists_paired (hreserve : reserve_request request arrival decode = .ok region decode')
    (htransfer : success_hashes workers peer_names (.of ranks region) prefill = some hashes)
    (hi : hashes[i]? = some h) :
    (transfer_requests peer_names (.of ranks region) prefill).length = workers.length ∧ ∃ r ∈ region, ∃ b src,
      Paired prefill (transfer_requests peer_names (.of ranks region) prefill) r i h b src := by
  obtain ⟨pairs, rfl, hpre, hfound, -, hnum, hreq⟩ := transfer_requests_pinned htransfer
  obtain ⟨⟨src, h⟩, hpair, rfl⟩ := Option.map_eq_some_iff.1 ((List.getElem?_map ..).symm.trans hi)
  have hne : pairs ≠ [] := fun hnil => by rw [hnil] at hpair; cases hpair
  refine ⟨hnum hne, ?_⟩
  cases region with
  | none => exact absurd (List.map_eq_nil_iff.1 (List.prefix_nil.1 hpre)) hne
  | some r =>
    have hhash : r.block_region.hashes[i]? = some h := by
      obtain ⟨hlt, hh⟩ := List.getElem?_eq_some_iff.1 hi
      exact (List.prefix_iff_getElem?.1 hpre i hlt).trans (congrArg some hh)
    have hlt : i < r.block_region.block_ids.length := by
      rw [reserve_request_lengths hreserve]; exact (List.getElem?_eq_some_iff.1 hhash).1
    have hb := List.getElem?_eq_getElem hlt
    refine ⟨r, rfl, _, src, hhash, hb, hfound _ (List.mem_of_getElem? hpair), fun q hq => ?_, fun q hq => ?_⟩
    · obtain ⟨-, r', hr', hremote⟩ := hreq q hq
      obtain rfl : r = r' := Option.some.inj hr'
      rw [hremote]; exact hb
    · rw [(hreq q hq).1, List.getElem?_map, hpair]; rfl

/-- What the trigger activates is one of the first reserved blocks, listed under the hash at its position. -/
theorem activated_position (hreach : Reachable c decode)
    (hreserve : reserve_request request arrival decode = .ok region decode') (hrun : Run Op.Step decode' ops decode'')
    (htransfer : success_hashes workers peer_names (.of ranks region) prefill = some hashes)
    (ha : Activated h b decode'' (triggered session_id (ReserveOutput.of ranks region).region_id hashes decode'')) :
    ∃ r ∈ region, ∃ i < hashes.length, hashes[i]? = some h ∧ r.block_region.block_ids[i]? = some b ∧
      (decode''.scheduler.host_block_manager.get_block b).hash = h := by
  obtain ⟨i, hi⟩ := List.mem_iff_getElem?.1 (activated_mem ha)
  obtain ⟨-, r, rfl, x, _, hpaired⟩ := exists_paired hreserve htransfer hi
  obtain ⟨hreach', hlt, hregion, -, hcarry⟩ := reserve_request_region hreach hreserve
  obtain ⟨-, ids, hids', hfirst⟩ := activated_first (hreach'.run hrun) ha
  obtain ⟨hsame, hcontent⟩ := region_content_of_run hreach' hrun hlt hids'
  obtain rfl : r.block_region.block_ids = ids := Option.some.inj (hregion.symm.trans hsame)
  -- the region's blocks still carry its hashes
  have hhash : ∀ (j y k : Nat), r.block_region.block_ids[j]? = some y → r.block_region.hashes[j]? = some k →
      (decode''.scheduler.host_block_manager.get_block y).hash = k := fun j y k hy hk => by
    obtain ⟨hcarried, hfull⟩ := hcarry j y k hy hk
    exact (congrArg Prod.snd (hcontent y (List.mem_of_getElem? hy) hfull)).trans hcarried
  obtain ⟨hbhash, j, hj, hbj, hbefore⟩ := List.find?_eq_some_iff_getElem.1 hfirst
  have hbhash : (decode''.scheduler.host_block_manager.get_block b).hash = h := by simpa using hbhash
  have hji : j ≤ i := by
    by_contra hlt'
    have hxi := (List.getElem?_eq_some_iff.1 hpaired.reserved).2
    have hno := hbefore i (by omega)
    rw [hxi] at hno
    simp [hhash i x h hpaired.reserved hpaired.hash] at hno
  have hjlt : j < hashes.length := Nat.lt_of_le_of_lt hji (List.getElem?_eq_some_iff.1 hi).1
  have hb : r.block_region.block_ids[j]? = some b := by rw [← hbj]; exact List.getElem?_eq_getElem hj
  obtain ⟨-, r', hr', y, _, hpaired'⟩ := exists_paired hreserve htransfer (List.getElem?_eq_getElem hjlt)
  obtain rfl : r = r' := Option.some.inj hr'
  refine ⟨r, rfl, j, hjlt, ?_, hb, hbhash⟩
  rw [List.getElem?_eq_getElem hjlt, ← hhash j b _ hb hpaired'.hash, hbhash]

/-- The hashes that `transfer_kv` returns, and the blocks that `trigger` activates under them, are
those of blocks that all ranks have written exactly when the prefill node found nothing to transfer
or all ranks reported success. -/
theorem success_hashes_transferred_iff
    (hreserve : reserve_request request arrival decode = .ok region decode')
    (htransfer : success_hashes workers peer_names (.of ranks region) prefill = some hashes) :
    ((∀ h ∈ hashes,
        Transferred prefill workers (transfer_requests peer_names (.of ranks region) prefill) region h) ∧
      (∀ s h b, Activated h b s
          (triggered request.session_id (ReserveOutput.of ranks region).region_id hashes s) →
        Transferred prefill workers (transfer_requests peer_names (.of ranks region) prefill) region h) ∧
      ∀ c ops decode'', Reachable c decode → Run Op.Step decode' ops decode'' → ∀ h b, Activated h b decode''
          (triggered request.session_id (ReserveOutput.of ranks region).region_id hashes decode'') →
        ∃ r ∈ region, (b, h) ∈ r.block_region.block_ids.zip r.block_region.hashes ∧
          Written prefill workers (transfer_requests peer_names (.of ranks region) prefill) h b) ↔
    ((ReserveOutput.of ranks region).hash_values.head?.bind
        prefill.scheduler.host_block_manager.lookup_block_id = none ∨
      ∀ p ∈ workers.zip (transfer_requests peer_names (.of ranks region) prefill),
        p.1.push_kv p.2 = some true) := by
  constructor
  · rintro ⟨hall, -⟩
    obtain ⟨pairs, rfl, -, -, hnil, -⟩ := transfer_requests_pinned htransfer
    rw [← hnil]
    refine or_iff_not_imp_left.2 fun hne p hp => ?_
    obtain ⟨q, rest, rfl⟩ := List.exists_cons_of_ne_nil hne
    obtain ⟨_, _, _, _, _, hrep⟩ := hall q.2 (by simp)
    exact (hrep p hp).1
  · intro hcond
    have hwritten : ∀ {i h : Nat}, hashes[i]? = some h → ∃ r ∈ region, ∃ b, r.block_region.hashes[i]? = some h ∧
        r.block_region.block_ids[i]? = some b ∧
        Written prefill workers (transfer_requests peer_names (.of ranks region) prefill) h b := by
      intro i h hi
      obtain ⟨hnum, r, hr, b, src, hp⟩ := exists_paired hreserve htransfer hi
      refine ⟨r, hr, b, hp.hash, hp.reserved, hnum, fun p hmem => ?_⟩
      have hq := (List.of_mem_zip hmem).2
      refine ⟨?_, src, hp.found, List.mem_of_getElem? (List.getElem?_zip_eq_some.2
        ⟨hp.local_block p.2 hq, hp.remote p.2 hq⟩)⟩
      obtain ⟨pairs, rfl, -, -, hnil, -⟩ := transfer_requests_pinned htransfer
      refine hcond.resolve_left (fun hnone => ?_) p hmem
      rw [hnil.2 hnone] at hi
      cases hi
    have hlisted : ∀ h ∈ hashes,
        Transferred prefill workers (transfer_requests peer_names (.of ranks region) prefill) region h := by
      intro h hh
      obtain ⟨i, hi⟩ := List.mem_iff_getElem?.1 hh
      obtain ⟨r, hr, b, hhash, hb, hw⟩ := hwritten hi
      exact ⟨r, hr, b, List.mem_of_getElem? (List.getElem?_zip_eq_some.2 ⟨hb, hhash⟩), hw⟩
    refine ⟨hlisted, fun s h b ha => hlisted h (activated_mem ha), fun c ops decode'' hreach hrun h b ha => ?_⟩
    obtain ⟨r, hr, i, -, hi, hb, -⟩ := activated_position hreach hreserve hrun htransfer ha
    obtain ⟨r', hr', b', hhash, hb', hw⟩ := hwritten hi
    obtain rfl : r = r' := Option.some.inj (hr.symm.trans hr')
    obtain rfl : b = b' := Option.some.inj (hb.symm.trans hb')
    exact ⟨r, hr, List.mem_of_getElem? (List.getElem?_zip_eq_some.2 ⟨hb, hhash⟩), hw⟩

omit [Hasher] in
/-- With both ranks successful, what is returned and activated has been written. -/
theorem success_hashes_transferred :
    let _ := decimalHasher
    ∃ prefill decode decode' region, Reachable handoverConfig prefill ∧
      reserve_request handoverRequest 1 (System.new handoverConfig) = .ok region decode ∧
      success_hashes (twoRanks .DONE .DONE) [0, 1] (.of 2 region) prefill = some [112] ∧
      Transferred prefill (twoRanks .DONE .DONE) (transfer_requests [0, 1] (.of 2 region) prefill)
        region 112 ∧
      Activated 112 0 decode' (triggered 0 (ReserveOutput.of 2 region).region_id [112] decode') ∧
      Written prefill (twoRanks .DONE .DONE) (transfer_requests [0, 1] (.of 2 region) prefill) 112 0 := by
  let _ := decimalHasher
  obtain ⟨prefill, decode, decode', region, hreach, hres, hhashes, hrun, hact⟩ :=
    exists_handover (twoRanks .DONE .DONE) [112] 112 0
      (by decide +kernel)
  have hall : ∀ p ∈ (twoRanks .DONE .DONE).zip (transfer_requests [0, 1] (.of 2 region) prefill),
      p.1.push_kv p.2 = some true := fun p hp => by
    have hworker := (List.of_mem_zip hp).1
    simp only [twoRanks, List.mem_cons, List.not_mem_nil, or_false] at hworker
    rcases hworker with hw | hw <;> rw [hw] <;> rfl
  obtain ⟨hlisted, -, hactivated⟩ := (success_hashes_transferred_iff hres hhashes).2 (.inr hall)
  obtain ⟨_, -, -, hwritten⟩ := hactivated _ _ _ ⟨[], .nil⟩ hrun 112 0 hact
  exact ⟨prefill, decode, decode', region, hreach, hres, hhashes, hlisted 112 (by simp), hact, hwritten⟩

omit [Hasher] in
/-- The second rank reports an error: the hash is returned all the same, and the trigger lists the
block that has not been written. -/
theorem success_hashes_not_transferred :
    let _ := decimalHasher
    ∃ prefill decode decode' region, Reachable handoverConfig prefill ∧
      reserve_request handoverRequest 1 (System.new handoverConfig) = .ok region decode ∧
      success_hashes (twoRanks .DONE .ERR) [0, 1] (.of 2 region) prefill = some [112] ∧
      Activated 112 0 decode' (triggered 0 (ReserveOutput.of 2 region).region_id [112] decode') ∧
      ¬ Transferred prefill (twoRanks .DONE .ERR) (transfer_requests [0, 1] (.of 2 region) prefill)
        region 112 := by
  let _ := decimalHasher
  obtain ⟨prefill, decode, decode', region, hreach, hres, hhashes, -, hact⟩ :=
    exists_handover (twoRanks .DONE .ERR) [112] 112 0
      (by decide +kernel)
  refine ⟨prefill, decode, decode', region, hreach, hres, hhashes, hact, ?_⟩
  rintro ⟨_, _, _, _, hnum, hrep⟩
  obtain ⟨q₀, q₁, hreq⟩ := List.length_eq_two.1 hnum
  have hok := (hrep (⟨true, fun _ _ _ => some (.PROC, [.ERR])⟩, q₁) (by rw [hreq]; simp [twoRanks])).1
  exact absurd hok (by simp [KvWorker.push_kv, KvWorker.check_xfer_state])

end

end

end

end System

/-! ### What a rank writes -/

/-- A rank with its blocks, and what a WRITE that its agent has been given makes of the peer's blocks. Once the
agent reports a transfer as done, it has written the local blocks into the remote ones, descriptor by descriptor. -/
structure KvRank (V : Type) extends KvWorker where
  host_kv_caches : Nat → V
  write : Nat → List Nat → List Nat → (Nat → V) → Nat → V
  write_done : ∀ {peer_name : Nat} {local_descs remote_descs : List Nat} {state : XferState} {states : List XferState},
    kv_agent peer_name local_descs remote_descs = some (state, states) → .DONE ∈ states →
    local_descs.length = remote_descs.length → remote_descs.Nodup → ∀ blocks,
    write peer_name local_descs remote_descs blocks =
      Scatter.run (remote_descs.zip (local_descs.map host_kv_caches)) blocks

theorem KvWorker.check_xfer_state_done {states : List XferState} (h : check_xfer_state states = some true) :
    .DONE ∈ states := by
  induction states with
  | nil => cases h
  | cons state states ih =>
    cases state with
    | DONE => exact List.mem_cons_self
    | ERR => cases h
    | PROC => exact List.mem_cons_of_mem _ (ih h)

namespace KvRank
variable {V : Type}

/-- `_push_kv`: its answer, and the peer's blocks. -/
def push_kv (rank : KvRank V) (request : PushKvRequest) (blocks : Nat → V) : Option Bool × (Nat → V) :=
  if rank.reachable then
    let remote_descs := request.kv_descs.take request.block_ids.length
    match rank.kv_agent request.peer_name request.block_ids remote_descs with
    | none => (some false, blocks)
    | some (.ERR, _) => (some false, rank.write request.peer_name request.block_ids remote_descs blocks)
    | some (_, states) =>
      (KvWorker.check_xfer_state states, rank.write request.peer_name request.block_ids remote_descs blocks)
  else (none, blocks)

variable {rank : KvRank V} {request : PushKvRequest} {blocks : Nat → V}

theorem push_kv_answer : (rank.push_kv request blocks).1 = rank.toKvWorker.push_kv request := by
  unfold push_kv KvWorker.push_kv
  split
  · dsimp only
    split <;> simp [*]
  · rfl

/-- A successful call has written the local blocks into the first of the remote ones. -/
theorem push_kv_blocks (hok : rank.toKvWorker.push_kv request = some true)
    (hlen : request.block_ids.length ≤ request.kv_descs.length) (hnodup : request.kv_descs.Nodup) :
    (rank.push_kv request blocks).2 = Scatter.run ((request.kv_descs.take request.block_ids.length).zip
      (request.block_ids.map rank.host_kv_caches)) blocks := by
  have hwrite : ∀ {state states}, rank.kv_agent request.peer_name request.block_ids
      (request.kv_descs.take request.block_ids.length) = some (state, states) →
      KvWorker.check_xfer_state states = some true → rank.write request.peer_name request.block_ids
        (request.kv_descs.take request.block_ids.length) blocks = Scatter.run
          ((request.kv_descs.take request.block_ids.length).zip (request.block_ids.map rank.host_kv_caches)) blocks :=
    fun hagent hdone => rank.write_done hagent (KvWorker.check_xfer_state_done hdone)
      (by rw [List.length_take, Nat.min_eq_left hlen]) (hnodup.sublist (List.take_sublist ..)) blocks
  unfold KvWorker.push_kv at hok
  unfold push_kv
  cases hreach : rank.reachable with
  | false => simp [hreach] at hok
  | true =>
    simp only [hreach, if_true] at hok ⊢
    cases hagent : rank.kv_agent request.peer_name request.block_ids
        (request.kv_descs.take request.block_ids.length) with
    | none => simp [hagent] at hok
    | some answer =>
      obtain ⟨state, states⟩ := answer
      simp only [hagent] at hok
      cases state with
      | ERR => cases hok
      | DONE => exact hwrite hagent hok
      | PROC => exact hwrite hagent hok

/-- Block by block: the `i`-th remote block holds the `i`-th local one. -/
theorem push_kv_block {i src b : Nat} (hok : rank.toKvWorker.push_kv request = some true)
    (hlen : request.block_ids.length ≤ request.kv_descs.length) (hnodup : request.kv_descs.Nodup)
    (hlocal : request.block_ids[i]? = some src) (hremote : request.kv_descs[i]? = some b) :
    (rank.push_kv request blocks).2 b = rank.host_kv_caches src := by
  rw [push_kv_blocks hok hlen hnodup]
  refine Scatter.run_zip (i := i) (hnodup.sublist (List.take_sublist ..)) ?_ ?_
  · rw [List.getElem?_take_of_lt (List.getElem?_eq_some_iff.1 hlocal).1, hremote]
  · rw [List.getElem?_map, hlocal]; rfl

theorem push_kv_frame {b : Nat} (hok : rank.toKvWorker.push_kv request = some true)
    (hlen : request.block_ids.length ≤ request.kv_descs.length) (hnodup : request.kv_descs.Nodup)
    (hb : b ∉ request.kv_descs.take request.block_ids.length) : (rank.push_kv request blocks).2 b = blocks b := by
  rw [push_kv_blocks hok hlen hnodup]
  exact Scatter.run_of_notMem fun v hv => hb (List.of_mem_zip hv).1

/-- A rank whose agent writes what it is given and says so after these states. -/
def writing (states : List XferState) (host_kv_caches : Nat → V) : KvRank V where
  reachable := true
  kv_agent := fun _ _ _ => some (.PROC, states)
  host_kv_caches := host_kv_caches
  write := fun _ local_descs remote_descs => Scatter.run (remote_descs.zip (local_descs.map host_kv_caches))
  write_done := fun _ _ _ _ _ => rfl

end KvRank

namespace System
variable {V : Type}

/-- The `i`-th local block of each rank is the one cached under `h` on the prefill node, the `i`-th remote one is
`b`, and the rank answers that it succeeded and has left the one in the other, whatever the peer's blocks were. -/
def Pushed (prefill : System) (group : List (KvRank V)) (requests : List PushKvRequest) (i h b : Nat) : Prop :=
  ∃ src, prefill.scheduler.host_block_manager.lookup_block_id h = some src ∧
    (prefill.scheduler.host_block_manager.get_block src).hash = h ∧ requests.length = group.length ∧
    ∀ p ∈ group.zip requests, p.2.block_ids[i]? = some src ∧ p.2.kv_descs[i]? = some b ∧
      ∀ blocks, (p.1.push_kv p.2 blocks).1 = some true ∧ (p.1.push_kv p.2 blocks).2 b = p.1.host_kv_caches src

variable [Hasher] {c : SchedulerConfig} {group : List (KvRank V)} {peer_names : List Nat} {ranks : Nat}
  {prefill : System} {region : Option DeviceBlockRegion} {hashes : List Nat}

/-- Each request has as many local blocks as there are hashes, and its peer has the reserved blocks. -/
theorem transfer_requests_fit {request : GenerateRequest} {arrival : Nat} {decode decode' : System}
    {workers : List KvWorker} (hreach : Reachable c decode)
    (hreserve : reserve_request request arrival decode = .ok region decode')
    (htransfer : success_hashes workers peer_names (.of ranks region) prefill = some hashes) {q : PushKvRequest}
    (hq : q ∈ transfer_requests peer_names (.of ranks region) prefill) :
    q.block_ids.length = hashes.length ∧ hashes.length ≤ q.kv_descs.length ∧ q.kv_descs.Nodup ∧
      ∀ r ∈ region, q.kv_descs = r.block_region.block_ids := by
  obtain ⟨pairs, rfl, hpre, -, -, -, hpinned⟩ := transfer_requests_pinned htransfer
  obtain ⟨hlocal, r, rfl, hremote⟩ := hpinned q hq
  obtain ⟨-, -, -, hnodup, -⟩ := reserve_request_region hreach hreserve
  refine ⟨by simp [hlocal], ?_, hremote ▸ hnodup, fun r' hr' => Option.some.inj hr' ▸ hremote⟩
  rw [hremote, reserve_request_lengths hreserve]
  exact hpre.length_le

/-- All ranks successful, the block reserved at the position of a returned hash has been written. -/
theorem pushed_of_success {request : GenerateRequest} {arrival : Nat} {decode decode' : System}
    (hreach : Reachable c decode) (hreserve : reserve_request request arrival decode = .ok region decode')
    (htransfer : success_hashes (group.map KvRank.toKvWorker) peer_names (.of ranks region) prefill = some hashes)
    (hall : ∀ p ∈ group.zip (transfer_requests peer_names (.of ranks region) prefill),
      p.2.block_ids ≠ [] → p.1.toKvWorker.push_kv p.2 = some true) {i h : Nat} (hi : hashes[i]? = some h) :
    ∃ r ∈ region, ∃ b, r.block_region.hashes[i]? = some h ∧ r.block_region.block_ids[i]? = some b ∧
      (decode'.scheduler.host_block_manager.get_block b).hash = h ∧
      Pushed prefill group (transfer_requests peer_names (.of ranks region) prefill) i h b := by
  obtain ⟨hnum, r, rfl, b, src, hp⟩ := exists_paired hreserve htransfer hi
  obtain ⟨-, -, -, -, hcarry⟩ := reserve_request_region hreach hreserve
  refine ⟨r, rfl, b, hp.hash, hp.reserved, (hcarry i b h hp.reserved hp.hash).1, src, hp.found,
    (lookup_block_id_eq_some.1 hp.found).2, hnum.trans (List.length_map _), fun p hmem => ?_⟩
  have hq := (List.of_mem_zip hmem).2
  have hlocal := hp.local_block p.2 hq
  obtain ⟨hcount, hle, hnodup, -⟩ := transfer_requests_fit hreach hreserve htransfer hq
  have hok := hall p hmem fun hnil => by rw [hnil] at hlocal; cases hlocal
  exact ⟨hlocal, hp.remote p.2 hq, fun blocks => ⟨KvRank.push_kv_answer.trans hok,
    KvRank.push_kv_block hok (hcount ▸ hle) hnodup hlocal (hp.remote p.2 hq)⟩⟩

/-- All ranks successful, the transfer writes, on every rank, the block cached under each returned hash into the
reserved block that carries it and writes nothing else; the trigger activates blocks so written only. -/
theorem handover_by_position {request : GenerateRequest} {arrival : Nat} {decode decode' decode'' : System}
    {ops : List Op} (hreach : Reachable c decode) (hreserve : reserve_request request arrival decode = .ok region decode')
    (hrun : Run Op.Step decode' ops decode'')
    (htransfer : success_hashes (group.map KvRank.toKvWorker) peer_names (.of ranks region) prefill = some hashes)
    (hall : ∀ p ∈ group.zip (transfer_requests peer_names (.of ranks region) prefill),
      p.2.block_ids ≠ [] → p.1.toKvWorker.push_kv p.2 = some true) :
    (∀ (k : Nat) (q : PushKvRequest), (transfer_requests peer_names (.of ranks region) prefill)[k]? = some q →
      peer_names[k]? = some q.peer_name ∧ (ReserveOutput.of ranks region).kv_descs[k]? = some q.kv_descs ∧
        q.block_ids.length = hashes.length ∧ hashes.length ≤ q.kv_descs.length) ∧
    (∀ (i h : Nat), hashes[i]? = some h → ∃ r ∈ region, ∃ b, r.block_region.hashes[i]? = some h ∧
      r.block_region.block_ids[i]? = some b ∧ (decode'.scheduler.host_block_manager.get_block b).hash = h ∧
      Pushed prefill group (transfer_requests peer_names (.of ranks region) prefill) i h b) ∧
    (∀ r ∈ region, ∀ p ∈ group.zip (transfer_requests peer_names (.of ranks region) prefill),
      p.2.block_ids ≠ [] → ∀ b ∉ r.block_region.block_ids.take hashes.length, ∀ blocks,
      (p.1.push_kv p.2 blocks).2 b = blocks b) ∧
    (∀ h b, Activated h b decode'' (triggered request.session_id (ReserveOutput.of ranks region).region_id hashes
        decode'') → ∃ r ∈ region, ∃ i < hashes.length, r.block_region.hashes[i]? = some h ∧
      r.block_region.block_ids[i]? = some b ∧ (decode''.scheduler.host_block_manager.get_block b).hash = h ∧
      Pushed prefill group (transfer_requests peer_names (.of ranks region) prefill) i h b) ∧
    ∀ r ∈ region, ∀ (i b : Nat), hashes.length ≤ i → r.block_region.block_ids[i]? = some b →
      ∀ h, ¬ Activated h b decode'' (triggered request.session_id (ReserveOutput.of ranks region).region_id hashes
        decode'') := by
  have hactivated : ∀ h b, Activated h b decode'' (triggered request.session_id
      (ReserveOutput.of ranks region).region_id hashes decode'') → ∃ r ∈ region, ∃ i < hashes.length,
      r.block_region.hashes[i]? = some h ∧ r.block_region.block_ids[i]? = some b ∧
      (decode''.scheduler.host_block_manager.get_block b).hash = h ∧
      Pushed prefill group (transfer_requests peer_names (.of ranks region) prefill) i h b := by
    intro h b ha
    obtain ⟨r, hr, i, hlt, hi, hb, hhash⟩ := activated_position hreach hreserve hrun htransfer ha
    obtain ⟨r', hr', b', hh, hb', -, hpush⟩ := pushed_of_success hreach hreserve htransfer hall hi
    obtain rfl : r = r' := Option.some.inj (hr.symm.trans hr')
    obtain rfl : b = b' := Option.some.inj (hb.symm.trans hb')
    exact ⟨r, hr, i, hlt, hh, hb, hhash, hpush⟩
  refine ⟨fun k q hq => ?_, fun i h hi => pushed_of_success hreach hreserve htransfer hall hi,
    fun r hr p hmem hne b hb blocks => ?_, hactivated, fun r hr i b hi hb h ha => ?_⟩
  · obtain ⟨hpeer, hdescs⟩ := transfer_requests_ranks hq
    obtain ⟨hcount, hle, -⟩ := transfer_requests_fit hreach hreserve htransfer (List.mem_of_getElem? hq)
    exact ⟨hpeer, hdescs, hcount, hle⟩
  · obtain ⟨hcount, hle, hnodup, hremote⟩ :=
      transfer_requests_fit hreach hreserve htransfer (List.of_mem_zip hmem).2
    refine KvRank.push_kv_frame (hall p hmem hne) (hcount ▸ hle) hnodup ?_
    rw [hcount, hremote r hr]
    exact hb
  · obtain ⟨r', hr', j, hj, -, hbj, -⟩ := hactivated h b ha
    obtain rfl : r = r' := Option.some.inj (hr.symm.trans hr')
    obtain rfl : region = some r := hr
    obtain ⟨-, -, -, hnd, -⟩ := reserve_request_region hreach hreserve
    have hij : j = i := (List.getElem?_inj (List.getElem?_eq_some_iff.1 hbj).1 hnd).1 (hbj.trans hb.symm)
    omega

omit [Hasher] in
/-- Two ranks, block `i` of rank `k` being `(k, i)`: the trigger lists block 0, which holds the rank's part of a block
cached under the same hash. -/
theorem handover_by_position_first :
    let _ := decimalHasher
    let group : List (KvRank (Nat × Nat)) :=
      [KvRank.writing [.PROC, .DONE] (Prod.mk 0), KvRank.writing [.DONE] (Prod.mk 1)]
    ∃ prefill decode decode' region, Reachable handoverConfig prefill ∧
      reserve_request handoverRequest 1 (System.new handoverConfig) = .ok region decode ∧
      Run Op.Step decode [.pend_reserved 0] decode' ∧
      Activated 112 0 decode' (triggered 0 (ReserveOutput.of 2 region).region_id [112] decode') ∧
      Pushed prefill group (transfer_requests [0, 1] (.of 2 region) prefill) 0 112 0 := by
  intro _ group
  obtain ⟨prefill, decode, decode', region, hreach, hres, hhashes, hrun, hact⟩ :=
    exists_handover (twoRanks .DONE .DONE) [112] 112 0 (by decide +kernel)
  have hall : ∀ p ∈ group.zip (transfer_requests [0, 1] (.of 2 region) prefill),
      p.2.block_ids ≠ [] → p.1.toKvWorker.push_kv p.2 = some true := fun p hp _ => by
    have hworker := (List.of_mem_zip hp).1
    simp only [group, List.mem_cons, List.not_mem_nil, or_false] at hworker
    rcases hworker with hw | hw <;> rw [hw] <;> rfl
  have htransfer : success_hashes (group.map KvRank.toKvWorker) [0, 1] (.of 2 region) prefill = some [112] := hhashes
  obtain ⟨-, -, -, hactivated, -⟩ := handover_by_position ⟨[], .nil⟩ hres hrun htransfer hall
  obtain ⟨r, -, i, hi, -, -, -, hpushed⟩ := hactivated 112 0 hact
  obtain rfl : i = 0 := Nat.lt_one_iff.1 hi
  exact ⟨prefill, decode, decode', region, hreach, hres, hrun, hact, hpushed⟩

end System

end LMServe
