import Mathlib.Order.CompletePartialOrder
import LMServe.Reservations
import LMServe.Queues
import LMServe.Engine

/-!
# Handing a prefill over (`router.rs`, `kv_worker.py`)

`forward` reserves blocks on the decode node, lets the prefill node write into them, and triggers
the decode with the hashes that `transfer_kv` returns. The transfer is done rank by rank: each KV
worker writes its share of the pinned blocks and answers whether it succeeded. `KVWorkerGroup` takes
the answers together, and `LLMEngine::push_kv` drops the result: the hashes it returns are those of
the pinned blocks, written or not.
-/

namespace LMServe
open Hoare

/-- The states of a transfer; one in any other state than the first two is asked again. -/
inductive XferState where
  | DONE
  | ERR
  | PROC
deriving DecidableEq, Repr

/-- What the transfer library makes of one transfer, given the peer, the local blocks and the remote
ones: no handle, or the state after posting and the states it gives when asked. -/
abbrev KvAgent := Nat → List Nat → List Nat → Option (XferState × List XferState)

/-- `PushKvRequest` of `worker.proto`. A serialised descriptor list is the list of the peer's
blocks. -/
structure PushKvRequest where
  peer_name : Nat
  kv_descs : List Nat
  block_ids : List Nat
deriving DecidableEq, Repr

/-- A rank: whether a call reaches its worker, and the worker's agent. -/
structure KvWorker where
  reachable : Bool
  kv_agent : KvAgent

namespace KvWorker

/-- The polling loop of `_push_kv`; the transfer of an exhausted list never ends. -/
def check_xfer_state : List XferState → Option Bool
  | [] => none
  | .ERR :: _ => some false
  | .DONE :: _ => some true
  | .PROC :: rest => check_xfer_state rest

/-- `push_kv` of `kv_worker.py` behind its RPC; `none` is a call without an answer. -/
def push_kv (w : KvWorker) (request : PushKvRequest) : Option Bool :=
  if w.reachable then
    let remote_descs := request.kv_descs.take request.block_ids.length
    match w.kv_agent request.peer_name request.block_ids remote_descs with
    | none => some false
    | some (.ERR, _) => some false
    | some (_, states) => check_xfer_state states
  else none

end KvWorker

/-- `run_workers`: one call per worker; `none` is a panic. -/
def run_workers {V : Type} (task_fn : KvWorker → PushKvRequest → Option V) (workers : List KvWorker)
    (params_list : List PushKvRequest) : Option (List V) :=
  if workers.length = params_list.length then
    (workers.zip params_list).mapM fun p => task_fn p.1 p.2
  else none

namespace KVWorkerGroup

def push_requests (peer_names : List Nat) (kv_descs : List (List Nat)) (block_ids : List Nat) :
    List PushKvRequest :=
  peer_names.zipWith (fun peer_name descs => ⟨peer_name, descs, block_ids⟩) kv_descs

/-- `KVWorkerGroup::push_kv`: whether all ranks succeeded. -/
def push_kv (workers : List KvWorker) (peer_names : List Nat) (kv_descs : List (List Nat))
    (block_ids : List Nat) : Option Bool :=
  if kv_descs.length = workers.length then do
    let rets ← run_workers KvWorker.push_kv workers (push_requests peer_names kv_descs block_ids)
    pure (rets.all id)
  else none

end KVWorkerGroup

/-- `LLMEngine::push_kv` after pinning: the transfer, and the hashes it returns once the region is
unpinned. -/
def LLMEngine.push_kv (workers : List KvWorker) (peer_names : List Nat) (kv_descs : List (List Nat))
    (block_region : DeviceBlockRegion) : Option (List Nat) := do
  if !block_region.block_region.block_ids.isEmpty then
    let _ ← KVWorkerGroup.push_kv workers peer_names kv_descs block_region.block_region.block_ids
  pure block_region.block_region.hashes

/-- `ReserveOutput`, for a node with `ranks` KV workers. -/
structure ReserveOutput where
  region_id : Option Nat
  kv_descs : List (List Nat)
  hash_values : List Nat

/-- What `reserve_request` returns: every rank describes the same blocks. -/
def ReserveOutput.of (ranks : Nat) : Option DeviceBlockRegion → ReserveOutput
  | some block_region => ⟨some block_region.block_region.id,
      List.replicate ranks block_region.block_region.block_ids, block_region.block_region.hashes⟩
  | none => ⟨none, [], []⟩

section
variable [Hasher]

/-- The hashes with which `forward` triggers the decode node: none when nothing was reserved, else
what `transfer_kv` of the prefill node returns. -/
def success_hashes (workers : List KvWorker) (peer_names : List Nat) (reserve_res : ReserveOutput)
    (prefill : System) : Option (List Nat) :=
  if reserve_res.hash_values.isEmpty then some []
  else
    match System.pin_blocks reserve_res.hash_values prefill with
    | .ok block_region _ => LLMEngine.push_kv workers peer_names reserve_res.kv_descs block_region
    | .error _ _ => none

end

namespace BlockManager
variable {m m' : BlockManager}

/-! ### Pinning -/

/-- The blocks pinned are the ones found for the hashes, up to the first miss. -/
theorem pin_loop_found (hash_values : List Nat) : ∀ {m m' : BlockManager} {pairs : List (Nat × Nat)},
    pin_loop hash_values m = .ok pairs m' →
    pairs.map (·.2) <+: hash_values ∧ ∀ p ∈ pairs, m.lookup_block_id p.2 = some p.1 := by
  induction hash_values with
  | nil =>
    intro m m' pairs h
    obtain ⟨rfl, -⟩ : [] = pairs ∧ _ := by simpa [pin_loop] using h
    exact ⟨List.nil_prefix, by simp⟩
  | cons hash hash_values ih =>
    intro m m' pairs h
    replace h := get_ok h
    cases hlook : m.lookup_block_id hash with
    | none =>
      rw [hlook] at h
      obtain ⟨rfl, -⟩ : [] = pairs ∧ _ := by simpa using h
      exact ⟨List.nil_prefix, by simp⟩
    | some b =>
      rw [hlook] at h
      obtain ⟨_, m₁, halloc, h⟩ := bind_ok.1 h
      obtain ⟨rest, m₂, hloop, h⟩ := bind_ok.1 h
      obtain ⟨rfl, -⟩ : (b, hash) :: rest = pairs ∧ _ := by simpa using h
      obtain ⟨hpre, hfound⟩ := ih hloop
      have hq := alloc_block_by_id_quiet halloc
      refine ⟨List.prefix_cons_inj hash |>.2 hpre, fun p hp => ?_⟩
      rcases List.mem_cons.1 hp with rfl | hp
      · exact hlook
      · rw [← hq.lookup]; exact hfound p hp

theorem pin_loop_eq_nil {hash_values : List Nat} {pairs : List (Nat × Nat)}
    (h : pin_loop hash_values m = .ok pairs m') :
    pairs = [] ↔ hash_values.head?.bind m.lookup_block_id = none := by
  cases hash_values with
  | nil =>
    obtain ⟨rfl, -⟩ : [] = pairs ∧ _ := by simpa [pin_loop] using h
    simp
  | cons hash hash_values =>
    replace h := get_ok h
    rw [List.head?_cons, Option.bind_some]
    cases hlook : m.lookup_block_id hash with
    | none =>
      rw [hlook] at h
      obtain ⟨rfl, -⟩ : [] = pairs ∧ _ := by simpa using h
      simp
    | some b =>
      rw [hlook] at h
      obtain ⟨_, m₁, -, h⟩ := bind_ok.1 h
      obtain ⟨rest, m₂, -, h⟩ := bind_ok.1 h
      obtain ⟨rfl, -⟩ : (b, hash) :: rest = pairs ∧ _ := by simpa using h
      simp

/-! ### Reserving -/

theorem reserve_blocks_lengths [Hasher] {r start : Nat} {T : List Nat} {region : BlockRegion}
    (h : reserve_blocks r T start m = .ok (some region) m') :
    region.block_ids.length = region.hashes.length := by
  replace h := get_ok h
  obtain ⟨pairs, m₁, -, h⟩ := bind_ok.1 h
  split at h
  · cases h
  · replace h := modify_ok h
    obtain ⟨rfl, -⟩ : BlockRegion.mk r (pairs.map (·.1)) (pairs.map (·.2)) = region ∧ _ := by
      simpa using h
    simp

/-! ### Activating -/

/-- What the table lists under other hashes than the given ones. -/
def listed_beside (hash_values : List Nat) (m : BlockManager) : Set (Nat × Nat) :=
  {p | m.hash_block_table.lookup p.1 = some p.2 ∧ p.1 ∉ hash_values}

section
variable {hash_values : List Nat}

theorem listed_beside_of_table {m m' : BlockManager} (h : m'.hash_block_table = m.hash_block_table) :
    listed_beside hash_values m' ≤ listed_beside hash_values m := by
  unfold listed_beside
  rw [h]

theorem activate_block_lowers (x : Nat) :
    Lowers (listed_beside hash_values) (activate_block hash_values x) := by
  refine Lowers.get.bind fun s => Lowers.bind (Lowers.modify fun s' => ?_) fun _ => ?_
  · split
    · rename_i hlisted
      rintro ⟨h, b⟩ ⟨hb, hh⟩
      have hne : h ≠ (s.get_block x).hash := by rintro rfl; exact hh hlisted.1
      replace hb : (s'.hash_block_table.insert _ _).lookup h = some b := hb
      rw [Table.lookup_insert_eq, if_neg hne] at hb
      exact ⟨hb, hh⟩
    · exact le_refl _
  · refine Lowers.bind ?_ fun _ => Lowers.pure _
    exact (on_allocator_keeps (f := hash_block_table) (fun _ _ => rfl) _).lowers
      fun _ _ => listed_beside_of_table

/-- An activation lists blocks under the given hashes only. -/
theorem activate_reserved_blocks_lowers (r : Nat) :
    Lowers (listed_beside hash_values) (activate_reserved_blocks r hash_values) := by
  refine Lowers.get.bind fun s => ?_
  split
  · exact Lowers.pure _
  · refine Lowers.bind (Lowers.modify fun s' => listed_beside_of_table rfl) fun _ => ?_
    exact (Lowers.mapM fun x _ => activate_block_lowers x).bind fun _ => Lowers.pure _

end

end BlockManager

namespace Scheduler

theorem on_host_lowers {α : Type} {γ : Type} [Preorder γ] {f : BlockManager → γ} {x : BM α}
    (h : Lowers f x) : Lowers (fun s => f s.host_block_manager) (on_device .Host x) :=
  h.zoom fun _ _ hle => hle

theorem trigger_pend_task_lowers [Hasher] (session_id : Nat) (region_id : Option Nat)
    (hash_values : List Nat) :
    Lowers (fun s => BlockManager.listed_beside hash_values s.host_block_manager)
      (trigger_pend_task session_id region_id hash_values) := by
  refine Lowers.get.bind fun s => ?_
  split
  · exact Lowers.throw _
  · rename_i t _
    refine Lowers.bind (Lowers.modify fun _ => le_refl _) fun _ => Lowers.bind ?_ fun _ => ?_
    · unfold activate_region
      split
      · exact on_host_lowers ((BlockManager.activate_reserved_blocks_lowers _).bind fun _ => Lowers.pure _)
      · exact Lowers.pure _
    · split
      · exact Lowers.throw _
      · refine Lowers.bind (on_host_lowers (Lowers.bind ?_ fun _ => Lowers.pure _)) fun _ =>
          Lowers.modify fun _ => le_refl _
        exact (BlockManager.update_prefix_cache_blocks_table _).lowers fun _ _ =>
          BlockManager.listed_beside_of_table

end Scheduler

/-! ### The hand-over -/

section
variable [Hasher]

/-- The calls that `transfer_kv` makes to the KV workers. -/
def transfer_requests (peer_names : List Nat) (reserve_res : ReserveOutput) (prefill : System) :
    List PushKvRequest :=
  match System.pin_blocks reserve_res.hash_values prefill with
  | .ok block_region _ =>
    KVWorkerGroup.push_requests peer_names reserve_res.kv_descs block_region.block_region.block_ids
  | .error _ _ => []

/-- The trigger of `forward` on the decode node, however it ends. -/
def triggered (session_id : Nat) (region_id : Option Nat) (hash_values : List Nat) (decode : System) :
    System :=
  (attempt (System.on_scheduler
    (Scheduler.trigger_pend_task session_id region_id hash_values)) decode).2

end

namespace System

/-- The table lists block `b` under `h` after a step and did not before. -/
def Activated (h b : Nat) (s s' : System) : Prop :=
  s'.scheduler.host_block_manager.hash_block_table.lookup h = some b ∧
    s.scheduler.host_block_manager.hash_block_table.lookup h ≠ some b

/-- Every rank has reported that it wrote the block found under `h` on the prefill node into block
`b` of the decode node. -/
def Written (prefill : System) (workers : List KvWorker) (requests : List PushKvRequest)
    (h b : Nat) : Prop :=
  requests.length = workers.length ∧ ∀ p ∈ workers.zip requests, p.1.push_kv p.2 = some true ∧
    ∃ src, prefill.scheduler.host_block_manager.lookup_block_id h = some src ∧
      (src, b) ∈ p.2.block_ids.zip p.2.kv_descs

/-- Hash `h` is that of a block of the region that has been written. -/
def Transferred (prefill : System) (workers : List KvWorker) (requests : List PushKvRequest)
    (region : Option DeviceBlockRegion) (h : Nat) : Prop :=
  ∃ r ∈ region, ∃ b, (b, h) ∈ r.block_region.block_ids.zip r.block_region.hashes ∧
    Written prefill workers requests h b

variable [Hasher]

theorem activated_mem {session_id : Nat} {region_id : Option Nat} {hash_values : List Nat} {s : System}
    {h b : Nat} (ha : Activated h b s (triggered session_id region_id hash_values s)) :
    h ∈ hash_values := by
  by_contra hh
  have hlow := Scheduler.trigger_pend_task_lowers session_id region_id hash_values s.scheduler
  have hmem : (h, b) ∈ BlockManager.listed_beside hash_values
      (triggered session_id region_id hash_values s).scheduler.host_block_manager := ⟨ha.1, hh⟩
  suffices hle : BlockManager.listed_beside hash_values
      (triggered session_id region_id hash_values s).scheduler.host_block_manager ≤
      BlockManager.listed_beside hash_values s.scheduler.host_block_manager from
    ha.2 (hle hmem).1
  unfold triggered attempt on_scheduler zoom
  cases hrun : Scheduler.trigger_pend_task session_id region_id hash_values s.scheduler with
  | ok _ σ => rw [hrun] at hlow; exact hlow
  | error _ σ => rw [hrun] at hlow; exact hlow

theorem reserve_request_lengths {request : GenerateRequest} {arrival_time : Nat} {s s' : System}
    {r : DeviceBlockRegion} (h : reserve_request request arrival_time s = .ok (some r) s') :
    r.block_region.block_ids.length = r.block_region.hashes.length := by
  obtain ⟨task, s₁, -, h⟩ := bind_ok.1 h
  obtain ⟨id, s₂, -, h⟩ := bind_ok.1 h
  obtain ⟨region, s₃, hres, h⟩ := bind_ok.1 h
  obtain ⟨_, s₄, -, h⟩ := bind_ok.1 h
  obtain ⟨rfl, -⟩ : region = some r ∧ _ := by simpa using h
  obtain ⟨σ, hres, -⟩ := zoom_ok.1 hres
  unfold Scheduler.reserve_blocks at hres
  cases hhead : task.get_head_seq with
  | none => rw [hhead] at hres; cases hres
  | some head_seq =>
    rw [hhead] at hres
    obtain ⟨_, σ₁, -, hres⟩ := bind_ok.1 hres
    obtain ⟨region, σ₂, hdev, hres⟩ := bind_ok.1 hres
    obtain ⟨hmap, -⟩ : region.map _ = some r ∧ _ := by simpa using hres
    obtain ⟨r', hr', rfl⟩ := Option.map_eq_some_iff.1 hmap
    obtain ⟨m, hm, -⟩ := Scheduler.on_device_ok hdev
    rw [hr'] at hm
    exact BlockManager.reserve_blocks_lengths hm

omit [Hasher] in
/-- What `pin_blocks` pins, by position: a block found under each of the first hashes. -/
theorem pin_blocks_found {hash_values : List Nat} {s s' : System} {r : DeviceBlockRegion}
    (h : pin_blocks hash_values s = .ok r s') :
    ∃ pairs : List (Nat × Nat), r.block_region.block_ids = pairs.map (·.1) ∧
      r.block_region.hashes = pairs.map (·.2) ∧ pairs.map (·.2) <+: hash_values ∧
      (∀ p ∈ pairs, s.scheduler.host_block_manager.lookup_block_id p.2 = some p.1) ∧
      (pairs = [] ↔ hash_values.head?.bind s.scheduler.host_block_manager.lookup_block_id = none) := by
  obtain ⟨id, s₁, hid, h⟩ := bind_ok.1 h
  obtain ⟨σ, hσ, -⟩ := zoom_ok.1 h
  have hs₁ : s₁.scheduler = s.scheduler := by
    obtain ⟨_, _, hget, hid⟩ := bind_ok.1 hid
    cases hget
    obtain ⟨_, _, hmod, hid⟩ := bind_ok.1 hid
    cases hmod; cases hid; rfl
  rw [hs₁] at hσ
  obtain ⟨region, σ₁, hdev, hret⟩ := bind_ok.1 hσ
  cases hret
  obtain ⟨m, hm, -⟩ := Scheduler.on_device_ok hdev
  obtain ⟨pairs, m₁, hloop, hm⟩ := bind_ok.1 hm
  replace hm := BlockManager.modify_ok hm
  cases hm
  obtain ⟨hpre, hfound⟩ := BlockManager.pin_loop_found _ hloop
  exact ⟨pairs, rfl, rfl, hpre, hfound, BlockManager.pin_loop_eq_nil hloop⟩

section
variable {workers : List KvWorker} {peer_names : List Nat}

omit [Hasher] in
theorem push_requests_mem {kv_descs : List (List Nat)} {block_ids : List Nat} {r : PushKvRequest}
    (h : r ∈ KVWorkerGroup.push_requests peer_names kv_descs block_ids) :
    r.kv_descs ∈ kv_descs ∧ r.block_ids = block_ids := by
  unfold KVWorkerGroup.push_requests at h
  rw [← List.map_uncurry_zip_eq_zipWith] at h
  obtain ⟨⟨p, d⟩, hp, rfl⟩ := List.mem_map.1 h
  exact ⟨(List.of_mem_zip hp).2, rfl⟩

omit [Hasher] in
/-- A transfer that returns has a request for every rank, and its hashes are those of the pinned
blocks. -/
theorem push_kv_eq_some {kv_descs : List (List Nat)} {r : DeviceBlockRegion} {hashes : List Nat}
    (h : LLMEngine.push_kv workers peer_names kv_descs r = some hashes) :
    hashes = r.block_region.hashes ∧ (r.block_region.block_ids ≠ [] →
      (KVWorkerGroup.push_requests peer_names kv_descs r.block_region.block_ids).length =
        workers.length) := by
  unfold LLMEngine.push_kv at h
  by_cases hnil : r.block_region.block_ids = []
  · simp only [hnil, List.isEmpty_nil, Bool.not_true, Bool.false_eq_true, if_false] at h
    exact ⟨(Option.some.inj h).symm, fun hne => absurd hnil hne⟩
  · have hempty : (!r.block_region.block_ids.isEmpty) = true := by simp [hnil]
    rw [if_pos hempty] at h
    obtain ⟨_, hpush, h⟩ := Option.bind_eq_some_iff.1 h
    refine ⟨(Option.some.inj h).symm, fun _ => ?_⟩
    unfold KVWorkerGroup.push_kv at hpush
    split at hpush
    · obtain ⟨rets, hrun, -⟩ := Option.bind_eq_some_iff.1 hpush
      unfold run_workers at hrun
      split at hrun
      · exact Eq.symm ‹_›
      · cases hrun
    · cases hpush

omit [Hasher] in
theorem success_hashes_eq_some {reserve_res : ReserveOutput} {prefill : System} {hashes : List Nat}
    (h : success_hashes workers peer_names reserve_res prefill = some hashes) :
    (reserve_res.hash_values = [] ∧ hashes = []) ∨
      ∃ r s, pin_blocks reserve_res.hash_values prefill = .ok r s ∧
        LLMEngine.push_kv workers peer_names reserve_res.kv_descs r = some hashes := by
  unfold success_hashes at h
  split at h
  · exact .inl ⟨List.isEmpty_iff.1 ‹_›, (Option.some.inj h).symm⟩
  · split at h
    · exact .inr ⟨_, _, ‹_›, h⟩
    · cases h

end

omit [Hasher] in
instance (h b : Nat) (s s' : System) : Decidable (Activated h b s s') :=
  inferInstanceAs (Decidable (_ ∧ _))

/-- Block size 2; the prefill node has served a request for `[1, 2]`. -/
def handoverConfig : SchedulerConfig := ⟨4, 64, 16, 2, Nat.two_pos, 4, 4, 0, false, Scheduler.defaultWatermark⟩

def handoverRequest : GenerateRequest := ⟨0, [1, 2], 1, some 1, false, false⟩

/-- Two ranks whose transfers end in the given states. -/
def twoRanks (st₀ st₁ : XferState) : List KvWorker :=
  [⟨true, fun _ _ _ => some (.PROC, [.PROC, st₀])⟩, ⟨true, fun _ _ _ => some (.PROC, [st₁])⟩]

/-- The response of the decode node for the hand-over of `handoverRequest`, and its state when the
prefill node calls back. -/
def handover_reserved : Option (Option DeviceBlockRegion × System × System) :=
  match reserve_request handoverRequest 1 (System.new handoverConfig) with
  | .ok region s =>
    match System.pend_reserved 0 s with
    | .ok _ s' => some (region, s, s')
    | .error _ _ => none
  | .error _ _ => none

/-- The hand-over with these workers returns the hashes and activates the block. -/
def hands_over (workers : List KvWorker) (hashes : List Nat) (h b : Nat) (prefill : System) : Bool :=
  handover_reserved.any fun (region, _, decode) =>
    success_hashes workers [0, 1] (.of 2 region) prefill == some hashes &&
      decide (Activated h b decode (triggered 0 (ReserveOutput.of 2 region).region_id hashes decode))

theorem exists_handover (workers : List KvWorker) (hashes : List Nat) (h b : Nat)
    (hrun : (Run.follow Op.next (System.new handoverConfig) [.add_request handoverRequest 0, .schedule]).any
      (hands_over workers hashes h b) = true) :
    ∃ prefill decode decode' region, Reachable handoverConfig prefill ∧
      reserve_request handoverRequest 1 (System.new handoverConfig) = .ok region decode ∧
      success_hashes workers [0, 1] (.of 2 region) prefill = some hashes ∧
      Run Op.Step decode [.pend_reserved 0] decode' ∧
      Activated h b decode' (triggered 0 (ReserveOutput.of 2 region).region_id hashes decode') := by
  obtain ⟨prefill, hprefill, hs⟩ := Run.exists_of_follow (fun _ _ _ => Op.step_of_next) hrun
  obtain ⟨⟨region, decode, decode'⟩, hres, hs⟩ := Option.any_eq_true _ _ |>.1 hs
  simp only [Bool.and_eq_true, beq_iff_eq, decide_eq_true_eq] at hs
  unfold handover_reserved at hres
  split at hres
  · rename_i region₁ s₁ hok
    split at hres
    · rename_i s₂ hpend
      obtain ⟨rfl, rfl, rfl⟩ : region₁ = region ∧ s₁ = decode ∧ s₂ = decode' := by simpa using hres
      exact ⟨prefill, s₁, s₂, region₁, ⟨_, hprefill⟩, hok, hs.1, .cons hpend .nil, hs.2⟩
    · cases hres
  · cases hres

end System

end LMServe
