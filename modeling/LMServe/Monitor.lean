import LMServe.Lib.Json
import LMServe.FreeList
import LMServe.Publishing

/-!
# What the monitor can read (`stats.rs`, `monitor.rs`, `router.rs`)

`serde_json` writes the statistics field by field, and the monitor drops a message that it cannot read
back. The usage of a pool without blocks is not a number: the messages of an engine with such a pool are
all dropped, and the router never sees it.
-/

namespace LMServe

namespace Stats

/-- `serde_json::to_vec` -/
def to_vec (st : Stats) : JsonObject :=
  [("num_running_reqs", Codec.usize.encode st.num_running_reqs),
    ("num_allocated_reqs", Codec.usize.encode st.num_allocated_reqs),
    ("num_waiting_reqs", Codec.usize.encode st.num_waiting_reqs),
    ("num_pending_reqs", Codec.usize.encode st.num_pending_reqs),
    ("num_promoted_reqs", Codec.usize.encode st.num_promoted_reqs),
    ("gpu_kv_block_usage", Codec.f32.encode st.gpu_kv_block_usage),
    ("host_kv_block_usage", Codec.f32.encode st.host_kv_block_usage)]

/-- `serde_json::from_slice::<Stats>` -/
def from_slice (payload : JsonObject) : Option Stats := do
  let num_running_reqs ← payload.field "num_running_reqs" Codec.usize
  let num_allocated_reqs ← payload.field "num_allocated_reqs" Codec.usize
  let num_waiting_reqs ← payload.field "num_waiting_reqs" Codec.usize
  let num_pending_reqs ← payload.field "num_pending_reqs" Codec.usize
  let num_promoted_reqs ← payload.field "num_promoted_reqs" Codec.usize
  let gpu_kv_block_usage ← payload.field "gpu_kv_block_usage" Codec.f32
  let host_kv_block_usage ← payload.field "host_kv_block_usage" Codec.f32
  pure ⟨num_running_reqs, num_allocated_reqs, num_waiting_reqs, num_pending_reqs, num_promoted_reqs,
    gpu_kv_block_usage, host_kv_block_usage⟩

theorem nodup_fields (st : Stats) : (st.to_vec.map Prod.fst).Nodup := by
  show ["num_running_reqs", "num_allocated_reqs", "num_waiting_reqs", "num_pending_reqs", "num_promoted_reqs",
    "gpu_kv_block_usage", "host_kv_block_usage"].Nodup
  decide

/-- What has been written can be read if the usages are numbers, and then it is the same. -/
theorem from_slice_to_vec (st : Stats) : from_slice st.to_vec = if st.readable then some st else none := by
  have hfield : ∀ {α : Type} (C : Codec α) {name : String} {v : JsonValue}, (name, v) ∈ st.to_vec →
      st.to_vec.field name C = C.decode v := fun C _ _ => JsonObject.field_of_mem st.nodup_fields
  unfold from_slice
  rw [hfield Codec.usize (.head _), hfield Codec.usize (.tail _ (.head _)),
    hfield Codec.usize (.tail _ (.tail _ (.head _))), hfield Codec.usize (.tail _ (.tail _ (.tail _ (.head _)))),
    hfield Codec.usize (.tail _ (.tail _ (.tail _ (.tail _ (.head _))))),
    hfield Codec.f32 (.tail _ (.tail _ (.tail _ (.tail _ (.tail _ (.head _)))))),
    hfield Codec.f32 (.tail _ (.tail _ (.tail _ (.tail _ (.tail _ (.tail _ (.head _)))))))]
  obtain ⟨running, allocated, waiting, pending, promoted, gpu, host⟩ := st
  cases gpu <;> cases host <;> rfl

theorem readable_of_from_slice {payload : JsonObject} {st : Stats} (h : from_slice payload = some st) :
    st.readable = true := by
  simp only [from_slice, Option.bind_eq_bind, Option.pure_def, Option.bind_eq_some_iff, Option.some.injEq] at h
  obtain ⟨_, -, _, -, _, -, _, -, _, -, gpu, hgpu, host, hhost, rfl⟩ := h
  simp only [readable, Bool.and_eq_true]
  exact ⟨JsonObject.isSome_of_field_f32 hgpu, JsonObject.isSome_of_field_f32 hhost⟩

end Stats

/-- The entries by worker: only what could be read gets into the store. -/
structure Monitor where
  store : Table Stats
  readable : ∀ worker_id st, store.lookup worker_id = some st → st.readable = true

namespace Monitor

def start : Monitor := ⟨∅, fun _ _ h => by simp at h⟩

/-- A message on `stats.update.*` -/
def update (worker_id : Nat) (payload : JsonObject) (m : Monitor) : Monitor :=
  match hread : Stats.from_slice payload with
  | some stat =>
    ⟨m.store.insert worker_id stat, fun k st h => by
      rw [Table.lookup_insert_eq] at h
      split at h
      · obtain rfl := Option.some.inj h
        exact Stats.readable_of_from_slice hread
      · exact m.readable k st h⟩
  | none => m

/-- The answer on `stats.query.list` -/
def list (ids : List Nat) (m : Monitor) : List (Nat × JsonObject) :=
  ids.filterMap fun id => (m.store.lookup id).map fun st => (id, st.to_vec)

end Monitor

/-- `LoadBalanceNodeScheduler::select` reads the answer, or fails. -/
def read_answer (resp : List (Nat × JsonObject)) : Option (List (Nat × Stats)) :=
  resp.mapM fun (id, payload) => (Stats.from_slice payload).map fun st => (id, st)

namespace Monitor
variable {m : Monitor} {worker_id : Nat} {payload : JsonObject} {st : Stats}

theorem store_update (h : Stats.from_slice payload = some st) :
    (m.update worker_id payload).store = m.store.insert worker_id st := by
  unfold update
  split
  · rename_i stat hstat
    obtain rfl : stat = st := Option.some.inj (hstat.symm.trans h)
    rfl
  · rename_i hnone
    cases hnone.symm.trans h

theorem update_unread (h : Stats.from_slice payload = none) : m.update worker_id payload = m := by
  unfold update
  split
  · rename_i hstat
    cases hstat.symm.trans h
  · rfl

theorem read_list (ids : List Nat) (m : Monitor) : read_answer (m.list ids) =
    some (ids.filterMap fun id => (m.store.lookup id).map fun st => (id, st)) := by
  induction ids with
  | nil => rfl
  | cons id ids ih =>
    unfold list at ih ⊢
    cases hst : m.store.lookup id with
    | none =>
      rw [List.filterMap_cons_none (by simp [hst]), List.filterMap_cons_none (by simp [hst])]
      exact ih
    | some st =>
      rw [List.filterMap_cons_some (b := (id, st.to_vec)) (by simp [hst]),
        List.filterMap_cons_some (b := (id, st)) (by simp [hst])]
      unfold read_answer at ih ⊢
      rw [List.mapM_cons, ih]
      simp only [Stats.from_slice_to_vec, m.readable id st hst, if_true]
      rfl

end Monitor

theorem BlockAllocator.get_block_usage_isSome (a : BlockAllocator) :
    a.get_block_usage.isSome = true ↔ 0 < a.num_total_blocks := by
  unfold get_block_usage
  dsimp only
  split
  · simp_all
  · simp only [Option.isSome_some, true_iff]
    omega

/-- What an engine publishes is read back as it was, and its entry is in the map of the router, if and only
if it has blocks on the GPU and on the host. -/
theorem stats_accepted_iff [Hasher] {c : SchedulerConfig} {ops : List EngineOp} {e : Engine}
    (h : Run EngineOp.Step (Engine.new c) ops e) :
    (Stats.from_slice e.system.scheduler.get_stats.to_vec = some e.system.scheduler.get_stats ∧
      ∀ (m : Monitor) (id : Nat) (ids : List Nat), id ∈ ids → ∃ answer,
        read_answer ((m.update id e.system.scheduler.get_stats.to_vec).list ids) = some answer ∧
          (id, e.system.scheduler.get_stats) ∈ answer) ↔
      0 < c.num_gpu_blocks ∧ 0 < c.num_host_blocks := by
  obtain ⟨st, hst⟩ : ∃ st, st = e.system.scheduler.get_stats := ⟨_, rfl⟩
  have hgpu := EngineOp.run_num_total_blocks h .Gpu
  have hhost := EngineOp.run_num_total_blocks h .Host
  have hreadable : st.readable = true ↔ 0 < c.num_gpu_blocks ∧ 0 < c.num_host_blocks := by
    rw [hst, Stats.readable, Bool.and_eq_true]
    refine and_congr ((BlockAllocator.get_block_usage_isSome _).trans ?_)
      ((BlockAllocator.get_block_usage_isSome _).trans ?_)
    · exact hgpu ▸ Iff.rfl
    · exact hhost ▸ Iff.rfl
  rw [← hst, ← hreadable]
  constructor
  · rintro ⟨hread, -⟩
    exact Stats.readable_of_from_slice hread
  · intro hr
    have hread : Stats.from_slice st.to_vec = some st := by rw [Stats.from_slice_to_vec, if_pos hr]
    refine ⟨hread, fun m id ids hid => ⟨_, Monitor.read_list ids _, List.mem_filterMap.2 ⟨id, hid, ?_⟩⟩⟩
    rw [Monitor.store_update hread, Table.lookup_insert_eq, if_pos rfl]
    rfl

/-- An engine with blocks on both devices that has served a request. -/
theorem stats_accepted_iff_served :
    let _ := decimalHasher
    ∃ ops e, Run EngineOp.Step (Engine.new EngineOp.diskConfig) ops e ∧ e.system.scheduler.pending.entries = [] ∧
      Stats.from_slice e.system.scheduler.get_stats.to_vec = some e.system.scheduler.get_stats := by
  let _ := decimalHasher
  have hfollow : (Run.follow EngineOp.next (Engine.new EngineOp.diskConfig)
      [.add_request ⟨0, [1, 2], 1, some 1, false, false⟩ 0, .schedule,
        .update (AList.singleton 0 ⟨3, 1, "", false⟩) 1, .finish]).any
      (fun e => e.system.scheduler.pending.entries.isEmpty) = true := by
    decide +kernel
  obtain ⟨e, hrun, he⟩ := Run.exists_of_follow (fun _ _ _ h => h) hfollow
  exact ⟨_, e, hrun, List.isEmpty_iff.1 he,
    ((stats_accepted_iff hrun).2 ⟨by decide, by decide⟩).1⟩

/-- The same engine without blocks on the host serves the request, and nothing it publishes is kept. -/
theorem stats_unread :
    let _ := decimalHasher
    ∃ ops e, Run EngineOp.Step (Engine.new { EngineOp.diskConfig with num_host_blocks := 0 }) ops e ∧
      e.system.scheduler.get_stats.Idle ∧ Stats.from_slice e.system.scheduler.get_stats.to_vec = none ∧
      ∀ (m : Monitor) (id : Nat), m.update id e.system.scheduler.get_stats.to_vec = m := by
  let _ := decimalHasher
  have hfollow : (Run.follow EngineOp.next (Engine.new { EngineOp.diskConfig with num_host_blocks := 0 })
      [.add_request ⟨0, [1, 2], 1, some 1, false, false⟩ 0, .schedule,
        .update (AList.singleton 0 ⟨3, 1, "", false⟩) 1, .finish]).any
      (fun e => decide e.system.scheduler.get_stats.Idle && !e.system.scheduler.get_stats.readable) = true := by
    decide +kernel
  obtain ⟨e, hrun, he⟩ := Run.exists_of_follow (fun _ _ _ h => h) hfollow
  obtain ⟨hidle, hunread⟩ := Bool.and_eq_true_iff.1 he
  have hnone : Stats.from_slice e.system.scheduler.get_stats.to_vec = none := by
    rw [Stats.from_slice_to_vec, if_neg (by simpa using hunread)]
  exact ⟨_, e, hrun, of_decide_eq_true hidle, hnone, fun m id => Monitor.update_unread hnone⟩

end LMServe
