import LMServe.Custody

/-!
# A forward that fails (`router.rs`, `LlmRouter::forward`)

`forward` reserves on the decode node, transfers, and triggers. Each call is followed from the moment
its `reserve` has returned; the decode node is an `Engine`, which meanwhile takes any other step. An
error after that moment ends the call on the router alone: the trigger is the only step that takes the
pending task out again, and nobody else sends one for this reservation.
-/

namespace LMServe

/-- Where a `forward` call stands whose reservation has returned. -/
inductive ForwardState where
  | reserved
  /-- the hashes to trigger with are known -/
  | transferred (success_hashes : List Nat)
  /-- returned `Err` -/
  | failed
deriving DecidableEq, Repr

/-- A decode node and the `forward` calls that use it, in the order of `Engine.remote`. -/
structure Serving where
  engine : Engine
  forwards : List ForwardState

inductive ServingOp where
  /-- any other step of the node -/
  | other (op : EngineOp)
  /-- the second section of a `reserve_request` -/
  | reserve (i : Nat)
  /-- the source cannot be reached, or its `transfer_kv` call fails -/
  | transfer_failed (k : Nat)
  | transfer_kv (k : Nat) (success_hashes : List Nat)
  /-- the trigger call does not reach the node -/
  | trigger_failed (k : Nat)
  | trigger (k : Nat)

namespace Serving

def new (c : SchedulerConfig) : Serving := ⟨Engine.new c, []⟩

/-- Whether the reservation has anything to transfer. -/
def has_hashes (e : Engine) (k : Nat) : Bool :=
  e.remote[k]?.any fun output => output.2.any fun region => !region.block_region.hashes.isEmpty

variable [Hasher]

def next (x : Serving) : ServingOp → Option Serving
  | .other op =>
    match op with
    | .pend_reserved _ | .trigger_request _ _ => none
    | op => (EngineOp.next x.engine op).map fun e => { x with engine := e }
  | .reserve i =>
    (EngineOp.next x.engine (.pend_reserved i)).map fun e => {
      engine := e
      forwards := if x.engine.remote.length < e.remote.length then x.forwards ++ [.reserved]
        else x.forwards }
  | .transfer_failed k =>
    if x.forwards[k]? = some .reserved ∧ has_hashes x.engine k then
      some { x with forwards := x.forwards.set k .failed }
    else none
  | .transfer_kv k success_hashes =>
    if x.forwards[k]? = some .reserved then
      some { x with
        forwards := x.forwards.set k
          (.transferred (if has_hashes x.engine k then success_hashes else [])) }
    else none
  | .trigger_failed k =>
    match x.forwards[k]? with
    | some (.transferred _) => some { x with forwards := x.forwards.set k .failed }
    | _ => none
  | .trigger k =>
    match x.forwards[k]? with
    | some (.transferred success_hashes) =>
      (EngineOp.next x.engine (.trigger_request k success_hashes)).map fun e =>
        ⟨e, x.forwards.eraseIdx k⟩
    | _ => none

def Step (x : Serving) (op : ServingOp) (x' : Serving) : Prop := next x op = some x'

omit [Hasher] in
/-- The node holds nothing of the `k`-th reservation: no pending task of its session and no region. -/
def Restored (x : Serving) (k : Nat) : Prop :=
  ∀ session_id region, x.engine.remote[k]? = some (session_id, region) →
    x.engine.pending.lookup session_id = none ∧
      ∀ r ∈ region, (x.engine.regions .Host).lookup r.block_region.id = none

end Serving

namespace Serving

/-- There is a reservation for each call, and it is pending. -/
structure Inv (x : Serving) : Prop where
  claimed : x.engine.Claimed
  length : x.forwards.length = x.engine.remote.length

section
variable [Hasher] {x x' : Serving} {op : ServingOp}

theorem Inv.step (h : x.Inv) (hstep : Step x op x') : x'.Inv := by
  have hset : ∀ k f, Inv { x with forwards := x.forwards.set k f } := fun k f =>
    ⟨h.claimed, by rw [List.length_set]; exact h.length⟩
  cases op with
  | other op =>
    obtain ⟨hno, e, hnext, rfl⟩ : ((∀ i, op ≠ .pend_reserved i) ∧ ∀ k l, op ≠ .trigger_request k l) ∧
        ∃ e, EngineOp.next x.engine op = some e ∧ { x with engine := e } = x' := by
      cases op <;> first
        | exact ⟨by simp, Option.map_eq_some_iff.1 hstep⟩
        | cases hstep
    obtain ⟨hclaimed, heff⟩ := EngineOp.claimed_step h.claimed hnext
    refine ⟨hclaimed, ?_⟩
    rcases EngineOp.remote_of_effect heff with ⟨k, l, hop⟩ | ⟨i, _, hop, -⟩ | hr
    · exact absurd hop (hno.2 k l)
    · exact absurd hop (hno.1 i)
    · show x.forwards.length = e.remote.length
      rw [hr]; exact h.length
  | reserve i =>
    obtain ⟨e, hnext, rfl⟩ := Option.map_eq_some_iff.1 hstep
    obtain ⟨hclaimed, heff⟩ := EngineOp.claimed_step h.claimed hnext
    refine ⟨hclaimed, ?_⟩
    show (if x.engine.remote.length < e.remote.length then x.forwards ++ [.reserved]
      else x.forwards).length = e.remote.length
    rcases EngineOp.remote_of_effect heff with ⟨_, _, hop⟩ | ⟨_, output, -, hr⟩ | hr
    · cases hop
    · rw [hr, if_pos (by simp), List.length_append, List.length_append, h.length]; rfl
    · rw [hr, if_neg (Nat.lt_irrefl _), h.length]
  | transfer_failed k =>
    simp only [Step, next] at hstep
    split at hstep
    · obtain rfl := Option.some.inj hstep; exact hset _ _
    · cases hstep
  | transfer_kv k success_hashes =>
    simp only [Step, next] at hstep
    split at hstep
    · obtain rfl := Option.some.inj hstep; exact hset _ _
    · cases hstep
  | trigger_failed k =>
    simp only [Step, next] at hstep
    split at hstep
    · obtain rfl := Option.some.inj hstep; exact hset _ _
    · cases hstep
  | trigger k =>
    simp only [Step, next] at hstep
    split at hstep
    · obtain ⟨e, hnext, rfl⟩ := Option.map_eq_some_iff.1 hstep
      obtain ⟨hlt, hr⟩ := EngineOp.remote_of_trigger hnext
      refine ⟨(EngineOp.claimed_step h.claimed hnext).1, ?_⟩
      show (x.forwards.eraseIdx k).length = e.remote.length
      rw [hr, List.length_eraseIdx_of_lt hlt, List.length_eraseIdx_of_lt (h.length ▸ hlt), h.length]
    · cases hstep

/-- Whenever `forward` returns an error after its reservation, the task of its session stays pending
on the node. -/
theorem failed_not_restored (c : SchedulerConfig) {ops : List ServingOp}
    (hrun : Run Step (Serving.new c) ops x) :
    ∀ k, x.forwards[k]? = some .failed → ¬ Restored x k := by
  have hinv : x.Inv := hrun.invariant ⟨Engine.Claimed.new c, rfl⟩ fun _ _ _ => Inv.step
  intro k hk hrestored
  have hlt : k < x.engine.remote.length := hinv.length ▸ (List.getElem?_eq_some_iff.1 hk).1
  refine hinv.claimed.pending (x.engine.remote[k].1) ?_ (hrestored _ _ (List.getElem?_eq_getElem hlt)).1
  exact List.mem_append_right _ (List.mem_map.2 ⟨_, List.getElem_mem hlt, rfl⟩)

end

/-- A reservation for a prompt of two blocks. -/
def reservedRun : List ServingOp :=
  [.other (.reserve_request ⟨0, [1, 2], 1, some 1, false, false⟩ 0), .reserve 0]

/-- The trigger call of a reservation that has been transferred gets lost. -/
theorem failed_not_restored_trigger :
    let _ := decimalHasher
    ∃ x, Run Step (Serving.new EngineOp.diskConfig)
        (reservedRun ++ [.transfer_kv 0 [], .trigger_failed 0]) x ∧
      (x.forwards[0]? = some .failed ∧ ¬ Restored x 0) := by
  let _ := decimalHasher
  have hfollow : (Run.follow next (Serving.new EngineOp.diskConfig)
      (reservedRun ++ [.transfer_kv 0 [], .trigger_failed 0])).any
      (fun x => x.forwards[0]? = some .failed) = true := by decide +kernel
  obtain ⟨x, hrun, hx⟩ := Run.exists_of_follow (fun _ _ _ h => h) hfollow
  have hfailed : x.forwards[0]? = some .failed := by simpa using hx
  exact ⟨x, hrun, hfailed, failed_not_restored EngineOp.diskConfig hrun 0 hfailed⟩

/-- Whether the transfer fails or the trigger call gets lost, the node keeps the pending task and the
region of the reservation. -/
theorem forward_failed_leaks :
    let _ := decimalHasher
    ∀ ops ∈ [[.transfer_failed 0], [.transfer_kv 0 [], .trigger_failed 0]],
      ∃ x, Run Step (Serving.new EngineOp.diskConfig) (reservedRun ++ ops) x ∧
        x.forwards[0]? = some .failed ∧ (∃ region, x.engine.remote[0]? = some (0, some region) ∧
          (x.engine.regions .Host).lookup region.block_region.id ≠ none) ∧
        x.engine.pending.lookup 0 ≠ none ∧ ¬ Restored x 0 := by
  intro _ ops hops
  have hfollow : (Run.follow next (Serving.new EngineOp.diskConfig) (reservedRun ++ ops)).any (fun x =>
      x.forwards[0]? = some .failed ∧ x.engine.remote[0]?.any (fun output => output.1 = 0 ∧
        output.2.any fun region =>
          ((x.engine.regions .Host).lookup region.block_region.id).isSome) = true ∧
      (x.engine.pending.lookup 0).isSome) = true := by
    simp only [List.mem_cons, List.not_mem_nil, or_false] at hops
    rcases hops with rfl | rfl
    · decide +kernel
    · decide +kernel
  obtain ⟨x, hrun, hx⟩ := Run.exists_of_follow (fun _ _ _ h => h) hfollow
  obtain ⟨hfailed, hremote, hpending⟩ := of_decide_eq_true hx
  obtain ⟨⟨session_id, region⟩, houtput, hregion⟩ := (Option.any_eq_true _ _).1 hremote
  obtain ⟨rfl, hregion⟩ := of_decide_eq_true hregion
  obtain ⟨region, rfl, hlook⟩ := (Option.any_eq_true _ _).1 hregion
  have hsome : x.engine.pending.lookup 0 ≠ none := Option.isSome_iff_ne_none.1 hpending
  exact ⟨x, hrun, hfailed, ⟨region, houtput, Option.isSome_iff_ne_none.1 hlook⟩, hsome,
    fun hrestored => hsome (hrestored _ _ houtput).1⟩

end Serving

end LMServe
