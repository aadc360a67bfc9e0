import LMServe.Delivery

/-!
# Calls that are never woken

An event that fires while its call has not yet begun to wait wakes nobody, and nobody fires it again.
`generate` begins to wait only after it has published the statistics, and `run_engine` does not wait
for that. With new sessions only, this is the one way in which a finished task's call sleeps on.
-/

namespace LMServe
open Hoare EngineOp

/-- The call waits for its event, now or later. -/
def CallState.is_asleep : CallState → Bool
  | .registered | .added | .waiting => true
  | _ => false

namespace Wrapper

/-- No request comes in with a session that has been used before. -/
def distinct (x : Wrapper) : WrapperOp → Bool
  | .generate request | .engine (.reserve_request request _) =>
    !x.in_use request.session_id && !x.calls.any (·.session_id == request.session_id)
  | .trigger k => x.engine.remote[k]?.all fun output => !x.calls.any (·.session_id == output.1)
  | _ => true

/-- The event is not fired before its call has begun to wait. -/
def timely (x : Wrapper) : WrapperOp → Bool
  | .notify_waiters =>
    (x.notifying.bind x.request_events.lookup).all fun i =>
      x.calls[i]?.all fun call => decide (call.state ≠ .registered ∧ call.state ≠ .added)
  | _ => true

/-- The `i`-th call waits for an event that has been removed and fired, and its output is there. -/
def Lost (x : Wrapper) (i : Nat) : Prop :=
  ∃ call, x.calls[i]? = some call ∧ call.state.is_asleep = true ∧
    (∃ t u, x.request_outputs.lookup call.session_id = some t ∧ call.infer_task = some u ∧ u.tag = t.tag) ∧
    x.request_events.lookup call.session_id ≠ some i

/-- No call is lost, and every output that has been announced has a call that has been woken for it,
or that has given up before. -/
structure Heard (x : Wrapper) : Prop where
  none_lost : ∀ i, ¬ x.Lost i
  woken : ∀ session_id t, x.request_outputs.lookup session_id = some t → x.notifying ≠ some session_id →
    ∃ call ∈ x.calls, call.session_id = session_id ∧ (call.state = .woken ∨ call.state = .failed)

/-- A call that has not been woken finds its event where it has put it. -/
structure Listens (x : Wrapper) : Prop where
  inv : x.Inv
  asleep : ∀ (i : Nat) (call : Call), x.calls[i]? = some call → call.state.is_asleep = true →
    x.request_events.lookup call.session_id = some i
  woken : ∀ session_id t, x.request_outputs.lookup session_id = some t → x.notifying ≠ some session_id →
    ∃ call ∈ x.calls, call.session_id = session_id ∧ (call.state = .woken ∨ call.state = .failed)

theorem Listens.new (c : SchedulerConfig) : Listens (Wrapper.new c) where
  inv := .new c
  asleep _ _ h := absurd h (by simp [Wrapper.new])
  woken _ _ h := absurd h (by simp [Wrapper.new])

theorem Listens.heard {x : Wrapper} (h : x.Listens) : x.Heard :=
  ⟨fun i ⟨call, hi, hs, _, hne⟩ => hne (h.asleep i call hi hs), h.woken⟩

section
variable {x x' : Wrapper} {op : WrapperOp}

theorem fresh_of_distinct (h : x.distinct op = true) : x.fresh op = true := by
  cases op with
  | generate request => exact (Bool.and_eq_true_iff.1 h).1
  | engine op =>
    cases op with
    | reserve_request request now => exact (Bool.and_eq_true_iff.1 h).1
    | _ => rfl
  | trigger k =>
    refine (Option.all_eq_true _ _).2 fun output hk => ?_
    have hnone := (Option.all_eq_true _ _).1 h output hk
    simp only [Bool.not_eq_true', List.any_eq_false, Bool.and_eq_true, not_and] at hnone ⊢
    exact fun call hcall _ => hnone call hcall
  | _ => rfl

theorem Listens.set_call (h : x.Listens) (hinv : x'.Inv) {i : Nat} {call call' : Call}
    (hi : x.calls[i]? = some call) (hcalls : x'.calls = x.calls.set i call') (hkind : call'.kind = call.kind)
    (hasleep : call'.state.is_asleep = true → call.state.is_asleep = true)
    (hwoken : call.state = .woken ∨ call.state = .failed → call'.state = .woken ∨ call'.state = .failed)
    (hevents : x'.request_events = x.request_events) (houts : x'.request_outputs = x.request_outputs)
    (hnot : x'.notifying = x.notifying) : x'.Listens := by
  have hget : ∀ j, x'.calls[j]? = if j = i then some call' else x.calls[j]? := fun j => by
    rw [hcalls]; exact getElem?_set_calls hi
  have hid : call'.session_id = call.session_id := by unfold Call.session_id; rw [hkind]
  refine ⟨hinv, fun j c hj hs => ?_, fun k t ht hk => ?_⟩
  · rw [hevents]
    rw [hget] at hj
    split at hj
    · rename_i hji
      obtain rfl := Option.some.inj hj
      rw [hid, hji]
      exact h.asleep i call hi (hasleep hs)
    · exact h.asleep j c hj hs
  · rw [houts] at ht
    rw [hnot] at hk
    obtain ⟨c, hc, hsession, hstate⟩ := h.woken k t ht hk
    obtain ⟨j, hj⟩ := List.mem_iff_getElem?.1 hc
    by_cases hji : j = i
    · rw [hji, hi] at hj
      obtain rfl := Option.some.inj hj
      exact ⟨call', List.mem_of_getElem? ((hget i).trans (if_pos rfl)), hid.trans hsession, hwoken hstate⟩
    · exact ⟨c, List.mem_of_getElem? (((hget j).trans (if_neg hji)).trans hj), hsession, hstate⟩

theorem Listens.register (h : x.Listens) {kind : CallKind} (hinv : (x.register kind).Inv)
    (hnew : ∀ call ∈ x.calls, call.session_id ≠ kind.session_id) : (x.register kind).Listens := by
  refine ⟨hinv, fun i call hi hs => ?_, fun k t ht hk => ?_⟩
  · show (x.request_events.insert _ _).lookup _ = _
    replace hi : (x.calls ++ [⟨kind, .registered, none⟩])[i]? = some call := hi
    rw [List.getElem?_append] at hi
    split at hi
    · rw [Table.lookup_insert_eq, if_neg (hnew call (List.mem_of_getElem? hi))]
      exact h.asleep i call hi hs
    · obtain ⟨hlt, hcall⟩ := List.getElem?_eq_some_iff.1 hi
      have hlen : i - x.calls.length = 0 := by simpa using hlt
      obtain rfl : ⟨kind, .registered, none⟩ = call := by simpa [hlen] using hcall
      rw [Table.lookup_insert_eq, show Call.session_id ⟨kind, .registered, none⟩ = kind.session_id from rfl,
        if_pos rfl]
      congr 1
      omega
  · obtain ⟨call, hcall, hrest⟩ := h.woken k t ht hk
    exact ⟨call, List.mem_append_left _ hcall, hrest⟩

theorem Listens.take_output (h : x.Listens) {i : Nat} {call : Call} {t : InferTask}
    (hi : x.calls[i]? = some call)
    (hinv : (set_state i call (.returned t)
      { x with request_outputs := x.request_outputs.erase call.session_id }).Inv) :
    (set_state i call (.returned t)
      { x with request_outputs := x.request_outputs.erase call.session_id }).Listens := by
  have hget : ∀ j, (x.calls.set i { call with state := .returned t })[j]? =
      if j = i then some { call with state := .returned t } else x.calls[j]? := fun j => getElem?_set_calls hi
  refine ⟨hinv, fun j c hj hs => ?_, fun k u hu hk => ?_⟩
  · replace hj := (hget j).symm.trans hj
    split at hj
    · obtain rfl := Option.some.inj hj; cases hs
    · exact h.asleep j c hj hs
  · replace hu : (x.request_outputs.erase call.session_id).lookup k = some u := hu
    rw [Table.lookup_erase_eq] at hu
    split at hu
    · cases hu
    · rename_i hne
      obtain ⟨c, hc, hsession, hstate⟩ := h.woken k u hu hk
      obtain ⟨j, hj⟩ := List.mem_iff_getElem?.1 hc
      have hji : j ≠ i := by
        rintro rfl
        rw [hi] at hj
        obtain rfl := Option.some.inj hj
        exact hne hsession.symm
      exact ⟨c, List.mem_of_getElem? (((hget j).trans (if_neg hji)).trans hj), hsession, hstate⟩

theorem Listens.put_output (h : x.Listens) {infer_task : InferTask} {outputs : List InferTask}
    (hnone : x.notifying = none) {x' : Wrapper} (hx' : x' = { x with
      request_outputs := x.request_outputs.insert infer_task.session_id infer_task
      outputs := outputs
      notifying := some infer_task.session_id }) (hinv : x'.Inv) : x'.Listens := by
  refine ⟨hinv, by rw [hx']; exact h.asleep, fun k t ht hk => ?_⟩
  rw [hx'] at ht hk ⊢
  replace ht : (x.request_outputs.insert infer_task.session_id infer_task).lookup k = some t := ht
  rw [Table.lookup_insert_eq] at ht
  split at ht
  · rename_i heq
    exact absurd (congrArg some heq.symm) hk
  · exact h.woken k t ht (by rw [hnone]; exact (Option.some_ne_none k).symm)

theorem Inv.notify_ok [Hasher] (h : x.Inv) (hs : Step x .notify_waiters x') :
    ∃ i call t u state, x.notifying = some t.session_id ∧
      x.request_events.lookup t.session_id = some i ∧ x.calls[i]? = some call ∧
      call.session_id = t.session_id ∧ call.state.is_handed = true ∧ call.infer_task = some u ∧
      u.tag = t.tag ∧ x.request_outputs.lookup t.session_id = some t ∧
      (state = .woken ∧ call.state = .waiting ∨ state = call.state ∧ call.state ≠ .waiting) ∧
      x' = { x with
        request_events := x.request_events.erase t.session_id
        notifying := none
        calls := x.calls.set i { call with state } } := by
  simp only [Step, next] at hs
  split at hs
  · rename_i session_id hn
    obtain ⟨t, hout, rfl, i, call, u, hevent, hi, hid, hhanded, hu, htag⟩ := h.notifying session_id hn
    rw [hevent] at hs
    obtain rfl := Option.some.inj hs
    have hi' : { x with request_events := x.request_events.erase t.session_id, notifying := none }.calls[i]? =
      some call := hi
    obtain ⟨state, hstate, heq⟩ := wake_eq hi'
    exact ⟨i, call, t, u, state, hn, hevent, hi, hid, hhanded, hu, htag, hout, hstate, heq⟩
  · cases hs

theorem timely_iff {i : Nat} {call : Call} {k : Nat} (hn : x.notifying = some k)
    (hevent : x.request_events.lookup k = some i) (hi : x.calls[i]? = some call) :
    x.timely .notify_waiters = true ↔ call.state ≠ .registered ∧ call.state ≠ .added := by
  simp [timely, hn, hevent, hi]

theorem Listens.notify_waiters [Hasher] (h : x.Listens) (hinv : x'.Inv)
    (ht : x.timely .notify_waiters = true) (hs : Step x .notify_waiters x') : x'.Listens := by
  obtain ⟨i, call, t, u, state, hn, hevent, hi, hid, hhanded, -, -, -, hstate, hx'⟩ := h.inv.notify_ok hs
  obtain ⟨hreg, hadd⟩ := (timely_iff hn hevent hi).1 ht
  have hdone : state = .woken ∨ state = .failed := by
    rcases hstate with ⟨rfl, -⟩ | ⟨rfl, hw⟩
    · exact .inl rfl
    · cases hc : call.state with
      | registered => exact absurd hc hreg
      | added => exact absurd hc hadd
      | waiting => exact absurd hc hw
      | failed => exact .inr rfl
      | woken | returned => rw [hc] at hhanded; cases hhanded
  have hget : ∀ j, x'.calls[j]? = if j = i then some { call with state } else x.calls[j]? := fun j => by
    rw [hx']; exact getElem?_set_calls hi
  refine ⟨hinv, fun j c hj hasleep => ?_, fun k v hv _ => ?_⟩
  · rw [hget] at hj
    split at hj
    · obtain rfl := Option.some.inj hj
      rcases hdone with rfl | rfl
      · cases hasleep
      · cases hasleep
    · rename_i hji
      have hlook := h.asleep j c hj hasleep
      rw [hx']
      show (x.request_events.erase _).lookup _ = _
      rw [Table.lookup_erase_eq, if_neg]
      · exact hlook
      · intro heq
        rw [heq, hevent] at hlook
        exact hji (Option.some.inj hlook).symm
  · have hmine : ({ call with state } : Call) ∈ x'.calls :=
      List.mem_of_getElem? ((hget i).trans (if_pos rfl))
    by_cases hk : k = t.session_id
    · exact ⟨_, hmine, hid.trans hk.symm, hdone⟩
    · have hnk : x.notifying ≠ some k := by rw [hn]; exact fun heq => hk (Option.some.inj heq).symm
      obtain ⟨c, hc, hsession, hcs⟩ := h.woken k v (by rw [hx'] at hv; exact hv) hnk
      obtain ⟨j, hj⟩ := List.mem_iff_getElem?.1 hc
      have hji : j ≠ i := by
        rintro rfl
        rw [hi] at hj
        obtain rfl := Option.some.inj hj
        exact hk (hsession.symm.trans hid)
      exact ⟨c, List.mem_of_getElem? (((hget j).trans (if_neg hji)).trans hj), hsession, hcs⟩

/-- An event fired too early loses its call. -/
theorem Inv.lost_of_not_timely [Hasher] (h : x.Inv) (ht : x.timely .notify_waiters ≠ true)
    (hs : Step x .notify_waiters x') : ∃ i, x'.Lost i := by
  obtain ⟨i, call, t, u, state, hn, hevent, hi, hid, hhanded, hu, htag, hout, hstate, hx'⟩ := h.notify_ok hs
  rw [Ne, timely_iff hn hevent hi, not_and_or, not_not, not_not] at ht
  have hadded : call.state = .added := by
    rcases ht with hc | hc
    · rw [hc] at hhanded; cases hhanded
    · exact hc
  obtain ⟨rfl, -⟩ : state = call.state ∧ call.state ≠ .waiting := by
    rcases hstate with ⟨-, hw⟩ | hstate
    · rw [hadded] at hw; cases hw
    · exact hstate
  refine ⟨i, { call with state := call.state }, ?_, ?_, ⟨t, u, ?_, hu, htag⟩, ?_⟩
  · rw [hx']; exact (getElem?_set_calls hi).trans (if_pos rfl)
  · show call.state.is_asleep = true
    rw [hadded]; rfl
  · rw [hx', show Call.session_id { call with state := call.state } = t.session_id from hid]
    exact hout
  · rw [hx', show Call.session_id { call with state := call.state } = t.session_id from hid]
    show (x.request_events.erase _).lookup _ ≠ _
    rw [Table.lookup_erase_eq, if_pos rfl]
    exact (Option.some_ne_none i).symm

section
variable [Hasher]

theorem Listens.step (h : x.Listens) (hd : x.distinct op = true) (ht : x.timely op = true)
    (hs : Step x op x') : x'.Listens := by
  have hinv : x'.Inv := h.inv.step (fresh_of_distinct hd) hs
  have hmark : ∀ {c : Call} {state : CallState}, c.state = .woken ∨ c.state = .failed →
      c.state = .added → state = .woken ∨ state = .failed := fun hc ha => by
    rcases hc with hc | hc
    · rw [ha] at hc; cases hc
    · rw [ha] at hc; cases hc
  cases op with
  | engine op =>
    have hgo : x.on_engine op = some x' → x'.Listens := fun h₁ => by
      obtain ⟨e', -, rfl⟩ := Option.map_eq_some_iff.1 h₁
      exact ⟨hinv, h.asleep, h.woken⟩
    cases op with
    | add_request request now => cases hs
    | trigger_request k l => cases hs
    | schedule =>
      simp only [Step, next] at hs
      split at hs
      · exact hgo hs
      · cases hs
    | _ => exact hgo hs
  | generate request =>
    obtain rfl := Option.some.inj hs
    refine h.register hinv fun call hcall heq => ?_
    have hnone := (Bool.and_eq_true_iff.1 hd).2
    simp only [Bool.not_eq_true', List.any_eq_false, beq_iff_eq] at hnone
    exact hnone call hcall heq
  | trigger k =>
    obtain ⟨output, hk, rfl⟩ := Option.map_eq_some_iff.1 hs
    refine h.register hinv fun call hcall heq => ?_
    simp only [distinct, hk, Option.all_some, Bool.not_eq_true', List.any_eq_false, beq_iff_eq] at hd
    exact hd call hcall heq
  | add_request i arrival_time =>
    simp only [Step, next, Wrapper.add_request] at hs
    split at hs
    · rename_i hi
      obtain ⟨x₁, hx₁, rfl⟩ := Option.map_eq_some_iff.1 hs
      obtain ⟨e', -, rfl⟩ := Option.map_eq_some_iff.1 hx₁
      exact h.set_call hinv hi rfl rfl (fun _ => rfl) (fun hc => by simp at hc) rfl rfl rfl
    · cases hs
  | trigger_request i k hash_values =>
    simp only [Step, next, Wrapper.trigger_request] at hs
    split at hs
    · rename_i hi _
      split at hs
      · obtain ⟨x₁, hx₁, rfl⟩ := Option.map_eq_some_iff.1 hs
        obtain ⟨e', -, rfl⟩ := Option.map_eq_some_iff.1 hx₁
        exact h.set_call hinv hi rfl rfl (fun _ => rfl) (fun hc => by simp at hc) rfl rfl rfl
      · cases hs
    · cases hs
  | publish_failed i =>
    simp only [Step, next] at hs
    split at hs
    · rename_i hi
      obtain rfl := Option.some.inj hs
      exact h.set_call hinv hi rfl rfl (fun _ => rfl) (fun _ => .inr rfl) rfl rfl rfl
    · cases hs
  | notified i =>
    simp only [Step, next] at hs
    split at hs
    · rename_i call hi
      split at hs
      · rename_i hadded
        obtain rfl := Option.some.inj hs
        exact h.set_call hinv hi rfl rfl (fun _ => by rw [hadded]; rfl) (fun hc => hmark hc hadded)
          rfl rfl rfl
      · cases hs
    · cases hs
  | take_output i =>
    simp only [Step, next] at hs
    split at hs
    · rename_i call hi
      split at hs
      · obtain ⟨t, hout, -⟩ := h.inv.take_output hi ‹_›
        rw [hout] at hs
        obtain rfl := Option.some.inj hs
        exact h.take_output hi hinv
      · cases hs
    · cases hs
  | put_output =>
    simp only [Step, next] at hs
    split at hs
    · split at hs
      · rename_i hidle
        obtain rfl := Option.some.inj hs
        exact h.put_output hidle.2 rfl hinv
      · cases hs
    · cases hs
  | notify_waiters => exact h.notify_waiters hinv ht hs

/-- With new sessions only, and no event fired before its call has begun to wait, no call is lost;
and a call is lost as soon as one is. -/
theorem run_heard (c : SchedulerConfig) {ops : List WrapperOp}
    (hrun : Run (fun x op x' => Step x op x' ∧ x.distinct op = true ∧ x.timely op = true)
      (Wrapper.new c) ops x) :
    x.Heard ∧ ∀ x', Step x .notify_waiters x' →
      ((∀ i, ¬ x'.Lost i) ↔ x.timely .notify_waiters = true) := by
  have hlistens : x.Listens := hrun.invariant (Listens.new c) fun _ _ _ h ⟨hs, hd, ht⟩ => h.step hd ht hs
  refine ⟨hlistens.heard, fun x' hs => ⟨fun hnone => ?_, fun ht => (hlistens.step rfl ht hs).heard.none_lost⟩⟩
  by_contra ht
  obtain ⟨i, hi⟩ := hlistens.inv.lost_of_not_timely ht hs
  exact hnone i hi

end

end

theorem run_heard_served :
    let _ := decimalHasher
    ∃ x, Run (fun x op x' => Step x op x' ∧ x.distinct op = true ∧ x.timely op = true)
        (Wrapper.new diskConfig) (servedRun.take 8) x ∧ x.Heard ∧
      x.calls.any (fun call => decide (call.state = .woken)) = true := by
  let _ := decimalHasher
  have hfollow : (Run.follow (fun x op => if x.distinct op && x.timely op then next x op else none)
      (Wrapper.new diskConfig) (servedRun.take 8)).any
      (fun x => x.calls.any fun call => decide (call.state = .woken)) = true := by decide +kernel
  have hnext : ∀ x op x', (if x.distinct op && x.timely op then next x op else none) = some x' →
      Step x op x' ∧ x.distinct op = true ∧ x.timely op = true := fun x op x' h => by
    split at h
    · exact ⟨h, Bool.and_eq_true_iff.1 ‹_›⟩
    · cases h
  obtain ⟨x, hrun, hx⟩ := Run.exists_of_follow hnext hfollow
  exact ⟨x, hrun, (run_heard diskConfig hrun).1, hx⟩

/-- The request of `servedRun` again, but its task is finished while it still publishes. -/
def hastyRun : List WrapperOp :=
  [.generate ⟨0, [1, 2], 1, some 1, false, false⟩, .add_request 0 0, .engine .schedule,
    .engine (.update (AList.singleton 0 ⟨3, 1, "", false⟩) 1), .engine .finish, .put_output,
    .notify_waiters, .notified 0]

/-- The only call waits, its event is gone, and the output under its session id is that of its task. -/
def uncollected (x : Wrapper) : Bool :=
  match x.calls with
  | [call] => decide (call.state = .waiting ∧ x.request_events.lookup call.session_id = none) &&
      match x.request_outputs.lookup call.session_id, call.infer_task with
      | some t, some u => decide (u.tag = t.tag)
      | _, _ => false
  | _ => false

/-- It then waits for an event that has been fired. -/
theorem hasty_call_lost :
    let _ := decimalHasher
    ∃ x, Run (fun x op x' => Step x op x' ∧ x.distinct op = true) (Wrapper.new diskConfig) hastyRun x ∧
      (∃ call, x.calls = [call] ∧ call.state = .waiting) ∧ x.Lost 0 := by
  let _ := decimalHasher
  have hfollow : (Run.follow (fun x op => if x.distinct op then next x op else none)
      (Wrapper.new diskConfig) hastyRun).any uncollected = true := by decide +kernel
  have hnext : ∀ x op x', (if x.distinct op then next x op else none) = some x' →
      Step x op x' ∧ x.distinct op = true := fun x op x' h => by
    split at h
    · exact ⟨h, ‹_›⟩
    · cases h
  obtain ⟨x, hrun, hx⟩ := Run.exists_of_follow hnext hfollow
  unfold uncollected at hx
  split at hx
  · rename_i call hcalls
    obtain ⟨hcall, hx⟩ := Bool.and_eq_true_iff.1 hx
    obtain ⟨hwaiting, hevent⟩ := of_decide_eq_true hcall
    split at hx
    · rename_i t u hout hu
      refine ⟨x, hrun, ⟨call, hcalls, hwaiting⟩, call, by rw [hcalls]; rfl, by rw [hwaiting]; rfl,
        ⟨t, u, hout, hu, of_decide_eq_true hx⟩, ?_⟩
      rw [hevent]
      exact (Option.some_ne_none 0).symm
    · cases hx
  · cases hx

end Wrapper

end LMServe
