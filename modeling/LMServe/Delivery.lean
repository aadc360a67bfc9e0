import LMServe.Wrapper
import LMServe.Pages

/-!
# Whose output a call gets

While every session that comes in is new to the engine, the three maps of the wrapper and the tasks
of the engine agree: each task in the engine, and each output on its way, belongs to the call whose
event is registered under its session.
-/

namespace LMServe
open EngineOp Ledger Hoare

/-! ### The tasks of the engine after a step -/

theorem subperm_sessions {l l' : List InferTask} (h : ∀ a, listed a l' ≤ listed a l) :
    (l'.map (·.session_id)).Subperm (l.map (·.session_id)) := by
  have hp : (l'.map InferTask.tag).Subperm (l.map InferTask.tag) :=
    List.subperm_ext_iff.2 fun a _ => h a
  have hmap : ∀ l : List InferTask, l.map (·.session_id) = (l.map InferTask.tag).map (·.1) := fun l => by
    rw [List.map_map]; rfl
  obtain ⟨l₁, hperm, hsub⟩ := hp
  rw [hmap, hmap]
  exact ⟨l₁.map (·.1), hperm.map _, hsub.map _⟩

theorem exists_of_listed {l l' : List InferTask} (h : ∀ a, listed a l' ≤ listed a l) {t : InferTask}
    (ht : t ∈ l') : ∃ t₀ ∈ l, t₀.tag = t.tag := by
  have hpos : 0 < listed t.tag l' := List.count_pos_iff.2 (List.mem_map_of_mem ht)
  exact List.mem_map.1 (List.count_pos_iff.1 (Nat.lt_of_lt_of_le hpos (h t.tag)))

theorem session_of_tag {t t' : InferTask} (h : t.tag = t'.tag) : t.session_id = t'.session_id :=
  congrArg Prod.fst h

namespace Engine

/-- A pending task is listed under its own session. -/
def Keyed (e : Engine) : Prop := ∀ i t, e.pending.lookup i = some t → t.session_id = i

/-- The sessions of reservations: with the call still, or not yet triggered. -/
def awaited (e : Engine) : List Nat := e.remote.map (·.1) ++ e.reserved.map (·.1)

theorem mem_live_of_pending {e : Engine} {i : Nat} {t : InferTask} (h : e.pending.lookup i = some t) :
    t ∈ e.live := by
  refine List.mem_append_left _ (List.mem_append_right _ ?_)
  exact List.mem_map.2 ⟨⟨i, t⟩, AList.mem_lookup_iff.1 h, rfl⟩

/-- A reservation has its task: in the call, or pending. -/
theorem exists_of_awaited {e : Engine} (hc : e.Claimed) (hk : e.Keyed) {i : Nat} (h : i ∈ e.awaited) :
    ∃ t ∈ e.live, t.session_id = i ∧ (e.pending.lookup i = some t ∨ t ∈ e.system.reserving) := by
  rcases List.mem_append.1 h with h | h
  · obtain ⟨t, ht⟩ := Option.ne_none_iff_exists'.1 (hc.pending i (List.mem_append_right _ h))
    exact ⟨t, mem_live_of_pending ht, hk i t ht, .inl ht⟩
  · rw [show e.reserved.map (·.1) = _ from hc.parallel] at h
    obtain ⟨t, ht, rfl⟩ := List.mem_map.1 h
    exact ⟨t, List.mem_append_right _ ht, rfl, .inr ht⟩

end Engine

section
variable [Hasher] {e e' : Engine} {op : EngineOp}

theorem keyed_of_effect (hk : e.Keyed) (h : Effect e op e') : e'.Keyed := by
  have hkeep : e'.pending = e.pending → e'.Keyed := fun hp i t ht => hk i t (hp ▸ ht)
  have herase : ∀ k, e'.pending = e.pending.erase k → e'.Keyed := fun k hp i t ht => by
    rw [hp, Table.lookup_erase_eq] at ht
    split at ht
    · cases ht
    · exact hk i t ht
  have hinsert : ∀ u : InferTask, e'.pending = e.pending.insert u.session_id u → e'.Keyed :=
    fun u hp i t ht => by
      rw [hp, Table.lookup_insert_eq] at ht
      split at ht
      · obtain rfl := Option.some.inj ht; exact Eq.symm ‹_›
      · exact hk i t ht
  cases h with
  | idle h => exact hkeep (Scheduler.holdings_eq h).1
  | stages _ _ _ hs => exact hinsert _ hs.pending
  | clashes _ _ _ hs => exact hinsert _ hs.pending
  | backs_up _ _ _ hs => exact hkeep hs.pending
  | reserves _ _ hs => exact hkeep hs.pending
  | pends _ hp => exact hinsert _ hp
  | triggers _ hp => exact herase _ hp
  | gives_up hp => exact hkeep hp
  | drops _ _ h => exact hkeep (Scheduler.holdings_eq h).1
  | @calls_back _ entry _ _ _ hp =>
    cases hsession : entry.session with
    | none => rw [hsession] at hp; exact hkeep hp
    | some i => rw [hsession] at hp; exact herase i hp
  | dies _ _ _ hp =>
    rcases hp with hp | ⟨_, _, i, _, hp⟩
    · exact hkeep hp
    · exact herase i hp

/-- A reservation is awaited until its trigger; a session that is pending already must not come in. -/
theorem awaited_of_step (hc : e.Claimed) (h : Step e op e') (hop : ∀ k l, op ≠ .trigger_request k l)
    (hpend : ∀ t ∈ e.system.reserving, e.pending.lookup t.session_id = none) :
    ∀ k ∈ e.awaited, k ∈ e'.awaited := by
  intro k hk
  by_cases hno : ∀ i, op ≠ .pend_reserved i
  · obtain ⟨hcounts, heff⟩ := effect_of_step hc.parallel h
    obtain ⟨l, hr⟩ := hcounts.reserved hno
    have hm : e'.remote = e.remote := by
      rcases remote_of_effect heff with ⟨_, _, h⟩ | ⟨_, _, h, -⟩ | h
      · exact absurd h (hop _ _)
      · exact absurd h (hno _)
      · exact h
    unfold Engine.awaited at hk ⊢
    rw [hr, hm, List.map_append, ← List.append_assoc]
    exact List.mem_append_left _ hk
  · -- from the call to the reservations not yet triggered
    obtain ⟨i, rfl⟩ := not_forall_not.1 hno
    replace h : e.pend_reserved i = some e' := (next_eq h).2
    unfold Engine.pend_reserved at h
    split at h
    · rename_i output houtput
      have hpar := congrArg (·[i]?) hc.parallel
      simp only [List.getElem?_map, houtput, Option.map_some] at hpar
      obtain ⟨task, htask, -⟩ := Option.map_eq_some_iff.1 hpar.symm
      rcases attempt_ends (System.pend_reserved_holdings htask) with
        ⟨_, s', heq, -, -⟩ | ⟨err, s', heq, -, hsome, -⟩
      · rw [heq] at h
        obtain rfl := Option.some.inj h
        obtain ⟨hlt, rfl⟩ := List.getElem?_eq_some_iff.1 houtput
        have hperm : (e.remote ++ [e.reserved[i]] ++ e.reserved.eraseIdx i).Perm (e.remote ++ e.reserved) := by
          rw [List.append_assoc]
          exact (List.getElem_cons_eraseIdx_perm hlt).append_left _
        unfold Engine.awaited at hk ⊢
        rw [← List.map_append] at hk ⊢
        exact (hperm.map _).mem_iff.2 hk
      · exact absurd (hpend task (List.mem_of_getElem? htask)) (Option.isSome_iff_ne_none.1 hsome)
    · cases h

end

/-- The call has handed its request to the engine and has not been woken. -/
def CallState.is_handed : CallState → Bool
  | .added | .waiting | .failed => true
  | _ => false

/-- The call is about to hand its request over, or to take its output. -/
def CallState.is_open : CallState → Bool
  | .registered | .woken => true
  | _ => false

namespace Wrapper

/-- The sessions of the tasks in the engine and of the outputs on their way. -/
def sessions (x : Wrapper) : List Nat :=
  (x.engine.live ++ x.outputs).map (·.session_id) ++ x.notifying.toList

/-- An earlier request with this session is still being served. -/
def in_use (session_id : Nat) (x : Wrapper) : Bool :=
  decide (session_id ∈ x.sessions) ||
    x.calls.any fun call => call.state.is_open && call.session_id == session_id

/-- No request comes in with a session that is in use. -/
def fresh (x : Wrapper) : WrapperOp → Bool
  | .generate request | .engine (.reserve_request request _) => !x.in_use request.session_id
  | .trigger k => x.engine.remote[k]?.all fun output =>
      !x.calls.any fun call => call.state.is_open && call.session_id == output.1
  | _ => true

/-- The event of its session is that of the call which has handed this task to the engine. -/
def Owned (x : Wrapper) (t : InferTask) : Prop :=
  ∃ i call u, x.request_events.lookup t.session_id = some i ∧ x.calls[i]? = some call ∧
    call.session_id = t.session_id ∧ call.state.is_handed = true ∧ call.infer_task = some u ∧
    u.tag = t.tag

structure Inv (x : Wrapper) : Prop where
  claimed : x.engine.Claimed
  keyed : x.engine.Keyed
  nodup : x.sessions.Nodup
  /-- a task belongs to a call, unless it is a reservation not yet triggered -/
  owned : ∀ t ∈ x.engine.live ++ x.outputs, t.session_id ∈ x.engine.awaited ∨ x.Owned t
  notifying : ∀ i, x.notifying = some i →
    ∃ t, x.request_outputs.lookup i = some t ∧ t.session_id = i ∧ x.Owned t
  registered : ∀ (i : Nat) (call : Call), x.calls[i]? = some call → call.state = .registered →
    x.request_events.lookup call.session_id = some i
  unsent : ∀ call ∈ x.calls, call.state = .registered → ∀ request, call.kind = .generate request →
    request.session_id ∉ x.sessions
  woken : ∀ call ∈ x.calls, call.state = .woken → call.session_id ∉ x.sessions ∧
    ∃ t u, x.request_outputs.lookup call.session_id = some t ∧ call.infer_task = some u ∧ u.tag = t.tag
  unique : ∀ (i j : Nat) (call call' : Call), x.calls[i]? = some call → x.calls[j]? = some call' →
    call.state.is_open = true → call'.state.is_open = true → call.session_id = call'.session_id → i = j
  returned : ∀ call ∈ x.calls, ∀ t, call.state = .returned t → ∃ u, call.infer_task = some u ∧ u.tag = t.tag
  built : ∀ call ∈ x.calls, ∀ request, call.kind = .generate request → ∀ u, call.infer_task = some u →
    ∃ k now, u = request.to_task k now
  panicked : x.panicked = false

theorem Inv.new (c : SchedulerConfig) : Inv (Wrapper.new c) where
  claimed := .new c
  keyed _ _ h := absurd h (by simp [Wrapper.new, Engine.new, Engine.pending, System.new, Scheduler.new])
  nodup := List.nodup_nil
  owned _ h := absurd h List.not_mem_nil
  notifying _ h := absurd h (by simp [Wrapper.new])
  registered _ _ h := absurd h (by simp [Wrapper.new])
  unsent _ h := absurd h List.not_mem_nil
  woken _ h := absurd h List.not_mem_nil
  unique _ _ _ _ h := absurd h (by simp [Wrapper.new])
  returned _ h := absurd h List.not_mem_nil
  built _ h := absurd h List.not_mem_nil
  panicked := rfl

section
variable {x x' : Wrapper}

theorem not_in_use {session_id : Nat} (h : x.in_use session_id = false) :
    session_id ∉ x.sessions ∧
      ∀ call ∈ x.calls, call.state.is_open = true → call.session_id ≠ session_id := by
  simp only [in_use, Bool.or_eq_false_iff, decide_eq_false_iff_not, List.any_eq_false,
    Bool.and_eq_true, beq_iff_eq, not_and] at h
  exact ⟨h.1, h.2⟩

theorem mem_sessions {t : InferTask} (h : t ∈ x.engine.live ++ x.outputs) : t.session_id ∈ x.sessions :=
  List.mem_append_left _ (List.mem_map_of_mem h)

/-- A task stays with its call as long as the event and the call stay. -/
theorem Owned.of_calls {t t' : InferTask} (h : x.Owned t) (htag : t.tag = t'.tag)
    (hevent : x'.request_events.lookup t.session_id = x.request_events.lookup t.session_id)
    (hcalls : ∀ (i : Nat) (call : Call), x.calls[i]? = some call → call.state.is_handed = true →
      call.session_id = t.session_id → x'.calls[i]? = some call) : x'.Owned t' := by
  obtain ⟨i, call, u, hlook, hi, hsession, hhanded, hu, hut⟩ := h
  have hid := session_of_tag htag
  exact ⟨i, call, u, hid ▸ hevent.trans hlook, hcalls i call hi hhanded hsession, hsession.trans hid,
    hhanded, hu, hut.trans htag⟩

theorem length_born {e e' : Engine} {op : EngineOp} {born : List InferTask} (h : Born e op e' born) :
    (born.map (·.session_id)).Nodup := by
  cases h with
  | nobody => exact List.nodup_nil
  | added => exact List.nodup_singleton _
  | reserved => exact List.nodup_singleton _

section
variable [Hasher] {e' : Engine} {op : EngineOp}

theorem Inv.engine_step (h : x.Inv) (hs : EngineOp.Step x.engine op e')
    (hfresh : ∀ born, Born x.engine op e' born → ∀ t ∈ born, t.session_id ∉ x.sessions) :
    (((e'.live ++ (x.outputs ++ op.returned x.engine e')).map (·.session_id)) ++
      x.notifying.toList).Nodup ∧
    ∀ t ∈ e'.live ++ (x.outputs ++ op.returned x.engine e'),
      (∃ t₀ ∈ x.engine.live ++ x.outputs, t₀.tag = t.tag) ∨
        ∃ born, Born x.engine op e' born ∧ ∃ t₀ ∈ born, t₀.tag = t.tag := by
  obtain ⟨born, hborn, hle⟩ := traced_of_step hs
  have hle' : ∀ a, listed a (e'.live ++ op.returned x.engine e') ≤ listed a (born ++ x.engine.live) :=
    fun a => by rw [listed_append, listed_append]; exact hle a
  refine ⟨?_, fun t ht => ?_⟩
  · have hsub := ((subperm_sessions hle').append
      (List.Subperm.refl (x.outputs.map (·.session_id)))).append (List.Subperm.refl x.notifying.toList)
    have hperm : (((e'.live ++ (x.outputs ++ op.returned x.engine e')).map (·.session_id)) ++
        x.notifying.toList).Perm ((e'.live ++ op.returned x.engine e').map (·.session_id) ++
          x.outputs.map (·.session_id) ++ x.notifying.toList) := by
      rw [← List.map_append, List.append_assoc e'.live]
      exact ((List.perm_append_comm.append_left _).map _).append_right _
    obtain ⟨l, hl, hl'⟩ := hsub
    refine (hperm.trans hl.symm).nodup_iff.2 (hl'.nodup ?_)
    rw [← List.map_append, List.append_assoc born, List.map_append, List.append_assoc,
      List.nodup_append']
    refine ⟨length_born hborn, h.nodup, fun i hi hmem => ?_⟩
    obtain ⟨t, ht, rfl⟩ := List.mem_map.1 hi
    exact hfresh born hborn t ht hmem
  · rw [List.mem_append, List.mem_append] at ht
    have hcase : t ∈ e'.live ++ op.returned x.engine e' ∨ t ∈ x.outputs := by
      rw [List.mem_append]
      rcases ht with ht | ht | ht
      · exact .inl (.inl ht)
      · exact .inr ht
      · exact .inl (.inr ht)
    rcases hcase with ht | ht
    · obtain ⟨t₀, ht₀, htag⟩ := exists_of_listed hle' ht
      rcases List.mem_append.1 ht₀ with ht₀ | ht₀
      · exact .inr ⟨born, hborn, t₀, ht₀, htag⟩
      · exact .inl ⟨t₀, List.mem_append_left _ ht₀, htag⟩
    · exact .inl ⟨t, List.mem_append_right _ ht, rfl⟩

omit [Hasher] in
/-- A pending session is not that of a call that is about to pend its task. -/
theorem Inv.reserving_fresh (h : x.Inv) :
    ∀ t ∈ x.engine.system.reserving, x.engine.pending.lookup t.session_id = none := by
  intro t ht
  by_contra hne
  obtain ⟨u, hu⟩ := Option.ne_none_iff_exists'.1 hne
  have hnodup : (x.engine.live.map (·.session_id)).Nodup :=
    ((List.sublist_append_left _ _).map _).nodup ((List.sublist_append_left _ _).nodup h.nodup)
  unfold Engine.live at hnodup
  rw [List.map_append, List.nodup_append'] at hnodup
  refine hnodup.2.2 ?_ (List.mem_map_of_mem ht)
  refine List.mem_map.2 ⟨u, List.mem_append_right _ ?_, h.keyed _ u hu⟩
  exact List.mem_map.2 ⟨⟨_, u⟩, AList.mem_lookup_iff.1 hu, rfl⟩

theorem Inv.of_engine (h : x.Inv) (hs : EngineOp.Step x.engine op e')
    (hfresh : ∀ born, Born x.engine op e' born → ∀ t ∈ born, t.session_id ∉ x.sessions)
    {calls : List Call}
    (hhanded : ∀ (i : Nat) (call : Call), x.calls[i]? = some call → call.state.is_handed = true → calls[i]? = some call)
    (hopen : ∀ (i : Nat) (call : Call), calls[i]? = some call → call.state.is_open = true → x.calls[i]? = some call ∧
      ∀ born, Born x.engine op e' born → ∀ t ∈ born, t.session_id ≠ call.session_id)
    (hcalls : ∀ call ∈ calls, call ∈ x.calls ∨ call.state.is_handed = true ∧
      ∀ request, call.kind = .generate request → ∀ u, call.infer_task = some u →
        ∃ k now, u = request.to_task k now)
    (hx' : x' = { x with engine := e', outputs := x.outputs ++ op.returned x.engine e', calls := calls })
    (hawaited : ∀ t₀ ∈ x.engine.live ++ x.outputs, t₀.session_id ∈ x.engine.awaited → ∀ t, t₀.tag = t.tag →
      t.session_id ∈ e'.awaited ∨ x'.Owned t)
    (hborn : ∀ born, Born x.engine op e' born → ∀ t₀ ∈ born, ∀ t, t₀.tag = t.tag →
      t.session_id ∈ e'.awaited ∨ x'.Owned t) : x'.Inv := by
  obtain ⟨hclaimed, heff⟩ := claimed_step h.claimed hs
  obtain ⟨hnodup, horigin⟩ := h.engine_step hs hfresh
  have hsessions : x'.sessions = ((e'.live ++ (x.outputs ++ op.returned x.engine e')).map
      (·.session_id)) ++ x.notifying.toList := by rw [hx']; rfl
  -- a session that joins is one a request has brought in
  have hmem : ∀ i ∈ x'.sessions, i ∈ x.sessions ∨
      ∃ born, Born x.engine op e' born ∧ ∃ t ∈ born, t.session_id = i := fun i hi => by
    rw [hsessions, List.mem_append] at hi
    rcases hi with hi | hi
    · obtain ⟨t, ht, rfl⟩ := List.mem_map.1 hi
      rcases horigin t ht with ⟨t₀, ht₀, htag⟩ | ⟨born, hb, t₀, ht₀, htag⟩
      · exact .inl (session_of_tag htag ▸ mem_sessions ht₀)
      · exact .inr ⟨born, hb, t₀, ht₀, session_of_tag htag⟩
    · exact .inl (List.mem_append_right _ hi)
  have hstay : ∀ t t', x.Owned t → t.tag = t'.tag → x'.Owned t' := fun t t' ht htag =>
    ht.of_calls htag (by rw [hx']) fun i call hi hh _ => by rw [hx']; exact hhanded i call hi hh
  have hopen' : ∀ (i : Nat) (call : Call), x'.calls[i]? = some call → call.state.is_open = true →
      x.calls[i]? = some call ∧ ∀ born, Born x.engine op e' born → ∀ t ∈ born,
        t.session_id ≠ call.session_id := by rw [hx']; exact hopen
  have hold : ∀ call ∈ x'.calls, call.state.is_open = true → call ∈ x.calls ∧
      ∀ born, Born x.engine op e' born → ∀ t ∈ born, t.session_id ≠ call.session_id :=
    fun call hcall ho => by
      obtain ⟨i, hi⟩ := List.mem_iff_getElem?.1 hcall
      obtain ⟨hi, hne⟩ := hopen' i call hi ho
      exact ⟨List.mem_of_getElem? hi, hne⟩
  have hout : ∀ call : Call, call.session_id ∉ x.sessions →
      (∀ born, Born x.engine op e' born → ∀ t ∈ born, t.session_id ≠ call.session_id) →
      call.session_id ∉ x'.sessions := fun call hnot hne hi => by
    rcases hmem _ hi with hi | ⟨born, hb, t, ht, heq⟩
    · exact hnot hi
    · exact hne born hb t ht heq
  refine ⟨by rw [hx']; exact hclaimed, by rw [hx']; exact keyed_of_effect h.keyed heff,
    by rw [hsessions]; exact hnodup, fun t ht => ?_, fun i hi => ?_, fun i call hi hr => ?_,
    fun call hcall hr request hk => ?_, fun call hcall hw => ?_, fun i j call call' hi hj ho ho' => ?_,
    fun call hcall t ht => ?_, fun call hcall request hk u hu => ?_, by rw [hx']; exact h.panicked⟩
  · have hgoal : t.session_id ∈ e'.awaited ∨ x'.Owned t := by
      rw [hx'] at ht
      rcases horigin t ht with ⟨t₀, ht₀, htag⟩ | ⟨born, hb, t₀, ht₀, htag⟩
      · rcases h.owned t₀ ht₀ with haw | howned
        · exact hawaited t₀ ht₀ haw t htag
        · exact .inr (hstay t₀ t howned htag)
      · exact hborn born hb t₀ ht₀ t htag
    rw [hx'] at hgoal ⊢
    exact hgoal
  · rw [hx'] at hi
    obtain ⟨t, hlook, hid, howned⟩ := h.notifying i hi
    exact ⟨t, by rw [hx']; exact hlook, hid, hstay t t howned rfl⟩
  · rw [hx']
    exact h.registered i call (hopen' i call hi (by rw [hr]; rfl)).1 hr
  · obtain ⟨hcall, hne⟩ := hold call hcall (by rw [hr]; rfl)
    have hid : call.session_id = request.session_id := by unfold Call.session_id; rw [hk]; rfl
    exact hid ▸ hout call (hid ▸ h.unsent call hcall hr request hk) hne
  · obtain ⟨hcall, hne⟩ := hold call hcall (by rw [hw]; rfl)
    obtain ⟨hnot, hfound⟩ := h.woken call hcall hw
    exact ⟨hout call hnot hne, by rw [hx']; exact hfound⟩
  · exact h.unique i j call call' (hopen' i call hi ho).1 (hopen' j call' hj ho').1 ho ho'
  · rw [hx'] at hcall
    rcases hcalls call hcall with hcall | ⟨hh, -⟩
    · exact h.returned call hcall t ht
    · rw [ht] at hh; cases hh
  · rw [hx'] at hcall
    rcases hcalls call hcall with hcall | ⟨-, hb⟩
    · exact h.built call hcall request hk u hu
    · exact hb request hk u hu

theorem Inv.engine (h : x.Inv) (hop : ∀ request now, op ≠ .add_request request now)
    (hop' : ∀ k l, op ≠ .trigger_request k l) (hf : x.fresh (.engine op) = true)
    (hs : x.on_engine op = some x') : x'.Inv := by
  obtain ⟨e', hnext, rfl⟩ := Option.map_eq_some_iff.1 hs
  have hstep : EngineOp.Step x.engine op e' := hnext
  have hunused : ∀ born, Born x.engine op e' born → ∀ t ∈ born, x.in_use t.session_id = false := by
    rintro born (_ | _ | _) t ht
    · cases ht
    · exact absurd rfl (hop _ _)
    · obtain rfl := List.mem_singleton.1 ht
      exact Bool.not_eq_true' _ ▸ hf
  refine h.of_engine hstep (fun born hb t ht => (not_in_use (hunused born hb t ht)).1) (fun _ _ hi _ => hi)
    (fun i call hi ho => ⟨hi, fun born hb t ht heq => ?_⟩) (fun call hcall => .inl hcall) rfl
    (fun t₀ _ haw t htag => ?_) fun born hb t₀ ht₀ t htag => ?_
  · exact (not_in_use (hunused born hb t ht)).2 call (List.mem_of_getElem? hi) ho heq.symm
  · exact .inl (awaited_of_step h.claimed hstep hop' h.reserving_fresh _ (session_of_tag htag ▸ haw))
  · rcases hb with _ | _ | hmem
    · cases ht₀
    · exact absurd rfl (hop _ _)
    · obtain rfl := List.mem_singleton.1 ht₀
      exact .inl (session_of_tag htag ▸ List.mem_append_right _ hmem)

omit [Hasher] in
theorem getElem?_set_calls {i j : Nat} {call call' : Call} {calls : List Call} (hi : calls[i]? = some call) :
    (calls.set i call')[j]? = if j = i then some call' else calls[j]? := by
  obtain ⟨hlt, -⟩ := List.getElem?_eq_some_iff.1 hi
  rw [List.getElem?_set]
  by_cases hij : i = j
  · rw [if_pos hij, if_pos hlt, if_pos hij.symm]
  · rw [if_neg hij, if_neg (Ne.symm hij)]

/-- A registered call hands its request over: what comes in, and what is no longer awaited, is the
task it notes. -/
theorem Inv.hand_over (h : x.Inv) {i : Nat} {call : Call} (call' : Call) (hi : x.calls[i]? = some call)
    (hr : call.state = .registered) (hhanded : call'.state.is_handed = true) (hkind : call'.kind = call.kind)
    (hbuilt : ∀ request, call'.kind = .generate request → ∀ u, call'.infer_task = some u →
      ∃ k now, u = request.to_task k now)
    (hstep : EngineOp.Step x.engine op e')
    (hborn : ∀ born, Born x.engine op e' born → ∀ t ∈ born, t.session_id = call.session_id ∧
      call.session_id ∉ x.sessions ∧ call'.infer_task = some t)
    (hawaited : ∀ t ∈ x.engine.live, t.session_id ∈ x.engine.awaited →
      t.session_id ∈ e'.awaited ∨ t.session_id = call.session_id ∧ call'.infer_task = some t)
    (hout : ∀ t ∈ x.outputs, t.session_id ∈ x.engine.awaited → t.session_id ∈ e'.awaited)
    (hx' : x' = { x with
      engine := e'
      outputs := x.outputs ++ op.returned x.engine e'
      calls := x.calls.set i call' }) : x'.Inv := by
  have hclosed : call'.state.is_open = false := by
    cases hs : call'.state <;> simp [hs, CallState.is_handed] at hhanded <;> rfl
  have hid : call'.session_id = call.session_id := by unfold Call.session_id; rw [hkind]
  have hcalls : ∀ j, (x.calls.set i call')[j]? = if j = i then some call' else x.calls[j]? :=
    fun j => getElem?_set_calls hi
  have hopen : call.state.is_open = true := by rw [hr]; rfl
  have hmine : ∀ t t₀ : InferTask, t₀.tag = t.tag → t₀.session_id = call.session_id →
      call'.infer_task = some t₀ → x'.Owned t := fun t t₀ htag hsession hu => by
    have hsession : t.session_id = call.session_id := (session_of_tag htag).symm.trans hsession
    refine ⟨i, call', t₀, ?_, ?_, hid.trans hsession.symm, hhanded, hu, htag⟩
    · rw [hx', hsession]; exact h.registered i call hi hr
    · rw [hx']; exact (hcalls i).trans (if_pos rfl)
  refine h.of_engine hstep (fun born hb t ht => ?_) (fun j c hj hh => ?_) (fun j c hj ho => ?_)
    (fun c hc => ?_) hx' (fun t₀ ht₀ haw t htag => ?_) fun born hb t₀ ht₀ t htag => ?_
  · obtain ⟨hid, hnew, -⟩ := hborn born hb t ht
    exact hid ▸ hnew
  · rw [hcalls, if_neg]
    · exact hj
    · rintro rfl
      rw [hi] at hj
      obtain rfl := Option.some.inj hj
      rw [hr] at hh; cases hh
  · rw [hcalls] at hj
    split at hj
    · obtain rfl := Option.some.inj hj
      rw [hclosed] at ho; cases ho
    · rename_i hne
      refine ⟨hj, fun born hb t ht heq => hne ?_⟩
      exact h.unique j i c call hj hi ho hopen (heq.symm.trans (hborn born hb t ht).1)
  · rcases List.mem_or_eq_of_mem_set hc with hc | rfl
    · exact .inl hc
    · exact .inr ⟨hhanded, hbuilt⟩
  · rcases List.mem_append.1 ht₀ with hlive | hlive
    · rcases hawaited t₀ hlive haw with haw | ⟨hsession, hu⟩
      · exact .inl (session_of_tag htag ▸ haw)
      · exact .inr (hmine t t₀ htag hsession hu)
    · exact .inl (session_of_tag htag ▸ hout t₀ hlive haw)
  · obtain ⟨hsession, -, hu⟩ := hborn born hb t₀ ht₀
    exact .inr (hmine t t₀ htag hsession hu)

theorem Inv.add_request (h : x.Inv) {i arrival_time : Nat} (hs : x.add_request i arrival_time = some x') :
    x'.Inv := by
  unfold Wrapper.add_request at hs
  split at hs
  · rename_i request u hi
    obtain ⟨x₁, hx₁, hx'⟩ := Option.map_eq_some_iff.1 hs
    obtain ⟨e', hnext, rfl⟩ := Option.map_eq_some_iff.1 hx₁
    have hstep : EngineOp.Step x.engine (.add_request request arrival_time) e' := hnext
    have haw : ∀ k ∈ x.engine.awaited, k ∈ e'.awaited :=
      awaited_of_step h.claimed hstep (by simp) h.reserving_fresh
    refine h.hand_over ⟨_, _, _⟩ hi rfl ?_ ?_ (fun r hk v hv => ?_) hstep (fun born hb t ht => ?_)
      (fun t _ ht => .inl (haw _ ht)) (fun t _ ht => haw _ ht) hx'.symm
    · dsimp only; split <;> rfl
    · rfl
    · obtain rfl : request = r := by simpa using hk
      exact ⟨_, _, (Option.some.inj hv).symm⟩
    · rcases hb with _ | _ | _
      · cases ht
      · obtain rfl := List.mem_singleton.1 ht
        exact ⟨rfl, h.unsent _ (List.mem_of_getElem? hi) rfl request rfl, rfl⟩
  · cases hs

omit [Hasher] in
theorem Inv.eq_pending (h : x.Inv) {k : Nat} {t u : InferTask} (ht : t ∈ x.engine.live)
    (hk : t.session_id = k) (hu : x.engine.pending.lookup k = some u) : t = u := by
  have hnodup : (x.engine.live.map (·.session_id)).Nodup :=
    ((List.sublist_append_left _ _).map _).nodup ((List.sublist_append_left _ _).nodup h.nodup)
  exact List.inj_on_of_nodup_map hnodup ht (Engine.mem_live_of_pending hu)
    (hk.trans (h.keyed k u hu).symm)

theorem Inv.trigger_request (h : x.Inv) {i k : Nat} {hash_values : List Nat}
    (hs : x.trigger_request i k hash_values = some x') : x'.Inv := by
  unfold Wrapper.trigger_request at hs
  split at hs
  · rename_i session_id u session region hi hk
    split at hs
    · rename_i heq
      subst heq
      obtain ⟨x₁, hx₁, hx'⟩ := Option.map_eq_some_iff.1 hs
      obtain ⟨e', hnext, rfl⟩ := Option.map_eq_some_iff.1 hx₁
      have hstep : EngineOp.Step x.engine (.trigger_request k hash_values) e' := hnext
      obtain ⟨-, hremote⟩ := remote_of_trigger hnext
      obtain ⟨hcounts, -⟩ := effect_of_step h.claimed.parallel hstep
      obtain ⟨l, hreserved⟩ := hcounts.reserved (by simp)
      obtain ⟨hlt, hkth⟩ := List.getElem?_eq_some_iff.1 hk
      have haw : ∀ j ∈ x.engine.awaited, j ≠ session → j ∈ e'.awaited := fun j hj hne => by
        unfold Engine.awaited at hj ⊢
        rw [hremote, hreserved, List.map_append, ← List.append_assoc]
        refine List.mem_append_left _ ?_
        rcases List.mem_append.1 hj with hj | hj
        · refine List.mem_append_left _ ?_
          obtain ⟨output, houtput, rfl⟩ := List.mem_map.1 hj
          have hmem := (List.getElem_cons_eraseIdx_perm hlt).mem_iff.2 houtput
          rcases List.mem_cons.1 hmem with rfl | hmem
          · exact absurd (congrArg Prod.fst hkth) hne
          · exact List.mem_map_of_mem hmem
        · exact List.mem_append_right _ hj
      have hmem : session ∈ x.engine.remote.map (·.1) :=
        List.mem_map.2 ⟨_, List.mem_of_getElem? hk, rfl⟩
      obtain ⟨u, hu⟩ := Option.ne_none_iff_exists'.1
        (h.claimed.pending session (List.mem_append_right _ hmem))
      refine h.hand_over ⟨_, _, _⟩ hi rfl ?_ ?_ (fun _ hk => by cases hk) hstep (fun born hb t ht => ?_)
        (fun t ht hta => ?_) (fun t ht hta => haw _ hta fun hid => ?_) hx'.symm
      · dsimp only; split <;> rfl
      · rfl
      · cases hb; cases ht
      · by_cases hid : t.session_id = session
        · exact .inr ⟨hid, h.eq_pending ht hid hu ▸ hu⟩
        · exact .inl (haw _ hta hid)
      · have hnodup := (List.nodup_append'.1 h.nodup).1
        rw [List.map_append, List.nodup_append'] at hnodup
        exact hnodup.2.2 (List.mem_map.2 ⟨u, Engine.mem_live_of_pending hu, h.keyed _ u hu⟩)
          (hid ▸ List.mem_map_of_mem ht)
    · cases hs
  · cases hs

end

/-! ### The steps of the calls -/

theorem Inv.register (h : x.Inv) {kind : CallKind}
    (hnew : ∀ request, kind = .generate request → request.session_id ∉ x.sessions)
    (hopen : ∀ call ∈ x.calls, call.state.is_open = true → call.session_id ≠ kind.session_id)
    (hout : x.notifying ≠ some kind.session_id)
    (haw : ∀ t ∈ x.engine.live ++ x.outputs, t.session_id = kind.session_id →
      t.session_id ∈ x.engine.awaited) : (x.register kind).Inv := by
  have hsome : ∀ (i : Nat) (call : Call), x.calls[i]? = some call → (x.register kind).calls[i]? = some call :=
    fun i call hi => by
      have hlt := (List.getElem?_eq_some_iff.1 hi).1
      exact (List.getElem?_append_left hlt).trans hi
  have hget : ∀ (i : Nat) (call : Call), (x.register kind).calls[i]? = some call →
      x.calls[i]? = some call ∨ i = x.calls.length ∧ call = ⟨kind, .registered, none⟩ := fun i call hi => by
    replace hi : (x.calls ++ [⟨kind, .registered, none⟩])[i]? = some call := hi
    rw [List.getElem?_append] at hi
    split at hi
    · exact .inl hi
    · obtain ⟨hlt, hcall⟩ := List.getElem?_eq_some_iff.1 hi
      have hlen : i - x.calls.length = 0 := by simpa using hlt
      exact .inr ⟨by omega, by simpa [hlen] using hcall.symm⟩
  have hmem : ∀ call ∈ (x.register kind).calls, call ∈ x.calls ∨ call = ⟨kind, .registered, none⟩ :=
    fun call hcall => (List.mem_append.1 hcall).imp_right List.mem_singleton.1
  have hlook : ∀ k, k ≠ kind.session_id →
      (x.register kind).request_events.lookup k = x.request_events.lookup k := fun k hk => by
    show (x.request_events.insert _ _).lookup k = _
    rw [Table.lookup_insert_eq, if_neg hk]
  have hstay : ∀ t, t.session_id ≠ kind.session_id → x.Owned t → (x.register kind).Owned t :=
    fun t hne ht => ht.of_calls rfl (hlook _ hne) fun i call hi _ _ => hsome i call hi
  refine ⟨h.claimed, h.keyed, h.nodup, fun t ht => ?_, fun i hi => ?_, fun i call hi hr => ?_,
    fun call hcall hr request hk => ?_, fun call hcall hw => ?_, fun i j call call' hi hj ho ho' heq => ?_,
    fun call hcall t ht => ?_, fun call hcall request hk u hu => ?_, h.panicked⟩
  · by_cases hid : t.session_id = kind.session_id
    · exact .inl (haw t ht hid)
    · exact (h.owned t ht).imp_right (hstay t hid)
  · obtain ⟨t, hout', hid, howned⟩ := h.notifying i hi
    refine ⟨t, hout', hid, hstay t (fun heq => hout ?_) howned⟩
    rw [← heq, hid]; exact hi
  · rcases hget i call hi with hi | ⟨rfl, rfl⟩
    · rw [hlook]
      · exact h.registered i call hi hr
      · exact hopen call (List.mem_of_getElem? hi) (by rw [hr]; rfl)
    · show (x.request_events.insert _ _).lookup kind.session_id = _
      rw [Table.lookup_insert_eq, if_pos rfl]
  · rcases hmem call hcall with hcall | rfl
    · exact h.unsent call hcall hr request hk
    · exact hnew request hk
  · rcases hmem call hcall with hcall | rfl
    · exact h.woken call hcall hw
    · cases hw
  · rcases hget i call hi with hi | ⟨rfl, rfl⟩
    · rcases hget j call' hj with hj | ⟨rfl, rfl⟩
      · exact h.unique i j call call' hi hj ho ho' heq
      · exact absurd heq (hopen call (List.mem_of_getElem? hi) ho)
    · rcases hget j call' hj with hj | ⟨rfl, rfl⟩
      · exact absurd heq.symm (hopen call' (List.mem_of_getElem? hj) ho')
      · rfl
  · rcases hmem call hcall with hcall | rfl
    · exact h.returned call hcall t ht
    · cases ht
  · rcases hmem call hcall with hcall | rfl
    · exact h.built call hcall request hk u hu
    · cases hu

theorem Inv.set_handed (h : x.Inv) {i : Nat} {call : Call} {state : CallState} (hi : x.calls[i]? = some call)
    (hstate : state.is_handed = true) : (x.set_state i call state).Inv := by
  have hcalls : ∀ j, (x.set_state i call state).calls[j]? =
      if j = i then some { call with state } else x.calls[j]? := fun j => getElem?_set_calls hi
  have hclosed : state.is_open = false := by
    cases state <;> simp [CallState.is_handed] at hstate <;> rfl
  have hopen : ∀ (j : Nat) (c : Call), (x.set_state i call state).calls[j]? = some c → c.state.is_open = true →
      x.calls[j]? = some c := fun j c hj ho => by
    rw [hcalls] at hj
    split at hj
    · obtain rfl := Option.some.inj hj
      rw [show CallState.is_open _ = _ from hclosed] at ho; cases ho
    · exact hj
  have hmem : ∀ c ∈ (x.set_state i call state).calls, c.state.is_open = true → c ∈ x.calls :=
    fun c hc ho => by
      obtain ⟨j, hj⟩ := List.mem_iff_getElem?.1 hc
      exact List.mem_of_getElem? (hopen j c hj ho)
  have hcases : ∀ c ∈ (x.set_state i call state).calls, c ∈ x.calls ∨ c = { call with state } :=
    fun c hc => List.mem_or_eq_of_mem_set hc
  have hstay : ∀ t, x.Owned t → (x.set_state i call state).Owned t := by
    rintro t ⟨j, c, u, hlook, hj, hid, hh, hu, htag⟩
    by_cases hji : j = i
    · subst hji
      rw [hi] at hj
      obtain rfl := Option.some.inj hj
      exact ⟨j, { call with state }, u, hlook, (hcalls j).trans (if_pos rfl), hid, hstate, hu, htag⟩
    · exact ⟨j, c, u, hlook, ((hcalls j).trans (if_neg hji)).trans hj, hid, hh, hu, htag⟩
  refine ⟨h.claimed, h.keyed, h.nodup, fun t ht => (h.owned t ht).imp_right (hstay t), fun k hk => ?_,
    fun j c hj hr => h.registered j c (hopen j c hj (by rw [hr]; rfl)) hr,
    fun c hc hr => h.unsent c (hmem c hc (by rw [hr]; rfl)) hr,
    fun c hc hw => h.woken c (hmem c hc (by rw [hw]; rfl)) hw,
    fun j k c c' hj hk ho ho' => h.unique j k c c' (hopen j c hj ho) (hopen k c' hk ho') ho ho',
    fun c hc t ht => ?_, fun c hc request hk u hu => ?_, h.panicked⟩
  · obtain ⟨t, hout, hid, howned⟩ := h.notifying k hk
    exact ⟨t, hout, hid, hstay t howned⟩
  · rcases hcases c hc with hc | rfl
    · exact h.returned c hc t ht
    · rw [show state = .returned t from ht] at hstate; cases hstate
  · rcases hcases c hc with hc | rfl
    · exact h.built c hc request hk u hu
    · exact h.built call (List.mem_of_getElem? hi) request hk u hu

theorem Inv.take_output (h : x.Inv) {i : Nat} {call : Call} (hi : x.calls[i]? = some call)
    (hw : call.state = .woken) : ∃ t, x.request_outputs.lookup call.session_id = some t ∧
      (set_state i call (.returned t)
        { x with request_outputs := x.request_outputs.erase call.session_id }).Inv := by
  obtain ⟨hnot, t, u, hout, hu, htag⟩ := h.woken call (List.mem_of_getElem? hi) hw
  refine ⟨t, hout, ?_⟩
  obtain ⟨x', hx'⟩ : ∃ x', x' = set_state i call (.returned t)
      { x with request_outputs := x.request_outputs.erase call.session_id } := ⟨_, rfl⟩
  have hcalls : ∀ j, x'.calls[j]? = if j = i then some { call with state := .returned t } else x.calls[j]? :=
    fun j => by rw [hx']; exact getElem?_set_calls hi
  have hold : ∀ (j : Nat) (c : Call), x'.calls[j]? = some c → (∀ t, c.state ≠ .returned t) →
      j ≠ i ∧ x.calls[j]? = some c := fun j c hj hne => by
    rw [hcalls] at hj
    split at hj
    · obtain rfl := Option.some.inj hj
      exact absurd rfl (hne t)
    · exact ⟨‹_›, hj⟩
  have hmem : ∀ c ∈ x'.calls, (∀ t, c.state ≠ .returned t) → ∃ j ≠ i, x.calls[j]? = some c :=
    fun c hc hne => by
      obtain ⟨j, hj⟩ := List.mem_iff_getElem?.1 hc
      exact ⟨j, hold j c hj hne⟩
  have hcases : ∀ c ∈ x'.calls, c ∈ x.calls ∨ c = { call with state := .returned t } :=
    fun c hc => List.mem_or_eq_of_mem_set (by rw [hx'] at hc; exact hc)
  have hother : ∀ (j : Nat) (c : Call), c.state.is_open = true → ∀ t, c.state ≠ .returned t :=
    fun j c ho t ht => by rw [ht] at ho; cases ho
  have hstay : ∀ t, x.Owned t → x'.Owned t := fun t ht =>
    ht.of_calls rfl (by rw [hx']; rfl) fun j c hj hh _ => by
      rw [hcalls, if_neg]
      · exact hj
      · rintro rfl
        rw [hi] at hj
        obtain rfl := Option.some.inj hj
        rw [hw] at hh; cases hh
  have hlook : ∀ k, k ≠ call.session_id → x'.request_outputs.lookup k = x.request_outputs.lookup k :=
    fun k hk => by
      rw [hx']
      show (x.request_outputs.erase _).lookup k = _
      rw [Table.lookup_erase_eq, if_neg hk]
  have hopen : call.state.is_open = true := by rw [hw]; rfl
  rw [← hx']
  refine ⟨by rw [hx']; exact h.claimed, by rw [hx']; exact h.keyed, by rw [hx']; exact h.nodup,
    fun t ht => ?_, fun k hk => ?_, fun j c hj hr => ?_, fun c hc hr request hk => ?_,
    fun c hc hwc => ?_, fun j k c c' hj hk ho ho' heq => ?_, fun c hc t' ht' => ?_,
    fun c hc request hk u hu => ?_, by rw [hx']; exact h.panicked⟩
  · rw [hx'] at ht
    rcases h.owned t ht with haw | howned
    · exact .inl (by rw [hx']; exact haw)
    · exact .inr (hstay t howned)
  · have hk' : x.notifying = some k := by rw [hx'] at hk; exact hk
    obtain ⟨v, hv, hid, howned⟩ := h.notifying k hk'
    refine ⟨v, (hlook k ?_).trans hv, hid, hstay v howned⟩
    rintro rfl
    exact hnot (List.mem_append_right _ (by rw [hk']; exact List.mem_singleton.2 rfl))
  · obtain ⟨-, hj⟩ := hold j c hj (hother j c (by rw [hr]; rfl))
    rw [hx']
    exact h.registered j c hj hr
  · obtain ⟨j, -, hj⟩ := hmem c hc (hother 0 c (by rw [hr]; rfl))
    rw [hx']
    exact h.unsent c (List.mem_of_getElem? hj) hr request hk
  · have ho : c.state.is_open = true := by rw [hwc]; rfl
    obtain ⟨j, hne, hj⟩ := hmem c hc (hother 0 c ho)
    obtain ⟨hnotc, v, w, hv, hrest⟩ := h.woken c (List.mem_of_getElem? hj) hwc
    refine ⟨by rw [hx']; exact hnotc, v, w, (hlook _ fun heq => hne ?_).trans hv, hrest⟩
    exact h.unique j i c call hj hi ho hopen heq
  · exact h.unique j k c c' (hold j c hj (hother j c ho)).2 (hold k c' hk (hother k c' ho')).2 ho ho' heq
  · rcases hcases c hc with hc | rfl
    · exact h.returned c hc t' ht'
    · obtain rfl := CallState.returned.inj ht'
      exact ⟨u, hu, htag⟩
  · rcases hcases c hc with hc | rfl
    · exact h.built c hc request hk u hu
    · exact h.built call (List.mem_of_getElem? hi) request hk u hu

theorem Inv.put_output (h : x.Inv) {infer_task : InferTask} {outputs : List InferTask}
    (hout : x.outputs = infer_task :: outputs) (hnone : x.notifying = none) :
    Inv { x with
      request_outputs := x.request_outputs.insert infer_task.session_id infer_task
      outputs := outputs
      notifying := some infer_task.session_id } := by
  obtain ⟨x', hx'⟩ : ∃ x' : Wrapper, x' = { x with
      request_outputs := x.request_outputs.insert infer_task.session_id infer_task
      outputs := outputs
      notifying := some infer_task.session_id } := ⟨_, rfl⟩
  have hmem : infer_task ∈ x.engine.live ++ x.outputs := by rw [hout]; simp
  have hsessions : x'.sessions.Perm x.sessions := by
    unfold sessions
    rw [hx', hnone, hout]
    dsimp only
    rw [Option.toList_none, List.append_nil, List.map_append, List.map_append, List.map_cons,
      List.append_assoc]
    exact (List.perm_append_singleton _ _).append_left _
  have hstay : ∀ t, x.Owned t → x'.Owned t := fun t ht =>
    ht.of_calls rfl (by rw [hx']) fun j c hj _ _ => by rw [hx']; exact hj
  have hcalls : x'.calls = x.calls := by rw [hx']
  rw [← hx']
  refine ⟨by rw [hx']; exact h.claimed, by rw [hx']; exact h.keyed, hsessions.nodup_iff.2 h.nodup,
    fun t ht => ?_, fun k hk => ?_, by rw [hx']; exact h.registered,
    fun c hc hr request hk hi => ?_, fun c hc hw => ?_, by rw [hcalls]; exact h.unique,
    by rw [hcalls]; exact h.returned, by rw [hcalls]; exact h.built, by rw [hx']; exact h.panicked⟩
  · have ht' : t ∈ x.engine.live ++ x.outputs := by
      rw [hx'] at ht
      rw [hout]
      rcases List.mem_append.1 ht with ht | ht
      · exact List.mem_append_left _ ht
      · exact List.mem_append_right _ (List.mem_cons_of_mem _ ht)
    rcases h.owned t ht' with haw | howned
    · exact .inl (by rw [hx']; exact haw)
    · exact .inr (hstay t howned)
  · -- a reservation has its task in the engine, not among the outputs
    obtain rfl : infer_task.session_id = k := by rw [hx'] at hk; exact Option.some.inj hk
    refine ⟨infer_task, ?_, rfl, hstay _ ((h.owned _ hmem).resolve_left fun haw => ?_)⟩
    · rw [hx']
      show (x.request_outputs.insert _ _).lookup _ = _
      rw [Table.lookup_insert_eq, if_pos rfl]
    · obtain ⟨u, hu, hid, -⟩ := Engine.exists_of_awaited h.claimed h.keyed haw
      have hnodup := (List.nodup_append'.1 h.nodup).1
      rw [List.map_append, List.nodup_append'] at hnodup
      refine hnodup.2.2 (List.mem_map_of_mem hu) ?_
      rw [hid, hout]
      exact List.mem_map_of_mem List.mem_cons_self
  · exact h.unsent c (hcalls ▸ hc) hr request hk (hsessions.mem_iff.1 hi)
  · obtain ⟨hnot, v, w, hv, hrest⟩ := h.woken c (hcalls ▸ hc) hw
    refine ⟨fun hi => hnot (hsessions.mem_iff.1 hi), v, w, ?_, hrest⟩
    rw [hx']
    show (x.request_outputs.insert _ _).lookup _ = _
    rw [Table.lookup_insert_eq, if_neg]
    · exact hv
    · intro heq
      exact hnot (heq ▸ mem_sessions hmem)

/-- Firing an event wakes its call if it waits, and leaves it as it is if not. -/
theorem wake_eq {i : Nat} {call : Call} (hi : x.calls[i]? = some call) :
    ∃ state, (state = .woken ∧ call.state = .waiting ∨ state = call.state ∧ call.state ≠ .waiting) ∧
      wake i x = { x with calls := x.calls.set i { call with state } } := by
  unfold wake
  rw [hi]
  by_cases hw : call.state = .waiting
  · exact ⟨.woken, .inl ⟨rfl, hw⟩, by simp only [hw, ↓reduceIte]; rfl⟩
  · refine ⟨call.state, .inr ⟨rfl, hw⟩, ?_⟩
    obtain ⟨hlt, rfl⟩ := List.getElem?_eq_some_iff.1 hi
    have hset : x.calls.set i x.calls[i] = x.calls := List.set_getElem_self hlt
    simp only [hw, ↓reduceIte]
    show x = { x with calls := x.calls.set i x.calls[i] }
    rw [hset]

theorem Inv.notify_waiters (h : x.Inv) {session_id : Nat} (hs : x.notifying = some session_id) :
    ∃ i, x.request_events.lookup session_id = some i ∧ Inv (wake i
      { x with request_events := x.request_events.erase session_id, notifying := none }) := by
  obtain ⟨t, hout, rfl, i, call, u, hevent, hi, hid, hhanded, hu, htag⟩ := h.notifying session_id hs
  refine ⟨i, hevent, ?_⟩
  obtain ⟨x', hx'⟩ : ∃ x' : Wrapper, x' = wake i
      { x with request_events := x.request_events.erase t.session_id, notifying := none } := ⟨_, rfl⟩
  have hi' : { x with request_events := x.request_events.erase t.session_id, notifying := none }.calls[i]? =
    some call := hi
  obtain ⟨state, hstate, hcalls'⟩ := wake_eq hi'
  rw [← hx'] at hcalls'
  have hnotin : t.session_id ∉ (x.engine.live ++ x.outputs).map (·.session_id) := fun hmem =>
    (List.nodup_append'.1 h.nodup).2.2 hmem (by rw [hs]; exact List.mem_singleton.2 rfl)
  have hsession : t.session_id ∈ x.sessions := List.mem_append_right _ (by rw [hs]; exact List.mem_singleton.2 rfl)
  have hsessions : x'.sessions = (x.engine.live ++ x.outputs).map (·.session_id) := by
    unfold sessions
    rw [hcalls']
    exact List.append_nil _
  have hsub : ∀ k ∈ x'.sessions, k ∈ x.sessions := fun k hk => by
    rw [hsessions] at hk; exact List.mem_append_left _ hk
  have hcalls : ∀ j, x'.calls[j]? = if j = i then some { call with state } else x.calls[j]? := fun j => by
    rw [hcalls']; exact getElem?_set_calls hi
  have hclosed : call.state.is_open = false := by
    cases hc : call.state <;> simp [hc, CallState.is_handed] at hhanded <;> rfl
  have hget : ∀ (j : Nat) (c : Call), x'.calls[j]? = some c →
      j = i ∧ c = { call with state } ∨ j ≠ i ∧ x.calls[j]? = some c := fun j c hj => by
    rw [hcalls] at hj
    split at hj
    · exact .inl ⟨‹_›, (Option.some.inj hj).symm⟩
    · exact .inr ⟨‹_›, hj⟩
  have hcases : ∀ c ∈ x'.calls, c = { call with state } ∨ ∃ j ≠ i, x.calls[j]? = some c := fun c hc => by
    obtain ⟨j, hj⟩ := List.mem_iff_getElem?.1 hc
    rcases hget j c hj with ⟨-, rfl⟩ | hj
    · exact .inl rfl
    · exact .inr ⟨j, hj⟩
  -- an open call has another session: a registered one has its own event, a woken one its output
  have hother : ∀ (j : Nat) (c : Call), j ≠ i → x.calls[j]? = some c → c.state.is_open = true →
      c.session_id ≠ t.session_id := fun j c hne hj ho heq => by
    cases hc : c.state with
    | registered =>
      have := h.registered j c hj hc
      rw [heq, hevent] at this
      exact hne (Option.some.inj this).symm
    | woken => exact (h.woken c (List.mem_of_getElem? hj) hc).1 (heq ▸ hsession)
    | added | waiting | returned | failed => rw [hc] at ho; cases ho
  have hlook : ∀ k, k ≠ t.session_id → x'.request_events.lookup k = x.request_events.lookup k :=
    fun k hk => by
      rw [hcalls']
      show (x.request_events.erase _).lookup k = _
      rw [Table.lookup_erase_eq, if_neg hk]
  have hnew : ∀ c : Call, c = { call with state } → c.state.is_open = true → c.state = .woken := by
    rintro c rfl ho
    rcases hstate with ⟨hw, -⟩ | ⟨hsame, -⟩
    · exact hw
    · rw [show CallState.is_open _ = call.state.is_open from congrArg _ hsame, hclosed] at ho
      cases ho
  rw [← hx']
  refine ⟨by rw [hcalls']; exact h.claimed, by rw [hcalls']; exact h.keyed,
    by rw [hsessions]; exact (List.nodup_append'.1 h.nodup).1, fun v hv => ?_, fun k hk => ?_,
    fun j c hj hr => ?_, fun c hc hr request hk hmem => ?_, fun c hc hw => ?_,
    fun j k c c' hj hk ho ho' heq => ?_, fun c hc v hv => ?_, fun c hc request hk v hv => ?_,
    by rw [hcalls']; exact h.panicked⟩
  · have hv' : v ∈ x.engine.live ++ x.outputs := by rw [hcalls'] at hv; exact hv
    have hne : v.session_id ≠ t.session_id := fun heq => hnotin (heq ▸ List.mem_map_of_mem hv')
    rcases h.owned v hv' with haw | howned
    · exact .inl (by rw [hcalls']; exact haw)
    · refine .inr (howned.of_calls rfl (hlook _ hne) fun j c hj _ hid' => ?_)
      rw [hcalls, if_neg]
      · exact hj
      · rintro rfl
        rw [hi] at hj
        obtain rfl := Option.some.inj hj
        exact hne (hid'.symm.trans hid)
  · rw [hcalls'] at hk; cases hk
  · rcases hget j c hj with ⟨-, hc⟩ | ⟨hne, hj⟩
    · rw [hnew c hc (by rw [hr]; rfl)] at hr; cases hr
    · rw [hlook _ (hother j c hne hj (by rw [hr]; rfl))]
      exact h.registered j c hj hr
  · rcases hcases c hc with hc | ⟨j, -, hj⟩
    · rw [hnew c hc (by rw [hr]; rfl)] at hr; cases hr
    · exact h.unsent c (List.mem_of_getElem? hj) hr request hk (hsub _ hmem)
  · have houts : x'.request_outputs = x.request_outputs := by rw [hcalls']
    rw [houts]
    rcases hcases c hc with rfl | ⟨j, -, hj⟩
    · have hid' : ({ call with state } : Call).session_id = t.session_id := hid
      rw [hid', hsessions]
      exact ⟨hnotin, t, u, hout, hu, htag⟩
    · obtain ⟨hnot, hrest⟩ := h.woken c (List.mem_of_getElem? hj) hw
      exact ⟨fun hmem => hnot (hsub _ hmem), hrest⟩
  · rcases hget j c hj with ⟨rfl, rfl⟩ | ⟨hne, hj⟩
    · rcases hget k c' hk with ⟨rfl, -⟩ | ⟨hne', hk⟩
      · rfl
      · exact absurd (heq.symm.trans hid) (hother k c' hne' hk ho')
    · rcases hget k c' hk with ⟨rfl, rfl⟩ | ⟨hne', hk⟩
      · exact absurd (heq.trans hid) (hother j c hne hj ho)
      · exact h.unique j k c c' hj hk ho ho' heq
  · rcases hcases c hc with rfl | ⟨j, -, hj⟩
    · rcases hstate with ⟨rfl, -⟩ | ⟨rfl, -⟩
      · cases hv
      · rw [show call.state = .returned v from hv] at hhanded; cases hhanded
    · exact h.returned c (List.mem_of_getElem? hj) v hv
  · rcases hcases c hc with rfl | ⟨j, -, hj⟩
    · exact h.built call (List.mem_of_getElem? hi) request hk v hv
    · exact h.built c (List.mem_of_getElem? hj) request hk v hv

section
variable [Hasher] {op : WrapperOp}

theorem Inv.step (h : x.Inv) (hf : x.fresh op = true) (hs : Step x op x') : x'.Inv := by
  cases op with
  | engine op =>
    have hgo : (∀ request now, op ≠ .add_request request now) → (∀ k l, op ≠ .trigger_request k l) →
        x.on_engine op = some x' → x'.Inv := fun h₁ h₂ h₃ => h.engine h₁ h₂ hf h₃
    cases op with
    | add_request request now => cases hs
    | trigger_request k l => cases hs
    | schedule =>
      simp only [Step, next] at hs
      split at hs
      · exact hgo (by simp) (by simp) hs
      · cases hs
    | _ => exact hgo (by simp) (by simp) hs
  | generate request =>
    obtain rfl := Option.some.inj hs
    obtain ⟨hnot, hopen⟩ := not_in_use (Bool.not_eq_true' _ ▸ hf)
    refine h.register (fun r hr => ?_) hopen (fun hn => hnot ?_) fun t ht heq => ?_
    · obtain rfl : request = r := by simpa using hr
      exact hnot
    · exact List.mem_append_right _ (by rw [hn]; exact List.mem_singleton.2 rfl)
    · exact absurd (mem_sessions ht) (heq ▸ hnot)
  | trigger k =>
    obtain ⟨output, hk, rfl⟩ := Option.map_eq_some_iff.1 hs
    have hopen : ∀ call ∈ x.calls, call.state.is_open = true → call.session_id ≠ output.1 := by
      intro call hcall ho heq
      simp only [fresh, hk, Option.all_some, Bool.not_eq_true', List.any_eq_false, Bool.and_eq_true,
        beq_iff_eq, not_and] at hf
      exact hf call hcall ho heq
    have haw : output.1 ∈ x.engine.awaited :=
      List.mem_append_left _ (List.mem_map_of_mem (List.mem_of_getElem? hk))
    refine h.register (fun r hr => by cases hr) hopen (fun hn => ?_) fun t _ heq => heq ▸ haw
    obtain ⟨u, hu, hid, -⟩ := Engine.exists_of_awaited h.claimed h.keyed haw
    refine (List.nodup_append'.1 h.nodup).2.2 (List.mem_map_of_mem (List.mem_append_left _ hu)) ?_
    rw [hn, hid]
    exact List.mem_singleton.2 rfl
  | add_request i arrival_time => exact h.add_request hs
  | trigger_request i k hash_values => exact h.trigger_request hs
  | publish_failed i =>
    simp only [Step, next] at hs
    split at hs
    · rename_i hi
      obtain rfl := Option.some.inj hs
      exact h.set_handed hi rfl
    · cases hs
  | notified i =>
    simp only [Step, next] at hs
    split at hs
    · rename_i call hi
      split at hs
      · obtain rfl := Option.some.inj hs
        exact h.set_handed hi rfl
      · cases hs
    · cases hs
  | take_output i =>
    simp only [Step, next] at hs
    split at hs
    · rename_i call hi
      split at hs
      · obtain ⟨t, hout, hinv⟩ := h.take_output hi ‹_›
        rw [hout] at hs
        obtain rfl := Option.some.inj hs
        exact hinv
      · cases hs
    · cases hs
  | put_output =>
    simp only [Step, next] at hs
    split at hs
    · rename_i infer_task outputs hout
      split at hs
      · rename_i hidle
        obtain rfl := Option.some.inj hs
        exact h.put_output hout hidle.2
      · cases hs
    · cases hs
  | notify_waiters =>
    simp only [Step, next] at hs
    split at hs
    · rename_i session_id hn
      obtain ⟨i, hevent, hinv⟩ := h.notify_waiters hn
      rw [hevent] at hs
      obtain rfl := Option.some.inj hs
      exact hinv
    · cases hs

/-! ### Pending twice -/

/-- Nothing but `pend` reports a session as pending already, and only if it is. -/
theorem add_request_not_duplicate {request : GenerateRequest} {arrival_time : Nat} {s s' : System}
    (hnone : s.scheduler.pending.lookup request.session_id = none) :
    System.add_request request arrival_time s ≠ .error .duplicatePending s' := by
  intro h
  have hroutine : ∀ {α : Type} {x : SM α} {s s' : System}, Stops Routine x →
      System.on_scheduler x s ≠ .error .duplicatePending s' := fun hx hrun =>
    ((hx.zoom) _ _ _ hrun).2.2 rfl
  rcases bind_error.1 h with h | ⟨task, s₁, htask, h⟩
  · cases h
  cases htask
  rcases bind_error.1 h with h | ⟨_, s₂, hinit, h⟩
  · exact hroutine (Scheduler.init_prefix_cache_blocks_stops _ _) h
  have h₂ : s₂.scheduler.pending = s.scheduler.pending :=
    (Scheduler.holdings_eq (holdings_of_custody ((System.on_scheduler_custody
      (Scheduler.init_prefix_cache_blocks_holdings _ _)).of_ok hinit))).1
  rcases bind_error.1 h with h | ⟨r, s₃, hid, h⟩
  · cases h
  cases hid
  rcases bind_error.1 h with h | ⟨plan, s₄, hplan, h⟩
  · exact hroutine (Scheduler.plan_stage_stops _ _) h
  obtain ⟨σ, hσ, rfl⟩ := zoom_ok.1 hplan
  have h₄ : σ.pending = s.scheduler.pending :=
    (Scheduler.control_eq ((Scheduler.plan_stage_keeps _ _).of_ok hσ)).2.2.1.trans h₂
  cases plan with
  | none =>
    rcases bind_error.1 h with h | ⟨_, _, -, h⟩
    · cases h
    · cases h
  | some plan =>
    rcases bind_error.1 h with h | ⟨_, _, -, h⟩
    · obtain ⟨σ', hpend, -⟩ := zoom_error.1 h
      obtain ⟨-, hsome, -⟩ := (System.pend_ends _ _).of_error hpend
      rw [h₄, show InferTask.session_id _ = request.session_id from rfl, hnone] at hsome
      cases hsome
    · cases h

/-- Calls get the outputs of their own tasks, `run_engine` finds every event, and no session that is
about to be pended is pending already. -/
structure Delivers (x : Wrapper) : Prop where
  returned : ∀ call ∈ x.calls, ∀ request, call.kind = .generate request →
    ∀ request_output, call.state = .returned request_output →
      ∃ k now, call.infer_task = some (request.to_task k now) ∧
        request_output.tag = (request.to_task k now).tag
  panicked : x.panicked = false
  pend : ∀ call ∈ x.calls, call.state = .registered → ∀ request, call.kind = .generate request →
    ∀ now s', System.add_request request now x.engine.system ≠ .error .duplicatePending s'
  pend_reserved : ∀ i s', System.pend_reserved i x.engine.system ≠ .error .duplicatePending s'

theorem Inv.delivers (h : x.Inv) : x.Delivers where
  returned call hcall request hk t ht := by
    obtain ⟨u, hu, htag⟩ := h.returned call hcall t ht
    obtain ⟨k, now, rfl⟩ := h.built call hcall request hk u hu
    exact ⟨k, now, hu, htag.symm⟩
  panicked := h.panicked
  pend call hcall hr request hk now s' := by
    refine add_request_not_duplicate (Option.eq_none_iff_forall_ne_some.2 fun t ht => ?_)
    refine h.unsent call hcall hr request hk ?_
    rw [← h.keyed _ t ht]
    exact mem_sessions (List.mem_append_left _ (Engine.mem_live_of_pending ht))
  pend_reserved i s' hrun := by
    cases hi : x.engine.system.reserving[i]? with
    | none =>
      unfold System.pend_reserved at hrun
      rw [bind_apply, get_apply] at hrun
      dsimp only at hrun
      rw [hi] at hrun
      cases hrun
    | some task =>
      obtain ⟨hsome, -⟩ := (System.pend_reserved_holdings hi).of_error hrun
      rw [show x.engine.system.scheduler.pending.lookup task.session_id = none from
        h.reserving_fresh task (List.mem_of_getElem? hi)] at hsome
      cases hsome

/-- In a run in which no request comes in with the session of one that is still being served. -/
theorem run_delivers (c : SchedulerConfig) {ops : List WrapperOp}
    (hrun : Run (fun x op x' => Step x op x' ∧ x.fresh op = true) (Wrapper.new c) ops x) : x.Delivers :=
  (hrun.invariant (Inv.new c) fun _ _ _ hinv ⟨hs, hf⟩ => hinv.step hf hs).delivers

end

/-- One request, from its arrival to its answer. -/
def servedRun : List WrapperOp :=
  [.generate ⟨0, [1, 2], 1, some 1, false, false⟩, .add_request 0 0, .notified 0, .engine .schedule,
    .engine (.update (AList.singleton 0 ⟨3, 1, "", false⟩) 1), .engine .finish, .put_output,
    .notify_waiters, .take_output 0]

theorem run_delivers_served :
    let _ := decimalHasher
    ∃ x, Run (fun x op x' => Step x op x' ∧ x.fresh op = true) (Wrapper.new diskConfig) servedRun x ∧
      x.Delivers ∧ x.calls.any (fun call => (call.state matches .returned _)) = true := by
  let _ := decimalHasher
  have hfollow : (Run.follow (fun x op => if x.fresh op then next x op else none) (Wrapper.new diskConfig)
      servedRun).any (fun x => x.calls.any fun call => (call.state matches .returned _)) = true := by
    decide +kernel
  have hnext : ∀ x op x', (if x.fresh op then next x op else none) = some x' →
      Step x op x' ∧ x.fresh op = true := fun x op x' h => by
    split at h
    · exact ⟨h, ‹_›⟩
    · cases h
  obtain ⟨x, hrun, hx⟩ := Run.exists_of_follow hnext hfollow
  exact ⟨x, hrun, run_delivers diskConfig hrun, hx⟩

/-- Two requests of one session, both waiting when the first is finished. -/
def sharedRun : List WrapperOp :=
  [.generate ⟨0, [1, 2], 1, some 1, false, false⟩, .generate ⟨0, [5, 6], 1, some 1, false, false⟩,
    .add_request 0 0, .add_request 1 1, .notified 0, .notified 1, .engine .schedule,
    .engine (.update ((AList.singleton 0 ⟨3, 1, "", false⟩).insert 1 ⟨7, 1, "", false⟩) 2),
    .engine .finish, .engine .finish, .put_output, .notify_waiters]

/-- The call has returned another task than its own. -/
def mistaken (call : Call) : Bool :=
  match call.state, call.infer_task with
  | .returned t, some u => decide (t.tag ≠ u.tag)
  | _, _ => false

/-- The second call is answered with the output of the first; or `run_engine` panics at the second
output, whose event is gone. -/
theorem shared_not_delivered :
    let _ := decimalHasher
    (∃ x, Run Step (Wrapper.new diskConfig) (sharedRun ++ [.take_output 1]) x ∧ ¬ x.Delivers ∧
      ∃ call t u, x.calls[1]? = some call ∧ call.state = .returned t ∧ call.infer_task = some u ∧
        t.tag ≠ u.tag) ∧
    ∃ x, Run Step (Wrapper.new diskConfig) (sharedRun ++ [.put_output, .notify_waiters]) x ∧
      x.panicked = true ∧ ¬ x.Delivers := by
  intro _
  refine ⟨?_, ?_⟩
  · have hfollow : (Run.follow next (Wrapper.new diskConfig) (sharedRun ++ [.take_output 1])).any
        (fun x => x.calls[1]?.any fun call =>
          decide (call.kind = .generate ⟨0, [5, 6], 1, some 1, false, false⟩) && mistaken call) = true := by
      decide +kernel
    obtain ⟨x, hrun, hx⟩ := Run.exists_of_follow (fun _ _ _ h => h) hfollow
    obtain ⟨call, hcall, hx⟩ := (Option.any_eq_true _ _).1 hx
    obtain ⟨hkind, hx⟩ := Bool.and_eq_true_iff.1 hx
    replace hkind := of_decide_eq_true hkind
    unfold mistaken at hx
    split at hx
    · rename_i t u hstate hu
      replace hx := of_decide_eq_true hx
      refine ⟨x, hrun, fun hdel => ?_, call, t, u, hcall, hstate, hu, hx⟩
      obtain ⟨k, now, hbuilt, htag⟩ := hdel.returned call (List.mem_of_getElem? hcall) _ hkind t hstate
      rw [hu] at hbuilt
      obtain rfl := Option.some.inj hbuilt
      exact hx htag
    · cases hx
  · have hfollow : (Run.follow next (Wrapper.new diskConfig) (sharedRun ++ [.put_output, .notify_waiters])).any
        (fun x => x.panicked) = true := by decide +kernel
    obtain ⟨x, hrun, hx⟩ := Run.exists_of_follow (fun _ _ _ h => h) hfollow
    exact ⟨x, hrun, hx, fun hdel => by rw [hdel.panicked] at hx; cases hx⟩

end

end Wrapper

end LMServe
