import LMServe.Engine

/-!
# `clear_cache` and the background queue

`clear_cache` keeps the scheduler lock while it waits for its sync entry, and the callbacks of the
copies queued before that entry take the same lock. A copy is still queued when its task has left
the task queues (a finished task is removed in the section that submits its swap-out), so finding
the task queues empty does not mean that the background queue is. When it is empty, and the
background thread alive, no caller is stuck and every party can go on.
-/

namespace LMServe

/-- A `clear_cache` caller holds the lock and waits for a sync entry behind a copy, whose callback
needs the lock. -/
def Engine.Stuck (e : Engine) : Prop :=
  e.lock = .waiting ∧ ∃ (i j : Nat) (entry : Entry), i < j ∧ e.queue[i]? = some entry ∧
    entry.is_copy = true ∧ e.queue[j]? = some .sync

/-- Some party has work to carry on with. -/
def Engine.Busy (e : Engine) : Prop :=
  e.lock ≠ .free ∨ e.queue ≠ [] ∨ e.pushing ≠ [] ∨ e.reserved ≠ [] ∨ e.clearing ≠ 0 ∨
    match e.loop with
    | .idle => e.system.scheduler.is_task_queue_empty = false
    | .executing _ | .finishing => True
    | .dead => False

namespace EngineOp

/-- The steps by which a party carries on: no arrival of a request, no failure. -/
def carries_on : EngineOp → Bool
  | add_request .. | reserve_request .. | trigger_request .. | push_kv .. | clear_cache
  | execute_failed | copy_failed | copy_panicked => false
  | _ => true

/-- A `clear_cache` caller that finds the task queues empty finds the background thread running and
no copy in its queue. -/
def careful (e : Engine) : EngineOp → Bool
  | clear_try => !e.system.scheduler.is_task_queue_empty || (e.alive && !e.queue.any Entry.is_copy)
  | _ => true

/-- What a step does to the lock and the background thread. -/
inductive Moves (e : Engine) : EngineOp → Engine → Prop
  | stays {op : EngineOp} {e' : Engine} : e'.lock = e.lock → e'.queue = e.queue →
      e'.alive = e.alive → Moves e op e'
  | submits {op : EngineOp} {e' : Engine} {entry : Entry} : e.lock = .free → entry.is_copy = true →
      e'.lock = .free → e'.queue = e.queue ++ [entry] → e'.alive = e.alive → Moves e op e'
  | completes {op : EngineOp} {e' : Engine} : e.queue.head? ≠ some .sync → e'.lock = e.lock →
      e'.queue = e.queue.tail → e'.alive = e.alive → Moves e op e'
  | dies {op : EngineOp} {e' : Engine} : e.queue.head? ≠ some .sync → e'.lock = e.lock →
      e'.queue = [] → e'.alive = false → Moves e op e'
  | notifies {op : EngineOp} {e' : Engine} : e.queue.head? = some .sync → e'.lock = .notified →
      e'.queue = e.queue.tail → e'.alive = e.alive → Moves e op e'
  | clears {e' : Engine} : e.lock = .free → e.system.scheduler.is_task_queue_empty = true →
      e'.lock = .waiting → e'.queue = (e.submit .sync).queue → e'.alive = e.alive → Moves e clear_try e'
  | releases {op : EngineOp} {e' : Engine} : e.lock = .notified → e'.lock = .free →
      e'.queue = e.queue → e'.alive = e.alive → Moves e op e'

section
variable {e e' : Engine} {op : EngineOp}

theorem Moves.submit {entry : Entry} {e₁ : Engine} (hfree : e.lock = .free)
    (hentry : entry.is_copy = true) (hlock : e₁.lock = e.lock) (hqueue : e₁.queue = e.queue)
    (halive : e₁.alive = e.alive) : Moves e op (e₁.submit entry) := by
  unfold Engine.submit
  split
  · exact .submits hfree hentry (hlock.trans hfree) (by rw [hqueue]) halive
  · exact .stays hlock hqueue halive

theorem Moves.congr {e₁ : Engine} (h : Moves e op e₁) (hlock : e'.lock = e₁.lock)
    (hqueue : e'.queue = e₁.queue) (halive : e'.alive = e₁.alive) : Moves e op e' := by
  cases h with
  | stays h₁ h₂ h₃ => exact .stays (hlock.trans h₁) (hqueue.trans h₂) (halive.trans h₃)
  | submits hf he h₁ h₂ h₃ => exact .submits hf he (hlock.trans h₁) (hqueue.trans h₂) (halive.trans h₃)
  | completes hh h₁ h₂ h₃ => exact .completes hh (hlock.trans h₁) (hqueue.trans h₂) (halive.trans h₃)
  | dies hh h₁ h₂ h₃ => exact .dies hh (hlock.trans h₁) (hqueue.trans h₂) (halive.trans h₃)
  | notifies hh h₁ h₂ h₃ => exact .notifies hh (hlock.trans h₁) (hqueue.trans h₂) (halive.trans h₃)
  | clears hf he h₁ h₂ h₃ => exact .clears hf he (hlock.trans h₁) (hqueue.trans h₂) (halive.trans h₃)
  | releases hf h₁ h₂ h₃ => exact .releases hf (hlock.trans h₁) (hqueue.trans h₂) (halive.trans h₃)

theorem Moves.complete {α : Type} {x : SysM α} (hhead : e.queue.head? ≠ some .sync) :
    Moves e op (e.complete x) := by
  unfold Engine.complete
  split
  · exact .completes hhead rfl rfl rfl
  · exact .dies hhead rfl rfl rfl

theorem head_of_copying (h : e.copying = true) : e.queue.head? ≠ some .sync := fun hhead => by
  simp [Engine.copying, hhead, Entry.is_copy] at h

variable [Hasher]

theorem next_eq (h : Step e op e') : (op.takes_lock = true → e.lock = .free) ∧ op.exec e = some e' := by
  unfold Step next at h
  split at h
  · cases h
  · rename_i hfree
    exact ⟨fun hlock => by_contra fun hne => hfree ⟨hlock, hne⟩, h⟩

theorem moves_of_step (h : Step e op e') : Moves e op e' := by
  obtain ⟨hfree, h⟩ := next_eq h
  cases op with
  | add_request request arrival_time =>
    obtain rfl := Option.some.inj h
    unfold Engine.add_request
    split
    · exact .submit (hfree rfl) rfl rfl rfl rfl
    · exact .stays rfl rfl rfl
  | reserve_request request arrival_time =>
    obtain rfl := Option.some.inj h
    unfold Engine.reserve_request
    split <;> exact .stays rfl rfl rfl
  | pend_reserved i =>
    simp only [exec, Engine.pend_reserved] at h
    split at h
    · split at h <;> obtain rfl := Option.some.inj h <;> exact .stays rfl rfl rfl
    · cases h
  | trigger_request k hash_values =>
    simp only [exec, Engine.trigger_request] at h
    split at h
    · obtain rfl := Option.some.inj h; exact .stays rfl rfl rfl
    · cases h
  | push_kv hash_values =>
    obtain rfl := Option.some.inj h
    unfold Engine.push_kv
    split <;> exact .stays rfl rfl rfl
  | push_done i =>
    simp only [exec, Engine.push_done] at h
    split at h
    · obtain rfl := Option.some.inj h; exact .stays rfl rfl rfl
    · cases h
  | schedule =>
    simp only [exec, Engine.schedule] at h
    split at h
    · split at h
      · obtain rfl := Option.some.inj h; exact .stays rfl rfl rfl
      · split at h <;> obtain rfl := Option.some.inj h <;> exact .stays rfl rfl rfl
    · cases h
  | execute_failed =>
    simp only [exec, Engine.execute_failed] at h
    split at h
    · obtain rfl := Option.some.inj h; exact .stays rfl rfl rfl
    · cases h
  | update infer_outputs now =>
    simp only [exec, Engine.update] at h
    split at h
    · split at h <;> obtain rfl := Option.some.inj h <;> exact .stays rfl rfl rfl
    · cases h
  | finish =>
    simp only [exec, Engine.finish] at h
    split at h
    · split at h
      · rename_i plan s _
        have hsub : Moves e finish (Engine.submit_swap_out plan { e with system := s }) := by
          unfold Engine.submit_swap_out
          split
          · exact .submit (hfree rfl) rfl rfl rfl rfl
          · exact .stays rfl rfl rfl
        split at h <;> obtain rfl := Option.some.inj h <;> exact hsub.congr rfl rfl rfl
      · obtain rfl := Option.some.inj h; exact .stays rfl rfl rfl
    · cases h
  | copy_done =>
    simp only [exec, Engine.copy_done] at h
    split at h
    · obtain rfl := Option.some.inj h; exact .stays rfl rfl rfl
    · cases h
  | copy_failed =>
    simp only [exec, Engine.copy_failed] at h
    split at h
    · obtain rfl := Option.some.inj h
      exact .completes (head_of_copying ‹_›) rfl rfl rfl
    · cases h
  | copy_panicked =>
    simp only [exec, Engine.copy_panicked] at h
    split at h
    · obtain rfl := Option.some.inj h
      exact .dies (head_of_copying ‹_›) rfl rfl rfl
    · cases h
  | callback =>
    simp only [exec, Engine.callback] at h
    split at h
    · split at h
      · obtain rfl := Option.some.inj h; exact .complete (by simp [*])
      · obtain rfl := Option.some.inj h; exact .complete (by simp [*])
      · cases h
    · cases h
  | notify =>
    simp only [exec, Engine.notify] at h
    split at h
    · obtain rfl := Option.some.inj h; exact .notifies (by simp [*]) rfl rfl rfl
    · cases h
  | clear_cache => obtain rfl := Option.some.inj h; exact .stays rfl rfl rfl
  | clear_try =>
    simp only [exec, Engine.clear_try] at h
    split at h
    · cases h
    · split at h
      · obtain rfl := Option.some.inj h
        refine .clears (hfree rfl) ‹_› ?_ ?_ ?_ <;> unfold Engine.submit <;> split <;> rfl
      · obtain rfl := Option.some.inj h; exact .stays rfl rfl rfl
  | clear_done =>
    simp only [exec, Engine.clear_done] at h
    split at h
    · obtain rfl := Option.some.inj h; exact .releases ‹_› rfl rfl rfl
    · cases h

/-! ### Runs -/

/-- The lock is waited with only for a sync entry that is next. -/
structure Ordered (e : Engine) : Prop where
  waiting : e.lock = .waiting → e.alive = true ∧ e.queue = [.sync]
  other : e.lock ≠ .waiting → .sync ∉ e.queue

theorem Ordered.step (h : Ordered e) (hstep : Step e op e') (hc : careful e op = true) :
    Ordered e' := by
  cases moves_of_step hstep with
  | stays hlock hqueue halive =>
    refine ⟨fun hw => ?_, fun hw => ?_⟩
    · rw [hqueue, halive]; exact h.waiting (hlock ▸ hw)
    · rw [hqueue]; exact h.other (hlock ▸ hw)
  | submits hfree hentry hlock hqueue halive =>
    refine ⟨fun hw => absurd (hlock.symm.trans hw) (by decide), fun _ hmem => ?_⟩
    rw [hqueue, List.mem_append, List.mem_singleton] at hmem
    rcases hmem with hmem | rfl
    · exact h.other (by rw [hfree]; decide) hmem
    · cases hentry
  | completes hhead hlock hqueue halive =>
    refine ⟨fun hw => ?_, fun hw hmem => ?_⟩
    · obtain ⟨-, hq⟩ := h.waiting (hlock ▸ hw)
      rw [hq] at hhead
      exact absurd rfl hhead
    · rw [hqueue] at hmem
      exact h.other (hlock ▸ hw) (List.mem_of_mem_tail hmem)
  | dies hhead hlock hqueue halive =>
    refine ⟨fun hw => ?_, fun _ => by rw [hqueue]; simp⟩
    obtain ⟨-, hq⟩ := h.waiting (hlock ▸ hw)
    rw [hq] at hhead
    exact absurd rfl hhead
  | notifies hhead hlock hqueue halive =>
    refine ⟨fun hw => absurd (hlock.symm.trans hw) (by decide), fun _ => ?_⟩
    -- a sync entry in the queue means that its caller is waiting, and that it is alone there
    have hmem : Entry.sync ∈ e.queue := List.mem_of_mem_head? hhead
    have hw : e.lock = .waiting := by_contra fun hw => h.other hw hmem
    rw [hqueue, (h.waiting hw).2]; simp
  | clears hfree hempty hlock hqueue halive =>
    refine ⟨fun _ => ?_, fun hw => absurd hlock hw⟩
    have hcopies : e.alive = true ∧ e.queue.any Entry.is_copy = false := by
      simpa [careful, hempty] using hc
    have hsync := h.other (by rw [hfree]; decide)
    have hnil : e.queue = [] := by
      cases hq : e.queue with
      | nil => rfl
      | cons entry rest =>
        rw [hq] at hcopies hsync
        cases entry with
        | sync => simp at hsync
        | swap_in | swap_out => simp [Entry.is_copy] at hcopies
    rw [halive, hqueue, Engine.submit, if_pos hcopies.1, hnil]
    exact ⟨hcopies.1, rfl⟩
  | releases hheld hlock hqueue halive =>
    refine ⟨fun hw => absurd (hlock.symm.trans hw) (by decide), fun _ => ?_⟩
    rw [hqueue]; exact h.other (by rw [hheld]; decide)

omit [Hasher] in
theorem Ordered.new (c : SchedulerConfig) : Ordered (Engine.new c) :=
  ⟨fun h => absurd h Lock.noConfusion, fun _ => List.not_mem_nil⟩

omit [Hasher] in
theorem Ordered.not_stuck (h : Ordered e) : ¬ e.Stuck := by
  rintro ⟨hw, i, j, entry, hij, hi, hentry, hj⟩
  rw [(h.waiting hw).2] at hj
  obtain rfl : j = 0 := by
    have := (List.getElem?_eq_some_iff.1 hj).1
    simp only [List.length_singleton] at this
    omega
  omega

theorem next_of_free (hfree : e.lock = .free) : next e op = op.exec e :=
  if_neg fun h => h.2 hfree

theorem enabled_of_queue (hfree : e.lock = .free) (hq : e.queue ≠ []) :
    ∃ op, carries_on op = true ∧ (next e op).isSome = true := by
  cases hqueue : e.queue with
  | nil => exact absurd hqueue hq
  | cons entry rest =>
    by_cases hsync : entry = .sync
    · exact ⟨notify, rfl, by simp [next, takes_lock, exec, Engine.notify, hqueue, hsync]⟩
    · have hcopy : entry.is_copy = true := by
        cases entry with
        | sync => exact absurd rfl hsync
        | swap_in | swap_out => rfl
      cases hcop : e.copied with
      | false =>
        refine ⟨copy_done, rfl, ?_⟩
        simp [next, takes_lock, exec, Engine.copy_done, Engine.copying, hqueue, hcop, hcopy]
      | true =>
        refine ⟨callback, rfl, ?_⟩
        cases entry with
        | sync => exact absurd rfl hsync
        | swap_in | swap_out => simp [next, hfree, exec, Engine.callback, hqueue, hcop]

theorem Ordered.enabled (h : Ordered e) (hbusy : e.Busy) :
    ∃ op, carries_on op = true ∧ (next e op).isSome = true := by
  cases hlock : e.lock with
  | waiting =>
    refine ⟨notify, rfl, ?_⟩
    simp [next, takes_lock, exec, Engine.notify, (h.waiting hlock).2]
  | notified => exact ⟨clear_done, rfl, by simp [next, takes_lock, exec, Engine.clear_done, hlock]⟩
  | free =>
    rcases hbusy with hne | hq | hpush | hres | hclear | hloop
    · exact absurd hlock hne
    · exact enabled_of_queue hlock hq
    · obtain ⟨region, rest, hcons⟩ := List.exists_cons_of_ne_nil hpush
      exact ⟨push_done 0, rfl, by simp [next, hlock, exec, Engine.push_done, hcons]⟩
    · obtain ⟨output, rest, hcons⟩ := List.exists_cons_of_ne_nil hres
      refine ⟨pend_reserved 0, rfl, ?_⟩
      simp only [next_of_free hlock, exec, Engine.pend_reserved, hcons, List.getElem?_cons_zero]
      split <;> rfl
    · refine ⟨clear_try, rfl, ?_⟩
      simp only [next_of_free hlock, exec, Engine.clear_try, hclear, if_false]
      split <;> rfl
    · cases hl : e.loop with
      | idle =>
        refine ⟨schedule, rfl, ?_⟩
        rw [hl] at hloop
        simp only [next_of_free hlock, exec, Engine.schedule, hl, hloop, Bool.false_eq_true, if_false]
        split <;> rfl
      | executing batch =>
        refine ⟨update ∅ 0, rfl, ?_⟩
        simp only [next_of_free hlock, exec, Engine.update, hl]
        split <;> rfl
      | finishing =>
        refine ⟨finish, rfl, ?_⟩
        simp only [next_of_free hlock, exec, Engine.finish, hl]
        split
        · split <;> rfl
        · rfl
      | dead => rw [hl] at hloop; exact absurd hloop id

/-- In a run in which every `clear_cache` caller that finds the task queues empty finds no copy in
the background queue either, nobody gets stuck. -/
theorem run_not_stuck (c : SchedulerConfig) {ops : List EngineOp}
    (h : Run (fun e op e' => Step e op e' ∧ careful e op = true) (Engine.new c) ops e) :
    ¬ e.Stuck ∧ (e.Busy → ∃ op e', carries_on op = true ∧ Step e op e') := by
  have hord : Ordered e :=
    h.invariant (Ordered.new c) fun _ _ _ hord ⟨hstep, hc⟩ => hord.step hstep hc
  refine ⟨hord.not_stuck, fun hbusy => ?_⟩
  obtain ⟨op, hop, hsome⟩ := hord.enabled hbusy
  obtain ⟨e', he'⟩ := Option.isSome_iff_exists.1 hsome
  exact ⟨op, e', hop, he'⟩

/-- The condition is not too strong: a caller for which it fails gets stuck behind a copy, or waits
for a thread that has died. -/
theorem stuck_of_not_careful (h : Step e clear_try e') (hc : careful e clear_try = false) :
    e'.Stuck ∨ (e'.lock = .waiting ∧ e'.alive = false) := by
  have hbad : e.system.scheduler.is_task_queue_empty = true ∧
      (e.alive = true → e.queue.any Entry.is_copy = true) := by
    simpa [careful] using hc
  obtain ⟨-, h⟩ := next_eq h
  simp only [exec, Engine.clear_try, hbad.1, if_true] at h
  split at h
  · cases h
  · obtain rfl := Option.some.inj h
    unfold Engine.submit
    split
    · rename_i halive
      obtain ⟨entry, hmem, hentry⟩ := List.any_eq_true.1 (hbad.2 halive)
      obtain ⟨i, hi⟩ := List.getElem?_of_mem hmem
      have hlt := (List.getElem?_eq_some_iff.1 hi).1
      exact .inl ⟨rfl, i, e.queue.length, entry, hlt, by rw [List.getElem?_append_left hlt, hi],
        hentry, by simp⟩
    · rename_i halive
      exact .inr ⟨rfl, by simpa using halive⟩

/-- When the copy before the sync entry is done, nobody can go on. -/
theorem not_step_of_copied (hw : e.lock = .waiting) (hcop : e.copied = true)
    (hhead : e.queue.head? ≠ some .sync) {op : EngineOp} (hop : carries_on op = true) :
    ¬ Step e op e' := by
  intro h
  obtain ⟨hfree, h⟩ := next_eq h
  have hfree : op.takes_lock = false := by
    cases hl : op.takes_lock with
    | false => rfl
    | true => rw [hfree hl] at hw; cases hw
  cases op with
  | copy_done => simp [exec, Engine.copy_done, Engine.copying, hcop] at h
  | notify =>
    simp only [exec, Engine.notify] at h
    split at h
    · rename_i hq; simp [hq] at hhead
    · cases h
  | clear_done => simp [exec, Engine.clear_done, hw] at h
  | execute_failed | copy_failed | copy_panicked | clear_cache => cases hop
  | _ => cases hfree

end

/-! ### A finished request and a `clear_cache` call -/

def diskConfig : SchedulerConfig := ⟨8, 64, 4, 1, Nat.one_pos, 8, 4, 4, false, Scheduler.defaultWatermark⟩

/-- One request of two tokens, answered with one; its blocks are on the way to the disk when it
leaves the queues. -/
def finishedRun : List EngineOp :=
  [add_request ⟨0, [1, 2], 1, some 1, false, false⟩ 0, schedule,
    update (AList.singleton 0 ⟨3, 1, "", false⟩) 1, finish, clear_cache]

/-- A caller that comes after the callback holds the lock with only its sync entry in the queue. -/
theorem run_not_stuck_finished :
    let _ := decimalHasher
    ∃ e, Run (fun e op e' => Step e op e' ∧ careful e op = true) (Engine.new diskConfig)
        (finishedRun ++ [copy_done, callback, clear_try]) e ∧
      (e.lock = .waiting ∧ ¬ e.Stuck ∧ ∃ op e', carries_on op = true ∧ Step e op e') := by
  let _ := decimalHasher
  have hfollow : (Run.follow (fun e op => if careful e op then next e op else none)
      (Engine.new diskConfig) (finishedRun ++ [copy_done, callback, clear_try])).any
      (fun e => e.lock = .waiting) = true := by decide +kernel
  have hnext : ∀ e op e', (if careful e op then next e op else none) = some e' →
      Step e op e' ∧ careful e op = true := fun e op e' h => by
    split at h
    · exact ⟨h, ‹_›⟩
    · cases h
  obtain ⟨e, hrun, he⟩ := Run.exists_of_follow hnext hfollow
  have hlock : e.lock = .waiting := by simpa using he
  obtain ⟨hstuck, hgo⟩ := run_not_stuck diskConfig hrun
  exact ⟨e, hrun, hlock, hstuck, hgo (.inl (by rw [hlock]; decide))⟩

/-- A caller that comes before it: the swap-out is copied, its callback needs the lock the caller
holds, and the caller waits for the entry behind the callback. -/
theorem run_stuck_finished :
    let _ := decimalHasher
    ∃ e, Run Step (Engine.new diskConfig) (finishedRun ++ [clear_try, copy_done]) e ∧
      e.Stuck ∧ e.Busy ∧ ∀ op e', carries_on op = true → ¬ Step e op e' := by
  let _ := decimalHasher
  have hfollow : (Run.follow next (Engine.new diskConfig) (finishedRun ++ [clear_try, copy_done])).any
      (fun e => e.lock = .waiting ∧ e.copied = true ∧ e.queue.map Entry.is_copy = [true, false] ∧
        e.queue[1]? = some .sync) = true := by decide +kernel
  obtain ⟨e, hrun, he⟩ := Run.exists_of_follow (fun _ _ _ h => h) hfollow
  obtain ⟨hlock, hcop, hkinds, hsync⟩ : e.lock = .waiting ∧ e.copied = true ∧
      e.queue.map Entry.is_copy = [true, false] ∧ e.queue[1]? = some .sync := by simpa using he
  obtain ⟨entry, hentry, hcopy⟩ : ∃ entry, e.queue[0]? = some entry ∧ entry.is_copy = true := by
    have h0 := congrArg (·[0]?) hkinds
    simpa using h0
  have hhead : e.queue.head? ≠ some .sync := by
    rw [List.head?_eq_getElem?, hentry]
    rintro ⟨⟩
    cases hcopy
  exact ⟨e, hrun, ⟨hlock, 0, 1, entry, by decide, hentry, hcopy, hsync⟩,
    .inl (by rw [hlock]; decide), fun op e' hop => not_step_of_copied hlock hcop hhead hop⟩

end EngineOp

end LMServe
