import LMServe.Ledger
import LMServe.Custody

/-!
# Which tasks the engine still has

The tasks in the queues, the pending ones and those of `reserve_request` calls in progress. No step
has more of them than before, apart from the task a request brings in; what `update` returns leaves
the queues. A section that panics may lose tasks and never doubles one; after a panic in the engine
loop nothing is taken from the queues any more, and only the pending tasks count.
-/

namespace LMServe
open Hoare Ledger

/-- The identities of the tasks bound how often their tags are listed. -/
theorem listed_le_of_tally {l l' : List InferTask} (h : ∀ a, tally a l' ≤ tally a l)
    (x : Nat × Nat × List Nat) : listed x l' ≤ listed x l := by
  have hp : (l'.map InferTask.ident).Subperm (l.map InferTask.ident) :=
    List.subperm_ext_iff.2 fun a _ => h a
  have htag : InferTask.tag = (fun a => (a.1, a.2.1, a.2.2.map Prod.fst)) ∘ InferTask.ident := by
    funext t
    simp [InferTask.tag, InferTask.ident, InferTask.keys, Sequence.key, Function.comp_def]
  simp only [listed, htag, ← List.map_map]
  obtain ⟨l₁, hperm, hsub⟩ := hp
  rw [← (hperm.map _).count_eq x]
  exact (hsub.map _).count_le x

namespace Scheduler

/-- How often a task is pending or, unless the engine loop has died, in the queues. -/
def census (dead : Bool) (a : Nat × Nat × List Nat) (s : Scheduler) : Nat :=
  (if dead then 0 else listed a s.waiting + listed a s.allocated) + listed a s.pending_tasks

variable {dead : Bool} {a : Nat × Nat × List Nat} {s s' : Scheduler}

theorem census_congr (h : s'.control = s.control) : s'.census dead a = s.census dead a := by
  obtain ⟨hW, hA, hP, -⟩ := control_eq h
  unfold census pending_tasks
  rw [hW, hA, hP]

theorem census_of_control {α : Type} {x : SM α} (h : Keeps control x) : Keeps (census dead a) x := by
  intro s
  have := h s
  cases hx : x s with
  | ok b s' => rw [hx] at this; exact census_congr this
  | error e s' => rw [hx] at this; exact census_congr this

theorem pend_census (t : InferTask) (s : Scheduler) :
    Ends (pend t) s (fun _ s' => s'.census dead a ≤ s.census dead a + listed a [t])
      (fun _ s' => s'.census dead a ≤ s.census dead a + listed a [t]) := by
  have hle : census dead a { s with pending := s.pending.insert t.session_id t } ≤
      s.census dead a + listed a [t] := by
    have hins : listed a (pending_tasks { s with pending := s.pending.insert t.session_id t }) ≤
        listed a s.pending_tasks + listed a [t] := by
      rw [listed_pending, listed_pending]
      dsimp only
      rw [Table.total_insert]
      cases hk : s.pending.lookup t.session_id with
      | none => rw [Table.total_erase_none _ hk]; omega
      | some u => have := Table.total_erase (fun u => listed a [u]) hk; omega
    unfold census
    dsimp only
    omega
  refine (System.pend_ends t s).conseq ?_ ?_
  · rintro _ _ ⟨-, rfl⟩; exact hle
  · rintro _ _ ⟨-, -, rfl⟩; exact hle

theorem add_census (t : InferTask) (s : Scheduler) :
    Ends (add t) s (fun _ s' => s'.census dead a ≤ s.census dead a + listed a [t])
      (fun _ s' => s'.census dead a ≤ s.census dead a + listed a [t]) := by
  refine Ends.modify ?_
  dsimp only [census, pending_tasks]
  rw [listed_append]
  split <;> omega

section
variable [Hasher]

theorem trigger_pend_task_census (session_id : Nat) (region_id : Option Nat) (hash_values : List Nat) :
    Lowers (census dead a) (trigger_pend_task session_id region_id hash_values) := by
  intro s
  have hends : Ends (trigger_pend_task session_id region_id hash_values) s
      (fun _ s' => s'.census dead a ≤ s.census dead a)
      (fun _ s' => s'.census dead a ≤ s.census dead a) := by
    refine Ends.get_bind ?_
    cases hlook : s.pending.lookup session_id with
    | none => exact Ends.throw (le_refl _)
    | some t =>
      have herase := Table.total_erase (fun u => listed a [u]) hlook
      refine Ends.modify_bind ?_
      obtain ⟨s₁, hs₁⟩ : ∃ s₁ : Scheduler, s₁ = { s with pending := s.pending.erase session_id } := ⟨_, rfl⟩
      rw [← hs₁]
      -- the task has left the pending ones and joins the waiting ones at the end
      have hsum : s₁.census dead a + listed a [t] = s.census dead a := by
        rw [hs₁]
        simp only [census, listed_pending]
        omega
      have hle : ∀ {s' : Scheduler}, s'.control = s₁.control → s'.census dead a ≤ s.census dead a :=
        fun h => by rw [census_congr h]; omega
      refine Ends.bind (((activate_region_keeps _ _).ends s₁).conseq (fun _ _ h => h) fun _ _ h => hle h)
        fun _ s₂ h₂ => ?_
      cases t.get_head_seq with
      | none => exact Ends.throw (hle h₂)
      | some head_seq =>
        refine Ends.bind (((on_device_keeps _ _).ends s₂).conseq (fun _ _ h => h.trans h₂)
          fun _ _ h => hle (h.trans h₂)) fun _ s₃ h₃ => Ends.modify ?_
        rw [← hsum, ← census_congr h₃]
        have hins := listed_perm a (insert_sorted_perm s₃.waiting t)
        rw [listed_cons] at hins
        dsimp only [census, pending_tasks]
        split <;> omega
  unfold Ends at hends
  cases hx : trigger_pend_task session_id region_id hash_values s with
  | ok b s' => rw [hx] at hends; exact hends
  | error e s' => rw [hx] at hends; exact hends

theorem schedule_census [Watch] {batch : Batch} (h : schedule s = .ok batch s') :
    s'.census dead a ≤ s.census dead a := by
  obtain ⟨hP, -, hT⟩ := schedule_tally h
  have hqueues : listed a (s'.waiting ++ s'.allocated) ≤ listed a (s.waiting ++ s.allocated) :=
    listed_le_of_tally (fun b => by rw [tally_append, tally_append]; exact (hT b).1) a
  rw [listed_append, listed_append] at hqueues
  unfold census pending_tasks
  rw [hP]
  split <;> omega

omit [Hasher] in
theorem update_census {infer_outputs : Table InferOutput} {now : Nat} {finished : List InferTask}
    (h : update infer_outputs now s = .ok finished s') :
    s'.census false a + listed a finished = s.census false a := by
  obtain ⟨hW, hP, hT⟩ := update_listed h
  have := hT a
  simp only [census, pending_tasks, hW, hP, Bool.false_eq_true, ↓reduceIte]
  omega

end

end Scheduler

namespace System

/-- The same with the calls in progress. -/
def census (dead : Bool) (a : Nat × Nat × List Nat) (s : System) : Nat :=
  s.scheduler.census dead a + listed a s.reserving

variable {dead : Bool} {a : Nat × Nat × List Nat}

theorem on_scheduler_lowers {α : Type} {x : SM α} (h : Lowers (Scheduler.census dead a) x) :
    Lowers (census dead a) (on_scheduler x) :=
  Lowers.zoom h fun _ _ hle => Nat.add_le_add_right hle _

theorem on_scheduler_census {α : Type} {x : SM α} (h : Keeps Scheduler.control x) :
    Keeps (census dead a) (on_scheduler x) := by
  have hkeep : Keeps (Scheduler.census dead a) x := Scheduler.census_of_control h
  exact hkeep.inside fun _ s hσ => congrArg (· + listed a s.reserving) hσ

theorem generate_id_census : Keeps (census dead a) generate_id :=
  Keeps.get.bind fun _ => Keeps.bind (Keeps.modify fun _ => rfl) fun _ => Keeps.pure _

section
variable [Hasher]

theorem add_request_census (request : GenerateRequest) (arrival_time : Nat) (s : System) :
    Ends (add_request request arrival_time) s
      (fun _ s' => s'.census dead a ≤
        s.census dead a + listed a [request.to_task s.next_seq_id arrival_time])
      (fun _ s' => s'.census dead a ≤
        s.census dead a + listed a [request.to_task s.next_seq_id arrival_time]) := by
  refine Ends.bind (create_task_ends (Q := fun task s' =>
    task = request.to_task s.next_seq_id arrival_time ∧ s'.census dead a = s.census dead a) ⟨rfl, rfl⟩) ?_
  rintro _ s₁ ⟨rfl, h₁⟩
  obtain ⟨task, htask⟩ : ∃ task, task = request.to_task s.next_seq_id arrival_time := ⟨_, rfl⟩
  rw [← htask]
  have hle : ∀ {s' : System}, s'.census dead a = s.census dead a →
      s'.census dead a ≤ s.census dead a + listed a [task] := fun h => h ▸ Nat.le_add_right _ _
  have hkeep : ∀ {α : Type} {x : SM α} {s₀ : System}, Keeps Scheduler.control x →
      s₀.census dead a = s.census dead a → Ends (on_scheduler x) s₀
        (fun _ s' => s'.census dead a = s.census dead a)
        (fun _ s' => s'.census dead a ≤ s.census dead a + listed a [task]) := fun hx h₀ =>
    ((on_scheduler_census hx).ends _).conseq (fun _ _ h => h.trans h₀) fun _ _ h => hle (h.trans h₀)
  refine Ends.bind (hkeep (Scheduler.init_prefix_cache_blocks_keeps _ _) h₁) fun _ s₂ h₂ => ?_
  refine Ends.bind ((generate_id_census.ends s₂).conseq (fun _ _ h => h.trans h₂)
    fun _ _ h => hle (h.trans h₂)) fun r s₃ h₃ => ?_
  refine Ends.bind (hkeep (Scheduler.plan_stage_keeps r task) h₃) fun plan s₄ h₄ => ?_
  have hjoin : ∀ {x : SM PUnit}, (∀ σ : Scheduler, Ends x σ
      (fun _ σ' => σ'.census dead a ≤ σ.census dead a + listed a [task])
      (fun _ σ' => σ'.census dead a ≤ σ.census dead a + listed a [task])) →
      Ends (on_scheduler x) s₄ (fun _ s' => s'.census dead a ≤ s.census dead a + listed a [task])
        (fun _ s' => s'.census dead a ≤ s.census dead a + listed a [task]) := fun hx => by
    refine Ends.zoom ((hx s₄.scheduler).conseq (fun _ σ h => ?_) fun _ σ h => ?_)
    · rw [← h₄]; unfold census; dsimp only; omega
    · rw [← h₄]; unfold census; dsimp only; omega
  split
  · exact Ends.bind (hjoin fun σ => Scheduler.pend_census task σ) fun _ _ h => Ends.pure h
  · exact Ends.bind (hjoin fun σ => Scheduler.add_census task σ) fun _ _ h => Ends.pure h

/-- The first half of a reservation: its task is with the call. -/
theorem reserve_request_census (request : GenerateRequest) (arrival_time : Nat) (s : System) :
    Ends (reserve_request request arrival_time) s
      (fun _ s' => s'.census dead a =
        s.census dead a + listed a [request.to_task s.next_seq_id arrival_time])
      (fun _ s' => s'.census dead a = s.census dead a) := by
  refine Ends.bind (create_task_ends (Q := fun task s' =>
    task = request.to_task s.next_seq_id arrival_time ∧ s'.census dead a = s.census dead a) ⟨rfl, rfl⟩) ?_
  rintro _ s₁ ⟨rfl, h₁⟩
  refine Ends.bind ((generate_id_census.ends s₁).conseq (fun _ _ h => h.trans h₁)
    fun _ _ h => h.trans h₁) fun r s₂ h₂ => ?_
  refine Ends.bind (((on_scheduler_census (Scheduler.reserve_blocks_keeps r _ .Host)).ends s₂).conseq
    (fun _ _ h => h.trans h₂) fun _ _ h => h.trans h₂) fun region s₃ h₃ => ?_
  refine Ends.modify_bind (Ends.pure ?_)
  unfold census at h₃ ⊢
  dsimp only
  rw [listed_append]
  omega

omit [Hasher] in
/-- The second half: from the call to the pending tasks. -/
theorem pend_reserved_census (i : Nat) : Lowers (census dead a) (pend_reserved i) := by
  refine Lowers.get_bind fun s => ?_
  cases hi : s.reserving[i]? with
  | none => exact le_refl _
  | some task =>
    have hends : Ends (do
        modify fun s : System => { s with reserving := s.reserving.eraseIdx i }
        on_scheduler (Scheduler.pend task)) s
        (fun _ s' => s'.census dead a ≤ s.census dead a)
        (fun _ s' => s'.census dead a ≤ s.census dead a) := by
      have herase : listed a s.reserving = listed a [task] + listed a (s.reserving.eraseIdx i) := by
        obtain ⟨hlt, rfl⟩ := List.getElem?_eq_some_iff.1 hi
        rw [← listed_cons]
        exact listed_perm a (List.getElem_cons_eraseIdx_perm hlt).symm
      have hle : ∀ σ : Scheduler, σ.census dead a ≤ s.scheduler.census dead a + listed a [task] →
          census dead a { s with reserving := s.reserving.eraseIdx i, scheduler := σ } ≤
            census dead a s := fun σ h => by
        unfold census
        dsimp only
        omega
      exact Ends.modify_bind (Ends.zoom ((Scheduler.pend_census task s.scheduler).conseq
        (fun _ σ h => hle σ h) fun _ σ h => hle σ h))
    exact hends

omit [Hasher] in
theorem pin_blocks_census (hash_values : List Nat) : Keeps (census dead a) (pin_blocks hash_values) :=
  generate_id_census.bind fun _ => on_scheduler_census (Scheduler.pin_blocks_keeps _ _ _)

theorem backup_census (i : Nat) : Keeps (census dead a) (backup i) := by
  refine Keeps.get.bind fun s => ?_
  split
  · exact Keeps.pure _
  · exact generate_id_census.bind fun _ => on_scheduler_census (Scheduler.backup_keeps _ _)

omit [Hasher] in
theorem remove_task_census (i : Nat) : Keeps (census dead a) (remove_task i) := by
  refine Keeps.get.bind fun s => ?_
  split
  · exact Keeps.pure _
  · exact (on_scheduler_census (Scheduler.remove_task_keeps _)).bind fun _ => Keeps.modify fun _ => rfl

end

end System

/-- The engine loop has panicked. -/
def LoopState.is_dead : LoopState → Bool
  | .dead => true
  | _ => false

namespace Engine

def dead (e : Engine) : Bool := e.loop.is_dead

/-- The tasks that may still be scheduled, triggered or pended. -/
def live (e : Engine) : List InferTask :=
  (if e.dead then [] else e.system.scheduler.waiting ++ e.system.scheduler.allocated) ++
    e.system.scheduler.pending_tasks ++ e.system.reserving

theorem listed_live (a : Nat × Nat × List Nat) (e : Engine) :
    listed a e.live = e.system.census e.dead a := by
  unfold live System.census Scheduler.census
  rw [listed_append, listed_append]
  split
  · rfl
  · rw [listed_append]

end Engine

namespace EngineOp
open Engine

/-- The tasks `iter` hands out after the step, if it gets that far. -/
def returned (e : Engine) (op : EngineOp) (e' : Engine) : List InferTask :=
  match op with
  | update .. => e'.system.finished.drop e.system.finished.length
  | _ => []

section
variable {e e' : Engine} {op : EngineOp}

theorem attempt_lowers {α : Type} {f : System → Nat} {x : SysM α} (h : Lowers f x) (s : System) :
    f (attempt x s).2 ≤ f s := by
  unfold attempt
  cases hx : x s with
  | ok a s' => exact h.of_ok hx
  | error e s' => exact h.of_error hx

/-- Tasks that come in with the step. -/
inductive Born (e : Engine) : EngineOp → Engine → List InferTask → Prop
  | nobody {op : EngineOp} {e' : Engine} : Born e op e' []
  | added {request : GenerateRequest} {arrival_time : Nat} {e' : Engine} :
      Born e (.add_request request arrival_time) e' [request.to_task e.system.next_seq_id arrival_time]
  | reserved {request : GenerateRequest} {arrival_time : Nat} {e' : Engine} :
      request.session_id ∈ e'.reserved.map (·.1) →
      Born e (.reserve_request request arrival_time) e'
        [request.to_task e.system.next_seq_id arrival_time]

/-- Nobody is in the engine after a step who was not before, apart from whom the step brings in. -/
def Traced [Hasher] (e : Engine) (op : EngineOp) (e' : Engine) : Prop :=
  ∃ born, Born e op e' born ∧
    ∀ a, listed a e'.live + listed a (op.returned e e') ≤ listed a born + listed a e.live

variable [Hasher]

/-- A step that lets the loop be. -/
theorem traced_of_census (hop : op.returned e e' = []) (hdead : e'.dead = e.dead)
    (h : ∀ a, e'.system.census e.dead a ≤ e.system.census e.dead a) : Traced e op e' := by
  refine ⟨[], .nobody, fun a => ?_⟩
  rw [hop, listed_live, listed_live, hdead, listed_nil]
  have := h a
  omega

/-- A step after which the loop is dead. -/
theorem traced_of_dead (hop : op.returned e e' = []) (hdead : e'.dead = true)
    (h : ∀ a, e'.system.census true a ≤ e.system.census true a) : Traced e op e' := by
  refine ⟨[], .nobody, fun a => ?_⟩
  rw [hop, listed_live, listed_live, hdead, listed_nil]
  refine Nat.le_trans (h a) ?_
  unfold System.census Scheduler.census
  rw [if_pos rfl]
  omega

theorem add_request_traced (request : GenerateRequest) (arrival_time : Nat) (e : Engine) :
    Traced e (.add_request request arrival_time) (e.add_request request arrival_time) := by
  refine ⟨_, .added, fun a => ?_⟩
  have hloop : (e.add_request request arrival_time).loop = e.loop := by
    unfold Engine.add_request
    split
    · rw [submit_loop]
    · rfl
  have hsystem : (e.add_request request arrival_time).system =
      (attempt (System.add_request request arrival_time) e.system).2 := by
    unfold Engine.add_request
    split
    · rename_i h; rw [submit_system, h]
    · rename_i h; rw [h]
  show listed a (e.add_request request arrival_time).live + 0 ≤ _
  rw [listed_live, listed_live, dead, hloop, ← dead, hsystem]
  rcases attempt_ends (System.add_request_census request arrival_time e.system) with
    ⟨_, s', heq, h⟩ | ⟨_, s', heq, -, h⟩
  · rw [heq, Nat.add_comm (listed a _)]; exact h
  · rw [heq, Nat.add_comm (listed a _)]; exact h

theorem reserve_request_traced (request : GenerateRequest) (arrival_time : Nat) (e : Engine) :
    Traced e (.reserve_request request arrival_time) (e.reserve_request request arrival_time) := by
  obtain ⟨e', he'⟩ : ∃ e', e' = e.reserve_request request arrival_time := ⟨_, rfl⟩
  have hends : ∀ a, Ends (System.reserve_request request arrival_time) e.system
      (fun _ s' => s'.census e.dead a =
        e.system.census e.dead a + listed a [request.to_task e.system.next_seq_id arrival_time])
      (fun _ s' => s'.census e.dead a = e.system.census e.dead a) :=
    fun _ => System.reserve_request_census request arrival_time e.system
  rw [← he']
  unfold Engine.reserve_request attempt at he'
  cases hx : System.reserve_request request arrival_time e.system with
  | ok region s =>
    rw [hx] at he'
    refine ⟨_, .reserved (by rw [he']; simp), fun a => ?_⟩
    have h : s.census e.dead a = _ := (hends a).of_ok hx
    show listed a e'.live + 0 ≤ _
    rw [listed_live, listed_live, he', Nat.add_comm (listed a _)]
    exact Nat.le_of_eq h
  | error err s =>
    rw [hx] at he'
    refine traced_of_census rfl (by rw [he']; rfl) fun a => ?_
    rw [he']
    exact Nat.le_of_eq ((hends a).of_error hx)

theorem schedule_traced (h : e.schedule = some e') : Traced e .schedule e' := by
  unfold Engine.schedule at h
  split at h
  · rename_i hloop
    have hdead : e.dead = false := by unfold dead; rw [hloop]; rfl
    split at h
    · obtain rfl := Option.some.inj h
      exact traced_of_census rfl rfl fun a => Nat.le_refl _
    · unfold attempt at h
      cases hx : System.on_scheduler Scheduler.schedule e.system with
      | ok batch s =>
        rw [hx] at h
        obtain rfl := Option.some.inj h
        obtain ⟨σ, hσ, rfl⟩ := zoom_ok.1 hx
        refine traced_of_census rfl ?_ fun a => Nat.add_le_add_right (Scheduler.schedule_census hσ) _
        rw [hdead]
        unfold dead
        dsimp only
        split <;> rfl
      | error err s =>
        rw [hx] at h
        obtain rfl := Option.some.inj h
        have hcustody := (System.on_scheduler_custody Scheduler.schedule_holdings).of_error hx
        simp only [System.custody, Scheduler.holdings, Prod.mk.injEq] at hcustody
        refine traced_of_dead rfl rfl fun a => ?_
        unfold System.census Scheduler.census Scheduler.pending_tasks
        rw [hcustody.1.1, hcustody.2.2.2]
        exact Nat.le_refl _
  · cases h

theorem update_traced {infer_outputs : Table InferOutput} {now : Nat}
    (h : e.update infer_outputs now = some e') : Traced e (.update infer_outputs now) e' := by
  unfold Engine.update at h
  split at h
  · rename_i batch hloop
    have hdead : e.dead = false := by unfold dead; rw [hloop]; rfl
    unfold attempt at h
    cases hx : System.update infer_outputs now e.system with
    | ok finished s =>
      rw [hx] at h
      obtain rfl := Option.some.inj h
      obtain ⟨finished, s₁, hupd, hx⟩ := bind_ok.1 hx
      obtain ⟨σ, hσ, rfl⟩ := zoom_ok.1 hupd
      obtain ⟨_, s₂, hmod, hx⟩ := bind_ok.1 hx
      simp only [modify_apply, EStateM.Result.ok.injEq, true_and] at hmod
      obtain ⟨-, rfl⟩ : _ ∧ s₂ = s := by simpa using hx
      refine ⟨[], .nobody, fun a => ?_⟩
      have hlive : Engine.dead (next_finished { e with system := s₂ }) = false := by
        unfold next_finished dead
        dsimp only
        split <;> rfl
      have hret : returned e (.update infer_outputs now) (next_finished { e with system := s₂ }) =
          finished := by
        show s₂.finished.drop e.system.finished.length = finished
        rw [← hmod]
        exact List.drop_left
      rw [hret, listed_live, listed_live, hlive, hdead, listed_nil]
      have := Scheduler.update_census (a := a) hσ
      show s₂.scheduler.census false a + listed a s₂.reserving + _ ≤
        0 + (e.system.scheduler.census false a + listed a e.system.reserving)
      rw [← hmod]
      dsimp only
      omega
    | error err s => cases hx
  · cases h

theorem finish_traced (h : e.finish = some e') : Traced e .finish e' := by
  unfold Engine.finish at h
  split at h
  · rename_i hloop
    have hdead : e.dead = false := by unfold dead; rw [hloop]; rfl
    have hbackup : ∀ d a, Keeps (System.census d a) (System.backup 0) := fun _ _ => System.backup_census 0
    unfold attempt at h
    cases hx : System.backup 0 e.system with
    | ok plan s =>
      rw [hx] at h
      dsimp only at h
      have hsystem : (submit_swap_out plan { e with system := s }).system = s := by
        unfold submit_swap_out
        split
        · rw [submit_system]
        · rfl
      rw [hsystem] at h
      have hcensus : ∀ d a, s.census d a = e.system.census d a := fun d a => (hbackup d a).of_ok hx
      cases hy : System.remove_task 0 s with
      | ok _ s' =>
        rw [hy] at h
        obtain rfl := Option.some.inj h
        have hlive : Engine.dead (next_finished
            { submit_swap_out plan { e with system := s } with system := s' }) = false := by
          unfold next_finished dead
          dsimp only
          split <;> rfl
        refine traced_of_census rfl (hlive.trans hdead.symm) fun a => ?_
        rw [hdead, ← hcensus]
        exact Nat.le_of_eq ((System.remove_task_census 0).of_ok hy)
      | error err s' =>
        rw [hy] at h
        obtain rfl := Option.some.inj h
        refine traced_of_dead rfl rfl fun a => ?_
        rw [← hcensus]
        exact Nat.le_of_eq ((System.remove_task_census 0).of_error hy)
    | error err s =>
      rw [hx] at h
      obtain rfl := Option.some.inj h
      exact traced_of_dead rfl rfl fun a => Nat.le_of_eq ((hbackup true a).of_error hx)
  · cases h

/-- A callback that lowers the census; the thread may die with it. -/
theorem complete_traced {α : Type} {x : SM α} (hx : ∀ d a, Lowers (Scheduler.census d a) x) :
    Traced e .callback (e.complete (System.on_scheduler x)) := by
  have hends : ∀ a, _ ≤ _ := fun a =>
    attempt_lowers (System.on_scheduler_lowers (hx e.dead a)) e.system
  unfold complete
  cases hatt : attempt (System.on_scheduler x) e.system with
  | mk r s =>
    rw [hatt] at hends
    cases r with
    | some _ => exact traced_of_census rfl rfl hends
    | none => exact traced_of_census rfl rfl hends

omit [Hasher] in
theorem lowers_of_control {α : Type} {x : SM α} (h : Keeps Scheduler.control x) (d : Bool)
    (a : Nat × Nat × List Nat) : Lowers (Scheduler.census d a) x :=
  h.lowers fun _ _ h => Nat.le_of_eq (Scheduler.census_congr h)

theorem traced_of_step (h : Step e op e') : Traced e op e' := by
  obtain ⟨-, h⟩ := next_eq h
  -- a section of the scheduler that is all the step does to it
  have hsection : ∀ {α : Type} {x : SM α}, (∀ d a, Lowers (Scheduler.census d a) x) →
      ∀ a, (attempt (System.on_scheduler x) e.system).2.census e.dead a ≤ e.system.census e.dead a :=
    fun hx a => attempt_lowers (System.on_scheduler_lowers (hx e.dead a)) e.system
  cases op with
  | add_request request arrival_time =>
    obtain rfl := Option.some.inj h; exact add_request_traced _ _ e
  | reserve_request request arrival_time =>
    obtain rfl := Option.some.inj h; exact reserve_request_traced _ _ e
  | pend_reserved i =>
    have hlower : ∀ a, Lowers (System.census e.dead a) (System.pend_reserved i) := fun _ =>
      System.pend_reserved_census i
    have hle : ∀ a, _ ≤ _ := fun a => attempt_lowers (hlower a) e.system
    simp only [exec, Engine.pend_reserved] at h
    split at h
    · cases hatt : attempt (System.pend_reserved i) e.system with
      | mk r s =>
        rw [hatt] at h hle
        cases r with
        | some _ => obtain rfl := Option.some.inj h; exact traced_of_census rfl rfl hle
        | none => obtain rfl := Option.some.inj h; exact traced_of_census rfl rfl hle
    · cases h
  | trigger_request k hash_values =>
    simp only [exec, Engine.trigger_request] at h
    split at h
    · obtain rfl := Option.some.inj h
      exact traced_of_census rfl rfl
        (hsection fun _ _ => Scheduler.trigger_pend_task_census _ _ _)
    · cases h
  | push_kv hash_values =>
    obtain rfl := Option.some.inj h
    have hkeep : ∀ a, Keeps (System.census e.dead a) (System.pin_blocks hash_values) := fun _ =>
      System.pin_blocks_census hash_values
    have hle : ∀ a, _ ≤ _ := fun a => Nat.le_of_eq (attempt_keeps (hkeep a) e.system)
    unfold Engine.push_kv
    cases hatt : attempt (System.pin_blocks hash_values) e.system with
    | mk r s =>
      rw [hatt] at hle
      cases r with
      | some _ => exact traced_of_census rfl rfl hle
      | none => exact traced_of_census rfl rfl hle
  | push_done i =>
    simp only [exec, Engine.push_done] at h
    split at h
    · obtain rfl := Option.some.inj h
      exact traced_of_census rfl rfl (hsection (lowers_of_control (Scheduler.on_device_keeps _ _)))
    · cases h
  | schedule => exact schedule_traced h
  | execute_failed =>
    simp only [exec, Engine.execute_failed] at h
    split at h
    · obtain rfl := Option.some.inj h
      exact traced_of_dead rfl rfl fun a => Nat.le_refl _
    · cases h
  | update infer_outputs now => exact update_traced h
  | finish => exact finish_traced h
  | copy_done =>
    simp only [exec, Engine.copy_done] at h
    split at h
    · obtain rfl := Option.some.inj h; exact traced_of_census rfl rfl fun a => Nat.le_refl _
    · cases h
  | copy_failed =>
    simp only [exec, Engine.copy_failed] at h
    split at h
    · obtain rfl := Option.some.inj h; exact traced_of_census rfl rfl fun a => Nat.le_refl _
    · cases h
  | copy_panicked =>
    simp only [exec, Engine.copy_panicked] at h
    split at h
    · obtain rfl := Option.some.inj h; exact traced_of_census rfl rfl fun a => Nat.le_refl _
    · cases h
  | callback =>
    simp only [exec, Engine.callback] at h
    split at h
    · split at h
      · obtain rfl := Option.some.inj h
        exact complete_traced fun _ _ => Scheduler.trigger_pend_task_census _ _ _
      · obtain rfl := Option.some.inj h
        exact complete_traced (lowers_of_control (Scheduler.on_device_keeps _ _))
      · cases h
    · cases h
  | notify =>
    simp only [exec, Engine.notify] at h
    split at h
    · obtain rfl := Option.some.inj h; exact traced_of_census rfl rfl fun a => Nat.le_refl _
    · cases h
  | clear_cache =>
    obtain rfl := Option.some.inj h; exact traced_of_census rfl rfl fun a => Nat.le_refl _
  | clear_try =>
    simp only [exec, Engine.clear_try] at h
    split at h
    · cases h
    · split at h
      · obtain rfl := Option.some.inj h
        refine traced_of_census rfl ?_ fun a => ?_
        · rw [dead, submit_loop]; rfl
        · rw [submit_system]
      · obtain rfl := Option.some.inj h; exact traced_of_census rfl rfl fun a => Nat.le_refl _
  | clear_done =>
    simp only [exec, Engine.clear_done] at h
    split at h
    · obtain rfl := Option.some.inj h
      exact traced_of_census rfl rfl (hsection (lowers_of_control Scheduler.clear_cache_keeps))
    · cases h

end

end EngineOp

end LMServe
