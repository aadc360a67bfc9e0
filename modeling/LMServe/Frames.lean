import LMServe.Idle
import LMServe.Census
import LMServe.Passes

/-!
# What the steps leave alone

However the sections of a step end: only a scheduling round and the results of a batch touch the allocated
tasks and the batch in flight (`frozen`); scheduling changes of a sequence its status alone, and this only
between `Waiting` and `Allocated` (`Each`); and no task is in two places (`Distinct`), as long as the engine
loop is alive.
-/

namespace LMServe
open Hoare

/-- Something that holds of every sequence of a task. -/
def InferTask.All (Q : Sequence → Prop) (t : InferTask) : Prop := ∀ seq ∈ t.seqs, Q seq

/-- What does not depend on which of the active statuses a sequence has. -/
def Steady (Q : Sequence → Prop) : Prop := ∀ (seq : Sequence) (status : SeqStatus), Q seq → seq.is_active = true →
  status = .Waiting ∨ status = .Allocated → Q { seq with status := status }

theorem InferTask.All.back {Q : Sequence → Prop} (hQ : Steady Q) {t : InferTask} (h : t.All Q) : t.back.All Q := by
  intro x hx
  obtain ⟨seq, hseq, rfl⟩ := List.mem_map.1 hx
  split
  · rename_i hact
    exact hQ seq _ (h seq hseq) hact (.inl rfl)
  · exact h seq hseq

namespace Scheduler

/-! ### The batch in flight -/

/-- What only a scheduling round and the results of a batch change. -/
def frozen (s : Scheduler) := (s.allocated, s.running_batch, s.settings)

theorem frozen_aside : Aside frozen := fun _ d _ => by cases d <;> rfl

theorem pend_frozen (t : InferTask) : Keeps frozen (pend t) := pend_keeps (fun _ _ => rfl) t

theorem add_frozen (t : InferTask) : Keeps frozen (add t) := Keeps.modify fun _ => rfl

theorem trigger_pend_task_frozen [Hasher] (session_id : Nat) (region_id : Option Nat) (hash_values : List Nat) :
    Keeps frozen (trigger_pend_task session_id region_id hash_values) := by
  refine Keeps.get.bind fun s => ?_
  split
  · exact Keeps.throw _
  · refine Keeps.bind (Keeps.modify fun _ => rfl) fun _ => (frozen_aside.activate_region _ _).bind fun _ => ?_
    split
    · exact Keeps.throw _
    · exact (frozen_aside.on_device _ _).bind fun _ => Keeps.modify fun _ => rfl

/-! ### The sequences in the queues -/

/-- Something that holds of every sequence in the queues. -/
structure Each (Q : Sequence → Prop) (s : Scheduler) : Prop where
  waiting : ∀ t ∈ s.waiting, t.All Q
  allocated : ∀ t ∈ s.allocated, t.All Q
  pending : ∀ t ∈ s.pending_tasks, t.All Q

section
variable {Q : Sequence → Prop} {s s' : Scheduler} {t : InferTask}

theorem Each.congr (h : s.Each Q) (hc : s'.control = s.control) : s'.Each Q := by
  obtain ⟨hW, hA, hP, -⟩ := control_eq hc
  exact ⟨by rw [hW]; exact h.waiting, by rw [hA]; exact h.allocated,
    by rw [pending_tasks, hP]; exact h.pending⟩

theorem each_of_keeps {α : Type} {x : SM α} (h : Keeps control x) : Preserves (Each Q) x :=
  h.preserves fun _ _ heq he => he.congr heq

theorem mem_insert_sorted {queue : List InferTask} {u : InferTask} (h : u ∈ insert_sorted queue t) :
    u = t ∨ u ∈ queue :=
  List.mem_cons.1 ((insert_sorted_perm queue t).mem_iff.1 h)

theorem Each.set (h : s.Each Q) {waiting allocated : List InferTask} (hw : ∀ t ∈ waiting, t.All Q)
    (ha : ∀ t ∈ allocated, t.All Q) : Each Q { s with waiting := waiting, allocated := allocated } :=
  ⟨hw, ha, h.pending⟩

theorem Each.pend (h : s.Each Q) (ht : t.All Q) (i : Nat) : Each Q { s with pending := s.pending.insert i t } := by
  refine ⟨h.waiting, h.allocated, fun u hu => ?_⟩
  obtain ⟨e, he, rfl⟩ := List.mem_map.1 hu
  rcases List.mem_cons.1 he with rfl | he
  · exact ht
  · exact h.pending _ (List.mem_map_of_mem ((List.kerase_sublist _ _).subset he))

theorem Each.erase (h : s.Each Q) (i : Nat) : Each Q { s with pending := s.pending.erase i } := by
  refine ⟨h.waiting, h.allocated, fun u hu => ?_⟩
  obtain ⟨e, he, rfl⟩ := List.mem_map.1 hu
  exact h.pending _ (List.mem_map_of_mem ((List.kerase_sublist _ _).subset he))

theorem mem_pending_tasks {i : Nat} (h : s.pending.lookup i = some t) : t ∈ s.pending_tasks :=
  List.mem_map_of_mem (AList.mem_lookup_iff.1 h)

theorem pend_each (ht : t.All Q) : Preserves (Each Q) (pend t) :=
  Preserves.of_ends fun s hs => (System.pend_ends t s).conseq (by rintro _ _ ⟨-, rfl⟩; exact hs.pend ht _)
    (by rintro _ _ ⟨-, -, rfl⟩; exact hs.pend ht _)

theorem add_each (ht : t.All Q) : Preserves (Each Q) (add t) := Preserves.modify fun s hs =>
  hs.set (fun u hu => (List.mem_append.1 hu).elim (hs.waiting u) fun hu => by rw [List.mem_singleton.1 hu]; exact ht)
    hs.allocated

theorem trigger_pend_task_each [Hasher] (session_id : Nat) (region_id : Option Nat) (hash_values : List Nat) :
    Preserves (Each Q) (trigger_pend_task session_id region_id hash_values) := by
  refine Preserves.of_ends fun s hs => Ends.get_bind ?_
  cases hlook : s.pending.lookup session_id with
  | none => exact Ends.throw hs
  | some t =>
    have ht : t.All Q := hs.pending t (mem_pending_tasks hlook)
    refine Ends.modify_bind (Ends.bind (((each_of_keeps (activate_region_keeps _ _)).ends (hs.erase session_id)))
      fun _ s₁ h₁ => ?_)
    cases t.get_head_seq with
    | none => exact Ends.throw h₁
    | some head_seq =>
      refine Ends.bind ((each_of_keeps (on_device_keeps _ _)).ends h₁) fun _ s₂ h₂ => Ends.modify ?_
      refine h₂.set (fun u hu => ?_) h₂.allocated
      rcases mem_insert_sorted hu with rfl | hu
      · exact ht
      · exact h₂.waiting u hu

end

/-! ### Scheduling -/

section
variable [Hasher] [Watch] {Q : Sequence → Prop} (hQ : Steady Q)
include hQ

theorem try_alloc_loop_each (w : Watermark) (l : List Sequence) : ∀ {m m' : BlockManager} {r : Nat × List Sequence},
    try_alloc_loop w l m = .ok r m' → (∀ seq ∈ l, Q seq) → ∀ seq ∈ r.2, Q seq := by
  induction l with
  | nil =>
    intro m m' r h _
    obtain ⟨rfl, -⟩ : (0, []) = r ∧ _ := by simpa [try_alloc_loop] using h
    exact fun _ hx => absurd hx List.not_mem_nil
  | cons seq l ih =>
    intro m m' r h hl
    have hrest : ∀ x ∈ l, Q x := fun x hx => hl x (.tail _ hx)
    rw [try_alloc_loop] at h
    split at h
    · rename_i hact
      obtain ⟨k, m₁, -, h⟩ := bind_ok.1 h
      obtain ⟨m₂, m₃, -, h⟩ := bind_ok.1 h
      split at h
      · obtain ⟨_, m₄, -, h⟩ := bind_ok.1 h
        obtain ⟨_, m₅, -, h⟩ := bind_ok.1 h
        obtain ⟨_, m₆, -, h⟩ := bind_ok.1 h
        obtain ⟨_, m₇, -, h⟩ := bind_ok.1 h
        obtain ⟨⟨j, l'⟩, m₈, hloop, h⟩ := bind_ok.1 h
        obtain ⟨rfl, -⟩ : _ = r ∧ _ := by simpa using h
        intro x hx
        rcases List.mem_cons.1 hx with rfl | hx
        · exact hQ seq _ (hl seq List.mem_cons_self) hact (.inr rfl)
        · exact ih hloop hrest x hx
      · obtain ⟨rfl, -⟩ : _ = r ∧ _ := by simpa using h
        exact hl
    · obtain ⟨⟨j, l'⟩, m₁, hloop, h⟩ := bind_ok.1 h
      obtain ⟨rfl, -⟩ : _ = r ∧ _ := by simpa using h
      intro x hx
      rcases List.mem_cons.1 hx with rfl | hx
      · exact hl x List.mem_cons_self
      · exact ih hloop hrest x hx

theorem try_alloc_infer_task_each {s : Scheduler} (hs : s.Each Q) {t : InferTask} (ht : t.All Q) (w : Watermark)
    (d : Device) : Ends (try_alloc_infer_task t w d) s (fun r s' => s'.Each Q ∧ r.2.All Q) fun _ => Each Q := by
  refine Ends.bind (R := fun r s' => s'.Each Q ∧ ∀ seq ∈ r.2, Q seq) (Ends.zoom ?_) ?_
  · unfold Ends
    cases hx : try_alloc_loop w t.seqs (s.get_block_manager d) with
    | ok r m => exact ⟨hs.congr (control_aside s d m), try_alloc_loop_each hQ w _ hx ht⟩
    | error e m => exact hs.congr (control_aside s d m)
  · rintro ⟨n, seqs⟩ s₁ ⟨h₁, hseqs⟩
    exact Ends.bind (Ends.ite (fun _ => Ends.pure ⟨h₁, hseqs⟩) fun _ => Ends.throw h₁)
      fun _ _ h => Ends.pure h

omit [Hasher] [Watch] hQ in
theorem watch_each (c : Bool) : Preserves (Each Q) (watch c : SM PUnit) :=
  Lowers.ite (Lowers.pure _) (Lowers.throw _)

omit [Hasher] in
theorem preempt_infer_task_each {s : Scheduler} (hs : s.Each Q) {t : InferTask} (ht : t.All Q) :
    Ends (preempt_infer_task t) s (fun t' s' => s'.Each Q ∧ t'.All Q) fun _ => Each Q := by
  refine Ends.bind ((watch_each _).ends hs) fun _ s₁ h₁ => ?_
  refine Ends.bind ((each_of_keeps (Keeps.forM (fun _ => on_device_keeps _ _) _)).ends h₁) fun _ s₂ h₂ => ?_
  exact Ends.pure ⟨h₂, ht.back hQ⟩

omit hQ in
theorem try_extend_infer_task_each (t : InferTask) (w : Watermark) (d : Device) :
    Preserves (Each Q) (try_extend_infer_task t w d) := each_of_keeps (try_extend_infer_task_keeps t w d)

theorem extend_allocated_each (fuel : Nat) : ∀ {extended : List InferTask} {s : Scheduler}, s.Each Q →
    (∀ t ∈ extended, t.All Q) →
    Ends (extend_allocated fuel extended) s (fun l s' => s'.Each Q ∧ ∀ t ∈ l, t.All Q) fun _ => Each Q := by
  induction fuel with
  | zero => exact fun hs _ => Ends.throw hs
  | succ fuel ih =>
    intro extended s hs hext
    refine Ends.get_bind ?_
    cases hA : s.allocated with
    | nil => exact Ends.pure ⟨hs, hext⟩
    | cons t queue =>
      have ht : t.All Q := hs.allocated t (by rw [hA]; exact List.mem_cons_self)
      have hqueue : ∀ u ∈ queue, u.All Q := fun u hu => hs.allocated u (by rw [hA]; exact .tail _ hu)
      refine Ends.modify_bind (Ends.bind ((try_extend_infer_task_each t _ _).ends (hs.set hs.waiting hqueue))
        fun ok s₁ h₁ => ?_)
      refine Ends.ite (fun _ => ?_) fun _ => ?_
      · refine Ends.bind ((try_extend_infer_task_each t _ _).ends h₁) fun _ s₂ h₂ => ih h₂ fun u hu => ?_
        rcases List.mem_append.1 hu with hu | hu
        · exact hext u hu
        · rw [List.mem_singleton.1 hu]; exact ht
      · cases hlast : queue.getLast? with
        | some last =>
          have hlast : last.All Q := hqueue last (List.mem_of_getLast? hlast)
          refine Ends.modify_bind (Ends.bind (preempt_infer_task_each hQ (h₁.set h₁.waiting
            fun u hu => hqueue u (List.mem_of_mem_dropLast hu)) hlast) ?_)
          rintro u s₂ ⟨h₂, hu⟩
          refine Ends.modify_bind (ih (h₂.set (fun x hx => ?_) fun x hx => ?_) hext)
          · rcases mem_insert_sorted hx with rfl | hx
            · exact hu
            · exact h₂.waiting x hx
          · rcases List.mem_cons.1 hx with rfl | hx
            · exact ht
            · exact h₂.allocated x hx
        | none =>
          refine Ends.bind ((watch_each _).ends h₁) fun _ s₂ h₂ => Ends.modify_bind (Ends.pure ⟨?_, hext⟩)
          refine h₂.set (fun x hx => ?_) h₂.allocated
          rcases mem_insert_sorted hx with rfl | hx
          · exact ht
          · exact h₂.waiting x hx

theorem admit_in_order_each (fuel : Nat) : ∀ {s : Scheduler}, s.Each Q →
    Ends (admit_in_order fuel) s (fun _ => Each Q) fun _ => Each Q := by
  induction fuel with
  | zero => exact fun hs => Ends.throw hs
  | succ fuel ih =>
    intro s hs
    refine Ends.get_bind ?_
    cases hW : s.waiting with
    | nil => exact Ends.pure hs
    | cons t queue =>
      have ht : t.All Q := hs.waiting t (by rw [hW]; exact List.mem_cons_self)
      have hqueue : ∀ u ∈ queue, u.All Q := fun u hu => hs.waiting u (by rw [hW]; exact .tail _ hu)
      refine Ends.modify_bind (Ends.bind (try_alloc_infer_task_each hQ (hs.set hqueue hs.allocated) ht _ _) ?_)
      rintro ⟨ok, t'⟩ s₁ ⟨h₁, ht'⟩
      refine Ends.ite (fun _ => ?_) fun _ => ?_
      · refine Ends.bind ((try_extend_infer_task_each t' _ _).ends h₁) fun _ s₂ h₂ => Ends.modify_bind (ih ?_)
        refine h₂.set h₂.waiting fun u hu => ?_
        rcases List.mem_append.1 hu with hu | hu
        · exact h₂.allocated u hu
        · rw [List.mem_singleton.1 hu]; exact ht'
      · refine Ends.modify (h₁.set (fun u hu => ?_) h₁.allocated)
        rcases List.mem_cons.1 hu with rfl | hu
        · exact ht'
        · exact h₁.waiting u hu

theorem preempt_promoted_each (promoted : List InferTask) : ∀ {t : InferTask} {s : Scheduler}, s.Each Q → t.All Q →
    (∀ u ∈ promoted, u.All Q) → Ends (preempt_promoted t promoted) s (fun _ => Each Q) fun _ => Each Q := by
  induction promoted with
  | nil => exact fun hs _ _ => (watch_each _).ends hs
  | cons u promoted ih =>
    intro t s hs ht hpromoted
    have hrest : ∀ x ∈ promoted, x.All Q := fun x hx => hpromoted x (.tail _ hx)
    refine Ends.bind (preempt_infer_task_each hQ hs (hpromoted u List.mem_cons_self)) ?_
    rintro u' s₁ ⟨h₁, hu'⟩
    refine Ends.modify_bind (Ends.get_bind (Ends.bind (try_alloc_infer_task_each hQ (h₁.set (fun x hx => ?_)
      h₁.allocated) ht _ _) ?_))
    · rcases mem_insert_sorted hx with rfl | hx
      · exact hu'
      · exact h₁.waiting x hx
    · rintro ⟨ok, t'⟩ s₂ ⟨h₂, ht'⟩
      refine Ends.ite (fun _ => ?_) fun _ => ih h₂ ht' hrest
      refine Ends.bind ((try_extend_infer_task_each t' _ _).ends h₂) fun _ s₃ h₃ => Ends.modify ?_
      refine h₃.set h₃.waiting fun x hx => ?_
      rcases List.mem_append.1 hx with hx | hx
      · exact h₃.allocated x hx
      · rcases List.mem_cons.1 hx with rfl | hx
        · exact ht'
        · exact hrest x (List.mem_reverse.1 hx)

theorem reorder_round_each {s : Scheduler} (hs : s.Each Q) {t : InferTask} (ht : t.All Q) :
    Ends (reorder_round t) s (fun back s' => s'.Each Q ∧ ∀ u ∈ back, u.All Q) fun _ => Each Q := by
  refine Ends.get_bind (Ends.bind (try_alloc_infer_task_each hQ hs ht _ _) ?_)
  rintro ⟨ok, t'⟩ s₁ ⟨h₁, ht'⟩
  have hback : ∀ u ∈ [t'], u.All Q := fun u hu => by rw [List.mem_singleton.1 hu]; exact ht'
  refine Ends.ite (fun _ => ?_) fun _ => ?_
  · refine Ends.bind ((try_extend_infer_task_each t' _ _).ends h₁) fun _ s₂ h₂ => Ends.modify_bind ?_
    refine Ends.pure ⟨h₂.set h₂.waiting fun x hx => ?_, fun u hu => nomatch hu⟩
    rcases mem_insert_sorted hx with rfl | hx
    · exact ht'
    · exact h₂.allocated x hx
  · refine Ends.get_bind ?_
    obtain ⟨⟨kept, promoted⟩, hpair⟩ : ∃ p, p = split_promoted t' s₁.allocated := ⟨_, rfl⟩
    have happend := split_promoted_append t' s₁.allocated
    rw [← hpair] at happend ⊢
    have hkept : ∀ u ∈ kept, u.All Q := fun u hu =>
      h₁.allocated u (happend ▸ List.mem_append_left _ hu)
    have hpromoted : ∀ u ∈ promoted, u.All Q := fun u hu =>
      h₁.allocated u (happend ▸ List.mem_append_right _ hu)
    refine Ends.ite (fun _ => Ends.pure ⟨h₁, hback⟩) fun _ => Ends.modify_bind ?_
    refine Ends.bind ((each_of_keeps (can_alloc_infer_task_keeps _ _ _ _)).ends (h₁.set h₁.waiting hkept))
      fun ok' s₂ h₂ => Ends.ite (fun _ => ?_) fun _ => ?_
    · refine Ends.bind (preempt_promoted_each hQ _ h₂ ht' fun u hu => hpromoted u (List.mem_reverse.1 hu)) ?_
      exact fun _ _ h => Ends.pure ⟨h, fun u hu => nomatch hu⟩
    · refine Ends.modify_bind (Ends.pure ⟨h₂.set h₂.waiting fun x hx => ?_, hback⟩)
      rcases List.mem_append.1 hx with hx | hx
      · exact h₂.allocated x hx
      · exact hpromoted x hx

theorem reorder_loop_each (fuel : Nat) : ∀ {next : List InferTask} {s : Scheduler}, s.Each Q →
    (∀ t ∈ next, t.All Q) →
    Ends (reorder_loop fuel next) s (fun l s' => s'.Each Q ∧ ∀ t ∈ l, t.All Q) fun _ => Each Q := by
  induction fuel with
  | zero => exact fun hs _ => Ends.throw hs
  | succ fuel ih =>
    intro next s hs hnext
    refine Ends.get_bind ?_
    cases hW : s.waiting with
    | nil => exact Ends.pure ⟨hs, hnext⟩
    | cons t queue =>
      have ht : t.All Q := hs.waiting t (by rw [hW]; exact List.mem_cons_self)
      have hqueue : ∀ u ∈ queue, u.All Q := fun u hu => hs.waiting u (by rw [hW]; exact .tail _ hu)
      refine Ends.modify_bind (Ends.bind (reorder_round_each hQ (hs.set hqueue hs.allocated) ht) ?_)
      rintro back s₁ ⟨h₁, hback⟩
      exact ih h₁ fun u hu => (List.mem_append.1 hu).elim (hnext u) (hback u)

theorem schedule_each : Preserves (Each Q) schedule := by
  refine Preserves.of_ends fun s hs => ?_
  have hextend : ∀ {s : Scheduler}, s.Each Q → Ends extend_tasks s (fun _ => Each Q) fun _ => Each Q := by
    refine fun hs => Ends.get_bind (Ends.bind (extend_allocated_each hQ _ hs fun _ h => nomatch h) ?_)
    rintro l s₁ ⟨h₁, hl⟩
    exact Ends.modify (h₁.set h₁.waiting hl)
  have henter : ∀ {s : Scheduler}, s.Each Q → Ends admit_waiting s (fun _ => Each Q) fun _ => Each Q := by
    refine fun hs => Ends.get_bind (Ends.ite (fun _ => ?_) fun _ => admit_in_order_each hQ _ hs)
    refine Ends.get_bind (Ends.bind (reorder_loop_each hQ _ hs fun _ h => nomatch h) ?_)
    rintro l s₁ ⟨h₁, hl⟩
    exact Ends.modify (h₁.set hl h₁.allocated)
  refine Ends.bind (hextend hs) fun _ s₁ h₁ => Ends.bind (henter h₁) fun _ s₂ h₂ => ?_
  refine Ends.bind ((each_of_keeps dispatch_keeps).ends h₂) fun batch s₃ h₃ => Ends.modify_bind (Ends.pure ?_)
  exact ⟨h₃.waiting, h₃.allocated, h₃.pending⟩

end

end Scheduler

/-! ### The sections -/

namespace System

/-- Something that holds of every sequence the system knows. -/
structure Each (Q : Sequence → Prop) (s : System) : Prop where
  scheduler : s.scheduler.Each Q
  reserving : ∀ t ∈ s.reserving, t.All Q
  finished : ∀ t ∈ s.finished, t.All Q

theorem Each.mono {Q Q' : Sequence → Prop} {s : System} (h : s.Each Q) (hQ : ∀ seq, Q seq → Q' seq) : s.Each Q' where
  scheduler := ⟨fun t ht seq hseq => hQ seq (h.scheduler.waiting t ht seq hseq),
    fun t ht seq hseq => hQ seq (h.scheduler.allocated t ht seq hseq),
    fun t ht seq hseq => hQ seq (h.scheduler.pending t ht seq hseq)⟩
  reserving t ht seq hseq := hQ seq (h.reserving t ht seq hseq)
  finished t ht seq hseq := hQ seq (h.finished t ht seq hseq)

def frozen (s : System) := s.scheduler.frozen

section
variable {Q : Sequence → Prop} {s : System}

theorem on_scheduler_frozen {α : Type} {x : SM α} (h : Keeps Scheduler.frozen x) : Keeps frozen (on_scheduler x) :=
  h.inside fun _ _ hσ => hσ

theorem generate_id_frozen : Keeps frozen generate_id :=
  Keeps.get.bind fun _ => Keeps.bind (Keeps.modify fun _ => rfl) fun _ => Keeps.pure _

theorem create_task_frozen (request : GenerateRequest) (arrival_time : Nat) :
    Keeps frozen (create_task request arrival_time) :=
  Keeps.get.bind fun _ => Keeps.bind (Keeps.modify fun _ => rfl) fun _ => Keeps.pure _

theorem pend_reserved_frozen (i : Nat) : Keeps frozen (pend_reserved i) := by
  refine Keeps.get.bind fun s => ?_
  split
  · exact Keeps.pure _
  · exact Keeps.bind (Keeps.modify fun _ => rfl) fun _ => on_scheduler_frozen (Scheduler.pend_frozen _)

theorem remove_task_frozen (i : Nat) : Keeps frozen (remove_task i) := by
  refine Keeps.get.bind fun s => ?_
  split
  · exact Keeps.pure _
  · exact (on_scheduler_frozen (Scheduler.frozen_aside.remove_task _)).bind fun _ => Keeps.modify fun _ => rfl

theorem on_scheduler_each {α : Type} {x : SM α} (h : Preserves (Scheduler.Each Q) x) :
    Preserves (Each Q) (on_scheduler x) :=
  Lowers.zoom h fun _ _ h hs => ⟨h hs.scheduler, hs.reserving, hs.finished⟩

theorem generate_id_each : Preserves (Each Q) generate_id :=
  Lowers.get.bind fun _ => Lowers.bind (Preserves.modify fun _ h => ⟨h.scheduler, h.reserving, h.finished⟩)
    fun _ => Lowers.pure _

theorem pend_reserved_each (i : Nat) : Preserves (Each Q) (pend_reserved i) := by
  refine Preserves.of_ends fun s hs => Ends.get_bind ?_
  cases hi : s.reserving[i]? with
  | none => exact Ends.pure hs
  | some t =>
    have ht : t.All Q := hs.reserving t (List.mem_of_getElem? hi)
    refine Ends.modify_bind ((on_scheduler_each (Scheduler.pend_each ht)).ends
      ⟨hs.scheduler, fun u hu => ?_, hs.finished⟩)
    exact hs.reserving u (List.mem_of_mem_eraseIdx hu)

theorem remove_task_each (i : Nat) : Preserves (Each Q) (remove_task i) := by
  refine Lowers.get.bind fun s => ?_
  split
  · exact Lowers.pure _
  · refine (on_scheduler_each (Scheduler.each_of_keeps (Scheduler.remove_task_keeps _))).bind fun _ => ?_
    exact Preserves.modify fun s h => ⟨h.scheduler, h.reserving, fun u hu =>
      h.finished u (List.mem_of_mem_eraseIdx hu)⟩

variable [Hasher]

theorem add_request_frozen (request : GenerateRequest) (arrival_time : Nat) :
    Keeps frozen (add_request request arrival_time) := by
  refine (create_task_frozen _ _).bind fun t =>
    (on_scheduler_frozen (Scheduler.frozen_aside.init_prefix_cache_blocks _ _)).bind fun _ =>
    generate_id_frozen.bind fun r =>
    (on_scheduler_frozen (Scheduler.frozen_aside.plan_stage _ _)).bind fun plan => ?_
  split
  · exact (on_scheduler_frozen (Scheduler.pend_frozen _)).bind fun _ => Keeps.pure _
  · exact (on_scheduler_frozen (Scheduler.add_frozen _)).bind fun _ => Keeps.pure _

theorem reserve_request_frozen (request : GenerateRequest) (arrival_time : Nat) :
    Keeps frozen (reserve_request request arrival_time) :=
  (create_task_frozen _ _).bind fun _ => generate_id_frozen.bind fun _ =>
    (on_scheduler_frozen (Scheduler.frozen_aside.reserve_blocks _ _ _)).bind fun _ =>
    Keeps.bind (Keeps.modify fun _ => rfl) fun _ => Keeps.pure _

theorem backup_frozen (i : Nat) : Keeps frozen (backup i) := by
  refine Keeps.get.bind fun s => ?_
  split
  · exact Keeps.pure _
  · exact generate_id_frozen.bind fun _ => on_scheduler_frozen (Scheduler.frozen_aside.backup _ _)

theorem backup_each (i : Nat) : Preserves (Each Q) (backup i) := by
  refine Lowers.get.bind fun s => ?_
  split
  · exact Lowers.pure _
  · exact generate_id_each.bind fun _ => on_scheduler_each (Scheduler.each_of_keeps (Scheduler.backup_keeps _ _))

theorem add_request_each {request : GenerateRequest} {arrival_time : Nat} (hs : s.Each Q)
    (hnew : (request.to_task s.next_seq_id arrival_time).All Q) :
    Ends (add_request request arrival_time) s (fun _ => Each Q) fun _ => Each Q := by
  refine Ends.bind (create_task_ends (Q := fun t s' => t.All Q ∧ s'.Each Q)
    ⟨hnew, hs.scheduler, hs.reserving, hs.finished⟩) ?_
  rintro t s₁ ⟨ht, h₁⟩
  refine Ends.bind ((on_scheduler_each (Scheduler.each_of_keeps
    (Scheduler.init_prefix_cache_blocks_keeps _ _))).ends h₁) fun _ s₂ h₂ => ?_
  refine Ends.bind (generate_id_each.ends h₂) fun r s₃ h₃ => ?_
  refine Ends.bind ((on_scheduler_each (Scheduler.each_of_keeps (Scheduler.plan_stage_keeps r t))).ends h₃)
    fun plan s₄ h₄ => ?_
  split
  · exact Ends.bind ((on_scheduler_each (Scheduler.pend_each ht)).ends h₄) fun _ _ h => Ends.pure h
  · exact Ends.bind ((on_scheduler_each (Scheduler.add_each ht)).ends h₄) fun _ _ h => Ends.pure h

theorem reserve_request_each {request : GenerateRequest} {arrival_time : Nat} (hs : s.Each Q)
    (hnew : (request.to_task s.next_seq_id arrival_time).All Q) :
    Ends (reserve_request request arrival_time) s (fun _ => Each Q) fun _ => Each Q := by
  refine Ends.bind (create_task_ends (Q := fun t s' => t.All Q ∧ s'.Each Q)
    ⟨hnew, hs.scheduler, hs.reserving, hs.finished⟩) ?_
  rintro t s₁ ⟨ht, h₁⟩
  refine Ends.bind (generate_id_each.ends h₁) fun r s₂ h₂ => ?_
  refine Ends.bind ((on_scheduler_each (Scheduler.each_of_keeps (Scheduler.reserve_blocks_keeps r t .Host))).ends h₂)
    fun region s₃ h₃ => Ends.modify_bind (Ends.pure ⟨h₃.scheduler, fun u hu => ?_, h₃.finished⟩)
  rcases List.mem_append.1 hu with hu | hu
  · exact h₃.reserving u hu
  · rw [List.mem_singleton.1 hu]; exact ht

end

end System

/-! ### The steps -/

/-- The ids of the sequences in the engine. -/
def Engine.ids (e : Engine) : List Nat := (e.live ++ e.system.finished).flatMap InferTask.ids

/-- No task is in two places. -/
structure Engine.Distinct (e : Engine) : Prop where
  nodup : e.ids.Nodup
  lt : ∀ i ∈ e.ids, i < e.system.next_seq_id

open Ledger in
theorem subperm_ids {l l' : List InferTask} (h : ∀ a, listed a l' ≤ listed a l) :
    (l'.flatMap InferTask.ids).Subperm (l.flatMap InferTask.ids) := by
  have hp : (l'.map InferTask.tag).Subperm (l.map InferTask.tag) := List.subperm_ext_iff.2 fun a _ => h a
  have hmap : ∀ l : List InferTask, l.flatMap InferTask.ids = (l.map InferTask.tag).flatMap (·.2.2) := fun l => by
    rw [List.flatMap_map]; rfl
  obtain ⟨l₁, hperm, hsub⟩ := hp
  rw [hmap, hmap]
  exact ⟨l₁.flatMap (·.2.2), hperm.flatMap_right _, hsub.flatMap _⟩

namespace EngineOp

section
variable [Hasher] {Q : Sequence → Prop} {e e' : Engine} {op : EngineOp}

theorem Runs.frozen {α : Type} {x : SysM α} (h : Runs op x) (hsched : op ≠ .schedule)
    (hupdate : ∀ infer_outputs now, op ≠ .update infer_outputs now) : Keeps System.frozen x := by
  cases h with
  | add_request request arrival => exact System.add_request_frozen _ _
  | reserve_request request arrival => exact System.reserve_request_frozen _ _
  | pend_reserved i => exact System.pend_reserved_frozen i
  | trigger | swap_in => exact System.on_scheduler_frozen (Scheduler.trigger_pend_task_frozen _ _ _)
  | schedule => exact absurd rfl hsched
  | update infer_outputs now => exact absurd rfl (hupdate _ _)
  | backup => exact System.backup_frozen 0
  | remove_task => exact System.remove_task_frozen 0
  | commit region => exact System.on_scheduler_frozen (Scheduler.frozen_aside.on_device _ _)
  | pin hash_values =>
    exact System.generate_id_frozen.bind fun _ =>
      System.on_scheduler_frozen (Scheduler.frozen_aside.pin_blocks _ _ _)
  | unpin i region => exact System.on_scheduler_frozen (Scheduler.frozen_aside.on_device _ _)
  | clear_cache => exact System.on_scheduler_frozen Scheduler.frozen_aside.clear_cache

/-- Only a scheduling round and the results of a batch touch the allocated tasks and the batch. -/
theorem frozen_of_step (hs : Step e op e') (hsched : op ≠ .schedule)
    (hupdate : ∀ infer_outputs now, op ≠ .update infer_outputs now) : e'.system.frozen = e.system.frozen :=
  step_preserves (I := fun s => s.frozen = e.system.frozen)
    (fun hrun => (hrun.frozen hsched hupdate).preserves fun _ _ heq h => heq.trans h) hs rfl

theorem Runs.finished {α : Type} {x : SysM α} (h : Runs op x)
    (hupdate : ∀ infer_outputs now, op ≠ .update infer_outputs now) (l : List InferTask) :
    Preserves (fun s => s.finished.Sublist l) x := by
  have hpre : ∀ {α : Type} {x : SysM α}, Keeps System.finished x → Preserves (fun s => s.finished.Sublist l) x :=
    fun hx => hx.preserves fun _ _ heq h => by rw [heq]; exact h
  have hsched : ∀ {α : Type} (x : SM α), Keeps System.finished (System.on_scheduler x) :=
    fun x => Keeps.zoom fun _ _ => rfl
  have hid : Keeps System.finished System.generate_id :=
    Keeps.get.bind fun _ => Keeps.bind (Keeps.modify fun _ => rfl) fun _ => Keeps.pure _
  have hcreate : ∀ (request : GenerateRequest) (arrival : Nat),
      Keeps System.finished (System.create_task request arrival) := fun _ _ =>
    Keeps.get.bind fun _ => Keeps.bind (Keeps.modify fun _ => rfl) fun _ => Keeps.pure _
  cases h with
  | add_request request arrival =>
    refine hpre ((hcreate _ _).bind fun t => (hsched _).bind fun _ => hid.bind fun r => (hsched _).bind fun plan => ?_)
    split
    · exact (hsched _).bind fun _ => Keeps.pure _
    · exact (hsched _).bind fun _ => Keeps.pure _
  | reserve_request request arrival =>
    exact hpre ((hcreate _ _).bind fun t => hid.bind fun r => (hsched _).bind fun region =>
      Keeps.bind (Keeps.modify fun _ => rfl) fun _ => Keeps.pure _)
  | pend_reserved i =>
    refine hpre (Keeps.get.bind fun s => ?_)
    split
    · exact Keeps.pure _
    · exact Keeps.bind (Keeps.modify fun _ => rfl) fun _ => hsched _
  | update infer_outputs now => exact absurd rfl (hupdate _ _)
  | backup =>
    refine hpre (Keeps.get.bind fun s => ?_)
    split
    · exact Keeps.pure _
    · exact hid.bind fun _ => hsched _
  | remove_task =>
    refine Lowers.get.bind fun s => ?_
    split
    · exact Lowers.pure _
    · exact (hpre (hsched _)).bind fun _ => Preserves.modify fun s h => (List.eraseIdx_sublist _ _).trans h
  | pin hash_values => exact hpre (hid.bind fun _ => hsched _)
  | _ => exact hpre (hsched _)

/-- The finished tasks are those that were finished before and those returned by the step. -/
theorem finished_of_step (hs : Step e op e') :
    e'.system.finished.Subperm (e.system.finished ++ op.returned e e') := by
  by_cases hupdate : ∀ infer_outputs now, op ≠ .update infer_outputs now
  · have h := step_preserves (fun hrun => hrun.finished hupdate e.system.finished) hs (List.Sublist.refl _)
    exact (h.trans (List.sublist_append_left _ _)).subperm
  · obtain ⟨infer_outputs, now, rfl⟩ : ∃ infer_outputs now, op = .update infer_outputs now := by
      simpa using hupdate
    obtain ⟨-, hs⟩ := next_eq hs
    simp only [exec, Engine.update] at hs
    split at hs
    · obtain ⟨finished, s, hupd⟩ := System.update_total infer_outputs now e.system
      rw [show attempt (System.update infer_outputs now) e.system = (some finished, s) by rw [attempt, hupd]] at hs
      obtain rfl := Option.some.inj hs
      obtain ⟨l, s₁, hx, hret⟩ := bind_ok.1 hupd
      obtain ⟨σ, -, rfl⟩ := System.on_scheduler_ok hx
      obtain ⟨_, s₂, hmod, hret⟩ := bind_ok.1 hret
      obtain rfl : _ = s₂ := by simpa using hmod
      obtain ⟨-, rfl⟩ : _ ∧ _ = s := by simpa using hret
      show (e.system.finished ++ l).Subperm (e.system.finished ++ (e.system.finished ++ l).drop _)
      rw [List.drop_left]
    · cases hs

omit [Hasher] in
theorem ids_of_request (request : GenerateRequest) (first arrival : Nat) :
    ([request.to_task first arrival].flatMap InferTask.ids).Nodup ∧
      ∀ i ∈ [request.to_task first arrival].flatMap InferTask.ids,
        first ≤ i ∧ i < first + request.num_samples := by
  have hids : [request.to_task first arrival].flatMap InferTask.ids =
      (List.range request.num_samples).map (first + ·) := by
    simp [GenerateRequest.to_task, InferTask.ids, Sequence.new, Function.comp_def]
  rw [hids]
  refine ⟨List.nodup_range.map fun a b h => Nat.add_left_cancel h, fun i hi => ?_⟩
  obtain ⟨k, hk, rfl⟩ := List.mem_map.1 hi
  exact ⟨Nat.le_add_right _ _, Nat.add_lt_add_left (List.mem_range.1 hk) _⟩

theorem Distinct.step (h : e.Distinct) (hp : e.Parallel) (hs : Step e op e') : e'.Distinct := by
  obtain ⟨born, hborn, hle⟩ := traced_of_step hs
  have hnext := (effect_of_step hp hs).1.next_seq_id
  have hsub : e'.ids.Subperm (born.flatMap InferTask.ids ++ e.ids) := by
    have hlive : ((e'.live ++ op.returned e e').flatMap InferTask.ids).Subperm
        ((born ++ e.live).flatMap InferTask.ids) :=
      subperm_ids fun a => by rw [Ledger.listed_append, Ledger.listed_append]; exact hle a
    obtain ⟨l, hl, hl'⟩ := finished_of_step hs
    have hfin : (e'.system.finished.flatMap InferTask.ids).Subperm
        ((e.system.finished ++ op.returned e e').flatMap InferTask.ids) :=
      ⟨l.flatMap InferTask.ids, hl.flatMap_right _, hl'.flatMap _⟩
    unfold Engine.ids
    simp only [List.flatMap_append] at hlive hfin ⊢
    have hperm : (e'.live.flatMap InferTask.ids ++ (e.system.finished.flatMap InferTask.ids ++
        (op.returned e e').flatMap InferTask.ids)).Perm ((e'.live.flatMap InferTask.ids ++
          (op.returned e e').flatMap InferTask.ids) ++ e.system.finished.flatMap InferTask.ids) := by
      rw [List.append_assoc]
      exact List.perm_append_comm.append_left _
    have hall := hlive.append (List.Subperm.refl (e.system.finished.flatMap InferTask.ids))
    rw [List.append_assoc (born.flatMap _)] at hall
    exact ((List.Subperm.refl _).append hfin).trans (hperm.subperm.trans hall)
  have hborn : (born.flatMap InferTask.ids).Nodup ∧ ∀ i ∈ born.flatMap InferTask.ids,
      e.system.next_seq_id ≤ i ∧ i < e'.system.next_seq_id := by
    rw [hnext]
    cases hborn with
    | nobody => exact ⟨List.nodup_nil, fun _ h => nomatch h⟩
    | added => exact ids_of_request _ _ _
    | reserved => exact ids_of_request _ _ _
  obtain ⟨l, hl, hl'⟩ := hsub
  refine ⟨hl.nodup_iff.1 (hl'.nodup ?_), fun i hi => ?_⟩
  · rw [List.nodup_append']
    exact ⟨hborn.1, h.nodup, fun i hi hmem => absurd (h.lt i hmem) (Nat.not_lt.2 (hborn.2 i hi).1)⟩
  · rcases List.mem_append.1 (hl'.subset (hl.mem_iff.2 hi)) with hi | hi
    · exact (hborn.2 i hi).2
    · rw [hnext]; exact Nat.lt_of_lt_of_le (h.lt i hi) (Nat.le_add_right _ _)

end

end EngineOp

end LMServe
