import LMServe.Lib.Turns
import LMServe.Progress

/-!
# Who is served first

Without reordering a round takes the tasks from the end of `allocated`, puts them back among the waiting tasks, and
appends the first that wait (`phases_order`). The first task of `allocated` is not preempted (`unpreempted_first`).
-/

namespace LMServe
open Hoare Chunk BlockManager

namespace Scheduler

/-! ### The order of the queues -/

section
variable [Hasher] [Watch] {β : Type} {f : InferTask → β} {time : β → Nat} (hf : ∀ t t' : InferTask, t.ident = t'.ident → f t = f t')
  (htime : ∀ t, time (f t) = t.arrival_time)

omit [Hasher] [Watch] in
include htime in
theorem map_insert_sorted (l : List InferTask) (t : InferTask) :
    (insert_sorted l t).map f = Turns.insert time (l.map f) (f t) := by
  induction l with
  | nil => rfl
  | cons u l ih =>
    unfold insert_sorted
    rw [List.map_cons, Turns.insert, htime, htime]
    split
    · rfl
    · rw [List.map_cons, ih]

include hf htime

/-- Extension keeps a first part of the allocated tasks and puts the others back, the last one first. The first task
stays, unless the loop puts it back itself. -/
theorem extend_allocated_order (hstuck : ∀ t, Watch.stuck t = false) (fuel : Nat) :
    ∀ {extended r : List InferTask} {s s' : Scheduler}, extend_allocated fuel extended s = .ok r s' →
      ∃ kept gone : List β, s.allocated.map f = kept ++ gone.reverse ∧ r.map f = extended.map f ++ kept ∧
        s'.waiting.map f = gone.foldl (Turns.insert time) (s.waiting.map f) ∧ (s.allocated ≠ [] → kept ≠ []) := by
  induction fuel with
  | zero => intro extended r s s' h; simp [extend_allocated] at h
  | succ fuel ih =>
    intro extended r s s' h
    replace h := BlockManager.get_ok h
    cases hqueue : s.allocated with
    | nil =>
      rw [hqueue] at h
      obtain ⟨rfl, rfl⟩ : extended = r ∧ s = s' := by simpa using h
      exact ⟨[], [], rfl, (List.append_nil _).symm, rfl, fun h => absurd rfl h⟩
    | cons t queue =>
      rw [hqueue] at h
      dsimp only at h
      obtain ⟨_, s₁, hmod, h⟩ := bind_ok.1 h
      obtain rfl : { s with allocated := queue } = s₁ := by simpa using hmod
      obtain ⟨ok, s₂, hext, h⟩ := bind_ok.1 h
      obtain ⟨hW₂, hA₂, -, -⟩ := control_eq ((try_extend_infer_task_keeps t _ _).of_ok hext)
      replace hW₂ : s₂.waiting = s.waiting := hW₂
      split at h
      · obtain ⟨_, s₃, hext', h⟩ := bind_ok.1 h
        obtain ⟨hW₃, hA₃, -, -⟩ := control_eq ((try_extend_infer_task_keeps t _ _).of_ok hext')
        obtain ⟨kept, gone, hA, hr, hW, -⟩ := ih h
        replace hA : queue.map f = kept ++ gone.reverse := by rw [← hA, hA₃, hA₂]
        refine ⟨f t :: kept, gone, by rw [List.map_cons, hA]; rfl, ?_, by rw [hW, hW₃, hW₂], fun _ => List.cons_ne_nil _ _⟩
        rw [hr, List.map_append, List.append_assoc]
        rfl
      · cases hlast : queue.getLast? with
        | some last =>
          simp only [hlast] at h
          obtain ⟨_, s₃, hmod₃, h⟩ := bind_ok.1 h
          obtain rfl : { s₂ with allocated := queue.dropLast } = s₃ := by simpa using hmod₃
          obtain ⟨t', s₄, hpre, h⟩ := bind_ok.1 h
          obtain ⟨hc, hid⟩ := preempt_infer_task_ok hpre
          obtain ⟨hW₄, hA₄, -, -⟩ := control_eq hc
          replace hW₄ : s₄.waiting = s₂.waiting := hW₄
          replace hA₄ : s₄.allocated = queue.dropLast := hA₄
          obtain ⟨_, s₅, hmod₅, h⟩ := bind_ok.1 h
          simp only [modify_apply, EStateM.Result.ok.injEq, true_and] at hmod₅
          obtain ⟨kept, gone, hA, hr, hW, hne⟩ := ih h
          rw [← hmod₅] at hA hW hne
          replace hA : (t :: queue.dropLast).map f = kept ++ gone.reverse := by rw [← hA, ← hA₄]
          refine ⟨kept, f last :: gone, ?_, hr, ?_, fun _ => hne (List.cons_ne_nil _ _)⟩
          · rw [List.reverse_cons, ← List.append_assoc, ← hA, ← List.dropLast_append_getLast? last hlast]
            simp
          · rw [hW, List.foldl_cons]
            show _ = gone.foldl (Turns.insert time) (Turns.insert time (s.waiting.map f) (f last))
            rw [map_insert_sorted htime, hW₄, hW₂, hf _ _ hid]
        | none =>
          simp only [hlast] at h
          obtain ⟨_, s₃, hwatch, -⟩ := bind_ok.1 h
          rw [hstuck] at hwatch
          cases (watch_ok hwatch).1

omit htime in
theorem admit_in_order_order (fuel : Nat) : ∀ {s s' : Scheduler}, admit_in_order fuel s = .ok .unit s' →
    ∃ adm, s.waiting.map f = adm ++ s'.waiting.map f ∧ s'.allocated.map f = s.allocated.map f ++ adm := by
  induction fuel with
  | zero => intro s s' h; simp [admit_in_order] at h
  | succ fuel ih =>
    intro s s' h
    replace h := BlockManager.get_ok h
    cases hW : s.waiting with
    | nil =>
      rw [hW] at h
      obtain rfl : s = s' := by simpa using h
      exact ⟨[], by rw [hW]; rfl, (List.append_nil _).symm⟩
    | cons t queue =>
      rw [hW] at h
      obtain ⟨_, s₁, hmod, h⟩ := bind_ok.1 h
      obtain rfl : { s with waiting := queue } = s₁ := by simpa using hmod
      obtain ⟨⟨ok, t'⟩, s₂, halloc, h⟩ := bind_ok.1 h
      obtain ⟨hc, hid⟩ := try_alloc_infer_task_ok halloc
      obtain ⟨hW₂, hA₂, -, -⟩ := control_eq hc
      replace hW₂ : s₂.waiting = queue := hW₂
      replace hA₂ : s₂.allocated = s.allocated := hA₂
      have ht : f t' = f t := hf _ _ hid
      dsimp only at h
      split at h
      · obtain ⟨_, s₃, hext, h⟩ := bind_ok.1 h
        obtain ⟨hW₃, hA₃, -, -⟩ := control_eq ((try_extend_infer_task_keeps t' _ _).of_ok hext)
        obtain ⟨_, s₄, hmod₄, h⟩ := bind_ok.1 h
        simp only [modify_apply, EStateM.Result.ok.injEq, true_and] at hmod₄
        obtain ⟨adm, hwait, halloc⟩ := ih h
        rw [← hmod₄] at hwait halloc
        replace hwait : queue.map f = adm ++ s'.waiting.map f := by rw [← hwait, hW₃, hW₂]
        refine ⟨f t :: adm, by rw [List.map_cons, hwait]; rfl, ?_⟩
        rw [halloc]
        show (s₃.allocated ++ [t']).map f ++ adm = _
        rw [hA₃, hA₂, List.map_append, List.append_assoc, List.map_singleton, ht]
        rfl
      · obtain rfl : { s₂ with waiting := t' :: s₂.waiting } = s' := by simpa using h
        refine ⟨[], ?_, by rw [List.append_nil, ← hA₂]⟩
        show _ = f t' :: s₂.waiting.map f
        rw [ht, hW₂]
        rfl

theorem phases_order (hstuck : ∀ t, Watch.stuck t = false) {s s' : Scheduler} (hreorder : s.enable_reorder = false)
    (h : phases s = .ok .unit s') : ∃ kept gone adm : List β, s.allocated.map f = kept ++ gone.reverse ∧
      adm ++ s'.waiting.map f = gone.foldl (Turns.insert time) (s.waiting.map f) ∧
      s'.allocated.map f = kept ++ adm ∧ (s.allocated ≠ [] → kept ≠ []) := by
  obtain ⟨_, s₁, hext, hadm⟩ := bind_ok.1 h
  have hreorder₁ : s₁.enable_reorder = false := by
    have hsettings := (extend_tasks_tally hext).2.1
    simp only [settings, Prod.mk.injEq] at hsettings
    exact hsettings.2.2.2.1.trans hreorder
  replace hext := BlockManager.get_ok hext
  obtain ⟨r, s₂, hloop, hmod⟩ := bind_ok.1 hext
  obtain rfl : { s₂ with allocated := r } = s₁ := by simpa using hmod
  obtain ⟨kept, gone, hA, hr, hW, hne⟩ := extend_allocated_order hf htime hstuck _ hloop
  replace hadm := BlockManager.get_ok hadm
  rw [if_neg (Bool.eq_false_iff.1 hreorder₁)] at hadm
  obtain ⟨adm, hwait, halloc⟩ := admit_in_order_order hf _ hadm
  refine ⟨kept, gone, adm, hA, by rw [← hW, hwait], ?_, hne⟩
  rw [halloc]
  show r.map f ++ adm = _
  rw [hr]
  rfl

end

/-! ### The first task -/

section
variable [Hasher] {i : Nat}

/-- The extension loop preempts tasks behind the first one only. -/
theorem extend_allocated_unpreempted (fuel : Nat) : ∀ {extended r : List InferTask} {s s' : Scheduler},
    (∀ u ∈ s.allocated.tail, i ∉ u.ids) → @extend_allocated _ .nothing fuel extended s = .ok r s' →
      @extend_allocated _ (unpreempted i) fuel extended s = .ok r s' := by
  induction fuel with
  | zero => intro extended r s s' _ h; simp [extend_allocated] at h
  | succ fuel ih =>
    intro extended r s s' htail h
    refine bind_ok.2 ⟨s, s, rfl, ?_⟩
    replace h := BlockManager.get_ok h
    cases hqueue : s.allocated with
    | nil =>
      rw [hqueue] at h
      exact h
    | cons t queue =>
      rw [hqueue] at h
      rw [hqueue, List.tail_cons] at htail
      obtain ⟨_, s₁, hmod, h⟩ := bind_ok.1 h
      obtain rfl : { s with allocated := queue } = s₁ := by simpa using hmod
      obtain ⟨ok, s₂, hext, h⟩ := bind_ok.1 h
      have hA₂ := (control_eq ((@try_extend_infer_task_keeps _ .nothing t _ _).of_ok hext)).2.1
      refine bind_ok.2 ⟨.unit, _, rfl, bind_ok.2 ⟨ok, s₂, hext, ?_⟩⟩
      split at h
      · rename_i hok
        obtain ⟨_, s₃, hext', h⟩ := bind_ok.1 h
        have hA₃ := (control_eq ((@try_extend_infer_task_keeps _ .nothing t _ _).of_ok hext')).2.1
        rw [if_pos hok]
        refine bind_ok.2 ⟨_, s₃, hext', ih (fun u hu => htail u ?_) h⟩
        rw [hA₃, hA₂] at hu
        exact List.mem_of_mem_tail hu
      · rename_i hok
        rw [if_neg hok]
        cases hlast : queue.getLast? with
        | some last =>
          simp only [hlast] at h ⊢
          obtain ⟨_, s₃, hmod₃, h⟩ := bind_ok.1 h
          obtain rfl : { s₂ with allocated := queue.dropLast } = s₃ := by simpa using hmod₃
          obtain ⟨t', s₄, hpre, h⟩ := bind_ok.1 h
          have hA₄ := (control_eq (@preempt_infer_task_ok .nothing _ _ _ _ hpre).1).2.1
          obtain ⟨_, s₅, hmod₅, h⟩ := bind_ok.1 h
          have hwatched : (unpreempted i).preempted last = true :=
            decide_eq_true (htail last (List.mem_of_getLast? hlast))
          refine bind_ok.2 ⟨.unit, _, rfl, bind_ok.2 ⟨t', s₄, ?_, bind_ok.2 ⟨_, s₅, hmod₅, ih (fun u hu => htail u ?_) h⟩⟩⟩
          · unfold preempt_infer_task at hpre ⊢
            rw [hwatched]
            exact hpre
          · simp only [modify_apply, EStateM.Result.ok.injEq, true_and] at hmod₅
            rw [← hmod₅] at hu
            replace hu : u ∈ s₄.allocated := hu
            rw [hA₄] at hu
            exact (List.dropLast_sublist queue).subset hu
        | none =>
          simp only [hlast] at h ⊢
          exact h

theorem admit_in_order_unpreempted (fuel : Nat) :
    @admit_in_order _ (unpreempted i) fuel = @admit_in_order _ .nothing fuel := by
  have halloc : ∀ w l, @try_alloc_loop _ (unpreempted i) w l = @try_alloc_loop _ .nothing w l := by
    intro w l
    induction l with
    | nil => rfl
    | cons seq l ih =>
      simp only [try_alloc_loop, ih]
      rfl
  have htask : ∀ t w, @try_alloc_infer_task _ (unpreempted i) t w .Gpu = @try_alloc_infer_task _ .nothing t w .Gpu :=
    fun t w => by simp only [try_alloc_infer_task, halloc]; rfl
  induction fuel with
  | zero => rfl
  | succ fuel ih =>
    simp only [admit_in_order, ih, htask]
    rfl

theorem unpreempted_first {s σ : Scheduler} {batch : Batch} (hreorder : s.enable_reorder = false)
    (htail : ∀ u ∈ s.allocated.tail, i ∉ u.ids) (h : @schedule _ .nothing s = .ok batch σ) :
    quits (unpreempted i) s = false := by
  suffices hwatched : @schedule _ (unpreempted i) s = .ok batch σ by rw [quits, hwatched]
  rw [@schedule_eq _ .nothing] at h
  rw [@schedule_eq _ (unpreempted i)]
  obtain ⟨_, s₁, hphases, h⟩ := bind_ok.1 h
  refine bind_ok.2 ⟨.unit, s₁, ?_, h⟩
  obtain ⟨_, s₂, hext, hadm⟩ := bind_ok.1 hphases
  have hreorder₂ : s₂.enable_reorder = false := by
    have hsettings := (@extend_tasks_tally _ .nothing _ _ hext).2.1
    simp only [settings, Prod.mk.injEq] at hsettings
    exact hsettings.2.2.2.1.trans hreorder
  replace hext := BlockManager.get_ok hext
  obtain ⟨r, s₃, hloop, hmod⟩ := bind_ok.1 hext
  replace hadm := BlockManager.get_ok hadm
  rw [if_neg (Bool.eq_false_iff.1 hreorder₂)] at hadm
  refine bind_ok.2 ⟨.unit, s₂, bind_ok.2 ⟨s, s, rfl, bind_ok.2 ⟨r, s₃, ?_, hmod⟩⟩, bind_ok.2 ⟨s₂, s₂, rfl, ?_⟩⟩
  · exact extend_allocated_unpreempted _ htail hloop
  · rw [if_neg (Bool.eq_false_iff.1 hreorder₂), admit_in_order_unpreempted]
    exact hadm

end

end Scheduler

end LMServe
