import LMServe.Watching

/-!
# What scheduling does to the managers

Scheduling reaches the managers through a few of their operations only, always on sequences of the
tasks in its queues: prefix lookup and allocation on admission, allocation on extension, `free` on
preemption, and moving the fill level on dispatch. A property of the managers that these keep
(`Kept`) is kept by every function of the scheduler on the way, and by `schedule`.
-/

namespace LMServe
open Hoare

/-- All errors allowed. -/
def AnyError (_ : Panic) : Prop := True

theorem watch_triple {σ : Type} {P : σ → Prop} {E : Panic → Prop} (hE : E .watched) (c : Bool) :
    Triple P (watch c) (fun _ => P) E :=
  Triple.ite (fun _ => Triple.pure fun _ h => h) fun _ => Triple.throw hE

namespace BlockManager

section
variable [Hasher] {P : BlockManager → Prop} {E : Panic → Prop}

theorem get_num_required_blocks_triple (seq : Sequence) :
    Triple P (get_num_required_blocks seq) (fun _ => P) AnyError := by
  refine Triple.get_bind fun m hm => ?_
  have hsub : ∀ a b, Triple (· = m) (checked_sub a b) (fun _ => P) AnyError := fun a b =>
    Triple.ite (fun _ => Triple.pure fun _ h => h ▸ hm) fun _ => Triple.throw trivial
  split
  · exact hsub _ _
  · exact hsub _ _

theorem can_alloc_seq_triple {seq : Sequence}
    (h : Triple P (get_num_required_blocks seq) (fun _ => P) E) (w : Watermark) :
    Triple P (can_alloc_seq seq w) (fun _ => P) E := by
  refine Triple.bind h fun k => ?_
  exact Triple.get_bind fun m hm => Triple.pure fun _ h => h ▸ hm

end

end BlockManager

/-- The sequences of the tasks are all among `K`. -/
def Known (K : List (Nat × List Nat)) (l : List InferTask) : Prop :=
  ∀ t ∈ l, ∀ seq ∈ t.seqs, seq.key ∈ K

section
variable {K : List (Nat × List Nat)} {l l' : List InferTask} {t : InferTask}

theorem Known.mono (h : Known K l) (hl : ∀ t ∈ l', t ∈ l) : Known K l' := fun t ht => h t (hl t ht)

theorem Known.cons (ht : ∀ seq ∈ t.seqs, seq.key ∈ K) (h : Known K l) : Known K (t :: l) := by
  intro u hu
  rcases List.mem_cons.1 hu with rfl | hu
  · exact ht
  · exact h u hu

theorem Known.append (h : Known K l) (h' : Known K l') : Known K (l ++ l') := by
  intro u hu
  rcases List.mem_append.1 hu with hu | hu
  · exact h u hu
  · exact h' u hu

theorem Known.insert_sorted (ht : ∀ seq ∈ t.seqs, seq.key ∈ K) (h : Known K l) :
    Known K (insert_sorted l t) :=
  (h.cons ht).mono fun _ hu => (insert_sorted_perm l t).mem_iff.1 hu

theorem known_of_keys {t' : InferTask} (h : t'.keys = t.keys) (ht : ∀ seq ∈ t.seqs, seq.key ∈ K) :
    ∀ seq ∈ t'.seqs, seq.key ∈ K := by
  intro seq hseq
  have hmem : seq.key ∈ t'.keys := List.mem_map.2 ⟨seq, hseq, rfl⟩
  rw [h] at hmem
  obtain ⟨seq', hseq', heq⟩ := List.mem_map.1 hmem
  rw [← heq]; exact ht seq' hseq'

theorem known_active (ht : ∀ seq ∈ t.seqs, seq.key ∈ K) : ∀ seq ∈ t.get_active_seqs, seq.key ∈ K :=
  fun seq hseq => ht seq (List.mem_filter.1 hseq).1

end

namespace Scheduler

/-- `I` is kept by what the two phases of `schedule` do on a device to the sequences in `K`, or they
stop with an error in `E`. -/
structure KeptByPhases [Hasher] (K : List (Nat × List Nat)) (I : Device → BlockManager → Prop)
    (E : Panic → Prop) : Prop where
  get_num_required_blocks : ∀ d {seq : Sequence}, seq.key ∈ K →
    Triple (I d) (BlockManager.get_num_required_blocks seq) (fun _ => I d) E
  alloc_blocks : ∀ d {seq : Sequence}, seq.key ∈ K →
    Triple (I d) (BlockManager.alloc_blocks seq) (fun _ => I d) E
  init_prefix : ∀ d {seq : Sequence}, seq.key ∈ K →
    Triple (I d) (BlockManager.init_prefix_cache_blocks seq) (fun _ => I d) E
  free : ∀ {seq : Sequence}, seq.key ∈ K →
    Triple (I .Gpu) (BlockManager.free seq.seq_id) (fun _ => I .Gpu) E
  outOfFuel : E .outOfFuel
  watched : E .watched

/-- The same with `dispatch`: `I` is kept by all of scheduling. -/
structure Kept [Hasher] (K : List (Nat × List Nat)) (I : Device → BlockManager → Prop)
    (E : Panic → Prop) : Prop extends KeptByPhases K I E where
  update_filled_len : ∀ d {seq : Sequence} (len : Nat), seq.key ∈ K →
    Triple (I d) (BlockManager.update_filled_len seq.seq_id len) (fun _ => I d) E

/-- `I` holds of every device's manager. -/
def OnDevices (I : Device → BlockManager → Prop) (s : Scheduler) : Prop :=
  ∀ d, I d (s.get_block_manager d)

/-- The same, and the queues hold known sequences only. -/
structure Sound (K : List (Nat × List Nat)) (I : Device → BlockManager → Prop) (s : Scheduler) :
    Prop where
  devices : OnDevices I s
  waiting : Known K s.waiting
  allocated : Known K s.allocated

section
variable {K : List (Nat × List Nat)} {I : Device → BlockManager → Prop} {E : Panic → Prop}

/-- What only touches the managers keeps the queues. -/
theorem Sound.of_control {s s' : Scheduler} (h : Sound K I s) (hc : s'.control = s.control)
    (hd : OnDevices I s') : Sound K I s' := by
  obtain ⟨hW, hA, -, -⟩ := control_eq hc
  exact ⟨hd, by rw [hW]; exact h.waiting, by rw [hA]; exact h.allocated⟩

theorem Sound.triple {α : Type} {x : SM α} (hk : Keeps control x)
    (hx : Triple (OnDevices I) x (fun _ => OnDevices I) E) :
    Triple (Sound K I) x (fun _ => Sound K I) E := by
  intro s hs
  have h1 := hx s hs.devices
  have h2 := hk s
  cases hrun : x s with
  | error e s' => rw [hrun] at h1; exact h1
  | ok a s' => rw [hrun] at h1 h2; exact hs.of_control h2 h1

theorem on_device_triple {α : Type} {d : Device} {x : BM α}
    (h : Triple (I d) x (fun _ => I d) E) :
    Triple (OnDevices I) (on_device d x) (fun _ => OnDevices I) E := by
  refine Triple.zoom fun s hs m hm => ?_
  have := h m (by rw [hm]; exact hs d)
  cases hrun : x m with
  | error e m' => rw [hrun] at this; exact this
  | ok a m' =>
    rw [hrun] at this
    intro d'
    rw [get_set_block_manager]
    split
    · rename_i hd; rw [hd]; exact this
    · exact hs d'

/-! ### Passes -/

/-- `J` holds, and the queues hold known sequences only. -/
structure Passing (K : List (Nat × List Nat)) (J : Scheduler → Prop) (s : Scheduler) : Prop where
  held : J s
  waiting : Known K s.waiting
  allocated : Known K s.allocated

/-- `J` does not look at the queues, and the passes and preemptions of the two phases of `schedule` keep it for
tasks of the sequences in `K`, or stop with an error in `E`. -/
structure HeldByPasses [Hasher] [Watch] (K : List (Nat × List Nat)) (J : Scheduler → Prop)
    (E : Panic → Prop) : Prop where
  queues : ∀ {s : Scheduler} (waiting allocated : List InferTask), J s →
    J { s with waiting := waiting, allocated := allocated }
  try_alloc : ∀ {t : InferTask} (w : Watermark), (∀ seq ∈ t.seqs, seq.key ∈ K) →
    Triple J (try_alloc_infer_task t w .Gpu) (fun _ => J) E
  try_extend : ∀ {t : InferTask} (w : Watermark) (d : Device), (∀ seq ∈ t.seqs, seq.key ∈ K) →
    Triple J (try_extend_infer_task t w d) (fun _ => J) E
  can_alloc : ∀ {t : InferTask} (k : Nat) (w : Watermark), (∀ seq ∈ t.seqs, seq.key ∈ K) →
    Triple J (can_alloc_infer_task t k w .Gpu) (fun _ => J) E
  preempt : ∀ {t : InferTask}, (∀ seq ∈ t.seqs, seq.key ∈ K) → Triple J (preempt_infer_task t) (fun _ => J) E
  outOfFuel : E .outOfFuel
  watched : E .watched

/-- The same of the second phase alone, which extends nothing on the GPU. -/
structure HeldByAdmission [Hasher] [Watch] (K : List (Nat × List Nat)) (J : Scheduler → Prop)
    (E : Panic → Prop) : Prop where
  queues : ∀ {s : Scheduler} (waiting allocated : List InferTask), J s →
    J { s with waiting := waiting, allocated := allocated }
  try_alloc : ∀ {t : InferTask} (w : Watermark), (∀ seq ∈ t.seqs, seq.key ∈ K) →
    Triple J (try_alloc_infer_task t w .Gpu) (fun _ => J) E
  mirror : ∀ {t : InferTask} (w : Watermark), (∀ seq ∈ t.seqs, seq.key ∈ K) →
    Triple J (try_extend_infer_task t w .Host) (fun _ => J) E
  can_alloc : ∀ {t : InferTask} (k : Nat) (w : Watermark), (∀ seq ∈ t.seqs, seq.key ∈ K) →
    Triple J (can_alloc_infer_task t k w .Gpu) (fun _ => J) E
  preempt : ∀ {t : InferTask}, (∀ seq ∈ t.seqs, seq.key ∈ K) → Triple J (preempt_infer_task t) (fun _ => J) E
  outOfFuel : E .outOfFuel
  watched : E .watched

section
variable {J : Scheduler → Prop}

theorem Passing.of_control {s s' : Scheduler} (h : Passing K J s) (hc : s'.control = s.control) (hJ : J s') :
    Passing K J s' := by
  obtain ⟨hW, hA, -, -⟩ := control_eq hc
  exact ⟨hJ, by rw [hW]; exact h.waiting, by rw [hA]; exact h.allocated⟩

theorem Passing.triple {α : Type} {x : SM α} (hk : Keeps control x) (hx : Triple J x (fun _ => J) E) :
    Triple (Passing K J) x (fun _ => Passing K J) E := by
  intro s hs
  have h1 := hx s hs.held
  have h2 := hk s
  cases hrun : x s with
  | error e s' => rw [hrun] at h1; exact h1
  | ok a s' => rw [hrun] at h1 h2; exact hs.of_control h2 h1

section
variable [Hasher] [Watch] (hA : HeldByAdmission K J E)
include hA

theorem HeldByAdmission.set {s : Scheduler} {waiting allocated : List InferTask} (h : J s) (hw : Known K waiting)
    (ha : Known K allocated) : Passing K J { s with waiting := waiting, allocated := allocated } :=
  ⟨hA.queues _ _ h, hw, ha⟩

theorem mirror_held (w : Watermark) {t : InferTask} (ht : ∀ seq ∈ t.seqs, seq.key ∈ K) :
    Triple (Passing K J) (try_extend_infer_task t w .Host) (fun _ => Passing K J) E :=
  Passing.triple (try_extend_infer_task_keeps t w .Host) (hA.mirror w ht)

theorem can_alloc_infer_task_held {t : InferTask} (ht : ∀ seq ∈ t.seqs, seq.key ∈ K) (k : Nat) (w : Watermark) :
    Triple (Passing K J) (can_alloc_infer_task t k w .Gpu) (fun _ => Passing K J) E :=
  Passing.triple (can_alloc_infer_task_keeps t k w .Gpu) (hA.can_alloc k w ht)

theorem try_alloc_infer_task_held (w : Watermark) {t : InferTask} (ht : ∀ seq ∈ t.seqs, seq.key ∈ K) :
    Triple (Passing K J) (try_alloc_infer_task t w .Gpu)
      (fun r s => Passing K J s ∧ ∀ seq ∈ r.2.seqs, seq.key ∈ K) E := by
  intro s hs
  have hpass := hA.try_alloc w ht s hs.held
  cases hrun : try_alloc_infer_task t w .Gpu s with
  | error e s' => rw [hrun] at hpass; exact hpass
  | ok r s' =>
    rw [hrun] at hpass
    obtain ⟨hc, hid⟩ := try_alloc_infer_task_ok hrun
    exact ⟨hs.of_control hc hpass, known_of_keys (InferTask.keys_of_ident hid) ht⟩

theorem preempt_infer_task_held {t : InferTask} (ht : ∀ seq ∈ t.seqs, seq.key ∈ K) :
    Triple (Passing K J) (preempt_infer_task t) (fun t' s => Passing K J s ∧ ∀ seq ∈ t'.seqs, seq.key ∈ K) E := by
  intro s hs
  have hfree := hA.preempt ht s hs.held
  cases hrun : preempt_infer_task t s with
  | error e s' => rw [hrun] at hfree; exact hfree
  | ok t' s' =>
    rw [hrun] at hfree
    obtain ⟨hc, hid⟩ := preempt_infer_task_ok hrun
    exact ⟨hs.of_control hc hfree, known_of_keys (InferTask.keys_of_ident hid) ht⟩

end

/-! ### The two phases -/

section
variable [Hasher] [Watch] (hA : HeldByAdmission K J E)
include hA

theorem admit_in_order_held (fuel : Nat) :
    Triple (Passing K J) (admit_in_order fuel) (fun _ => Passing K J) E := by
  induction fuel with
  | zero => exact Triple.throw hA.outOfFuel
  | succ fuel ih =>
    refine Triple.get_bind fun s hs => ?_
    cases hW : s.waiting with
    | nil => exact Triple.pure fun t ht => ht ▸ hs
    | cons t queue =>
      have hq := hs.waiting
      rw [hW] at hq
      have hqueue : Known K queue := hq.mono fun u hu => by simp [hu]
      refine Triple.bind (R := fun _ => Passing K J)
        (Triple.modify fun u hu => by subst hu; exact hA.set hs.held hqueue hs.allocated) fun _ => ?_
      refine Triple.bind (try_alloc_infer_task_held hA _ (hq t (by simp))) fun r => ?_
      refine Triple.ite (fun _ => ?_) fun _ =>
        Triple.modify fun u hu => hA.set hu.1.held (hu.1.waiting.cons hu.2) hu.1.allocated
      intro u hu
      refine Triple.bind (mirror_held hA _ hu.2) (fun _ => ?_) u hu.1
      refine Triple.bind (R := fun _ => Passing K J) (Triple.modify fun v hv => ?_) fun _ => ih
      exact hA.set hv.held hv.waiting (hv.allocated.append (Known.cons hu.2 fun w hw => by simp at hw))

theorem preempt_promoted_held {promoted : List InferTask} (hp : Known K promoted) :
    ∀ {t : InferTask}, (∀ seq ∈ t.seqs, seq.key ∈ K) →
    Triple (Passing K J) (preempt_promoted t promoted) (fun _ => Passing K J) E := by
  induction promoted with
  | nil => exact fun _ => watch_triple hA.watched _
  | cons u promoted ih =>
    intro t ht
    have hp' : Known K promoted := hp.mono fun v hv => by simp [hv]
    refine Triple.bind (preempt_infer_task_held hA (hp u (by simp))) fun u' => ?_
    refine Triple.bind (R := fun _ => Passing K J) (Triple.modify fun s hs =>
      hA.set hs.1.held (hs.1.waiting.insert_sorted hs.2) hs.1.allocated) fun _ => ?_
    refine Triple.get_bind fun s hs => ?_
    refine Triple.bind (Triple.pre (try_alloc_infer_task_held hA _ ht) fun s' h => h ▸ hs) fun r => ?_
    refine Triple.ite (fun _ => ?_) fun _ => fun s' hs' => ih hp' hs'.2 s' hs'.1
    intro s' hs'
    refine Triple.bind (mirror_held hA _ hs'.2) (fun _ => ?_) s' hs'.1
    refine Triple.modify fun v hv => hA.set hv.held hv.waiting (hv.allocated.append ?_)
    exact Known.cons hs'.2 (hp'.mono fun w hw => List.mem_reverse.1 hw)

theorem reorder_round_held {t : InferTask} (ht : ∀ seq ∈ t.seqs, seq.key ∈ K) :
    Triple (Passing K J) (reorder_round t) (fun back s => Passing K J s ∧ Known K back) E := by
  have hnil : Known K [] := fun u hu => by simp at hu
  refine Triple.get_bind fun s hs => ?_
  refine Triple.bind (Triple.pre (try_alloc_infer_task_held hA _ ht) fun s' h => h ▸ hs)
    fun ⟨ok, t'⟩ => ?_
  intro s₁ ⟨hs₁, ht'⟩
  refine Triple.ite (fun _ => ?_) (fun _ => ?_) s₁ hs₁
  · refine Triple.bind (mirror_held hA _ ht') fun _ => ?_
    refine Triple.bind (R := fun _ => Passing K J) (Triple.modify fun v hv =>
      hA.set hv.held hv.waiting (hv.allocated.insert_sorted ht')) fun _ => ?_
    exact Triple.pure fun v hv => ⟨hv, hnil⟩
  · refine Triple.get_bind fun s₂ hs₂ => ?_
    have hsplit := split_promoted_append t' s₂.allocated
    obtain ⟨hkept, hprom⟩ : Known K (split_promoted t' s₂.allocated).1 ∧
        Known K (split_promoted t' s₂.allocated).2 := by
      have hA := hs₂.allocated
      rw [← hsplit] at hA
      exact ⟨hA.mono fun u hu => by simp [hu], hA.mono fun u hu => by simp [hu]⟩
    have hback : Known K [t'] := Known.cons ht' hnil
    refine Triple.ite (fun _ => Triple.pure fun v hv => ⟨hv ▸ hs₂, hback⟩) fun _ => ?_
    refine Triple.bind (R := fun _ => Passing K J) (Triple.modify fun v hv => by
      subst hv; exact hA.set hs₂.held hs₂.waiting hkept) fun _ => ?_
    refine Triple.bind (can_alloc_infer_task_held hA ht' _ _) fun ok' => Triple.ite (fun _ => ?_)
      fun _ => ?_
    · refine Triple.bind (preempt_promoted_held hA (hprom.mono fun u hu => List.mem_reverse.1 hu) ht')
        fun _ => ?_
      exact Triple.pure fun v hv => ⟨hv, hnil⟩
    · refine Triple.bind (R := fun _ => Passing K J) (Triple.modify fun v hv =>
        hA.set hv.held hv.waiting (hv.allocated.append hprom)) fun _ => ?_
      exact Triple.pure fun v hv => ⟨hv, hback⟩

theorem reorder_loop_held (fuel : Nat) : ∀ {next : List InferTask}, Known K next →
    Triple (Passing K J) (reorder_loop fuel next) (fun r s => Passing K J s ∧ Known K r) E := by
  induction fuel with
  | zero => exact fun _ => Triple.throw hA.outOfFuel
  | succ fuel ih =>
    intro next hnext
    refine Triple.get_bind fun s hs => ?_
    cases hW : s.waiting with
    | nil => exact Triple.pure fun t ht => ⟨ht ▸ hs, hnext⟩
    | cons t queue =>
      have hq := hs.waiting
      rw [hW] at hq
      refine Triple.bind (R := fun _ => Passing K J) (Triple.modify fun u hu => by
        subst hu; exact hA.set hs.held (hq.mono fun v hv => by simp [hv]) hs.allocated) fun _ => ?_
      refine Triple.bind (reorder_round_held hA (hq t (by simp))) fun back => ?_
      exact fun u hu => ih (hnext.append hu.2) u hu.1

theorem admit_waiting_held : Triple (Passing K J) admit_waiting (fun _ => Passing K J) E := by
  refine Triple.get_bind fun s hs => Triple.ite (fun _ => ?_) fun _ =>
    Triple.pre (admit_in_order_held hA _) fun t ht => ht ▸ hs
  refine Triple.get_bind fun s' hs' => ?_
  refine Triple.bind (Triple.pre (reorder_loop_held hA _ fun u hu => by simp at hu) fun t ht => ?_)
    fun r => Triple.modify fun t ht => hA.set ht.1.held ht.2 ht.1.allocated
  rw [ht, hs']; exact hs

end

section
variable [Hasher] [Watch] (hJ : HeldByPasses K J E)
include hJ

theorem HeldByPasses.admission : HeldByAdmission K J E where
  queues := hJ.queues
  try_alloc := hJ.try_alloc
  mirror w ht := hJ.try_extend w .Host ht
  can_alloc := hJ.can_alloc
  preempt := hJ.preempt
  outOfFuel := hJ.outOfFuel
  watched := hJ.watched

theorem try_extend_infer_task_held (w : Watermark) (d : Device) {t : InferTask} (ht : ∀ seq ∈ t.seqs, seq.key ∈ K) :
    Triple (Passing K J) (try_extend_infer_task t w d) (fun _ => Passing K J) E :=
  Passing.triple (try_extend_infer_task_keeps t w d) (hJ.try_extend w d ht)

theorem extend_allocated_held (fuel : Nat) : ∀ {extended : List InferTask}, Known K extended →
    Triple (Passing K J) (extend_allocated fuel extended) (fun r s => Passing K J s ∧ Known K r) E := by
  induction fuel with
  | zero => exact fun _ => Triple.throw hJ.outOfFuel
  | succ fuel ih =>
    intro extended hE
    refine Triple.get_bind fun s hs => ?_
    cases hA : s.allocated with
    | nil => exact Triple.pure fun t ht => ⟨ht ▸ hs, hE⟩
    | cons t queue =>
      have hq := hs.allocated
      rw [hA] at hq
      have ht : ∀ seq ∈ t.seqs, seq.key ∈ K := hq t (by simp)
      have hqueue : Known K queue := hq.mono fun u hu => by simp [hu]
      refine Triple.bind (R := fun _ => Passing K J)
        (Triple.modify fun u hu => by subst hu; exact hJ.admission.set hs.held hs.waiting hqueue) fun _ => ?_
      refine Triple.bind (try_extend_infer_task_held hJ _ _ ht) fun ok => Triple.ite (fun _ => ?_)
        fun _ => ?_
      · refine Triple.bind (try_extend_infer_task_held hJ _ _ ht) fun _ => ?_
        exact ih (hE.append (Known.cons ht fun u hu => by simp at hu))
      · cases hlast : queue.getLast? with
        | some last =>
          have hlast : ∀ seq ∈ last.seqs, seq.key ∈ K := hqueue last (List.mem_of_getLast? hlast)
          refine Triple.bind (R := fun _ => Passing K J) (Triple.modify fun u hu =>
            hJ.admission.set hu.held hu.waiting (hqueue.mono fun v hv => List.dropLast_subset _ hv)) fun _ => ?_
          refine Triple.bind (preempt_infer_task_held hJ.admission hlast) fun t' => ?_
          refine Triple.bind (R := fun _ => Passing K J) (Triple.modify fun u hu =>
            hJ.admission.set hu.1.held (hu.1.waiting.insert_sorted hu.2) (hu.1.allocated.cons ht)) fun _ => ih hE
        | none =>
          refine Triple.bind (watch_triple hJ.watched _) fun _ => ?_
          refine Triple.bind (R := fun _ => Passing K J) (Triple.modify fun u hu =>
            hJ.admission.set hu.held (hu.waiting.insert_sorted ht) hu.allocated) fun _ => ?_
          exact Triple.pure fun u hu => ⟨hu, hE⟩

theorem extend_tasks_held : Triple (Passing K J) extend_tasks (fun _ => Passing K J) E := by
  refine Triple.get_bind fun s hs => ?_
  refine Triple.bind (Triple.pre (extend_allocated_held hJ _ fun u hu => by simp at hu)
    fun t ht => ht ▸ hs) fun r => ?_
  exact Triple.modify fun t ht => hJ.admission.set ht.1.held ht.1.waiting ht.2

theorem phases_held : Triple (Passing K J) phases (fun _ => Passing K J) E :=
  Triple.bind (extend_tasks_held hJ) fun _ => admit_waiting_held hJ.admission

end

end

/-! ### The operations of a pass -/

section
variable [Hasher] (hI : KeptByPhases K I E)
include hI

theorem try_extend_loop_kept (w : Watermark) (d : Device) {l : List Sequence}
    (hl : ∀ seq ∈ l, seq.key ∈ K) :
    Triple (I d) (try_extend_loop w l) (fun _ => I d) E := by
  induction l with
  | nil => exact Triple.pure fun _ h => h
  | cons seq l ih =>
    refine Triple.bind (BlockManager.can_alloc_seq_triple (hI.get_num_required_blocks d (hl seq (by simp))) w) fun ok => Triple.ite (fun _ => ?_)
      fun _ => Triple.pure fun _ h => h
    refine Triple.bind (hI.alloc_blocks d (hl seq (by simp))) fun _ => ?_
    exact Triple.bind (ih fun x hx => hl x (by simp [hx])) fun _ => Triple.pure fun _ h => h

theorem can_alloc_loop_kept (k : Nat) (w : Watermark) (d : Device) {l : List Sequence}
    (hl : ∀ seq ∈ l, seq.key ∈ K) : Triple (I d) (can_alloc_loop k w l) (fun _ => I d) E := by
  induction l with
  | nil => exact Triple.pure fun _ h => h
  | cons seq l ih =>
    refine Triple.bind (hI.get_num_required_blocks d (hl seq (by simp))) fun _ => ?_
    refine Triple.get_bind fun m hm => Triple.ite (fun _ => ?_) fun _ => Triple.pure fun m' h => h ▸ hm
    exact Triple.bind (Triple.pre (ih fun x hx => hl x (by simp [hx])) fun m' h => h ▸ hm) fun _ =>
      Triple.pure fun _ h => h

variable [Watch]

theorem try_alloc_loop_kept (w : Watermark) (d : Device) {l : List Sequence}
    (hl : ∀ seq ∈ l, seq.key ∈ K) :
    Triple (I d) (try_alloc_loop w l) (fun _ => I d) E := by
  induction l with
  | nil => exact Triple.pure fun _ h => h
  | cons seq l ih =>
    have ih := ih fun x hx => hl x (by simp [hx])
    have hseq := hl seq (by simp)
    refine Triple.ite (fun _ => ?_) fun _ => Triple.bind ih fun _ => Triple.pure fun _ h => h
    refine Triple.bind (hI.get_num_required_blocks d hseq) fun k => ?_
    refine Triple.get_bind fun m hm => Triple.ite (fun _ => ?_) fun _ => Triple.pure fun m' h => h ▸ hm
    refine Triple.get_bind fun m' hm' => ?_
    refine Triple.bind (R := fun _ => I d) (Triple.pre (watch_triple hI.watched _) fun m'' h => ?_) fun _ => ?_
    · rw [h, hm']; exact hm
    refine Triple.bind (hI.init_prefix d hseq) fun _ => Triple.bind (hI.alloc_blocks d hseq) fun _ => ?_
    exact Triple.bind ih fun _ => Triple.pure fun _ h => h

theorem KeptByPhases.held : HeldByPasses K (OnDevices I) E where
  queues _ _ h := fun d => by cases d; exacts [h .Gpu, h .Host, h .Disk]
  try_alloc w ht := Triple.bind (on_device_triple (try_alloc_loop_kept hI w _ ht)) fun _ =>
    Triple.bind (watch_triple hI.watched _) fun _ => Triple.pure fun _ h => h
  try_extend w d ht := Triple.bind (on_device_triple (try_extend_loop_kept hI w d (known_active ht))) fun _ =>
    Triple.bind (watch_triple hI.watched _) fun _ => Triple.pure fun _ h => h
  can_alloc k w ht := Triple.bind (on_device_triple (can_alloc_loop_kept hI k w _ (known_active ht))) fun _ =>
    Triple.pure fun _ h => h
  preempt ht := Triple.bind (watch_triple hI.watched _) fun _ => Triple.bind (triple_forM_mem fun seq hseq =>
    on_device_triple (hI.free (known_active ht seq hseq))) fun _ => Triple.pure fun _ h => h
  outOfFuel := hI.outOfFuel
  watched := hI.watched

theorem phases_kept : Triple (Sound K I) phases (fun _ => Sound K I) E :=
  Triple.conseq (phases_held hI.held) (fun _ h => ⟨h.devices, h.waiting, h.allocated⟩)
    (fun _ _ h => ⟨h.held, h.waiting, h.allocated⟩) fun _ h => h

end

/-! ### Dispatch -/

section
variable [Hasher] (hI : Kept K I E)
include hI

theorem plan_copy_kept {seq : Sequence} (hseq : seq.key ∈ K) (d d' : Device) (p : Bool)
    (l : List BlockMapping) :
    Triple (Sound K I) (plan_copy seq d d' p l) (fun _ => Sound K I) E := by
  refine Sound.triple (plan_copy_keeps seq d d' p l) (Triple.get_bind fun s hs => ?_)
  split
  · refine Triple.bind (Triple.pre (on_device_triple (hI.update_filled_len d' _ hseq))
      fun t ht => ht ▸ hs) fun _ => ?_
    exact Triple.pure fun _ h => h
  · exact Triple.pure fun t ht => ht ▸ hs

theorem dispatch_input_kept {seq : Sequence} (hseq : seq.key ∈ K) (acc : Batch) :
    Triple (Sound K I) (dispatch_input seq acc) (fun _ => Sound K I) E := by
  have hpure : ∀ {s : Scheduler} {b : Batch}, Sound K I s →
      Triple (· = s) (pure b : SM Batch) (fun _ => Sound K I) E :=
    fun hs => Triple.pure fun t ht => ht ▸ hs
  refine Triple.get_bind fun s hs => Triple.ite (fun _ => ?_) fun _ => hpure hs
  split
  · exact hpure hs
  · refine Triple.bind (R := fun _ => Sound K I) (Triple.pre (Sound.triple (on_device_keeps _ _)
      (on_device_triple (hI.update_filled_len _ _ hseq))) fun t ht => ht ▸ hs) fun _ => ?_
    exact Triple.bind (plan_copy_kept hI hseq _ _ _ _) fun _ => Triple.pure fun _ h => h

theorem dispatch_loop_kept {seqs : List Sequence} (hl : ∀ seq ∈ seqs, seq.key ∈ K) (acc : Batch) :
    Triple (Sound K I) (dispatch_loop seqs acc) (fun _ => Sound K I) E := by
  induction seqs generalizing acc with
  | nil => exact Triple.pure fun _ h => h
  | cons seq seqs ih =>
    refine Triple.get_bind fun s hs => Triple.ite (fun _ => Triple.pure fun t ht => ht ▸ hs)
      fun _ => ?_
    refine Triple.bind (Triple.pre (plan_copy_kept hI (hl seq (by simp)) _ _ _ _)
      fun t ht => ht ▸ hs) fun _ => ?_
    refine Triple.bind (dispatch_input_kept hI (hl seq (by simp)) _) fun acc => ?_
    exact ih (fun x hx => hl x (by simp [hx])) acc

theorem dispatch_kept : Triple (Sound K I) dispatch (fun _ => Sound K I) E := by
  refine Triple.get_bind fun s hs => Triple.pre (dispatch_loop_kept hI (fun seq hseq => ?_) _)
    fun t ht => ht ▸ hs
  obtain ⟨t, ht, hseq⟩ := List.mem_flatMap.1 hseq
  exact hs.allocated t ht seq (List.mem_filter.1 hseq).1

theorem schedule_kept [Watch] : Triple (Sound K I) schedule (fun _ => Sound K I) E := by
  rw [schedule_eq]
  refine Triple.bind (phases_kept hI.toKeptByPhases) fun _ => Triple.bind (dispatch_kept hI) fun batch => ?_
  refine Triple.bind (R := fun _ => Sound K I) (Triple.modify fun s hs =>
    ⟨hs.devices, hs.waiting, hs.allocated⟩) fun _ => ?_
  exact Triple.pure fun _ h => h

end

end

end Scheduler

end LMServe
