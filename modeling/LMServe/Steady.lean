import LMServe.Hosted
import LMServe.Samples
import LMServe.Admission
import LMServe.Reordering

/-!
# Rounds that end with a batch

An extension is backed by the map that the task has on the GPU since its admission (`heldStages`) and by the one it
has on the host since it was queued. So where every task has one sequence and every admission is backed, no phase of
a round runs out of blocks, and `dispatch` moves no fill level beyond the slots: `schedule` returns.
-/

namespace LMServe
open Hoare Ownership Chunk BlockManager

/-- Stops at an admission that is not backed, when the extension loop puts a task back with its blocks, and at what
only tasks of several sequences do: a pass that supplies some of the active sequences on the GPU, the preemption of a
task with a finished sequence. -/
abbrev steadyRounds [Hasher] : Watch where
  admission := fun m seq => m.backed seq
  pass := evenPasses.pass
  preempted := noLeftovers.preempted
  stuck := fun _ => false

section
variable [Hasher]

theorem steadyRounds_noLeftovers : steadyRounds.Stricter noLeftovers :=
  ⟨fun _ _ _ => rfl, fun _ _ => rfl, fun _ _ _ _ => rfl, fun _ h => h, fun _ h => h⟩

theorem steadyRounds_evenPasses : steadyRounds.Stricter evenPasses :=
  ⟨fun _ _ _ => rfl, fun _ _ => rfl, fun _ _ _ h => h, fun _ _ => rfl, fun _ _ => rfl⟩

end

/-! ### Maps on the GPU -/

/-- A task with active sequences, all of which have a map on the GPU. -/
def heldStage : Stage where
  holds := fun t f => t.get_active_seqs ≠ [] ∧ ∀ seq ∈ t.get_active_seqs, f seq.seq_id .Gpu ≠ none
  stable := fun {t f f'} hf h => by
    refine ⟨h.1, fun seq hseq hnone => ?_⟩
    have hsome := h.2 seq hseq
    rcases hf seq.seq_id (List.mem_map.2 ⟨seq, (List.mem_filter.1 hseq).1, rfl⟩) with heq | href
    · exact hsome (heq ▸ hnone)
    · obtain ⟨b, hb⟩ := Option.ne_none_iff_exists'.1 hsome
      obtain ⟨filled, hb', -⟩ := href.some hb
      rw [hb'] at hnone
      cases hnone

theorem SuppliedOn.held {t t' : InferTask} {f f' : Maps} (hsup : SuppliedOn .Gpu t.get_active_seqs f f')
    (hne : t.get_active_seqs ≠ []) (hids : t'.get_active_seqs.map (·.seq_id) = t.get_active_seqs.map (·.seq_id)) :
    heldStage.holds t' f' := by
  refine ⟨fun hnil => hne (List.map_eq_nil_iff.1 (by rw [← hids, hnil]; rfl)), fun x hx hnone => ?_⟩
  have hmem : x.seq_id ∈ t.get_active_seqs.map (·.seq_id) := hids ▸ List.mem_map.2 ⟨x, hx, rfl⟩
  obtain ⟨seq, hseq, hid⟩ := List.mem_map.1 hmem
  obtain ⟨b, hb, -⟩ := hsup.supplied.blocks seq hseq
  rw [← hid] at hnone
  exact absurd (hb.symm.trans hnone) (Option.some_ne_none b)

/-- Tasks in `allocated` have active sequences, and these have maps on the GPU. -/
def heldStages : @Lifecycle evenPasses :=
  letI := evenPasses
  { waiting := seqStage (fun _ _ => True) fun _ h => h
    allocated := heldStage
    ready := heldStage
    finished := seqStage (fun _ _ => True) fun _ h => h
    gone := fun _ => True
    gone_refilled := fun _ _ => trivial
    gone_none := trivial
    extend := fun {t f f' n} h hpass hpos _ hsup => by
      rw [pass_even hpass hpos, List.take_length] at hsup
      exact hsup.held h.1 rfl
    mirror := fun {t f f' n} _ h hsup => by
      refine ⟨h.1, fun seq hseq hnone => h.2 seq hseq ?_⟩
      rw [← hsup.elsewhere _ _ (by simp)]
      exact hnone
    admission := fun {t f f' n} _ hpass hpos hle hsup => by
      rw [pass_even hpass hpos, List.take_length] at hsup
      exact hsup.held (List.length_pos_iff.1 (hpos.trans_le hle)) (mark_allocated_active_ids n t.seqs)
    preempt := fun _ _ _ _ _ => trivial
    settle := fun h => h
    give_up := fun _ _ _ _ => trivial
    drop := fun _ _ _ _ => trivial
    create := fun _ _ _ => trivial
    look_up := fun _ _ _ _ => trivial
    update := fun {t t' f} h hupd => by
      split
      · exact fun _ _ => trivial
      · rename_i hnot
        refine ⟨fun hnil => hnot (InferTask.is_finished_iff.2 fun x hx => ?_), fun x hx => ?_⟩
        · have hdone := List.filter_eq_nil_iff.1 hnil x hx
          cases hst : x.status <;> simp [Sequence.is_active, Sequence.is_finished, hst] at hdone ⊢
        · obtain ⟨hx, hact⟩ := List.mem_filter.1 hx
          obtain ⟨seq, hseq, hu⟩ := hupd x hx
          rw [hu.seq_id]
          refine h.2 seq (List.mem_filter.2 ⟨hseq, ?_⟩)
          rcases hu.status with hst | ⟨-, hst⟩
          · simpa [Sequence.is_active, hst] using hact
          · simp [Sequence.is_active, hst] at hact
    remove := fun _ _ _ _ => trivial }

/-! ### Passes on one device -/

namespace BlockManager

/-- The page tables are kept, and the sequences in `l` have maps. -/
structure Mapped [Hasher] (Occ : List Nat → Prop) (tok : Nat → List Nat) (n : Nat) (ids rids : List Nat)
    (m₀ : BlockManager) (l : List Nat) (m : BlockManager) : Prop where
  owned : Owned SameLength Occ tok n ids rids m₀ m
  maps : ∀ i ∈ l, m.get_block_map i ≠ none

section
variable [Hasher] {Occ : List Nat → Prop} {tok : Nat → List Nat} {n lim : Nat} {rids l : List Nat}
  {m₀ m : BlockManager} {K : List (Nat × List Nat)} (hK : KeysOk Occ tok lim K) {seq : Sequence} {w : Watermark}
include hK

theorem Mapped.alloc_blocks (h : Mapped Occ tok n (K.map Prod.fst) rids m₀ l m) (hseq : seq.key ∈ K)
    (hsafe : ∀ m', alloc_blocks seq m ≠ .error .allBlocksInUse m') {E : Panic → Prop} :
    Triple (· = m) (alloc_blocks seq) (fun _ => Mapped Occ tok n (K.map Prod.fst) rids m₀ l) E := by
  rintro m' rfl
  cases hrun : BlockManager.alloc_blocks seq m' with
  | error e m'' =>
    have he := alloc_blocks_error (TokenRel.lengths Occ) h.owned.page (hK.tok _ hseq) hrun
    exact absurd (he ▸ hrun) (hsafe m'')
  | ok r m'' =>
    obtain ⟨b, hb, -⟩ := alloc_blocks_maps hrun
    exact ⟨(alloc_blocks_owned (TokenRel.lengths Occ) (List.mem_map.2 ⟨_, hseq, rfl⟩) (hK.tok _ hseq)
      (hK.occ _ hseq)).of_ok h.owned hrun, fun i hi => map_of_update (h.maps i hi) hb⟩

theorem Mapped.init_cached (h : Mapped Occ tok n (K.map Prod.fst) rids m₀ l m) (hseq : seq.key ∈ K)
    {E : Panic → Prop} : Triple (· = m) (init_prefix_cache_blocks seq)
      (fun _ m' => (∃ r, init_prefix_cache_blocks seq m = .ok r m') ∧
        Mapped Occ tok n (K.map Prod.fst) rids m₀ l m') E := by
  rintro m' rfl
  have hstep := init_prefix_cache_blocks_owned (E := E) (TokenRel.lengths Occ)
    (List.mem_map.2 ⟨_, hseq, rfl⟩ : seq.seq_id ∈ K.map Prod.fst) (hK.tok _ hseq) (hK.occ _ hseq) m' h.owned
  cases hrun : init_prefix_cache_blocks seq m' with
  | error e m'' => rw [hrun] at hstep; exact hstep
  | ok r m'' =>
    rw [hrun] at hstep
    obtain ⟨b, hb, -⟩ := init_prefix_cache_blocks_maps hrun
    exact ⟨⟨r, rfl⟩, hstep, fun i hi => map_of_update (h.maps i hi) hb⟩

omit hK in
theorem Mapped.free (hseq : seq.key ∈ K) (hfree : seq.seq_id ∉ l) {E : Panic → Prop} :
    Triple (Mapped Occ tok n (K.map Prod.fst) rids m₀ l) (free seq.seq_id)
      (fun _ => Mapped Occ tok n (K.map Prod.fst) rids m₀ l) E := by
  intro m h
  have hstep := free_owned (E := E) (List.mem_map.2 ⟨_, hseq, rfl⟩ : seq.seq_id ∈ K.map Prod.fst) m h.owned
  cases hrun : BlockManager.free seq.seq_id m with
  | error e m' => rw [hrun] at hstep; exact hstep
  | ok r m' =>
    rw [hrun] at hstep
    refine ⟨hstep, fun i hi => ?_⟩
    rw [free_maps hrun, Function.update_of_ne fun heq : i = seq.seq_id => hfree (heq ▸ hi)]
    exact h.maps i hi

theorem get_num_required_blocks_mapped (hseq : seq.key ∈ K) {E : Panic → Prop} :
    Triple (Mapped Occ tok n (K.map Prod.fst) rids m₀ l) (get_num_required_blocks seq)
      (fun k m => Mapped Occ tok n (K.map Prod.fst) rids m₀ l m ∧ get_num_required_blocks seq m = .ok k m) E := by
  intro m h
  obtain ⟨k, hk⟩ := get_num_required_blocks_returns h.owned.page (hK.tok _ hseq)
  rw [hk]
  exact ⟨h, hk⟩

omit hK in
theorem admission_check_of {k : Nat} (hk : get_num_required_blocks seq m = .ok k m)
    (hcan : m.can_alloc_blocks k w = true) : m.admission_check seq w = true := by
  unfold admission_check
  rw [hk]
  exact hcan

theorem can_alloc_seq_mapped (hseq : seq.key ∈ K) {E : Panic → Prop} :
    Triple (Mapped Occ tok n (K.map Prod.fst) rids m₀ l) (can_alloc_seq seq w) (fun ok m =>
      Mapped Occ tok n (K.map Prod.fst) rids m₀ l m ∧ (ok = true → m.admission_check seq w = true)) E := by
  refine Triple.bind (get_num_required_blocks_mapped hK hseq) fun k => Triple.get_bind fun m hm => ?_
  refine Triple.pure fun m' h => ?_
  obtain rfl : m' = m := h
  exact ⟨hm.1, admission_check_of hm.2⟩

theorem try_extend_loop_mapped {seqs : List Sequence} (hseqs : ∀ seq ∈ seqs, seq.key ∈ K ∧ seq.seq_id ∈ l)
    {E : Panic → Prop} : Triple (Mapped Occ tok n (K.map Prod.fst) rids m₀ l) (Scheduler.try_extend_loop w seqs)
      (fun _ => Mapped Occ tok n (K.map Prod.fst) rids m₀ l) E := by
  induction seqs with
  | nil => exact Triple.pure fun _ h => h
  | cons seq seqs ih =>
    obtain ⟨hseq, hmem⟩ := hseqs seq List.mem_cons_self
    refine Triple.bind (can_alloc_seq_mapped hK hseq) fun ok => Triple.ite (fun hok => ?_)
      fun _ => Triple.pure fun _ h => h.1
    intro m ⟨hm, hcheck⟩
    obtain ⟨b, hb⟩ := Option.ne_none_iff_exists'.1 (hm.maps _ hmem)
    refine Triple.bind (hm.alloc_blocks hK hseq fun _ => alloc_blocks_safe_of_map hm.owned.page hb (hcheck hok))
      (fun _ => ?_) m rfl
    exact Triple.bind (ih fun x hx => hseqs x (List.mem_cons_of_mem _ hx)) fun _ => Triple.pure fun _ h => h

theorem can_alloc_loop_mapped (k : Nat) {seqs : List Sequence} (hseqs : ∀ seq ∈ seqs, seq.key ∈ K)
    {E : Panic → Prop} : Triple (Mapped Occ tok n (K.map Prod.fst) rids m₀ l) (Scheduler.can_alloc_loop k w seqs)
      (fun _ => Mapped Occ tok n (K.map Prod.fst) rids m₀ l) E := by
  induction seqs with
  | nil => exact Triple.pure fun _ h => h
  | cons seq seqs ih =>
    refine Triple.bind (get_num_required_blocks_mapped hK (hseqs seq List.mem_cons_self)) fun _ => ?_
    refine Triple.get_bind fun m hm => Triple.ite (fun _ => ?_) fun _ => Triple.pure fun m' h => h ▸ hm.1
    refine Triple.bind (Triple.pre (ih fun x hx => hseqs x (List.mem_cons_of_mem _ hx)) fun m' h => h ▸ hm.1)
      fun _ => Triple.pure fun _ h => h

theorem try_alloc_loop_mapped {seqs : List Sequence} (hseqs : ∀ seq ∈ seqs, seq.key ∈ K) {E : Panic → Prop}
    (hE : E .watched) : Triple (Mapped Occ tok n (K.map Prod.fst) rids m₀ l)
      (@Scheduler.try_alloc_loop _ steadyRounds w seqs) (fun _ => Mapped Occ tok n (K.map Prod.fst) rids m₀ l) E := by
  induction seqs with
  | nil => exact Triple.pure fun _ h => h
  | cons seq seqs ih =>
    have hseq := hseqs seq List.mem_cons_self
    have hrest := ih fun x hx => hseqs x (List.mem_cons_of_mem _ hx)
    refine Triple.ite (fun _ => ?_) fun _ => Triple.bind hrest fun _ => Triple.pure fun _ h => h
    refine Triple.bind (get_num_required_blocks_mapped hK hseq) fun k => ?_
    refine Triple.get_bind fun m hm => Triple.ite (fun hcan => ?_) fun _ => Triple.pure fun m' h => h ▸ hm.1
    refine Triple.get_bind fun m' hm' => ?_
    obtain rfl : m' = m := hm'
    refine Triple.bind (R := fun _ m'' => m'' = m' ∧ m'.backed seq = true)
      (Triple.ite (fun hback => Triple.pure fun _ h => ⟨h, hback⟩) fun _ => Triple.throw hE) fun _ => ?_
    rintro m ⟨rfl, hback⟩
    have hsafe := (admission_safe_iff _ _ hm.1.owned.page).2 (fun _ => hback) (admission_check_of hm.2 hcan)
    refine Triple.bind (hm.1.init_cached hK hseq) (fun _ => ?_) m rfl
    rintro m₁ ⟨⟨r, hinit⟩, hm₁⟩
    refine Triple.bind (hm₁.alloc_blocks hK hseq fun m' hrun => hsafe m' ?_) (fun _ => ?_) m₁ rfl
    · unfold admit_seq
      rw [bind_apply, hinit]
      exact hrun
    · exact Triple.bind hrest fun _ => Triple.pure fun _ h => h

end

end BlockManager

/-! ### The phases -/

namespace Scheduler

section
variable [Watch] {t : InferTask}

theorem preempt_infer_task_allocated (t : InferTask) : Keeps (·.allocated) (preempt_infer_task t) :=
  (watch_keeps _ _).bind fun _ =>
    (Keeps.forM (fun _ => (on_device_keeps _ _).part (·.1.2.1)) _).bind fun _ => Keeps.pure _

variable [Hasher]

theorem try_extend_infer_task_allocated (t : InferTask) (w : Watermark) (d : Device) :
    Keeps (·.allocated) (try_extend_infer_task t w d) :=
  (try_extend_infer_task_keeps t w d).part (·.1.2.1)

/-- The extension loop, from what a pass and a preemption do to the tasks in its queue. -/
theorem extend_allocated_triple {J : List InferTask → Scheduler → Prop} {E : Panic → Prop}
    (hqueues : ∀ {l s} waiting allocated, J l s → J l { s with waiting := waiting, allocated := allocated })
    (hgpu : ∀ t queue w, Triple (J (t :: queue)) (try_extend_infer_task t w .Gpu) (fun _ => J (t :: queue)) E)
    (hhost : ∀ t queue w, Triple (J (t :: queue)) (try_extend_infer_task t w .Host) (fun _ => J queue) E)
    (hpreempt : ∀ t queue last, Triple (J (t :: (queue ++ [last]))) (preempt_infer_task last)
      (fun _ => J (t :: queue)) E) (hback : ∀ t s, J [t] s → J [] s) (hE : E .watched) (hfuel : E .outOfFuel)
    (fuel : Nat) : ∀ extended : List InferTask,
      Triple (fun s => J s.allocated s) (extend_allocated fuel extended) (fun _ => J []) E := by
  induction fuel with
  | zero => exact fun _ => Triple.throw hfuel
  | succ fuel ih =>
    intro extended
    refine Triple.get_bind fun s hs => ?_
    cases hA : s.allocated with
    | nil => exact Triple.pure fun s' h => h ▸ hA ▸ hs
    | cons t queue =>
      rw [hA] at hs
      refine Triple.bind (R := fun _ s => J (t :: queue) s ∧ s.allocated = queue)
        (Triple.modify fun s' h => h ▸ ⟨hqueues _ _ hs, rfl⟩) fun _ => ?_
      refine Triple.bind ((hgpu t queue _).frame (try_extend_infer_task_allocated _ _ _) (· = queue)) fun ok => ?_
      refine Triple.ite (fun _ => ?_) fun _ => ?_
      · refine Triple.bind ((hhost t queue _).frame (try_extend_infer_task_allocated _ _ _) (· = queue)) fun _ => ?_
        exact Triple.pre (ih _) fun s' h => h.2 ▸ h.1
      · cases hlast : queue.getLast? with
        | some last =>
          have hsplit := List.dropLast_append_getLast? last hlast
          refine Triple.bind (R := fun _ s => J (t :: (queue.dropLast ++ [last])) s ∧ s.allocated = queue.dropLast)
            (Triple.modify fun s' h => ⟨hqueues _ _ (by rw [hsplit]; exact h.1), rfl⟩) fun _ => ?_
          refine Triple.bind ((hpreempt t _ last).frame (preempt_infer_task_allocated _) (· = queue.dropLast))
            fun preempted => ?_
          refine Triple.bind (R := fun _ s => J s.allocated s)
            (Triple.modify fun s' h => h.2 ▸ hqueues _ _ h.1) fun _ => ih _
        | none =>
          rw [List.getLast?_eq_none_iff] at hlast
          refine Triple.bind (watch_triple hE _) fun _ => ?_
          refine Triple.bind (R := fun _ => J [])
            (Triple.modify fun s' h => hqueues _ _ (hback t s' (hlast ▸ h.1))) fun _ => Triple.pure fun _ h => h

theorem extend_tasks_triple {J : List InferTask → Scheduler → Prop} {E : Panic → Prop}
    (hqueues : ∀ {l s} waiting allocated, J l s → J l { s with waiting := waiting, allocated := allocated })
    (hloop : ∀ fuel, Triple (fun s => J s.allocated s) (extend_allocated fuel []) (fun _ => J []) E) :
    Triple (fun s => J s.allocated s) extend_tasks (fun _ => J []) E := by
  refine Triple.get_bind fun s hs => ?_
  refine Triple.bind (Triple.pre (hloop _) fun s' h => h ▸ hs) fun _ => ?_
  exact Triple.modify fun s' h => hqueues _ _ h

end

/-- The page tables of all devices are kept, the sequences `l` have maps on the GPU and all of `K` on the host. -/
def Hosting [Hasher] (Occ : List Nat → Prop) (c : SchedulerConfig) (tok : Nat → List Nat) (s₀ : Scheduler)
    (K : List (Nat × List Nat)) (l : List Nat) : Scheduler → Prop :=
  OnDevices fun d => Mapped Occ tok (c.num_blocks d) (K.map Prod.fst) [] (s₀.get_block_manager d) <|
    match d with
    | .Gpu => l
    | .Host => K.map Prod.fst
    | .Disk => []

section
variable [Hasher] {Occ : List Nat → Prop} {c : SchedulerConfig} {tok : Nat → List Nat} {lim : Nat} {s₀ s : Scheduler}
  {K : List (Nat × List Nat)} {l l' : List Nat} {t : InferTask}

theorem Hosting.mono (h : Hosting Occ c tok s₀ K l s) (hl : ∀ i ∈ l', i ∈ l) : Hosting Occ c tok s₀ K l' s
  | .Gpu => ⟨(h .Gpu).owned, fun i hi => (h .Gpu).maps i (hl i hi)⟩
  | .Host => h .Host
  | .Disk => h .Disk

theorem Hosting.congr {s' : Scheduler} (h : Hosting Occ c tok s₀ K l s)
    (hs : ∀ d, s'.get_block_manager d = s.get_block_manager d) : Hosting Occ c tok s₀ K l s' :=
  fun d => by rw [hs]; exact h d

variable (hK : KeysOk Occ tok lim K) (ht : ∀ seq ∈ t.seqs, seq.key ∈ K)
include hK ht

theorem extend_gpu_hosting (hl : ∀ seq ∈ t.get_active_seqs, seq.seq_id ∈ l) (w : Watermark) {E : Panic → Prop}
    (hE : E .watched) : Triple (Hosting Occ c tok s₀ K l) (@try_extend_infer_task _ steadyRounds t w .Gpu)
      (fun _ => Hosting Occ c tok s₀ K l) E := by
  refine Triple.bind (on_device_triple (try_extend_loop_mapped hK fun seq hseq =>
    ⟨known_active ht seq hseq, hl seq hseq⟩)) fun _ => ?_
  exact Triple.bind (watch_triple hE _) fun _ => Triple.pure fun _ h => h

theorem extend_host_hosting [Watch] (w : Watermark) {E : Panic → Prop} (hE : E .watched) :
    Triple (Hosting Occ c tok s₀ K l) (try_extend_infer_task t w .Host) (fun _ => Hosting Occ c tok s₀ K l) E := by
  refine Triple.bind (on_device_triple (try_extend_loop_mapped hK fun seq hseq =>
    ⟨known_active ht seq hseq, List.mem_map.2 ⟨_, known_active ht seq hseq, rfl⟩⟩)) fun _ => ?_
  exact Triple.bind (watch_triple hE _) fun _ => Triple.pure fun _ h => h

omit hK in
theorem preempt_hosting [Watch] (hl : ∀ seq ∈ t.get_active_seqs, seq.seq_id ∉ l) {E : Panic → Prop}
    (hE : E .watched) : Triple (Hosting Occ c tok s₀ K l) (preempt_infer_task t)
      (fun _ => Hosting Occ c tok s₀ K l) E := by
  refine Triple.bind (watch_triple hE _) fun _ => Triple.bind (triple_forM_mem fun seq hseq => ?_) fun _ =>
    Triple.pure fun _ h => h
  exact on_device_triple (Mapped.free (known_active ht seq hseq) (hl seq hseq))

end

/-- What the extension loop relies on: its tasks have distinct sequences, which have maps on the GPU. -/
structure Extensible [Hasher] (Occ : List Nat → Prop) (c : SchedulerConfig) (tok : Nat → List Nat) (s₀ : Scheduler)
    (K : List (Nat × List Nat)) (tasks : List InferTask) (s : Scheduler) : Prop where
  hosting : Hosting Occ c tok s₀ K (active_ids tasks) s
  known : Known K tasks
  nodup : (active_ids tasks).Nodup

section
variable [Hasher] {Occ : List Nat → Prop} {c : SchedulerConfig} {tok : Nat → List Nat} {lim : Nat} {s₀ s s' : Scheduler}
  {K : List (Nat × List Nat)} {tasks tasks' : List InferTask}

/-- The phases stop for a watched condition, or for lack of rounds. -/
def Quits (e : Panic) : Prop := e = .watched ∨ e = .outOfFuel

theorem Extensible.sublist (h : Extensible Occ c tok s₀ K tasks s) (hsub : tasks'.Sublist tasks) :
    Extensible Occ c tok s₀ K tasks' s where
  hosting := h.hosting.mono fun _ hi => (hsub.flatMap _).subset hi
  known := h.known.mono fun _ hu => hsub.subset hu
  nodup := (hsub.flatMap _).nodup h.nodup

variable (hK : KeysOk Occ tok lim K)
include hK

theorem extend_tasks_extensible : Triple (fun s => Extensible Occ c tok s₀ K s.allocated s)
    (@extend_tasks _ steadyRounds) (fun _ => Extensible Occ c tok s₀ K []) Quits := by
  have hqueues : ∀ {tasks s} waiting allocated, Extensible Occ c tok s₀ K tasks s →
      Extensible Occ c tok s₀ K tasks { s with waiting := waiting, allocated := allocated } := fun _ _ h =>
    ⟨h.hosting.congr fun d => by cases d <;> rfl, h.known, h.nodup⟩
  let _ := steadyRounds
  refine extend_tasks_triple (J := Extensible Occ c tok s₀ K) hqueues fun fuel => extend_allocated_triple hqueues
    (fun t queue w s h => ?_) (fun t queue w s h => ?_) (fun t queue last s h => ?_)
    (fun t s h => h.sublist (List.nil_sublist _)) (.inl rfl) (.inr rfl) fuel []
  · have ht : ∀ seq ∈ t.seqs, seq.key ∈ K := h.known t List.mem_cons_self
    exact (extend_gpu_hosting hK ht (fun seq => mem_active_ids List.mem_cons_self) w (.inl rfl)).post
      (fun _ _ hs => ⟨hs, h.known, h.nodup⟩) s h.hosting
  · have ht : ∀ seq ∈ t.seqs, seq.key ∈ K := h.known t List.mem_cons_self
    exact (extend_host_hosting hK ht w (.inl rfl)).post
      (fun _ _ hs => (Extensible.mk hs h.known h.nodup).sublist (List.sublist_cons_self _ _)) s h.hosting
  · -- the queue loses its last task first, then this task its maps
    have hlast : ∀ seq ∈ last.seqs, seq.key ∈ K := h.known last (by simp)
    have hsub : (t :: queue).Sublist (t :: (queue ++ [last])) := (List.sublist_append_left _ _).cons_cons t
    have hrest := h.sublist hsub
    have hfree : ∀ seq ∈ last.get_active_seqs, seq.seq_id ∉ active_ids (t :: queue) := fun seq hseq hmem => by
      have hnd := h.nodup
      rw [show t :: (queue ++ [last]) = (t :: queue) ++ [last] from rfl, active_ids, List.flatMap_append,
        List.nodup_append] at hnd
      exact hnd.2.2 _ hmem _ (mem_active_ids (List.mem_singleton_self last) hseq) rfl
    exact (preempt_hosting hlast hfree (.inl rfl)).post
      (fun _ _ hs => ⟨hs, hrest.known, hrest.nodup⟩) s hrest.hosting

/-- Admission needs no maps on the GPU. -/
theorem admission_hosting : @HeldByAdmission _ steadyRounds K (Hosting Occ c tok s₀ K []) Quits := by
  let _ := steadyRounds
  exact {
    queues := fun _ _ h => h.congr fun d => by cases d <;> rfl
    try_alloc := fun w ht => Triple.bind (on_device_triple (try_alloc_loop_mapped hK ht (.inl rfl))) fun _ =>
      Triple.bind (watch_triple (.inl rfl) _) fun _ => Triple.pure fun _ h => h
    mirror := fun w ht => extend_host_hosting hK ht w (.inl rfl)
    can_alloc := fun k w ht => Triple.bind (on_device_triple (can_alloc_loop_mapped hK k (known_active ht))) fun _ =>
      Triple.pure fun _ h => h
    preempt := fun ht => preempt_hosting ht (fun _ _ => List.not_mem_nil) (.inl rfl)
    outOfFuel := .inr rfl
    watched := .inl rfl }

theorem extend_tasks_passing (hs : Extensible Occ c tok s₀ K s.allocated s) (hW : Known K s.waiting)
    (hrun : @extend_tasks _ steadyRounds s = .ok .unit s') : Passing K (Hosting Occ c tok s₀ K []) s' := by
  have hknown : ∀ u ∈ s'.waiting ++ s'.allocated, ∀ seq ∈ u.seqs, seq.key ∈ K := fun u hu => by
    obtain ⟨-, -, hT⟩ := @extend_tasks_tally _ steadyRounds _ _ hrun
    have hle := Nat.le_of_eq (hT u.ident)
    rw [← tally_append, ← tally_append] at hle
    obtain ⟨t, ht, hid⟩ := exists_of_tally hle hu
    exact known_of_keys (InferTask.keys_of_ident hid).symm (hW.append hs.known t ht)
  exact ⟨((extend_tasks_extensible hK).of_ok hs hrun).hosting, fun u hu => hknown u (List.mem_append_left _ hu),
    fun u hu => hknown u (List.mem_append_right _ hu)⟩

theorem phases_quits (hs : Extensible Occ c tok s₀ K s.allocated s) (hW : Known K s.waiting) {e : Panic}
    (hrun : @phases _ steadyRounds s = .error e s') : Quits e := by
  rcases bind_error.1 hrun with hext | ⟨_, s₁, hext, hadm⟩
  · exact (extend_tasks_extensible hK).of_error hs hext
  · exact (@admit_waiting_held _ _ _ _ steadyRounds (admission_hosting hK)).of_error
      (extend_tasks_passing hK hs hW hext) hadm

end

end Scheduler

/-! ### Runs -/

/-- A run in which all rounds are steady and all prefixes of sequences are in `Occ`. -/
abbrev SteadyRun [Hasher] (Occ : List Nat → Prop) (c : SchedulerConfig) (ops : List Op) (s : System) : Prop :=
  Run (fun s op s' => (Op.Step s op s' ∧ op.careful steadyRounds s = true) ∧ s'.Occurring Occ) (System.new c) ops s

namespace System

section
variable [Hasher] {Occ : List Nat → Prop} {c : SchedulerConfig} {ops : List Op} {s : System} {σ : Scheduler}

theorem reachable_of_steady (h : SteadyRun Occ c ops s) : Reachable c s := ⟨ops, h.mono fun _ _ _ hs => hs.1.1⟩

/-- A lifecycle for weaker conditions. -/
theorem inv_of_steady {W : Watch} (hW : steadyRounds.Stricter W) (L : @Lifecycle W) (h : SteadyRun Occ c ops s) :
    @Lifecycle.Inv W L s :=
  Lifecycle.Inv.run W L (h.mono fun _ _ _ hs => ⟨hs.1.1, Op.careful_of_stricter hW hs.1.2⟩)

theorem phases_of_steady {W : Watch} (hW : steadyRounds.Stricter W) (L : @Lifecycle W) (h : SteadyRun Occ c ops s)
    (hc : Op.schedule.careful steadyRounds s = true) (hrun : @Scheduler.phases _ .nothing s.scheduler = .ok .unit σ) :
    @Lifecycle.Holds W L s.next_seq_id (tag (@Lifecycle.ready W L) σ.allocated ++ (tag (@Lifecycle.waiting W L) σ.waiting ++
      (tag (@Lifecycle.waiting W L) s.parked ++ tag (@Lifecycle.finished W L) s.finished))) σ.maps :=
  @Lifecycle.Inv.phases W L s σ _ (inv_of_steady hW L h)
    (Scheduler.phases_watched W (by simpa [Op.careful] using Op.careful_of_stricter hW hc) hrun)

theorem extensible_of_steady {tok : Nat → List Nat} (hinv : SysInv SameLength Occ (fun _ => True) c tok s)
    (h : SteadyRun Occ c ops s) (hlone : ∀ t ∈ s.scheduler.waiting ++ s.scheduler.allocated, t.Lone) :
    Scheduler.Extensible Occ c tok s.scheduler (LMServe.keys (s.scheduler.waiting ++ s.scheduler.allocated))
      s.scheduler.allocated s.scheduler := by
  have hheld := inv_of_steady steadyRounds_evenPasses heldStages h
  refine ⟨fun d => ⟨Owned.refl (hinv.devices d trivial).page, ?_⟩, fun t ht seq hseq =>
    key_mem_keys (List.mem_append_right _ ht) hseq, ?_⟩
  · cases d with
    | Gpu =>
      intro i hi
      obtain ⟨t, ht, hi⟩ := List.mem_flatMap.1 hi
      obtain ⟨seq, hseq, rfl⟩ := List.mem_map.1 hi
      exact (hheld.holds (@Lifecycle.allocated evenPasses heldStages, t)
        (List.mem_append_left _ (mem_tag.2 ⟨rfl, ht⟩))).2 seq hseq
    | Host =>
      intro i hi
      obtain ⟨p, hp, rfl⟩ := List.mem_map.1 hi
      obtain ⟨t, ht, hp⟩ := List.mem_flatMap.1 hp
      obtain ⟨seq, hseq, rfl⟩ := List.mem_map.1 hp
      exact hosted_of_reachable (reachable_of_steady h) t ht (hlone t ht) _ (List.mem_map.2 ⟨seq, hseq, rfl⟩)
    | Disk => exact fun i hi => absurd hi List.not_mem_nil
  · have hnd := hinv.keys_queues.nodup
    rw [keys_append, List.map_append] at hnd
    exact (Scheduler.active_ids_sublist _).nodup (List.nodup_append.1 hnd).2.1

theorem sysInv_of_steady (hz : ∀ P, Occ P → compute_hash P ≠ 0) (h : SteadyRun Occ c ops s) :
    ∃ tok, SysInv SameLength Occ (fun _ => True) c tok s :=
  SysInv.run (TokenRel.lengths Occ) (fun _ _ _ => hz) (h.mono fun _ _ _ hs => ⟨hs.1.1, hs.2⟩)

theorem phases_return (hz : ∀ P, Occ P → compute_hash P ≠ 0) (h : SteadyRun Occ c ops s)
    (hlone : ∀ t ∈ s.scheduler.waiting ++ s.scheduler.allocated, t.Lone)
    (hc : Op.schedule.careful steadyRounds s = true) : ∃ σ, @Scheduler.phases _ steadyRounds s.scheduler = .ok .unit σ := by
  obtain ⟨tok, hinv⟩ := sysInv_of_steady hz h
  cases hrun : @Scheduler.phases _ steadyRounds s.scheduler with
  | ok u σ => exact ⟨σ, rfl⟩
  | error e σ =>
    rcases Scheduler.phases_quits hinv.keys_queues (extensible_of_steady hinv h hlone)
      (fun t ht seq hseq => key_mem_keys (List.mem_append_left _ ht) hseq) hrun with rfl | rfl
    · have hquits : Scheduler.quits steadyRounds s.scheduler = true := by
        rw [Scheduler.quits, @Scheduler.schedule_eq _ steadyRounds, bind_apply, hrun]
      simp [Op.careful, hquits] at hc
    · rcases Scheduler.phases_guarded (Watch.stricter_nothing steadyRounds) s.scheduler with heq | ⟨s', hwatched⟩
      · exact absurd (heq.symm.trans hrun) (Scheduler.phases_bounded _ _)
      · rw [hrun] at hwatched
        cases hwatched

theorem dispatchable_of_steady (h : SteadyRun Occ c ops s) (hc : Op.schedule.careful steadyRounds s = true)
    (hrun : Scheduler.phases s.scheduler = .ok .unit σ) {t : InferTask} (ht : t ∈ σ.allocated) {seq : Sequence}
    (hseq : seq ∈ t.seqs) (hact : seq.is_active = true) :
    seq.status = .Allocated ∧ Scheduler.Dispatchable σ.maps seq := by
  have hready := (phases_of_steady steadyRounds_evenPasses sampleStages h hc hrun).holds
    (@Lifecycle.ready evenPasses sampleStages, t) (List.mem_append_left _ (mem_tag.2 ⟨rfl, ht⟩))
  exact ⟨((hready seq hseq).2 hact).1, (hready seq hseq).1, ((hready seq hseq).2 hact).2⟩

theorem dispatch_return (h : SteadyRun Occ c ops s) (hc : Op.schedule.careful steadyRounds s = true)
    (hrun : Scheduler.phases s.scheduler = .ok .unit σ) : ∃ batch σ', Scheduler.dispatch σ = .ok batch σ' := by
  cases hdis : Scheduler.dispatch σ with
  | ok batch σ' => exact ⟨batch, σ', rfl⟩
  | error e σ' =>
    refine absurd (Scheduler.dispatch_stops _ _ _ hdis) (Scheduler.dispatch_within
      (phases_within (reachable_of_steady h) hrun) (fun t ht seq hseq => ?_) hdis)
    obtain ⟨hmem, hst⟩ := List.mem_filter.1 hseq
    exact (dispatchable_of_steady h hc hrun ht hmem (by simpa [Sequence.is_active] using .inr (by simpa using hst))).2

end

end System

end LMServe
