import LMServe.Residency

/-!
# Tasks with several samples

A pass that supplies some active sequences of a task on the GPU and not the others counts as a
success. Where no pass is of that kind (`evenPasses`), every task that a round leaves in `allocated`
has all its active sequences in status `Allocated` with a slot on the GPU for each of their tokens
(`sampleStages`), and dispatching it never moves a fill level beyond the slots.
-/

namespace LMServe
open Hoare Ownership Chunk

/-- Stops when a pass has given blocks on the GPU to some active sequences of a task and not to all. -/
abbrev evenPasses : Watch where
  pass := fun d t n => d ≠ .Gpu || n = 0 || n = t.get_active_seqs.length

/-- All the tokens of the sequence have slots on the GPU. -/
def Fully (seq : Sequence) (m : Device → Option BlockMap) : Prop :=
  ∃ b, m .Gpu = some b ∧ b.num_allocated_slots = seq.token_ids.length

theorem Fully.refilled {seq : Sequence} {m m' : Device → Option BlockMap} (h : Fully seq m)
    (hm : Refilled m m') : Fully seq m' := by
  obtain ⟨b, hb, hslots⟩ := h
  obtain ⟨filled, hb', -⟩ := hm.some hb
  exact ⟨_, hb', hslots⟩

/-- The host has no more slots for the sequence than it has tokens. -/
def HostSized (seq : Sequence) (m : Device → Option BlockMap) : Prop :=
  Sized seq.token_ids.length (m .Host)

section
variable {t : InferTask} {f f' : Maps} {n : Nat}

theorem SuppliedOn.host (h : SuppliedOn .Gpu (t.get_active_seqs.take n) f f') (seq : Sequence)
    (hseq : HostSized seq (f seq.seq_id)) : HostSized seq (f' seq.seq_id) := by
  unfold HostSized
  rw [h.elsewhere _ _ (by simp)]; exact hseq

/-- A pass on the host keeps the maps there within the tokens. -/
theorem SuppliedOn.mirrored (hnd : t.ids.Nodup) (h : SuppliedOn .Host (t.get_active_seqs.take n) f f')
    {seq : Sequence} (hseq : seq ∈ t.seqs) (hsized : HostSized seq (f seq.seq_id)) :
    HostSized seq (f' seq.seq_id) := by
  unfold HostSized
  by_cases hmem : seq.seq_id ∈ (t.get_active_seqs.take n).map (·.seq_id)
  · obtain ⟨seq', hseq', hid⟩ := List.mem_map.1 hmem
    have hin : seq' ∈ t.seqs := (List.mem_filter.1 (List.mem_of_mem_take hseq')).1
    obtain rfl : seq' = seq := List.inj_on_of_nodup_map hnd hin hseq hid
    obtain ⟨b, hb, hslots, hfilled⟩ := h.supplied.blocks seq' hseq'
    rw [hb]
    exact sized_some.2 ⟨hslots ▸ hfilled hsized, Nat.le_of_eq hslots⟩
  · rw [h.supplied.others _ hmem]; exact hsized

theorem pass_even (h : @Watch.pass evenPasses .Gpu t n = true) (hpos : 0 < n) :
    n = t.get_active_seqs.length := by
  have h : (decide (Device.Gpu ≠ .Gpu) || decide (n = 0) || decide (n = t.get_active_seqs.length)) = true := h
  simp only [ne_eq, not_true_eq_false, decide_false, Bool.false_or, Bool.or_eq_true,
    decide_eq_true_eq] at h
  omega

end

/-- See the module doc. -/
def sampleStages : @Lifecycle evenPasses :=
  letI := evenPasses
  { waiting := seqStage (fun seq m => HostSized seq m ∧ (seq.status = .Waiting → m .Gpu = none))
      fun href h => ⟨href.sized h.1, fun hw => href.of_none (h.2 hw)⟩
    allocated := seqStage (fun seq m => HostSized seq m ∧ (seq.is_active = true → seq.status = .Allocated))
      fun href h => ⟨href.sized h.1, h.2⟩
    ready := seqStage (fun seq m => HostSized seq m ∧
        (seq.is_active = true → seq.status = .Allocated ∧ Fully seq m))
      fun href h => ⟨href.sized h.1, fun ha => ⟨(h.2 ha).1, (h.2 ha).2.refilled href⟩⟩
    finished := seqStage (fun seq _ => seq.status ≠ .Waiting) fun _ h => h
    gone := fun _ => True
    gone_refilled := fun _ _ => trivial
    gone_none := trivial
    extend := fun {t f f' n} h hpass hpos _ hsup seq hseq => by
      refine ⟨hsup.host seq (h seq hseq).1, fun hact => ⟨(h seq hseq).2 hact, ?_⟩⟩
      rw [pass_even hpass hpos, List.take_length] at hsup
      obtain ⟨b, hb, hslots, -⟩ := hsup.supplied.blocks seq (List.mem_filter.2 ⟨hseq, hact⟩)
      exact ⟨b, hb, hslots⟩
    mirror := fun {t f f' n} hnd h hsup seq hseq => by
      refine ⟨hsup.mirrored hnd hseq (h seq hseq).1, fun hact => ⟨((h seq hseq).2 hact).1, ?_⟩⟩
      obtain ⟨b, hb, hslots⟩ := ((h seq hseq).2 hact).2
      exact ⟨b, (hsup.elsewhere _ _ (by simp)).trans hb, hslots⟩
    admission := fun {t f f' n} h hpass hpos _ hsup x hx => by
      have hhost : HostSized x (f' x.seq_id) := by
        rcases mem_mark_allocated hx with hx | ⟨seq, hseq, rfl⟩
        · exact hsup.host x (h x hx).1
        · exact hsup.host seq (h seq (List.mem_filter.1 hseq).1).1
      refine ⟨hhost, fun hact => ?_⟩
      rw [pass_even hpass hpos] at hx
      rw [pass_even hpass hpos, List.take_length] at hsup
      obtain ⟨seq, hseq, rfl⟩ := mark_allocated_all hx hact
      obtain ⟨b, hb, hslots, -⟩ := hsup.supplied.blocks seq hseq
      exact ⟨rfl, b, hb, hslots⟩
    preempt := fun {t f f'} h _ hfreed x hx => by
      have hhost : ∀ seq ∈ t.seqs, HostSized seq (f' seq.seq_id) := fun seq hseq => by
        unfold HostSized
        rw [hfreed.others _ _ (.inr (by simp))]; exact (h seq hseq).1
      rcases t.mem_back hx with ⟨seq, hseq, rfl⟩ | ⟨hx, hact⟩
      · exact ⟨hhost seq (List.mem_filter.1 hseq).1, fun _ => hfreed.freed seq hseq⟩
      · exact ⟨hhost x hx, fun hw => absurd (by simp [Sequence.is_active, hw]) hact⟩
    settle := fun h seq hseq => ⟨(h seq hseq).1, fun hact => ((h seq hseq).2 hact).1⟩
    give_up := fun h _ seq hseq => by
      refine ⟨(h seq hseq).1, fun hw => ?_⟩
      have := (h seq hseq).2 (by simp [Sequence.is_active, hw])
      rw [hw] at this; cases this
    drop := fun _ _ _ _ => trivial
    create := fun h seq hseq => by
      unfold HostSized
      rw [(h seq hseq).2]
      exact ⟨Sized.none _, fun _ => rfl⟩
    look_up := fun h hlook seq hseq => ⟨hlook.sized seq hseq _ (h seq hseq).1,
      fun hw => (hlook.gpu _).trans ((h seq hseq).2 hw)⟩
    update := fun {t t' f} h hupd => by
      split
      · rename_i hfin
        intro x hx hw
        have := InferTask.is_finished_iff.1 hfin x hx
        simp [Sequence.is_finished, hw] at this
      · intro x hx
        obtain ⟨seq, hseq, hu⟩ := hupd x hx
        refine ⟨?_, fun hact => ?_⟩
        · unfold HostSized
          rw [hu.seq_id]
          exact (h seq hseq).1.mono hu.tokens.length_le
        · rcases hu.status with hst | ⟨-, hst⟩
          · rw [hst]
            exact (h seq hseq).2 (by simpa [Sequence.is_active, hst] using hact)
          · simp [Sequence.is_active, hst] at hact
    remove := fun _ _ _ _ => trivial }

/-! ### Fill levels in dispatch -/

/-- No block has more tokens than fit. -/
def BlockManager.Within (m : BlockManager) : Prop := ∀ b, (m.tokens b).length ≤ m.block_size

/-- A range ends at the fill level at the latest, and without its last, partial block within its
bounds. -/
theorem BlockManager.get_block_ids_range_last {m : BlockManager} {i start stop k : Nat} {p : Bool}
    {ids : List Nat} (h : m.get_block_ids_range i start stop p = some (ids, k)) :
    k ≤ m.get_filled_token_len i ∧ (m.Within → p = false → k ≤ stop) := by
  unfold get_block_ids_range at h
  dsimp only at h
  split at h
  · cases h
  · rename_i hlt
    cases hm : m.get_block_map i with
    | none => simp only [hm] at h; cases h
    | some map =>
      simp only [hm] at h
      split at h
      · cases h
      · rename_i hlen
        simp only [Option.some.injEq, Prod.mk.injEq] at h
        refine ⟨by rw [← h.2, get_filled_token_len, hm]; exact Nat.min_le_right _ _, fun hw hp => ?_⟩
        subst hp
        simp only [Bool.toNat_false, Nat.add_zero] at hlt h
        obtain ⟨e, he⟩ : ∃ e, e = min (stop / m.block_size) map.block_ids.length := ⟨_, rfl⟩
        rw [← he] at h
        have htokens := hw (map.block_ids.getD (e - 1) 0)
        have hstop : e * m.block_size ≤ stop :=
          (Nat.mul_le_mul_right _ (he ▸ Nat.min_le_left _ _)).trans (Nat.div_mul_le_self _ _)
        have hpos : 0 < e := by
          rw [he]
          exact Nat.lt_min.2 ⟨Nat.zero_lt_of_lt (Nat.lt_of_not_le hlt), Nat.zero_lt_of_lt (Nat.lt_of_not_le hlen)⟩
        have hsplit : (e - 1) * m.block_size + m.block_size = e * m.block_size := by
          rw [← Nat.succ_mul, Nat.succ_eq_add_one, Nat.sub_add_cancel hpos]
        have hk : k ≤ (e - 1) * m.block_size + (m.tokens (map.block_ids.getD (e - 1) 0)).length := by
          rw [← h.2]; exact Nat.min_le_left _ _
        omega

namespace Scheduler

theorem copy_blocks_last {s : Scheduler} {seq : Sequence} {d d' : Device} {p : Bool} {l : BlockMapping}
    {k : Nat} (h : s.copy_blocks seq d d' p = some (l, k)) :
    k ≤ (s.get_block_manager d).get_filled_token_len seq.seq_id ∧
      ((s.get_block_manager d).Within → p = false →
        k ≤ (s.get_block_manager d').get_num_allocated_slots seq.seq_id) := by
  unfold copy_blocks at h
  dsimp only at h
  split at h
  · split at h
    · rename_i hsrc _
      obtain ⟨-, rfl⟩ := Prod.mk.inj (Option.some.inj h)
      obtain ⟨hfilled, hstop⟩ := BlockManager.get_block_ids_range_last hsrc
      exact ⟨hfilled, fun hw hp => (hstop hw hp).trans (Nat.min_le_right _ _)⟩
    · cases h
  · cases h

section
variable {f : Maps} {s : Scheduler} {seq : Sequence}

/-- The state of a dispatch: fill levels have moved since `f`. -/
structure Dispatching (f : Maps) (s : Scheduler) : Prop where
  refilled : RefilledFrom f s
  within : s.gpu_block_manager.Within

/-- The sequence is ready to be dispatched. -/
def Dispatchable (f : Maps) (seq : Sequence) : Prop :=
  HostSized seq (f seq.seq_id) ∧ Fully seq (f seq.seq_id)

theorem update_filled_len_dispatching {d : Device} {i len : Nat} (hs : Dispatching f s)
    (hlen : ∀ b, s.maps i d = some b → len ≤ b.num_allocated_slots) :
    Triple (· = s) (on_device d (BlockManager.update_filled_len i len))
      (fun _ => Dispatching f) BlockManager.WithinSlots := by
  intro t ht
  subst ht
  cases hrun : on_device d (BlockManager.update_filled_len i len) t with
  | error e t' =>
    obtain ⟨m, hm, -⟩ := zoom_error.1 hrun
    exfalso
    rcases bind_error.1 hm with hget | ⟨a, m₁, hget, hrest⟩
    · cases hget
    · obtain ⟨rfl, rfl⟩ : t.get_block_manager d = a ∧ t.get_block_manager d = m₁ := by simpa using hget
      cases hmap : (t.get_block_manager d).get_block_map i with
      | none => rw [hmap] at hrest; cases hrest
      | some b =>
        rw [hmap] at hrest
        dsimp only at hrest
        rw [if_pos (hlen b hmap)] at hrest
        cases hrest
  | ok a t' =>
    refine ⟨(update_filled_len_refilled f d i len).of_ok hs.refilled hrun, ?_⟩
    obtain ⟨m, hm, rfl⟩ := on_device_ok hrun
    have hsame : Keeps (fun m : BlockManager => (m.block_allocator, m.block_size))
        (BlockManager.update_filled_len i len) := by
      refine Keeps.get.bind fun m => ?_
      split
      · exact Keeps.pure _
      · exact Keeps.ite (Keeps.modify fun _ => rfl) (Keeps.throw _)
    cases d with
    | Gpu =>
      obtain ⟨halloc, hbs⟩ := Prod.mk.inj (hsame.of_ok hm)
      intro b
      have := hs.within b
      unfold BlockManager.tokens BlockManager.get_block at this ⊢
      rw [show (t.set_block_manager .Gpu m).gpu_block_manager = m from rfl, halloc, hbs]
      exact this
    | Host => exact hs.within
    | Disk => exact hs.within

theorem Dispatching.maps (hs : Dispatching f s) (hseq : Dispatchable f seq) :
    HostSized seq (s.maps seq.seq_id) ∧ Fully seq (s.maps seq.seq_id) :=
  ⟨(hs.refilled seq.seq_id).sized hseq.1, hseq.2.refilled (hs.refilled seq.seq_id)⟩

theorem plan_fetch_dispatching (hseq : Dispatchable f seq) (l : List BlockMapping) :
    Triple (Dispatching f) (plan_copy seq .Host .Gpu true l) (fun _ => Dispatching f)
      BlockManager.WithinSlots := by
  refine Triple.get_bind fun s hs => ?_
  split
  · rename_i mapping k hcopy
    refine Triple.bind (update_filled_len_dispatching hs fun b hb => ?_) fun _ => Triple.pure fun _ h => h
    -- filled on the host, hence a token of the sequence
    obtain ⟨hhost, b', hb', hslots⟩ := hs.maps hseq
    obtain rfl : b = b' := Option.some.inj (hb.symm.trans hb')
    have hk := (copy_blocks_last hcopy).1
    rw [hslots]
    refine hk.trans ?_
    unfold BlockManager.get_filled_token_len
    cases hm : (s.get_block_manager .Host).get_block_map seq.seq_id with
    | none => exact Nat.zero_le _
    | some m =>
      unfold HostSized at hhost
      rw [show s.maps seq.seq_id .Host = some m from hm, sized_some] at hhost
      exact hhost.1.trans hhost.2
  · exact Triple.pure fun t ht => ht ▸ hs

theorem plan_write_dispatching (l : List BlockMapping) :
    Triple (Dispatching f) (plan_copy seq .Gpu .Host false l) (fun _ => Dispatching f)
      BlockManager.WithinSlots := by
  refine Triple.get_bind fun s hs => ?_
  split
  · rename_i mapping k hcopy
    refine Triple.bind (update_filled_len_dispatching hs fun b hb => ?_) fun _ => Triple.pure fun _ h => h
    have hk := (copy_blocks_last hcopy).2 hs.within rfl
    unfold BlockManager.get_num_allocated_slots at hk
    rw [show (s.get_block_manager .Host).get_block_map seq.seq_id = some b from hb] at hk
    exact hk
  · exact Triple.pure fun t ht => ht ▸ hs

theorem dispatch_input_dispatching (hseq : Dispatchable f seq) (acc : Batch) :
    Triple (Dispatching f) (dispatch_input seq acc) (fun _ => Dispatching f) BlockManager.WithinSlots := by
  have hpure : ∀ {s : Scheduler} {b : Batch}, Dispatching f s →
      Triple (· = s) (pure b : SM Batch) (fun _ => Dispatching f) BlockManager.WithinSlots :=
    fun hs => Triple.pure fun t ht => ht ▸ hs
  refine Triple.get_bind fun s hs => Triple.ite (fun _ => ?_) fun _ => hpure hs
  split
  · exact hpure hs
  · refine Triple.bind (update_filled_len_dispatching hs fun b hb => ?_) fun _ =>
      Triple.bind (plan_write_dispatching _) fun _ => Triple.pure fun _ h => h
    obtain ⟨-, b', hb', hslots⟩ := hs.maps hseq
    obtain rfl : b = b' := Option.some.inj (hb.symm.trans hb')
    rw [hslots, length_slice]
    omega

/-- Dispatching the sequences of a ready queue moves no fill level beyond the slots. -/
theorem dispatch_within {σ σ' : Scheduler} {e : Panic} (hwithin : σ.gpu_block_manager.Within)
    (hready : ∀ t ∈ σ.allocated, ∀ seq ∈ t.get_seqs .Allocated, Dispatchable σ.maps seq)
    (hrun : dispatch σ = .error e σ') : e ≠ .filledBeyondSlots := by
  have hdispatch : Triple (· = σ) dispatch (fun _ _ => True) BlockManager.WithinSlots := by
    refine Triple.get_bind fun s hs => ?_
    have hstart : Dispatching σ.maps σ := ⟨fun _ => Refilled.refl _, hwithin⟩
    subst hs
    have hseqs : ∀ seq ∈ s.allocated.flatMap (·.get_seqs .Allocated), Dispatchable s.maps seq := by
      intro seq hseq
      obtain ⟨t, ht, hseq⟩ := List.mem_flatMap.1 hseq
      exact hready t ht seq hseq
    refine Triple.conseq (dispatch_loop_triple (I := Dispatching s.maps)
      (fun seq hseq l => plan_fetch_dispatching (hseqs seq hseq) l)
      (fun seq hseq acc => dispatch_input_dispatching (hseqs seq hseq) acc) _) (fun t ht => ht ▸ hstart)
      (fun _ _ _ => trivial) fun _ h => h
  exact hdispatch.of_error rfl hrun

end

end Scheduler

/-! ### The phases -/

namespace Scheduler

section
variable [Hasher]

/-- Whatever the phases do to a manager, it is not the assertion on the fill level that stops them. -/
theorem withinSlots_keptByPhases (K : List (Nat × List Nat)) :
    KeptByPhases K (fun _ _ => True) BlockManager.WithinSlots where
  get_num_required_blocks _ seq _ := ((BlockManager.get_num_required_blocks_stops seq).mono
    fun _ => BlockManager.Allocating.withinSlots).triple
  alloc_blocks _ seq _ := ((BlockManager.alloc_blocks_stops seq).mono
    fun _ => BlockManager.Allocating.withinSlots).triple
  init_prefix _ seq _ := ((BlockManager.init_prefix_cache_blocks_stops seq).mono
    fun _ h => (BlockManager.allocating_of_elementary h).withinSlots).triple
  free {seq} _ := ((BlockManager.free_stops seq.seq_id).mono
    fun _ h => (BlockManager.allocating_of_elementary h).withinSlots).triple
  outOfFuel := by simp [BlockManager.WithinSlots]
  watched := by simp [BlockManager.WithinSlots]

theorem phases_stops [Watch] : Stops BlockManager.WithinSlots phases := by
  intro s e s' hrun
  have hsound : Sound (keys (s.waiting ++ s.allocated)) (fun _ _ => True) s :=
    ⟨fun _ => trivial, fun t ht seq hseq => key_mem_keys (List.mem_append_left _ ht) hseq,
      fun t ht seq hseq => key_mem_keys (List.mem_append_right _ ht) hseq⟩
  have hkept := withinSlots_keptByPhases (keys (s.waiting ++ s.allocated))
  exact (phases_kept hkept).of_error hsound hrun

end

end Scheduler

namespace System

section
variable [Hasher] {c : SchedulerConfig} {s : System} {σ : Scheduler}

theorem SysInv.phases_sound [Watch] {R : List Nat → List Nat → Prop} {Occ : List Nat → Prop} {D : Device → Prop}
    {tok : Nat → List Nat} (hR : TokenRel R Occ) (hinv : SysInv R Occ D c tok s)
    (hrun : Scheduler.phases s.scheduler = .ok .unit σ) :
    Scheduler.Sound (LMServe.keys (s.scheduler.waiting ++ s.scheduler.allocated)) (Near R Occ D c tok s.scheduler
      ((LMServe.keys (s.scheduler.waiting ++ s.scheduler.allocated)).map Prod.fst) fun _ => []) σ := by
  have hkept : Scheduler.KeptByPhases _ (Near R Occ D c tok s.scheduler _ fun _ => []) (Safe D) :=
    (kept_near hR hinv.keys_queues).toKeptByPhases
  exact (Scheduler.phases_kept hkept).of_ok ⟨hinv.start,
      fun t ht seq hseq => key_mem_keys (List.mem_append_left _ ht) hseq,
      fun t ht seq hseq => key_mem_keys (List.mem_append_right _ ht) hseq⟩ hrun

theorem phases_within [Watch] (h : Reachable c s) (hrun : Scheduler.phases s.scheduler = .ok .unit σ) :
    σ.gpu_block_manager.Within := by
  obtain ⟨tok, hinv⟩ := reachable_gpu h
  exact ((hinv.phases_sound (TokenRel.lengths _) hrun).devices .Gpu rfl).page.capacity

/-- In every run in which no pass supplies some active sequences of a task on the GPU and not the
others: no sequence in status `Waiting` has blocks there; after the phases of the next round, if it is
of that kind too, the active sequences of every task in `allocated` all have status `Allocated` and
exactly as many slots as tokens; and no step ends with the assertion on the fill level. -/
theorem run_samples {ops : List Op}
    (h : Run (fun s op s' => Op.Step s op s' ∧ op.careful evenPasses s = true) (System.new c) ops s) :
    (∀ t ∈ s.tasks, ∀ seq ∈ t.seqs, seq.status = .Waiting →
      s.scheduler.gpu_block_manager.get_block_map seq.seq_id = none) ∧
    (Op.schedule.careful evenPasses s = true → ∀ σ, Scheduler.phases s.scheduler = .ok .unit σ →
      (∀ t ∈ σ.allocated, t.get_seqs .Allocated = t.get_active_seqs ∧ ∀ seq ∈ t.get_active_seqs,
        ∃ m, σ.gpu_block_manager.get_block_map seq.seq_id = some m ∧
          m.num_allocated_slots = seq.token_ids.length) ∧
      ∀ t ∈ σ.waiting ++ σ.allocated, ∀ seq ∈ t.seqs, seq.status = .Waiting →
        σ.gpu_block_manager.get_block_map seq.seq_id = none) ∧
    ∀ (op : Op) e s', op.careful evenPasses s = true → op.exec s = .error e s' → e ≠ .filledBeyondSlots := by
  have hinv := Lifecycle.Inv.run evenPasses sampleStages h
  have hreach : Reachable c s := ⟨ops, h.mono fun _ _ _ hs => hs.1⟩
  have hwaiting : ∀ {seq : Sequence}, seq.status = .Waiting → seq.is_active = true := fun hw => by
    simp [Sequence.is_active, hw]
  have hphases : Op.schedule.careful evenPasses s = true → ∀ σ,
      Scheduler.phases s.scheduler = .ok .unit σ → _ := fun hc σ hσ =>
    @Lifecycle.Inv.phases evenPasses sampleStages s σ _ hinv
      (Scheduler.phases_watched evenPasses (by simpa [Op.careful] using hc) hσ)
  have hready : Op.schedule.careful evenPasses s = true → ∀ σ,
      Scheduler.phases s.scheduler = .ok .unit σ → ∀ t ∈ σ.allocated, ∀ seq ∈ t.seqs,
        HostSized seq (σ.maps seq.seq_id) ∧
          (seq.is_active = true → seq.status = .Allocated ∧ Fully seq (σ.maps seq.seq_id)) := by
    intro hc σ hσ t ht
    exact (hphases hc σ hσ).holds (@Lifecycle.ready evenPasses sampleStages, t)
      (List.mem_append_left _ (mem_tag.2 ⟨rfl, ht⟩))
  refine ⟨fun t ht seq hseq hw => ?_, fun hc σ hσ => ⟨fun t ht => ⟨?_, fun seq hseq => ?_⟩,
    fun t ht seq hseq hw => ?_⟩, fun op e s' hc herr => ?_⟩
  · simp only [tasks, List.mem_append] at ht
    rcases ht with (((ht | ht) | ht) | ht) | ht
    · exact (hinv.holds (@Lifecycle.waiting evenPasses sampleStages, t) (List.mem_append_right _
        (List.mem_append_left _ (mem_tag.2 ⟨rfl, ht⟩))) seq hseq).2 hw
    · have := (hinv.holds (@Lifecycle.allocated evenPasses sampleStages, t)
        (List.mem_append_left _ (mem_tag.2 ⟨rfl, ht⟩)) seq hseq).2 (hwaiting hw)
      rw [hw] at this; cases this
    · exact (hinv.holds (@Lifecycle.waiting evenPasses sampleStages, t) (List.mem_append_right _
        (List.mem_append_right _ (List.mem_append_left _
          (mem_tag.2 ⟨rfl, List.mem_append_left _ ht⟩)))) seq hseq).2 hw
    · exact (hinv.holds (@Lifecycle.waiting evenPasses sampleStages, t) (List.mem_append_right _
        (List.mem_append_right _ (List.mem_append_left _
          (mem_tag.2 ⟨rfl, List.mem_append_right _ ht⟩)))) seq hseq).2 hw
    · exact absurd hw (hinv.holds (@Lifecycle.finished evenPasses sampleStages, t) (List.mem_append_right _
        (List.mem_append_right _ (List.mem_append_right _ (mem_tag.2 ⟨rfl, ht⟩)))) seq hseq)
  · refine List.filter_congr fun seq hseq => ?_
    cases hact : seq.is_active with
    | true => rw [((hready hc σ hσ t ht seq hseq).2 hact).1]; rfl
    | false =>
      simp only [decide_eq_false_iff_not]
      intro hst
      simp [Sequence.is_active, hst] at hact
  · obtain ⟨hmem, hact⟩ := List.mem_filter.1 hseq
    exact ((hready hc σ hσ t ht seq hmem).2 hact).2
  · rcases List.mem_append.1 ht with ht | ht
    · exact ((hphases hc σ hσ).holds (@Lifecycle.waiting evenPasses sampleStages, t)
        (List.mem_append_right _ (List.mem_append_left _ (mem_tag.2 ⟨rfl, ht⟩))) seq hseq).2 hw
    · have := ((hready hc σ hσ t ht seq hseq).2 (hwaiting hw)).1
      rw [hw] at this; cases this
  · by_cases hop : op = .schedule
    · subst hop
      rcases bind_error.1 herr with hsch | ⟨_, _, -, hret⟩
      · obtain ⟨σ, hσ, -⟩ := zoom_error.1 hsch
        rw [Scheduler.schedule_eq] at hσ
        rcases bind_error.1 hσ with hph | ⟨_, σ₁, hph, hσ⟩
        · exact Scheduler.phases_stops _ _ _ hph
        · rcases bind_error.1 hσ with hdis | ⟨_, σ₂, -, hσ⟩
          · refine Scheduler.dispatch_within (phases_within hreach hph) (fun t ht seq hseq => ?_) hdis
            obtain ⟨hmem, hst⟩ := List.mem_filter.1 hseq
            obtain ⟨hhost, hall⟩ := hready hc σ₁ hph t ht seq hmem
            exact ⟨hhost, (hall (by simpa [Sequence.is_active] using .inr (by simpa using hst))).2⟩
          · rcases bind_error.1 hσ with hmod | ⟨_, _, -, hret⟩
            · cases hmod
            · cases hret
      · cases hret
    · exact (exec_stops hop _ _ _ herr).2

end

/-- Four blocks for two samples: they share the prompt's block and get one more each. -/
theorem run_samples_two :
    let _ := decimalHasher
    ∃ s, Run (fun s op s' => Op.Step s op s' ∧ op.careful evenPasses s = true) (System.new (smallConfig 4))
        [prompt 5 2, .schedule, results [(0, 7), (1, 8)] 0] s ∧
      ∃ σ, Scheduler.phases s.scheduler = .ok .unit σ ∧ σ.allocated.map (·.ids) = [[0, 1]] ∧
        ∀ t ∈ σ.allocated, t.get_seqs .Allocated = t.get_active_seqs := by
  let _ := decimalHasher
  have hfollow : (Run.follow (fun s op => if op.careful evenPasses s then Op.next s op else none)
      (System.new (smallConfig 4)) [prompt 5 2, .schedule, results [(0, 7), (1, 8)] 0]).any
      (fun s => Op.schedule.careful evenPasses s && match Scheduler.phases s.scheduler with
        | .ok _ σ => σ.allocated.map (·.ids) = [[0, 1]]
        | .error _ _ => false) = true := by decide +kernel
  obtain ⟨s, hrun, hs⟩ := Run.exists_of_follow (fun _ _ _ => Op.step_of_careful_next evenPasses) hfollow
  obtain ⟨hcareful, hs⟩ := Bool.and_eq_true_iff.1 hs
  refine ⟨s, hrun, ?_⟩
  cases hσ : Scheduler.phases s.scheduler with
  | error e σ => rw [hσ] at hs; cases hs
  | ok a σ =>
    rw [hσ] at hs
    exact ⟨σ, rfl, by simpa using hs, fun t ht =>
      (((run_samples hrun).2.1 hcareful σ hσ).1 t ht).1⟩

/-- Block size 2 and three blocks. -/
def pairConfig : SchedulerConfig := ⟨8, 64, 16, 2, Nat.two_pos, 3, 0, 0, false, Scheduler.defaultWatermark⟩

/-- After the two phases a task in `allocated` has an active sequence in status `Waiting`. -/
def leaves_waiting [Hasher] (s : System) : Bool :=
  match Scheduler.phases s.scheduler with
  | .ok _ σ => σ.allocated.any fun t => t.get_active_seqs.any fun seq => seq.status = .Waiting
  | .error _ _ => false

/-- The next round ends with the panic. -/
def panics [Hasher] (e : Panic) (s : System) : Bool :=
  match Scheduler.schedule s.scheduler with
  | .ok _ _ => false
  | .error e' _ => e' = e

/-- Two samples of three tokens, with room for the first one only: the task is in `allocated` and its
second sample still in status `Waiting`. Two samples that share one of two blocks: extension gives the
free block to the first sample, and dispatching the second one, which has a slot too few, ends with the
assertion. -/
theorem run_uneven :
    let _ := decimalHasher
    (∃ s σ t seq, Run Op.Step (System.new pairConfig) [.add_request ⟨5, [1, 2, 3], 2, none, false, false⟩ 0] s ∧
        Scheduler.phases s.scheduler = .ok .unit σ ∧ t ∈ σ.allocated ∧ seq ∈ t.get_active_seqs ∧
        seq.status = .Waiting) ∧
      ∃ s σ, Run Op.Step (System.new (smallConfig 2)) [prompt 5 2, .schedule, results [(0, 7), (1, 8)] 0] s ∧
        Scheduler.schedule s.scheduler = .error .filledBeyondSlots σ := by
  let _ := decimalHasher
  have hleft : (Run.follow Op.next (System.new pairConfig)
      [.add_request ⟨5, [1, 2, 3], 2, none, false, false⟩ 0]).any leaves_waiting = true := by decide +kernel
  have hpanic : (Run.follow Op.next (System.new (smallConfig 2))
      [prompt 5 2, .schedule, results [(0, 7), (1, 8)] 0]).any (panics .filledBeyondSlots) = true := by
    decide +kernel
  constructor
  · obtain ⟨s, hrun, hs⟩ := Run.exists_of_follow (fun _ _ _ => Op.step_of_next) hleft
    unfold leaves_waiting at hs
    cases hσ : Scheduler.phases s.scheduler with
    | error e σ => rw [hσ] at hs; cases hs
    | ok a σ =>
      rw [hσ] at hs
      simp only [List.any_eq_true, decide_eq_true_eq] at hs
      obtain ⟨t, ht, seq, hseq, hst⟩ := hs
      exact ⟨s, σ, t, seq, hrun, hσ, ht, hseq, hst⟩
  · obtain ⟨s, hrun, hs⟩ := Run.exists_of_follow (fun _ _ _ => Op.step_of_next) hpanic
    unfold panics at hs
    cases hσ : Scheduler.schedule s.scheduler with
    | ok a σ => rw [hσ] at hs; cases hs
    | error e σ =>
      rw [hσ] at hs
      obtain rfl : e = .filledBeyondSlots := by simpa using hs
      exact ⟨s, σ, hrun, hσ⟩

end System

end LMServe
