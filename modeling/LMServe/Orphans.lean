import LMServe.Custody

/-!
# What a background copy leaves behind

The region that a staged request or a backup reserves, and the staged request's pending task, are
given up by the callback of the copy submitted for them, and by nothing else. A callback runs only
after its copy has succeeded: a failed copy skips it, and a copy that panics takes the thread and
every entry behind it along. `Tracked` remembers which regions and tasks came from where.
-/

namespace LMServe
open EngineOp

/-- An engine with the ids drawn by the steps that plan copies: the regions, and the sequences of
`add_request`. -/
structure Tracked where
  engine : Engine
  regions : List Nat
  seqs : List Nat

namespace EngineOp

def is_add_request : EngineOp → Bool
  | add_request .. => true
  | _ => false

variable [Hasher]

/-- The step fails no copy, reports no session that is pending already, and a callback returns. -/
def succeeds (e : Engine) : EngineOp → Bool
  | add_request request arrival_time =>
    match System.add_request request arrival_time e.system with
    | .error .duplicatePending _ => false
    | _ => true
  | copy_failed | copy_panicked => false
  | callback => e.callback.all (·.alive)
  | _ => true

theorem not_succeeds_of_duplicate {e : Engine} {request : GenerateRequest} {arrival_time : Nat} {s : System}
    (h : System.add_request request arrival_time e.system = .error .duplicatePending s) :
    succeeds e (.add_request request arrival_time) = false := by
  show (match System.add_request request arrival_time e.system with
    | .error .duplicatePending _ => false
    | _ => true) = false
  rw [h]

end EngineOp

namespace Tracked

def new (c : SchedulerConfig) : Tracked := ⟨Engine.new c, [], []⟩

/-- The ids drawn between two states. -/
def drawn (c : Bool) (k k' : Nat) : List Nat := if c then List.range' k (k' - k) else []

/-- A step of the engine, with the ids it draws for its copies. -/
def next [Hasher] (x : Tracked) (op : EngineOp) : Option Tracked :=
  (EngineOp.next x.engine op).map fun e => {
    engine := e
    regions := x.regions ++
      drawn op.plans_copy x.engine.system.next_region_id e.system.next_region_id
    seqs := x.seqs ++ drawn op.is_add_request x.engine.system.next_seq_id e.system.next_seq_id }

def Step [Hasher] (x : Tracked) (op : EngineOp) (x' : Tracked) : Prop := next x op = some x'

/-- Every region planned for a copy that is still reserved, and every pending task of `add_request`,
has an entry in the queue whose callback will release it. -/
structure Accounted (x : Tracked) : Prop where
  alive : x.engine.alive = true
  regions : ∀ r ∈ x.regions, ∀ d, (x.engine.regions d).lookup r ≠ none →
    ∃ entry ∈ x.engine.copies, entry.releases = some (d, r)
  pending : ∀ session_id t, x.engine.pending.lookup session_id = some t →
    (∃ seq ∈ t.seqs, seq.seq_id ∈ x.seqs) → ∃ entry ∈ x.engine.copies, entry.session = some session_id

/-- What carries it: ids not drawn yet are in no table, and a `reserve_request` call in progress
holds none of the sequences of `add_request`. -/
structure Inv (x : Tracked) : Prop where
  accounted : x.Accounted
  parallel : x.engine.Parallel
  regions_lt : ∀ r ∈ x.regions, r < x.engine.system.next_region_id
  seqs_lt : ∀ i ∈ x.seqs, i < x.engine.system.next_seq_id
  fresh : ∀ d r, x.engine.system.next_region_id ≤ r → (x.engine.regions d).lookup r = none
  pending_lt : ∀ session_id t, x.engine.pending.lookup session_id = some t →
    ∀ seq ∈ t.seqs, seq.seq_id < x.engine.system.next_seq_id
  reserving : ∀ t ∈ x.engine.system.reserving, ∀ seq ∈ t.seqs,
    seq.seq_id < x.engine.system.next_seq_id ∧ seq.seq_id ∉ x.seqs

theorem Inv.new (c : SchedulerConfig) : Inv (Tracked.new c) where
  accounted := ⟨rfl, fun _ hr => absurd hr List.not_mem_nil,
    fun _ _ ht => absurd ht (by simp [Tracked.new, Engine.new, Engine.pending, System.new, Scheduler.new])⟩
  parallel := rfl
  regions_lt _ hr := absurd hr List.not_mem_nil
  seqs_lt _ hi := absurd hi List.not_mem_nil
  fresh d _ _ := by cases d <;> rfl
  pending_lt _ _ ht := absurd ht (by simp [Tracked.new, Engine.new, Engine.pending, System.new, Scheduler.new])
  reserving _ ht := absurd ht List.not_mem_nil

theorem mem_to_task {request : GenerateRequest} {k arrival_time : Nat} {seq : Sequence}
    (h : seq ∈ (request.to_task k arrival_time).seqs) :
    k ≤ seq.seq_id ∧ seq.seq_id < k + request.num_samples := by
  obtain ⟨i, hi, rfl⟩ := List.mem_map.1 h
  have := List.mem_range.1 hi
  simp only [Sequence.new]
  omega

theorem mem_drawn {c : Bool} {k k' i : Nat} (h : i ∈ drawn c k k') : c = true ∧ k ≤ i ∧ i < k' := by
  unfold drawn at h
  split at h
  · simp only [List.mem_range'_1] at h; exact ⟨‹_›, h.1, by omega⟩
  · cases h

section
variable [Hasher] {x x' : Tracked} {op : EngineOp}

/-- A region of a table after a step was there before, or its id has just been drawn. -/
theorem lookup_regions (h : Effect x.engine op x'.engine) {d : Device} {r : Nat}
    (hr : (x'.engine.regions d).lookup r ≠ none) : (x.engine.regions d).lookup r ≠ none ∨
      r = x.engine.system.next_region_id ∧ r < x'.engine.system.next_region_id := by
  have hshrinks : Scheduler.Shrinks x.engine.system.scheduler x'.engine.system.scheduler →
      (x.engine.regions d).lookup r ≠ none := fun hs hnone => hr (hs d r hnone)
  have hinsert : ∀ d' ids, x'.engine.regions = Function.update x.engine.regions d'
      ((x.engine.regions d').insert x.engine.system.next_region_id ids) →
      x'.engine.system.next_region_id = x.engine.system.next_region_id + 1 →
      (x.engine.regions d).lookup r ≠ none ∨
        r = x.engine.system.next_region_id ∧ r < x'.engine.system.next_region_id := by
    intro d' ids hregions hid
    by_cases hrn : r = x.engine.system.next_region_id
    · exact .inr ⟨hrn, by omega⟩
    · refine .inl fun hnone => hr ?_
      rw [hregions, Function.update_apply]
      split
      · rename_i hd
        rw [Table.lookup_insert_eq, if_neg hrn, ← hd]; exact hnone
      · exact hnone
  cases h with
  | idle h => exact .inl (hshrinks (.of_eq (Scheduler.holdings_eq h).2))
  | stages _ _ hid hs => obtain ⟨ids, hids⟩ := hs.regions; exact hinsert _ ids hids hid
  | clashes _ _ hid hs => obtain ⟨ids, hids⟩ := hs.regions; exact hinsert _ ids hids hid
  | backs_up _ _ hid hs => obtain ⟨ids, hids⟩ := hs.regions; exact hinsert _ ids hids hid
  | reserves _ hid hs => obtain ⟨ids, hids⟩ := hs.regions; exact hinsert _ ids hids hid
  | pends _ _ h => exact .inl (hshrinks (.of_eq h))
  | triggers _ _ h => exact .inl (hshrinks h)
  | gives_up _ h => exact .inl (hshrinks h)
  | drops _ _ h => exact .inl (hshrinks (.of_eq (Scheduler.holdings_eq h).2))
  | calls_back _ _ _ h => exact .inl (hshrinks h)
  | dies _ _ _ _ h => exact .inl (hshrinks h)

/-- A pending task after a step was pending before, or is the one this step pends. -/
theorem lookup_pending (h : Effect x.engine op x'.engine) {session_id : Nat} {t : InferTask}
    (ht : x'.engine.pending.lookup session_id = some t) :
    x.engine.pending.lookup session_id = some t ∨
      (∃ request arrival_time, op = .add_request request arrival_time ∧ session_id = request.session_id ∧
        t = request.to_task x.engine.system.next_seq_id arrival_time) ∨
      t ∈ x.engine.system.reserving ∧ op.is_add_request = false := by
  have herase : ∀ i, x'.engine.pending = x.engine.pending.erase i →
      x.engine.pending.lookup session_id = some t := fun i hi => by
    rw [hi, Table.lookup_erase_eq] at ht
    split at ht
    · cases ht
    · exact ht
  have hkeep : x'.engine.pending = x.engine.pending → x.engine.pending.lookup session_id = some t :=
    fun hp => by rw [hp] at ht; exact ht
  have hstages : ∀ {request arrival_time}, op = .add_request request arrival_time →
      System.Stages (request.to_task x.engine.system.next_seq_id arrival_time)
        x.engine.system.next_region_id x.engine.system.scheduler x'.engine.system.scheduler →
      x.engine.pending.lookup session_id = some t ∨ ∃ request arrival_time,
        op = .add_request request arrival_time ∧ session_id = request.session_id ∧
          t = request.to_task x.engine.system.next_seq_id arrival_time := by
    intro request arrival_time hop hs
    rw [Engine.pending, hs.pending, Table.lookup_insert_eq] at ht
    split at ht
    · exact .inr ⟨request, arrival_time, hop, ‹_›, (Option.some.inj ht).symm⟩
    · exact .inl ht
  cases h with
  | idle h => exact .inl (hkeep (Scheduler.holdings_eq h).1)
  | stages _ _ _ hs => exact (hstages rfl hs).imp_right .inl
  | clashes _ _ _ hs => exact (hstages rfl hs).imp_right .inl
  | backs_up _ _ _ hs => exact .inl (hkeep hs.pending)
  | reserves _ _ hs => exact .inl (hkeep hs.pending)
  | pends hi hp =>
    rw [hp, Table.lookup_insert_eq] at ht
    split at ht
    · obtain rfl := Option.some.inj ht
      exact .inr (.inr ⟨List.mem_of_getElem? hi, rfl⟩)
    · exact .inl ht
  | triggers _ hp => exact .inl (herase _ hp)
  | gives_up hp => exact .inl (hkeep hp)
  | drops _ _ h => exact .inl (hkeep (Scheduler.holdings_eq h).1)
  | @calls_back _ entry _ _ _ hp =>
    cases hsession : entry.session with
    | none => rw [hsession] at hp; exact .inl (hkeep hp)
    | some i => rw [hsession] at hp; exact .inl (herase i hp)
  | dies _ _ _ hp =>
    rcases hp with hp | ⟨_, _, i, _, hp⟩
    · exact .inl (hkeep hp)
    · exact .inl (herase i hp)

theorem released_by (h : Effect x.engine op x'.engine) (hs : succeeds x.engine op = true)
    (hstep : op.exec x.engine = some x'.engine) {entry : Entry} (he : entry ∈ x.engine.copies) :
    entry ∈ x'.engine.copies ∨
      (∀ d r, entry.releases = some (d, r) → (x'.engine.regions d).lookup r = none) ∧
        ∀ i, entry.session = some i → x'.engine.pending.lookup i = none := by
  cases h with
  | idle _ hc | clashes _ _ _ _ hc | reserves _ _ _ hc | pends _ _ _ _ hc | triggers _ _ _ _ hc
  | gives_up _ _ hc => rw [hc]; exact .inl he
  | stages _ _ _ _ hsub | backs_up _ _ _ _ hsub =>
    rw [hsub]
    split
    · exact .inl (List.mem_append_left _ he)
    · exact .inl he
  | drops => cases hs
  | calls_back hcopies hrest hp _ hr =>
    rw [hcopies, List.mem_cons] at he
    rcases he with rfl | he
    · refine .inr ⟨hr, fun i hi => ?_⟩
      rw [hp, hi]
      show (x.engine.pending.erase i).lookup i = none
      rw [Table.lookup_erase_eq, if_pos rfl]
    · exact .inl (hrest ▸ he)
  | dies hop _ halive =>
    rcases hop with rfl | rfl
    · cases hs
    · have : x'.engine.alive = true := by
        have hs' : x.engine.callback.all (·.alive) = true := hs
        rw [show x.engine.callback = some x'.engine from hstep] at hs'
        exact hs'
      rw [halive] at this; cases this

theorem alive_of_succeeds (h : Effect x.engine op x'.engine) (hs : succeeds x.engine op = true)
    (hstep : op.exec x.engine = some x'.engine) (ha : x.engine.alive = true) :
    x'.engine.alive = true := by
  cases h with
  | idle _ _ _ hl | stages _ _ _ _ _ _ hl | clashes _ _ _ _ _ _ hl | backs_up _ _ _ _ _ _ hl
  | reserves _ _ _ _ _ hl | pends _ _ _ _ _ hl | triggers _ _ _ _ _ hl | gives_up _ _ _ _ hl
  | drops _ _ _ _ hl | calls_back _ _ _ _ _ _ hl => rw [hl]; exact ha
  | dies hop _ halive =>
    rcases hop with rfl | rfl
    · cases hs
    · have hs' : x.engine.callback.all (·.alive) = true := hs
      rw [show x.engine.callback = some x'.engine from hstep] at hs'
      exact hs'

/-- A region that a step plans for a copy is released by the entry it submits. -/
theorem submitted_region (h : Effect x.engine op x'.engine) (hs : succeeds x.engine op = true)
    (ha : x.engine.alive = true) (hop : op.plans_copy = true) {d : Device}
    (hfresh : ∀ d, (x.engine.regions d).lookup x.engine.system.next_region_id = none)
    (hr : (x'.engine.regions d).lookup x.engine.system.next_region_id ≠ none) :
    ∃ entry ∈ x'.engine.copies, entry.releases = some (d, x.engine.system.next_region_id) := by
  have hinsert : ∀ d' ids, x'.engine.regions = Function.update x.engine.regions d'
      ((x.engine.regions d').insert x.engine.system.next_region_id ids) → d = d' := by
    intro d' ids hregions
    by_contra hne
    rw [hregions, Function.update_apply, if_neg hne] at hr
    exact hr (hfresh d)
  have hshrinks : ¬ Scheduler.Shrinks x.engine.system.scheduler x'.engine.system.scheduler :=
    fun hsh => hr (hsh d _ (hfresh d))
  cases h with
  | stages _ hid _ hst hsub =>
    obtain ⟨ids, hids⟩ := hst.regions
    obtain rfl := hinsert _ ids hids
    rw [Submits, if_pos ha] at hsub
    exact ⟨_, by rw [hsub]; exact List.mem_append_right _ (List.mem_singleton.2 rfl),
      by rw [Entry.releases, hid]⟩
  | backs_up hd hid _ hst hsub =>
    obtain ⟨ids, hids⟩ := hst.regions
    obtain rfl := hinsert _ ids hids
    rw [Submits, if_pos ha] at hsub
    exact ⟨_, by rw [hsub]; exact List.mem_append_right _ (List.mem_singleton.2 rfl),
      by rw [Entry.releases, hid, hd]⟩
  | clashes herr =>
    rw [not_succeeds_of_duplicate herr] at hs; cases hs
  | reserves hplans => rw [hop] at hplans; cases hplans
  | idle h => exact absurd (.of_eq (Scheduler.holdings_eq h).2) hshrinks
  | gives_up _ h => exact absurd h hshrinks
  | pends | triggers | drops | calls_back => cases hop
  | dies h => rcases h with rfl | rfl <;> cases hop

theorem submitted_pending (h : Effect x.engine op x'.engine) (hs : succeeds x.engine op = true)
    (ha : x.engine.alive = true) {request : GenerateRequest} {arrival_time : Nat}
    (hop : op = .add_request request arrival_time)
    (hp : x'.engine.pending.lookup request.session_id ≠ x.engine.pending.lookup request.session_id) :
    ∃ entry ∈ x'.engine.copies, entry.session = some request.session_id := by
  cases h with
  | stages _ _ _ _ hsub =>
    obtain ⟨rfl, rfl⟩ : _ = request ∧ _ = arrival_time := by simpa using hop
    rw [Submits, if_pos ha] at hsub
    exact ⟨_, by rw [hsub]; exact List.mem_append_right _ (List.mem_singleton.2 rfl), rfl⟩
  | clashes herr => rw [not_succeeds_of_duplicate herr] at hs; cases hs
  | idle h => exact absurd (congrArg _ (Scheduler.holdings_eq h).1) hp
  | reserves hplans => rw [hop] at hplans; cases hplans
  | gives_up h => exact absurd (congrArg _ h) hp
  | backs_up | pends | triggers | drops | calls_back => cases hop
  | dies h => rcases h with rfl | rfl <;> cases hop

theorem Inv.step (h : x.Inv) (hs : succeeds x.engine op = true) (hstep : Step x op x') : x'.Inv := by
  obtain ⟨e, he, rfl⟩ := Option.map_eq_some_iff.1 hstep
  obtain ⟨x', hx'⟩ : ∃ x' : Tracked, x' = {
    engine := e
    regions := x.regions ++
      drawn op.plans_copy x.engine.system.next_region_id e.system.next_region_id
    seqs := x.seqs ++ drawn op.is_add_request x.engine.system.next_seq_id e.system.next_seq_id } :=
    ⟨_, rfl⟩
  have hengine : x'.engine = e := by rw [hx']
  rw [← hengine] at he
  have hexec := (next_eq he).2
  obtain ⟨hcounts, heff⟩ := effect_of_step h.parallel he
  have hle : x.engine.system.next_seq_id ≤ x'.engine.system.next_seq_id := by
    rw [hcounts.next_seq_id]; exact Nat.le_add_right _ _
  -- the ids of the ghost lists: known before, or drawn in this step
  have hregions : ∀ r ∈ x'.regions, r ∈ x.regions ∨ op.plans_copy = true ∧
      x.engine.system.next_region_id ≤ r ∧ r < x'.engine.system.next_region_id := fun r hr => by
    rw [hx'] at hr ⊢
    exact (List.mem_append.1 hr).imp_right mem_drawn
  have hseqs : ∀ i ∈ x'.seqs, i ∈ x.seqs ∨ op.is_add_request = true ∧
      x.engine.system.next_seq_id ≤ i ∧ i < x'.engine.system.next_seq_id := fun i hi => by
    rw [hx'] at hi ⊢
    exact (List.mem_append.1 hi).imp_right mem_drawn
  have hfresh : ∀ d, (x.engine.regions d).lookup x.engine.system.next_region_id = none :=
    fun d => h.fresh d _ (Nat.le_refl _)
  have halive := alive_of_succeeds heff hs hexec h.accounted.alive
  rw [← hx']
  refine ⟨⟨halive, fun r hr d hlook => ?_, fun i t ht hseq => ?_⟩, hcounts.parallel h.parallel,
    fun r hr => ?_, fun i hi => ?_, fun d r hr => ?_, fun i t ht seq hseq => ?_, fun t ht seq hseq => ?_⟩
  · -- a region, kept or planned in this step
    rcases lookup_regions heff hlook with hold | ⟨rfl, -⟩
    · rcases hregions r hr with hmem | ⟨-, hge, -⟩
      · obtain ⟨entry, hentry, hrel⟩ := h.accounted.regions r hmem d hold
        rcases released_by heff hs hexec hentry with hentry | ⟨hgone, -⟩
        · exact ⟨entry, hentry, hrel⟩
        · exact absurd (hgone d r hrel) hlook
      · exact absurd (h.fresh d r hge) hold
    · rcases hregions _ hr with hmem | ⟨hplans, -, -⟩
      · exact absurd (h.regions_lt _ hmem) (Nat.lt_irrefl _)
      · exact submitted_region heff hs h.accounted.alive hplans hfresh hlook
  · -- a pending task, kept or staged in this step
    obtain ⟨seq, hseq, hi⟩ := hseq
    have hold : x.engine.pending.lookup i = some t → ∃ entry ∈ x'.engine.copies, entry.session = some i := by
      intro hold
      have hmem : seq.seq_id ∈ x.seqs := by
        rcases hseqs _ hi with hmem | ⟨-, hge, -⟩
        · exact hmem
        · exact absurd (h.pending_lt i t hold seq hseq) (Nat.not_lt.2 hge)
      obtain ⟨entry, hentry, hsession⟩ := h.accounted.pending i t hold ⟨seq, hseq, hmem⟩
      rcases released_by heff hs hexec hentry with hentry | ⟨-, hgone⟩
      · exact ⟨entry, hentry, hsession⟩
      · rw [hgone i hsession] at ht; cases ht
    by_cases hsame : x'.engine.pending.lookup i = x.engine.pending.lookup i
    · exact hold (hsame ▸ ht)
    rcases lookup_pending heff ht with hpend | ⟨request, arrival_time, hop, rfl, rfl⟩ | ⟨hmem, hop⟩
    · exact hold hpend
    · exact submitted_pending heff hs h.accounted.alive hop hsame
    · rcases hseqs _ hi with hi | ⟨hadd, -, -⟩
      · exact absurd hi (h.reserving t hmem seq hseq).2
      · rw [hop] at hadd; cases hadd
  · rcases hregions r hr with hmem | ⟨-, -, hlt⟩
    · exact Nat.lt_of_lt_of_le (h.regions_lt r hmem) hcounts.next_region_id
    · exact hlt
  · rcases hseqs i hi with hmem | ⟨-, -, hlt⟩
    · exact Nat.lt_of_lt_of_le (h.seqs_lt i hmem) hle
    · exact hlt
  · by_contra hlook
    rcases lookup_regions heff hlook with hold | ⟨-, hlt⟩
    · exact hold (h.fresh d r (Nat.le_trans hcounts.next_region_id hr))
    · omega
  · rcases lookup_pending heff ht with hpend | ⟨request, arrival_time, rfl, -, rfl⟩ | ⟨hmem, -⟩
    · exact Nat.lt_of_lt_of_le (h.pending_lt i t hpend seq hseq) hle
    · rw [hcounts.next_seq_id]
      exact (mem_to_task hseq).2
    · exact Nat.lt_of_lt_of_le (h.reserving t hmem seq hseq).1 hle
  · have hnew : ∀ k, k ∉ x.seqs → op.is_add_request = false ∨ k < x.engine.system.next_seq_id →
        k ∉ x'.seqs := fun k hk hcase hmem => by
      rcases hseqs k hmem with hmem | ⟨hadd, hge, -⟩
      · exact hk hmem
      · rcases hcase with hno | hlt
        · rw [hno] at hadd; cases hadd
        · omega
    rcases hcounts.reserving t ht with hmem | ⟨request, arrival_time, rfl, rfl⟩
    · obtain ⟨hlt, hnot⟩ := h.reserving t hmem seq hseq
      exact ⟨Nat.lt_of_lt_of_le hlt hle, hnew _ hnot (.inr hlt)⟩
    · obtain ⟨hge, hlt⟩ := mem_to_task hseq
      refine ⟨by rw [hcounts.next_seq_id]; exact hlt, hnew _ (fun hmem => ?_) (.inl rfl)⟩
      exact absurd (h.seqs_lt _ hmem) (Nat.not_lt.2 hge)

/-- In a run in which no copy fails or panics, no callback panics, and no staged request finds its
session pending already, every region planned for a copy and every pending task of `add_request` has
an entry in the queue whose callback will release it, and the thread that runs it is alive. -/
theorem run_accounted (c : SchedulerConfig) {ops : List EngineOp}
    (h : Run (fun x op x' => Step x op x' ∧ succeeds x.engine op = true) (Tracked.new c) ops x) :
    x.Accounted :=
  (h.invariant (Inv.new c) fun _ _ _ hinv ⟨hstep, hs⟩ => hinv.step hs hstep).accounted

end

/-- The swap-out of a finished request is queued: its region is reserved, and its entry is there. -/
theorem run_accounted_finished :
    let _ := decimalHasher
    ∃ x, Run (fun x op x' => Step x op x' ∧ succeeds x.engine op = true) (Tracked.new diskConfig)
        finishedRun x ∧ x.Accounted ∧
      ∃ r ∈ x.regions, (x.engine.regions .Disk).lookup r ≠ none := by
  let _ := decimalHasher
  have hfollow : (Run.follow (fun x op => if succeeds x.engine op then next x op else none)
      (Tracked.new diskConfig) finishedRun).any
      (fun x => x.regions.any fun r => ((x.engine.regions .Disk).lookup r).isSome) = true := by
    decide +kernel
  have hnext : ∀ x op x', (if succeeds (Tracked.engine x) op then next x op else none) = some x' →
      Step x op x' ∧ succeeds x.engine op = true := fun x op x' h => by
    split at h
    · exact ⟨h, ‹_›⟩
    · cases h
  obtain ⟨x, hrun, hx⟩ := Run.exists_of_follow hnext hfollow
  obtain ⟨r, hr, hlook⟩ := List.any_eq_true.1 hx
  refine ⟨x, hrun, run_accounted diskConfig hrun, r, hr, fun hnone => ?_⟩
  rw [hnone] at hlook; cases hlook

/-- Its copy fails, in an error or in a panic: the region stays reserved and nothing is left in the
queue to release it. -/
theorem run_not_accounted_failed :
    let _ := decimalHasher
    ∀ op ∈ [copy_failed, copy_panicked], ∃ x, Run Step (Tracked.new diskConfig) (finishedRun ++ [op]) x ∧
      (∃ r ∈ x.regions, (x.engine.regions .Disk).lookup r ≠ none) ∧ x.engine.queue = [] ∧
      ¬ x.Accounted := by
  intro _ op hop
  have hfollow : (Run.follow next (Tracked.new diskConfig) (finishedRun ++ [op])).any (fun x =>
      (x.regions.any fun r => ((x.engine.regions .Disk).lookup r).isSome) && x.engine.queue.isEmpty) =
      true := by
    simp only [List.mem_cons, List.not_mem_nil, or_false] at hop
    rcases hop with rfl | rfl
    · decide +kernel
    · decide +kernel
  obtain ⟨x, hrun, hx⟩ := Run.exists_of_follow (fun _ _ _ h => h) hfollow
  rw [Bool.and_eq_true] at hx
  obtain ⟨r, hr, hlook⟩ := List.any_eq_true.1 hx.1
  have hsome : (x.engine.regions .Disk).lookup r ≠ none := fun hnone => by
    rw [hnone] at hlook; cases hlook
  have hempty : x.engine.queue = [] := List.isEmpty_iff.1 hx.2
  refine ⟨x, hrun, ⟨r, hr, hsome⟩, hempty, fun hacc => ?_⟩
  obtain ⟨entry, hentry, -⟩ := hacc.regions r hr .Disk hsome
  rw [Engine.copies, hempty] at hentry
  cases hentry

end Tracked

end LMServe
