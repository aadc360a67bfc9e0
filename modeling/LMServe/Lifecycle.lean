import LMServe.Passes
import LMServe.Watching
import LMServe.Lib.Ownership

/-!
# What holds of a task, by the place it is in

A task owns the block maps of its sequences on the three devices. A `Lifecycle` says, for each place a
task can be in, what holds of the task and of its maps there, and why every way of moving on keeps it
so: extension, admission, preemption, going back to `waiting`, results of a batch, removal. `schedule`
then keeps the whole (`Holds`), in whatever order tasks are tried and whichever are preempted. The
conditions of a `Watch` may be used where the code passes them.
-/

namespace LMServe
open Hoare Ownership

/-- At most fill levels have moved, within the slots. -/
def Refilled (m m' : Device → Option BlockMap) : Prop :=
  ∀ d, m' d = m d ∨ ∃ b filled, m d = some b ∧ filled ≤ b.num_allocated_slots ∧
    m' d = some { b with filled_token_len := filled }

theorem Refilled.refl (m : Device → Option BlockMap) : Refilled m m := fun _ => .inl rfl

theorem Refilled.trans {m m' m'' : Device → Option BlockMap} (h : Refilled m m')
    (h' : Refilled m' m'') : Refilled m m'' := by
  intro d
  rcases h' d with heq' | ⟨b', filled', hb', hle', hd'⟩
  · rw [heq']; exact h d
  · rcases h d with heq | ⟨b, filled, hb, -, hd⟩
    · rw [heq] at hb'; exact .inr ⟨b', filled', hb', hle', hd'⟩
    · rw [hd] at hb'
      obtain rfl := Option.some.inj hb'
      exact .inr ⟨b, filled', hb, hle', hd'⟩

theorem Refilled.of_none {m m' : Device → Option BlockMap} (h : Refilled m m') {d : Device}
    (hd : m d = none) : m' d = none := by
  rcases h d with heq | ⟨b, filled, hb, -, -⟩
  · rw [heq, hd]
  · rw [hd] at hb; cases hb

theorem Refilled.some {m m' : Device → Option BlockMap} (h : Refilled m m') {d : Device} {b : BlockMap}
    (hd : m d = some b) : ∃ filled, m' d = some { b with filled_token_len := filled } ∧
      (b.filled_token_len ≤ b.num_allocated_slots → filled ≤ b.num_allocated_slots) := by
  rcases h d with heq | ⟨b', filled, hb', hle, hd'⟩
  · exact ⟨b.filled_token_len, by rw [heq, hd], id⟩
  · rw [hd] at hb'
    obtain rfl := Option.some.inj hb'
    exact ⟨filled, hd', fun _ => hle⟩

theorem Refilled.sized {m m' : Device → Option BlockMap} (h : Refilled m m') {d : Device} {n : Nat}
    (hd : Sized n (m d)) : Sized n (m' d) := by
  cases hm : m d with
  | none => rw [h.of_none hm]; exact Sized.none n
  | some b =>
    obtain ⟨filled, hm', hle⟩ := h.some hm
    rw [hm] at hd
    rw [hm']
    exact sized_some.2 ⟨hle (sized_some.1 hd).1, (sized_some.1 hd).2⟩

/-- What is known of a task in some place; dispatching may move fill levels. -/
abbrev Stage := Assertion InferTask.ids Refilled

/-- Something known of every sequence of the task. -/
def seqStage (P : Sequence → (Device → Option BlockMap) → Prop)
    (hP : ∀ {seq m m'}, Refilled m m' → P seq m → P seq m') : Stage where
  holds := fun t f => ∀ seq ∈ t.seqs, P seq (f seq.seq_id)
  stable := fun {t f f'} hf h seq hseq => by
    rcases hf seq.seq_id (List.mem_map.2 ⟨seq, hseq, rfl⟩) with heq | href
    · rw [heq]; exact h seq hseq
    · exact hP href (h seq hseq)

/-- Prefixes of the task were looked up: its maps outside the GPU may have grown, as far as its tokens
reach. -/
structure LookedUp (t : InferTask) (f f' : Maps) : Prop where
  outside : ∀ i, i ∉ t.ids → f' i = f i
  gpu : ∀ i, f' i .Gpu = f i .Gpu
  sized : ∀ seq ∈ t.seqs, ∀ d, Sized seq.token_ids.length (f seq.seq_id d) →
    Sized seq.token_ids.length (f' seq.seq_id d)

/-- A sequence after the results of a batch. -/
structure Updated (seq seq' : Sequence) : Prop where
  seq_id : seq'.seq_id = seq.seq_id
  tokens : seq.token_ids <+: seq'.token_ids
  status : seq'.status = seq.status ∨ seq.status = .Allocated ∧ seq'.status = .Finished

/-- See the module doc. -/
structure Lifecycle [Watch] where
  /-- in `waiting`, or not yet in a queue -/
  waiting : Stage
  /-- in `allocated`, between scheduling rounds and until it is extended -/
  allocated : Stage
  /-- extended or admitted in this round -/
  ready : Stage
  /-- returned by `update` -/
  finished : Stage
  /-- of the maps of a sequence that no known task has -/
  gone : (Device → Option BlockMap) → Prop
  gone_refilled : ∀ {m m'}, Refilled m m' → gone m → gone m'
  gone_none : gone fun _ => none
  extend : ∀ {t f f' n}, allocated.holds t f → Watch.pass .Gpu t n = true → 0 < n →
    n ≤ t.get_active_seqs.length → SuppliedOn .Gpu (t.get_active_seqs.take n) f f' → ready.holds t f'
  mirror : ∀ {t f f' n}, t.ids.Nodup → ready.holds t f →
    SuppliedOn .Host (t.get_active_seqs.take n) f f' → ready.holds t f'
  admission : ∀ {t f f' n}, waiting.holds t f → Watch.pass .Gpu t n = true → 0 < n →
    n ≤ t.get_active_seqs.length → SuppliedOn .Gpu (t.get_active_seqs.take n) f f' →
    ready.holds { t with seqs := mark_allocated n t.seqs } f'
  preempt : ∀ {t f f'}, allocated.holds t f → Watch.preempted t = true →
    Freed t.get_active_seqs f f' → waiting.holds t.back f'
  settle : ∀ {t f}, ready.holds t f → allocated.holds t f
  give_up : ∀ {t f}, allocated.holds t f → Watch.stuck t = true → waiting.holds t f
  drop : ∀ {t f}, waiting.holds t f → Watch.dropped t = true → ∀ i ∈ t.ids, gone (f i)
  create : ∀ {t : InferTask} {f : Maps}, (∀ seq ∈ t.seqs, seq.status = .Waiting ∧
    f seq.seq_id = fun _ => none) → waiting.holds t f
  look_up : ∀ {t f f'}, waiting.holds t f → LookedUp t f f' → waiting.holds t f'
  update : ∀ {t t' : InferTask} {f : Maps}, allocated.holds t f →
    (∀ seq' ∈ t'.seqs, ∃ seq ∈ t.seqs, Updated seq seq') →
    if t'.is_finished then finished.holds t' f else allocated.holds t' f
  remove : ∀ {t f}, finished.holds t f → ∀ seq ∈ t.seqs, seq.status ≠ .Finished → gone (f seq.seq_id)

/-! ### Fill levels -/

namespace Scheduler

section
variable {I : Scheduler → Prop} {E : Panic → Prop}

/-- What moving fill levels keeps, dispatching keeps. -/
theorem dispatch_loop_triple {seqs : List Sequence}
    (hfetch : ∀ seq ∈ seqs, ∀ l, Triple I (plan_copy seq .Host .Gpu true l) (fun _ => I) E)
    (hinput : ∀ seq ∈ seqs, ∀ acc, Triple I (dispatch_input seq acc) (fun _ => I) E) (acc : Batch) :
    Triple I (dispatch_loop seqs acc) (fun _ => I) E := by
  induction seqs generalizing acc with
  | nil => exact Triple.pure fun _ h => h
  | cons seq seqs ih =>
    refine Triple.get_bind fun s hs => Triple.ite (fun _ => Triple.pure fun t ht => ht ▸ hs)
      fun _ => ?_
    refine Triple.bind (Triple.pre (hfetch seq (by simp) _) fun t ht => ht ▸ hs) fun _ => ?_
    refine Triple.bind (hinput seq (by simp) _) fun acc => ?_
    exact ih (fun x hx => hfetch x (by simp [hx])) (fun x hx => hinput x (by simp [hx])) acc

end

/-- The fill levels are the only difference to `f`. -/
def RefilledFrom (f : Maps) (s : Scheduler) : Prop := ∀ i, Refilled (f i) (s.maps i)

section
variable (f : Maps)

theorem update_filled_len_refilled (d : Device) (i len : Nat) :
    Triple (RefilledFrom f) (on_device d (BlockManager.update_filled_len i len))
      (fun _ => RefilledFrom f) AnyError := by
  intro s hs
  cases hrun : on_device d (BlockManager.update_filled_len i len) s with
  | error e s' => trivial
  | ok r s' =>
    obtain ⟨m, hm, hd, helse⟩ := on_device_maps hrun
    refine fun j => (hs j).trans fun d' => ?_
    by_cases hdd : d' = d
    · subst hdd
      rw [hd]
      rcases BlockManager.update_filled_len_maps hm with ⟨heq, -⟩ | ⟨b, hb, hle, heq⟩
      · rw [heq]; exact .inl rfl
      · by_cases hj : j = i
        · rw [heq, hj, Function.update_self]
          exact .inr ⟨b, len, hb, hle, rfl⟩
        · rw [heq, Function.update_of_ne hj]; exact .inl rfl
    · exact .inl (helse j d' hdd)

theorem plan_copy_refilled (seq : Sequence) (d d' : Device) (p : Bool) (l : List BlockMapping) :
    Triple (RefilledFrom f) (plan_copy seq d d' p l) (fun _ => RefilledFrom f) AnyError := by
  refine Triple.get_bind fun s hs => ?_
  split
  · refine Triple.bind (Triple.pre (update_filled_len_refilled f d' _ _) fun t ht => ht ▸ hs) fun _ => ?_
    exact Triple.pure fun _ h => h
  · exact Triple.pure fun t ht => ht ▸ hs

theorem dispatch_input_refilled (seq : Sequence) (acc : Batch) :
    Triple (RefilledFrom f) (dispatch_input seq acc) (fun _ => RefilledFrom f) AnyError := by
  have hpure : ∀ {s : Scheduler} {b : Batch}, RefilledFrom f s →
      Triple (· = s) (pure b : SM Batch) (fun _ => RefilledFrom f) AnyError :=
    fun hs => Triple.pure fun t ht => ht ▸ hs
  refine Triple.get_bind fun s hs => Triple.ite (fun _ => ?_) fun _ => hpure hs
  split
  · exact hpure hs
  · refine Triple.bind (Triple.pre (update_filled_len_refilled f _ _ _) fun t ht => ht ▸ hs) fun _ => ?_
    exact Triple.bind (plan_copy_refilled f _ _ _ _ _) fun _ => Triple.pure fun _ h => h

theorem dispatch_refilled :
    Triple (RefilledFrom f) dispatch (fun _ => RefilledFrom f) AnyError := by
  refine Triple.get_bind fun s hs => ?_
  refine Triple.pre (dispatch_loop_triple (fun seq _ l => plan_copy_refilled f seq _ _ _ l)
    (fun seq _ acc => dispatch_input_refilled f seq acc) _) fun t ht => ht ▸ hs

end

end Scheduler

namespace Lifecycle

section
variable [Watch] (L : Lifecycle) {n : Nat} {l l' : List (Stage × InferTask)} {f f' : Maps}
  {t : InferTask} {s s' : Scheduler}

/-- What holds of the maps of the id `i` when no task has it; ids from `n` on are not in use yet. -/
def rest (n i : Nat) (m : Device → Option BlockMap) : Prop := L.gone m ∧ (n ≤ i → m = fun _ => none)

/-- The tasks listed, and no others, have what their place promises. -/
def Holds (n : Nat) (l : List (Stage × InferTask)) (f : Maps) : Prop := Split (· < n) (L.rest n) l f

variable {L}

open Classical in
theorem Holds.of_count (h : L.Holds n l f) (hl : ∀ z, l'.count z = l.count z) : L.Holds n l' f :=
  Split.perm h (List.perm_iff_count.2 hl)

omit [Watch] in
open Classical in
@[simp] theorem count_tag_insert_sorted (P : Stage) (q : List InferTask) (t : InferTask)
    (z : Stage × InferTask) :
    (tag P (insert_sorted q t)).count z = (tag P (t :: q)).count z :=
  (tag_perm P (insert_sorted_perm q t)).count_eq z

omit [Watch] in
open Classical in
@[simp] theorem count_tag_reverse (P : Stage) (q : List InferTask) (z : Stage × InferTask) :
    (tag P q.reverse).count z = (tag P q).count z :=
  (tag_perm P (List.reverse_perm q)).count_eq z

theorem Holds.ids_nodup {P : Stage} (h : L.Holds n ((P, t) :: l) f) : t.ids.Nodup := Split.head_nodup h

theorem Holds.congr (h : L.Holds n l s.maps) (hs : ∀ d, s'.get_block_manager d = s.get_block_manager d) :
    L.Holds n l s'.maps := by
  rw [Scheduler.maps_congr hs]; exact h

variable [Hasher] {w : Watermark}

theorem Holds.extend {ok : Bool} (h : L.Holds n ((L.allocated, t) :: l) s.maps)
    (hrun : Scheduler.try_extend_infer_task t w .Gpu s = .ok ok s') :
    L.Holds n ((if ok then L.ready else L.allocated, t) :: l) s'.maps := by
  obtain ⟨k, hk, rfl, hpass, hsup⟩ := Scheduler.try_extend_infer_task_maps h.ids_nodup hrun
  rcases Nat.eq_zero_or_pos k with rfl | hpos
  · rw [hsup.of_zero]; simpa using h
  · rw [decide_eq_true hpos, if_pos rfl]
    exact Split.change h rfl hsup.outside (L.extend (Split.head h) hpass hpos hk hsup)

theorem Holds.mirror {ok : Bool} (h : L.Holds n ((L.ready, t) :: l) s.maps)
    (hrun : Scheduler.try_extend_infer_task t w .Host s = .ok ok s') :
    L.Holds n ((L.ready, t) :: l) s'.maps := by
  obtain ⟨k, -, -, -, hsup⟩ := Scheduler.try_extend_infer_task_maps h.ids_nodup hrun
  exact Split.change h rfl hsup.outside (L.mirror h.ids_nodup (Split.head h) hsup)

theorem Holds.admission {r : Bool × InferTask} (h : L.Holds n ((L.waiting, t) :: l) s.maps)
    (hrun : Scheduler.try_alloc_infer_task t w .Gpu s = .ok r s') :
    L.Holds n ((if r.1 then L.ready else L.waiting, r.2) :: l) s'.maps := by
  obtain ⟨k, hk, rfl, hpass, hsup⟩ := Scheduler.try_alloc_infer_task_maps h.ids_nodup hrun
  rcases Nat.eq_zero_or_pos k with rfl | hpos
  · rw [hsup.of_zero, mark_allocated_zero]; simpa using h
  · simp only [decide_eq_true hpos, if_pos]
    exact Split.change h (mark_allocated_ids k t.seqs) hsup.outside
      (L.admission (Split.head h) hpass hpos hk hsup)

omit [Hasher] in
theorem Holds.preempt {t' : InferTask} (h : L.Holds n ((L.allocated, t) :: l) s.maps)
    (hrun : Scheduler.preempt_infer_task t s = .ok t' s') :
    L.Holds n ((L.waiting, t') :: l) s'.maps := by
  obtain ⟨hp, rfl, hfreed⟩ := Scheduler.preempt_infer_task_maps hrun
  exact Split.change h t.back_ids hfreed.outside (L.preempt (Split.head h) hp hfreed)

/-! ### The two phases of `schedule` -/

theorem Holds.extend_allocated (fuel : Nat) : ∀ {extended r : List InferTask} {s s' : Scheduler},
    Scheduler.extend_allocated fuel extended s = .ok r s' →
    L.Holds n (tag L.allocated s.allocated ++ (tag L.waiting s.waiting ++ (tag L.ready extended ++ l)))
      s.maps →
    L.Holds n (tag L.waiting s'.waiting ++ (tag L.ready r ++ l)) s'.maps := by
  induction fuel with
  | zero => intro extended r s s' h; simp [Scheduler.extend_allocated] at h
  | succ fuel ih =>
    intro extended r s s' h hH
    replace h := BlockManager.get_ok h
    cases hA : s.allocated with
    | nil =>
      rw [hA] at h hH
      obtain ⟨rfl, rfl⟩ : extended = r ∧ s = s' := by simpa using h
      exact hH
    | cons t queue =>
      rw [hA] at h hH
      obtain ⟨_, s₁, hmod, h⟩ := bind_ok.1 h
      obtain rfl : { s with allocated := queue } = s₁ := by simpa using hmod
      obtain ⟨ok, s₂, hext, h⟩ := bind_ok.1 h
      obtain ⟨hW₂, hA₂, -, -⟩ :=
        Scheduler.control_eq ((Scheduler.try_extend_infer_task_keeps t _ _).of_ok hext)
      rw [tag_cons, List.cons_append] at hH
      have hH₂ := Holds.extend (hH.congr fun d => by cases d <;> rfl) hext
      split at h
      · rename_i hok
        rw [if_pos hok] at hH₂
        obtain ⟨_, s₃, hmir, h⟩ := bind_ok.1 h
        obtain ⟨hW₃, hA₃, -, -⟩ :=
          Scheduler.control_eq ((Scheduler.try_extend_infer_task_keeps t _ _).of_ok hmir)
        refine ih h ((hH₂.mirror hmir).of_count fun z => ?_)
        simp only [hW₃, hW₂, hA₃, hA₂, tag_append, tag_cons, tag_nil, List.count_append,
          List.count_cons, List.count_nil]
        omega
      · rename_i hok
        rw [if_neg hok] at hH₂
        cases hlast : queue.getLast? with
        | some last =>
          simp only [hlast] at h
          obtain ⟨_, s₃, hmod₃, h⟩ := bind_ok.1 h
          obtain rfl : { s₂ with allocated := queue.dropLast } = s₃ := by simpa using hmod₃
          obtain ⟨u, s₄, hpre, h⟩ := bind_ok.1 h
          obtain ⟨hW₄, hA₄, -, -⟩ := Scheduler.control_eq (Scheduler.preempt_infer_task_ok hpre).1
          obtain ⟨_, s₅, hmod₅, h⟩ := bind_ok.1 h
          simp only [modify_apply, EStateM.Result.ok.injEq, true_and] at hmod₅
          -- the last task in the queue to the front
          have hfront : L.Holds n ((L.allocated, last) :: (L.allocated, t) :: (tag L.allocated queue.dropLast ++
              (tag L.waiting s.waiting ++ (tag L.ready extended ++ l)))) s₂.maps := by
            refine hH₂.of_count fun z => ?_
            conv_rhs => rw [← List.dropLast_append_getLast? last hlast]
            simp only [tag_append, tag_cons, tag_nil, List.count_append, List.count_cons, List.count_nil]
            omega
          have hH₄ := Holds.preempt (hfront.congr fun d => by cases d <;> rfl) hpre
          have hH₅ : L.Holds n _ s₅.maps := hH₄.congr fun d => by rw [← hmod₅]; cases d <;> rfl
          refine ih h (hH₅.of_count fun z => ?_)
          rw [← hmod₅]
          simp only [hW₄, hA₄, hW₂, tag_cons, List.count_append, List.count_cons,
            count_tag_insert_sorted]
          omega
        | none =>
          simp only [hlast] at h
          rw [List.getLast?_eq_none_iff] at hlast
          obtain ⟨_, s₃, hw, h⟩ := bind_ok.1 h
          obtain ⟨hstuck, rfl⟩ := Scheduler.watch_ok hw
          obtain ⟨_, s₄, hmod₄, h⟩ := bind_ok.1 h
          simp only [modify_apply, EStateM.Result.ok.injEq, true_and] at hmod₄
          obtain ⟨rfl, rfl⟩ : extended = r ∧ s₄ = s' := by simpa using h
          have hback := Split.weaken hH₂ fun ht => L.give_up ht hstuck
          have hH₄ : L.Holds n _ s₄.maps :=
            Holds.congr hback fun d => by rw [← hmod₄]; cases d <;> rfl
          refine hH₄.of_count fun z => ?_
          rw [← hmod₄, hlast]
          simp only [hW₂, tag_cons, tag_nil, List.count_append, List.count_cons, List.count_nil,
            count_tag_insert_sorted]
          omega

theorem Holds.extend_tasks (h : L.Holds n (tag L.allocated s.allocated ++ (tag L.waiting s.waiting ++ l))
    s.maps) (hrun : Scheduler.extend_tasks s = .ok .unit s') :
    L.Holds n (tag L.ready s'.allocated ++ (tag L.waiting s'.waiting ++ l)) s'.maps := by
  replace hrun := BlockManager.get_ok hrun
  obtain ⟨r, s₁, hext, hrun⟩ := bind_ok.1 hrun
  obtain rfl : { s₁ with allocated := r } = s' := by simpa using hrun
  have := Holds.extend_allocated _ hext (by simpa using h)
  refine (this.congr fun d => by cases d <;> rfl).of_count fun z => ?_
  simp only [List.count_append]
  omega

theorem Holds.admit_in_order (fuel : Nat) : ∀ {s s' : Scheduler},
    Scheduler.admit_in_order fuel s = .ok .unit s' →
    L.Holds n (tag L.ready s.allocated ++ (tag L.waiting s.waiting ++ l)) s.maps →
    L.Holds n (tag L.ready s'.allocated ++ (tag L.waiting s'.waiting ++ l)) s'.maps := by
  induction fuel with
  | zero => intro s s' h; simp [Scheduler.admit_in_order] at h
  | succ fuel ih =>
    intro s s' h hH
    replace h := BlockManager.get_ok h
    cases hW : s.waiting with
    | nil =>
      rw [hW] at h
      obtain rfl : s = s' := by simpa using h
      exact hH
    | cons t queue =>
      rw [hW] at h hH
      obtain ⟨_, s₁, hmod, h⟩ := bind_ok.1 h
      obtain rfl : { s with waiting := queue } = s₁ := by simpa using hmod
      obtain ⟨⟨ok, t'⟩, s₂, halloc, h⟩ := bind_ok.1 h
      obtain ⟨hW₂, hA₂, -, -⟩ := Scheduler.control_eq (Scheduler.try_alloc_infer_task_ok halloc).1
      have hfront : L.Holds n ((L.waiting, t) :: (tag L.ready s.allocated ++ (tag L.waiting queue ++ l)))
          s.maps := hH.of_count fun z => by
        simp only [tag_cons, List.count_append, List.count_cons]
        omega
      have hH₂ := Holds.admission (hfront.congr fun d => by cases d <;> rfl) halloc
      dsimp only at h hH₂
      split at h
      · rename_i hok
        rw [if_pos hok] at hH₂
        obtain ⟨_, s₃, hmir, h⟩ := bind_ok.1 h
        obtain ⟨hW₃, hA₃, -, -⟩ :=
          Scheduler.control_eq ((Scheduler.try_extend_infer_task_keeps t' _ _).of_ok hmir)
        obtain ⟨_, s₄, hmod₄, h⟩ := bind_ok.1 h
        simp only [modify_apply, EStateM.Result.ok.injEq, true_and] at hmod₄
        have hH₄ : L.Holds n _ s₄.maps :=
          (hH₂.mirror hmir).congr fun d => by rw [← hmod₄]; cases d <;> rfl
        refine ih h (hH₄.of_count fun z => ?_)
        rw [← hmod₄]
        simp only [hW₃, hW₂, hA₃, hA₂, tag_append, tag_cons, tag_nil, List.count_append,
          List.count_cons, List.count_nil]
        omega
      · rename_i hok
        rw [if_neg hok] at hH₂
        obtain rfl : { s₂ with waiting := t' :: s₂.waiting } = s' := by simpa using h
        refine (hH₂.congr fun d => by cases d <;> rfl).of_count fun z => ?_
        simp only [hW₂, hA₂, tag_cons, List.count_append, List.count_cons]
        omega

theorem Holds.preempt_promoted (promoted : List InferTask) :
    ∀ {t : InferTask} {s s' : Scheduler}, Scheduler.preempt_promoted t promoted s = .ok .unit s' →
    L.Holds n ((L.waiting, t) :: (tag L.ready promoted ++ (tag L.ready s.allocated ++
      (tag L.waiting s.waiting ++ l)))) s.maps →
    L.Holds n (tag L.ready s'.allocated ++ (tag L.waiting s'.waiting ++ l)) s'.maps := by
  induction promoted with
  | nil =>
    intro t s s' h hH
    obtain ⟨hdropped, rfl⟩ := Scheduler.watch_ok h
    exact Split.drop hH (fun _ _ => rfl) fun i hi hlt =>
      ⟨L.drop (Split.head hH) hdropped i hi, fun hle => absurd hlt (Nat.not_lt.2 hle)⟩
  | cons u promoted ih =>
    intro t s s' h hH
    obtain ⟨u', s₁, hpre, h⟩ := bind_ok.1 h
    obtain ⟨hW₁, hA₁, -, -⟩ := Scheduler.control_eq (Scheduler.preempt_infer_task_ok hpre).1
    have hfront : L.Holds n ((L.ready, u) :: (L.waiting, t) :: (tag L.ready promoted ++
        (tag L.ready s.allocated ++ (tag L.waiting s.waiting ++ l)))) s.maps := hH.of_count fun z => by
      simp only [tag_cons, List.count_append, List.count_cons]
      omega
    have hH₁ := Holds.preempt (Split.weaken hfront L.settle) hpre
    obtain ⟨_, s₂, hmod, h⟩ := bind_ok.1 h
    obtain rfl : { s₁ with waiting := insert_sorted s₁.waiting u' } = s₂ := by simpa using hmod
    replace h := BlockManager.get_ok h
    obtain ⟨⟨ok, t'⟩, s₃, halloc, h⟩ := bind_ok.1 h
    obtain ⟨hW₃, hA₃, -, -⟩ := Scheduler.control_eq (Scheduler.try_alloc_infer_task_ok halloc).1
    have hback : L.Holds n ((L.waiting, t) :: (tag L.ready promoted ++ (tag L.ready s.allocated ++
        (tag L.waiting (insert_sorted s₁.waiting u') ++ l)))) s₁.maps := hH₁.of_count fun z => by
      simp only [hW₁, tag_cons, List.count_append, List.count_cons, count_tag_insert_sorted]
      omega
    have hH₃ := Holds.admission (hback.congr fun d => by cases d <;> rfl) halloc
    dsimp only at h hH₃ hW₃ hA₃
    split at h
    · rename_i hok
      rw [if_pos hok] at hH₃
      obtain ⟨_, s₄, hmir, h⟩ := bind_ok.1 h
      obtain ⟨hW₄, hA₄, -, -⟩ :=
        Scheduler.control_eq ((Scheduler.try_extend_infer_task_keeps t' _ _).of_ok hmir)
      obtain rfl : { s₄ with allocated := s₄.allocated ++ t' :: promoted.reverse } = s' := by simpa using h
      refine ((hH₃.mirror hmir).congr fun d => by cases d <;> rfl).of_count fun z => ?_
      simp only [hW₄, hW₃, hA₄, hA₃, hA₁, tag_append, tag_cons, List.count_append, List.count_cons,
        count_tag_reverse]
      omega
    · rename_i hok
      rw [if_neg hok] at hH₃
      refine ih h (hH₃.of_count fun z => ?_)
      simp only [hW₃, hA₃, hA₁]

theorem Holds.reorder_round {back : List InferTask} (h : L.Holds n ((L.waiting, t) ::
      (tag L.ready s.allocated ++ (tag L.waiting s.waiting ++ l))) s.maps)
    (hrun : Scheduler.reorder_round t s = .ok back s') :
    L.Holds n (tag L.ready s'.allocated ++ (tag L.waiting s'.waiting ++ (tag L.waiting back ++ l)))
      s'.maps := by
  replace hrun := BlockManager.get_ok hrun
  obtain ⟨⟨ok, t'⟩, s₁, halloc, hrun⟩ := bind_ok.1 hrun
  obtain ⟨hW₁, hA₁, -, -⟩ := Scheduler.control_eq (Scheduler.try_alloc_infer_task_ok halloc).1
  have hH₁ := Holds.admission h halloc
  dsimp only at hrun hH₁
  split at hrun
  · rename_i hok
    rw [if_pos hok] at hH₁
    obtain ⟨_, s₂, hmir, hrun⟩ := bind_ok.1 hrun
    obtain ⟨hW₂, hA₂, -, -⟩ :=
      Scheduler.control_eq ((Scheduler.try_extend_infer_task_keeps t' _ _).of_ok hmir)
    obtain ⟨_, s₃, hmod, hrun⟩ := bind_ok.1 hrun
    obtain rfl : { s₂ with allocated := insert_sorted s₂.allocated t' } = s₃ := by simpa using hmod
    obtain ⟨rfl, rfl⟩ : [] = back ∧ _ = s' := by simpa using hrun
    refine ((hH₁.mirror hmir).congr fun d => by cases d <;> rfl).of_count fun z => ?_
    simp only [hW₂, hW₁, hA₂, hA₁, tag_cons, tag_nil, List.count_append, List.count_cons, List.count_nil,
      count_tag_insert_sorted]
    omega
  · rename_i hok
    rw [if_neg hok, ← hA₁, ← hW₁] at hH₁
    replace hrun := BlockManager.get_ok hrun
    have hsplit := Scheduler.split_promoted_append t' s₁.allocated
    obtain ⟨kept, hk⟩ : ∃ kept, kept = (Scheduler.split_promoted t' s₁.allocated).1 := ⟨_, rfl⟩
    obtain ⟨promoted, hp⟩ : ∃ promoted, promoted = (Scheduler.split_promoted t' s₁.allocated).2 :=
      ⟨_, rfl⟩
    have hpair : Scheduler.split_promoted t' s₁.allocated = (kept, promoted) := by rw [hk, hp]
    rw [← hk, ← hp] at hsplit
    rw [hpair] at hrun
    dsimp only at hrun
    split at hrun
    · obtain ⟨rfl, rfl⟩ : [t'] = back ∧ s₁ = s' := by simpa using hrun
      refine hH₁.of_count fun z => ?_
      simp only [tag_cons, tag_nil, List.count_append, List.count_cons, List.count_nil]
      omega
    · obtain ⟨_, s₂, hmod, hrun⟩ := bind_ok.1 hrun
      obtain rfl : { s₁ with allocated := kept } = s₂ := by simpa using hmod
      obtain ⟨ok', s₃, hcan, hrun⟩ := bind_ok.1 hrun
      obtain ⟨hW₃, hA₃, -, -⟩ :=
        Scheduler.control_eq ((Scheduler.can_alloc_infer_task_keeps t' _ _ _).of_ok hcan)
      have hmaps : s₃.maps = s₁.maps := (Scheduler.can_alloc_infer_task_maps hcan).trans
        (Scheduler.maps_congr fun d => by cases d <;> rfl)
      rw [← hmaps] at hH₁
      split at hrun
      · obtain ⟨_, s₄, hpre, hrun⟩ := bind_ok.1 hrun
        obtain ⟨rfl, rfl⟩ : [] = back ∧ s₄ = s' := by simpa using hrun
        refine Holds.preempt_promoted _ hpre (hH₁.of_count fun z => ?_)
        rw [← hsplit]
        simp only [hW₃, hA₃, tag_append, tag_nil, List.nil_append, List.count_append, List.count_cons,
        count_tag_reverse]
        omega
      · obtain ⟨_, s₄, hmod₄, hrun⟩ := bind_ok.1 hrun
        obtain rfl : { s₃ with allocated := s₃.allocated ++ promoted } = s₄ := by simpa using hmod₄
        obtain ⟨rfl, rfl⟩ : [t'] = back ∧ _ = s' := by simpa using hrun
        refine (hH₁.congr fun d => by cases d <;> rfl).of_count fun z => ?_
        rw [← hsplit]
        simp only [hW₃, hA₃, tag_append, tag_cons, tag_nil, List.count_append, List.count_cons,
          List.count_nil]
        omega

theorem Holds.reorder_loop (fuel : Nat) : ∀ {next next' : List InferTask} {s s' : Scheduler},
    Scheduler.reorder_loop fuel next s = .ok next' s' →
    L.Holds n (tag L.ready s.allocated ++ (tag L.waiting s.waiting ++ (tag L.waiting next ++ l))) s.maps →
    L.Holds n (tag L.ready s'.allocated ++ (tag L.waiting next' ++ l)) s'.maps := by
  induction fuel with
  | zero => intro next next' s s' h; simp [Scheduler.reorder_loop] at h
  | succ fuel ih =>
    intro next next' s s' h hH
    replace h := BlockManager.get_ok h
    cases hW : s.waiting with
    | nil =>
      rw [hW] at h hH
      obtain ⟨rfl, rfl⟩ : next = next' ∧ s = s' := by simpa using h
      exact hH
    | cons t queue =>
      rw [hW] at h hH
      obtain ⟨_, s₁, hmod, h⟩ := bind_ok.1 h
      obtain rfl : { s with waiting := queue } = s₁ := by simpa using hmod
      obtain ⟨back, s₂, hround, h⟩ := bind_ok.1 h
      have hfront : L.Holds n ((L.waiting, t) :: (tag L.ready s.allocated ++ (tag L.waiting queue ++
          (tag L.waiting next ++ l)))) s.maps := hH.of_count fun z => by
        simp only [tag_cons, List.count_append, List.count_cons]
        omega
      have hH₂ := Holds.reorder_round (hfront.congr fun d => by cases d <;> rfl) hround
      refine ih h (hH₂.of_count fun z => ?_)
      simp only [tag_append, List.count_append]
      omega

theorem Holds.admit_waiting (h : L.Holds n (tag L.ready s.allocated ++ (tag L.waiting s.waiting ++ l)) s.maps)
    (hrun : Scheduler.admit_waiting s = .ok .unit s') :
    L.Holds n (tag L.ready s'.allocated ++ (tag L.waiting s'.waiting ++ l)) s'.maps := by
  replace hrun := BlockManager.get_ok hrun
  split at hrun
  · replace hrun := BlockManager.get_ok hrun
    obtain ⟨next, s₁, hloop, hrun⟩ := bind_ok.1 hrun
    obtain rfl : { s₁ with waiting := next } = s' := by simpa using hrun
    exact (Holds.reorder_loop _ hloop (by simpa using h)).congr fun d => by cases d <;> rfl
  · exact Holds.admit_in_order _ hrun h

/-! ### Dispatch -/

omit [Hasher] in
theorem Holds.refill (h : L.Holds n l f) (hf : ∀ i, Refilled (f i) (f' i)) : L.Holds n l f' := by
  refine Split.rely h (fun i => .inr (hf i)) fun i hi hrest => ⟨L.gone_refilled hi hrest.1, fun hle => ?_⟩
  funext d
  exact hi.of_none (by rw [hrest.2 hle])

omit [Hasher] in
theorem Holds.dispatch {batch : Scheduler.Batch} (h : L.Holds n l s.maps)
    (hrun : Scheduler.dispatch s = .ok batch s') : L.Holds n l s'.maps :=
  h.refill ((Scheduler.dispatch_refilled s.maps).of_ok (fun _ => Refilled.refl _) hrun)

/-- A scheduling round; the tasks it leaves in `allocated` are ready. -/
theorem Holds.schedule {batch : Scheduler.Batch}
    (h : L.Holds n (tag L.allocated s.allocated ++ (tag L.waiting s.waiting ++ l)) s.maps)
    (hrun : Scheduler.schedule s = .ok batch s') :
    L.Holds n (tag L.ready s'.allocated ++ (tag L.waiting s'.waiting ++ l)) s'.maps := by
  obtain ⟨_, s₁, hext, hrun⟩ := bind_ok.1 hrun
  obtain ⟨_, s₂, hadm, hrun⟩ := bind_ok.1 hrun
  obtain ⟨batch', s₃, hdis, hrun⟩ := bind_ok.1 hrun
  obtain ⟨-, rfl⟩ : _ ∧ _ = s' := by simpa using BlockManager.modify_ok hrun
  obtain ⟨hW, hA, -, -⟩ := Scheduler.control_eq (Scheduler.dispatch_keeps.of_ok hdis)
  have h₃ := ((h.extend_tasks hext).admit_waiting hadm).dispatch hdis
  rw [← hW, ← hA] at h₃
  exact h₃.congr fun d => by cases d <;> rfl

end

end Lifecycle

end LMServe
