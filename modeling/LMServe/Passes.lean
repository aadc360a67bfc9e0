import LMServe.BlockMaps

/-!
# What the passes over a task do to its maps

Admission and extension give blocks to active sequences of a task one after the other and stop at the
first that does not fit, so a pass supplies some first part of them, on one device. Admission marks
the sequences it supplies; extension does not look at the status. Preemption frees what the active
sequences have on the GPU. No pass touches a map of another task.
-/

namespace LMServe
open Hoare

/-- The block maps, by sequence and device. -/
abbrev Maps := Nat → Device → Option BlockMap

/-- The ids a task owns. -/
def InferTask.ids (t : InferTask) : List Nat := t.seqs.map (·.seq_id)

/-- The sequences `l` have blocks for all their tokens now; nothing else has changed. -/
structure Supplied (l : List Sequence) (f f' : Nat → Option BlockMap) : Prop where
  blocks : ∀ seq ∈ l, ∃ b, f' seq.seq_id = some b ∧ b.num_allocated_slots = seq.token_ids.length ∧
    (Sized seq.token_ids.length (f seq.seq_id) → b.filled_token_len ≤ seq.token_ids.length)
  others : ∀ i, i ∉ l.map (·.seq_id) → f' i = f i

/-- The same on one device. -/
structure SuppliedOn (d : Device) (l : List Sequence) (f f' : Maps) : Prop where
  supplied : Supplied l (f · d) (f' · d)
  elsewhere : ∀ i d', d' ≠ d → f' i d' = f i d'

/-- The sequences `l` have no blocks on the GPU any more; nothing else has changed. -/
structure Freed (l : List Sequence) (f f' : Maps) : Prop where
  freed : ∀ seq ∈ l, f' seq.seq_id .Gpu = none
  others : ∀ i d, i ∉ l.map (·.seq_id) ∨ d ≠ .Gpu → f' i d = f i d

section
variable {l : List Sequence} {seq : Sequence} {f f₁ f' : Nat → Option BlockMap} {b : BlockMap}

theorem Supplied.nil (f : Nat → Option BlockMap) : Supplied [] f f := ⟨by simp, fun _ _ => rfl⟩

theorem Supplied.cons (h : Supplied l f₁ f') (hnew : seq.seq_id ∉ l.map (·.seq_id))
    (hf : f₁ = Function.update f seq.seq_id (some b))
    (hslots : b.num_allocated_slots = seq.token_ids.length)
    (hfilled : Sized seq.token_ids.length (f seq.seq_id) → b.filled_token_len ≤ seq.token_ids.length) :
    Supplied (seq :: l) f f' := by
  have hkeep : ∀ i, i ≠ seq.seq_id → f₁ i = f i := fun i hi => by
    rw [hf, Function.update_of_ne hi]
  refine ⟨fun x hx => ?_, fun i hi => ?_⟩
  · rcases List.mem_cons.1 hx with rfl | hx
    · refine ⟨b, ?_, hslots, hfilled⟩
      rw [h.others _ hnew, hf, Function.update_self]
    · have hne : x.seq_id ≠ seq.seq_id := fun heq => hnew (heq ▸ List.mem_map.2 ⟨x, hx, rfl⟩)
      rw [← hkeep _ hne]
      exact h.blocks x hx
  · rw [List.map_cons, List.mem_cons, not_or] at hi
    rw [h.others i hi.2, hkeep i hi.1]

end

/-! ### The loops -/

/-- The first `n` active sequences, marked as allocated. -/
def mark_allocated : Nat → List Sequence → List Sequence
  | _, [] => []
  | 0, l => l
  | n + 1, seq :: l =>
    if seq.is_active then { seq with status := .Allocated } :: mark_allocated n l
    else seq :: mark_allocated (n + 1) l

/-- The task with its active sequences back in status `Waiting`. -/
def InferTask.back (t : InferTask) : InferTask :=
  { t with seqs := t.seqs.map fun seq => if seq.is_active then { seq with status := .Waiting } else seq }

section
variable {n : Nat} {l : List Sequence} {seq : Sequence}

@[simp] theorem mark_allocated_zero (l : List Sequence) : mark_allocated 0 l = l := by
  cases l <;> rfl

theorem mark_allocated_active (h : seq.is_active = true) :
    mark_allocated (n + 1) (seq :: l) = { seq with status := .Allocated } :: mark_allocated n l := by
  rw [mark_allocated, if_pos h]

theorem mark_allocated_inactive (h : ¬ seq.is_active = true) :
    mark_allocated n (seq :: l) = seq :: mark_allocated n l := by
  cases n with
  | zero => simp
  | succ n => rw [mark_allocated, if_neg h]

@[simp] theorem mark_allocated_ids (n : Nat) (l : List Sequence) :
    (mark_allocated n l).map (·.seq_id) = l.map (·.seq_id) := by
  induction l generalizing n with
  | nil => cases n <;> rfl
  | cons seq l ih =>
    by_cases h : seq.is_active = true
    · cases n with
      | zero => simp
      | succ n => rw [mark_allocated_active h, List.map_cons, List.map_cons, ih]
    · rw [mark_allocated_inactive h, List.map_cons, List.map_cons, ih]

theorem mark_allocated_active_ids (n : Nat) (l : List Sequence) :
    ((mark_allocated n l).filter (·.is_active)).map (·.seq_id) = (l.filter (·.is_active)).map (·.seq_id) := by
  induction l generalizing n with
  | nil => cases n <;> rfl
  | cons seq l ih =>
    by_cases h : seq.is_active = true
    · cases n with
      | zero => simp
      | succ n =>
        rw [mark_allocated_active h, List.filter_cons_of_pos (by simp [Sequence.is_active]),
          List.filter_cons_of_pos h, List.map_cons, List.map_cons, ih]
    · rw [mark_allocated_inactive h, List.filter_cons_of_neg h, List.filter_cons_of_neg h, ih]

theorem mem_mark_allocated {n : Nat} {l : List Sequence} {x : Sequence} (hx : x ∈ mark_allocated n l) :
    x ∈ l ∨ ∃ seq ∈ l.filter (·.is_active), x = { seq with status := .Allocated } := by
  induction l generalizing n with
  | nil => cases n <;> cases hx
  | cons seq l ih =>
    have hold : ∀ {y : Sequence}, (y ∈ l ∨ ∃ z ∈ l.filter (·.is_active), y = { z with status := .Allocated }) →
        y ∈ seq :: l ∨ ∃ z ∈ (seq :: l).filter (·.is_active), y = { z with status := .Allocated } := by
      rintro y (hy | ⟨z, hz, rfl⟩)
      · exact .inl (List.mem_cons_of_mem _ hy)
      · refine .inr ⟨z, ?_, rfl⟩
        obtain ⟨hz, hact⟩ := List.mem_filter.1 hz
        exact List.mem_filter.2 ⟨List.mem_cons_of_mem _ hz, hact⟩
    by_cases h : seq.is_active = true
    · cases n with
      | zero => rw [mark_allocated_zero] at hx; exact .inl hx
      | succ n =>
        rw [mark_allocated_active h] at hx
        rcases List.mem_cons.1 hx with rfl | hx
        · exact .inr ⟨seq, List.mem_filter.2 ⟨List.mem_cons_self .., h⟩, rfl⟩
        · exact hold (ih hx)
    · rw [mark_allocated_inactive h] at hx
      rcases List.mem_cons.1 hx with rfl | hx
      · exact .inl (List.mem_cons_self ..)
      · exact hold (ih hx)

/-- When all active sequences are marked, none is left in another status. -/
theorem mark_allocated_all {l : List Sequence} {x : Sequence}
    (hx : x ∈ mark_allocated (l.filter (·.is_active)).length l) (hact : x.is_active = true) :
    ∃ seq ∈ l.filter (·.is_active), x = { seq with status := .Allocated } := by
  induction l with
  | nil => cases hx
  | cons seq l ih =>
    by_cases h : seq.is_active = true
    · rw [List.filter_cons_of_pos h, List.length_cons, mark_allocated_active h] at hx
      rw [List.filter_cons_of_pos h]
      rcases List.mem_cons.1 hx with rfl | hx
      · exact ⟨seq, List.mem_cons_self .., rfl⟩
      · obtain ⟨z, hz, rfl⟩ := ih hx
        exact ⟨z, List.mem_cons_of_mem _ hz, rfl⟩
    · rw [List.filter_cons_of_neg h, mark_allocated_inactive h] at hx
      rw [List.filter_cons_of_neg h]
      rcases List.mem_cons.1 hx with rfl | hx
      · exact absurd hact h
      · exact ih hx

end

theorem InferTask.back_ids (t : InferTask) : t.back.ids = t.ids := by
  unfold InferTask.back InferTask.ids
  rw [List.map_map]
  refine List.map_congr_left fun seq _ => ?_
  simp only [Function.comp_apply]
  split <;> rfl

theorem InferTask.active_ids_sublist (t : InferTask) :
    (t.get_active_seqs.map (·.seq_id)).Sublist t.ids :=
  List.filter_sublist.map _

namespace Scheduler

/-- The ids of the sequences that preempting the tasks frees. -/
def active_ids (tasks : List InferTask) : List Nat :=
  tasks.flatMap fun t => t.get_active_seqs.map (·.seq_id)

theorem mem_active_ids {t : InferTask} {tasks : List InferTask} (ht : t ∈ tasks) {seq : Sequence}
    (hseq : seq ∈ t.get_active_seqs) : seq.seq_id ∈ active_ids tasks :=
  List.mem_flatMap.2 ⟨t, ht, List.mem_map.2 ⟨seq, hseq, rfl⟩⟩

theorem active_ids_sublist (tasks : List InferTask) : (active_ids tasks).Sublist ((keys tasks).map Prod.fst) := by
  induction tasks with
  | nil => exact .slnil
  | cons t tasks ih =>
    have hids : t.keys.map Prod.fst = t.ids := List.map_map
    rw [keys, List.flatMap_cons, List.map_append, hids]
    exact t.active_ids_sublist.append ih

end Scheduler

section
variable {t : InferTask} {d : Device} {k : Nat} {f f' : Maps}

/-- A pass over a task leaves the other tasks alone. -/
theorem SuppliedOn.outside (h : SuppliedOn d (t.get_active_seqs.take k) f f') :
    ∀ i, i ∉ t.ids → f' i = f i := by
  intro i hi
  funext d'
  by_cases hd : d' = d
  · rw [hd]
    exact h.supplied.others i fun hmem =>
      hi (t.active_ids_sublist.subset (((List.take_sublist _ _).map _).subset hmem))
  · exact h.elsewhere i d' hd

theorem SuppliedOn.of_zero (h : SuppliedOn d (t.get_active_seqs.take 0) f f') : f' = f := by
  funext i d'
  by_cases hd : d' = d
  · rw [hd]; exact h.supplied.others i (by simp)
  · exact h.elsewhere i d' hd

theorem Freed.outside (h : Freed t.get_active_seqs f f') : ∀ i, i ∉ t.ids → f' i = f i := by
  intro i hi
  funext d
  exact h.others i d (.inl fun hmem => hi (t.active_ids_sublist.subset hmem))

end

namespace BlockManager

section
variable [Hasher]

theorem try_extend_loop_maps (w : Watermark) (l : List Sequence) (hl : (l.map (·.seq_id)).Nodup) :
    ∀ {m m' : BlockManager} {n : Nat}, Scheduler.try_extend_loop w l m = .ok n m' →
      n ≤ l.length ∧ Supplied (l.take n) m.get_block_map m'.get_block_map := by
  induction l with
  | nil =>
    intro m m' n h
    obtain ⟨rfl, rfl⟩ : 0 = n ∧ m = m' := by simpa [Scheduler.try_extend_loop] using h
    exact ⟨Nat.le_refl _, .nil _⟩
  | cons seq l ih =>
    intro m m' n h
    rw [List.map_cons, List.nodup_cons] at hl
    rw [Scheduler.try_extend_loop] at h
    obtain ⟨ok, m₁, hcan, h⟩ := bind_ok.1 h
    have hkeep := (can_alloc_seq_keeps BlockManager.get_block_map seq w).of_ok hcan
    split at h
    · obtain ⟨r, m₂, halloc, h⟩ := bind_ok.1 h
      obtain ⟨k, m₃, hrest, h⟩ := bind_ok.1 h
      obtain ⟨rfl, rfl⟩ : k + 1 = n ∧ m₃ = m' := by simpa using h
      obtain ⟨hk, hsup⟩ := ih hl.2 hrest
      obtain ⟨b, hmaps, hslots, hfilled, -⟩ := alloc_blocks_maps halloc
      refine ⟨Nat.succ_le_succ hk, ?_⟩
      rw [List.take_succ_cons]
      refine hsup.cons (fun hmem => hl.1 ((List.take_sublist _ _).map _ |>.subset hmem))
        (by rw [hmaps, hkeep]) hslots fun hsized => ?_
      rw [hfilled, get_filled_token_len, hkeep]
      cases hm : m.get_block_map seq.seq_id with
      | none => exact Nat.zero_le _
      | some b₀ => rw [hm] at hsized; exact (sized_some.1 hsized).1.trans (sized_some.1 hsized).2
    · obtain ⟨rfl, rfl⟩ : 0 = n ∧ m₁ = m' := by simpa using h
      rw [hkeep]
      exact ⟨Nat.zero_le _, .nil _⟩

theorem try_alloc_loop_maps [Watch] (w : Watermark) (l : List Sequence)
    (hl : (l.map (·.seq_id)).Nodup) :
    ∀ {m m' : BlockManager} {r : Nat × List Sequence}, Scheduler.try_alloc_loop w l m = .ok r m' →
      r.1 ≤ (l.filter (·.is_active)).length ∧ r.2 = mark_allocated r.1 l ∧
        Supplied ((l.filter (·.is_active)).take r.1) m.get_block_map m'.get_block_map := by
  induction l with
  | nil =>
    intro m m' r h
    obtain ⟨rfl, rfl⟩ : (0, []) = r ∧ m = m' := by simpa [Scheduler.try_alloc_loop] using h
    exact ⟨Nat.le_refl _, rfl, .nil _⟩
  | cons seq l ih =>
    intro m m' r h
    rw [List.map_cons, List.nodup_cons] at hl
    have hnew : ∀ k, seq.seq_id ∉ ((l.filter (·.is_active)).take k).map (·.seq_id) := fun k hmem =>
      hl.1 ((((List.take_sublist _ _).trans List.filter_sublist).map _).subset hmem)
    rw [Scheduler.try_alloc_loop] at h
    by_cases hact : seq.is_active = true
    · rw [if_pos hact] at h
      rw [List.filter_cons_of_pos hact]
      obtain ⟨k, m₁, hreq, h⟩ := bind_ok.1 h
      have hkeep := (get_num_required_blocks_keeps BlockManager.get_block_map seq).of_ok hreq
      replace h := get_ok h
      split at h
      · replace h := get_ok h
        obtain ⟨_, m₂, hw, h⟩ := bind_ok.1 h
        obtain ⟨-, rfl⟩ := Scheduler.watch_ok hw
        obtain ⟨_, m₃, hinit, h⟩ := bind_ok.1 h
        obtain ⟨_, m₄, halloc, h⟩ := bind_ok.1 h
        obtain ⟨⟨j, l'⟩, m₅, hrest, h⟩ := bind_ok.1 h
        obtain ⟨rfl, rfl⟩ : _ = r ∧ m₅ = m' := by simpa using h
        obtain ⟨hj, hmark, hsup⟩ := ih hl.2 hrest
        obtain rfl : l' = mark_allocated j l := hmark
        obtain ⟨b₀, hmaps₀, hold⟩ := init_prefix_cache_blocks_maps hinit
        obtain ⟨b, hmaps, hslots, hfilled, -⟩ := alloc_blocks_maps halloc
        refine ⟨Nat.succ_le_succ hj, (mark_allocated_active hact).symm, ?_⟩
        rw [List.take_succ_cons]
        refine hsup.cons (hnew j) (by rw [hmaps, hmaps₀, Function.update_idem, hkeep]) hslots
          fun hsized => ?_
        have hsized₀ : Sized seq.token_ids.length (some b₀) := by
          rcases hold with hold | ⟨-, h₀⟩
          · rw [← hold, hkeep]; exact hsized
          · exact h₀
        have hb₀ : m₃.get_block_map seq.seq_id = some b₀ := by rw [hmaps₀, Function.update_self]
        rw [hfilled, get_filled_token_len, hb₀]
        exact (sized_some.1 hsized₀).1.trans (sized_some.1 hsized₀).2
      · obtain ⟨rfl, rfl⟩ : _ = r ∧ m₁ = m' := by simpa using h
        rw [hkeep]
        exact ⟨Nat.zero_le _, (mark_allocated_zero _).symm, .nil _⟩
    · rw [if_neg hact] at h
      rw [List.filter_cons_of_neg hact]
      obtain ⟨⟨j, l'⟩, m₁, hrest, h⟩ := bind_ok.1 h
      obtain ⟨rfl, rfl⟩ : _ = r ∧ m₁ = m' := by simpa using h
      obtain ⟨hj, hmark, hsup⟩ := ih hl.2 hrest
      obtain rfl : l' = mark_allocated j l := hmark
      exact ⟨hj, (mark_allocated_inactive hact).symm, hsup⟩

end

end BlockManager

namespace Scheduler

def maps (s : Scheduler) : Maps := fun i d => (s.get_block_manager d).get_block_map i

theorem maps_set_block_manager (s : Scheduler) (d : Device) (m : BlockManager) (i : Nat) (d' : Device) :
    (s.set_block_manager d m).maps i d' = if d' = d then m.get_block_map i else s.maps i d' := by
  unfold maps
  rw [get_set_block_manager]
  split <;> rfl

theorem maps_congr {s s' : Scheduler} (h : ∀ d, s'.get_block_manager d = s.get_block_manager d) :
    s'.maps = s.maps := by
  funext i d
  simp only [maps, h]

theorem on_device_maps {α : Type} {d : Device} {x : BM α} {s s' : Scheduler} {a : α}
    (h : on_device d x s = .ok a s') :
    ∃ m', x (s.get_block_manager d) = .ok a m' ∧ (∀ i, s'.maps i d = m'.get_block_map i) ∧
      ∀ i d', d' ≠ d → s'.maps i d' = s.maps i d' := by
  obtain ⟨m', hx, rfl⟩ := on_device_ok h
  refine ⟨m', hx, fun i => ?_, fun i d' hd => ?_⟩
  · rw [maps_set_block_manager, if_pos rfl]
  · rw [maps_set_block_manager, if_neg hd]

section
variable [Watch] {t : InferTask} {s s' : Scheduler}

theorem preempt_infer_task_maps {t' : InferTask} (h : preempt_infer_task t s = .ok t' s') :
    Watch.preempted t = true ∧ t' = t.back ∧ Freed t.get_active_seqs s.maps s'.maps := by
  obtain ⟨_, s₀, hw, h⟩ := bind_ok.1 h
  obtain ⟨hp, rfl⟩ := watch_ok hw
  obtain ⟨_, s₁, hfor, h⟩ := bind_ok.1 h
  obtain ⟨rfl, rfl⟩ : _ = t' ∧ s₁ = s' := by simpa using h
  refine ⟨hp, rfl, ?_⟩
  clear hp hw h
  -- the sequences freed so far have no map, the others have the one they had
  have hloop : ∀ (l : List Sequence) {s s₁ : Scheduler},
      forM l (fun seq => on_device .Gpu (BlockManager.free seq.seq_id)) s = .ok .unit s₁ →
      Freed l s.maps s₁.maps := by
    intro l
    induction l with
    | nil =>
      intro s s₁ h
      obtain rfl : s = s₁ := by simpa using h
      exact ⟨by simp, fun _ _ _ => rfl⟩
    | cons seq l ih =>
      intro s s₁ h
      rw [List.forM_cons] at h
      obtain ⟨_, s₂, hfree, h⟩ := bind_ok.1 h
      obtain ⟨m, hm, hgpu, helse⟩ := on_device_maps hfree
      have hmaps := BlockManager.free_maps hm
      have hrest := ih h
      have hone : ∀ i d, i ≠ seq.seq_id ∨ d ≠ .Gpu → s₂.maps i d = s.maps i d := fun i d hid => by
        by_cases hd : d = .Gpu
        · subst hd
          rcases hid with hi | hd
          · rw [hgpu, hmaps, Function.update_of_ne hi]; rfl
          · exact absurd rfl hd
        · exact helse i d hd
      refine ⟨fun x hx => ?_, fun i d hid => ?_⟩
      · by_cases hmem : x.seq_id ∈ l.map (·.seq_id)
        · obtain ⟨y, hy, hyx⟩ := List.mem_map.1 hmem
          have := hrest.freed y hy
          rwa [hyx] at this
        · rcases List.mem_cons.1 hx with rfl | hx
          · rw [hrest.others _ _ (.inl hmem), hgpu, hmaps, Function.update_self]
          · exact absurd (List.mem_map.2 ⟨x, hx, rfl⟩) hmem
      · rw [List.map_cons, List.mem_cons, not_or] at hid
        rw [hrest.others i d (hid.imp_left (·.2)), hone i d (hid.imp_left (·.1))]
  exact hloop _ hfor

variable [Hasher] {w : Watermark} {d : Device}

theorem try_extend_infer_task_maps {ok : Bool} (ht : t.ids.Nodup)
    (h : try_extend_infer_task t w d s = .ok ok s') :
    ∃ n, n ≤ t.get_active_seqs.length ∧ ok = decide (0 < n) ∧ Watch.pass d t n = true ∧
      SuppliedOn d (t.get_active_seqs.take n) s.maps s'.maps := by
  obtain ⟨n, s₁, hdev, h⟩ := bind_ok.1 h
  obtain ⟨_, _, hw, h⟩ := bind_ok.1 h
  obtain ⟨hp, rfl⟩ := watch_ok hw
  obtain ⟨rfl, rfl⟩ : _ = ok ∧ s₁ = s' := by simpa using h
  obtain ⟨m, hm, hd, helse⟩ := on_device_maps hdev
  obtain ⟨hn, hsup⟩ := BlockManager.try_extend_loop_maps w _ (ht.sublist t.active_ids_sublist) hm
  refine ⟨n, hn, rfl, hp, ⟨?_, helse⟩⟩
  rw [show (s₁.maps · d) = m.get_block_map from funext hd]
  exact hsup

theorem try_alloc_infer_task_maps {r : Bool × InferTask} (ht : t.ids.Nodup)
    (h : try_alloc_infer_task t w d s = .ok r s') :
    ∃ n, n ≤ t.get_active_seqs.length ∧ r = (decide (0 < n), { t with seqs := mark_allocated n t.seqs }) ∧
      Watch.pass d t n = true ∧ SuppliedOn d (t.get_active_seqs.take n) s.maps s'.maps := by
  obtain ⟨⟨n, seqs⟩, s₁, hdev, h⟩ := bind_ok.1 h
  obtain ⟨_, _, hw, h⟩ := bind_ok.1 h
  obtain ⟨hp, rfl⟩ := watch_ok hw
  obtain ⟨rfl, rfl⟩ : _ = r ∧ s₁ = s' := by simpa using h
  obtain ⟨m, hm, hd, helse⟩ := on_device_maps hdev
  obtain ⟨hn, hmark, hsup⟩ := BlockManager.try_alloc_loop_maps w _ ht hm
  obtain rfl : seqs = mark_allocated n t.seqs := hmark
  refine ⟨n, hn, rfl, hp, ⟨?_, helse⟩⟩
  rw [show (s₁.maps · d) = m.get_block_map from funext hd]
  exact hsup

omit [Watch] in
theorem can_alloc_infer_task_maps {ok : Bool} {k : Nat}
    (h : can_alloc_infer_task t k w d s = .ok ok s') : s'.maps = s.maps := by
  have hloop : ∀ l, Keeps BlockManager.get_block_map (can_alloc_loop k w l) := by
    intro l
    induction l with
    | nil => exact Keeps.pure _
    | cons seq l ih =>
      refine (BlockManager.get_num_required_blocks_keeps _ seq).bind fun _ => Keeps.get.bind fun _ => ?_
      exact Keeps.ite (ih.bind fun _ => Keeps.pure _) (Keeps.pure _)
  obtain ⟨n, s₁, hdev, h⟩ := bind_ok.1 h
  obtain ⟨-, rfl⟩ : _ ∧ s₁ = s' := by simpa using h
  obtain ⟨m, hm, hd, helse⟩ := on_device_maps hdev
  funext i d'
  by_cases hdd : d' = d
  · rw [hdd, hd, (hloop _).of_ok hm]; rfl
  · exact helse i d' hdd

end

end Scheduler

end LMServe
