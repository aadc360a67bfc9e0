import LMServe.Lib.Weight
import LMServe.BlockMaps
import LMServe.Watching

/-!
# The loops of `schedule` by arrival time

A round of `schedule_waiting_with_reorder` is told by arrival times alone (`Reordered`): the waiting task
is admitted, goes to the tasks that wait on, or displaces tasks that arrived after it. So the loop ends
from every state, and it keeps both queues sorted if they were.
-/

namespace LMServe
open Hoare

/-- The loop of `is_sorted_by` with the key `get_arrival_time`. -/
def is_sorted_from (prev : Nat) : List InferTask → Bool
  | [] => true
  | item :: rest => if prev > item.arrival_time then false else is_sorted_from item.arrival_time rest

def is_sorted : List InferTask → Bool
  | [] => true
  | first :: rest => is_sorted_from first.arrival_time rest

def times (l : List InferTask) : List Nat := l.map (·.arrival_time)

section
variable {l l' : List InferTask} {t : InferTask} {a : Nat}

@[simp] theorem times_nil : times [] = [] := rfl

@[simp] theorem times_cons (t : InferTask) (l : List InferTask) :
    times (t :: l) = t.arrival_time :: times l := rfl

@[simp] theorem times_append (l l' : List InferTask) : times (l ++ l') = times l ++ times l' :=
  List.map_append

@[simp] theorem times_reverse (l : List InferTask) : times l.reverse = (times l).reverse :=
  List.map_reverse

@[simp] theorem length_times (l : List InferTask) : (times l).length = l.length := List.length_map ..

theorem is_sorted_from_iff : is_sorted_from a l = true ↔ (a :: times l).Pairwise (· ≤ ·) := by
  induction l generalizing a with
  | nil => simp [is_sorted_from]
  | cons t l ih =>
    unfold is_sorted_from
    split
    · rename_i hgt
      simp only [Bool.false_eq_true, times_cons, List.pairwise_cons, List.mem_cons, forall_eq_or_imp,
        false_iff, not_and]
      omega
    · rename_i hle
      rw [ih]
      simp only [times_cons, List.pairwise_cons, List.mem_cons, forall_eq_or_imp]
      constructor
      · rintro ⟨ht, hl⟩
        exact ⟨⟨not_lt.1 hle, fun b hb => (not_lt.1 hle).trans (ht b hb)⟩, ht, hl⟩
      · rintro ⟨-, ht, hl⟩
        exact ⟨ht, hl⟩

theorem is_sorted_iff : is_sorted l = true ↔ (times l).Pairwise (· ≤ ·) := by
  cases l with
  | nil => simp [is_sorted]
  | cons t l => exact is_sorted_from_iff

/-- Insertion by arrival time goes behind those that arrived at the same time. -/
theorem times_insert_sorted (l : List InferTask) (t : InferTask) :
    times (insert_sorted l t) = (times l).orderedInsert (· < ·) t.arrival_time := by
  induction l with
  | nil => rfl
  | cons u l ih =>
    unfold insert_sorted
    rw [times_cons, List.orderedInsert_cons]
    split
    · rfl
    · rw [times_cons, ih]

theorem sorted_orderedInsert {l : List Nat} (h : l.Pairwise (· ≤ ·)) (a : Nat) :
    (l.orderedInsert (· < ·) a).Pairwise (· ≤ ·) := by
  induction l with
  | nil => exact List.pairwise_singleton ..
  | cons b l ih =>
    obtain ⟨hb, hl⟩ := List.pairwise_cons.1 h
    rw [List.orderedInsert_cons]
    split
    · rename_i hlt
      refine List.pairwise_cons.2 ⟨fun c hc => ?_, h⟩
      rcases List.mem_cons.1 hc with rfl | hc
      · exact hlt.le
      · exact hlt.le.trans (hb c hc)
    · rename_i hle
      refine List.pairwise_cons.2 ⟨fun c hc => ?_, ih hl⟩
      rcases (List.mem_orderedInsert _).1 hc with rfl | hc
      · exact not_lt.1 hle
      · exact hb c hc

end

/-- Insert these one after the other. -/
def insert_all (l gone : List Nat) : List Nat := gone.foldl (·.orderedInsert (· < ·) ·) l

theorem insert_all_perm (gone : List Nat) : ∀ l, (insert_all l gone).Perm (gone ++ l) := by
  induction gone with
  | nil => exact fun _ => .refl _
  | cons a gone ih =>
    exact fun l => (ih _).trans (((List.perm_orderedInsert _ a l).append_left gone).trans List.perm_middle)

theorem sorted_insert_all (gone : List Nat) : ∀ {l : List Nat}, l.Pairwise (· ≤ ·) →
    (insert_all l gone).Pairwise (· ≤ ·) := by
  induction gone with
  | nil => exact id
  | cons a gone ih => exact fun h => ih (sorted_orderedInsert h a)

/-- What a round for a task that arrived at `a` may do to the waiting and the allocated tasks `W` and
`A`, by arrival times: what goes to `next_waiting`, and the two queues afterwards. -/
inductive Reordered (a : Nat) (W A : List Nat) : List Nat → List Nat → List Nat → Prop
  | enter : Reordered a W A [] W (A.orderedInsert (· < ·) a)
  | stay : Reordered a W A [a] W A
  /-- the newest of the promoted tasks make room for it -/
  | displace {kept promoted rest gone : List Nat} (hA : A = kept ++ promoted)
      (hkept : ∀ b ∈ kept.getLast?, b ≤ a) (hpromoted : ∀ b ∈ promoted, a < b)
      (hgone : promoted.reverse = gone ++ rest) :
      Reordered a W A [] (insert_all W gone) (kept ++ a :: rest.reverse)
  /-- all of them do, and it is not admitted even so -/
  | drop {kept promoted : List Nat} (hA : A = kept ++ promoted) (hkept : ∀ b ∈ kept.getLast?, b ≤ a)
      (hpromoted : ∀ b ∈ promoted, a < b) : Reordered a W A [] (insert_all W promoted.reverse) kept

section
variable {a b c : Nat} {W A N back W' A' : List Nat}

theorem le_of_le_getLast {l : List Nat} (h : l.Pairwise (· ≤ ·)) (hlast : ∀ b ∈ l.getLast?, b ≤ a)
    (hc : c ∈ l) : c ≤ a := by
  cases hl : l.getLast? with
  | none => rw [List.getLast?_eq_none_iff.1 hl] at hc; cases hc
  | some b =>
    have hb : b ≤ a := hlast b hl
    rw [← List.dropLast_append_getLast? b hl, List.pairwise_append] at h
    rw [← List.dropLast_append_getLast? b hl, List.mem_append, List.mem_singleton] at hc
    rcases hc with hc | rfl
    · exact (h.2.2 c hc b (List.mem_singleton_self b)).trans hb
    · exact hb

theorem mem_insert_all {l gone : List Nat} : c ∈ insert_all l gone ↔ c ∈ gone ∨ c ∈ l := by
  rw [(insert_all_perm gone l).mem_iff, List.mem_append]

/-- The tasks set aside stay in front of those in the queue, and all three lists stay sorted. -/
theorem Reordered.sorted (h : Reordered a W A back W' A') (hW : (a :: W).Pairwise (· ≤ ·))
    (hA : A.Pairwise (· ≤ ·)) (hN : N.Pairwise (· ≤ ·)) (hle : ∀ b ∈ N, ∀ c ∈ a :: W, b ≤ c) :
    W'.Pairwise (· ≤ ·) ∧ A'.Pairwise (· ≤ ·) ∧ (N ++ back).Pairwise (· ≤ ·) ∧
      ∀ b ∈ N ++ back, ∀ c ∈ W', b ≤ c := by
  obtain ⟨ha, hW⟩ := List.pairwise_cons.1 hW
  have hfront : ∀ b ∈ N, b ≤ a := fun b hb => hle b hb a List.mem_cons_self
  have hrest : ∀ b ∈ N, ∀ c ∈ W, b ≤ c := fun b hb c hc => hle b hb c (List.mem_cons_of_mem a hc)
  have hins : ∀ {promoted gone : List Nat}, (∀ b ∈ promoted, a < b) → (∀ b ∈ gone, b ∈ promoted) →
      ∀ b ∈ N ++ [], ∀ c ∈ insert_all W gone, b ≤ c := by
    intro promoted gone hpromoted hsub b hb c hc
    rw [List.append_nil] at hb
    rcases mem_insert_all.1 hc with hc | hc
    · exact (hfront b hb).trans (hpromoted c (hsub c hc)).le
    · exact hrest b hb c hc
  cases h with
  | enter => exact ⟨hW, sorted_orderedInsert hA a, by rwa [List.append_nil], by rwa [List.append_nil]⟩
  | stay =>
    refine ⟨hW, hA, List.pairwise_append.2 ⟨hN, List.pairwise_singleton .., fun b hb c hc => ?_⟩,
      fun b hb c hc => ?_⟩
    · exact List.mem_singleton.1 hc ▸ hfront b hb
    · rcases List.mem_append.1 hb with hb | hb
      · exact hrest b hb c hc
      · exact List.mem_singleton.1 hb ▸ ha c hc
  | @displace kept promoted rest gone hA' hkept hpromoted hgone =>
    rw [hA'] at hA
    obtain ⟨hk, hp, -⟩ := List.pairwise_append.1 hA
    have hsplit : promoted = rest.reverse ++ gone.reverse := by
      rw [← List.reverse_append, ← hgone, List.reverse_reverse]
    have hsub : ∀ b ∈ gone, b ∈ promoted := fun b hb => by rw [hsplit]; simp [hb]
    rw [hsplit] at hp hpromoted
    refine ⟨sorted_insert_all gone hW, List.pairwise_append.2 ⟨hk, ?_, fun b hb c hc => ?_⟩,
      by rwa [List.append_nil], hins hpromoted fun b hb => hsplit ▸ hsub b hb⟩
    · exact List.pairwise_cons.2 ⟨fun b hb => (hpromoted b (List.mem_append_left _ hb)).le,
        (List.pairwise_append.1 hp).1⟩
    · have hba : b ≤ a := le_of_le_getLast hk hkept hb
      rcases List.mem_cons.1 hc with rfl | hc
      · exact hba
      · exact hba.trans (hpromoted c (List.mem_append_left _ hc)).le
  | @drop kept promoted hA' hkept hpromoted =>
    rw [hA'] at hA
    exact ⟨sorted_insert_all _ hW, (List.pairwise_append.1 hA).1, by rwa [List.append_nil],
      hins hpromoted fun b hb => List.mem_reverse.1 hb⟩

/-- A round takes more from the weight of the queue than it puts back, when tasks weigh more the more of
the others arrived later. -/
theorem Reordered.lighter {T : List Nat} {B : Nat} (h : Reordered a W A back W' A')
    (hlen : W.length + A.length + 1 < B) (hT : ∀ b ∈ a :: (W ++ A), b ∈ T) :
    weight B (greater T) W' < weight B (greater T) (a :: W) ∧
      W'.length + A'.length ≤ W.length + A.length + 1 ∧ ∀ b ∈ W' ++ A', b ∈ T := by
  have hpos : 0 < B ^ greater T a := Nat.pow_pos (by omega)
  have hins : ∀ {kept promoted gone : List Nat}, A = kept ++ promoted → (∀ b ∈ promoted, a < b) →
      gone.length ≤ promoted.length → (∀ b ∈ gone, b ∈ promoted) →
      weight B (greater T) (insert_all W gone) < weight B (greater T) (a :: W) := by
    intro kept promoted gone hA hpromoted hle hsub
    have hlow : weight B (greater T) gone < B ^ greater T a :=
      weight_lt (by rw [hA, List.length_append] at hlen; omega) fun b hb =>
        greater_lt (hpromoted b (hsub b hb)) (hT b (by simp [hA, hsub b hb]))
    rw [(insert_all_perm gone W).weight_eq, weight_append, weight_cons]
    omega
  cases h with
  | enter =>
    have hperm := List.perm_orderedInsert (· < ·) a A
    refine ⟨by rw [weight_cons]; omega, ?_, fun b hb => hT b ?_⟩
    · rw [hperm.length_eq, List.length_cons]
      omega
    · rw [List.mem_append, hperm.mem_iff] at hb
      simp only [List.mem_cons, List.mem_append] at hb ⊢
      tauto
  | stay =>
    exact ⟨by rw [weight_cons]; omega, by omega, fun b hb => hT b (List.mem_cons_of_mem a hb)⟩
  | @displace kept promoted rest gone hA hkept hpromoted hgone =>
    have hsplit : promoted.length = gone.length + rest.length := by
      rw [← List.length_reverse, hgone, List.length_append]
    have hmem : ∀ b, b ∈ promoted ↔ b ∈ gone ∨ b ∈ rest := fun b => by
      rw [← List.mem_reverse, hgone, List.mem_append]
    refine ⟨hins hA hpromoted (by omega) fun b hb => (hmem b).2 (.inl hb), ?_, fun b hb => hT b ?_⟩
    · rw [(insert_all_perm gone W).length_eq, hA]
      simp only [List.length_append, List.length_cons, List.length_reverse]
      omega
    · rw [hA]
      simp only [List.mem_append, mem_insert_all, List.mem_cons, List.mem_reverse, hmem] at hb ⊢
      tauto
  | @drop kept promoted hA hkept hpromoted =>
    refine ⟨hins hA hpromoted (by simp) fun b hb => List.mem_reverse.1 hb, ?_, fun b hb => hT b ?_⟩
    · rw [(insert_all_perm _ W).length_eq, hA]
      simp only [List.length_append, List.length_reverse]
      omega
    · rw [hA]
      simp only [List.mem_append, mem_insert_all, List.mem_cons, List.mem_reverse] at hb ⊢
      tauto

end

theorem InferTask.arrival_time_of_ident {t t' : InferTask} (h : t.ident = t'.ident) :
    t.arrival_time = t'.arrival_time := by
  simp only [ident, Prod.mk.injEq] at h; exact h.2.1

namespace Scheduler

theorem split_promoted_times {t : InferTask} {A kept promoted : List InferTask}
    (h : split_promoted t A = (kept, promoted)) :
    times A = times kept ++ times promoted ∧ (∀ b ∈ (times kept).getLast?, b ≤ t.arrival_time) ∧
      ∀ b ∈ times promoted, t.arrival_time < b := by
  have happend := split_promoted_append t A
  rw [h] at happend
  simp only [split_promoted, Prod.mk.injEq] at h
  obtain ⟨rfl, rfl⟩ := h
  refine ⟨by rw [← times_append, happend], fun b hb => ?_, fun b hb => ?_⟩
  · rw [times_reverse, List.getLast?_reverse] at hb
    have hhead := List.head?_dropWhile_not
      (fun u : InferTask => decide (t.arrival_time < u.arrival_time)) A.reverse
    rw [times, List.head?_map, Option.mem_def, Option.map_eq_some_iff] at hb
    obtain ⟨u, hu, rfl⟩ := hb
    rw [hu] at hhead
    simpa using hhead
  · rw [times_reverse, List.mem_reverse] at hb
    obtain ⟨u, hu, rfl⟩ := List.mem_map.1 hb
    exact of_decide_eq_true (List.all_eq_true.1 List.all_takeWhile u hu)

section
variable [Hasher] [Watch]

/-- The preemption loop moves the newest promoted tasks to `waiting`, and the task and the others to
`allocated`, or all of them to `waiting`. -/
theorem preempt_promoted_times (promoted : List InferTask) : ∀ {t : InferTask} {s s' : Scheduler},
    preempt_promoted t promoted s = .ok .unit s' →
    (∃ gone rest, times promoted = gone ++ rest ∧ times s'.waiting = insert_all (times s.waiting) gone ∧
      times s'.allocated = times s.allocated ++ t.arrival_time :: rest.reverse) ∨
    times s'.waiting = insert_all (times s.waiting) (times promoted) ∧
      times s'.allocated = times s.allocated := by
  induction promoted with
  | nil =>
    intro t s s' h
    obtain ⟨-, rfl⟩ := watch_ok h
    exact .inr ⟨rfl, rfl⟩
  | cons u promoted ih =>
    intro t s s' h
    obtain ⟨u', s₁, hpre, h⟩ := bind_ok.1 h
    obtain ⟨hc, hid⟩ := preempt_infer_task_ok hpre
    obtain ⟨hW₁, hA₁, -, -⟩ := control_eq hc
    obtain ⟨_, s₂, hmod, h⟩ := bind_ok.1 h
    obtain rfl : { s₁ with waiting := insert_sorted s₁.waiting u' } = s₂ := by simpa using hmod
    obtain ⟨_, _, hget, h⟩ := bind_ok.1 h
    obtain ⟨rfl, rfl⟩ : _ ∧ _ := by simpa using hget
    obtain ⟨⟨ok, t'⟩, s₃, halloc, h⟩ := bind_ok.1 h
    obtain ⟨hc₃, hid₃⟩ := try_alloc_infer_task_ok halloc
    obtain ⟨hW₃, hA₃, -, -⟩ := control_eq hc₃
    have hwaiting : times s₃.waiting = (times s.waiting).orderedInsert (· < ·) u.arrival_time := by
      rw [hW₃]
      show times (insert_sorted s₁.waiting u') = _
      rw [times_insert_sorted, hW₁, InferTask.arrival_time_of_ident hid]
    have hallocated : s₃.allocated = s.allocated := hA₃.trans hA₁
    have htime : t'.arrival_time = t.arrival_time := InferTask.arrival_time_of_ident hid₃
    dsimp only at h
    split at h
    · obtain ⟨_, s₄, hext, h⟩ := bind_ok.1 h
      obtain ⟨hW₄, hA₄, -, -⟩ := control_eq ((try_extend_infer_task_keeps t' _ _).of_ok hext)
      obtain rfl : { s₄ with allocated := s₄.allocated ++ t' :: promoted.reverse } = s' := by
        simpa using h
      refine .inl ⟨[u.arrival_time], times promoted, rfl, ?_, ?_⟩
      · show times s₄.waiting = _
        rw [hW₄, hwaiting]
        rfl
      · show times (s₄.allocated ++ _) = _
        rw [hA₄, hallocated, times_append, times_cons, times_reverse, htime]
    · rcases ih h with ⟨gone, rest, hsplit, hW, hA⟩ | ⟨hW, hA⟩
      · refine .inl ⟨u.arrival_time :: gone, rest, by rw [times_cons, hsplit]; rfl, ?_, ?_⟩
        · rw [hW, hwaiting]
          rfl
        · rw [hA, hallocated, htime]
      · refine .inr ⟨?_, by rw [hA, hallocated]⟩
        rw [hW, hwaiting]
        rfl

theorem reorder_round_times {t : InferTask} {back : List InferTask} {s s' : Scheduler}
    (h : reorder_round t s = .ok back s') :
    Reordered t.arrival_time (times s.waiting) (times s.allocated)
      (times back) (times s'.waiting) (times s'.allocated) := by
  obtain ⟨_, _, hget, h⟩ := bind_ok.1 h
  obtain ⟨rfl, rfl⟩ : _ ∧ _ := by simpa using hget
  obtain ⟨⟨ok, t'⟩, s₁, halloc, h⟩ := bind_ok.1 h
  obtain ⟨hc, hid⟩ := try_alloc_infer_task_ok halloc
  obtain ⟨hW₁, hA₁, -, -⟩ := control_eq hc
  have htime : t'.arrival_time = t.arrival_time := InferTask.arrival_time_of_ident hid
  dsimp only at h
  rw [← hW₁, ← hA₁, ← htime]
  split at h
  · obtain ⟨_, s₂, hext, h⟩ := bind_ok.1 h
    obtain ⟨hW₂, hA₂, -, -⟩ := control_eq ((try_extend_infer_task_keeps t' _ _).of_ok hext)
    obtain ⟨_, s₃, hmod, h⟩ := bind_ok.1 h
    obtain rfl : { s₂ with allocated := insert_sorted s₂.allocated t' } = s₃ := by simpa using hmod
    obtain ⟨rfl, rfl⟩ : [] = back ∧ _ = s' := by simpa using h
    show Reordered _ _ _ _ (times s₂.waiting) (times (insert_sorted s₂.allocated t'))
    rw [hW₂, hA₂, times_insert_sorted]
    exact .enter
  · obtain ⟨_, _, hget, h⟩ := bind_ok.1 h
    obtain ⟨rfl, rfl⟩ : _ ∧ _ := by simpa using hget
    obtain ⟨⟨kept, promoted⟩, hpair⟩ : ∃ p, p = split_promoted t' s₁.allocated := ⟨_, rfl⟩
    obtain ⟨hA, hkept, hpromoted⟩ := split_promoted_times hpair.symm
    rw [← hpair] at h
    dsimp only at h
    split at h
    · obtain ⟨rfl, rfl⟩ : [t'] = back ∧ s₁ = s' := by simpa using h
      exact .stay
    · obtain ⟨_, s₂, hmod, h⟩ := bind_ok.1 h
      obtain rfl : { s₁ with allocated := kept } = s₂ := by simpa using hmod
      obtain ⟨ok', s₃, hcan, h⟩ := bind_ok.1 h
      obtain ⟨hW₃, hA₃, -, -⟩ := control_eq ((can_alloc_infer_task_keeps t' _ _ _).of_ok hcan)
      replace hW₃ : s₃.waiting = s₁.waiting := hW₃
      replace hA₃ : s₃.allocated = kept := hA₃
      split at h
      · obtain ⟨_, s₄, hpre, h⟩ := bind_ok.1 h
        obtain ⟨rfl, rfl⟩ : [] = back ∧ s₄ = s' := by simpa using h
        rcases preempt_promoted_times _ hpre with ⟨gone, rest, hsplit, hW, hA'⟩ | ⟨hW, hA'⟩
        · rw [hW, hA', hW₃, hA₃]
          exact .displace hA hkept hpromoted (by rw [← times_reverse, hsplit])
        · rw [hW, hA', hW₃, hA₃, times_reverse]
          exact .drop hA hkept hpromoted
      · obtain ⟨_, s₄, hmod₄, h⟩ := bind_ok.1 h
        obtain rfl : { s₃ with allocated := s₃.allocated ++ promoted } = s₄ := by simpa using hmod₄
        obtain ⟨rfl, rfl⟩ : [t'] = back ∧ _ = s' := by simpa using h
        show Reordered _ _ _ _ (times s₃.waiting) (times (s₃.allocated ++ promoted))
        rw [hW₃, hA₃, times_append, ← hA]
        exact .stay

/-! ### The loops are the only ones to run out of rounds -/

omit [Hasher] [Watch] in
theorem watch_bounded {σ : Type} (c : Bool) : Stops (· ≠ .outOfFuel) (watch c : EStateM Panic σ PUnit) :=
  Stops.ite (Stops.pure _) (Stops.throw nofun)

omit [Watch] in
theorem can_alloc_seq_bounded (seq : Sequence) (w : Watermark) :
    Stops (· ≠ .outOfFuel) (BlockManager.can_alloc_seq seq w) :=
  (BlockManager.can_alloc_seq_stops seq w).mono fun _ h => h.2

omit [Watch] in
theorem get_num_required_blocks_bounded (seq : Sequence) :
    Stops (· ≠ .outOfFuel) (BlockManager.get_num_required_blocks seq) :=
  (BlockManager.get_num_required_blocks_stops seq).mono fun _ h => h.2

omit [Watch] in
theorem alloc_blocks_bounded (seq : Sequence) : Stops (· ≠ .outOfFuel) (BlockManager.alloc_blocks seq) :=
  (BlockManager.alloc_blocks_stops seq).mono fun _ h => h.2

omit [Watch] in
theorem try_extend_loop_bounded (w : Watermark) (l : List Sequence) :
    Stops (· ≠ .outOfFuel) (try_extend_loop w l) := by
  induction l with
  | nil => exact Stops.pure _
  | cons seq l ih =>
    refine (can_alloc_seq_bounded seq w).bind fun ok => Stops.ite ?_ (Stops.pure _)
    exact (alloc_blocks_bounded seq).bind fun _ => ih.bind fun _ => Stops.pure _

theorem try_extend_infer_task_bounded (t : InferTask) (w : Watermark) (d : Device) :
    Stops (· ≠ .outOfFuel) (try_extend_infer_task t w d) :=
  (try_extend_loop_bounded w _).zoom.bind fun _ => (watch_bounded _).bind fun _ => Stops.pure _

omit [Watch] in
theorem can_alloc_infer_task_bounded (t : InferTask) (k : Nat) (w : Watermark) (d : Device) :
    Stops (· ≠ .outOfFuel) (can_alloc_infer_task t k w d) := by
  refine Stops.bind (Stops.zoom ?_) fun _ => Stops.pure _
  induction t.get_active_seqs with
  | nil => exact Stops.pure _
  | cons seq l ih =>
    refine (get_num_required_blocks_bounded seq).bind fun _ => Stops.get.bind fun _ => ?_
    exact Stops.ite (ih.bind fun _ => Stops.pure _) (Stops.pure _)

theorem try_alloc_loop_bounded (w : Watermark) (l : List Sequence) :
    Stops (· ≠ .outOfFuel) (try_alloc_loop w l) := by
  induction l with
  | nil => exact Stops.pure _
  | cons seq l ih =>
    refine Stops.ite ?_ (ih.bind fun _ => Stops.pure _)
    refine (get_num_required_blocks_bounded seq).bind fun _ => Stops.get.bind fun _ => ?_
    refine Stops.ite (Stops.get.bind fun _ => (watch_bounded _).bind fun _ => ?_) (Stops.pure _)
    refine ((BlockManager.init_prefix_cache_blocks_stops seq).mono fun _ h => h.2).bind fun _ => ?_
    exact (alloc_blocks_bounded seq).bind fun _ => ih.bind fun _ => Stops.pure _

theorem try_alloc_infer_task_bounded (t : InferTask) (w : Watermark) (d : Device) :
    Stops (· ≠ .outOfFuel) (try_alloc_infer_task t w d) :=
  (try_alloc_loop_bounded w _).zoom.bind fun _ => (watch_bounded _).bind fun _ => Stops.pure _

omit [Hasher] in
theorem preempt_infer_task_bounded (t : InferTask) : Stops (· ≠ .outOfFuel) (preempt_infer_task t) := by
  refine (watch_bounded _).bind fun _ => Stops.bind (Stops.forM (fun seq => ?_) _) fun _ => Stops.pure _
  exact ((BlockManager.free_stops seq.seq_id).mono fun _ h => h.2).zoom

theorem preempt_promoted_bounded (promoted : List InferTask) : ∀ t,
    Stops (· ≠ .outOfFuel) (preempt_promoted t promoted) := by
  induction promoted with
  | nil => exact fun _ => watch_bounded _
  | cons u promoted ih =>
    intro t
    refine (preempt_infer_task_bounded u).bind fun _ => (Stops.modify _).bind fun _ => Stops.get.bind fun _ => ?_
    refine (try_alloc_infer_task_bounded t _ _).bind fun _ => Stops.ite ?_ (ih _)
    exact (try_extend_infer_task_bounded _ _ _).bind fun _ => Stops.modify _

theorem reorder_round_bounded (t : InferTask) : Stops (· ≠ .outOfFuel) (reorder_round t) := by
  refine Stops.get.bind fun s => (try_alloc_infer_task_bounded t _ _).bind fun _ => Stops.ite ?_ ?_
  · exact (try_extend_infer_task_bounded _ _ _).bind fun _ => (Stops.modify _).bind fun _ => Stops.pure _
  · refine Stops.get.bind fun s => Stops.ite (Stops.pure _) ((Stops.modify _).bind fun _ => ?_)
    refine (can_alloc_infer_task_bounded _ _ _ _).bind fun _ => Stops.ite ?_ ?_
    · exact (preempt_promoted_bounded _ _).bind fun _ => Stops.pure _
    · exact (Stops.modify _).bind fun _ => Stops.pure _

theorem extend_allocated_bounded (fuel : Nat) : ∀ {extended : List InferTask} {s : Scheduler} {e : Panic}
    {s' : Scheduler}, s.allocated.length < fuel → extend_allocated fuel extended s = .error e s' →
      e ≠ .outOfFuel := by
  induction fuel with
  | zero => exact fun h => absurd h (Nat.not_lt_zero _)
  | succ fuel ih =>
    intro extended s e s' hlt h
    rcases bind_error.1 h with hget | ⟨_, _, hget, h⟩
    · cases hget
    obtain ⟨rfl, rfl⟩ : _ ∧ _ := by simpa using hget
    cases hA : s.allocated with
    | nil => rw [hA] at h; cases h
    | cons t queue =>
      rw [hA, List.length_cons] at hlt
      rw [hA] at h
      dsimp only at h
      rcases bind_error.1 h with hmod | ⟨_, s₁, hmod, h⟩
      · cases hmod
      obtain rfl : { s with allocated := queue } = s₁ := by simpa using hmod
      rcases bind_error.1 h with hext | ⟨ok, s₂, hext, h⟩
      · exact try_extend_infer_task_bounded _ _ _ _ _ _ hext
      obtain ⟨-, hA₂, -, -⟩ := control_eq ((try_extend_infer_task_keeps t _ _).of_ok hext)
      replace hA₂ : s₂.allocated = queue := hA₂
      split at h
      · rcases bind_error.1 h with hext' | ⟨_, s₃, hext', h⟩
        · exact try_extend_infer_task_bounded _ _ _ _ _ _ hext'
        obtain ⟨-, hA₃, -, -⟩ := control_eq ((try_extend_infer_task_keeps t _ _).of_ok hext')
        exact ih (by rw [hA₃, hA₂]; omega) h
      · cases hlast : queue.getLast? with
        | some last =>
          simp only [hlast] at h
          have hne : queue ≠ [] := by rintro rfl; cases hlast
          have hpos : 0 < queue.length := List.length_pos_of_ne_nil hne
          rcases bind_error.1 h with hmod₃ | ⟨_, s₃, hmod₃, h⟩
          · cases hmod₃
          obtain rfl : { s₂ with allocated := queue.dropLast } = s₃ := by simpa using hmod₃
          rcases bind_error.1 h with hpre | ⟨t', s₄, hpre, h⟩
          · exact preempt_infer_task_bounded _ _ _ _ hpre
          obtain ⟨-, hA₄, -, -⟩ := control_eq (preempt_infer_task_ok hpre).1
          replace hA₄ : s₄.allocated = queue.dropLast := hA₄
          rcases bind_error.1 h with hmod₅ | ⟨_, s₅, hmod₅, h⟩
          · cases hmod₅
          simp only [modify_apply, EStateM.Result.ok.injEq, true_and] at hmod₅
          refine ih ?_ h
          rw [← hmod₅]
          show (t :: s₄.allocated).length < fuel
          rw [hA₄, List.length_cons, List.length_dropLast]
          omega
        | none =>
          simp only [hlast] at h
          rcases bind_error.1 h with hw | ⟨_, _, -, h⟩
          · exact watch_bounded _ _ _ _ hw
          · cases h

theorem reorder_loop_bounded {T : List Nat} {B : Nat} (fuel : Nat) : ∀ {next : List InferTask}
    {s : Scheduler} {e : Panic} {s' : Scheduler}, s.waiting.length + s.allocated.length < B →
      (∀ b ∈ times s.waiting ++ times s.allocated, b ∈ T) → weight B (greater T) (times s.waiting) < fuel →
        reorder_loop fuel next s = .error e s' → e ≠ .outOfFuel := by
  induction fuel with
  | zero => exact fun _ _ h => absurd h (Nat.not_lt_zero _)
  | succ fuel ih =>
    intro next s e s' hlen hT hlt h
    rcases bind_error.1 h with hget | ⟨_, _, hget, h⟩
    · cases hget
    obtain ⟨rfl, rfl⟩ : _ ∧ _ := by simpa using hget
    cases hW : s.waiting with
    | nil => rw [hW] at h; cases h
    | cons t queue =>
      rw [hW] at h hlen hT hlt
      dsimp only at h
      rcases bind_error.1 h with hmod | ⟨_, s₁, hmod, h⟩
      · cases hmod
      obtain rfl : { s with waiting := queue } = s₁ := by simpa using hmod
      rcases bind_error.1 h with hround | ⟨back, s₂, hround, h⟩
      · exact reorder_round_bounded _ _ _ _ hround
      rw [List.length_cons] at hlen
      obtain ⟨hdown, hlen₂, hT₂⟩ := (reorder_round_times hround).lighter (T := T) (B := B)
        (by simp only [length_times]; omega) hT
      simp only [length_times] at hlen₂
      replace hdown : weight B (greater T) (times s₂.waiting) < weight B (greater T) (times (t :: queue)) := hdown
      exact ih (by omega) hT₂ (by omega) h

theorem admit_in_order_bounded (fuel : Nat) : ∀ {s : Scheduler} {e : Panic} {s' : Scheduler},
    s.waiting.length < fuel → admit_in_order fuel s = .error e s' → e ≠ .outOfFuel := by
  induction fuel with
  | zero => exact fun h => absurd h (Nat.not_lt_zero _)
  | succ fuel ih =>
    intro s e s' hlt h
    rcases bind_error.1 h with hget | ⟨_, _, hget, h⟩
    · cases hget
    obtain ⟨rfl, rfl⟩ : _ ∧ _ := by simpa using hget
    cases hW : s.waiting with
    | nil => rw [hW] at h; cases h
    | cons t queue =>
      rw [hW, List.length_cons] at hlt
      rw [hW] at h
      dsimp only at h
      rcases bind_error.1 h with hmod | ⟨_, s₁, hmod, h⟩
      · cases hmod
      obtain rfl : { s with waiting := queue } = s₁ := by simpa using hmod
      rcases bind_error.1 h with halloc | ⟨⟨ok, t'⟩, s₂, halloc, h⟩
      · exact try_alloc_infer_task_bounded _ _ _ _ _ _ halloc
      obtain ⟨hW₂, -, -, -⟩ := control_eq (try_alloc_infer_task_ok halloc).1
      replace hW₂ : s₂.waiting = queue := hW₂
      dsimp only at h
      split at h
      · rcases bind_error.1 h with hext | ⟨_, s₃, hext, h⟩
        · exact try_extend_infer_task_bounded _ _ _ _ _ _ hext
        obtain ⟨hW₃, -, -, -⟩ := control_eq ((try_extend_infer_task_keeps t' _ _).of_ok hext)
        rcases bind_error.1 h with hmod₄ | ⟨_, s₄, hmod₄, h⟩
        · cases hmod₄
        obtain rfl : { s₃ with allocated := s₃.allocated ++ [t'] } = s₄ := by simpa using hmod₄
        refine ih ?_ h
        show s₃.waiting.length < fuel
        rw [hW₃, hW₂]
        omega
      · cases h

omit [Hasher] [Watch] in
/-- Nothing but the assertion on the fill level stops it. -/
theorem dispatch_stops : Stops (· = .filledBeyondSlots) dispatch := by
  have hfill : ∀ (seq : Sequence) (len : Nat), Stops (· = .filledBeyondSlots)
      (BlockManager.update_filled_len seq.seq_id len) := fun seq len => by
    refine Stops.get.bind fun s => ?_
    split
    · exact Stops.pure _
    · exact Stops.ite (Stops.modify _) (Stops.throw rfl)
  have hcopy : ∀ (seq : Sequence) (d d' : Device) (p : Bool) (l : List BlockMapping),
      Stops (· = .filledBeyondSlots) (plan_copy seq d d' p l) := fun seq d d' p l => by
    refine Stops.get.bind fun s => ?_
    split
    · exact (hfill _ _).zoom.bind fun _ => Stops.pure _
    · exact Stops.pure _
  have hloop : ∀ (seqs : List Sequence) (acc : Batch), Stops (· = .filledBeyondSlots) (dispatch_loop seqs acc) := by
    intro seqs
    induction seqs with
    | nil => exact fun _ => Stops.pure _
    | cons seq seqs ih =>
      intro acc
      refine Stops.get.bind fun s => Stops.ite (Stops.pure _) ((hcopy _ _ _ _ _).bind fun _ => ?_)
      refine Stops.bind (Stops.get.bind fun s => Stops.ite ?_ (Stops.pure _)) fun acc => ih acc
      split
      · exact Stops.pure _
      · exact (hfill _ _).zoom.bind fun _ => (hcopy _ _ _ _ _).bind fun _ => Stops.pure _
  exact Stops.get.bind fun _ => hloop _ _

/-! ### More rounds make no difference -/

theorem extend_allocated_more (fuel : Nat) : ∀ {fuel' : Nat}, fuel ≤ fuel' → ∀ extended,
    Guarded .outOfFuel (extend_allocated fuel extended) (extend_allocated fuel' extended) := by
  induction fuel with
  | zero => exact fun _ _ s => .inr ⟨s, rfl⟩
  | succ fuel ih =>
    intro fuel' hle extended
    obtain ⟨k, rfl⟩ := Nat.exists_eq_add_one.2 (Nat.zero_lt_of_lt hle)
    have ih : ∀ extended, _ := ih (Nat.le_of_succ_le_succ hle)
    refine (Guarded.refl _).bind fun s => ?_
    cases hA : s.allocated with
    | nil => exact Guarded.refl _
    | cons t queue =>
      refine (Guarded.refl _).bind fun _ => (Guarded.refl _).bind fun ok => ?_
      refine Guarded.ite ((Guarded.refl _).bind fun _ => ih _) ?_
      cases hlast : queue.getLast? with
      | some last =>
        refine (Guarded.refl _).bind fun _ => (Guarded.refl _).bind fun _ => ?_
        exact (Guarded.refl _).bind fun _ => ih _
      | none => exact Guarded.refl _

theorem admit_in_order_more (fuel : Nat) : ∀ {fuel' : Nat}, fuel ≤ fuel' →
    Guarded .outOfFuel (admit_in_order fuel) (admit_in_order fuel') := by
  induction fuel with
  | zero => exact fun _ s => .inr ⟨s, rfl⟩
  | succ fuel ih =>
    intro fuel' hle
    obtain ⟨k, rfl⟩ := Nat.exists_eq_add_one.2 (Nat.zero_lt_of_lt hle)
    refine (Guarded.refl _).bind fun s => ?_
    cases hW : s.waiting with
    | nil => exact Guarded.refl _
    | cons t queue =>
      refine (Guarded.refl _).bind fun _ => (Guarded.refl _).bind fun r => Guarded.ite ?_ (Guarded.refl _)
      exact (Guarded.refl _).bind fun _ => (Guarded.refl _).bind fun _ => ih (Nat.le_of_succ_le_succ hle)

theorem reorder_loop_more (fuel : Nat) : ∀ {fuel' : Nat}, fuel ≤ fuel' → ∀ next,
    Guarded .outOfFuel (reorder_loop fuel next) (reorder_loop fuel' next) := by
  induction fuel with
  | zero => exact fun _ _ s => .inr ⟨s, rfl⟩
  | succ fuel ih =>
    intro fuel' hle next
    obtain ⟨k, rfl⟩ := Nat.exists_eq_add_one.2 (Nat.zero_lt_of_lt hle)
    refine (Guarded.refl _).bind fun s => ?_
    cases hW : s.waiting with
    | nil => exact Guarded.refl _
    | cons t queue =>
      exact (Guarded.refl _).bind fun _ => (Guarded.refl _).bind fun _ => ih (Nat.le_of_succ_le_succ hle) _

/-- From `s` the loop ends within this many rounds: with more it does the same, and it is never cut off. -/
def EndsWithin {α : Type} (loop : Nat → SM α) (rounds : Nat) (s : Scheduler) : Prop :=
  ∀ fuel, rounds ≤ fuel → loop fuel s = loop rounds s ∧ ∀ s', loop fuel s ≠ .error .outOfFuel s'

omit [Hasher] [Watch] in
theorem endsWithin {α : Type} {loop : Nat → SM α} {rounds : Nat} {s : Scheduler}
    (hmore : ∀ fuel, rounds ≤ fuel → Guarded .outOfFuel (loop rounds) (loop fuel))
    (h : ∀ s', loop rounds s ≠ .error .outOfFuel s') : EndsWithin loop rounds s := by
  intro fuel hle
  rcases hmore fuel hle s with heq | ⟨s', herr⟩
  · exact ⟨heq.symm, heq ▸ h⟩
  · exact absurd herr (h s')

omit [Hasher] [Watch] in
theorem weight_lt_reorder_fuel (s : Scheduler) :
    weight (s.waiting.length + s.allocated.length + 1) (greater (times s.waiting ++ times s.allocated))
      (times s.waiting) < reorder_fuel s := by
  have hrank : ∀ b ∈ times s.waiting, greater (times s.waiting ++ times s.allocated) b ≤
      s.waiting.length + s.allocated.length := fun b hb => by
    have := greater_lt_length (List.mem_append_left (times s.allocated) hb)
    simp only [List.length_append, length_times] at this
    exact this.le
  have hle := weight_le (B := s.waiting.length + s.allocated.length + 1) (Nat.succ_pos _) hrank
  rw [length_times] at hle
  have hmul : s.waiting.length * (s.waiting.length + s.allocated.length + 1) ^
      (s.waiting.length + s.allocated.length) ≤ (s.waiting.length + s.allocated.length + 1) ^
      (s.waiting.length + s.allocated.length + 1) := by
    rw [Nat.pow_succ, Nat.mul_comm]
    exact Nat.mul_le_mul_left _ (by omega)
  exact Nat.lt_succ_of_le (hle.trans hmul)

theorem extend_allocated_ends (extended : List InferTask) (s : Scheduler) :
    EndsWithin (extend_allocated · extended) (s.allocated.length + 1) s :=
  endsWithin (fun _ hle => extend_allocated_more _ hle extended) fun _ h =>
    extend_allocated_bounded _ (Nat.lt_succ_self _) h rfl

theorem admit_in_order_ends (s : Scheduler) : EndsWithin admit_in_order (s.waiting.length + 1) s :=
  endsWithin (fun _ hle => admit_in_order_more _ hle) fun _ h =>
    admit_in_order_bounded _ (Nat.lt_succ_self _) h rfl

theorem reorder_loop_ends (next : List InferTask) (s : Scheduler) :
    EndsWithin (reorder_loop · next) (reorder_fuel s) s :=
  endsWithin (fun _ hle => reorder_loop_more _ hle next) fun _ h =>
    reorder_loop_bounded (T := times s.waiting ++ times s.allocated) _ (Nat.lt_succ_self _)
      (fun _ hb => hb) (weight_lt_reorder_fuel s) h rfl

/-! ### Order -/

/-- What has been extended comes before what is left, and both stay in order. -/
theorem extend_allocated_sorted (fuel : Nat) : ∀ {extended r : List InferTask} {s s' : Scheduler},
    extend_allocated fuel extended s = .ok r s' → (times (extended ++ s.allocated)).Pairwise (· ≤ ·) →
      (times s.waiting).Pairwise (· ≤ ·) →
        (times r).Pairwise (· ≤ ·) ∧ (times s'.waiting).Pairwise (· ≤ ·) := by
  induction fuel with
  | zero => intro extended r s s' h; simp [extend_allocated] at h
  | succ fuel ih =>
    intro extended r s s' h hA hW
    obtain ⟨_, _, hget, h⟩ := bind_ok.1 h
    obtain ⟨rfl, rfl⟩ : _ ∧ _ := by simpa using hget
    cases hqueue : s.allocated with
    | nil =>
      rw [hqueue] at h hA
      obtain ⟨rfl, rfl⟩ : extended = r ∧ s = s' := by simpa using h
      exact ⟨by rwa [List.append_nil] at hA, hW⟩
    | cons t queue =>
      rw [hqueue] at h hA
      dsimp only at h
      obtain ⟨_, s₁, hmod, h⟩ := bind_ok.1 h
      obtain rfl : { s with allocated := queue } = s₁ := by simpa using hmod
      obtain ⟨ok, s₂, hext, h⟩ := bind_ok.1 h
      obtain ⟨hW₂, hA₂, -, -⟩ := control_eq ((try_extend_infer_task_keeps t _ _).of_ok hext)
      replace hW₂ : s₂.waiting = s.waiting := hW₂
      split at h
      · obtain ⟨_, s₃, hext', h⟩ := bind_ok.1 h
        obtain ⟨hW₃, hA₃, -, -⟩ := control_eq ((try_extend_infer_task_keeps t _ _).of_ok hext')
        refine ih h ?_ (by rwa [hW₃, hW₂])
        rw [hA₃, hA₂, List.append_assoc]
        exact hA
      · cases hlast : queue.getLast? with
        | some last =>
          simp only [hlast] at h
          obtain ⟨_, s₃, hmod₃, h⟩ := bind_ok.1 h
          obtain rfl : { s₂ with allocated := queue.dropLast } = s₃ := by simpa using hmod₃
          obtain ⟨t', s₄, hpre, h⟩ := bind_ok.1 h
          obtain ⟨hW₄, hA₄, -, -⟩ := control_eq (preempt_infer_task_ok hpre).1
          replace hW₄ : s₄.waiting = s₂.waiting := hW₄
          replace hA₄ : s₄.allocated = queue.dropLast := hA₄
          obtain ⟨_, s₅, hmod₅, h⟩ := bind_ok.1 h
          simp only [modify_apply, EStateM.Result.ok.injEq, true_and] at hmod₅
          refine ih h ?_ ?_ <;> rw [← hmod₅]
          · show (times (extended ++ t :: s₄.allocated)).Pairwise (· ≤ ·)
            rw [hA₄]
            refine hA.sublist (List.Sublist.map _ ?_)
            exact ((List.dropLast_sublist queue).cons_cons t).append_left extended
          · show (times (insert_sorted s₄.waiting t')).Pairwise (· ≤ ·)
            rw [times_insert_sorted, hW₄, hW₂]
            exact sorted_orderedInsert hW _
        | none =>
          simp only [hlast] at h
          obtain ⟨_, _, hw, h⟩ := bind_ok.1 h
          obtain ⟨-, rfl⟩ := watch_ok hw
          obtain ⟨_, s₃, hmod₃, h⟩ := bind_ok.1 h
          simp only [modify_apply, EStateM.Result.ok.injEq, true_and] at hmod₃
          obtain ⟨rfl, rfl⟩ : extended = r ∧ s₃ = s' := by simpa using h
          rw [times_append] at hA
          refine ⟨(List.pairwise_append.1 hA).1, ?_⟩
          rw [← hmod₃]
          show (times (insert_sorted s₂.waiting t)).Pairwise (· ≤ ·)
          rw [times_insert_sorted, hW₂]
          exact sorted_orderedInsert hW _

theorem reorder_loop_sorted (fuel : Nat) : ∀ {next r : List InferTask} {s s' : Scheduler},
    reorder_loop fuel next s = .ok r s' → (times s.waiting).Pairwise (· ≤ ·) →
      (times s.allocated).Pairwise (· ≤ ·) → (times next).Pairwise (· ≤ ·) →
        (∀ b ∈ times next, ∀ c ∈ times s.waiting, b ≤ c) →
          (times r).Pairwise (· ≤ ·) ∧ (times s'.allocated).Pairwise (· ≤ ·) := by
  induction fuel with
  | zero => intro next r s s' h; simp [reorder_loop] at h
  | succ fuel ih =>
    intro next r s s' h hW hA hN hle
    obtain ⟨_, _, hget, h⟩ := bind_ok.1 h
    obtain ⟨rfl, rfl⟩ : _ ∧ _ := by simpa using hget
    cases hqueue : s.waiting with
    | nil =>
      rw [hqueue] at h
      obtain ⟨rfl, rfl⟩ : next = r ∧ s = s' := by simpa using h
      exact ⟨hN, hA⟩
    | cons t queue =>
      rw [hqueue] at h hW hle
      dsimp only at h
      obtain ⟨_, s₁, hmod, h⟩ := bind_ok.1 h
      obtain rfl : { s with waiting := queue } = s₁ := by simpa using hmod
      obtain ⟨back, s₂, hround, h⟩ := bind_ok.1 h
      obtain ⟨hW₂, hA₂, hN₂, hle₂⟩ := (reorder_round_times hround).sorted hW hA hN hle
      rw [← times_append] at hN₂ hle₂
      exact ih h hW₂ hA₂ hN₂ hle₂

theorem phases_sorted {s s' : Scheduler} (h : phases s = .ok .unit s') (hr : s.enable_reorder = true)
    (hW : (times s.waiting).Pairwise (· ≤ ·)) (hA : (times s.allocated).Pairwise (· ≤ ·)) :
    (times s'.waiting).Pairwise (· ≤ ·) ∧ (times s'.allocated).Pairwise (· ≤ ·) := by
  obtain ⟨_, s₁, hext, hadm⟩ := bind_ok.1 h
  have hsettings := (extend_tasks_tally hext).2.1
  obtain ⟨_, _, hget, hext⟩ := bind_ok.1 hext
  obtain ⟨rfl, rfl⟩ : _ ∧ _ := by simpa using hget
  obtain ⟨r, s₂, hloop, hext⟩ := bind_ok.1 hext
  obtain rfl : { s₂ with allocated := r } = s₁ := by simpa using hext
  obtain ⟨hA₁, hW₁⟩ := extend_allocated_sorted _ hloop hA hW
  have hr₁ : s₂.enable_reorder = true := by
    simp only [settings, Prod.mk.injEq] at hsettings
    exact hsettings.2.2.2.1.trans hr
  obtain ⟨_, _, hget, hadm⟩ := bind_ok.1 hadm
  obtain ⟨rfl, rfl⟩ : _ ∧ _ := by simpa using hget
  rw [if_pos hr₁] at hadm
  obtain ⟨_, _, hget, hadm⟩ := bind_ok.1 hadm
  obtain ⟨rfl, rfl⟩ : _ ∧ _ := by simpa using hget
  obtain ⟨next, s₃, hloop', hadm⟩ := bind_ok.1 hadm
  obtain rfl : { s₃ with waiting := next } = s' := by simpa using hadm
  have hsorted := reorder_loop_sorted _ hloop' hW₁ hA₁
  exact hsorted .nil fun _ hb => nomatch hb

end

/-- The rounds of the two phases are enough. -/
theorem phases_bounded [Hasher] (s s' : Scheduler) : phases s ≠ .error .outOfFuel s' := by
  have hextend : ∀ s s', extend_tasks s ≠ .error .outOfFuel s' := by
    intro s s' h
    rcases bind_error.1 h with hget | ⟨_, _, hget, h⟩
    · cases hget
    obtain ⟨rfl, rfl⟩ : _ ∧ _ := by simpa using hget
    rcases bind_error.1 h with hloop | ⟨_, _, -, h⟩
    · exact (extend_allocated_ends [] s _ le_rfl).2 _ hloop
    · cases h
  have henter : ∀ s s', admit_waiting s ≠ .error .outOfFuel s' := by
    intro s s' h
    rcases bind_error.1 h with hget | ⟨_, _, hget, h⟩
    · cases hget
    obtain ⟨rfl, rfl⟩ : _ ∧ _ := by simpa using hget
    split at h
    · rcases bind_error.1 h with hget | ⟨_, _, hget, h⟩
      · cases hget
      obtain ⟨rfl, rfl⟩ : _ ∧ _ := by simpa using hget
      rcases bind_error.1 h with hloop | ⟨_, _, -, h⟩
      · exact (reorder_loop_ends [] s _ le_rfl).2 _ hloop
      · cases h
    · exact (admit_in_order_ends s _ le_rfl).2 _ h
  intro h
  rcases bind_error.1 h with hext | ⟨_, s₁, -, hadm⟩
  · exact hextend _ _ hext
  · exact henter _ _ hadm

/-- The extension loop, the reordering loop and the plain admission loop end from every state, so
`schedule` ends. -/
theorem schedule_terminates [Hasher] (s : Scheduler) :
    (∀ extended, EndsWithin (extend_allocated · extended) (s.allocated.length + 1) s) ∧
    (∀ next, EndsWithin (reorder_loop · next) (reorder_fuel s) s) ∧
    EndsWithin admit_in_order (s.waiting.length + 1) s ∧
    ∀ s', schedule s ≠ .error .outOfFuel s' := by
  refine ⟨fun extended => extend_allocated_ends extended s, fun next => reorder_loop_ends next s,
    admit_in_order_ends s, fun s' h => ?_⟩
  rw [schedule_eq] at h
  rcases bind_error.1 h with hphases | ⟨_, s₁, -, h⟩
  · exact phases_bounded _ _ hphases
  rcases bind_error.1 h with hdis | ⟨_, s₂, -, h⟩
  · cases dispatch_stops _ _ _ hdis
  · cases h

/-- With `enable_reorder`, queues in order of arrival stay so: where the two warnings are given, and when
`schedule` returns. -/
theorem schedule_sorted [Hasher] {s : Scheduler} (hr : s.enable_reorder = true)
    (hW : is_sorted s.waiting = true) (hA : is_sorted s.allocated = true) :
    (∀ s', phases s = .ok .unit s' → is_sorted s'.allocated = true ∧ is_sorted s'.waiting = true) ∧
    ∀ batch s', schedule s = .ok batch s' → is_sorted s'.waiting = true ∧ is_sorted s'.allocated = true := by
  have hphases : ∀ s', phases s = .ok .unit s' → is_sorted s'.waiting = true ∧ is_sorted s'.allocated = true := by
    intro s' h
    obtain ⟨hW', hA'⟩ := phases_sorted h hr (is_sorted_iff.1 hW) (is_sorted_iff.1 hA)
    exact ⟨is_sorted_iff.2 hW', is_sorted_iff.2 hA'⟩
  refine ⟨fun s' h => (hphases s' h).symm, fun batch s' h => ?_⟩
  rw [schedule_eq] at h
  obtain ⟨_, s₁, hph, h⟩ := bind_ok.1 h
  obtain ⟨batch', s₂, hdis, h⟩ := bind_ok.1 h
  obtain ⟨_, s₃, hmod, h⟩ := bind_ok.1 h
  obtain rfl : { s₂ with running_batch := batch'.running_batch } = s₃ := by simpa using hmod
  obtain ⟨-, rfl⟩ : batch' = batch ∧ _ = s' := by simpa using h
  obtain ⟨hW₂, hA₂, -, -⟩ := control_eq (dispatch_keeps.of_ok hdis)
  show is_sorted s₂.waiting = true ∧ is_sorted s₂.allocated = true
  rw [hW₂, hA₂]
  exact hphases s₁ hph

/-- Two tasks have all the blocks between them, and a third comes that is older than both. -/
def contended : Scheduler :=
  let _ := decimalHasher
  let task (session_id arrival_time : Nat) (input_ids : List Nat) : InferTask :=
    GenerateRequest.to_task ⟨session_id, input_ids, 1, none, false, false⟩ session_id arrival_time
  let s := Scheduler.new ⟨8, 64, 64, 4, by decide, 5, 32, 4, true, defaultWatermark⟩
  match schedule { s with waiting := [task 1 7 [1, 2, 3, 4, 5], task 2 9 [6, 7, 8, 9, 6]] } with
  | .ok _ s => { s with waiting := [task 3 6 [3, 3, 3, 3, 3, 3, 3, 3, 3]] }
  | .error _ s => s

/-- The third task displaces the newer of the two. -/
theorem schedule_sorted_displaced :
    let _ := decimalHasher
    ∃ batch s', schedule contended = .ok batch s' ∧ times s'.waiting = [9] ∧ times s'.allocated = [6, 7] ∧
      is_sorted s'.waiting = true ∧ is_sorted s'.allocated = true := by
  let _ := decimalHasher
  have hr : contended.enable_reorder = true := by decide +kernel
  have hW : is_sorted contended.waiting = true := by decide +kernel
  have hA : is_sorted contended.allocated = true := by decide +kernel
  have hrun : (match schedule contended with
      | .ok _ s' => decide (times s'.waiting = [9] ∧ times s'.allocated = [6, 7])
      | .error _ _ => false) = true := by decide +kernel
  generalize contended = s at *
  have hsorted := (schedule_sorted hr hW hA).2
  cases h : schedule s with
  | error e s' => rw [h] at hrun; cases hrun
  | ok batch s' =>
    rw [h] at hrun
    obtain ⟨hW', hA'⟩ := of_decide_eq_true hrun
    exact ⟨batch, s', h, hW', hA', hsorted batch s' h⟩

end Scheduler

end LMServe
