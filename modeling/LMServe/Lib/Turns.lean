import Mathlib.Data.List.Count

/-!
# A queue in two parts

Items of `A` run, those of `W` wait. The last that run may be put back into `W`, each before the first item that is
later, and the first that wait join the end of `A`. So nothing later gets in front of an item, except what ran before
it to begin with (`Place`). What is finished leaves `A`, and when the first of `A` leaves, an item that stays has
fewer before it (`Place.serve`).
-/

namespace Turns

variable {α : Type} (time : α → Nat)

/-- Before the first item that is later. -/
def insert : List α → α → List α
  | [], x => [x]
  | y :: l, x => if time x < time y then x :: y :: l else y :: insert l x

/-- `x` waits, with nothing later before it. -/
def Waits (x : α) (l : List α) : Prop := ∃ before after, l = before ++ x :: after ∧ ∀ y ∈ before, time y ≤ time x

/-- How many items are no later than `x`, which may be one of them. -/
def earlier (x : α) (l : List α) : Nat := l.countP (time · ≤ time x)

/-- How many are later. -/
def later (x : α) (l : List α) : Nat := l.countP (time x < time ·)

/-- `x` runs, and `k` later items run before it; or it waits, and `k` later items run. -/
inductive Place (x : α) : List α → List α → Nat → Prop
  | runs (front rest W : List α) : Place x (front ++ x :: rest) W (later time x front)
  | waits (A : List α) {W : List α} (h : Waits time x W) : Place x A W (later time x A)

section
variable {time} {x y : α} {l l' A W W' kept gone adm : List α} {k : Nat} {q : α → Bool}

theorem later_append (x : α) (l l' : List α) : later time x (l ++ l') = later time x l + later time x l' :=
  List.countP_append

theorem earlier_append (x : α) (l l' : List α) : earlier time x (l ++ l') = earlier time x l + earlier time x l' :=
  List.countP_append

theorem later_eq_zero (h : ∀ y ∈ l, time y ≤ time x) : later time x l = 0 :=
  List.countP_eq_zero.2 fun y hy => by simpa using h y hy

/-! ### Waiting -/

theorem Waits.append (h : Waits time x l) (l' : List α) : Waits time x (l ++ l') := by
  obtain ⟨before, after, rfl, hbefore⟩ := h
  exact ⟨before, after ++ l', by simp, hbefore⟩

theorem Waits.cons (h : Waits time x l) (hy : time y ≤ time x) : Waits time x (y :: l) := by
  obtain ⟨before, after, rfl, hbefore⟩ := h
  exact ⟨y :: before, after, rfl, List.forall_mem_cons.2 ⟨hy, hbefore⟩⟩

theorem waits_cons : Waits time x (x :: l) := ⟨[], l, rfl, nofun⟩

/-- An item is put back behind those that are no later. -/
theorem waits_insert (l : List α) : Waits time x (insert time l x) := by
  induction l with
  | nil => exact waits_cons
  | cons y l ih =>
    unfold insert
    split
    · exact waits_cons
    · exact ih.cons (Nat.not_lt.1 ‹_›)

/-- What is put back later gets behind it, unless it is no later. -/
theorem Waits.insert (h : Waits time x l) (y : α) : Waits time x (insert time l y) := by
  obtain ⟨before, after, rfl, hbefore⟩ := h
  induction before with
  | nil =>
    rw [List.nil_append, Turns.insert]
    split
    · exact waits_cons.cons (Nat.le_of_lt ‹_›)
    · exact waits_cons
  | cons z before ih =>
    obtain ⟨hz, hbefore⟩ := List.forall_mem_cons.1 hbefore
    rw [List.cons_append, Turns.insert]
    split
    · exact (Waits.cons ⟨before, after, rfl, hbefore⟩ hz).cons (Nat.le_trans (Nat.le_of_lt ‹_›) hz)
    · exact (ih hbefore).cons hz

theorem Waits.foldl (h : Waits time x l) (gone : List α) : Waits time x (gone.foldl (Turns.insert time) l) := by
  induction gone generalizing l with
  | nil => exact h
  | cons y gone ih => exact ih (h.insert y)

theorem waits_foldl (hx : x ∈ gone) (l : List α) : Waits time x (gone.foldl (insert time) l) := by
  induction gone generalizing l with
  | nil => cases hx
  | cons y gone ih =>
    rcases List.mem_cons.1 hx with rfl | hx
    · exact (waits_insert l).foldl gone
    · exact ih hx _

theorem Waits.admit (h : Waits time x (adm ++ W)) (kept : List α) : Place time x (kept ++ adm) W (later time x kept) := by
  obtain ⟨before, after, heq, hbefore⟩ := h
  rcases List.append_eq_append_iff.1 heq with ⟨l, rfl, rfl⟩ | ⟨l, rfl, hl⟩
  · have hzero := later_eq_zero fun y hy => hbefore y (List.mem_append_left _ hy)
    have hplace := Place.waits (kept ++ adm) (W := l ++ x :: after)
      ⟨l, after, rfl, fun y hy => hbefore y (List.mem_append_right _ hy)⟩
    rwa [later_append, hzero, Nat.add_zero] at hplace
  · have hzero := later_eq_zero hbefore
    cases l with
    | nil =>
      obtain rfl : x :: after = W := hl
      have hplace : Place time x _ _ _ := Place.waits (kept ++ before) (waits_cons (l := after))
      rwa [later_append, hzero, Nat.add_zero, ← List.append_nil before] at hplace
    | cons z l =>
      obtain ⟨rfl, rfl⟩ := List.cons.inj hl
      have hplace : Place time x _ _ _ := Place.runs (kept ++ before) l W
      rwa [later_append, hzero, Nat.add_zero, List.append_assoc] at hplace

/-! ### Places -/

/-- Those behind `kept` are put back, and the first that wait join. -/
theorem Place.requeue (h : Place time x (kept ++ gone.reverse) W k) (hW : adm ++ W' = gone.foldl (insert time) W) :
    ∃ k' ≤ k, Place time x (kept ++ adm) W' k' := by
  generalize hA : kept ++ gone.reverse = A at h
  cases h with
  | waits A hwaits =>
    subst hA
    refine ⟨_, ?_, Waits.admit (hW ▸ hwaits.foldl gone) kept⟩
    rw [later_append]
    exact Nat.le_add_right _ _
  | runs front rest W =>
    rcases List.append_eq_append_iff.1 hA with ⟨l, rfl, hgone⟩ | ⟨l, rfl, hgone⟩
    · have hx : x ∈ gone := List.mem_reverse.1 (hgone ▸ by simp)
      refine ⟨_, ?_, Waits.admit (hW ▸ waits_foldl hx W) kept⟩
      rw [later_append]
      exact Nat.le_add_right _ _
    · cases l with
      | nil =>
        have hx : x ∈ gone := List.mem_reverse.1 (by rw [← List.nil_append gone.reverse, ← hgone]; exact List.mem_cons_self)
        rw [List.append_nil]
        exact ⟨_, Nat.le_refl _, Waits.admit (hW ▸ waits_foldl hx W) front⟩
      | cons z l =>
        obtain ⟨rfl, -⟩ := List.cons.inj hgone
        refine ⟨_, Nat.le_refl _, ?_⟩
        rw [List.append_assoc]
        exact Place.runs front (l ++ adm) W'

theorem Place.mem (h : Place time x A W k) : x ∈ A ∨ x ∈ W := by
  cases h with
  | runs front rest W => exact .inl (List.mem_append_right _ List.mem_cons_self)
  | waits A hwaits =>
    obtain ⟨before, after, rfl, -⟩ := hwaits
    exact .inr (List.mem_append_right _ List.mem_cons_self)

theorem Place.wait (h : Place time x A W k) (hW : Waits time x W → Waits time x W') : Place time x A W' k := by
  cases h with
  | runs front rest W => exact .runs front rest W'
  | waits A hwaits => exact .waits A (hW hwaits)

theorem lt_cons {A' l' : List α} (hl : later time x l' ≤ later time x l) (hA : earlier time x A' ≤ earlier time x A) :
    later time x l' + earlier time x A' < later time x (y :: l) + earlier time x (y :: A) := by
  unfold later earlier at *
  rw [List.countP_cons, List.countP_cons]
  by_cases hlater : time x < time y
  · rw [if_pos (decide_eq_true hlater)]
    omega
  · rw [if_pos (decide_eq_true (Nat.not_lt.1 hlater))]
    omega

/-- What is finished leaves, the item itself or others; when the first does, the item gets closer. -/
theorem Place.serve {β : Type} {f : β → α} {B : List β} (h : Place time x (B.map f) W k) (q : β → Bool) :
    (∃ y ∈ B, q y = false ∧ f y = x) ∨
    ∃ k', Place time x ((B.filter q).map f) W k' ∧
      k' + earlier time x ((B.filter q).map f) ≤ k + earlier time x (B.map f) ∧
      ∀ y l, B = y :: l → q y = false → k' + earlier time x ((B.filter q).map f) < k + earlier time x (B.map f) := by
  have hle : ∀ l : List β, later time x ((l.filter q).map f) ≤ later time x (l.map f) ∧
      earlier time x ((l.filter q).map f) ≤ earlier time x (l.map f) := fun l =>
    ⟨(List.filter_sublist.map f).countP_le, (List.filter_sublist.map f).countP_le⟩
  -- what leaves is later or no later
  have hcount : ∀ front rest : List β, B = front ++ rest →
      later time x ((front.filter q).map f) + earlier time x ((B.filter q).map f) ≤
        later time x (front.map f) + earlier time x (B.map f) ∧
      ∀ y l, front = y :: l → q y = false →
        later time x ((front.filter q).map f) + earlier time x ((B.filter q).map f) <
          later time x (front.map f) + earlier time x (B.map f) := by
    intro front rest hB
    refine ⟨Nat.add_le_add (hle front).1 (hle B).2, ?_⟩
    rintro y l rfl hy
    rw [hB, List.cons_append, List.filter_cons_of_neg (by simp [hy]), List.filter_cons_of_neg (by simp [hy]), List.map_cons,
      List.map_cons]
    exact lt_cons (hle l).1 (hle (l ++ rest)).2
  generalize hA : B.map f = A at h
  cases h with
  | waits A hwaits =>
    subst hA
    obtain ⟨hle, hlt⟩ := hcount B [] (List.append_nil B).symm
    exact .inr ⟨_, .waits _ hwaits, hle, hlt⟩
  | runs front rest W =>
    obtain ⟨front, rest, rfl, rfl, hrest⟩ := List.map_eq_append_iff.1 hA
    obtain ⟨y, rest, rfl, rfl, rfl⟩ := List.map_eq_cons_iff.1 hrest
    cases hy : q y with
    | false => exact .inl ⟨y, by simp, hy, rfl⟩
    | true =>
      obtain ⟨hle, hlt⟩ := hcount front (y :: rest) rfl
      refine .inr ⟨later time (f y) ((front.filter q).map f), ?_, hA ▸ hle, fun z l hz hq => ?_⟩
      · rw [List.filter_append, List.filter_cons_of_pos hy, List.map_append, List.map_cons]
        exact .runs _ _ W
      · cases front with
        | nil =>
          obtain ⟨rfl, -⟩ := List.cons.inj hz
          rw [hy] at hq
          cases hq
        | cons z' front =>
          obtain ⟨rfl, -⟩ := List.cons.inj hz
          exact hA ▸ hlt z' front rfl hq

end

end Turns
