import Mathlib.Data.List.Nodup
import LMServe.Lib.Run

/-!
# A queue served in turn

The last entry of the queue is served and moves to the front; new entries join at the end. From the
moment an entry is served, the entries in front of it are those served since, the latest one first
(`exists_rest`). So all of them are ahead of it when it is last again, and each once (`served_once`).
A queue that nobody joins is served in rounds (`exists_rounds`).
-/

namespace Rotation
variable {α : Type}

/-- What happens to the queue. -/
inductive Event (α : Type) where
  | served (x : α)
  | joined (x : α)
deriving DecidableEq, Repr

/-- An entry joins once. -/
inductive Step : List α → Event α → List α → Prop
  | served (q : List α) (x : α) : Step (q ++ [x]) (.served x) (x :: q)
  | joined (q : List α) (x : α) : x ∉ q → Step q (.joined x) (q ++ [x])

def Event.served? : Event α → Option α
  | .served x => some x
  | .joined _ => none

/-- The entries served, in order. -/
def served (events : List (Event α)) : List α := events.filterMap Event.served?

@[simp] theorem served_nil : served ([] : List (Event α)) = [] := rfl

@[simp] theorem served_append (es fs : List (Event α)) : served (es ++ fs) = served es ++ served fs :=
  List.filterMap_append

@[simp] theorem served_served (x : α) : served [.served x] = [x] := rfl

@[simp] theorem served_joined (x : α) : served [.joined x] = [] := rfl

variable {q q' : List α} {e : Event α} {es : List (Event α)} {x y : α}

theorem Step.nodup (h : Step q e q') (hq : q.Nodup) : q'.Nodup := by
  cases h with
  | served q x => exact (List.perm_append_singleton x q).nodup hq
  | joined _ x hx => exact (List.perm_append_singleton x q).nodup_iff.2 (List.nodup_cons.2 ⟨hx, hq⟩)

theorem Step.mem (h : Step q e q') (hy : y ∈ q) : y ∈ q' := by
  cases h with
  | served q x => exact (List.perm_append_singleton x q).mem_iff.1 hy
  | joined _ x _ => exact List.mem_append_left _ hy

theorem Step.of_served (h : Step q (.served x) q') : ∃ p, q = p ++ [x] ∧ q' = x :: p := by
  cases h with
  | served p x => exact ⟨p, rfl, rfl⟩

theorem nodup_of_run (h : Run Step q es q') (hq : q.Nodup) : q'.Nodup :=
  h.invariant hq fun _ _ _ ht hs => hs.nodup ht

theorem mem_of_run (h : Run Step q es q') (hy : y ∈ q) : y ∈ q' :=
  h.invariant (I := (y ∈ ·)) hy fun _ _ _ ht hs => hs.mem ht

/-! ### Between two turns of one entry -/

/-- Until `x` is served again, the entries in front of it are those served since. -/
theorem exists_rest (h : Run Step (x :: q) es q') (hx : x ∉ served es) :
    ∃ rest, q' = (served es).reverse ++ x :: rest := by
  induction h with
  | nil => exact ⟨q, rfl⟩
  | @snoc es e q₁ q₂ hrun hs ih =>
    rw [served_append, List.mem_append, not_or] at hx
    obtain ⟨rest, hq₁⟩ := ih hx.1
    cases hs with
    | served p y =>
      -- `y` is the last entry of `x :: rest`; as it is not `x`, it is taken from `rest`
      rcases List.eq_nil_or_concat' rest with rfl | ⟨front, z, rfl⟩
      · have hlast := List.append_inj_right' hq₁ rfl
        exact absurd (by simpa using hlast.symm) hx.2
      · rw [← List.cons_append, ← List.append_assoc] at hq₁
        obtain ⟨rfl, hz⟩ := List.append_inj' hq₁ rfl
        obtain rfl := List.singleton_inj.1 hz
        exact ⟨front, by simp⟩
    | joined _ y _ => exact ⟨rest ++ [y], by simp [hq₁]⟩

variable [DecidableEq α]

/-- Between two turns of `x`, every other entry has exactly one. -/
theorem served_once (h : Run Step (x :: q) es (q' ++ [x])) (hq : (x :: q).Nodup)
    (hx : x ∉ served es) (hy : y ∈ q' ++ [x]) (hyx : y ≠ x) : (served es).count y = 1 := by
  have hnodup := nodup_of_run h hq
  obtain ⟨rest, hrest⟩ := exists_rest h hx
  rcases List.eq_nil_or_concat' rest with rfl | ⟨front, z, rfl⟩
  · -- `x` is last and nothing is behind it: the others are the ones served
    have hq' : q' = (served es).reverse := List.append_inj_left' hrest rfl
    have hmem : y ∈ served es := by simpa [hq', hyx] using hy
    have hserved : (served es).Nodup := by
      rw [hq'] at hnodup
      exact List.nodup_reverse.1 (List.nodup_append.1 hnodup).1
    exact List.count_eq_one_of_mem hserved hmem
  · -- `x` would be in the queue twice
    rw [← List.cons_append, ← List.append_assoc] at hrest
    obtain ⟨rfl, hz⟩ := List.append_inj' hrest rfl
    exact absurd hnodup (by simp [List.nodup_append])

/-! ### Rounds -/

omit [DecidableEq α] in
/-- With nobody joining, the queue has been served in full rounds and a part of one more. -/
theorem exists_rounds (h : Run Step q es q') (hq : q ≠ []) (hes : ∀ e ∈ es, ∃ x, e = .served x) :
    ∃ k a b, q = a ++ b ∧ q' = b ++ a ∧ a ≠ [] ∧
      served es = (List.replicate k q.reverse).flatten ++ b.reverse := by
  induction h with
  | nil => exact ⟨0, q, [], by simp, by simp, hq, rfl⟩
  | @snoc es e q₁ q₂ hrun hs ih =>
    obtain ⟨k, a, b, rfl, rfl, ha, hserved⟩ := ih fun e he => hes e (by simp [he])
    obtain ⟨y, rfl⟩ := hes e (by simp)
    obtain ⟨front, z, rfl⟩ := (List.eq_nil_or_concat' a).resolve_left ha
    obtain ⟨p, hp, rfl⟩ := hs.of_served
    rw [← List.append_assoc] at hp
    obtain ⟨rfl, hz⟩ := List.append_inj' hp rfl
    obtain rfl := List.singleton_inj.1 hz
    rcases eq_or_ne front [] with rfl | hfront
    · -- the round ends
      refine ⟨k + 1, [z] ++ b, [], by simp, by simp, by simp, ?_⟩
      simp [hserved, List.replicate_succ']
    · exact ⟨k, front, z :: b, by simp, by simp, hfront, by simp [hserved]⟩

omit [DecidableEq α] in
theorem length_served_iff : (served es).length = es.length ↔ ∀ e ∈ es, ∃ x, e = .served x := by
  rw [served, List.filterMap_length_eq_length]
  refine forall₂_congr fun e _ => ?_
  cases e with
  | served x => simp [Event.served?]
  | joined x => simp [Event.served?]

/-- `k` rounds give every entry `k` turns. -/
theorem served_rounds (h : Run Step q es q') (hq : q.Nodup) (hes : ∀ e ∈ es, ∃ x, e = .served x)
    {k : Nat} (hk : es.length = k * q.length) (hy : y ∈ q) : (served es).count y = k := by
  obtain ⟨k', a, b, hab, -, ha, hserved⟩ := exists_rounds h (List.ne_nil_of_mem hy) hes
  have hlen : b.length < q.length := by
    have := List.length_pos_iff.2 ha
    rw [hab, List.length_append]; omega
  have hround : k' * q.length + b.length = k * q.length := by
    rw [← hk, ← length_served_iff.2 hes, hserved]
    simp
  have hb : b.length = 0 := by
    have := congrArg (· % q.length) hround
    simpa [Nat.mul_add_mod', Nat.mod_eq_of_lt hlen] using this
  have hk' : k' = k := by
    rw [hb, Nat.add_zero] at hround
    exact Nat.eq_of_mul_eq_mul_right (List.length_pos_of_mem hy) hround
  rw [hserved, List.eq_nil_of_length_eq_zero hb, hk']
  simp [List.count_flatten, List.count_eq_one_of_mem hq hy]

end Rotation
