import Mathlib.Algebra.Order.BigOperators.Group.List
import Mathlib.Algebra.Order.Group.Nat
import Mathlib.Data.List.Count
import Mathlib.Tactic.Ring

/-!
# Weights of lists

An element of rank `r` weighs `B ^ r`. Fewer than `B` elements of lower rank weigh less than the element
they replace, so a worklist that only ever replaces an element in this way is exhausted in the end. One
rank that fits is the number of elements of a fixed list that are greater.
-/

section
variable {α : Type} (B : Nat) (rank : α → Nat)

def weight (l : List α) : Nat := (l.map fun x => B ^ rank x).sum

@[simp] theorem weight_nil : weight B rank [] = 0 := rfl

@[simp] theorem weight_cons (x : α) (l : List α) :
    weight B rank (x :: l) = B ^ rank x + weight B rank l := by
  simp [weight]

@[simp] theorem weight_append (l l' : List α) :
    weight B rank (l ++ l') = weight B rank l + weight B rank l' := by
  simp [weight]

variable {B rank} {l l' : List α} {x : α} {n : Nat}

theorem List.Perm.weight_eq (h : l.Perm l') : weight B rank l = weight B rank l' :=
  (h.map _).sum_eq

theorem weight_le (hB : 0 < B) (h : ∀ y ∈ l, rank y ≤ n) : weight B rank l ≤ l.length * B ^ n := by
  induction l with
  | nil => simp
  | cons y l ih =>
    have hy : B ^ rank y ≤ B ^ n := Nat.pow_le_pow_right hB (h y List.mem_cons_self)
    have hl := ih fun z hz => h z (List.mem_cons_of_mem y hz)
    rw [weight_cons, List.length_cons, Nat.add_mul, Nat.one_mul]
    omega

theorem weight_lt (hlen : l.length < B) (h : ∀ y ∈ l, rank y < rank x) : weight B rank l < B ^ rank x := by
  have hB : 0 < B := Nat.zero_lt_of_lt hlen
  cases l with
  | nil => exact Nat.pow_pos hB
  | cons y l =>
    obtain ⟨k, hk⟩ : ∃ k, rank x = k + 1 := Nat.exists_eq_add_one.2 (Nat.zero_lt_of_lt (h y List.mem_cons_self))
    have hle : weight B rank (y :: l) ≤ (y :: l).length * B ^ k :=
      weight_le hB fun z hz => Nat.le_of_lt_succ ((h z hz).trans_eq hk)
    calc weight B rank (y :: l) ≤ (y :: l).length * B ^ k := hle
      _ < B * B ^ k := Nat.mul_lt_mul_of_pos_right hlen (Nat.pow_pos hB)
      _ = B ^ rank x := by rw [hk, Nat.pow_succ]; ring

end

section
variable {α : Type} [LinearOrder α] {l : List α} {a b : α}

/-- How many elements of the list are greater. -/
def greater (l : List α) (a : α) : Nat := l.countP fun b => decide (a < b)

theorem greater_lt (hab : a < b) (hb : b ∈ l) : greater l b < greater l a := by
  induction l with
  | nil => cases hb
  | cons c l ih =>
    have hle : greater l b ≤ greater l a :=
      List.countP_mono_left fun c _ hc => decide_eq_true (hab.trans (of_decide_eq_true hc))
    simp only [greater, List.countP_cons] at ih hle ⊢
    rcases List.mem_cons.1 hb with rfl | hb
    · rw [if_neg (by simp), if_pos (by simpa using hab)]
      omega
    · have hlt := ih hb
      split
      · rename_i hbc
        rw [if_pos (decide_eq_true (hab.trans (of_decide_eq_true hbc)))]
        omega
      · omega

theorem greater_lt_length (ha : a ∈ l) : greater l a < l.length := by
  refine (List.countP_le_length ..).lt_of_ne fun heq => ?_
  have := List.countP_eq_length.1 heq a ha
  simp at this

end
