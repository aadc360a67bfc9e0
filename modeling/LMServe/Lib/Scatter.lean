import LMServe.Lib.Chunk
import Mathlib.Logic.Function.Basic

/-!
# Stores from many threads

A list of stores, carried out one after the other. Where all the stores to an address store the same value, the
order makes no difference: afterwards the address has that value, and one that nothing stores to what it had.
-/

open Chunk

namespace Scatter

section
variable {A V : Type} [DecidableEq A]

/-- Carry out the stores. -/
def run (stores : List (A × V)) (memory : A → V) : A → V :=
  stores.foldl (fun m w => Function.update m w.1 w.2) memory

variable {stores stores' : List (A × V)} {memory : A → V} {a : A} {v : V}

theorem run_cons (w : A × V) (stores : List (A × V)) (memory : A → V) :
    run (w :: stores) memory = run stores (Function.update memory w.1 w.2) := rfl

theorem run_of_notMem (h : ∀ v, (a, v) ∉ stores) : run stores memory a = memory a := by
  induction stores generalizing memory with
  | nil => rfl
  | cons w stores ih =>
    have hw : a ≠ w.1 := fun he => h w.2 (by rw [he]; exact List.mem_cons_self)
    rw [run_cons, ih fun v hv => h v (List.mem_cons_of_mem w hv), Function.update_of_ne hw]

theorem run_of_mem (h : (a, v) ∈ stores) (hsame : ∀ v', (a, v') ∈ stores → v' = v) : run stores memory a = v := by
  induction stores generalizing memory with
  | nil => cases h
  | cons w stores ih =>
    have hrest : ∀ v', (a, v') ∈ stores → v' = v := fun v' hv' => hsame v' (List.mem_cons_of_mem w hv')
    rw [run_cons]
    by_cases hmem : (a, v) ∈ stores
    · exact ih hmem hrest
    · rcases List.mem_cons.1 h with rfl | h
      · rw [run_of_notMem fun v' hv' => hmem (hrest v' hv' ▸ hv'), Function.update_self]
      · exact absurd h hmem

/-- Of distinct addresses, the `i`-th gets the `i`-th value. -/
theorem run_zip {addresses : List A} {values : List V} {i : Nat} (hnodup : addresses.Nodup)
    (ha : addresses[i]? = some a) (hv : values[i]? = some v) : run (addresses.zip values) memory a = v := by
  refine run_of_mem (List.mem_of_getElem? (List.getElem?_zip_eq_some.2 ⟨ha, hv⟩)) fun v' hv' => ?_
  obtain ⟨j, hj⟩ := List.mem_iff_getElem?.1 hv'
  obtain ⟨haj, hvj⟩ := List.getElem?_zip_eq_some.1 hj
  obtain rfl : j = i :=
    (List.getElem?_inj (List.getElem?_eq_some_iff.1 haj).1 hnodup).1 (haj.trans ha.symm)
  exact Option.some.inj (hvj.symm.trans hv)

end

/-! ### Loops over vectors -/

/-- `i + arange(0, block)` below `stop`. -/
def lanes (i block stop : Nat) : List Nat := ((List.range block).map (i + ·)).filter (· < stop)

theorem exists_lanes_iff {stop block j : Nat} (hblock : 0 < block) :
    (∃ i ∈ step_by 0 stop block, j ∈ lanes i block stop) ↔ j < stop := by
  simp only [lanes, List.mem_filter, List.mem_map, List.mem_range, decide_eq_true_eq]
  constructor
  · rintro ⟨i, _, _, hj⟩; exact hj
  · intro hj
    refine ⟨j / block * block, ?_, ⟨j % block, Nat.mod_lt j hblock, ?_⟩, hj⟩
    · have hlow : j / block * block ≤ j := Nat.div_mul_le_self j block
      refine List.mem_map.2 ⟨j / block, List.mem_range.2 ?_, Nat.zero_add _⟩
      rw [Nat.sub_zero, lt_div_ceil_iff hblock]
      exact Nat.lt_of_le_of_lt hlow hj
    · rw [Nat.mul_comm]
      exact Nat.div_add_mod j block

end Scatter
