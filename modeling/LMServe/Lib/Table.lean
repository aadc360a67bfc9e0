import Mathlib.Data.Finmap
import Mathlib.Data.List.Count
import Mathlib.Algebra.BigOperators.Group.List.Basic
import Mathlib.Algebra.GroupWithZero.Nat

/-!
# Finite tables and the number of times an item is listed in them

A `Table ν` is a finite map from numeric keys to `ν` (an association list without repeated keys).
`Table.total f t` adds up `f` over the values of `t`; inserting and erasing one key changes it by
the value of that key only.
-/

theorem List.two_le_count {α : Type} [DecidableEq α] {l : List α} {a : α} {i j : Nat} (hij : i ≠ j)
    (hi : l[i]? = some a) (hj : l[j]? = some a) : 2 ≤ l.count a := by
  induction l generalizing i j with
  | nil => simp at hi
  | cons b l ih =>
    cases i with
    | zero =>
      obtain rfl : b = a := by simpa using hi
      cases j with
      | zero => exact absurd rfl hij
      | succ j =>
        have hmem : b ∈ l := List.mem_of_getElem? (by simpa using hj)
        have := List.count_pos_iff.2 hmem
        rw [List.count_cons_self]; omega
    | succ i =>
      cases j with
      | zero =>
        obtain rfl : b = a := by simpa using hj
        have hmem : b ∈ l := List.mem_of_getElem? (by simpa using hi)
        have := List.count_pos_iff.2 hmem
        rw [List.count_cons_self]; omega
      | succ j =>
        have := ih (i := i) (j := j) (by omega) (by simpa using hi) (by simpa using hj)
        exact Nat.le_trans this List.count_le_count_cons

/-- A finite map from keys to `ν`. -/
abbrev Table (ν : Type) := AList fun _ : Nat => ν

namespace Table
variable {ν : Type}

/-- The sum of `f` over the values of the table. -/
def total (f : ν → Nat) (t : Table ν) : Nat := (t.entries.map fun e => f e.2).sum

@[simp] theorem total_empty (f : ν → Nat) : total f (∅ : Table ν) = 0 := rfl

theorem lookup_insert_eq (k k' : Nat) (v : ν) (t : Table ν) :
    (t.insert k v).lookup k' = if k' = k then some v else t.lookup k' := by
  split
  · subst k'; exact AList.lookup_insert t
  · exact AList.lookup_insert_ne ‹_›

theorem lookup_erase_eq (k k' : Nat) (t : Table ν) :
    (t.erase k).lookup k' = if k' = k then none else t.lookup k' := by
  split
  · subst k'; exact AList.lookup_erase k t
  · exact AList.lookup_erase_ne ‹_›

theorem erase_of_none {t : Table ν} {k : Nat} (h : t.lookup k = none) : t.erase k = t :=
  AList.ext (List.kerase_of_notMem_keys (AList.lookup_eq_none.1 h))

theorem total_kerase (f : ν → Nat) (k : Nat) (v : ν) (l : List (Sigma fun _ : Nat => ν))
    (h : l.dlookup k = some v) :
    f v + ((l.kerase k).map fun e => f e.2).sum = (l.map fun e => f e.2).sum := by
  induction l with
  | nil => simp at h
  | cons e l ih =>
    obtain ⟨k', v'⟩ := e
    by_cases hk : k = k'
    · subst hk
      rw [List.dlookup_cons_eq] at h
      obtain rfl := Option.some.inj h
      simp [List.kerase_cons_eq]
    · rw [List.dlookup_cons_ne _ _ hk] at h
      rw [List.kerase_cons_ne hk]
      simp only [List.map_cons, List.sum_cons]
      have := ih h
      omega

theorem total_erase (f : ν → Nat) {t : Table ν} {k : Nat} {v : ν} (h : t.lookup k = some v) :
    f v + total f (t.erase k) = total f t :=
  total_kerase f k v t.entries h

theorem total_erase_none (f : ν → Nat) {t : Table ν} {k : Nat} (h : t.lookup k = none) :
    total f (t.erase k) = total f t := by
  have hk : k ∉ t.entries.keys := AList.lookup_eq_none.1 h
  show ((t.entries.kerase k).map _).sum = _
  rw [List.kerase_of_notMem_keys hk]; rfl

theorem total_insert (f : ν → Nat) (t : Table ν) (k : Nat) (v : ν) :
    total f (t.insert k v) = f v + total f (t.erase k) := by
  show (((t.insert k v).entries).map _).sum = _
  rw [AList.entries_insert]; simp [total, AList.erase]

theorem total_insert_fresh (f : ν → Nat) {t : Table ν} {k : Nat} (v : ν) (h : t.lookup k = none) :
    total f (t.insert k v) = f v + total f t := by
  rw [total_insert, total_erase_none f h]

theorem le_total (f : ν → Nat) {t : Table ν} {k : Nat} {v : ν} (h : t.lookup k = some v) :
    f v ≤ total f t := by
  have := total_erase f h; omega

theorem total_pos_iff (f : ν → Nat) (t : Table ν) :
    0 < total f t ↔ ∃ k v, t.lookup k = some v ∧ 0 < f v := by
  constructor
  · intro h
    obtain ⟨x, hx, hpos⟩ := List.exists_mem_ne_zero_of_sum_ne_zero (Nat.pos_iff_ne_zero.1 h)
    obtain ⟨⟨k, v⟩, hkv, rfl⟩ := List.mem_map.1 hx
    exact ⟨k, v, AList.mem_lookup_iff.2 hkv, Nat.pos_of_ne_zero hpos⟩
  · rintro ⟨k, v, hk, hv⟩
    exact Nat.lt_of_lt_of_le hv (le_total f hk)

/-- The values of the table. -/
def values (t : Table ν) : List ν := t.entries.map (·.2)

theorem values_insert_fresh {t : Table ν} {k : Nat} (v : ν) (h : t.lookup k = none) :
    values (t.insert k v) = v :: values t := by
  have hk : k ∉ t := AList.lookup_eq_none.1 h
  unfold values
  rw [AList.entries_insert_of_notMem hk]; rfl

/-- Erasing a key takes one value out. -/
theorem values_erase_perm {t : Table ν} {k : Nat} {v : ν} (h : t.lookup k = some v) :
    (v :: values (t.erase k)).Perm (values t) := by
  have hk : k ∈ t.entries.keys := AList.lookup_isSome.1 (by rw [h]; rfl)
  obtain ⟨b, l₁, l₂, -, hl, herase⟩ := List.exists_of_kerase hk
  obtain rfl : b = v := by
    have hb : t.lookup k = some b := AList.mem_lookup_iff.2 (by rw [hl]; simp)
    exact Option.some.inj (hb.symm.trans h)
  show List.Perm (b :: (t.entries.kerase k).map (·.2)) (t.entries.map (·.2))
  rw [herase, hl]
  simp only [List.map_append, List.map_cons]
  exact List.perm_middle.symm

end Table
