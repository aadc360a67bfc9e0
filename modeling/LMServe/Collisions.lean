import LMServe.Activation
import LMServe.Sharing

/-!
# Hash collisions

Both prefix lookups compare the tokens of a hit with those asked for, and drop the answer: a block whose
hash is right is returned, whatever it holds. So the tokens returned are those asked for exactly when no hit
the lookup comes to has other tokens. Where `compute_hash` tells the prefixes that occur apart and is not `0`,
there is no such hit.
-/

namespace LMServe
open Hoare Chunk BlockManager

namespace BlockManager

section
variable [Hasher] {m : BlockManager} {T : List Nat} {q stop i b : Nat}

/-- The table leads from the prefix that ends with block position `i` to block `b`. -/
def HitAt (m : BlockManager) (T : List Nat) (i b : Nat) : Prop :=
  m.lookup_block_id (compute_hash (T.take ((i + 1) * m.block_size))) = some b

/-- The tokens at block position `i`. -/
def block_tokens (m : BlockManager) (T : List Nat) (i : Nat) : List Nat :=
  slice T (i * m.block_size) ((i + 1) * m.block_size)

/-- `ids` are the hits from block position `q` on: each holds the tokens asked for, and a hit that does not
pass the token check ends the match. -/
structure Serves (m : BlockManager) (T : List Nat) (q stop : Nat) (ids : List Nat) : Prop where
  tokens : ∀ i b, ids[i]? = some b → m.tokens b = m.block_tokens T (q + i)
  miss : ∀ i b, (q + i + 1) * m.block_size ≤ stop → m.HitAt T (q + i) b →
    m.check_hash_collision b (m.block_tokens T (q + i)) = false → ids.length ≤ i

/-- The first hits in a row pass the token check. -/
def NoFalseHit (m : BlockManager) (T : List Nat) (q stop : Nat) : Prop :=
  ∀ i b, (∀ j < i, ∃ b', m.HitAt T (q + j) b') → (q + i + 1) * m.block_size ≤ stop → m.HitAt T (q + i) b →
    m.check_hash_collision b (m.block_tokens T (q + i)) = true

/-- What the loop returns is the hits in a row. -/
theorem getElem?_prefix_hits : (m.prefix_hits T stop (step_by (q * m.block_size) stop m.block_size))[i]? = some b ↔
    (∀ j < i, ∃ b', m.HitAt T (q + j) b') ∧ (q + i + 1) * m.block_size ≤ stop ∧ m.HitAt T (q + i) b := by
  have hplace : ∀ j, q * m.block_size + (j + 1) * m.block_size = (q + j + 1) * m.block_size := fun j => by ring
  constructor
  · intro hb
    obtain ⟨hstop, hhit⟩ := prefix_hits_get i hb
    rw [hplace] at hstop hhit
    refine ⟨fun j hj => ?_, hstop, hhit⟩
    obtain ⟨b', hb'⟩ : ∃ b', (m.prefix_hits T stop (step_by (q * m.block_size) stop m.block_size))[j]? = some b' :=
      ⟨_, List.getElem?_eq_getElem (hj.trans (List.getElem?_eq_some_iff.1 hb).1)⟩
    have hfound := (prefix_hits_get j hb').2
    rw [hplace] at hfound
    exact ⟨b', hfound⟩
  · rintro ⟨hrow, hstop, hhit⟩
    have hlen : i + 1 ≤ (m.prefix_hits T stop (step_by (q * m.block_size) stop m.block_size)).length := by
      refine le_prefix_hits (i + 1) (fun _ => by rw [hplace]; exact hstop) fun j hj => ?_
      rw [hplace, Option.isSome_iff_exists]
      rcases Nat.lt_succ_iff_lt_or_eq.1 hj with hj | rfl
      · exact hrow j hj
      · exact ⟨b, hhit⟩
    have hget := List.getElem?_eq_getElem (Nat.lt_of_succ_le hlen)
    have hfound := (prefix_hits_get i hget).2
    rw [hplace] at hfound
    rw [hget, ← hfound]
    exact hhit

theorem prefix_hits_serves_iff :
    m.Serves T q stop (m.prefix_hits T stop (step_by (q * m.block_size) stop m.block_size)) ↔
      m.NoFalseHit T q stop := by
  constructor
  · intro h i b hrow hstop hhit
    exact decide_eq_true (h.tokens i b (getElem?_prefix_hits.2 ⟨hrow, hstop, hhit⟩))
  · refine fun h => ⟨fun i b hb => ?_, fun i b hstop hhit hcheck => ?_⟩
    · obtain ⟨hrow, hstop, hhit⟩ := getElem?_prefix_hits.1 hb
      exact of_decide_eq_true (h i b hrow hstop hhit)
    · by_contra hlt
      obtain ⟨hrow, -, -⟩ := getElem?_prefix_hits.1 (List.getElem?_eq_getElem (Nat.lt_of_not_le hlt))
      rw [h i b hrow hstop hhit] at hcheck
      cases hcheck

theorem get_prefix_cache_blocks_serves_iff :
    m.Serves T 0 T.length (m.get_prefix_cache_blocks T) ↔ m.NoFalseHit T 0 T.length := by
  rw [← prefix_hits_serves_iff, Nat.zero_mul]
  rfl

theorem get_prefix_cache_blocks_range_serves_iff {start : Nat} {ids : List Nat} {m' : BlockManager}
    (hrun : get_prefix_cache_blocks_range T start stop m = .ok ids m') :
    m.Serves T (div_ceil start m.block_size) (min stop T.length) ids ↔
      m.NoFalseHit T (div_ceil start m.block_size) (min stop T.length) := by
  replace hrun := get_ok hrun
  split at hrun
  · obtain ⟨rfl, -⟩ : _ = ids ∧ _ := by simpa using hrun
    exact prefix_hits_serves_iff
  · simp at hrun

/-- A hash that tells the prefixes apart leads to the tokens asked for. -/
theorem PageInv.noFalseHit {Occ : List Nat → Prop} {tok : Nat → List Nat} {n : Nat}
    (h : m.PageInv (· = ·) Occ tok n none [])
    (hinj : ∀ P P', Occ P → Occ P' → compute_hash P = compute_hash P' → P = P') (hT : ∀ k, Occ (T.take k))
    (hstop : stop ≤ T.length) : m.NoFalseHit T q stop := by
  intro i b _ hle hhit
  have hend : (q + i + 1) * m.block_size = (q + i) * m.block_size + m.block_size := Nat.succ_mul ..
  unfold HitAt at hhit
  rw [hend] at hle hhit
  obtain ⟨-, -, htokens, -⟩ := h.hit (TokenRel.eq hinj) _ hT (hle.trans hstop) hhit
  refine decide_eq_true (htokens.trans ?_)
  rw [block_tokens, hend]

end

end BlockManager

namespace System

section
variable [Hasher] {c : SchedulerConfig} {s : System} {Occ : List Nat → Prop}

/-- In every reachable state, on every device, at any point of a scheduling round: where the hash tells apart the
prefixes that occur, those of the tokens asked for among them, and is not `0` on the host and the disk, each lookup
returns blocks with the tokens asked for, ending at the first hit with other tokens. In one state alone, it does so
exactly when there is no such hit. -/
theorem prefix_hits_serve_iff {ops : List Op} (h : OccRun Occ c ops s) (d : Device) {m : BlockManager}
    (hm : Touched (keys (s.scheduler.waiting ++ s.scheduler.allocated)) (s.scheduler.get_block_manager d) m)
    (T : List Nat) :
    ((∀ k, Occ (T.take k)) → (∀ P P', Occ P → Occ P' → compute_hash P = compute_hash P' → P = P') →
      (d ≠ .Gpu → ∀ P, Occ P → compute_hash P ≠ 0) →
      m.Serves T 0 T.length (m.get_prefix_cache_blocks T) ∧
      (∀ start stop ids m', get_prefix_cache_blocks_range T start stop m = .ok ids m' →
        m.Serves T (div_ceil start m.block_size) (min stop T.length) ids) ∧
      ∀ q stop, stop ≤ T.length → m.NoFalseHit T q stop) ∧
    (m.Serves T 0 T.length (m.get_prefix_cache_blocks T) ↔ m.NoFalseHit T 0 T.length) ∧
    (∀ start stop ids m', get_prefix_cache_blocks_range T start stop m = .ok ids m' →
      (m.Serves T (div_ceil start m.block_size) (min stop T.length) ids ↔
        m.NoFalseHit T (div_ceil start m.block_size) (min stop T.length))) := by
  refine ⟨fun hT hinj hzero => ?_, get_prefix_cache_blocks_serves_iff,
    fun start stop ids m' h => get_prefix_cache_blocks_range_serves_iff h⟩
  obtain ⟨tok, hinv⟩ := SysInv.run (D := (· = d)) (TokenRel.eq hinj) (fun d' hd hne => hzero (hd ▸ hne)) h
  have hpage := (hm.owned (TokenRel.eq hinj) hinv.keys_queues (hinv.devices d rfl).page).page
  have hnone : ∀ q stop, stop ≤ T.length → m.NoFalseHit T q stop := fun q stop hstop => hpage.noFalseHit hinj hT hstop
  exact ⟨get_prefix_cache_blocks_serves_iff.2 (hnone 0 _ (Nat.le_refl _)), fun start stop ids m' h =>
    (get_prefix_cache_blocks_range_serves_iff h).2 (hnone _ _ (Nat.min_le_right ..)), hnone⟩

end

/-- A prompt of which the first block is cached is served that block. -/
theorem prefix_hits_serve_shared :
    let _ := decimalHasher
    ∃ s m, OccRun (· ∈ sharedPrefixes) sharedConfig sharedRun s ∧ m = s.scheduler.gpu_block_manager ∧
      m.get_prefix_cache_blocks [1, 2, 3] = [0] ∧ m.Serves [1, 2, 3] 0 3 (m.get_prefix_cache_blocks [1, 2, 3]) := by
  let _ := decimalHasher
  have hfollow : (Run.follow (next_occurring sharedPrefixes) (System.new sharedConfig) sharedRun).any
      (fun s => s.scheduler.gpu_block_manager.get_prefix_cache_blocks [1, 2, 3] = [0]) = true := by
    decide +kernel
  obtain ⟨s, hrun, hs⟩ := occ_run_of_follow hfollow
  have hT : ∀ k, [1, 2, 3].take k ∈ sharedPrefixes := fun k => by
    rcases Nat.lt_or_ge k 3 with hk | hk
    · have hall : ∀ k < 3, [1, 2, 3].take k ∈ sharedPrefixes := by decide
      exact hall k hk
    · rw [List.take_of_length_le hk]; decide
  have hinj : ∀ P ∈ sharedPrefixes, ∀ P' ∈ sharedPrefixes, compute_hash P = compute_hash P' → P = P' := by
    decide
  obtain ⟨hserves, -⟩ := prefix_hits_serve_iff hrun .Gpu (Touched.refl _ _) [1, 2, 3]
  obtain ⟨hfirst, -⟩ := hserves hT (fun P P' hP => hinj P hP P') (fun hne => absurd rfl hne)
  exact ⟨s, _, hrun, rfl, of_decide_eq_true hs, hfirst⟩

/-- A hash that does not depend on the order of the tokens. -/
abbrev sumHasher : Hasher := ⟨fun l => l.sum + 1⟩

/-- Then the cached block of one prompt is served for another. -/
theorem collision_served :
    let _ := sumHasher
    ∃ s, Reachable sharedConfig s ∧ s.scheduler.gpu_block_manager.get_prefix_cache_blocks [2, 1, 5] = [0] ∧
      s.scheduler.gpu_block_manager.tokens 0 = [1, 2] ∧
      ¬ s.scheduler.gpu_block_manager.Serves [2, 1, 5] 0 3
        (s.scheduler.gpu_block_manager.get_prefix_cache_blocks [2, 1, 5]) := by
  let _ := sumHasher
  have hfollow : (Run.follow Op.next (System.new sharedConfig) sharedRun).any (fun s =>
      s.scheduler.gpu_block_manager.get_prefix_cache_blocks [2, 1, 5] = [0] ∧
      s.scheduler.gpu_block_manager.block_size = 2 ∧ s.scheduler.gpu_block_manager.tokens 0 = [1, 2]) = true := by
    decide +kernel
  obtain ⟨s, hrun, hs⟩ := Run.exists_of_follow (fun _ _ _ => Op.step_of_next) hfollow
  obtain ⟨hids, hsize, htokens⟩ := of_decide_eq_true hs
  refine ⟨s, ⟨_, hrun⟩, hids, htokens, fun h => ?_⟩
  have hwrong := h.tokens 0 0 (by rw [hids]; rfl)
  rw [htokens, block_tokens, hsize] at hwrong
  exact absurd hwrong (by decide)

end System

end LMServe
