import LMServe.Footprint
import LMServe.System
import Mathlib.Data.List.Flatten

/-!
# The page tables of a running system

`SysInv`: the tasks the system knows have sequences with distinct ids below the counter, and on the
devices `D` the page tables describe the tokens of these sequences, as far as they are mapped there.
Tasks that are still to be triggered have nothing on the host but full blocks found in the prefix
cache, which is what `update_prefix_cache_blocks` relies on. The invariant holds in every state a
run reaches.

On the GPU nothing is asked of the hash function. On the host and the disk a hash must not be `0`,
the mark of a block without one: `reserve_blocks` leaves the table entry of a block's old content
behind, and an entry under `0` would fit every cleared block.
-/

namespace LMServe
open Hoare Chunk BlockManager

/-! ### Tokens by id -/

/-- `tok`, with the tokens listed in `K` instead. -/
def override (tok : Nat → List Nat) (K : List (Nat × List Nat)) (i : Nat) : List Nat :=
  ((K.find? (·.1 = i)).map (·.2)).getD (tok i)

section
variable {tok : Nat → List Nat} {K : List (Nat × List Nat)} {i : Nat} {p : Nat × List Nat}

theorem override_of_mem (hK : (K.map Prod.fst).Nodup) (hp : p ∈ K) : override tok K p.1 = p.2 := by
  induction K with
  | nil => simp at hp
  | cons q K ih =>
    rw [List.map_cons, List.nodup_cons] at hK
    unfold override
    rcases List.mem_cons.1 hp with rfl | hp
    · simp
    · have hne : q.1 ≠ p.1 := fun h => hK.1 (List.mem_map.2 ⟨p, hp, h.symm⟩)
      rw [List.find?_cons_of_neg (by simpa using hne)]
      exact ih hK.2 hp

theorem override_of_not_mem (h : i ∉ K.map Prod.fst) : override tok K i = tok i := by
  have hnone : K.find? (·.1 = i) = none := by
    rw [List.find?_eq_none]
    intro p hp hpi
    exact h (List.mem_map.2 ⟨p, hp, by simpa using hpi⟩)
  simp [override, hnone]

end

/-- Fewer tasks, the same or fewer keys. -/
theorem keys_subperm_of_tally {l l' : List InferTask} (h : ∀ a, tally a l' ≤ tally a l) :
    (keys l').Subperm (keys l) := by
  have hkeys : ∀ l : List InferTask, keys l = (l.map InferTask.ident).flatMap (·.2.2) := by
    intro l
    simp [keys, List.flatMap_map, InferTask.ident]
  have hsub : (l'.map InferTask.ident).Subperm (l.map InferTask.ident) :=
    List.subperm_ext_iff.2 fun a _ => h a
  obtain ⟨k, hperm, hk⟩ := hsub
  rw [hkeys, hkeys]
  exact ⟨_, hperm.flatMap_right _, hk.flatMap _⟩

/-! ### One device -/

namespace BlockManager

/-- See the module doc; `lim` and `rlim` bound the sequence and region ids in use. -/
structure DevInv [Hasher] (R : List Nat → List Nat → Prop) (Occ : List Nat → Prop)
    (tok : Nat → List Nat) (n bs lim rlim : Nat) (m : BlockManager) : Prop where
  page : m.PageInv R Occ tok n none []
  block_size : m.block_size = bs
  unmapped : ∀ i, lim ≤ i → m.get_block_map i = none
  fresh : ∀ r, rlim ≤ r → m.reserved_blocks_table.lookup r = none

section
variable [Hasher] {R : List Nat → List Nat → Prop} {Occ : List Nat → Prop} {tok tok' : Nat → List Nat}
  {n bs lim lim' rlim rlim' : Nat} {ids rids : List Nat} {m m' : BlockManager}

theorem DevInv.new (hbs : 0 < bs) (n rlim : Nat) :
    DevInv R Occ tok n bs 0 rlim (BlockManager.new bs hbs n) := by
  have hblock : ∀ b, (BlockManager.new bs hbs n).get_block b = Block.new := fun b => by
    simp only [BlockManager.new, get_block, BlockAllocator.get_block, BlockAllocator.new,
      List.getD_eq_getElem?_getD, List.getElem?_replicate]
    split <;> rfl
  have htokens : ∀ b, (BlockManager.new bs hbs n).tokens b = [] := fun b => by
    simp [BlockManager.tokens, hblock, Block.new]
  have href := RefInv.new bs hbs n
  refine ⟨⟨href, fun i m _ hm => ?_, fun b => ?_, fun b _ _ => ?_, fun b _ ht => ?_, fun b hb => ?_,
    fun r ids hr => ?_⟩, rfl, fun _ _ => rfl, fun _ _ => rfl⟩
  · cases (show (none : Option BlockMap) = some m from hm)
  · rw [htokens]; exact Nat.zero_le _
  · exact Nat.zero_le _
  · rw [hblock] at ht
    rcases ht with ht | ht
    · exact absurd rfl ht
    · cases (show (none : Option Nat) = some b from ht)
  · cases (show (none : Option Nat) = some b from hb)
  · cases (show (none : Option (List Nat)) = some ids from hr)

theorem DevInv.owned (h : DevInv R Occ tok n bs lim rlim m) (ho : Owned R Occ tok n ids rids m m')
    (hi : ∀ i ∈ ids, i < lim) (hr : ∀ r ∈ rids, r < rlim) : DevInv R Occ tok n bs lim rlim m' := by
  refine ⟨ho.page, ho.block_size.trans h.block_size, fun i hlim => ?_, fun r hrlim => ?_⟩
  · rw [ho.maps i fun hmem => absurd (hi i hmem) (Nat.not_lt.2 hlim)]
    exact h.unmapped i hlim
  · exact ho.regions r (fun hmem => absurd (hr r hmem) (Nat.not_lt.2 hrlim)) (h.fresh r hrlim)

theorem PageInv.retok {skip : Option Nat} {held : List Nat} (h : m.PageInv R Occ tok n skip held)
    (htok : ∀ i m', m.get_block_map i = some m' → tok i <+: tok' i) :
    m.PageInv R Occ tok' n skip held :=
  { h with maps := fun i m' hi hm => (h.maps i m' hi hm).extend (htok i m' hm) }

theorem DevInv.grow (h : DevInv R Occ tok n bs lim rlim m) (hlim : lim ≤ lim') (hr : rlim ≤ rlim')
    (htok : ∀ i, i < lim → tok i <+: tok' i) : DevInv R Occ tok' n bs lim' rlim' m := by
  refine ⟨h.page.retok fun i m' hm => htok i ?_, h.block_size,
    fun i hi => h.unmapped i (Nat.le_trans hlim hi), fun r hr' => h.fresh r (Nat.le_trans hr hr')⟩
  by_contra hge
  rw [h.unmapped i (Nat.not_lt.1 hge)] at hm
  cases hm

end

end BlockManager

/-! ### The system -/

namespace System

/-- Every task the system knows. -/
def tasks (s : System) : List InferTask :=
  s.scheduler.waiting ++ s.scheduler.allocated ++ s.scheduler.pending_tasks ++ s.reserving ++ s.finished

/-- The tasks that are still to be triggered. -/
def parked (s : System) : List InferTask := s.scheduler.pending_tasks ++ s.reserving

/-- A bound on the region ids in use on a device; the GPU has none. -/
def region_limit (s : System) : Device → Nat
  | .Gpu => 0
  | _ => s.next_region_id

/-- The prefixes of all sequences are in `Occ`. -/
def Occurring (Occ : List Nat → Prop) (s : System) : Prop :=
  ∀ t ∈ s.tasks, ∀ seq ∈ t.seqs, ∀ k, Occ (seq.token_ids.take k)

/-- See the module doc. -/
structure SysInv [Hasher] (R : List Nat → List Nat → Prop) (Occ : List Nat → Prop)
    (D : Device → Prop) (c : SchedulerConfig) (tok : Nat → List Nat) (s : System) : Prop where
  keys : KeysOk Occ tok s.next_seq_id (keys s.tasks)
  devices : ∀ d, D d → DevInv R Occ tok (c.num_blocks d) c.block_size s.next_seq_id (s.region_limit d)
    (s.scheduler.get_block_manager d)
  aligned : D .Host → ∀ t ∈ s.parked, ∀ seq ∈ t.seqs,
    Aligned c.block_size (s.scheduler.host_block_manager.get_block_map seq.seq_id)

end System

/-! ### Operations of the scheduler outside `schedule` -/

namespace Scheduler

/-- An operation on one device, with a footprint of its own. -/
theorem on_device_triple_of {α : Type} {I J : Device → BlockManager → Prop} {d : Device} {x : BM α}
    (h : Triple (I d) x (fun _ => J d) AnyError) (hI : ∀ d' m, I d' m → J d' m) :
    Triple (OnDevices I) (on_device d x) (fun _ => OnDevices J) AnyError := by
  refine Triple.zoom fun s hs m hm => ?_
  have := h m (by rw [hm]; exact hs d)
  cases hrun : x m with
  | error e m' => trivial
  | ok a m' =>
    rw [hrun] at this
    intro d'
    rw [get_set_block_manager]
    split
    · rename_i hd; rw [hd]; exact this
    · exact hI d' _ (hs d')

section
variable [Hasher] {I J : Device → BlockManager → Prop}

section
variable {γ : Type} {f : Scheduler → γ} (hf : Aside f)
include hf

theorem Aside.init_prefix_cache_blocks (t : InferTask) (devices : List Device) :
    Keeps f (init_prefix_cache_blocks t devices) :=
  Keeps.forM (fun _ => Keeps.forM (fun d => hf.on_device d _) _) _

theorem Aside.reserve_copy_blocks (r : Nat) (seq : Sequence) (d d' : Device) :
    Keeps f (reserve_copy_blocks r seq d d') := by
  refine Keeps.get.bind fun s => Keeps.ite (Keeps.pure _) ?_
  split
  · exact Keeps.pure _
  · exact Keeps.ite ((hf.on_device _ _).bind fun _ => Keeps.pure _) (Keeps.pure _)

theorem Aside.plan_stage (r : Nat) (t : InferTask) : Keeps f (plan_stage r t) := by
  refine (hf.init_prefix_cache_blocks t _).bind fun _ => Keeps.get.bind fun s => ?_
  split
  · exact Keeps.throw _
  · exact Keeps.ite (Keeps.pure _) (hf.reserve_copy_blocks _ _ _ _)

theorem Aside.backup (r : Nat) (t : InferTask) : Keeps f (backup r t) := by
  unfold Scheduler.backup
  split
  · exact Keeps.throw _
  · exact hf.reserve_copy_blocks _ _ _ _

theorem Aside.reserve_blocks (r : Nat) (t : InferTask) (d : Device) : Keeps f (reserve_blocks r t d) := by
  unfold Scheduler.reserve_blocks
  split
  · exact Keeps.throw _
  · exact Keeps.get.bind fun _ => (hf.on_device _ _).bind fun _ => Keeps.pure _

omit [Hasher] in
theorem Aside.pin_blocks (r : Nat) (l : List Nat) (d : Device) : Keeps f (pin_blocks r l d) :=
  (hf.on_device _ _).bind fun _ => Keeps.pure _

omit [Hasher] in
theorem Aside.clear_cache : Keeps f clear_cache :=
  Keeps.forM (fun _ => hf.on_device _ _) _

omit [Hasher] in
theorem Aside.remove_task (t : InferTask) : Keeps f (remove_task t) :=
  Keeps.forM (fun _ => Keeps.forM (fun d => hf.on_device d _) _) _

end

theorem init_prefix_cache_blocks_keeps (t : InferTask) (devices : List Device) :
    Keeps control (init_prefix_cache_blocks t devices) :=
  control_aside.init_prefix_cache_blocks t devices

theorem init_prefix_cache_blocks_triple {t : InferTask} {devices : List Device}
    (h : ∀ seq ∈ t.seqs, ∀ d, Triple (I d) (BlockManager.init_prefix_cache_blocks seq)
      (fun _ => I d) AnyError) :
    Triple (OnDevices I) (init_prefix_cache_blocks t devices) (fun _ => OnDevices I) AnyError := by
  refine triple_forM_mem fun seq hseq => triple_forM_mem fun d _ => on_device_triple ?_
  refine Triple.bind (h seq (List.mem_filter.1 hseq).1 d) fun _ => Triple.pure fun _ hm => hm

theorem reserve_copy_blocks_triple {r : Nat} {seq : Sequence} {d d' : Device}
    (h : ∀ k start, Triple (I d') (BlockManager.reserve_blocks r (seq.token_ids.take k) start)
      (fun _ => J d') AnyError) (hI : ∀ d m, I d m → J d m) :
    Triple (OnDevices I) (reserve_copy_blocks r seq d d') (fun _ => OnDevices J) AnyError := by
  have hpure : ∀ {s : Scheduler} {x : Option (DeviceBlockRegion × BlockMapping)}, OnDevices I s →
      Triple (· = s) (pure x : SM _) (fun _ => OnDevices J) AnyError :=
    fun hs => Triple.pure fun t ht => by subst ht; exact fun d => hI d _ (hs d)
  refine Triple.get_bind fun s hs => Triple.ite (fun _ => hpure hs) fun _ => ?_
  split
  · exact hpure hs
  · refine Triple.ite (fun _ => ?_) fun _ => hpure hs
    refine Triple.bind (Triple.pre (on_device_triple_of (h _ _) hI) fun t ht => ht ▸ hs) fun _ => ?_
    exact Triple.pure fun _ ht => ht

theorem plan_stage_keeps (r : Nat) (t : InferTask) : Keeps control (plan_stage r t) :=
  control_aside.plan_stage r t

theorem plan_stage_triple {r : Nat} {t : InferTask}
    (h : ∀ seq ∈ t.seqs, ∀ d, Triple (I d) (BlockManager.init_prefix_cache_blocks seq)
      (fun _ => I d) AnyError)
    (h' : ∀ seq ∈ t.seqs, ∀ k start, Triple (I .Host)
      (BlockManager.reserve_blocks r (seq.token_ids.take k) start) (fun _ => J .Host) AnyError)
    (hI : ∀ d m, I d m → J d m) :
    Triple (OnDevices I) (plan_stage r t) (fun _ => OnDevices J) AnyError := by
  refine Triple.bind (init_prefix_cache_blocks_triple h) fun _ => Triple.get_bind fun s hs => ?_
  split
  · exact Triple.throw trivial
  · rename_i head hhead
    have hmem : head ∈ t.seqs := (List.mem_filter.1 (List.mem_of_mem_head? hhead)).1
    refine Triple.ite (fun _ => Triple.pure fun u hu => ?_) fun _ => ?_
    · subst hu; exact fun d => hI d _ (hs d)
    · exact Triple.pre (reserve_copy_blocks_triple (h' head hmem) hI) fun u hu => hu ▸ hs

theorem backup_keeps (r : Nat) (t : InferTask) : Keeps control (backup r t) := control_aside.backup r t

theorem reserve_blocks_keeps (r : Nat) (t : InferTask) (d : Device) :
    Keeps control (reserve_blocks r t d) :=
  control_aside.reserve_blocks r t d

omit [Hasher] in
theorem pin_blocks_keeps (r : Nat) (l : List Nat) (d : Device) : Keeps control (pin_blocks r l d) :=
  control_aside.pin_blocks r l d

omit [Hasher] in
theorem clear_cache_keeps : Keeps control clear_cache := control_aside.clear_cache

omit [Hasher] in
theorem remove_task_keeps (t : InferTask) : Keeps control (remove_task t) := control_aside.remove_task t

omit [Hasher] in
theorem remove_task_triple {t : InferTask}
    (h : ∀ seq ∈ t.seqs, ∀ d, Triple (I d) (BlockManager.free seq.seq_id) (fun _ => I d) AnyError)
    (h' : ∀ seq ∈ t.seqs, ∀ d, Triple (I d) (BlockManager.free_and_drop_cache seq.seq_id)
      (fun _ => I d) AnyError) :
    Triple (OnDevices I) (remove_task t) (fun _ => OnDevices I) AnyError := by
  refine triple_forM_mem fun seq hseq => triple_forM_mem fun d _ => on_device_triple ?_
  have hmem := (List.mem_filter.1 hseq).1
  exact Triple.ite (fun _ => h' seq hmem d) fun _ => h seq hmem d

end

end Scheduler

/-! ### Assembling the invariant -/

section
variable {Occ : List Nat → Prop} {tok : Nat → List Nat} {lim lim' : Nat} {K K' : List (Nat × List Nat)}

theorem KeysOk.add (h : KeysOk Occ tok lim K) (hnd : (K'.map Prod.fst).Nodup)
    (hge : ∀ p ∈ K', lim ≤ p.1) (hlt : ∀ p ∈ K', p.1 < lim') (hlim : lim ≤ lim')
    (hocc : ∀ p ∈ K', ∀ k, Occ (p.2.take k)) : KeysOk Occ (override tok K') lim' (K' ++ K) := by
  have hnew : ∀ p ∈ K, p.1 ∉ K'.map Prod.fst := fun p hp hmem => by
    obtain ⟨q, hq, hqp⟩ := List.mem_map.1 hmem
    have h1 := hge q hq
    have h2 := h.lt p hp
    omega
  refine ⟨?_, fun p hp => ?_, fun p hp => ?_, fun p hp => ?_⟩
  · rw [List.map_append, List.nodup_append]
    refine ⟨hnd, h.nodup, fun a ha b hb hab => ?_⟩
    obtain ⟨q, hq, rfl⟩ := List.mem_map.1 hb
    exact hnew q hq (hab ▸ ha)
  · rcases List.mem_append.1 hp with hp | hp
    · exact override_of_mem hnd hp
    · rw [override_of_not_mem (hnew p hp)]; exact h.tok p hp
  · rcases List.mem_append.1 hp with hp | hp
    · exact hlt p hp
    · exact Nat.lt_of_lt_of_le (h.lt p hp) hlim
  · rcases List.mem_append.1 hp with hp | hp
    · exact hocc p hp
    · exact h.occ p hp

theorem KeysOk.update {L : List (Nat × List Nat)} (h : KeysOk Occ tok lim (K ++ L))
    (hrel : List.Forall₂ (fun p q : Nat × List Nat => q.1 = p.1 ∧ p.2 <+: q.2) K K')
    (hocc : ∀ q ∈ K', ∀ k, Occ (q.2.take k)) :
    KeysOk Occ (override tok K') lim (K' ++ L) ∧ ∀ i, tok i <+: override tok K' i := by
  have hids : K'.map Prod.fst = K.map Prod.fst := by
    clear h hocc
    induction hrel with
    | nil => rfl
    | cons hpq _ ih => rw [List.map_cons, List.map_cons, hpq.1, ih]
  have hold : ∀ q ∈ K', ∃ p ∈ K, q.1 = p.1 ∧ p.2 <+: q.2 := by
    clear h hocc hids
    induction hrel with
    | nil => simp
    | cons hpq _ ih =>
      intro q hq
      rcases List.mem_cons.1 hq with rfl | hq
      · exact ⟨_, List.mem_cons_self .., hpq⟩
      · obtain ⟨p, hp, hpq'⟩ := ih q hq
        exact ⟨p, List.mem_cons_of_mem _ hp, hpq'⟩
  have hnd : (K'.map Prod.fst).Nodup := by
    have := h.nodup
    rw [List.map_append, List.nodup_append] at this
    rw [hids]; exact this.1
  refine ⟨⟨?_, fun p hp => ?_, fun p hp => ?_, fun p hp => ?_⟩, fun i => ?_⟩
  · rw [List.map_append, hids, ← List.map_append]; exact h.nodup
  · rcases List.mem_append.1 hp with hp | hp
    · exact override_of_mem hnd hp
    · rw [override_of_not_mem]
      · exact h.tok p (List.mem_append_right _ hp)
      · rw [hids]
        intro hmem
        obtain ⟨q, hq, hqp⟩ := List.mem_map.1 hmem
        exact h.disjoint hq hp hqp
  · rcases List.mem_append.1 hp with hp | hp
    · obtain ⟨q, hq, hpq, -⟩ := hold p hp
      rw [hpq]; exact h.lt q (List.mem_append_left _ hq)
    · exact h.lt p (List.mem_append_right _ hp)
  · rcases List.mem_append.1 hp with hp | hp
    · exact hocc p hp
    · exact h.occ p (List.mem_append_right _ hp)
  · by_cases hi : i ∈ K'.map Prod.fst
    · obtain ⟨q, hq, rfl⟩ := List.mem_map.1 hi
      obtain ⟨p, hp, hpq, hpre⟩ := hold q hq
      rw [override_of_mem hnd hq, hpq, h.tok p (List.mem_append_left _ hp)]
      exact hpre
    · rw [override_of_not_mem hi]

end

namespace System

/-- The footprint of a step on the devices `D`. -/
def Near [Hasher] (R : List Nat → List Nat → Prop) (Occ : List Nat → Prop) (D : Device → Prop)
    (c : SchedulerConfig) (tok : Nat → List Nat) (s₀ : Scheduler) (ids : List Nat)
    (rids : Device → List Nat) (d : Device) (m : BlockManager) : Prop :=
  D d → Owned R Occ tok (c.num_blocks d) ids (rids d) (s₀.get_block_manager d) m

section
variable [Hasher] {R : List Nat → List Nat → Prop} {Occ : List Nat → Prop} {D : Device → Prop}
  {c : SchedulerConfig} {tok : Nat → List Nat} {s s' : System} {σ : Scheduler} {ids : List Nat}
  {rids : Device → List Nat}

/-- A triple for a footprint, from the one for each device. -/
theorem near_triple {α : Type} {x : BM α} {d : Device} {ids' : List Nat} {rids' : Device → List Nat}
    (h : D d → Triple (Owned R Occ tok (c.num_blocks d) ids (rids d) (σ.get_block_manager d)) x
      (fun _ => Owned R Occ tok (c.num_blocks d) ids' (rids' d) (σ.get_block_manager d)) AnyError) :
    Triple (Near R Occ D c tok σ ids rids d) x (fun _ => Near R Occ D c tok σ ids' rids' d)
      AnyError := by
  intro m hm
  cases hrun : x m with
  | error e m' => trivial
  | ok a m' => exact fun hD => (h hD).of_ok (hm hD) hrun

/-- The faults excluded where the page tables of all devices are known. -/
def Safe (D : Device → Prop) (e : Panic) : Prop := (∀ d, D d) → NoSizeFault e

theorem near_safe {α : Type} {x : BM α} {d : Device} {ids' : List Nat} {rids' : Device → List Nat}
    (h : D d → Triple (Owned R Occ tok (c.num_blocks d) ids (rids d) (σ.get_block_manager d)) x
      (fun _ => Owned R Occ tok (c.num_blocks d) ids' (rids' d) (σ.get_block_manager d)) NoSizeFault) :
    Triple (Near R Occ D c tok σ ids rids d) x (fun _ => Near R Occ D c tok σ ids' rids' d)
      (Safe D) := by
  intro m hm
  cases hrun : x m with
  | error e m' => exact fun hD => (h (hD d)).of_error (hm (hD d)) hrun
  | ok a m' => exact fun hD => (h hD).of_ok (hm hD) hrun

theorem SysInv.start (h : SysInv R Occ D c tok s) :
    Scheduler.OnDevices (Near R Occ D c tok s.scheduler ids rids) s.scheduler :=
  fun d hD => Owned.refl (h.devices d hD).page

theorem SysInv.of_near
    (hinv : ∀ d, D d → DevInv R Occ tok (c.num_blocks d) c.block_size s'.next_seq_id
      (s'.region_limit d) (σ.get_block_manager d))
    (hdev : Scheduler.OnDevices (Near R Occ D c tok σ ids rids) s'.scheduler)
    (hids : ∀ i ∈ ids, i < s'.next_seq_id) (hrids : ∀ d, ∀ r ∈ rids d, r < s'.region_limit d)
    (hkeys : KeysOk Occ tok s'.next_seq_id (LMServe.keys s'.tasks))
    (hal : D .Host → ∀ t ∈ s'.parked, ∀ seq ∈ t.seqs,
      Aligned c.block_size (s'.scheduler.host_block_manager.get_block_map seq.seq_id)) :
    SysInv R Occ D c tok s' :=
  ⟨hkeys, fun d hD => (hinv d hD).owned (hdev d hD) hids (hrids d), hal⟩

variable (s') in
/-- Parked tasks outside the footprint stay aligned. -/
theorem SysInv.aligned_of_near (h : SysInv R Occ D c tok s)
    (hdev : Scheduler.OnDevices (Near R Occ D c tok s.scheduler ids rids) s'.scheduler)
    (hD : D .Host) {t : InferTask} (ht : t ∈ s.parked) {seq : Sequence} (hseq : seq ∈ t.seqs)
    (hi : seq.seq_id ∉ ids) :
    Aligned c.block_size (s'.scheduler.host_block_manager.get_block_map seq.seq_id) := by
  have := (hdev .Host hD).maps seq.seq_id hi
  exact this ▸ h.aligned hD t ht seq hseq

theorem SysInv.of_quiet_near (h : SysInv R Occ D c tok s)
    (hseq : s'.next_seq_id = s.next_seq_id) (hreg : s'.next_region_id = s.next_region_id)
    (hdev : Scheduler.OnDevices (Near R Occ D c tok s.scheduler [] rids) s'.scheduler)
    (hrids : ∀ d, ∀ r ∈ rids d, r < s.region_limit d)
    (htasks : s'.tasks.Perm s.tasks) (hparked : ∀ t ∈ s'.parked, t ∈ s.parked) :
    SysInv R Occ D c tok s' := by
  have hlim : ∀ d, s'.region_limit d = s.region_limit d := fun d => by cases d <;> simp [region_limit, hreg]
  refine SysInv.of_near (σ := s.scheduler) (fun d hD => ?_) hdev (by simp)
    (fun d r hr => ?_) ?_ fun hD t ht seq hseq' =>
      h.aligned_of_near _ hdev hD (hparked t ht) hseq' (by simp)
  · rw [hseq, hlim]; exact h.devices d hD
  · rw [hlim]; exact hrids d r hr
  · rw [hseq]; exact h.keys.perm (keys_perm htasks)

theorem SysInv.next_region (h : SysInv R Occ D c tok s) :
    SysInv R Occ D c tok { s with next_region_id := s.next_region_id + 1 } := by
  refine ⟨h.keys, fun d hD => (h.devices d hD).grow (Nat.le_refl _) ?_ fun _ _ => List.prefix_refl _,
    h.aligned⟩
  cases d <;> simp [region_limit]

theorem SysInv.fresh_region (h : SysInv R Occ D c tok s) {d : Device} (hD : D d) :
    (s.scheduler.get_block_manager d).reserved_blocks_table.lookup s.next_region_id = none := by
  refine (h.devices d hD).fresh _ ?_
  cases d <;> simp [region_limit]

theorem SysInv.known (h : SysInv R Occ D c tok s) {t : InferTask} (ht : t ∈ s.tasks) {seq : Sequence}
    (hseq : seq ∈ t.seqs) : tok seq.seq_id = seq.token_ids ∧ seq.seq_id < s.next_seq_id ∧
      ∀ k, Occ (seq.token_ids.take k) :=
  ⟨h.keys.tok _ (key_mem_keys ht hseq), h.keys.lt _ (key_mem_keys ht hseq),
   h.keys.occ _ (key_mem_keys ht hseq)⟩

end

end System

end LMServe
