import LMServe.Pages
import LMServe.Worker

/-!
# Shared blocks

A block listed in the maps of two sequences is full and stands at the same place in both, after the
same tokens: its hash is that of the tokens up to its end, and `compute_hash` tells prefixes apart.
So whatever dispatch writes into a shared block, the KV entries of a chunk or a copy from the host,
belongs to tokens the other sequences have too.
-/

namespace LMServe
open Hoare Chunk BlockManager

namespace BlockManager

section
variable [Hasher] {Occ : List Nat → Prop} {tok : Nat → List Nat} {n : Nat} {s : BlockManager}
  {i j k l b : Nat} {m m' : BlockMap}

theorem PageInv.full_block {R : List Nat → List Nat → Prop} (hR : TokenRel R Occ)
    (h : s.PageInv R Occ tok n none []) (hm : s.get_block_map i = some m)
    (hb : m.block_ids[k]? = some b) (hfull : (s.tokens b).length = s.block_size) :
    (k + 1) * s.block_size ≤ m.num_allocated_slots ∧
      (s.get_block b).hash = compute_hash ((tok i).take ((k + 1) * s.block_size)) := by
  have hpage := h.maps i m (by simp) hm
  have hlen := hpage.length_page hR hb
  have hslots : (k + 1) * s.block_size ≤ m.num_allocated_slots := by
    have hpos := s.block_size_pos
    have hmul : (k + 1) * s.block_size = k * s.block_size + s.block_size := Nat.succ_mul ..
    have htokens : (s.tokens b).length = _ := hlen
    omega
  exact ⟨hslots, hpage.hash k b hb hslots⟩

theorem PageInv.shared (hinj : ∀ P P', Occ P → Occ P' → compute_hash P = compute_hash P' → P = P')
    (h : s.PageInv (· = ·) Occ tok n none []) (hij : j ≠ i) (hi : ∀ k, Occ ((tok i).take k))
    (hj : ∀ k, Occ ((tok j).take k)) (hm : s.get_block_map i = some m)
    (hm' : s.get_block_map j = some m') (hb : m.block_ids[k]? = some b)
    (hb' : m'.block_ids[l]? = some b) :
    l = k ∧ (tok j).take ((k + 1) * s.block_size) = (tok i).take ((k + 1) * s.block_size) ∧
      (k + 1) * s.block_size ≤ m.num_allocated_slots ∧
      (k + 1) * s.block_size ≤ m'.num_allocated_slots ∧ (s.tokens b).length = s.block_size := by
  have hR : TokenRel (· = ·) Occ := TokenRel.eq hinj
  have hfull : (s.tokens b).length = s.block_size := by
    refine Nat.le_antisymm (h.capacity b) (Nat.le_of_not_lt fun hlt => ?_)
    obtain ⟨-, -, -, hother, -⟩ := h.last_unshared hm hb hlt
    exact hother j m' hij hm' (List.mem_of_getElem? hb')
  obtain ⟨hslots, hhash⟩ := h.full_block hR hm hb hfull
  obtain ⟨hslots', hhash'⟩ := h.full_block hR hm' hb' hfull
  have htake := hinj _ _ (hj _) (hi _) (hhash'.symm.trans hhash)
  have hlen := congrArg List.length htake
  rw [List.length_take, List.length_take,
    Nat.min_eq_left (Nat.le_trans hslots' (h.maps j m' (by simp) hm').slots_le),
    Nat.min_eq_left (Nat.le_trans hslots (h.maps i m (by simp) hm).slots_le)] at hlen
  obtain rfl : l = k := by
    have := Nat.eq_of_mul_eq_mul_right s.block_size_pos hlen
    omega
  exact ⟨rfl, htake, hslots, hslots', hfull⟩

end

end BlockManager

/-! ### What dispatch writes -/

theorem BlockManager.getElem?_range {m : BlockManager} {i start stop k q b : Nat} {p : Bool}
    {ids : List Nat} (h : m.get_block_ids_range i start stop p = some (ids, k))
    (hq : ids[q]? = some b) :
    ∃ map, m.get_block_map i = some map ∧ map.block_ids[start / m.block_size + q]? = some b := by
  unfold get_block_ids_range at h
  dsimp only at h
  split at h
  · cases h
  · cases hm : m.get_block_map i with
    | none => simp only [hm] at h; cases h
    | some map =>
      simp only [hm] at h
      split at h
      · cases h
      · simp only [Option.some.injEq, Prod.mk.injEq] at h
        rw [← h.1, getElem?_slice] at hq
        split at hq
        · exact ⟨map, rfl, hq⟩
        · cases hq

namespace Scheduler

section
variable [Hasher] {K : List (Nat × List Nat)} {I : Device → BlockManager → Prop} {E : Panic → Prop}

/-- What every part of the loop body keeps holds of the batch. -/
theorem dispatch_loop_rule (hI : Kept K I E) {P : Batch → Prop} {s : Scheduler} {seqs : List Sequence}
    (hfetch : ∀ s₀ seq acc fetch s₁, Sound K I s₀ → s₀.gpu_layout = s.gpu_layout → seq ∈ seqs →
      plan_copy seq .Host .Gpu true acc.fetch_block_mappings s₀ = .ok fetch s₁ → P acc →
      P { acc with fetch_block_mappings := fetch })
    (hinput : ∀ s₀ seq acc acc' s₁, Sound K I s₀ → s₀.gpu_layout = s.gpu_layout → seq ∈ seqs →
      dispatch_input seq acc s₀ = .ok acc' s₁ → P acc → P acc')
    (hl : ∀ seq ∈ seqs, seq.key ∈ K) :
    ∀ {acc acc' : Batch} {s₀ s' : Scheduler}, Sound K I s₀ → s₀.gpu_layout = s.gpu_layout →
      dispatch_loop seqs acc s₀ = .ok acc' s' → P acc → P acc' := by
  induction seqs with
  | nil =>
    intro acc acc' s₀ s' _ _ h hP
    obtain ⟨rfl, -⟩ : acc = acc' ∧ _ := by simpa [dispatch_loop] using h
    exact hP
  | cons seq seqs ih =>
    intro acc acc' s₀ s' hs hlay h hP
    replace ih := @ih (fun s₀ seq' acc fetch s₁ h1 h2 h3 => hfetch s₀ seq' acc fetch s₁ h1 h2 (by simp [h3]))
      (fun s₀ seq' acc acc' s₁ h1 h2 h3 => hinput s₀ seq' acc acc' s₁ h1 h2 (by simp [h3]))
      (fun seq' h => hl seq' (by simp [h]))
    obtain ⟨_, _, hget, h⟩ := bind_ok.1 h
    obtain ⟨rfl, rfl⟩ : _ ∧ _ := by simpa using hget
    split at h
    · obtain ⟨rfl, -⟩ : acc = acc' ∧ _ := by simpa using h
      exact hP
    · obtain ⟨fetch, s₁, hcopy, h⟩ := bind_ok.1 h
      obtain ⟨acc₁, s₂, hin, h⟩ := bind_ok.1 h
      have hseq := hl seq (by simp)
      have hs₁ := (plan_copy_kept hI hseq _ _ _ _).of_ok hs hcopy
      have hlay₁ := ((plan_copy_layout _ _ _ _ _).of_ok hcopy).trans hlay
      have hs₂ := (dispatch_input_kept hI hseq _).of_ok hs₁ hin
      have hlay₂ := ((dispatch_input_layout _ _).of_ok hin).trans hlay₁
      refine ih hs₂ hlay₂ h (hinput _ seq _ _ _ hs₁ hlay₁ (by simp) hin ?_)
      exact hfetch _ seq _ _ _ hs hlay (by simp) hcopy hP

/-- An input was built from a state on the way, for one of the sequences `seqs`. -/
def Built (I : Device → BlockManager → Prop) (seqs : List Sequence)
    (layout : Nat × (Nat → Option (List Nat × Nat))) (x : InferInput) : Prop :=
  ∃ s₀ seq budget ids k, seq ∈ seqs ∧ OnDevices I s₀ ∧ s₀.gpu_layout = layout ∧
    0 < s₀.chunk_len seq budget ∧ s₀.gpu_block_manager.get_block_ids_range seq.seq_id 0
      (s₀.chunk_start seq + s₀.chunk_len seq budget) true = some (ids, k) ∧
    (∀ map, s₀.gpu_block_manager.get_block_map seq.seq_id = some map →
      s₀.chunk_start seq + s₀.chunk_len seq budget ≤ map.num_allocated_slots) ∧
    x = s₀.chunk_input seq budget ids

/-- A copy from the host was planned in a state on the way, between the blocks at the same place of
the maps of one of the sequences `seqs`; the GPU had not filled that block. -/
def Fetched (I : Device → BlockManager → Prop) (seqs : List Sequence)
    (layout : Nat × (Nat → Option (List Nat × Nat))) (e : BlockMappingEntry) : Prop :=
  ∃ s₀ seq k map host_map, seq ∈ seqs ∧ OnDevices I s₀ ∧ s₀.gpu_layout = layout ∧
    s₀.gpu_block_manager.get_block_map seq.seq_id = some map ∧
    s₀.host_block_manager.get_block_map seq.seq_id = some host_map ∧
    map.block_ids[k]? = some e.dst_block_id ∧ host_map.block_ids[k]? = some e.src_block_id ∧
    map.filled_token_len / s₀.gpu_block_manager.block_size ≤ k

omit [Hasher] in
theorem plan_copy_fetched {seq : Sequence} {seqs : List Sequence} {l l' : List BlockMapping}
    {s₀ s₁ : Scheduler} (hd : OnDevices I s₀) (hseq : seq ∈ seqs)
    (hbs : s₀.host_block_manager.block_size = s₀.gpu_block_manager.block_size)
    (h : plan_copy seq .Host .Gpu true l s₀ = .ok l' s₁) :
    ∀ c ∈ l', c ∈ l ∨ ∀ e ∈ c, Fetched I seqs s₀.gpu_layout e := by
  obtain ⟨_, _, hget, h⟩ := bind_ok.1 h
  obtain ⟨rfl, rfl⟩ : _ ∧ _ := by simpa using hget
  cases hcopy : s₀.copy_blocks seq .Host .Gpu true with
  | none =>
    simp only [hcopy] at h
    obtain ⟨rfl, -⟩ : l = l' ∧ _ := by simpa using h
    exact fun c hc => .inl hc
  | some plan =>
    simp only [hcopy] at h
    obtain ⟨_, s₂, -, h⟩ := bind_ok.1 h
    obtain ⟨rfl, -⟩ : l ++ [plan.1] = l' ∧ _ := by simpa using h
    intro c hc
    rcases List.mem_append.1 hc with hc | hc
    · exact .inl hc
    · refine .inr fun e he => ?_
      obtain rfl : c = plan.1 := by simpa using hc
      unfold copy_blocks at hcopy
      dsimp only [get_block_manager] at hcopy
      split at hcopy
      · split at hcopy
        · rename_i src_ids src_k dst_ids dst_k hsrc hdst
          obtain rfl := Option.some.inj hcopy
          obtain ⟨q, hq⟩ := List.getElem?_of_mem he
          rw [List.getElem?_zipWith_eq_some] at hq
          obtain ⟨a, b, ha, hb, rfl⟩ := hq
          obtain ⟨map, hmap, hmapq⟩ := getElem?_range hdst hb
          obtain ⟨host_map, hhost, hhostq⟩ := getElem?_range hsrc ha
          refine ⟨s₀, seq, _, map, host_map, hseq, hd, rfl, hmap, hhost, hmapq, hbs ▸ hhostq, ?_⟩
          simp only [get_filled_token_len, hmap]
          exact Nat.le_add_right _ _
        · cases hcopy
      · cases hcopy

omit [Hasher] in
theorem dispatch_input_built {seq : Sequence} {seqs : List Sequence} {acc acc' : Batch}
    {s₀ s₁ : Scheduler} (hd : OnDevices I s₀) (hseq : seq ∈ seqs)
    (h : dispatch_input seq acc s₀ = .ok acc' s₁) :
    acc'.fetch_block_mappings = acc.fetch_block_mappings ∧
      ∀ x ∈ acc'.infer_inputs, x ∈ acc.infer_inputs ∨ Built I seqs s₀.gpu_layout x := by
  rcases dispatch_input_ok h with ⟨rfl, -, -⟩ | ⟨ids, k, s₂, wt, hpos, hrange, hfill, -, rfl⟩
  · exact ⟨rfl, fun x hx => .inl hx⟩
  · refine ⟨rfl, fun x hx => ?_⟩
    rcases List.mem_append.1 hx with hx | hx
    · exact .inl hx
    · obtain rfl : x = _ := by simpa using hx
      refine .inr ⟨s₀, seq, _, ids, k, hseq, hd, rfl, hpos, hrange, fun map hmap => ?_, rfl⟩
      obtain ⟨m', hm', -⟩ := on_device_ok hfill
      exact BlockManager.update_filled_len_le hm' hmap

variable [Watch]

/-- Where the inputs and the copies of a batch come from. -/
theorem schedule_batch (hI : Kept K I E)
    (hbs : ∀ m m', I .Host m → I .Gpu m' → m.block_size = m'.block_size) {s s' : Scheduler}
    {batch : Batch} (hs : Sound K I s) (h : schedule s = .ok batch s') :
    (∀ x ∈ batch.infer_inputs,
        Built I (s'.allocated.flatMap (·.get_seqs .Allocated)) s'.gpu_layout x) ∧
      ∀ c ∈ batch.fetch_block_mappings, ∀ e ∈ c,
        Fetched I (s'.allocated.flatMap (·.get_seqs .Allocated)) s'.gpu_layout e := by
  rw [schedule_eq] at h
  obtain ⟨_, s₂, hphases, h⟩ := bind_ok.1 h
  obtain ⟨batch', s₃, hdis, h⟩ := bind_ok.1 h
  obtain ⟨_, s₄, hmod, h⟩ := bind_ok.1 h
  obtain rfl : { s₃ with running_batch := batch'.running_batch } = s₄ := by simpa using hmod
  obtain ⟨rfl, rfl⟩ : batch' = batch ∧ _ = s' := by simpa using h
  have hs₂ := (phases_kept hI.toKeptByPhases).of_ok hs hphases
  obtain ⟨_, _, hget, hdis⟩ := bind_ok.1 hdis
  obtain ⟨rfl, rfl⟩ : _ ∧ _ := by simpa using hget
  have hlay := (dispatch_loop_layout _ _).of_ok hdis
  obtain ⟨-, hA, -⟩ := control_eq ((dispatch_loop_keeps _ _).of_ok hdis)
  have hlay' : ({ s₃ with running_batch := batch'.running_batch } : Scheduler).gpu_layout =
      s₂.gpu_layout := hlay
  rw [hlay', hA]
  obtain ⟨seqs, hseqs⟩ : ∃ seqs, seqs = s₂.allocated.flatMap (·.get_seqs .Allocated) := ⟨_, rfl⟩
  rw [← hseqs] at hdis ⊢
  refine dispatch_loop_rule hI (s := s₂) (P := fun acc =>
      (∀ x ∈ acc.infer_inputs, Built I seqs s₂.gpu_layout x) ∧
        ∀ c ∈ acc.fetch_block_mappings, ∀ e ∈ c, Fetched I seqs s₂.gpu_layout e)
    (fun s₀ seq acc fetch s₁ hs₀ hl hseq hcopy hP => ⟨hP.1, fun c hc e he => ?_⟩)
    (fun s₀ seq acc acc' s₁ hs₀ hl hseq hin hP => ?_) (fun seq hseq => ?_) hs₂ rfl hdis ?_
  · rcases plan_copy_fetched hs₀.devices hseq (hbs _ _ (hs₀.devices .Host) (hs₀.devices .Gpu)) hcopy
      c hc with hc | hc
    · exact hP.2 c hc e he
    · rw [← hl]; exact hc e he
  · obtain ⟨hf, hx⟩ := dispatch_input_built hs₀.devices hseq hin
    rw [hl] at hx
    refine ⟨fun x hx' => ?_, by rw [hf]; exact hP.2⟩
    rcases hx x hx' with hx' | hx'
    · exact hP.1 x hx'
    · exact hx'
  · rw [hseqs] at hseq
    obtain ⟨t, ht, hseq⟩ := List.mem_flatMap.1 hseq
    exact hs₂.allocated t ht seq (List.mem_filter.1 hseq).1
  · exact ⟨fun x hx => by simp at hx, fun c hc => by simp at hc⟩

end

end Scheduler

/-! ### Runs -/

/-- Block `b` stands at place `i` of the map of `seq`: every other sequence in `live` that lists it has
it at the same place, full, after the same tokens. -/
def BlockManager.SharedAt (m : BlockManager) (live : Sequence → Prop) (seq : Sequence) (i b : Nat) :
    Prop :=
  ∀ seq', live seq' → seq'.seq_id ≠ seq.seq_id → ∀ map j,
    m.get_block_map seq'.seq_id = some map → map.block_ids[j]? = some b →
      j = i ∧ (m.tokens b).length = m.block_size ∧ (i + 1) * m.block_size ≤ seq.token_ids.length ∧
        seq'.token_ids.take ((i + 1) * m.block_size) = seq.token_ids.take ((i + 1) * m.block_size)

/-- A listed block that is not full is listed in no other map and in no region. -/
def BlockManager.UnsharedPartial (m : BlockManager) : Prop :=
  ∀ i map b, m.get_block_map i = some map → b ∈ map.block_ids → (m.tokens b).length ≠ m.block_size →
    (∀ j map', m.get_block_map j = some map' → b ∈ map'.block_ids → j = i) ∧
      ∀ r ids, m.reserved_blocks_table.lookup r = some ids → b ∉ ids

namespace System

/-- The sequences of the tasks the system knows. -/
def Live (s : System) (seq : Sequence) : Prop := ∃ t ∈ s.tasks, seq ∈ t.seqs

section
variable [Hasher] {c : SchedulerConfig} {Occ : List Nat → Prop} {tok : Nat → List Nat} {s : System}

theorem SysInv.sharedAt (hinj : ∀ P P', Occ P → Occ P' → compute_hash P = compute_hash P' → P = P')
    {R : List Nat → List Nat → Prop} {D : Device → Prop} (h : SysInv R Occ D c tok s)
    {m : BlockManager} {n : Nat} (hm : m.PageInv (· = ·) Occ tok n none []) {seq : Sequence}
    (hseq : s.Live seq) {map : BlockMap} {i b : Nat} (hmap : m.get_block_map seq.seq_id = some map)
    (hb : map.block_ids[i]? = some b) : m.SharedAt s.Live seq i b := by
  rintro seq' ⟨t', ht', hseq'⟩ hne map' j hmap' hb'
  obtain ⟨t, ht, hseq⟩ := hseq
  obtain ⟨htok, -, hocc⟩ := h.known ht hseq
  obtain ⟨htok', -, hocc'⟩ := h.known ht' hseq'
  obtain ⟨hj, htake, hslots, -, hfull⟩ := hm.shared hinj hne (htok ▸ hocc) (htok' ▸ hocc') hmap hmap' hb hb'
  have hpage := hm.maps seq.seq_id map (by simp) hmap
  rw [htok] at hpage htake
  rw [htok'] at htake
  exact ⟨hj, hfull, Nat.le_trans hslots hpage.slots_le, htake⟩

theorem unsharedPartial_of_pageInv {m : BlockManager} {n : Nat} {R : List Nat → List Nat → Prop}
    (hm : m.PageInv R Occ tok n none []) : m.UnsharedPartial := by
  intro i map b hmap hb hne
  obtain ⟨k, hk⟩ := List.getElem?_of_mem hb
  obtain ⟨-, -, -, hother, hregion, -⟩ :=
    hm.last_unshared hmap hk (Nat.lt_of_le_of_ne (hm.capacity b) hne)
  refine ⟨fun j map' hmap' hb' => ?_, hregion⟩
  by_contra hji
  exact hother j map' hji hmap' hb'

omit [Hasher] in
theorem live_of_allocated {σ : Scheduler} {seq : Sequence}
    (hseq : seq ∈ σ.allocated.flatMap (·.get_seqs .Allocated)) :
    ({ s with scheduler := σ } : System).Live seq := by
  obtain ⟨t, ht, hseq⟩ := List.mem_flatMap.1 hseq
  refine ⟨t, ?_, (List.mem_filter.1 hseq).1⟩
  simp only [tasks, List.mem_append]
  tauto

omit [Hasher] in
theorem map_of_layout {m m' : BlockManager} (h : m.layout = m'.layout) {i : Nat} {map : BlockMap}
    (hm : m.get_block_map i = some map) :
    ∃ map', m'.get_block_map i = some map' ∧ map'.block_ids = map.block_ids := by
  have hmap := congrFun (congrArg Prod.snd h) i
  simp only [BlockManager.layout, hm, Option.map_some] at hmap
  obtain ⟨map', hm', heq⟩ := Option.map_eq_some_iff.1 hmap.symm
  exact ⟨map', hm', congrArg Prod.fst heq⟩

/-- Where `compute_hash` tells the prefixes that occur apart and is never `0`, in every reachable state:

On every device, at any point of a scheduling round, a block listed for two live sequences is a full
block at the same place of both maps, after the same tokens; a block that is not full is listed once.

Whatever a scheduling round dispatches is written where the sequence's own map says: each position of
an input's chunk, and each block copied from the host, so that the sequences sharing the block have
the same tokens there. The input writes below the fill level of its sequence only to recompute the last
token of a sequence filled to its end; a copy does not replace a block that is filled. -/
theorem shared_blocks_have_same_prefix
    (hinj : ∀ P P', Occ P → Occ P' → compute_hash P = compute_hash P' → P = P')
    (hzero : ∀ P, Occ P → compute_hash P ≠ 0) {ops : List Op} (h : OccRun Occ c ops s) :
    (∀ d m, Touched (keys (s.scheduler.waiting ++ s.scheduler.allocated))
        (s.scheduler.get_block_manager d) m →
      (∀ seq, s.Live seq → ∀ map i b, m.get_block_map seq.seq_id = some map →
        map.block_ids[i]? = some b → m.SharedAt s.Live seq i b) ∧ m.UnsharedPartial) ∧
    ∀ batch σ, Scheduler.schedule s.scheduler = .ok batch σ →
      (∀ x ∈ batch.infer_inputs, ∃ seq map m, ({ s with scheduler := σ } : System).Live seq ∧
        x.seq_id = seq.seq_id ∧ σ.gpu_block_manager.get_block_map seq.seq_id = some map ∧
        x.input_ids = slice seq.token_ids x.filled_token_len x.context_len ∧
        Touched (keys (s.scheduler.waiting ++ s.scheduler.allocated)) s.scheduler.gpu_block_manager m ∧
        ∀ p, x.filled_token_len ≤ p → p < x.context_len →
          (∃ b, x.block_ids[p / c.block_size]? = some b ∧ map.block_ids[p / c.block_size]? = some b ∧
            σ.gpu_block_manager.SharedAt ({ s with scheduler := σ } : System).Live seq
              (p / c.block_size) b) ∧
          (p < m.get_filled_token_len seq.seq_id → p + 1 = seq.token_ids.length ∧
            m.get_filled_token_len seq.seq_id = seq.token_ids.length)) ∧
      ∀ l ∈ batch.fetch_block_mappings, ∀ e ∈ l, ∃ seq map host_map k m m',
        ({ s with scheduler := σ } : System).Live seq ∧
        Touched (keys (s.scheduler.waiting ++ s.scheduler.allocated)) s.scheduler.gpu_block_manager m ∧
        Touched (keys (s.scheduler.waiting ++ s.scheduler.allocated)) s.scheduler.host_block_manager m' ∧
        σ.gpu_block_manager.get_block_map seq.seq_id = some map ∧
        m'.get_block_map seq.seq_id = some host_map ∧
        map.block_ids[k]? = some e.dst_block_id ∧ host_map.block_ids[k]? = some e.src_block_id ∧
        m.get_filled_token_len seq.seq_id < (k + 1) * c.block_size ∧
        σ.gpu_block_manager.SharedAt ({ s with scheduler := σ } : System).Live seq k e.dst_block_id := by
  have hR : TokenRel (· = ·) Occ := TokenRel.eq hinj
  obtain ⟨tok, hinv⟩ := SysInv.run (D := fun _ => True) hR (fun _ _ _ => hzero) h
  have hK : KeysOk Occ tok s.next_seq_id (keys (s.scheduler.waiting ++ s.scheduler.allocated)) :=
    hinv.keys_queues
  refine ⟨fun d m hm => ?_, fun batch σ hσ => ?_⟩
  · have ho := hm.owned hR hK (hinv.devices d trivial).page
    exact ⟨fun seq hseq map i b hmap hb => hinv.sharedAt hinj ho.page hseq hmap hb,
      unsharedPartial_of_pageInv ho.page⟩
  · have hinv' := hinv.schedule hR hσ
    have howned : ∀ d m, Touched (keys (s.scheduler.waiting ++ s.scheduler.allocated))
        (s.scheduler.get_block_manager d) m → m.block_size = c.block_size ∧
          m.PageInv (· = ·) Occ tok (c.num_blocks d) none [] := fun d m hm => by
      have ho := hm.owned hR hK (hinv.devices d trivial).page
      exact ⟨ho.block_size.trans (hinv.devices d trivial).block_size, ho.page⟩
    have hgpu := hinv'.devices .Gpu trivial
    obtain ⟨hinputs, hfetches⟩ := Scheduler.schedule_batch (kept_touched _ s.scheduler)
      (fun m m' hm hm' => (howned .Host m hm).1.trans (howned .Gpu m' hm').1.symm)
      ⟨fun d => Touched.refl _ _,
        fun t ht seq hseq => key_mem_keys (List.mem_append_left _ ht) hseq,
        fun t ht seq hseq => key_mem_keys (List.mem_append_right _ ht) hseq⟩ hσ
    refine ⟨fun x hx => ?_, fun l hl e he => ?_⟩
    · obtain ⟨s₀, seq, budget, ids, k, hseq, hd, hlay, hpos, hrange, hle, rfl⟩ := hinputs x hx
      have hlive := live_of_allocated (s := s) hseq
      have hbs : s₀.gpu_block_manager.block_size = c.block_size := (howned .Gpu _ (hd .Gpu)).1
      obtain ⟨map₀, hmap₀, hlen⟩ := Scheduler.get_block_ids_range_zero hrange
      obtain ⟨map, hmap, hids⟩ := map_of_layout hlay hmap₀
      have htok : tok seq.seq_id = seq.token_ids := by
        obtain ⟨t, ht, hmem⟩ := hlive
        exact (hinv'.known ht hmem).1
      have hok : PageOk (· = ·) s₀.gpu_block_manager.block_size _ (tok seq.seq_id) map₀ :=
        (howned .Gpu _ (hd .Gpu)).2.maps _ map₀ (by simp) hmap₀
      rw [htok, hbs] at hok
      refine ⟨seq, map, s₀.gpu_block_manager, hlive, rfl, hmap, rfl, hd .Gpu, fun p hp hp' => ⟨?_, ?_⟩⟩
      · replace hp' : p < s₀.chunk_start seq + s₀.chunk_len seq budget := hp'
        -- the chunk ends within the slots of the map
        have hplace : p / c.block_size < ids.length := by
          rw [hlen, hbs, lt_min_iff]
          refine ⟨Nat.lt_succ_of_le (Nat.div_le_div_right (Nat.le_of_lt hp')), ?_⟩
          rw [hok.len, lt_div_ceil_iff c.block_size_pos]
          have h1 := Nat.div_mul_le_self p c.block_size
          have h2 := hle map₀ hmap₀
          omega
        obtain ⟨b, hb⟩ : ∃ b, ids[p / c.block_size]? = some b := ⟨_, List.getElem?_eq_getElem hplace⟩
        obtain ⟨map₁, hmap₁, hb₁⟩ := getElem?_range hrange hb
        obtain rfl : map₀ = map₁ := Option.some.inj (hmap₀.symm.trans hmap₁)
        rw [Nat.zero_div, Nat.zero_add, ← hids] at hb₁
        exact ⟨b, hb, hb₁, hinv'.sharedAt hinj hgpu.page hlive hmap hb₁⟩
      · -- below the fill level only where the chunk starts one token early
        replace hp : s₀.chunk_start seq ≤ p := hp
        replace hp' : p < s₀.chunk_start seq + s₀.chunk_len seq budget := hp'
        simp only [get_filled_token_len, hmap₀]
        have hfill := hok.filled_le
        have hslots := hok.slots_le
        unfold Scheduler.chunk_len at hp'
        simp only [Scheduler.chunk_start, get_filled_token_len, hmap₀] at hp hp'
        omega
    · obtain ⟨s₀, seq, k, map₀, host_map, hseq, hd, hlay, hmap₀, hhost, hdst, hsrc, hk⟩ := hfetches l hl e he
      have hlive := live_of_allocated (s := s) hseq
      have hbs : s₀.gpu_block_manager.block_size = c.block_size := (howned .Gpu _ (hd .Gpu)).1
      obtain ⟨map, hmap, hids⟩ := map_of_layout hlay hmap₀
      rw [← hids] at hdst
      refine ⟨seq, map, host_map, k, s₀.gpu_block_manager, s₀.host_block_manager, hlive, hd .Gpu,
        hd .Host, hmap, hhost, hdst, hsrc, ?_, hinv'.sharedAt hinj hgpu.page hlive hmap hdst⟩
      simp only [get_filled_token_len, hmap₀]
      rw [hbs] at hk
      exact (Nat.div_lt_iff_lt_mul c.block_size_pos).1 (Nat.lt_succ_of_le hk)

end

theorem shared_blocks_have_same_prefix_first :
    let _ := decimalHasher
    ∃ s m m', OccRun (· ∈ sharedPrefixes) sharedConfig sharedRun s ∧
      s.scheduler.gpu_block_manager.get_block_map 0 = some m ∧
      s.scheduler.gpu_block_manager.get_block_map 1 = some m' ∧
      m.block_ids[0]? = some 0 ∧ m'.block_ids[0]? = some 0 ∧
      (s.scheduler.gpu_block_manager.tokens 0).length = s.scheduler.gpu_block_manager.block_size := by
  intro _
  have hfollow : (Run.follow (next_occurring sharedPrefixes) (System.new sharedConfig) sharedRun).any
      (fun s => (s.scheduler.gpu_block_manager.get_block_map 0 = some ⟨[0, 1], 3, 3⟩ ∧
        s.scheduler.gpu_block_manager.get_block_map 1 = some ⟨[0, 2], 3, 3⟩) ∧
        (s.tasks.flatMap (·.seqs)).map (·.seq_id) = [0, 1]) = true := by
    decide +kernel
  obtain ⟨s, hrun, hs⟩ := occ_run_of_follow hfollow
  simp only [Bool.decide_and, Bool.and_eq_true, decide_eq_true_eq] at hs
  obtain ⟨⟨hmap, hmap'⟩, hids⟩ := hs
  have hlive : ∀ i ∈ [0, 1], ∃ seq, s.Live seq ∧ seq.seq_id = i := fun i hi => by
    rw [← hids] at hi
    obtain ⟨seq, hseq, rfl⟩ := List.mem_map.1 hi
    obtain ⟨t, ht, hseq⟩ := List.mem_flatMap.1 hseq
    exact ⟨seq, ⟨t, ht, hseq⟩, rfl⟩
  obtain ⟨seq, hseq, hid⟩ := hlive 0 (by simp)
  obtain ⟨seq', hseq', hid'⟩ := hlive 1 (by simp)
  have hinj : ∀ P ∈ sharedPrefixes, ∀ P' ∈ sharedPrefixes, compute_hash P = compute_hash P' → P = P' := by
    decide
  have hzero : ∀ P, P ∈ sharedPrefixes → compute_hash P ≠ 0 := by decide
  have hshared := (( shared_blocks_have_same_prefix (fun P P' hP => hinj P hP P') hzero hrun).1 .Gpu _
    (Touched.refl _ _)).1 seq hseq _ 0 0 (by rw [hid]; exact hmap) rfl seq' hseq' (by omega) _ 0
    (by rw [hid']; exact hmap') rfl
  exact ⟨s, _, _, hrun, hmap, hmap', rfl, rfl, hshared.2.1⟩

end System

end LMServe
