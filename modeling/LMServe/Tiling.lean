import LMServe.Budget
import LMServe.Frames

/-!
# Where the next chunk begins

When a sequence gets an input, both fill levels are brought up to date: the GPU is filled up to the end of the
chunk, the host no further. Until the sequence is preempted or gets its next input, nothing moves these levels,
and the results of the batch see to it that a token is left behind the chunk. So the next chunk
begins where this one ends.
-/

namespace LMServe
open Hoare Chunk BlockManager

namespace Scheduler

/-- Sequence `i` is filled up to `c` on the GPU, and no further on the host. -/
structure Reaches (i c : Nat) (s : Scheduler) : Prop where
  gpu : ∃ g, s.gpu_block_manager.get_block_map i = some g ∧ g.filled_token_len = c
  host : s.host_filled i ≤ c

section
variable {i j c len : Nat} {s s' : Scheduler} {d d' : Device} {p : Bool} {seq : Sequence} {l l' : List BlockMapping}

theorem filled_of_maps_eq (h : s'.maps i = s.maps i) (d : Device) :
    (s'.get_block_manager d).get_filled_token_len i = (s.get_block_manager d).get_filled_token_len i := by
  have hd : (s'.get_block_manager d).get_block_map i = (s.get_block_manager d).get_block_map i := congrFun h d
  rw [get_filled_token_len, hd, get_filled_token_len]

theorem Reaches.congr (h : Reaches i c s) (hmaps : s'.maps i = s.maps i) : Reaches i c s' where
  gpu := by
    obtain ⟨g, hg, hfilled⟩ := h.gpu
    exact ⟨g, (congrFun hmaps .Gpu).trans hg, hfilled⟩
  host := (filled_of_maps_eq hmaps .Host).trans_le h.host

theorem Reaches.filled (h : Reaches i c s) : s.gpu_block_manager.get_filled_token_len i = c := by
  obtain ⟨g, hg, hfilled⟩ := h.gpu
  rw [get_filled_token_len, hg]
  exact hfilled

/-! ### One sequence at a time -/

theorem fill_other (h : on_device d (update_filled_len j len) s = .ok .unit s') (hi : i ≠ j) :
    s'.maps i = s.maps i := by
  obtain ⟨m, hm, hthere, helse⟩ := on_device_maps h
  funext e
  by_cases he : e = d
  · rw [he, hthere]
    rcases update_filled_len_maps hm with ⟨hsame, -⟩ | ⟨b, -, -, hmaps⟩
    · rw [hsame]; rfl
    · rw [hmaps, Function.update_of_ne hi]; rfl
  · exact helse i e he

theorem plan_copy_other (h : plan_copy seq d d' p l s = .ok l' s') (hi : i ≠ seq.seq_id) : s'.maps i = s.maps i := by
  rcases plan_copy_ok h with ⟨-, -, rfl⟩ | ⟨mapping, filled_end, -, -, hfill⟩
  · rfl
  · exact fill_other hfill hi

theorem dispatch_input_other {acc acc' : Batch} (h : dispatch_input seq acc s = .ok acc' s') (hi : i ≠ seq.seq_id) :
    s'.maps i = s.maps i := by
  rcases dispatch_input_ok h with ⟨-, rfl, -⟩ | ⟨ids, k, s₁, write_through, -, -, hfill, hwrite, -⟩
  · rfl
  · exact (plan_copy_other hwrite hi).trans (fill_other hfill hi)

theorem Reaches.nothing_to_fetch (h : Reaches i c s) (hi : seq.seq_id = i) : s.copy_blocks seq .Host .Gpu p = none := by
  subst hi
  unfold copy_blocks
  dsimp only
  rw [if_neg]
  have hhost : s.host_block_manager.get_filled_token_len seq.seq_id ≤ c := h.host
  have hgpu := h.filled
  simp only [get_block_manager]
  omega

theorem copy_blocks_le {mapping : BlockMapping} {filled_end : Nat}
    (h : s.copy_blocks seq d d' p = some (mapping, filled_end)) :
    filled_end ≤ (s.get_block_manager d).get_filled_token_len seq.seq_id := by
  unfold copy_blocks at h
  dsimp only at h
  split at h
  · split at h
    · rename_i src_ids last dst_ids last' hrange hrange'
      obtain ⟨-, rfl⟩ := Prod.mk.inj (Option.some.inj h)
      unfold get_block_ids_range at hrange
      dsimp only at hrange
      split at hrange
      · cases hrange
      · split at hrange
        · cases hrange
        · rename_i b hb
          split at hrange
          · cases hrange
          · obtain ⟨-, rfl⟩ := Prod.mk.inj (Option.some.inj hrange)
            rw [get_filled_token_len, hb]
            exact Nat.min_le_right _ _
    · cases h
  · cases h

theorem reaches_of_fill {g : BlockMap} (hfill : on_device .Gpu (update_filled_len i c) s = .ok .unit s')
    (hg : s.gpu_block_manager.get_block_map i = some g) (hhost : s.host_filled i ≤ c) : Reaches i c s' := by
  obtain ⟨m, hm, rfl⟩ := on_device_ok hfill
  refine ⟨?_, hhost⟩
  rcases update_filled_len_maps hm with ⟨-, hnone⟩ | ⟨b, -, -, hmaps⟩
  · cases hnone.symm.trans hg
  · exact ⟨_, (congrFun hmaps i).trans (Function.update_self ..), rfl⟩

theorem Reaches.write (h : Reaches i c s) (hi : seq.seq_id = i) (hrun : plan_copy seq .Gpu .Host p l s = .ok l' s') :
    Reaches i c s' := by
  subst hi
  rcases plan_copy_ok hrun with ⟨-, -, rfl⟩ | ⟨mapping, filled_end, hcopy, -, hfill⟩
  · exact h
  · have hle := (copy_blocks_le hcopy).trans h.filled.le
    obtain ⟨m, hm, rfl⟩ := on_device_ok hfill
    refine ⟨h.gpu, ?_⟩
    show m.get_filled_token_len seq.seq_id ≤ c
    rcases update_filled_len_maps hm with ⟨hsame, -⟩ | ⟨b, -, -, hmaps⟩
    · rw [get_filled_token_len_of_maps hsame]
      exact h.host
    · rw [filled_of_maps hmaps, if_pos rfl]
      exact hle

end

/-! ### At the end of a round -/

section
variable [Hasher] {bs : Nat} {tok : Nat → List Nat} {m : BlockManager}

theorem get_block_ids_range_isSome {i start stop : Nat} {T : List Nat} {b : BlockMap} (hbs : 0 < m.block_size)
    (hb : m.get_block_map i = some b) (hok : PageOk SameLength m.block_size m.get_block T b) (hlt : start < stop)
    (hslots : stop ≤ b.num_allocated_slots) : (m.get_block_ids_range i start stop true).isSome = true := by
  have hstart : start / m.block_size < stop / m.block_size + true.toNat :=
    Nat.lt_succ_of_le (Nat.div_le_div_right hlt.le)
  have hlen : start / m.block_size < b.block_ids.length := by
    rw [hok.len, Nat.div_lt_iff_lt_mul hbs]
    exact (hlt.trans_le hslots).trans_le (le_div_ceil_mul hbs)
  unfold get_block_ids_range
  dsimp only
  rw [if_neg (Nat.not_le.2 hstart), hb]
  dsimp only
  rw [if_neg (Nat.not_le.2 hlen)]
  rfl

theorem Levels.fetched {s s' : Scheduler} {seq : Sequence} {l l' : List BlockMapping} (hbs : 0 < bs) (h : s.Levels bs)
    (hhost : (s.get_block_manager .Host).Paged bs tok) (hgpu : (s.get_block_manager .Gpu).Paged bs tok)
    (hrun : plan_copy seq .Host .Gpu true l s = .ok l' s')
    (hmap : s'.gpu_block_manager.get_block_map seq.seq_id ≠ none) :
    s'.host_filled seq.seq_id ≤ s'.gpu_block_manager.get_filled_token_len seq.seq_id := by
  rcases plan_copy_ok hrun with ⟨hnone, -, rfl⟩ | ⟨mapping, filled_end, hcopy, -, hfill⟩
  · by_contra hlt
    rw [Nat.not_le] at hlt
    obtain ⟨g, hg⟩ := Option.ne_none_iff_exists'.1 hmap
    cases hb : s'.host_block_manager.get_block_map seq.seq_id with
    | none =>
      have hzero : s'.host_filled seq.seq_id = 0 := by rw [host_filled, get_filled_token_len, hb]
      omega
    | some b =>
      have hfilled : s'.host_filled seq.seq_id = b.filled_token_len := by
        rw [host_filled, get_filled_token_len, hb]
      have hslots : (s'.get_block_manager .Gpu).get_num_allocated_slots seq.seq_id = g.num_allocated_slots := by
        rw [get_num_allocated_slots, show (s'.get_block_manager .Gpu).get_block_map seq.seq_id = some g from hg]
      obtain ⟨stop, hstop⟩ : ∃ stop, stop = min ((s'.get_block_manager .Host).get_filled_token_len seq.seq_id)
          ((s'.get_block_manager .Gpu).get_num_allocated_slots seq.seq_id) := ⟨_, rfl⟩
      have hend : stop = s'.host_filled seq.seq_id := by
        rw [hstop, hslots]
        exact Nat.min_eq_left (h.covered _ g hg)
      have hsrc := get_block_ids_range_isSome (hhost.block_size.symm ▸ hbs) hb
        (hhost.block_size.symm ▸ hhost.maps _ b hb) (hend ▸ hlt) (hend ▸ hfilled ▸ (hhost.maps _ b hb).filled_le)
      have hdst := get_block_ids_range_isSome (hgpu.block_size.symm ▸ hbs) hg
        (hgpu.block_size.symm ▸ hgpu.maps _ g hg) (hend ▸ hlt) (hend ▸ h.covered _ g hg)
      obtain ⟨src, hsrc⟩ := Option.isSome_iff_exists.1 hsrc
      obtain ⟨dst, hdst⟩ := Option.isSome_iff_exists.1 hdst
      unfold copy_blocks at hnone
      dsimp only at hnone
      rw [← hstop] at hnone
      split at hnone
      · split at hnone
        · cases hnone
        · rename_i hneither
          exact hneither _ _ _ _ hsrc hdst
      · exact absurd (hend ▸ hlt) ‹_›
  · have hend := (fetch_covers hbs h hhost hgpu hcopy).2
    obtain ⟨m, hm, rfl⟩ := on_device_ok hfill
    rcases update_filled_len_maps hm with ⟨hsame, hnone⟩ | ⟨b, -, -, hmaps⟩
    · refine absurd ?_ hmap
      exact (congrFun hsame seq.seq_id).trans hnone
    · show s.host_filled seq.seq_id ≤ m.get_filled_token_len seq.seq_id
      rw [filled_of_maps hmaps, if_pos rfl]
      exact hend.ge

end

section
variable {i c : Nat} {σ s : Scheduler} {rest : List Sequence} {acc : Batch}

/-- An input is built for a sequence that is filled up to `c`: it resumes there. -/
theorem LoopAt.resumes (hnd : (σ.candidates.map (·.seq_id)).Nodup) (hσ : Reaches i c σ) (h : LoopAt σ rest acc s) :
    (∀ x ∈ acc.infer_inputs, x.seq_id = i → ∃ seq ∈ σ.candidates, seq.seq_id = i ∧
        x.filled_token_len = min c (seq.token_ids.length - 1)) ∧
      (i ∉ acc.infer_inputs.map (·.seq_id) → s.maps i = σ.maps i) := by
  induction h with
  | start => exact ⟨nofun, fun _ => rfl⟩
  | @next seq rest acc acc' fetch s s₁ s₂ hat hgo hfetch hinput ih =>
    have hhanded := hat.handed hnd
    obtain ⟨hinputs, hsame⟩ := ih
    by_cases hi : i = seq.seq_id
    · -- no input has been built for it, so its levels are still those of `σ`
      have hfresh : i ∉ acc.infer_inputs.map (·.seq_id) := fun hmem =>
        (List.nodup_append.1 (hhanded.order.nodup hnd)).2.2 _ hmem _ List.mem_cons_self hi
      have hreach := hσ.congr (hsame hfresh)
      obtain ⟨rfl, rfl⟩ : fetch = acc.fetch_block_mappings ∧ s₁ = s := by
        rcases plan_copy_ok hfetch with ⟨-, hl, hs⟩ | ⟨mapping, filled_end, hcopy, -⟩
        · exact ⟨hl, hs⟩
        · cases (hreach.nothing_to_fetch hi.symm).symm.trans hcopy
      rcases dispatch_input_ok hinput with ⟨rfl, rfl, -⟩ | ⟨ids, k, s₃, write_through, -, -, -, -, rfl⟩
      · exact ⟨hinputs, hsame⟩
      · refine ⟨fun x hx hid => ?_, fun hmem => absurd ?_ hmem⟩
        · rcases List.mem_append.1 hx with hx | hx
          · exact hinputs x hx hid
          · obtain rfl := List.mem_singleton.1 hx
            refine ⟨seq, hhanded.rest List.mem_cons_self, hi.symm, ?_⟩
            show min (s₁.gpu_block_manager.get_filled_token_len seq.seq_id) _ = _
            rw [← hi, hreach.filled]
        · rw [List.map_append, hi]
          exact List.mem_append_right _ List.mem_cons_self
    · have hmaps : s₂.maps i = s.maps i := (dispatch_input_other hinput hi).trans (plan_copy_other hfetch hi)
      rcases dispatch_input_ok hinput with ⟨rfl, -, -⟩ | ⟨ids, k, s₃, write_through, -, -, -, -, rfl⟩
      · exact ⟨hinputs, fun hmem => hmaps.trans (hsame hmem)⟩
      · refine ⟨fun x hx hid => ?_, fun hmem => hmaps.trans (hsame fun hin => hmem ?_)⟩
        · rcases List.mem_append.1 hx with hx | hx
          · exact hinputs x hx hid
          · obtain rfl := List.mem_singleton.1 hx
            exact absurd hid.symm hi
        · rw [List.map_append]
          exact List.mem_append_left _ hin

end

section
variable [Hasher] {K : List (Nat × List Nat)} {I : Device → BlockManager → Prop} {E : Panic → Prop} {bs : Nat}
  {tok : Nat → List Nat} {σ s : Scheduler} {rest : List Sequence} {acc : Batch} (hI : Kept K I E)
  (hpaged : ∀ d m, d ≠ .Disk → I d m → m.Paged bs tok) (htok : ∀ p ∈ K, tok p.1 = p.2)
include hI hpaged htok

/-- Every input brings the levels of its sequence up to date. -/
theorem LoopAt.reaches (hbs : 0 < bs) (hσ : Sound K I σ) (hlevels : σ.Levels bs)
    (hnd : (σ.candidates.map (·.seq_id)).Nodup) (h : LoopAt σ rest acc s) :
    ∀ x ∈ acc.infer_inputs, Reaches x.seq_id x.context_len s := by
  induction h with
  | start => exact nofun
  | @next seq rest acc acc' fetch s s₁ s₂ hat hgo hfetch hinput ih =>
    have hhanded := hat.handed hnd
    obtain ⟨hs, hseqs, hd⟩ := hat.dispatched hI hpaged htok hbs hσ hlevels
    have hkey := hseqs seq List.mem_cons_self
    have hs₁ := (plan_copy_kept hI hkey _ _ _ _).of_ok hs hfetch
    have hold : ∀ x ∈ acc.infer_inputs, Reaches x.seq_id x.context_len s₂ := fun x hx => by
      have hne : x.seq_id ≠ seq.seq_id := (List.nodup_append.1 (hhanded.order.nodup hnd)).2.2 _
        (List.mem_map.2 ⟨x, hx, rfl⟩) _ List.mem_cons_self
      exact (ih x hx).congr ((dispatch_input_other hinput hne).trans (plan_copy_other hfetch hne))
    rcases dispatch_input_ok hinput with ⟨rfl, -, -⟩ | ⟨ids, k, s₃, write_through, hpos, hrange, hfill, hwrite, rfl⟩
    · exact hold
    · intro x hx
      rcases List.mem_append.1 hx with hx | hx
      · exact hold x hx
      · obtain rfl := List.mem_singleton.1 hx
        have hgpu : s₁.gpu_block_manager.Paged bs tok := hpaged .Gpu _ (by simp) (hs₁.devices .Gpu)
        obtain ⟨g, hg, -⟩ := get_block_ids_range_ends (by rw [hgpu.block_size]; exact hgpu.maps _) hrange
        have hfetched := hd.levels.fetched hbs (hpaged _ _ (by simp) (hs.devices .Host))
          (hpaged _ _ (by simp) (hs.devices .Gpu)) hfetch (by simp [hg])
        exact (reaches_of_fill hfill hg (hfetched.trans (filled_le_chunk hgpu (htok _ hkey) hpos))).write rfl hwrite

end

/-! ### From one round to the next -/

/-- Stop before a task that sequence `i` belongs to is preempted. -/
abbrev unpreempted (i : Nat) : Watch := { preempted := fun t => decide (i ∉ t.ids) }

section
variable [Hasher] {i c : Nat} {s s' σ : Scheduler} {batch : Batch}

/-- The phases give a sequence slots, and leave its level alone as long as its task is not preempted. -/
theorem filled_held (i c : Nat) (K : List (Nat × List Nat)) :
    let _ := unpreempted i
    HeldOnGpu K (fun m => ∃ g, m.get_block_map i = some g ∧ g.filled_token_len = c)
      fun _ m => ∃ g, m.get_block_map i = some g ∧ g.filled_token_len = c := by
  let _ := unpreempted i
  refine { weaken := id, init_prefix := ?_, alloc_blocks := ?_, free := ?_ }
  · rintro seq - m ⟨g, hg, hfilled⟩
    cases hrun : BlockManager.init_prefix_cache_blocks seq m with
    | error e m' => trivial
    | ok a m' =>
      obtain ⟨b, hmaps, hb⟩ := init_prefix_cache_blocks_maps hrun
      refine ⟨g, ?_, hfilled⟩
      by_cases hi : i = seq.seq_id
      · subst hi
        rcases hb with hb | ⟨hnone, -⟩
        · rw [hmaps, Function.update_self, ← hb, hg]
        · cases hnone.symm.trans hg
      · rw [hmaps, Function.update_of_ne hi, hg]
  · rintro seq - m ⟨g, hg, hfilled⟩
    cases hrun : BlockManager.alloc_blocks seq m with
    | error e m' => trivial
    | ok a m' =>
      obtain ⟨b, hmaps, -, hb, -⟩ := alloc_blocks_maps hrun
      by_cases hi : i = seq.seq_id
      · subst hi
        refine ⟨b, by rw [hmaps, Function.update_self], ?_⟩
        rw [hb, get_filled_token_len, hg]
        exact hfilled
      · exact ⟨g, by rw [hmaps, Function.update_of_ne hi, hg], hfilled⟩
  · rintro t seq hwatch hseq - m ⟨g, hg, hfilled⟩
    cases hrun : BlockManager.free seq.seq_id m with
    | error e m' => trivial
    | ok a m' =>
      have hi : i ≠ seq.seq_id := fun hi => of_decide_eq_true hwatch
        (hi ▸ List.mem_map.2 ⟨seq, (List.mem_filter.1 hseq).1, rfl⟩)
      exact ⟨g, by rw [free_maps hrun, Function.update_of_ne hi, hg], hfilled⟩

theorem Reaches.phases (h : Reaches i c s) (hq : quits (unpreempted i) s = false)
    (hrun : phases s = .ok .unit s') : Reaches i c s' := by
  have hfilled : s'.host_filled = s.host_filled := phases_host_filled.of_ok hrun
  let _ := unpreempted i
  have hpassing := (phases_held (filled_held i c (LMServe.keys (s.waiting ++ s.allocated))).held).of_ok ⟨h.gpu,
    fun t ht seq hseq => key_mem_keys (List.mem_append_left _ ht) hseq,
    fun t ht seq hseq => key_mem_keys (List.mem_append_right _ ht) hseq⟩ (phases_watched _ hq hrun)
  exact ⟨hpassing.held, hfilled ▸ h.host⟩

/-- A round that dispatches the sequence again begins where it is filled up to; one that does not leaves it
there. -/
theorem Reaches.schedule (h : Reaches i c s) (hq : quits (unpreempted i) s = false)
    (hnd : ((LMServe.keys (s.waiting ++ s.allocated)).map Prod.fst).Nodup) (hrun : schedule s = .ok batch σ) :
    (∀ x ∈ batch.infer_inputs, x.seq_id = i → ∃ seq ∈ σ.candidates, seq.seq_id = i ∧
        x.filled_token_len = min c (seq.token_ids.length - 1)) ∧
      (i ∉ batch.infer_inputs.map (·.seq_id) → Reaches i c σ) := by
  have hnd' := candidates_nodup_of_schedule hnd hrun
  obtain ⟨σ₁, s₁, rest, hphases, hat, rfl⟩ := schedule_ok hrun
  have hA : ({ s₁ with running_batch := batch.running_batch } : Scheduler).allocated = σ₁.allocated :=
    (control_eq hat.control).2.1
  have hreach := h.phases hq hphases
  rw [candidates_congr hA] at hnd' ⊢
  obtain ⟨hinputs, hkept⟩ := hat.resumes hnd' hreach
  exact ⟨hinputs, fun hmem => (hreach.congr (hkept hmem)).congr rfl⟩

end

end Scheduler

end LMServe
