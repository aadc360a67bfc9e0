import LMServe.Rounds

/-!
# What comes of a request

A client of the scheduler keeps the request each sequence comes from, and every output returned for a dispatch that
reached the end of the tokens. A sequence is its request and these outputs, no more and no less. The limits are
tested behind an append only, so they hold at the end exactly if the request leaves room for one output.
-/

namespace LMServe
open Hoare Chunk BlockManager Ownership

/-! ### The record -/

namespace Scheduler

/-- The sequences whose dispatch has reached the end of their tokens. -/
def due (s : Scheduler) (infer_inputs : List InferInput) : List Nat :=
  (s.candidates.filter fun seq => infer_inputs.any fun x =>
    x.seq_id = seq.seq_id ∧ x.context_len = seq.token_ids.length).map (·.seq_id)

theorem mem_due {s : Scheduler} {infer_inputs : List InferInput} {i : Nat} : i ∈ s.due infer_inputs ↔
    ∃ t ∈ s.allocated, ∃ seq ∈ t.seqs, seq.status = .Allocated ∧ seq.seq_id = i ∧
      ∃ x ∈ infer_inputs, x.seq_id = i ∧ x.context_len = seq.token_ids.length := by
  simp only [due, List.mem_map, List.mem_filter, mem_candidates, List.any_eq_true, decide_eq_true_eq]
  constructor
  · rintro ⟨seq, ⟨⟨t, ht, hseq, hstatus⟩, x, hx, hid, hctx⟩, rfl⟩
    exact ⟨t, ht, seq, hseq, hstatus, rfl, x, hx, hid, hctx⟩
  · rintro ⟨t, ht, seq, hseq, hstatus, rfl, x, hx, hid, hctx⟩
    exact ⟨seq, ⟨⟨t, ht, hseq, hstatus⟩, x, hx, hid, hctx⟩, rfl⟩

end Scheduler

/-- The system and what its client has seen, by sequence id. -/
structure Observed where
  system : System
  /-- the request that created the sequence -/
  requests : Nat → Option GenerateRequest
  /-- the sequences whose last dispatch reached the end of their tokens, until its results come -/
  due : List Nat
  /-- the outputs returned for these dispatches, with their times -/
  outputs : Nat → List (InferOutput × Nat)

namespace Observed

def new (c : SchedulerConfig) : Observed := ⟨System.new c, fun _ => none, [], fun _ => []⟩

/-- The request that the step accepts is noted for its sequences. -/
def request (o : Observed) : Op → Nat → Option GenerateRequest
  | .add_request request _, i | .reserve_request request _, i =>
    if o.system.next_seq_id ≤ i ∧ i < o.system.next_seq_id + request.num_samples then some request else o.requests i
  | _, i => o.requests i

/-- One output for each sequence that is due. -/
def output (o : Observed) : Op → Nat → List (InferOutput × Nat)
  | .update infer_outputs now, i =>
    o.outputs i ++ if i ∈ o.due then ((infer_outputs.lookup i).map (·, now)).toList else []
  | _, i => o.outputs i

variable [Hasher]

/-- A step, as its client sees it. -/
def next (o : Observed) (op : Op) : Option Observed :=
  match op with
  | .schedule =>
    match Scheduler.schedule o.system.scheduler with
    | .ok batch σ => some { o with
        system := { o.system with scheduler := σ }
        due := σ.due batch.infer_inputs }
    | .error _ _ => none
  | .update infer_outputs now => (Op.next o.system (.update infer_outputs now)).map fun s =>
      { o with system := s, due := [], outputs := o.output (.update infer_outputs now) }
  | op => (Op.next o.system op).map fun s => { o with system := s, requests := o.request op }

def Step (o : Observed) (op : Op) (o' : Observed) : Prop := o.next op = some o'

end Observed

/-! ### What a sequence is -/

/-- `seq` is the request with the outputs appended. -/
structure Sequence.Recorded (request : GenerateRequest) (outputs : List (InferOutput × Nat)) (seq : Sequence) : Prop where
  token_ids : seq.token_ids = request.input_ids ++ outputs.map (·.1.output_id)
  prompt_len : seq.prompt_len = request.input_ids.length
  output_len : seq.output_len = outputs.length
  output_token_probs : seq.output_token_probs = outputs.map (·.1.prob)
  output_words : seq.output_words = outputs.map (·.1.output_word)
  append_token_times : seq.append_token_times = outputs.map (·.2)
  max_output_len : seq.max_output_len = request.max_output_len
  ignore_eos : seq.ignore_eos = request.ignore_eos

/-- There is room for an output. -/
def GenerateRequest.HasRoom (max_seq_len : Nat) (request : GenerateRequest) : Prop :=
  request.max_output_len ≠ some 0 ∧ request.input_ids.length < max_seq_len

/-- No more outputs than asked for, and no more tokens than the engine allows. -/
def Sequence.WithinLimits (max_seq_len : Nat) (seq : Sequence) : Prop :=
  (∀ n, seq.max_output_len = some n → seq.output_len ≤ n) ∧ seq.token_ids.length ≤ max_seq_len

/-- How far a sequence with these outputs has come. -/
structure Sequence.Bounded (max_seq_len : Nat) (request : GenerateRequest) (outputs : List (InferOutput × Nat))
    (seq : Sequence) : Prop where
  active : seq.is_active = true →
    (request.ignore_eos = false → ∀ p ∈ outputs, p.1.is_eos = false) ∧
    (request.HasRoom max_seq_len → (∀ n, request.max_output_len = some n → outputs.length < n) ∧
      request.input_ids.length + outputs.length < max_seq_len)
  finished : seq.is_active = false → outputs ≠ [] ∧
    (request.ignore_eos = false → ∀ p ∈ outputs.dropLast, p.1.is_eos = false) ∧
    (request.HasRoom max_seq_len → (∀ n, request.max_output_len = some n → outputs.length ≤ n) ∧
      request.input_ids.length + outputs.length ≤ max_seq_len)

namespace Sequence

variable {max_seq_len now : Nat} {request : GenerateRequest} {outputs : List (InferOutput × Nat)} {seq : Sequence}

theorem Bounded.eos (h : seq.Bounded max_seq_len request outputs) (hignore : request.ignore_eos = false) :
    ∀ p ∈ outputs.dropLast, p.1.is_eos = false := by
  cases hact : seq.is_active with
  | false => exact (h.finished hact).2.1 hignore
  | true => exact fun p hp => (h.active hact).1 hignore p (List.dropLast_subset _ hp)

theorem Bounded.withinLimits_iff (h : seq.Bounded max_seq_len request outputs) (hrec : seq.Recorded request outputs)
    (hfin : seq.status = .Finished) : seq.WithinLimits max_seq_len ↔ request.HasRoom max_seq_len := by
  have hact : seq.is_active = false := by simp [is_active, hfin]
  obtain ⟨hne, -, hroom⟩ := h.finished hact
  have hpos := List.length_pos_iff.2 hne
  have hlen : seq.token_ids.length = request.input_ids.length + outputs.length := by
    rw [hrec.token_ids, List.length_append, List.length_map]
  unfold WithinLimits
  rw [hlen, hrec.max_output_len, hrec.output_len]
  constructor
  · rintro ⟨hmax, hle⟩
    refine ⟨fun hzero => ?_, by omega⟩
    have := hmax 0 hzero
    omega
  · exact hroom

theorem recorded_new (i session_id : Nat) : (Sequence.new i session_id request.input_ids request.max_output_len
    request.ignore_eos request.disable_cache).Recorded request [] where
  token_ids := (List.append_nil _).symm
  prompt_len := rfl
  output_len := rfl
  output_token_probs := rfl
  output_words := rfl
  append_token_times := rfl
  max_output_len := rfl
  ignore_eos := rfl

theorem bounded_new (i session_id : Nat) : (Sequence.new i session_id request.input_ids request.max_output_len
    request.ignore_eos request.disable_cache).Bounded max_seq_len request [] where
  active _ := by
    refine ⟨fun _ => nofun, fun hroom => ⟨fun n hn => ?_, hroom.2⟩⟩
    refine Nat.pos_of_ne_zero fun hzero => hroom.1 ?_
    rw [hn, hzero]
  finished h := nomatch h

theorem Recorded.append (h : seq.Recorded request outputs) (output : InferOutput) :
    (seq.append_output_id output.output_id output.prob output.output_word now).Recorded request
      (outputs ++ [(output, now)]) := by
  constructor <;> simp [append_output_id, h.token_ids, h.prompt_len, h.output_len, h.output_token_probs, h.output_words,
    h.append_token_times, h.max_output_len, h.ignore_eos]

theorem Recorded.status (h : seq.Recorded request outputs) (status : SeqStatus) :
    ({ seq with status := status } : Sequence).Recorded request outputs := ⟨h.1, h.2, h.3, h.4, h.5, h.6, h.7, h.8⟩

/-- What the results of a batch make of a sequence whose output comes. -/
theorem Bounded.append (h : seq.Bounded max_seq_len request outputs) (hrec : seq.Recorded request outputs)
    (hact : seq.is_active = true) {output : InferOutput} {seq' : Sequence}
    (hseq' : seq' = seq.append_output_id output.output_id output.prob output.output_word now) :
    (if (!seq'.ignore_eos && output.is_eos) || (seq'.max_output_len.any (· ≤ seq'.output_len) ||
        decide (max_seq_len ≤ seq'.token_ids.length)) then { seq' with status := .Finished }
      else seq').Bounded max_seq_len request (outputs ++ [(output, now)]) := by
  obtain ⟨heos, hroom⟩ := h.active hact
  have hrec' : seq'.Recorded request (outputs ++ [(output, now)]) := hseq' ▸ hrec.append output
  have hlen : seq'.token_ids.length = request.input_ids.length + (outputs.length + 1) := by
    rw [hrec'.token_ids, List.length_append, List.length_map, List.length_append, List.length_singleton]
  have hactive : seq'.is_active = true := by rw [hseq']; exact hact
  rw [hrec'.ignore_eos, hrec'.max_output_len, hrec'.output_len, hlen, List.length_append, List.length_singleton]
  split
  · refine ⟨nofun, fun _ => ⟨by simp, fun hignore => ?_, fun hr => ?_⟩⟩
    · rw [List.dropLast_concat]
      exact heos hignore
    · obtain ⟨hmax, hle⟩ := hroom hr
      rw [List.length_append, List.length_singleton]
      exact ⟨fun n hn => hmax n hn, by omega⟩
  · rename_i hgo
    rw [Bool.not_eq_true, Bool.or_eq_false_iff, Bool.or_eq_false_iff] at hgo
    obtain ⟨hnoeos, hnomax, hnolen⟩ := hgo
    refine ⟨fun _ => ⟨fun hignore p hp => ?_, fun _ => ⟨fun n hn => ?_, ?_⟩⟩, fun hdone => ?_⟩
    · rcases List.mem_append.1 hp with hp | hp
      · exact heos hignore p hp
      · obtain rfl := List.mem_singleton.1 hp
        simpa [hignore] using hnoeos
    · rw [hn, Option.any_some, decide_eq_false_iff_not] at hnomax
      rw [List.length_append, List.length_singleton]
      omega
    · rw [decide_eq_false_iff_not] at hnolen
      rw [List.length_append, List.length_singleton]
      omega
    · rw [hactive] at hdone
      cases hdone

end Sequence

namespace Scheduler

variable {max_seq_len now : Nat} {request : GenerateRequest} {outputs : List (InferOutput × Nat)} {seq : Sequence}
  {running_batch : Table BatchEntry} {infer_outputs : Table InferOutput}

/-- An output is appended if it has come and the chunk was not cut off, and only then. -/
theorem update_seq_recorded (hrec : seq.Recorded request outputs) (hbound : seq.Bounded max_seq_len request outputs)
    (hact : seq.is_active = true) {new : List (InferOutput × Nat)}
    (hnew : new = if running_batch.lookup seq.seq_id = some ⟨false⟩ then
      ((infer_outputs.lookup seq.seq_id).map (·, now)).toList else []) :
    (update_seq max_seq_len running_batch infer_outputs now seq).Recorded request (outputs ++ new) ∧
      (update_seq max_seq_len running_batch infer_outputs now seq).Bounded max_seq_len request (outputs ++ new) := by
  have hsame : new = [] → seq.Recorded request (outputs ++ new) ∧ seq.Bounded max_seq_len request (outputs ++ new) :=
    fun hnil => by rw [hnil, List.append_nil]; exact ⟨hrec, hbound⟩
  unfold update_seq
  cases hout : infer_outputs.lookup seq.seq_id with
  | none => exact hsame (by simp [hnew, hout])
  | some output =>
    cases hentry : running_batch.lookup seq.seq_id with
    | none => exact hsame (by simp [hnew, hentry])
    | some entry =>
      obtain ⟨chunked⟩ := entry
      cases chunked with
      | true => exact hsame (by simp [hnew, hentry])
      | false =>
        obtain rfl : new = [(output, now)] := by simp [hnew, hout, hentry]
        refine ⟨?_, hbound.append hrec hact rfl⟩
        dsimp only
        rw [if_neg (by simp)]
        split
        · exact (hrec.append output).status _
        · exact hrec.append output

end Scheduler

namespace Observed

/-! ### In a run -/

/-- `seq` is one of the sequences the record is about. -/
def Knows (o : Observed) (max_seq_len : Nat) (seq : Sequence) : Prop :=
  ∃ request, o.requests seq.seq_id = some request ∧ seq.Recorded request (o.outputs seq.seq_id) ∧
    seq.Bounded max_seq_len request (o.outputs seq.seq_id)

structure Inv [Hasher] (c : SchedulerConfig) (o : Observed) : Prop where
  reachable : Reachable c o.system
  fresh : ∀ i, o.system.next_seq_id ≤ i → o.requests i = none ∧ o.outputs i = []
  each : o.system.Each (o.Knows c.max_seq_len)
  entries : ∀ i, i ∈ o.due ↔ o.system.scheduler.running_batch.lookup i = some ⟨false⟩
  allocated : ∀ i ∈ o.due, ∃ t ∈ o.system.scheduler.allocated, ∃ seq ∈ t.seqs, seq.seq_id = i ∧ seq.status = .Allocated

section
variable {o : Observed} {max_seq_len : Nat}

theorem steady_knows : Steady (o.Knows max_seq_len) := by
  rintro seq status ⟨request, hreq, hrec, hbound⟩ hact hstatus
  have hactive : ({ seq with status := status } : Sequence).is_active = true := by
    rcases hstatus with rfl | rfl <;> rfl
  refine ⟨request, hreq, hrec.status status, ⟨fun _ => hbound.active hact, fun hdone => ?_⟩⟩
  rw [hactive] at hdone
  cases hdone

end

section
variable [Hasher] {c : SchedulerConfig} {o o' : Observed} {op : Op} {s' : System}

theorem Inv.new (c : SchedulerConfig) : Inv c (new c) where
  reachable := ⟨[], .nil⟩
  fresh _ _ := ⟨rfl, rfl⟩
  each := ⟨⟨nofun, nofun, nofun⟩, nofun, nofun⟩
  entries i := by
    constructor
    · exact nofun
    · intro h
      rw [show (Observed.new c).system.scheduler.running_batch = ∅ from rfl, AList.lookup_empty] at h
      cases h
  allocated := nofun

theorem next_quiet (hop : op.Quiet) :
    o.next op = (Op.next o.system op).map fun s => { o with system := s, requests := o.request op } := by
  cases op with
  | schedule | update infer_outputs now => exact hop.elim
  | _ => rfl

theorem step_quiet (hop : op.Quiet) (hs : o.Step op o') : ∃ s', op.Step o.system s' ∧
    o' = { o with system := s', requests := o.request op } := by
  obtain ⟨s', hs', rfl⟩ := Option.map_eq_some_iff.1 ((next_quiet hop).symm.trans hs)
  exact ⟨s', Op.step_of_next hs', rfl⟩

theorem next_update (infer_outputs : Table InferOutput) (now : Nat) : o.next (.update infer_outputs now) =
    (Op.next o.system (.update infer_outputs now)).map fun s =>
      { o with system := s, due := [], outputs := o.output (.update infer_outputs now) } := rfl

theorem step_update {infer_outputs : Table InferOutput} {now : Nat} (hs : o.Step (.update infer_outputs now) o') :
    ∃ s', Op.Step o.system (.update infer_outputs now) s' ∧
      o' = { o with system := s', due := [], outputs := o.output (.update infer_outputs now) } := by
  obtain ⟨s', hs', rfl⟩ := Option.map_eq_some_iff.1 ((next_update infer_outputs now).symm.trans hs)
  exact ⟨s', Op.step_of_next hs', rfl⟩

omit [Hasher] in
theorem request_of_lt (o : Observed) (op : Op) {i : Nat} (hi : i < o.system.next_seq_id) :
    o.request op i = o.requests i := by
  cases op with
  | add_request request arrival | reserve_request request arrival => exact if_neg fun h => by omega
  | _ => rfl

omit [Hasher] in
theorem request_new (o : Observed) {request : GenerateRequest} {arrival : Nat}
    (hop : op = .add_request request arrival ∨ op = .reserve_request request arrival) {i : Nat}
    (hi : o.system.next_seq_id ≤ i ∧ i < o.system.next_seq_id + request.num_samples) : o.request op i = some request := by
  rcases hop with rfl | rfl <;> exact if_pos hi

theorem request_fresh (hs : op.Step o.system s') {i : Nat} (hi : s'.next_seq_id ≤ i) :
    o.request op i = o.requests i := by
  have hparks := Op.Parks.of_step hs
  cases op with
  | add_request request arrival | reserve_request request arrival =>
    have hnext := hparks.2.1
    exact if_neg fun h => by omega
  | _ => rfl

theorem Inv.quiet (h : Inv c o) (hop : op.Quiet) (hs : o.Step op o') : Inv c o' := by
  obtain ⟨s', hs', rfl⟩ := step_quiet hop hs
  have hfrozen := hop.frozen hs'
  have hA : s'.scheduler.allocated = o.system.scheduler.allocated := congrArg Prod.fst hfrozen
  have hB : s'.scheduler.running_batch = o.system.scheduler.running_batch := congrArg (·.2.1) hfrozen
  have hle := (Op.Parks.of_step hs').next_seq_le
  refine ⟨h.reachable.run (.snoc .nil hs'), fun i hi => ⟨?_, (h.fresh i (hle.trans hi)).2⟩, ?_, fun i => ?_, fun i hi => ?_⟩
  · exact (request_fresh hs' hi).trans (h.fresh i (hle.trans hi)).1
  · refine hop.each hs' (h.each.mono fun seq hknows => ?_) fun request arrival hnew seq hseq => ?_
    · obtain ⟨request, hreq, hknows⟩ := hknows
      refine ⟨request, (request_of_lt o op ?_).trans hreq, hknows⟩
      by_contra hge
      rw [(h.fresh _ (Nat.le_of_not_lt hge)).1] at hreq
      cases hreq
    · obtain ⟨k, hk, rfl⟩ := List.mem_map.1 hseq
      have hki := List.mem_range.1 hk
      have hnone : o.outputs (o.system.next_seq_id + k) = [] := (h.fresh _ (Nat.le_add_right _ k)).2
      refine ⟨request, request_new o hnew ⟨Nat.le_add_right _ k, ?_⟩, ?_⟩
      · exact Nat.add_lt_add_left hki _
      · show Sequence.Recorded request (o.outputs (o.system.next_seq_id + k)) _ ∧ _
        rw [show (Sequence.new (o.system.next_seq_id + k) request.session_id request.input_ids request.max_output_len
          request.ignore_eos request.disable_cache).seq_id = o.system.next_seq_id + k from rfl, hnone]
        exact ⟨Sequence.recorded_new _ _, Sequence.bounded_new _ _⟩
  · show i ∈ o.due ↔ s'.scheduler.running_batch.lookup i = _
    rw [hB]
    exact h.entries i
  · show ∃ t ∈ s'.scheduler.allocated, _
    rw [hA]
    exact h.allocated i hi

theorem Inv.schedule (h : Inv c o) (hs : o.Step .schedule o') : Inv c o' := by
  unfold Step next at hs
  dsimp only at hs
  cases hrun : Scheduler.schedule o.system.scheduler with
  | error e σ => rw [hrun] at hs; cases hs
  | ok batch σ =>
    rw [hrun] at hs
    obtain rfl := Option.some.inj hs
    have hstep : Op.Step o.system .schedule { o.system with scheduler := σ } :=
      bind_ok.2 ⟨batch, _, zoom_ok.2 ⟨σ, hrun, rfl⟩, rfl⟩
    obtain ⟨tok, hsys⟩ := System.reachable_gpu h.reachable
    have hnd := hsys.keys_queues.nodup
    have hsettings : o.system.settings = (System.new c).settings := by
      obtain ⟨ops, hops⟩ := h.reachable
      exact System.settings_of_run hops
    have hbudget := Scheduler.schedule_budgeted hsettings hnd hrun
    have hunique := Scheduler.candidates_nodup_of_schedule hnd hrun
    have heach := ((Scheduler.schedule_each steady_knows).ends h.each.scheduler).of_ok hrun
    refine ⟨h.reachable.run (.snoc .nil hstep), h.fresh, ⟨heach, h.each.reserving, h.each.finished⟩, fun i => ?_,
      fun i hi => ?_⟩
    · show i ∈ σ.due batch.infer_inputs ↔ σ.running_batch.lookup i = _
      rw [Scheduler.mem_due, hbudget.stored]
      constructor
      · rintro ⟨t, ht, seq, hseq, hstatus, rfl, x, hx, hid, hctx⟩
        obtain ⟨u, hu, seq', hseq', hstatus', hchunk, entry, hentry, hchunked⟩ := hbudget.chunks x hx
        obtain rfl : seq' = seq := List.inj_on_of_nodup_map hunique (Scheduler.mem_candidates.2 ⟨u, hu, hseq', hstatus'⟩)
          (Scheduler.mem_candidates.2 ⟨t, ht, hseq, hstatus⟩) (hchunk.seq_id.symm.trans hid)
        rw [← hid, hentry]
        obtain ⟨chunked⟩ := entry
        cases chunked with
        | false => rfl
        | true => exact absurd (hchunked.1 rfl) (by omega)
      · intro hlookup
        have hkey : i ∈ batch.running_batch.keys := AList.lookup_isSome.1 (by rw [hlookup]; rfl)
        obtain ⟨x, hx, rfl⟩ := List.mem_map.1 (hbudget.keys.mem_iff.1 hkey)
        obtain ⟨t, ht, seq, hseq, hstatus, hchunk, entry, hentry, hchunked⟩ := hbudget.chunks x hx
        refine ⟨t, ht, seq, hseq, hstatus, hchunk.seq_id.symm, x, hx, rfl, ?_⟩
        obtain rfl := Option.some.inj (hentry.symm.trans hlookup)
        have hle := hchunk.le_tokens
        by_contra hne
        exact Bool.false_ne_true (hchunked.2 (by omega))
    · obtain ⟨t, ht, seq, hseq, hstatus, hid, -⟩ := Scheduler.mem_due.1 hi
      exact ⟨t, ht, seq, hseq, hid, hstatus⟩

theorem Inv.update (h : Inv c o) {infer_outputs : Table InferOutput} {now : Nat}
    (hs : o.Step (.update infer_outputs now) o') : Inv c o' := by
  obtain ⟨s', hstep, rfl⟩ := step_update hs
  have hinv := System.inv_of_reachable h.reachable
  have hmax : o.system.scheduler.max_seq_len = c.max_seq_len := by
    obtain ⟨ops, hops⟩ := h.reachable
    have := System.settings_of_run hops
    simp only [System.settings, Scheduler.settings, System.new, Scheduler.new, Prod.mk.injEq] at this
    exact this.2.1
  have hfresh : ∀ i, o.system.next_seq_id ≤ i → o.output (.update infer_outputs now) i = [] := fun i hi => by
    have hnot : i ∉ o.due := fun hmem => by
      obtain ⟨t, ht, seq, hseq, rfl, -⟩ := h.allocated i hmem
      have hlt := hinv.inside (Lifecycle.anyStages.allocated, t) (List.mem_append_left _ (mem_tag.2 ⟨rfl, ht⟩)) _
        (List.mem_map.2 ⟨seq, hseq, rfl⟩)
      omega
    simp only [output, (h.fresh i hi).2, if_neg hnot, List.append_nil]
  -- the sequences that no output comes for
  have hrest : ∀ seq : Sequence, seq.seq_id ∉ o.due → o.Knows c.max_seq_len seq →
      Knows { o with system := s', due := [], outputs := o.output (.update infer_outputs now) } c.max_seq_len seq := by
    rintro seq hnot ⟨request, hreq, hknows⟩
    refine ⟨request, hreq, ?_⟩
    simpa only [output, if_neg hnot, List.append_nil] using hknows
  have hapart : ∀ t ∈ o.system.scheduler.waiting ++ (o.system.parked ++ o.system.finished), ∀ seq ∈ t.seqs,
      seq.seq_id ∉ o.due := fun t ht seq hseq hmem => by
    obtain ⟨u, hu, seq', hseq', hid, -⟩ := h.allocated _ hmem
    exact (List.pairwise_append.1 hinv.pairwise).2.2 u hu t ht (List.mem_map.2 ⟨seq', hseq', hid⟩)
      (List.mem_map.2 ⟨seq, hseq, rfl⟩)
  have hupdated : ∀ t ∈ o.system.scheduler.allocated, InferTask.All
      (Knows { o with system := s', due := [], outputs := o.output (.update infer_outputs now) } c.max_seq_len)
      (Scheduler.update_task o.system.scheduler.max_seq_len o.system.scheduler.running_batch infer_outputs now t) := by
    intro t ht seq' hseq'
    obtain ⟨seq, hseq, rfl⟩ := List.mem_map.1 hseq'
    have hknows := h.each.scheduler.allocated t ht seq hseq
    split
    · rename_i hstatus
      obtain ⟨request, hreq, hrec, hbound⟩ := hknows
      have hid := (System.update_seq_key o.system.scheduler.max_seq_len o.system.scheduler.running_batch infer_outputs
        now seq).1
      rw [hmax] at hid ⊢
      refine ⟨request, by rw [hid]; exact hreq, ?_⟩
      rw [hid]
      refine Scheduler.update_seq_recorded hrec hbound (by simp [Sequence.is_active, hstatus]) ?_
      by_cases hmem : seq.seq_id ∈ o.due
      · rw [if_pos hmem, if_pos ((h.entries _).1 hmem)]
      · rw [if_neg hmem, if_neg fun hentry => hmem ((h.entries _).2 hentry)]
    · rename_i hstatus
      refine hrest seq (fun hmem => ?_) hknows
      obtain ⟨u, hu, seq', hseq', hid, hstatus'⟩ := h.allocated _ hmem
      obtain rfl := hinv.seq_unique (List.mem_append_left _ ht) (List.mem_append_left _ hu) hseq hseq' hid.symm
      exact hstatus hstatus'
  have hr' := h.reachable.run (.snoc .nil hstep)
  have hother : ∀ t ∈ o.system.scheduler.waiting ++ (o.system.parked ++ o.system.finished), t.All (o.Knows c.max_seq_len) →
      t.All (Knows { o with system := s', due := [], outputs := o.output (.update infer_outputs now) } c.max_seq_len) :=
    fun t ht hknows seq hseq => hrest seq (hapart t ht seq hseq) (hknows seq hseq)
  obtain rfl := System.update_step hstep
  refine ⟨hr', fun i hi => ⟨(h.fresh i hi).1, hfresh i hi⟩, ⟨⟨fun t ht => ?_, fun t ht => ?_, fun t ht => ?_⟩,
    fun t ht => ?_, fun t ht => ?_⟩, fun i => ?_, fun _ hi => absurd hi List.not_mem_nil⟩
  · exact hother t (by simp [show t ∈ o.system.scheduler.waiting from ht]) (h.each.scheduler.waiting t ht)
  · obtain ⟨u, hu, rfl⟩ := List.mem_map.1 (List.mem_filter.1 ht).1
    exact hupdated u hu
  · exact hother t (by simp [System.parked, show t ∈ o.system.scheduler.pending_tasks from ht])
      (h.each.scheduler.pending t ht)
  · exact hother t (by simp [System.parked, show t ∈ o.system.reserving from ht]) (h.each.reserving t ht)
  · rcases List.mem_append.1 ht with ht | ht
    · exact hother t (by simp [ht]) (h.each.finished t ht)
    · obtain ⟨u, hu, rfl⟩ := List.mem_map.1 (List.mem_filter.1 ht).1
      exact hupdated u hu
  · constructor
    · exact fun hi => absurd hi List.not_mem_nil
    · intro hlookup
      rw [AList.lookup_empty] at hlookup
      cases hlookup

theorem Inv.step (h : Inv c o) (hs : o.Step op o') : Inv c o' := by
  cases op with
  | schedule => exact h.schedule hs
  | update infer_outputs now => exact h.update hs
  | _ => exact h.quiet (by trivial) hs

theorem exists_step (hs : op.Step o.system s') : ∃ o', o.Step op o' ∧ o'.system = s' := by
  have hnext := Op.next_of_step hs
  have hquiet : op.Quiet → ∃ o', o.Step op o' ∧ o'.system = s' := fun hop =>
    ⟨_, (next_quiet hop).trans (congrArg _ hnext), rfl⟩
  cases op with
  | schedule =>
    obtain ⟨batch, t, hzoom, hpure⟩ := bind_ok.1 hs
    obtain ⟨σ, hσ, rfl⟩ := zoom_ok.1 hzoom
    cases hpure
    refine ⟨{ o with system := { o.system with scheduler := σ }, due := σ.due batch.infer_inputs }, ?_, rfl⟩
    unfold Step next
    dsimp only
    rw [hσ]
  | update infer_outputs now => exact ⟨_, (next_update infer_outputs now).trans (congrArg _ hnext), rfl⟩
  | _ => exact hquiet trivial

theorem exists_run {ops : List Op} {s : System} (h : Run Op.Step o.system ops s) :
    ∃ o', Run Observed.Step o ops o' ∧ o'.system = s := by
  induction h with
  | nil => exact ⟨o, .nil, rfl⟩
  | snoc _ hs ih =>
    obtain ⟨o₁, hrun, rfl⟩ := ih
    obtain ⟨o₂, hstep, rfl⟩ := exists_step hs
    exact ⟨o₂, hrun.snoc hstep, rfl⟩

end

end Observed

namespace System

/-- At any point every sequence is the prompt of its request followed by the outputs of the dispatches that reached
the end of its tokens, one each, and none of them follows the end of the text. A finished sequence is within the
limits exactly if its request left room for an output. -/
theorem run_limits_iff [Hasher] {c : SchedulerConfig} {ops : List Op} {s : System}
    (h : Run Op.Step (new c) ops s) :
    ∃ o, Run Observed.Step (Observed.new c) ops o ∧ o.system = s ∧ ∀ t ∈ s.tasks, ∀ seq ∈ t.seqs,
      ∃ request, o.requests seq.seq_id = some request ∧ seq.Recorded request (o.outputs seq.seq_id) ∧
        (request.ignore_eos = false → ∀ p ∈ (o.outputs seq.seq_id).dropLast, p.1.is_eos = false) ∧
        (seq.status = .Finished → (seq.WithinLimits c.max_seq_len ↔ request.HasRoom c.max_seq_len)) := by
  obtain ⟨o, hrun, rfl⟩ := Observed.exists_run (o := Observed.new c) h
  have hinv : o.Inv c := hrun.invariant (Observed.Inv.new c) fun _ _ _ hi hs => hi.step hs
  refine ⟨o, hrun, rfl, fun t ht seq hseq => ?_⟩
  have hknows : o.Knows c.max_seq_len seq := by
    simp only [tasks, List.mem_append] at ht
    rcases ht with (((ht | ht) | ht) | ht) | ht
    · exact hinv.each.scheduler.waiting t ht seq hseq
    · exact hinv.each.scheduler.allocated t ht seq hseq
    · exact hinv.each.scheduler.pending t ht seq hseq
    · exact hinv.each.reserving t ht seq hseq
    · exact hinv.each.finished t ht seq hseq
  obtain ⟨request, hrequest, hrec, hbound⟩ := hknows
  exact ⟨request, hrequest, hrec, hbound.eos, hbound.withinLimits_iff hrec⟩

/-- A finished sequence with this limit, this many outputs and this many tokens. -/
def ends_with (max_output_len : Option Nat) (output_len num_tokens : Nat) (s : System) : Bool :=
  s.finished.any fun t => t.seqs.any fun seq => seq.status = .Finished ∧ seq.max_output_len = max_output_len ∧
    seq.output_len = output_len ∧ seq.token_ids.length = num_tokens

theorem exists_of_ends_with {max_output_len : Option Nat} {output_len num_tokens : Nat} {s : System}
    (h : s.ends_with max_output_len output_len num_tokens = true) : ∃ t ∈ s.tasks, ∃ seq ∈ t.seqs,
      seq.status = .Finished ∧ seq.max_output_len = max_output_len ∧ seq.output_len = output_len ∧
        seq.token_ids.length = num_tokens := by
  simp only [ends_with, List.any_eq_true, decide_eq_true_eq] at h
  obtain ⟨t, ht, seq, hseq, hends⟩ := h
  exact ⟨t, List.mem_append_right _ ht, seq, hseq, hends⟩

/-- A request for one output gets it and ends within the limits. -/
theorem run_limits_one :
    let _ := decimalHasher
    ∃ s, Run Op.Step (new (smallConfig 4)) [.add_request ⟨5, [1, 2], 1, some 1, false, false⟩ 0, .schedule,
        results [(0, 7)] 1] s ∧
      ∃ t ∈ s.tasks, ∃ seq ∈ t.seqs, seq.status = .Finished ∧ seq.WithinLimits 64 := by
  let _ := decimalHasher
  have hfollow : (Run.follow Op.next (new (smallConfig 4)) [.add_request ⟨5, [1, 2], 1, some 1, false, false⟩ 0,
      .schedule, results [(0, 7)] 1]).any (ends_with (some 1) 1 3) = true := by decide +kernel
  obtain ⟨s, hrun, hs⟩ := Run.exists_of_follow (fun _ _ _ => Op.step_of_next) hfollow
  obtain ⟨t, ht, seq, hseq, hfin, hmax, hlen, hnum⟩ := exists_of_ends_with hs
  obtain ⟨o, -, -, hall⟩ := run_limits_iff hrun
  obtain ⟨request, -, hrec, -, hiff⟩ := hall t ht seq hseq
  have hroom : request.HasRoom 64 := by
    refine ⟨?_, ?_⟩
    · rw [← hrec.max_output_len, hmax]
      exact fun h => Nat.one_ne_zero (Option.some.inj h)
    · have htokens := congrArg List.length hrec.token_ids
      rw [List.length_append, List.length_map] at htokens
      omega
  exact ⟨s, hrun, t, ht, seq, hseq, hfin, (hiff hfin).2 hroom⟩

/-- A sequence may have at most two tokens. -/
def twoTokens : SchedulerConfig := ⟨8, 2, 16, 1, Nat.one_pos, 4, 0, 0, false, Scheduler.defaultWatermark⟩

/-- A request for no output gets one, and one with a prompt as long as a sequence may be ends with a token more. -/
theorem run_limits_exceeded :
    let _ := decimalHasher
    (∃ s, Run Op.Step (new (smallConfig 4)) [.add_request ⟨5, [1, 2], 1, some 0, false, false⟩ 0, .schedule,
        results [(0, 7)] 1] s ∧
      ∃ t ∈ s.tasks, ∃ seq ∈ t.seqs, seq.status = .Finished ∧ seq.max_output_len = some 0 ∧ seq.output_len = 1) ∧
      ∃ s, Run Op.Step (new twoTokens) [.add_request ⟨5, [1, 2], 1, none, false, false⟩ 0, .schedule,
          results [(0, 7)] 1] s ∧
        ∃ t ∈ s.tasks, ∃ seq ∈ t.seqs, seq.status = .Finished ∧ twoTokens.max_seq_len < seq.token_ids.length := by
  let _ := decimalHasher
  have hnone : (Run.follow Op.next (new (smallConfig 4)) [.add_request ⟨5, [1, 2], 1, some 0, false, false⟩ 0,
      .schedule, results [(0, 7)] 1]).any (ends_with (some 0) 1 3) = true := by decide +kernel
  have hlong : (Run.follow Op.next (new twoTokens) [.add_request ⟨5, [1, 2], 1, none, false, false⟩ 0, .schedule,
      results [(0, 7)] 1]).any (ends_with none 1 3) = true := by decide +kernel
  constructor
  · obtain ⟨s, hrun, hs⟩ := Run.exists_of_follow (fun _ _ _ => Op.step_of_next) hnone
    obtain ⟨t, ht, seq, hseq, hfin, hmax, hlen, -⟩ := exists_of_ends_with hs
    exact ⟨s, hrun, t, ht, seq, hseq, hfin, hmax, hlen⟩
  · obtain ⟨s, hrun, hs⟩ := Run.exists_of_follow (fun _ _ _ => Op.step_of_next) hlong
    obtain ⟨t, ht, seq, hseq, hfin, -, -, hnum⟩ := exists_of_ends_with hs
    exact ⟨s, hrun, t, ht, seq, hseq, hfin, by rw [hnum]; exact Nat.lt_succ_self 2⟩

end System

end LMServe
