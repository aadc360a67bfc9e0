import LMServe.Lib.Table

/-!
# Sequences, tasks and the messages exchanged with the workers

`sequence.rs`, `infer_task.rs` and the worker messages of `worker.proto`. Token ids, block ids and
hash values are natural numbers; session and region ids are opaque strings in the source, used
only as keys, and are numbers here too. Times are nanoseconds.
-/

namespace LMServe

inductive SeqStatus where
  | Waiting
  | Allocated
  | Finished
  | Canceled
deriving DecidableEq, Repr

/-- `stop_reason` and `filled_token_ids` of the source are never read or written after
construction and are left out. -/
structure Sequence where
  seq_id : Nat
  session_id : Nat
  token_ids : List Nat
  max_output_len : Option Nat
  status : SeqStatus
  prompt_len : Nat
  output_len : Nat
  output_words : List String
  output_token_probs : List Rat
  append_token_times : List Nat
  ignore_eos : Bool
  disable_cache : Bool
deriving DecidableEq

namespace Sequence

/-- `seq_id` is the next value of the process-wide counter behind `generate_seq_id`. -/
def new (seq_id session_id : Nat) (token_ids : List Nat) (max_output_len : Option Nat)
    (ignore_eos disable_cache : Bool) : Sequence where
  seq_id := seq_id
  session_id := session_id
  token_ids := token_ids
  max_output_len := max_output_len
  status := .Waiting
  prompt_len := token_ids.length
  output_len := 0
  output_words := []
  output_token_probs := []
  append_token_times := []
  ignore_eos := ignore_eos
  disable_cache := disable_cache

def is_active (seq : Sequence) : Bool := seq.status = .Waiting ∨ seq.status = .Allocated

def is_finished (seq : Sequence) : Bool := seq.status = .Finished ∨ seq.status = .Canceled

def get_output_ids (seq : Sequence) : List Nat := seq.token_ids.drop seq.prompt_len

def append_output_id (seq : Sequence) (output_id : Nat) (prob : Rat) (output_word : String)
    (now : Nat) : Sequence :=
  { seq with
    token_ids := seq.token_ids ++ [output_id]
    output_len := seq.output_len + 1
    output_token_probs := seq.output_token_probs ++ [prob]
    output_words := seq.output_words ++ [output_word]
    append_token_times := seq.append_token_times ++ [now] }

end Sequence

/-- The task's own `status` (`InferTaskStatus`) is written by no scheduler function and left out. -/
structure InferTask where
  session_id : Nat
  seqs : List Sequence
  arrival_time : Nat
deriving DecidableEq

namespace InferTask

def get_active_seqs (t : InferTask) : List Sequence := t.seqs.filter (·.is_active)

def get_seqs (t : InferTask) (status : SeqStatus) : List Sequence :=
  t.seqs.filter (·.status = status)

def get_head_seq (t : InferTask) : Option Sequence := t.get_active_seqs.head?

def is_finished (t : InferTask) : Bool := t.seqs.all (·.is_finished)

end InferTask

structure InferInput where
  seq_id : Nat
  input_ids : List Nat
  input_len : Nat
  filled_token_len : Nat
  context_len : Nat
  block_ids : List Nat
deriving DecidableEq, Repr

/-- `input_len` is not an argument: it is the length of `input_ids`. -/
def InferInput.new (seq_id : Nat) (input_ids : List Nat) (filled_token_len context_len : Nat)
    (block_ids : List Nat) : InferInput where
  seq_id := seq_id
  input_ids := input_ids
  input_len := input_ids.length
  filled_token_len := filled_token_len
  context_len := context_len
  block_ids := block_ids

structure InferOutput where
  output_id : Nat
  prob : Rat
  output_word : String
  is_eos : Bool
deriving DecidableEq

inductive Device where
  | Gpu
  | Host
  | Disk
deriving DecidableEq, Repr

structure BlockMappingEntry where
  src_block_id : Nat
  dst_block_id : Nat
deriving DecidableEq, Repr

/-- One sequence's copy plan: source blocks with the destination blocks they are copied into. -/
abbrev BlockMapping := List BlockMappingEntry

end LMServe
