import Mathlib.Data.List.Basic
import TypesetKernel.FontMetrics.Decode
import TypesetKernel.Proofs.Bytes

/-!
What a step of decoding makes of a file. The step runs on a stream that holds the beginning of the
file, possibly not all of it. `Reads` gives the result that the step has on the whole file together
with its extent, the number of leading bytes that the result rests on. A stream that holds these
bytes gives the result and any other stream ends in the middle of a read, so no result is ever made
up from missing bytes. Steps in sequence are read in sequence (`Reads.bind`, `Reads.stop`).
-/

namespace TypesetKernel.Decoder

variable {α β : Type} {file : Bytes} {start mid extent : Nat} {result : Except Diagnostic β}

/-- The run of a step on a stream that holds the beginning of a file, where the step has the given
result on the whole file and rests it on the first `extent` bytes. -/
def Delivers (s : ByteStream) (result : Except Diagnostic α) (extent : Nat)
    (run : EStateM.Result Diagnostic ByteStream α) : Prop :=
  if extent ≤ s.contents.length then
    match result with
    | .ok value => run = .ok value { s with offset := extent, order := .big }
    | .error d => ∃ t, run = .error d t ∧ t.order = .big
  else ∃ e t, run = .error (.endOfStream e) t ∧ t.order = .big

/-- The step has the given result and extent wherever it finds the beginning of the file. -/
structure Reads (file : Bytes) (start : Nat) (step : Decoder α) (result : Except Diagnostic α)
    (extent : Nat) : Prop where
  /-- The extent covers what was read before the step. -/
  forward : start ≤ extent
  /-- What becomes of a big-endian stream that stands at the start of the step. -/
  delivers : ∀ s : ByteStream, s.order = .big → s.offset = start → start ≤ s.contents.length →
    s.contents <+: file → Delivers s result extent (step s)

theorem reading_apply (read : ByteStream.Reader α) (s : ByteStream) :
    reading read s = match read s with
      | .ok a t => .ok a t
      | .error e t => .error (.endOfStream e) t := by
  unfold reading EStateM.adaptExcept
  cases read s <;> rfl

theorem reading_pure (value : α) : reading (pure value) = pure value := rfl

theorem reading_bind (read : ByteStream.Reader α) (next : α → ByteStream.Reader β) :
    reading (read >>= next) = reading read >>= fun value => reading (next value) := by
  funext s
  simp only [reading_apply, bind, EStateM.bind]
  cases read s <;> rfl

namespace Reads

/-- A step that reads nothing rests on what was read before. -/
theorem pure (value : α) : Reads file start (pure value) (.ok value) start := by
  refine ⟨Nat.le_refl _, ?_⟩
  intro s big here within _
  subst here
  rw [Delivers, if_pos within, ← big]
  rfl

/-- A rejection rests on what was read before. -/
theorem throw (d : Diagnostic) : Reads file start (throw d : Decoder α) (.error d) start := by
  refine ⟨Nat.le_refl _, ?_⟩
  intro s big _ within _
  rw [Delivers, if_pos within]
  exact ⟨s, rfl, big⟩

/-- What follows a step starts at the extent of the step. -/
theorem bind {step : Decoder α} {next : α → Decoder β} {value : α}
    (first : Reads file start step (.ok value) mid)
    (rest : Reads file mid (next value) result extent) :
    Reads file start (step >>= next) result extent := by
  refine ⟨Nat.le_trans first.forward rest.forward, ?_⟩
  intro s big here within held
  have ran := first.delivers s big here within held
  unfold Delivers at ran
  split at ran
  · rename_i reached
    have rest := rest.delivers { s with offset := mid, order := .big } rfl rfl reached held
    have both : (step >>= next) s = next value { s with offset := mid, order := .big } := by
      simp only [Bind.bind, EStateM.bind, ran]
    rw [both]
    exact rest
  · rename_i missing
    obtain ⟨e, t, ran, order⟩ := ran
    have short : ¬ extent ≤ s.contents.length :=
      fun reached => missing (Nat.le_trans rest.forward reached)
    unfold Delivers
    rw [if_neg short]
    exact ⟨e, t, by simp only [Bind.bind, EStateM.bind, ran], order⟩

/-- Nothing follows a rejection. -/
theorem stop {step : Decoder α} {next : α → Decoder β} {d : Diagnostic}
    (first : Reads file start step (.error d) extent) :
    Reads file start (step >>= next) (.error d) extent := by
  refine ⟨first.forward, ?_⟩
  intro s big here within held
  have ran := first.delivers s big here within held
  unfold Delivers at ran ⊢
  split at ran
  · rename_i reached
    obtain ⟨t, ran, order⟩ := ran
    rw [if_pos reached]
    exact ⟨t, by simp only [Bind.bind, EStateM.bind, ran], order⟩
  · rename_i missing
    obtain ⟨e, t, ran, order⟩ := ran
    rw [if_neg missing]
    exact ⟨e, t, by simp only [Bind.bind, EStateM.bind, ran], order⟩

theorem map {step : Decoder α} {value : α} (f : α → β)
    (first : Reads file start step (.ok value) extent) :
    Reads file start (f <$> step) (.ok (f value)) extent := by
  rw [map_eq_pure_bind]
  exact first.bind (pure _)

/-! ## Reading from the stream -/

theorem take (n : Nat) :
    Reads file start (reading (ByteStream.take n)) (.ok ((file.drop start).take n))
      (start + n) := by
  refine ⟨Nat.le_add_right _ _, ?_⟩
  intro s big here within held
  subst here
  rw [reading_apply, ByteStream.take_apply, Delivers]
  split
  · rename_i reached
    obtain ⟨rest, rfl⟩ := held
    have same : (s.contents.drop s.offset).take n
        = ((s.contents ++ rest).drop s.offset).take n := by
      rw [List.drop_append_of_le_length within,
        List.take_append_of_le_length (by rw [List.length_drop]; omega)]
    rw [same, ← big]
  · exact ⟨_, s, rfl, big⟩

/-- A step forward to a given offset. -/
theorem seek {target : Nat} (ahead : start ≤ target) :
    Reads file start (reading (ByteStream.seek target)) (.ok ()) target := by
  refine ⟨ahead, ?_⟩
  intro s big _ _ _
  rw [reading_apply, ByteStream.seek_apply, Delivers]
  split
  · rw [← big]
  · exact ⟨_, s, rfl, big⟩

theorem number (width : Nat) :
    Reads file start (reading (ByteStream.number width))
      (.ok (Bytes.value ((file.drop start).take width))) (start + width) := by
  rw [ByteStream.number, reading_bind]
  refine (take width).bind ⟨Nat.le_refl _, fun s big here within _ => ?_⟩
  obtain ⟨bytes, size, offset, order⟩ := s
  cases big
  cases here
  rw [Delivers, if_pos within]
  rfl

theorem byte :
    Reads file start (reading ByteStream.byte) (.ok (file.byteAt start)) (start + 1) := by
  rw [ByteStream.byte, reading_bind, ← Bytes.ofNat_value_take_one]
  exact (number 1).bind (pure _)

theorem half :
    Reads file start (reading ByteStream.half) (.ok (UInt16.ofNat (file.halfAt start)))
      (start + 2) := by
  rw [ByteStream.half, reading_bind]
  exact (number 2).bind (pure _)

theorem word :
    Reads file start (reading ByteStream.word) (.ok (UInt32.ofNat (file.wordAt start)))
      (start + 4) := by
  rw [ByteStream.word, reading_bind]
  exact (number 4).bind (pure _)

/-! ## Choice and repetition -/

/-- A field is read if the header reaches to its end. -/
theorem field {words last : Nat} {read : Decoder α} {value absent : α} (stop : Nat)
    (reached : last ≤ words → Reads file start read (.ok value) stop) :
    Reads file start (field words last read absent) (.ok (if last ≤ words then value else absent))
      (if last ≤ words then stop else start) := by
  unfold Decoder.field
  by_cases held : last ≤ words
  · simpa only [if_pos held] using reached held
  · simpa only [if_neg held] using pure absent

/-- A step that reads `width` bytes at every offset is repeated from one block to the next. -/
theorem times {step : Decoder α} {width : Nat} {block : Nat → α}
    (each : ∀ offset, Reads file offset step (.ok (block offset)) (offset + width))
    (count : Nat) :
    Reads file start (times count step)
      (.ok ((List.range count).map fun i => block (start + width * i)))
      (start + width * count) := by
  induction count generalizing start with
  | zero => exact pure []
  | succ count ih =>
    have unfolded : Decoder.times (count + 1) step = step >>= fun first =>
        Decoder.times count step >>= fun rest => Pure.pure (first :: rest) := by
      simp only [Decoder.times, List.replicate_succ, List.mapM_cons, id]
    have next : (List.range count).map (fun i => block (start + width + width * i))
        = (List.range count).map fun i => block (start + width * (i + 1)) := by
      refine List.map_congr_left fun i _ => ?_
      rw [Nat.mul_succ, Nat.add_assoc, Nat.add_comm width]
    have stop : start + width + width * count = start + width * (count + 1) := by
      rw [Nat.mul_succ, Nat.add_assoc, Nat.add_comm width]
    rw [unfolded, List.range_succ_eq_map, List.map_cons, List.map_map, ← stop]
    refine (each start).bind ((@ih (start + width)).bind ?_)
    rw [next]
    exact pure _

end Reads

end TypesetKernel.Decoder
