import TypesetKernel.Proofs.FontMetrics.Layout

/-!
Decoding a font metric file as a whole. A file is accepted if and only if it breaks no rule of the
format, and otherwise rejected for the first rule that it breaks (`ofBytes_verdict`). A stream that
holds less than it reports gives what any file of the reported size with the same beginning gives,
or ends early, and it never matters where the stream stood before (`decode_of_claiming`).
-/

namespace TypesetKernel

namespace Decoder

variable {α : Type}

/-- What a run gives, apart from the stream that it leaves behind. -/
def outcome : EStateM.Result Diagnostic ByteStream α → Except Diagnostic α
  | .ok value _ => .ok value
  | .error d _ => .error d

/-- The stream that a run leaves behind. -/
def streamAfter : EStateM.Result Diagnostic ByteStream α → ByteStream
  | .ok _ s => s
  | .error _ s => s

/-- A run stopped because a promised byte was missing. -/
def EndsEarly (result : Except Diagnostic α) : Prop :=
  ∃ d, result = .error d ∧ d.kind = .internal ∧ d.check = .unexpectedEndOfStream

namespace Delivers

variable {s : ByteStream} {result : Except Diagnostic α} {extent : Nat}
  {run : EStateM.Result Diagnostic ByteStream α}

theorem outcome_eq (delivers : Delivers s result extent run)
    (reached : extent ≤ s.contents.length) : outcome run = result := by
  unfold Delivers at delivers
  rw [if_pos reached] at delivers
  cases result with
  | ok value => rw [delivers]; rfl
  | error d =>
    obtain ⟨t, ran, -⟩ := delivers
    rw [ran]
    rfl

theorem endsEarly (delivers : Delivers s result extent run)
    (missing : ¬ extent ≤ s.contents.length) : EndsEarly (outcome run) := by
  unfold Delivers at delivers
  rw [if_neg missing] at delivers
  obtain ⟨e, t, ran, -⟩ := delivers
  rw [ran]
  exact ⟨_, rfl, rfl, rfl⟩

theorem order_eq (delivers : Delivers s result extent run) : (streamAfter run).order = .big := by
  unfold Delivers at delivers
  split at delivers
  · cases result with
    | ok value => rw [delivers]; rfl
    | error d =>
      obtain ⟨t, ran, order⟩ := delivers
      rw [ran]
      exact order
  · obtain ⟨e, t, ran, order⟩ := delivers
    rw [ran]
    exact order

/-- A run that succeeds leaves the stream behind its extent and gives the result. -/
theorem of_ok {value : α} {t : ByteStream} (delivers : Delivers s result extent (.ok value t)) :
    result = .ok value ∧ t.offset = extent := by
  unfold Delivers at delivers
  split at delivers
  · cases result with
    | ok expected =>
      cases delivers
      exact ⟨rfl, rfl⟩
    | error d =>
      obtain ⟨_, ran, -⟩ := delivers
      cases ran
  · obtain ⟨_, _, ran, -⟩ := delivers
    cases ran

end Delivers

end Decoder

namespace FontMetrics

open Decoder (Delivers EndsEarly outcome streamAfter)

/-- The number of bytes of a file before the tables that are not decoded. -/
def decodedExtent (file : Bytes) : Nat :=
  4 * (6 + file.halfAt 2 + (file.halfAt 6 + 1 - file.halfAt 4) + file.halfAt 8 + file.halfAt 10
    + file.halfAt 12 + file.halfAt 14)

theorem decodedExtent_eq (file : Bytes) :
    4 * (Counts.stated file).decodedWords = decodedExtent file := by
  simp only [Counts.decodedWords, Counts.chars, codeCount, Counts.stated,
    Bytes.toNat_ofNat_halfAt, decodedExtent]

theorem ofBytes_eq (bs : Bytes) : ofBytes bs = outcome (decode (ByteStream.ofBytes bs)) := by
  unfold ofBytes
  cases decode (ByteStream.ofBytes bs) <;> rfl

/-- Decoding starts afresh, whatever the stream was used for before. -/
theorem decode_apply (s : ByteStream) :
    decode s = if s.size < 24 then .error .fileTooSmall { s with order := .big }
      else (Decoder.counts s.size >>= Decoder.body) { s with offset := 0, order := .big } := by
  have opened : decode s = (if s.size < 24 then throw .fileTooSmall else
      Decoder.reading (ByteStream.seek 0) >>= fun _ => Decoder.counts s.size >>= Decoder.body :
        Decoder FontMetrics) { s with order := .big } := rfl
  have rewound : Decoder.reading (ByteStream.seek 0) { s with order := .big }
      = .ok () { s with offset := 0, order := .big } := by
    rw [Decoder.reading_apply, ByteStream.seek_apply, if_pos (Nat.zero_le _)]
  rw [opened]
  split
  · rfl
  · simp only [bind, EStateM.bind, rewound]

/-- Every stream that holds the beginning of a file and reports its size delivers what decoding
makes of the file. -/
theorem decode_delivers (size : Nat) (file : Bytes) :
    ∃ extent ≤ size, (firstFault? size file = none → extent = decodedExtent file) ∧
      ∀ s : ByteStream, s.size = size → s.contents <+: file →
        Delivers s (verdict size file) extent (decode s) := by
  by_cases room : size < 24
  · have fault : firstFault? size file = some .fileTooSmall := by
      simp only [firstFault?, if_pos room]
    refine ⟨0, Nat.zero_le _, by simp [fault], ?_⟩
    intro s reports _
    rw [decode_apply, reports, if_pos room, verdict, fault, Delivers, if_pos (Nat.zero_le _)]
    exact ⟨_, rfl, rfl⟩
  · obtain ⟨extent, within, reads, decoded⟩ := decode_reads room file
    refine ⟨extent, within, ?_, ?_⟩
    · intro sound
      rw [← decodedExtent_eq]
      exact decoded sound
    · intro s reports held
      cases reports
      rw [decode_apply, if_neg room]
      exact reads.delivers { s with offset := 0, order := .big } rfl rfl (Nat.zero_le _) held

/-- Every rule of the format is a rule about the bytes. -/
theorem kind_of_verdict {size : Nat} {file : Bytes} {d : Diagnostic}
    (rejected : verdict size file = .error d) : d.kind = .format := by
  unfold verdict at rejected
  split at rejected
  · rename_i fault found
    cases rejected
    unfold firstFault? at found
    dsimp only at found
    split_ifs at found <;> cases found <;> rfl
  · cases rejected

theorem firstFault?_of_verdict {size : Nat} {file : Bytes} {metrics : FontMetrics}
    (accepted : verdict size file = .ok metrics) : firstFault? size file = none := by
  unfold verdict at accepted
  split at accepted
  · cases accepted
  · assumption

theorem ofBytes_eq_verdict (bs : Bytes) : ofBytes bs = verdict bs.length bs := by
  obtain ⟨extent, within, -, delivers⟩ := decode_delivers bs.length bs
  rw [ofBytes_eq]
  exact (delivers (.ofBytes bs) rfl List.prefix_rfl).outcome_eq within

/-- Font metrics are decoded from a file that breaks no rule, and they are what the file states. -/
theorem ofBytes_eq_ok_iff {bs : Bytes} {metrics : FontMetrics} :
    ofBytes bs = .ok metrics ↔ firstFault? bs.length bs = none ∧ stated bs = metrics := by
  rw [ofBytes_eq_verdict, verdict]
  cases firstFault? bs.length bs <;> simp

/-- Two streams that hold the same bytes and report the same size are decoded alike. -/
theorem outcome_decode_congr {s t : ByteStream} (held : s.bytes = t.bytes)
    (reports : s.size = t.size) : outcome (decode s) = outcome (decode t) := by
  rw [decode_apply, decode_apply, reports]
  split
  · rfl
  · rw [held]

/-- A file is accepted if and only if it breaks no rule of the format, and otherwise rejected for
the first rule that it breaks. No stream that holds all the bytes it reports ends early. -/
theorem ofBytes_verdict (bs : Bytes) :
    (match firstFault? bs.length bs with
      | some fault => ofBytes bs = .error fault ∧ fault.kind = .format
      | none => ∃ metrics, ofBytes bs = .ok metrics) ∧
    ∀ s : ByteStream, s.contents = bs → s.size = bs.length →
      ∀ d t, decode s = .error d t → d.kind = .format := by
  have result := ofBytes_eq_verdict bs
  constructor
  · cases found : firstFault? bs.length bs with
    | some fault =>
      have rejected : verdict bs.length bs = .error fault := by rw [verdict, found]
      exact ⟨result.trans rejected, kind_of_verdict rejected⟩
    | none =>
      have accepted : verdict bs.length bs = .ok (stated bs) := by rw [verdict, found]
      exact ⟨stated bs, result.trans accepted⟩
  · intro s held reports d t ran
    have same : outcome (decode s) = ofBytes bs := by
      rw [ofBytes_eq]
      exact outcome_decode_congr (Array.toList_inj.mp held) reports
    rw [ran, result] at same
    exact kind_of_verdict same.symm

/-- A stream that holds more than it reports is decoded as far as it reports. -/
theorem outcome_of_surplus (s : ByteStream) (surplus : s.size ≤ s.contents.length) :
    outcome (decode s) = ofBytes (s.contents.take s.size) := by
  obtain ⟨extent, within, -, delivers⟩ := decode_delivers s.size s.contents
  have part : (s.contents.take s.size).length = s.size := by
    rw [List.length_take]
    exact Nat.min_eq_left surplus
  have whole := (delivers s rfl List.prefix_rfl).outcome_eq (Nat.le_trans within surplus)
  have cut := (delivers (.ofBytes (s.contents.take s.size)) part (List.take_prefix _ _)).outcome_eq
    (by rw [ByteStream.contents_ofBytes, part]; exact within)
  rw [ofBytes_eq, whole, cut]

/-- A stream that holds less than it reports is decoded like every file that it may be a part of,
or not at all. -/
theorem outcome_of_shortage {s : ByteStream} {file : Bytes} (held : s.contents <+: file)
    (reports : s.size = file.length) :
    (outcome (decode s) = ofBytes file ∨ EndsEarly (outcome (decode s))) ∧
    ∀ metrics, ofBytes file = .ok metrics →
      (EndsEarly (outcome (decode s)) ↔ s.contents.length < decodedExtent file) := by
  obtain ⟨extent, -, decoded, delivers⟩ := decode_delivers file.length file
  have delivered := delivers s reports held
  rw [ofBytes_eq_verdict]
  by_cases reached : extent ≤ s.contents.length
  · have same := delivered.outcome_eq reached
    refine ⟨.inl same, ?_⟩
    intro metrics accepted
    rw [decoded (firstFault?_of_verdict accepted)] at reached
    rw [same, accepted]
    constructor
    · rintro ⟨d, rejected, -⟩
      cases rejected
    · intro missing
      omega
  · have early := delivered.endsEarly reached
    refine ⟨.inr early, ?_⟩
    intro metrics accepted
    rw [decoded (firstFault?_of_verdict accepted)] at reached
    exact iff_of_true early (Nat.lt_of_not_le reached)

/-- Decoding ends where the tables begin that are not decoded. -/
theorem offset_of_decode {s t : ByteStream} {file : Bytes} {metrics : FontMetrics}
    (held : s.contents <+: file) (ran : decode s = .ok metrics t) :
    t.offset = decodedExtent file := by
  obtain ⟨extent, -, decoded, delivers⟩ := decode_delivers s.size file
  have delivered := delivers s rfl held
  rw [ran] at delivered
  obtain ⟨accepted, stands⟩ := delivered.of_ok
  rw [stands]
  exact decoded (firstFault?_of_verdict accepted)

/-- Decoding a stream that holds `bs` and reports any size, from any position and in any byte order.
A stream that holds too much gives what its reported part gives. One that holds too little gives
what every file of the reported size with this beginning gives or ends early, and when such a file
is accepted it ends early exactly if bytes before the tables that are not decoded are missing. -/
theorem decode_of_claiming (bs : Bytes) (size offset : Nat) (order : ByteOrder) :
    let run := decode { bytes := bs.toArray, size, offset, order }
    outcome run = outcome (decode (.claiming bs size)) ∧
    (streamAfter run).order = .big ∧
    (size ≤ bs.length → outcome run = ofBytes (bs.take size) ∧
      ∀ d, outcome run = .error d → d.kind ≠ .internal) ∧
    (bs.length < size → ∀ file, bs <+: file → file.length = size →
      (outcome run = ofBytes file ∨ EndsEarly (outcome run)) ∧
      ∀ metrics, ofBytes file = .ok metrics →
        (EndsEarly (outcome run) ↔ bs.length < decodedExtent file)) ∧
    ∀ metrics t, run = .ok metrics t → ∀ file, bs <+: file → t.offset = decodedExtent file := by
  intro run
  refine ⟨outcome_decode_congr rfl rfl, ?_, ?_, ?_, ?_⟩
  · obtain ⟨extent, -, -, delivers⟩ := decode_delivers size bs
    exact (delivers _ rfl List.prefix_rfl).order_eq
  · intro surplus
    have same : outcome run = ofBytes (bs.take size) := outcome_of_surplus _ surplus
    refine ⟨same, ?_⟩
    intro d rejected internal
    rw [same, ofBytes_eq_verdict] at rejected
    rw [kind_of_verdict rejected] at internal
    cases internal
  · intro _ file held length
    exact outcome_of_shortage (s := ⟨bs.toArray, size, offset, order⟩) held length.symm
  · intro metrics t ran file held
    exact offset_of_decode (s := ⟨bs.toArray, size, offset, order⟩) held ran

end FontMetrics

end TypesetKernel
