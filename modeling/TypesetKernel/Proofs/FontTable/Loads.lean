import Mathlib.Data.List.Basic
import Mathlib.Data.List.Induction
import TypesetKernel.FontTable
import TypesetKernel.Proofs.Runs

/-!
Loads of fonts from sources that cannot be relied on. A source may give other bytes each time, or
none at all. A load works on the table in place: it keeps the decoded metrics before there is a font
that has them, so it must be sure to succeed by then. The first load of a file that succeeds settles
the metrics of the file for the whole run, and a load that fails leaves nothing behind
(`serve_loads`).
-/

namespace TypesetKernel

/-! ## One load -/

namespace FontTable

variable {t t' : FontTable} {source : FontSource} {request : FontRequest} {metrics : FontMetrics}
  {i : Nat}

theorem lookup_remember {file : String}
    (found : t.decoded.lookup file = none ∨ t.decoded.lookup file = some metrics)
    (other : String) :
    (t.remember file metrics).decoded.lookup other =
      if other = file then some metrics else t.decoded.lookup other := by
  unfold remember
  rcases found with unknown | known
  · rw [unknown, if_neg (by simp)]
    by_cases same : other = file
    · simp [same]
    · rw [List.lookup_cons, if_neg same, beq_eq_false_iff_ne.mpr same]
  · rw [known, if_pos (by simp)]
    by_cases same : other = file
    · rw [if_pos same, same, known]
    · rw [if_neg same]

/-- A load succeeds with metrics that are known already, or else with those decoded now. -/
theorem metricsOf_eq_ok_iff {file : String} :
    t.metricsOf source file = .ok metrics ↔ t.decoded.lookup file = some metrics ∨
      t.decoded.lookup file = none ∧
        FontMetrics.ofFile (source.locate file) (source.read file) = .ok metrics := by
  unfold metricsOf
  cases found : t.decoded.lookup file with
  | some known => simp
  | none => simp

/-- A load that succeeds adds one font behind the others and settles the metrics of its file. -/
theorem load_eq_ok (done : t.load source request = .ok (i, t')) :
    i = t.size ∧ ∃ metrics, t.metricsOf source request.file = .ok metrics ∧
      t'.loaded = t.loaded.push { request with metrics } ∧
      ∀ file, t'.decoded.lookup file =
        if file = request.file then some metrics else t.decoded.lookup file := by
  unfold load at done
  split at done
  case h_1 => cases done
  case h_2 metrics decoded =>
    cases done
    refine ⟨rfl, metrics, decoded, ?_, fun file => lookup_remember ?_ file⟩
    · unfold remember
      split <;> rfl
    · rcases metricsOf_eq_ok_iff.mp decoded with known | ⟨unknown, -⟩
      · exact .inr known
      · exact .inl unknown

theorem size_load (done : t.load source request = .ok (i, t')) : t'.size = t.size + 1 := by
  obtain ⟨-, metrics, -, loaded, -⟩ := load_eq_ok done
  rw [size, loaded, Array.size_push]
  rfl

theorem lt_size_of_font? {f : Font} (found : t.font? i = some f) : i < t.size := by
  cases i with
  | zero => exact Nat.succ_pos _
  | succ i => exact Nat.succ_lt_succ (Array.getElem?_eq_some_iff.mp found).1

/-- The new font is found at the new index and every other font where it was. -/
theorem font?_load (done : t.load source request = .ok (i, t')) :
    ∃ metrics, t.metricsOf source request.file = .ok metrics ∧ ∀ j, t'.font? j =
      if j = t.size then some { request with metrics } else t.font? j := by
  obtain ⟨-, metrics, decoded, loaded, -⟩ := load_eq_ok done
  refine ⟨metrics, decoded, fun j => ?_⟩
  cases j with
  | zero => rfl
  | succ j =>
    rw [font?, loaded, Array.getElem?_push, size]
    simp only [Nat.add_right_cancel_iff, font?]

/-! ## One load in place -/

/-- Reads and decodes a file and keeps its metrics. -/
def decodeInPlace (source : FontSource) (file : String) :
    EStateM Diagnostic FontTable FontMetrics := do
  match FontMetrics.ofFile (source.locate file) (source.read file) with
  | .ok metrics =>
    modify fun t => { t with decoded := (file, metrics) :: t.decoded }
    return metrics
  | .error diagnostic => throw diagnostic

def loadInPlace (source : FontSource) (request : FontRequest) :
    EStateM Diagnostic FontTable Nat := do
  let metrics ←
    match (← get).decoded.lookup request.file with
    | some metrics => pure metrics
    | none => decodeInPlace source request.file
  let index := (← get).size
  modify fun t => { t with loaded := t.loaded.push { request with metrics } }
  return index

theorem realizes_loadInPlace (source : FontSource) (request : FontRequest) :
    Realizes (loadInPlace source request) fun t => t.load source request := by
  intro t
  cases known : t.decoded.lookup request.file with
  | some metrics => simp [loadInPlace, known, attempt, load, metricsOf, remember, Except.map]
  | none =>
    cases fresh : FontMetrics.ofFile (source.locate request.file) (source.read request.file) with
    | error diagnostic =>
      simp [loadInPlace, decodeInPlace, known, fresh, attempt, load, metricsOf]
    | ok metrics =>
      simp [loadInPlace, decodeInPlace, known, fresh, attempt, load, metricsOf, remember, size,
        Except.map]

end FontTable

/-! ## Runs of loads -/

/-- A font that is asked for, and the source it is asked of, as it is at that moment. -/
structure FontLoad where
  source : FontSource
  request : FontRequest

namespace FontLoad

/-- What reading and decoding the file gives at that moment. -/
def decoding (l : FontLoad) : Except Diagnostic FontMetrics :=
  FontMetrics.ofFile (l.source.locate l.request.file) (l.source.read l.request.file)

/-- The metrics that the first of the loads to read and decode a file finds in it. -/
def firstDecoding? (loads : List FontLoad) (file : String) : Option FontMetrics :=
  loads.findSome? fun l => if l.request.file = file then l.decoding.toOption else none

theorem decoding_eq_ok_iff {l : FontLoad} {metrics : FontMetrics} :
    l.decoding = .ok metrics ↔
      ∃ bs, l.source.read l.request.file = .ok bs ∧ FontMetrics.ofBytes bs = .ok metrics := by
  unfold decoding FontMetrics.ofFile
  cases l.source.read l.request.file with
  | ok bs => simp
  | error failure => simp

theorem firstDecoding?_concat (before : List FontLoad) (l : FontLoad) (file : String) :
    firstDecoding? (before ++ [l]) file = (firstDecoding? before file).or
      (if l.request.file = file then l.decoding.toOption else none) := by
  rw [firstDecoding?, List.findSome?_append, firstDecoding?]
  congr 1
  rw [List.findSome?_cons, List.findSome?_nil]
  split <;> rename_i found <;> exact found.symm

end FontLoad

namespace FontTable

/-- Loads a font in place and gives what is left of the table also if that fails. -/
def respond (t : FontTable) (l : FontLoad) : Except Diagnostic Nat × FontTable :=
  settle (loadInPlace l.source l.request) t

/-- The table after some loads, starting without fonts. -/
def after (loads : List FontLoad) : FontTable := (serve respond .empty loads).2

/-- What a load answers after some others. -/
def answer (before : List FontLoad) (l : FontLoad) : Except Diagnostic Nat :=
  ((after before).respond l).1

/-- Some earlier load of the file succeeded. -/
def Known (before : List FontLoad) (file : String) : Prop :=
  ∃ first l rest i, before = first ++ l :: rest ∧ l.request.file = file ∧ answer first l = .ok i

variable {t : FontTable} {l : FontLoad} {before : List FontLoad} {file : String} {i : Nat}
  {diagnostic : Diagnostic}

theorem after_concat (before : List FontLoad) (l : FontLoad) :
    after (before ++ [l]) = ((after before).respond l).2 := by
  rw [after, serve_append]
  rfl

theorem respond_eq_attempt (t : FontTable) (l : FontLoad) :
    t.respond l = attempt (fun t => t.load l.source l.request) t :=
  realizes_loadInPlace l.source l.request t

theorem respond_eq_ok (answered : (t.respond l).1 = .ok i) :
    t.load l.source l.request = .ok (i, (t.respond l).2) := by
  rw [respond_eq_attempt, attempt] at answered ⊢
  split at answered
  case h_1 done => cases answered; exact done
  case h_2 => cases answered

/-- A load fails only if the file is not known yet and cannot be read or decoded now. -/
theorem respond_eq_error (answered : (t.respond l).1 = .error diagnostic) :
    (t.respond l).2 = t ∧ t.decoded.lookup l.request.file = none ∧
      l.decoding = .error diagnostic := by
  rw [respond_eq_attempt, attempt] at answered ⊢
  split at answered
  case h_1 => cases answered
  case h_2 failed =>
    cases answered
    refine ⟨rfl, ?_⟩
    unfold load metricsOf at failed
    split at failed
    case h_1 cause =>
      cases failed
      split at cause
      case h_1 => cases cause
      case h_2 unknown => exact ⟨unknown, cause⟩
    case h_2 => cases failed

/-- What the table keeps is what the loads so far settle. -/
structure Follows (loads : List FontLoad) (t : FontTable) : Prop where
  decoded : ∀ file, t.decoded.lookup file = FontLoad.firstDecoding? loads file
  metrics : ∀ f ∈ t.loaded, FontLoad.firstDecoding? loads f.file = some f.metrics

namespace Follows

theorem initial : Follows [] FontTable.empty where
  decoded := fun _ => rfl
  metrics := fun f member => absurd member (Array.not_mem_empty f)

theorem respond (h : Follows before t) (l : FontLoad) :
    Follows (before ++ [l]) (t.respond l).2 := by
  cases answered : (t.respond l).1 with
  | error diagnostic =>
    obtain ⟨same, -, failed⟩ := respond_eq_error answered
    have nothing : ∀ file, FontLoad.firstDecoding? (before ++ [l]) file =
        FontLoad.firstDecoding? before file := by
      intro file
      rw [FontLoad.firstDecoding?_concat, failed]
      simp [Except.toOption]
    rw [same]
    exact ⟨fun file => (h.decoded file).trans (nothing file).symm,
      fun f member => (nothing f.file).trans (h.metrics f member)⟩
  | ok i =>
    obtain ⟨-, metrics, source, loaded, decoded⟩ := load_eq_ok (respond_eq_ok answered)
    have settled : FontLoad.firstDecoding? (before ++ [l]) l.request.file = some metrics := by
      rw [FontLoad.firstDecoding?_concat, if_pos rfl, ← h.decoded]
      rcases metricsOf_eq_ok_iff.mp source with known | ⟨unknown, fresh⟩
      · rw [known, Option.some_or]
      · rw [unknown, Option.none_or, FontLoad.decoding, fresh]
        rfl
    have kept : ∀ file metrics, FontLoad.firstDecoding? before file = some metrics →
        FontLoad.firstDecoding? (before ++ [l]) file = some metrics := by
      intro file metrics found
      rw [FontLoad.firstDecoding?_concat, found, Option.some_or]
    refine ⟨fun file => ?_, fun f member => ?_⟩
    · rw [decoded]
      split
      case isTrue same => rw [same, settled]
      case isFalse different =>
        rw [FontLoad.firstDecoding?_concat, if_neg (Ne.symm different), Option.or_none,
          h.decoded]
    · rw [loaded] at member
      rcases Array.mem_push.mp member with old | rfl
      · exact kept f.file f.metrics (h.metrics f old)
      · exact settled

end Follows

theorem follows_after (loads : List FontLoad) : Follows loads (after loads) := by
  induction loads using List.reverseRecOn with
  | nil => exact .initial
  | append_singleton before l ih =>
    rw [after_concat]
    exact ih.respond l

/-- Whether a load succeeds can be told from the loads before it and from its source. -/
theorem answer_eq_ok_iff :
    (∃ i, answer before l = .ok i) ↔
      (FontLoad.firstDecoding? before l.request.file).isSome ∨
        ∃ metrics, l.decoding = .ok metrics := by
  rw [← (follows_after before).decoded]
  constructor
  · rintro ⟨i, answered⟩
    obtain ⟨-, metrics, source, -, -⟩ := load_eq_ok (respond_eq_ok answered)
    rcases metricsOf_eq_ok_iff.mp source with known | ⟨-, fresh⟩
    · exact .inl (by rw [known]; rfl)
    · exact .inr ⟨metrics, fresh⟩
  · intro ready
    cases answered : answer before l with
    | ok i => exact ⟨i, rfl⟩
    | error diagnostic =>
      obtain ⟨-, unknown, failed⟩ := respond_eq_error answered
      rcases ready with known | ⟨metrics, fresh⟩
      · rw [unknown] at known
        cases known
      · rw [failed] at fresh
        cases fresh

theorem known_concat :
    Known (before ++ [l]) file ↔
      Known before file ∨ l.request.file = file ∧ ∃ i, answer before l = .ok i := by
  constructor
  · rintro ⟨first, l', rest, i, split, same, answered⟩
    rcases List.eq_nil_or_concat' rest with rfl | ⟨rest, last, rfl⟩
    · obtain ⟨rfl, same'⟩ := List.append_inj' split rfl
      cases same'
      exact .inr ⟨same, i, answered⟩
    · rw [← List.cons_append, ← List.append_assoc] at split
      obtain ⟨rfl, -⟩ := List.append_inj' split rfl
      exact .inl ⟨first, l', rest, i, rfl, same, answered⟩
  · rintro (⟨first, l', rest, i, rfl, same, answered⟩ | ⟨same, i, answered⟩)
    · exact ⟨first, l', rest ++ [l], i, by simp, same, answered⟩
    · exact ⟨before, l, [], i, rfl, same, answered⟩

/-- A file is known once some load could read and decode it. -/
theorem known_iff : Known before file ↔ (FontLoad.firstDecoding? before file).isSome := by
  induction before using List.reverseRecOn with
  | nil => simp [Known, FontLoad.firstDecoding?]
  | append_singleton before l ih =>
    rw [known_concat, ih, answer_eq_ok_iff, FontLoad.firstDecoding?_concat]
    by_cases same : l.request.file = file
    · subst same
      cases decoded : l.decoding with
      | ok metrics => simp [Except.toOption]
      | error diagnostic => simp [Except.toOption]
    · simp [same]

/-- The metrics are what the first successful load of the file read and decoded. -/
def SettledBy (loads : List FontLoad) (file : String) (metrics : FontMetrics) : Prop :=
  ∃ before l later, loads = before ++ l :: later ∧ l.request.file = file ∧ ¬ Known before file ∧
    (∃ i, answer before l = .ok i) ∧
    ∃ bs, l.source.read file = .ok bs ∧ FontMetrics.ofBytes bs = .ok metrics

theorem settledBy_of_firstDecoding? {loads : List FontLoad} {metrics : FontMetrics}
    (found : FontLoad.firstDecoding? loads file = some metrics) :
    SettledBy loads file metrics := by
  obtain ⟨before, l, later, split, decoded, earlier⟩ := List.findSome?_eq_some_iff.mp found
  rw [Option.ite_none_right_eq_some] at decoded
  obtain ⟨rfl, decoded⟩ := decoded
  have fresh : l.decoding = .ok metrics := by
    cases decoding : l.decoding with
    | ok metrics' =>
      rw [decoding] at decoded
      cases decoded
      rfl
    | error diagnostic =>
      rw [decoding] at decoded
      cases decoded
  have unknown : ¬ Known before l.request.file := by
    rw [known_iff, FontLoad.firstDecoding?, List.findSome?_eq_none_iff.mpr earlier]
    simp
  exact ⟨before, l, later, split, rfl, unknown, answer_eq_ok_iff.mpr (.inr ⟨metrics, fresh⟩),
    FontLoad.decoding_eq_ok_iff.mp fresh⟩

theorem font?_respond {f : Font} (found : t.font? i = some f) (l : FontLoad) :
    (t.respond l).2.font? i = some f := by
  cases answered : (t.respond l).1 with
  | error diagnostic => rwa [(respond_eq_error answered).1]
  | ok index =>
    obtain ⟨metrics, -, fonts⟩ := font?_load (respond_eq_ok answered)
    rw [fonts, if_neg (Nat.ne_of_lt (lt_size_of_font? found)), found]

/-- A font stays what it is, whatever is loaded later. -/
theorem font?_after {f : Font} (found : (after before).font? i = some f) (later : List FontLoad) :
    (after (before ++ later)).font? i = some f := by
  induction later using List.reverseRecOn with
  | nil => rwa [List.append_nil]
  | append_singleton later l ih =>
    rw [← List.append_assoc, after_concat]
    exact font?_respond ih l

/-- Every load that succeeds adds one font. -/
theorem size_serve (t : FontTable) (loads : List FontLoad) :
    (serve respond t loads).2.size =
      t.size + (serve respond t loads).1.countP fun answer => answer.isOk := by
  induction loads generalizing t with
  | nil => rfl
  | cons l loads ih =>
    rw [serve, ih, List.countP_cons]
    cases answered : (t.respond l).1 with
    | error diagnostic =>
      rw [(respond_eq_error answered).1]
      rfl
    | ok i =>
      rw [size_load (respond_eq_ok answered)]
      simp only [Except.isOk, Except.toBool, if_true]
      omega

/-- What holds of every load of a run, between the loads before it and those behind it. -/
structure LoadLaw (before : List FontLoad) (l : FontLoad) (later : List FontLoad) : Prop where
  succeeds_iff : (∃ i, answer before l = .ok i) ↔ Known before l.request.file ∨
    ∃ bs metrics, l.source.read l.request.file = .ok bs ∧ FontMetrics.ofBytes bs = .ok metrics
  /-- The new font is the last one and is there for the rest of the run. -/
  added : ∀ i, answer before l = .ok i → i = (after before).size ∧ ∃ metrics,
    (after (before ++ [l])).font? i = some { l.request with metrics } ∧
    (after (before ++ l :: later)).font? i = some { l.request with metrics }
  kept : ∀ i f, (after before).font? i = some f → (after (before ++ l :: later)).font? i = some f
  cause : ∀ diagnostic, answer before l = .error diagnostic →
    (∃ failure, l.source.read l.request.file = .error failure ∧ diagnostic.kind = .reading ∧
      diagnostic.check = .fileUnreadable) ∨
    ∃ bs, l.source.read l.request.file = .ok bs ∧ FontMetrics.ofBytes bs = .error diagnostic
  /-- After a load that failed, everything goes on as if there had been no such load. -/
  unnoticed : ∀ diagnostic, answer before l = .error diagnostic →
    after (before ++ [l]) = after before ∧
    after (before ++ l :: later) = after (before ++ later) ∧
    ∀ next, answer (before ++ l :: later) next = answer (before ++ later) next

theorem after_append (before later : List FontLoad) :
    after (before ++ later) = (serve respond (after before) later).2 := by
  rw [after, serve_append]
  rfl

theorem cause_of_error (failed : l.decoding = .error diagnostic) :
    (∃ failure, l.source.read l.request.file = .error failure ∧ diagnostic.kind = .reading ∧
      diagnostic.check = .fileUnreadable) ∨
    ∃ bs, l.source.read l.request.file = .ok bs ∧ FontMetrics.ofBytes bs = .error diagnostic := by
  unfold FontLoad.decoding FontMetrics.ofFile at failed
  split at failed
  case h_1 bs read => exact .inr ⟨bs, read, failed⟩
  case h_2 failure read =>
    cases failed
    exact .inl ⟨failure, read, rfl, rfl⟩

theorem loadLaw (before : List FontLoad) (l : FontLoad) (later : List FontLoad) :
    LoadLaw before l later where
  succeeds_iff := by
    rw [answer_eq_ok_iff, known_iff, exists_comm]
    simp only [FontLoad.decoding_eq_ok_iff]
  added i answered := by
    have done := respond_eq_ok answered
    obtain ⟨metrics, -, fonts⟩ := font?_load done
    obtain ⟨index, -⟩ := load_eq_ok done
    have new : (after (before ++ [l])).font? i = some { l.request with metrics } := by
      rw [after_concat, fonts, if_pos index]
    have still := font?_after new later
    rw [List.append_assoc, List.singleton_append] at still
    exact ⟨index, metrics, new, still⟩
  kept i f found := font?_after found (l :: later)
  cause diagnostic answered := cause_of_error (respond_eq_error answered).2.2
  unnoticed diagnostic answered := by
    have same : after (before ++ [l]) = after before := by
      rw [after_concat]
      exact (respond_eq_error answered).1
    have onward : after (before ++ l :: later) = after (before ++ later) := by
      rw [← List.singleton_append, ← List.append_assoc, after_append, same, ← after_append]
    exact ⟨same, onward, fun next => by rw [answer, onward, answer]⟩

/-- In every run of loads, each done in place, font 0 is the null font and every load that succeeds
adds one font, for good. The fonts loaded from one file share the metrics that the first successful
load of the file found, and each load obeys the law of loads. -/
theorem serve_loads (loads : List FontLoad) :
    (∀ (t : FontTable) (l : FontLoad),
      t.respond l = attempt (fun t => t.load l.source l.request) t) ∧
      (after loads).font? 0 = some .null ∧
      (after loads).size =
        1 + (serve respond .empty loads).1.countP (fun answer => answer.isOk) ∧
      (∀ i f, 1 ≤ i → (after loads).font? i = some f → SettledBy loads f.file f.metrics) ∧
      (∀ i j f g, 1 ≤ i → 1 ≤ j → (after loads).font? i = some f → (after loads).font? j = some g →
        f.file = g.file → f.metrics = g.metrics) ∧
      ∀ before l later, loads = before ++ l :: later → LoadLaw before l later := by
  have follows := follows_after loads
  have settled : ∀ i f, 1 ≤ i → (after loads).font? i = some f →
      FontLoad.firstDecoding? loads f.file = some f.metrics := by
    intro i f positive found
    obtain ⟨i, rfl⟩ := Nat.exists_eq_add_of_le' positive
    exact follows.metrics f (Array.mem_of_getElem? found)
  refine ⟨respond_eq_attempt, rfl, size_serve .empty loads, ?_, ?_,
    fun before l later _ => loadLaw before l later⟩
  · intro i f positive found
    exact settledBy_of_firstDecoding? (settled i f positive found)
  · intro i j f g positive positive' found found' same
    have first := settled i f positive found
    rw [same, settled j g positive' found', Option.some.injEq] at first
    exact first.symm

end FontTable

end TypesetKernel
