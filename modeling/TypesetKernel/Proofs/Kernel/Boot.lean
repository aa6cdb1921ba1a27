import TypesetKernel.Proofs.CommandTable.Meanings
import TypesetKernel.Proofs.Kernel.Requests

/-!
The start of a run. All fonts come from one source, which gives the same bytes for a file each time,
so the metrics that the table keeps are those that reading the file again would give
(`FontTable.Agrees`). A kernel starts unless one of the fonts cannot be read or decoded, and then
the first such font is to blame; otherwise its fonts are those of the configuration and its commands
select them (`boot_spec`).
-/

namespace TypesetKernel

variable {hash : NameHash} {N : Type} {source : FontSource}

/-! ## Fonts of one source -/

namespace FontTable

variable {t t' : FontTable} {request : FontRequest} {i : Nat}

/-- What the table keeps of a file is what the source gives. -/
def Agrees (t : FontTable) (source : FontSource) : Prop :=
  ∀ (request : FontRequest) metrics, t.decoded.lookup request.file = some metrics →
    (FontLoad.mk source request).decoding = .ok metrics

theorem Agrees.empty : FontTable.empty.Agrees source := fun _ _ known => by cases known

/-- It makes no difference whether a file was decoded before. -/
theorem Agrees.metricsOf_eq (agrees : t.Agrees source) (request : FontRequest) :
    t.metricsOf source request.file = (FontLoad.mk source request).decoding := by
  rw [metricsOf]
  cases known : t.decoded.lookup request.file with
  | some metrics => exact (agrees request metrics known).symm
  | none => rfl

theorem Agrees.load (agrees : t.Agrees source) (done : t.load source request = .ok (i, t')) :
    t'.Agrees source := by
  intro other metrics known
  obtain ⟨-, settled, decoded, -, cache⟩ := load_eq_ok done
  rw [cache] at known
  split at known
  case isTrue same =>
    cases known
    rw [agrees.metricsOf_eq] at decoded
    rw [← decoded, FontLoad.decoding, FontLoad.decoding, same]
  case isFalse => exact agrees other metrics known

end FontTable

/-- The font is what loading gives for the request. -/
structure Font.Fulfils (source : FontSource) (request : FontRequest) (font : Font) : Prop where
  requested : font.toFontRequest = request
  decoded : (FontLoad.mk source request).decoding = .ok font.metrics

/-- The file can be read and decoded. -/
def FontSource.Provides (source : FontSource) (file : String) : Prop :=
  ∃ bs metrics, source.read file = .ok bs ∧ FontMetrics.ofBytes bs = .ok metrics

theorem FontSource.provides_iff {request : FontRequest} :
    source.Provides request.file ↔
      ∃ metrics, (FontLoad.mk source request).decoding = .ok metrics := by
  rw [Provides, exists_comm]
  exact exists_congr fun metrics => (FontLoad.decoding_eq_ok_iff (l := ⟨source, request⟩)).symm

/-- The font is the first in a row that cannot be read or decoded, for this reason. -/
structure FirstFault (source : FontSource) (requests : List FontRequest) (request : FontRequest)
    (cause : Diagnostic) : Prop where
  first : ∃ before later, requests = before ++ request :: later ∧
    ∀ earlier ∈ before, source.Provides earlier.file
  failed : (FontLoad.mk source request).decoding = .error cause

theorem FirstFault.not_provides {requests : List FontRequest} {request : FontRequest}
    {cause : Diagnostic} (fault : FirstFault source requests request cause) :
    request ∈ requests ∧ ¬ source.Provides request.file := by
  obtain ⟨before, later, split, -⟩ := fault.first
  refine ⟨by simp [split], ?_⟩
  rw [FontSource.provides_iff, fault.failed]
  rintro ⟨metrics, decoded⟩
  cases decoded

theorem provides_or_firstFault (source : FontSource) (requests : List FontRequest) :
    (∀ request ∈ requests, source.Provides request.file) ∨
      ∃ request cause, FirstFault source requests request cause := by
  induction requests with
  | nil => exact .inl (by simp)
  | cons request requests ih =>
    cases decoded : (FontLoad.mk source request).decoding with
    | error cause => exact .inr ⟨request, cause, ⟨[], requests, rfl, by simp⟩, decoded⟩
    | ok metrics =>
      have provided := FontSource.provides_iff.mpr ⟨metrics, decoded⟩
      rcases ih with sound | ⟨faulty, cause, ⟨before, later, rfl, sound⟩, failed⟩
      · exact .inl (List.forall_mem_cons.mpr ⟨provided, sound⟩)
      · exact .inr ⟨faulty, cause,
          ⟨request :: before, later, rfl, List.forall_mem_cons.mpr ⟨provided, sound⟩⟩, failed⟩

namespace Kernel

variable {k : Kernel hash N} {request : FontRequest} {requests : List FontRequest}
  {cause : Diagnostic}

/-! ## Loading the fonts -/

/-- The commands that select fonts, given the index of the first. -/
def selectors (first : Nat) (requests : List FontRequest) : List Command :=
  (requests.zipIdx first).map fun (request, i) => ⟨request.name, .setFont, .ofIndex i⟩

theorem loadFont_of_error (agrees : k.fonts.Agrees source)
    (failed : (FontLoad.mk source request).decoding = .error cause) :
    k.loadFont source request = .error (.fontLoad request.file request.name cause) := by
  have refused : k.fonts.load source request = .error cause := by
    rw [FontTable.load, agrees.metricsOf_eq, failed]
  rw [loadFont, refused]

/-- What loading some fonts, one after the other, makes of a kernel. -/
structure Gains (source : FontSource) (requests : List FontRequest) (k next : Kernel hash N) :
    Prop where
  agrees : next.fonts.Agrees source
  fonts : ∃ fonts, next.fonts.loaded.toList = k.fonts.loaded.toList ++ fonts ∧
    List.Forall₂ (Font.Fulfils source) requests fonts
  size : next.fonts.size = k.fonts.size + requests.length
  commands : next.commands = (selectors k.fonts.size requests).foldl CommandTable.set k.commands
  catcodes : next.catcodes = k.catcodes
  render : next.render = k.render
  page : next.page = k.page

theorem Gains.refl (agrees : k.fonts.Agrees source) : Gains source [] k k :=
  ⟨agrees, ⟨[], (List.append_nil _).symm, .nil⟩, rfl, rfl, rfl, rfl, rfl⟩

theorem Gains.cons {next last : Kernel hash N} (first : Gains source [request] k next)
    (rest : Gains source requests next last) : Gains source (request :: requests) k last where
  agrees := rest.agrees
  fonts := by
    obtain ⟨new, loaded, fulfils⟩ := first.fonts
    obtain ⟨others, behind, fulfilled⟩ := rest.fonts
    refine ⟨new ++ others, ?_, List.rel_append fulfils fulfilled⟩
    rw [behind, loaded, List.append_assoc]
  size := by
    simp only [rest.size, first.size, List.length_cons, List.length_nil]
    omega
  commands := by
    rw [rest.commands, first.commands, first.size]
    rfl
  catcodes := rest.catcodes.trans first.catcodes
  render := rest.render.trans first.render
  page := rest.page.trans first.page

theorem loadFont_of_provides (agrees : k.fonts.Agrees source)
    (provided : source.Provides request.file) :
    ∃ next, k.loadFont source request = .ok (k.fonts.size, next) ∧
      Gains source [request] k next := by
  obtain ⟨metrics, decoded⟩ := FontSource.provides_iff.mp provided
  obtain ⟨fonts, done⟩ : ∃ fonts, k.fonts.load source request = .ok (k.fonts.size, fonts) := by
    rw [FontTable.load, agrees.metricsOf_eq, decoded]
    exact ⟨_, rfl⟩
  obtain ⟨-, metrics', settled, loaded, -⟩ := FontTable.load_eq_ok done
  rw [agrees.metricsOf_eq] at settled
  refine ⟨{ k with fonts }.define request.name .setFont (.ofIndex k.fonts.size),
    by rw [loadFont, done], ?_⟩
  exact
    { agrees := agrees.load done
      fonts := ⟨[{ request with metrics := metrics' }],
        by rw [← Array.toList_push, ← loaded]; rfl, .cons ⟨rfl, settled⟩ .nil⟩
      size := FontTable.size_load done
      commands := rfl
      catcodes := rfl
      render := rfl
      page := rfl }

theorem loadFonts_of_provides (agrees : k.fonts.Agrees source)
    (sound : ∀ request ∈ requests, source.Provides request.file) :
    ∃ next, k.loadFonts source requests = .ok next ∧ Gains source requests k next := by
  induction requests generalizing k with
  | nil => exact ⟨k, rfl, .refl agrees⟩
  | cons request requests ih =>
    obtain ⟨provided, others⟩ := List.forall_mem_cons.mp sound
    obtain ⟨next, done, first⟩ := loadFont_of_provides agrees provided
    obtain ⟨last, ran, rest⟩ := ih first.agrees others
    refine ⟨last, ?_, first.cons rest⟩
    rw [loadFonts, done]
    exact ran

theorem loadFonts_of_firstFault (agrees : k.fonts.Agrees source)
    (fault : FirstFault source requests request cause) :
    k.loadFonts source requests = .error (.fontLoad request.file request.name cause) := by
  obtain ⟨⟨before, later, rfl, sound⟩, failed⟩ := fault
  induction before generalizing k with
  | nil => rw [List.nil_append, loadFonts, loadFont_of_error agrees failed]
  | cons earlier before ih =>
    obtain ⟨provided, others⟩ := List.forall_mem_cons.mp sound
    obtain ⟨next, done, first⟩ := loadFont_of_provides agrees provided
    rw [List.cons_append, loadFonts, done]
    exact ih first.agrees others

/-! ## The commands -/

theorem map_name_selectors (first : Nat) (requests : List FontRequest) :
    (selectors first requests).map Command.name = requests.map FontRequest.name := by
  rw [selectors, List.map_map]
  conv_rhs => rw [← List.zipIdx_map_fst first requests, List.map_map]
  rfl

theorem selectors_split (first : Nat) (before later : List FontRequest) (request : FontRequest) :
    selectors first (before ++ request :: later) =
      selectors first before ++
        ⟨request.name, .setFont, .ofIndex (first + before.length)⟩ ::
          selectors (first + before.length + 1) later := by
  simp [selectors, List.zipIdx_append, List.zipIdx_cons]

/-- The definitions that the start of a run makes, in order. -/
def bootCommands (config : Config) : List Command :=
  selectors 1 config.builtinFonts ++ [⟨"par", .parEnd, .zero⟩, ⟨"end", .stop, .zero⟩]

theorem map_name_bootCommands (config : Config) :
    (bootCommands config).map Command.name =
      config.builtinFonts.map FontRequest.name ++ ["par", "end"] := by
  rw [bootCommands, List.map_append, map_name_selectors]
  rfl

/-- What the commands are at the start of a run. -/
structure StartingCommands (config : Config) (t : CommandTable hash) : Prop where
  par : t.get? "par" = some ⟨"par", .parEnd, .zero⟩
  stop : t.get? "end" = some ⟨"end", .stop, .zero⟩
  /-- A name that several fonts share selects the last of them. -/
  selects : ∀ before request later, config.builtinFonts = before ++ request :: later →
    (∀ other ∈ later, other.name ≠ request.name) → request.name ≠ "par" → request.name ≠ "end" →
    t.get? request.name = some ⟨request.name, .setFont, .ofIndex (before.length + 1)⟩
  absent : ∀ name, name ≠ "par" → name ≠ "end" →
    (∀ request ∈ config.builtinFonts, request.name ≠ name) → t.get? name = none
  entries : t.entries =
    (insert "par" (insert "end" (config.builtinFonts.map FontRequest.name).toFinset)).card
  capacity : t.capacity = max 1 config.tableSize

theorem startingCommands (hash : NameHash) (config : Config) :
    StartingCommands config
      ((bootCommands config).foldl CommandTable.set
        (.empty config.tableSize : CommandTable hash)) where
  par := by
    apply CommandTable.get?_foldl_set_of_last
    simp
  stop := by
    have split : bootCommands config =
        (selectors 1 config.builtinFonts ++ [⟨"par", .parEnd, .zero⟩]) ++
          ⟨"end", .stop, .zero⟩ :: [] := by simp [bootCommands]
    rw [split]
    apply CommandTable.get?_foldl_set_of_last
    simp
  selects before request later split last notPar notEnd := by
    rw [bootCommands, split, selectors_split, Nat.add_comm 1, List.append_assoc, List.cons_append]
    apply CommandTable.get?_foldl_set_of_last
    rw [List.map_append, map_name_selectors]
    simpa [notPar, notEnd] using last
  absent name notPar notEnd others := by
    rw [CommandTable.get?_foldl_set_of_not_mem, CommandTable.get?_empty]
    rw [map_name_bootCommands]
    simpa [notPar, notEnd] using others
  entries := by
    rw [CommandTable.entries_foldl_set, map_name_bootCommands, List.toFinset_append,
      Finset.union_comm, List.toFinset_cons, List.toFinset_cons, List.toFinset_nil,
      Finset.insert_union, Finset.insert_union, Finset.empty_union]
  capacity := by rw [CommandTable.capacity_foldl_set, CommandTable.capacity_empty]

/-! ## The new kernel -/

/-- What holds of a kernel that was just started. -/
structure Started (config : Config) (source : FontSource) (k : Kernel hash N) : Prop where
  fonts : ∃ fonts, k.fonts.toList = .null :: fonts ∧
    List.Forall₂ (Font.Fulfils source) config.builtinFonts fonts
  current : k.currentFont = if config.builtinFonts = [] then 0 else 1
  commands : StartingCommands config k.commands
  render : k.render = { mode := .vertical }
  catcodes : k.catcodes = .starting
  page : k.page = .starting

theorem boot_of_firstFault {config : Config}
    (fault : FirstFault source config.builtinFonts request cause) :
    (boot config source : Except KernelError (Kernel hash N)) =
      .error (.fontLoad request.file request.name cause) := by
  have failed : (blank config.tableSize : Kernel hash N).loadFonts source config.builtinFonts =
      .error (.fontLoad request.file request.name cause) :=
    loadFonts_of_firstFault FontTable.Agrees.empty fault
  rw [boot, failed]

theorem boot_of_provides {config : Config}
    (sound : ∀ request ∈ config.builtinFonts, source.Provides request.file) :
    ∃ k : Kernel hash N, boot config source = .ok k ∧ Started config source k := by
  let start : Kernel hash N := blank config.tableSize
  obtain ⟨loaded, done, gains⟩ : ∃ loaded, start.loadFonts source config.builtinFonts = .ok loaded ∧
      Gains source config.builtinFonts start loaded :=
    loadFonts_of_provides FontTable.Agrees.empty sound
  refine ⟨_, by rw [boot, done], ?_⟩
  exact
    { fonts := by
        obtain ⟨fonts, added, fulfil⟩ := gains.fonts
        exact ⟨fonts, congrArg (Font.null :: ·) added, fulfil⟩
      current := by simp [List.isEmpty_iff]
      commands := by
        have commands : (bootCommands config).foldl CommandTable.set
              (.empty config.tableSize : CommandTable hash) =
            (loaded.commands.set ⟨"par", .parEnd, .zero⟩).set ⟨"end", .stop, .zero⟩ := by
          rw [gains.commands, bootCommands, List.foldl_append]
          rfl
        have all := startingCommands hash config
        rw [commands] at all
        exact all
      render := by
        change ({ loaded.render with mode := .vertical } : RenderState N) = _
        rw [gains.render]
        rfl
      catcodes := gains.catcodes
      page := gains.page }

/-! ## The start in place -/

/-- Loads fonts given with their places in the configuration; the first one becomes current. -/
def loadFontsInPlace (source : FontSource) :
    List (FontRequest × Nat) → EStateM KernelError (Kernel hash N) Unit
  | [] => return ()
  | (request, place) :: rest => do
    let index ← loadFontInPlace source request
    if place = 0 then
      modify fun k => { k with currentFont := index }
    loadFontsInPlace source rest

def bootInPlace (config : Config) (source : FontSource) :
    EStateM KernelError (Kernel hash N) Unit := do
  loadFontsInPlace source config.builtinFonts.zipIdx
  modify fun k => k.define "par" .parEnd .zero
  modify fun k => k.define "end" .stop .zero
  modify fun k => { k with render := { k.render with mode := .vertical } }

/-- Behind the first place, loading leaves the current font alone. -/
theorem loadFontsInPlace_succ (k : Kernel hash N) (source : FontSource) (requests : List FontRequest)
    (place : Nat) :
    conclude (settle (loadFontsInPlace source (requests.zipIdx (place + 1))) k) =
      (k.loadFonts source requests).map ((), ·) := by
  induction requests generalizing k place with
  | nil => rfl
  | cons request requests ih =>
    rw [List.zipIdx_cons, loadFontsInPlace, settle_bind, realizes_loadFontInPlace source request k]
    cases done : k.loadFont source request with
    | error failure =>
      rw [attempt_of_error done, loadFonts, done]
      rfl
    | ok loaded =>
      rw [attempt_of_ok done, loadFonts, done]
      simp [ih]

theorem loadFont_of_current (k : Kernel hash N) (source : FontSource) (request : FontRequest)
    (current : Nat) :
    { k with currentFont := current }.loadFont source request =
      (k.loadFont source request).map fun (i, next) => (i, { next with currentFont := current }) := by
  cases done : k.fonts.load source request <;> simp [loadFont, done, Except.map, define]

/-- Loading fonts does not depend on the current one. -/
theorem loadFonts_of_current (k : Kernel hash N) (source : FontSource) (requests : List FontRequest)
    (current : Nat) :
    { k with currentFont := current }.loadFonts source requests =
      (k.loadFonts source requests).map fun next => { next with currentFont := current } := by
  induction requests generalizing k with
  | nil => rfl
  | cons request requests ih =>
    rw [loadFonts, loadFonts, loadFont_of_current]
    cases done : k.loadFont source request with
    | error failure => rfl
    | ok loaded => exact ih loaded.2

/-- The first font to be loaded has index 1. -/
theorem conclude_loadFontsInPlace (hash : NameHash) (N : Type) (capacity : Nat)
    (source : FontSource) (requests : List FontRequest) :
    conclude (settle (loadFontsInPlace source requests.zipIdx) (blank capacity : Kernel hash N)) =
      ((blank capacity).loadFonts source requests).map fun next =>
        ((), { next with currentFont := if requests.isEmpty then 0 else 1 }) := by
  cases requests with
  | nil => rfl
  | cons request requests =>
    rw [List.zipIdx_cons, loadFontsInPlace, settle_bind, realizes_loadFontInPlace source request,
      loadFonts]
    cases done : (blank capacity : Kernel hash N).loadFont source request with
    | error failure =>
      rw [attempt_of_error done]
      rfl
    | ok loaded =>
      obtain ⟨index, next⟩ := loaded
      have first : index = 1 := (FontTable.load_eq_ok (loadFont_eq_ok done).1).1
      subst first
      rw [attempt_of_ok done]
      have rest : conclude (settle (loadFontsInPlace source (requests.zipIdx 1))
            { next with currentFont := 1 }) =
          (next.loadFonts source requests).map fun last =>
            ((), { last with currentFont := 1 }) := by
        rw [loadFontsInPlace_succ, loadFonts_of_current]
        cases next.loadFonts source requests <;> rfl
      simpa using rest

/-- Started in place, a run begins like one that is put together in the end. -/
theorem conclude_bootInPlace (config : Config) (source : FontSource) :
    conclude (settle (bootInPlace config source) (blank config.tableSize : Kernel hash N)) =
      (boot config source).map ((), ·) := by
  have loads := conclude_loadFontsInPlace hash N config.tableSize source config.builtinFonts
  rw [bootInPlace, boot, settle_bind]
  cases ended : settle (loadFontsInPlace source config.builtinFonts.zipIdx)
    (blank config.tableSize : Kernel hash N) with
  | mk result next =>
    rw [ended] at loads
    cases done : (blank config.tableSize : Kernel hash N).loadFonts source config.builtinFonts with
    | error failure =>
      rw [done] at loads
      cases result with
      | error cause =>
        cases loads
        rfl
      | ok value => cases loads
    | ok loaded =>
      rw [done] at loads
      cases result with
      | error cause => cases loads
      | ok value =>
        cases loads
        simp [conclude, Except.map, define]

/-- Whatever the hash of names is, a run starts, be it step by step, unless one of the fonts of the
configuration cannot be read or decoded, and then the error names the first such font and the
reason. -/
theorem boot_spec (hash : NameHash) (config : Config) (source : FontSource) :
    conclude (settle (bootInPlace config source) (blank config.tableSize : Kernel hash N)) =
      (boot config source).map ((), ·) ∧
    ((∃ failure, (boot config source : Except KernelError (Kernel hash N)) = .error failure) ↔
      ∃ request ∈ config.builtinFonts, ¬ source.Provides request.file) ∧
    (∀ failure, (boot config source : Except KernelError (Kernel hash N)) = .error failure →
      ∃ request cause, FirstFault source config.builtinFonts request cause ∧
        failure = .fontLoad request.file request.name cause) ∧
    ∀ k : Kernel hash N, boot config source = .ok k → Started config source k := by
  refine ⟨conclude_bootInPlace config source, ?_⟩
  rcases provides_or_firstFault source config.builtinFonts with sound | ⟨request, cause, fault⟩
  · obtain ⟨k, booted, started⟩ : ∃ k : Kernel hash N,
        boot config source = .ok k ∧ Started config source k := boot_of_provides sound
    rw [booted]
    refine ⟨⟨?_, ?_⟩, ?_, ?_⟩
    · rintro ⟨failure, failed⟩
      cases failed
    · rintro ⟨request, member, faulty⟩
      exact absurd (sound request member) faulty
    · intro failure failed
      cases failed
    · intro next same
      cases same
      exact started
  · rw [boot_of_firstFault fault]
    refine ⟨⟨?_, ?_⟩, ?_, ?_⟩
    · rintro -
      exact ⟨request, fault.not_provides⟩
    · rintro -
      exact ⟨_, rfl⟩
    · intro failure same
      cases same
      exact ⟨request, cause, fault, rfl⟩
    · intro k booted
      cases booted

end Kernel

end TypesetKernel
