import TypesetKernel.Kernel
import TypesetKernel.Proofs.FontTable.Loads
import TypesetKernel.Proofs.RenderState.Requests

/-!
Runs of a kernel. A request that fails leaves the kernel as it is. Starting a run is itself a run:
loading the fonts of the configuration, defining the two commands that every kernel knows, and
selecting a font (`after_bootRequests`).

The operations can also be done in place, in the order in which the changes are made: loading a font
defines the name of the font only after the font is in the table. In the end they come to the same
as those that give a new kernel only if they succeed (`respond_snd`). So a request that fails leaves
nothing behind, and the rest of a run cannot tell that it was made (`failures_invisible`).
-/

namespace TypesetKernel

inductive KernelRequest (N : Type) where
  | load (source : FontSource) (request : FontRequest)
  | select (index : Nat)
  | define (name : String) (code : CategoryCode) (payload : Word)
  | setCategory (point : Nat) (code : CategoryCode)
  | render (request : Request N)

namespace Kernel

variable {hash : NameHash} {N : Type} {k k' : Kernel hash N} {source : FontSource}
  {request : FontRequest} {i : Nat}

def perform (k : Kernel hash N) : KernelRequest N → Kernel hash N
  | .load source request =>
    match k.loadFont source request with
    | .ok (_, k') => k'
    | .error _ => k
  | .select index =>
    match k.selectFont index with
    | .ok k' => k'
    | .error _ => k
  | .define name code payload => k.define name code payload
  | .setCategory point code => { k with catcodes := (k.catcodes.set? point code).getD k.catcodes }
  | .render request =>
    match k.render.perform request with
    | .ok render => { k with render }
    | .error _ => k

def after (k : Kernel hash N) (requests : List (KernelRequest N)) : Kernel hash N :=
  requests.foldl perform k

theorem after_append (k : Kernel hash N) (before later : List (KernelRequest N)) :
    k.after (before ++ later) = (k.after before).after later := List.foldl_append

theorem after_concat (k : Kernel hash N) (before : List (KernelRequest N))
    (request : KernelRequest N) :
    k.after (before ++ [request]) = (k.after before).perform request := k.after_append _ _

/-- Loading a font adds it to the table, defines its name and selects no other font. -/
theorem loadFont_eq_ok (done : k.loadFont source request = .ok (i, k')) :
    k.fonts.load source request = .ok (i, k'.fonts) ∧
      k'.commands = k.commands.set ⟨request.name, .setFont, .ofIndex i⟩ ∧
      k'.currentFont = k.currentFont := by
  unfold loadFont at done
  split at done
  case h_1 => cases done
  case h_2 loaded =>
    cases done
    exact ⟨loaded, rfl, rfl⟩

/-- A request adds one font at most. -/
theorem size_fonts_perform_le (k : Kernel hash N) (request : KernelRequest N) :
    (k.perform request).fonts.size ≤ k.fonts.size + 1 := by
  cases request with
  | load source request =>
    cases done : k.loadFont source request with
    | ok loaded =>
      simp only [perform, done]
      exact Nat.le_of_eq (FontTable.size_load (loadFont_eq_ok done).1)
    | error failure =>
      simp only [perform, done]
      exact Nat.le_succ _
  | select index =>
    simp only [perform, selectFont]
    by_cases bound : index < k.fonts.size <;> simp [bound]
  | define name code payload => exact Nat.le_succ _
  | setCategory point code => exact Nat.le_succ _
  | render request =>
    simp only [perform]
    split <;> exact Nat.le_succ _

theorem size_fonts_after_le (k : Kernel hash N) (requests : List (KernelRequest N)) :
    (k.after requests).fonts.size ≤ k.fonts.size + requests.length := by
  induction requests generalizing k with
  | nil => exact Nat.le_refl _
  | cons request requests ih =>
    have first := k.size_fonts_perform_le request
    have rest := ih (k.perform request)
    rw [List.length_cons]
    change ((k.perform request).after requests).fonts.size ≤ _
    omega

/-! ## Starting a run -/

/-- What starting a run asks of the kernel. -/
def bootRequests (config : Config) (source : FontSource) : List (KernelRequest N) :=
  config.builtinFonts.map (.load source) ++
    [.define "par" .parEnd .zero, .define "end" .stop .zero, .render (.setMode .vertical),
      .select (if config.builtinFonts.isEmpty then 0 else 1)]

theorem after_loads {requests : List FontRequest} (loaded : k.loadFonts source requests = .ok k') :
    k.after (requests.map (.load source)) = k' ∧
      k'.fonts.size = k.fonts.size + requests.length := by
  induction requests generalizing k with
  | nil =>
    cases loaded
    exact ⟨rfl, rfl⟩
  | cons request requests ih =>
    unfold loadFonts at loaded
    split at loaded
    case h_1 => cases loaded
    case h_2 index next done =>
      obtain ⟨ran, size⟩ := ih loaded
      have grown := FontTable.size_load (loadFont_eq_ok done).1
      refine ⟨?_, ?_⟩
      · rw [List.map_cons, ← ran]
        simp only [Kernel.after, List.foldl_cons, perform, done]
      · rw [size, grown, List.length_cons]
        omega

theorem size_fonts_boot {config : Config} (booted : boot config source = .ok k) :
    k.fonts.size = 1 + config.builtinFonts.length := by
  unfold boot at booted
  split at booted
  case h_1 => cases booted
  case h_2 loaded done =>
    cases booted
    exact (after_loads done).2

theorem after_bootRequests {config : Config} (booted : boot config source = .ok k) :
    (blank config.tableSize).after (bootRequests config source) = k := by
  unfold boot at booted
  split at booted
  case h_1 => cases booted
  case h_2 loaded done =>
    obtain ⟨ran, size⟩ := after_loads done
    have enough : (if config.builtinFonts.isEmpty then 0 else 1) < loaded.fonts.size := by
      rw [size]
      cases config.builtinFonts with
      | nil => exact Nat.succ_pos _
      | cons request requests => exact Nat.lt_add_of_pos_right (Nat.succ_pos _)
    cases booted
    rw [bootRequests, after_append, ran]
    simp only [Kernel.after, List.foldl_cons, List.foldl_nil, perform, RenderState.perform,
      selectFont, define, if_pos enough]

end Kernel

/-! ## In place -/

variable {hash : NameHash} {N ε : Type} {source : FontSource} {request : FontRequest}

/-- What a request to a kernel answers. -/
inductive KernelAnswer (N : Type) where
  | loaded (result : Except KernelError Nat)
  | selected (result : Except KernelError Unit)
  | defined
  /-- Whether the category of the code point can be changed. -/
  | categorised (possible : Bool)
  | rendered (result : Except AppendFailure (RenderAnswer N))
  deriving DecidableEq

/-- The answers of requests that failed. -/
def KernelAnswer.failed : KernelAnswer N → Bool
  | .loaded (.error _) | .selected (.error _) | .categorised false => true
  | .rendered result => RenderAnswer.failed result
  | _ => false

namespace Kernel

variable {k : Kernel hash N}

/-! ## Operations -/

def loadFontInPlace (source : FontSource) (request : FontRequest) :
    EStateM KernelError (Kernel hash N) Nat := do
  let index ← onPart fonts (fun k fonts => { k with fonts }) (.fontLoad request.file request.name)
    (FontTable.loadInPlace source request)
  modify fun k => k.define request.name .setFont (.ofIndex index)
  return index

def selectFontInPlace (index : Nat) : EStateM KernelError (Kernel hash N) Unit := do
  let size := (← get).fonts.size
  unless index < size do
    throw (.fontIndex index size)
  modify fun k => { k with currentFont := index }

theorem realizes_loadFontInPlace (source : FontSource) (request : FontRequest) :
    Realizes (loadFontInPlace source request) fun k : Kernel hash N =>
      k.loadFont source request := by
  intro k
  have fonts := FontTable.realizes_loadInPlace source request k.fonts
  cases done : k.fonts.load source request with
  | error cause =>
    rw [attempt_of_error done] at fonts
    simp [loadFontInPlace, fonts, attempt, loadFont, done, Except.mapError]
  | ok result =>
    rw [attempt_of_ok done] at fonts
    simp [loadFontInPlace, fonts, attempt, loadFont, done, Except.mapError, Except.map]

theorem realizes_selectFontInPlace (index : Nat) :
    Realizes (selectFontInPlace index) fun k : Kernel hash N =>
      (k.selectFont index).map ((), ·) := by
  intro k
  by_cases bound : index < k.fonts.size
  · simp [selectFontInPlace, attempt, selectFont, bound, Except.map]
  · simp [selectFontInPlace, attempt, selectFont, bound, Except.map]

/-- Does what is requested. -/
def respond (k : Kernel hash N) : KernelRequest N → KernelAnswer N × Kernel hash N
  | .load source request =>
    let (result, next) := settle (loadFontInPlace source request) k
    (.loaded result, next)
  | .select index =>
    let (result, next) := settle (selectFontInPlace index) k
    (.selected result, next)
  | .define name code payload => (.defined, k.define name code payload)
  | .setCategory point code =>
    match k.catcodes.set? point code with
    | some catcodes => (.categorised true, { k with catcodes })
    | none => (.categorised false, k)
  | .render request =>
    let (result, render) := k.render.respond request
    (.rendered result, { k with render })

/-! ## Requests -/

theorem respond_load (k : Kernel hash N) (source : FontSource) (request : FontRequest) :
    k.respond (.load source request) =
      let (result, next) := attempt (fun k => k.loadFont source request) k
      (.loaded result, next) := by
  rw [respond, realizes_loadFontInPlace source request k]

theorem respond_select (k : Kernel hash N) (index : Nat) :
    k.respond (.select index) =
      let (result, next) := attempt (fun k => (k.selectFont index).map ((), ·)) k
      (.selected result, next) := by
  rw [respond, realizes_selectFontInPlace index k]

/-- In place or not, a request leads to the same kernel. -/
theorem respond_snd (k : Kernel hash N) (request : KernelRequest N) :
    (k.respond request).2 = k.perform request := by
  cases request with
  | load source request =>
    rw [respond_load]
    cases done : k.loadFont source request <;> simp [attempt, perform, done]
  | select index =>
    rw [respond_select]
    cases done : k.selectFont index <;> simp [attempt, perform, done, Except.map]
  | define name code payload => rfl
  | setCategory point code =>
    cases done : k.catcodes.set? point code <;> simp [respond, perform, done]
  | render request =>
    cases done : k.render.perform request with
    | ok render => simp [respond, perform, done, RenderState.respond_of_ok done]
    | error failure => simp [respond, perform, done, RenderState.respond_of_error done]

theorem serve_respond_snd (k : Kernel hash N) (requests : List (KernelRequest N)) :
    (serve respond k requests).2 = k.after requests := by
  induction requests generalizing k with
  | nil => rfl
  | cons request requests ih =>
    rw [serve, ih, respond_snd]
    rfl

/-- The kernel cannot do what is requested. -/
def Refuses (k : Kernel hash N) : KernelRequest N → Prop
  | .load source request => ∃ failure, k.loadFont source request = .error failure
  | .select index => ∃ failure, k.selectFont index = .error failure
  | .setCategory point code => k.catcodes.set? point code = none
  | .render (.append id) => ∃ failure, k.render.append id = .error failure
  | .render .pop => k.render.pop? = none
  | .render (.link id target) => k.render.link? id target = none
  | _ => False

/-- The answer tells whether the kernel could do what was requested. -/
theorem failed_respond_iff {request : KernelRequest N} :
    (k.respond request).1.failed ↔ k.Refuses request := by
  cases request with
  | load source request =>
    rw [respond_load]
    cases done : k.loadFont source request <;> simp [attempt, done, KernelAnswer.failed, Refuses]
  | select index =>
    rw [respond_select]
    cases done : k.selectFont index <;>
      simp [attempt, done, KernelAnswer.failed, Refuses, Except.map]
  | define name code payload => simp [respond, KernelAnswer.failed, Refuses]
  | setCategory point code =>
    cases done : k.catcodes.set? point code <;>
      simp [respond, done, KernelAnswer.failed, Refuses]
  | render request =>
    change RenderAnswer.failed (k.render.respond request).1 ↔ _
    cases request with
    | append id =>
      cases done : k.render.append id with
      | ok render =>
        have performed : k.render.perform (.append id) = .ok render := done
        rw [RenderState.respond_of_ok performed]
        simp [RenderState.answer, RenderAnswer.failed, Refuses, done]
      | error failure =>
        have stopped : k.render.perform (.append id) = .error failure := done
        rw [RenderState.respond_of_error stopped]
        simp [RenderAnswer.failed, Refuses, done]
    | pop =>
      rw [RenderState.respond_of_ok rfl]
      cases outermost : k.render.pop? <;>
        simp [RenderState.answer, RenderAnswer.failed, Refuses, outermost]
    | link id target =>
      rw [RenderState.respond_of_ok rfl]
      cases refused : k.render.link? id target <;>
        simp [RenderState.answer, RenderAnswer.failed, Refuses, refused]
    | _ =>
      rw [RenderState.respond_of_ok rfl]
      simp [RenderState.answer, RenderAnswer.failed, Refuses]

theorem perform_of_refuses {request : KernelRequest N} (refuses : k.Refuses request) :
    k.perform request = k := by
  cases request with
  | load source request =>
    obtain ⟨failure, failed⟩ := refuses
    simp only [perform, failed]
  | select index =>
    obtain ⟨failure, failed⟩ := refuses
    simp only [perform, failed]
  | define name code payload => cases refuses
  | setCategory point code =>
    have absent : k.catcodes.set? point code = none := refuses
    simp only [perform, absent, Option.getD_none]
  | render request =>
    cases request with
    | append id =>
      obtain ⟨failure, failed⟩ := refuses
      simp only [perform, RenderState.perform, failed]
    | pop =>
      have outermost : k.render.pop? = none := refuses
      simp only [perform, RenderState.perform, outermost, Option.elim_none]
    | link id target =>
      have absent : k.render.link? id target = none := refuses
      simp only [perform, RenderState.perform, absent, Option.getD_none]
    | _ => cases refuses

/-- A request that fails leaves the kernel as it was. -/
theorem respond_of_failed {request : KernelRequest N} (failed : (k.respond request).1.failed) :
    (k.respond request).2 = k := by
  rw [respond_snd]
  exact perform_of_refuses (failed_respond_iff.mp failed)

/-- Without the requests that the kernel could not fulfil, a run gives the same answers to all the
others and ends in the same kernel, although every request works on the kernel in place. -/
theorem failures_invisible (k : Kernel hash N) (requests : List (KernelRequest N)) :
    let run := serve respond k requests
    let kept := (requests.zip run.1).filter fun step => !step.2.failed
    serve respond k (kept.map Prod.fst) = (kept.map Prod.snd, run.2) ∧
      run.2 = k.after requests ∧
      ∀ (now : Kernel hash N) request, (now.respond request).1.failed ↔ now.Refuses request :=
  ⟨serve_without (fun _ _ => respond_of_failed) k requests, serve_respond_snd k requests,
    fun _ _ => failed_respond_iff⟩

end Kernel

end TypesetKernel
