import TypesetKernel.Proofs.CommandTable.Chains
import TypesetKernel.Proofs.FontMetrics.Decode
import TypesetKernel.Proofs.Kernel.Requests

/-!
Commands that select fonts. As long as only loading marks a command as selecting a font, such a
command stands for the last font that was loaded under its name, and the font stays selectable by
its name until the name is defined as something else. The font in use is always one of the table
(`fonts_never_dangle`).
-/

namespace TypesetKernel

variable {hash : NameHash} {N : Type}

/-! ## The last font of a name -/

/-- The index is the largest of a font with this name. -/
structure FontTable.IsLast (t : FontTable) (name : String) (i : Nat) : Prop where
  named : ∃ f, t.font? i = some f ∧ f.name = name
  largest : ∀ j f, t.font? j = some f → f.name = name → j ≤ i

namespace FontTable

variable {t t' : FontTable} {source : FontSource} {request : FontRequest} {i j : Nat}
  {name : String}

theorem exists_font?_of_lt (bound : i < t.size) : ∃ f, t.font? i = some f := by
  cases i with
  | zero => exact ⟨.null, rfl⟩
  | succ i => exact ⟨_, Array.getElem?_eq_getElem (Nat.lt_of_succ_lt_succ bound)⟩

/-- The font that was loaded last is the last one of its name. -/
theorem isLast_load (done : t.load source request = .ok (i, t')) : t'.IsLast request.name i := by
  obtain ⟨metrics, -, fonts⟩ := font?_load done
  obtain ⟨rfl, -⟩ := load_eq_ok done
  refine ⟨⟨_, by rw [fonts, if_pos rfl], rfl⟩, fun j f found _ => ?_⟩
  have bound := lt_size_of_font? found
  rw [size_load done] at bound
  exact Nat.le_of_lt_succ bound

/-- Loading a font changes nothing for the other names. -/
theorem isLast_load_other (done : t.load source request = .ok (i, t'))
    (different : name ≠ request.name) : t'.IsLast name j ↔ t.IsLast name j := by
  obtain ⟨metrics, -, fonts⟩ := font?_load done
  have same : ∀ index f, f.name = name → (t'.font? index = some f ↔ t.font? index = some f) := by
    intro index f named
    rw [fonts]
    split
    case isTrue last =>
      subst last
      constructor
      · intro new
        cases new
        exact absurd named.symm different
      · intro old
        exact absurd (lt_size_of_font? old) (Nat.lt_irrefl _)
    case isFalse => exact Iff.rfl
  constructor
  · rintro ⟨⟨f, found, named⟩, largest⟩
    exact ⟨⟨f, (same j f named).mp found, named⟩,
      fun index g found named => largest index g ((same index g named).mpr found) named⟩
  · rintro ⟨⟨f, found, named⟩, largest⟩
    exact ⟨⟨f, (same j f named).mpr found, named⟩,
      fun index g found named => largest index g ((same index g named).mp found) named⟩

theorem IsLast.unique (first : t.IsLast name i) (second : t.IsLast name j) : i = j := by
  obtain ⟨f, found, named⟩ := first.named
  obtain ⟨g, found', named'⟩ := second.named
  exact Nat.le_antisymm (second.largest i f found named) (first.largest j g found' named')

end FontTable

/-! ## Histories -/

namespace Kernel

variable {start k : Kernel hash N} {requests later : List (KernelRequest N)} {name : String}
  {i : Nat}

/-- Among the requests is the load that gave the font of this name its index, and `later` are the
requests behind it. -/
def LoadedAs (start : Kernel hash N) (requests : List (KernelRequest N)) (name : String) (i : Nat)
    (later : List (KernelRequest N)) : Prop :=
  ∃ before source request next, requests = before ++ .load source request :: later ∧
    request.name = name ∧ (start.after before).loadFont source request = .ok (i, next)

/-- The name was defined again after the load that gave the font its index. -/
def DefinedSince (start : Kernel hash N) (requests : List (KernelRequest N)) (name : String)
    (i : Nat) : Prop :=
  ∃ later, start.LoadedAs requests name i later ∧ ∃ code payload, .define name code payload ∈ later

theorem LoadedAs.concat (loaded : start.LoadedAs requests name i later)
    (request : KernelRequest N) :
    start.LoadedAs (requests ++ [request]) name i (later ++ [request]) := by
  obtain ⟨before, source, load, next, rfl, named, done⟩ := loaded
  exact ⟨before, source, load, next, by simp, named, done⟩

theorem DefinedSince.concat (defined : start.DefinedSince requests name i)
    (request : KernelRequest N) : start.DefinedSince (requests ++ [request]) name i := by
  obtain ⟨later, loaded, code, payload, member⟩ := defined
  exact ⟨later ++ [request], loaded.concat request, code, payload, List.mem_append_left _ member⟩

/-- What holds all along a run in which only loads mark a command as selecting a font. -/
structure FontsBound (start : Kernel hash N) (requests : List (KernelRequest N))
    (k : Kernel hash N) : Prop where
  sound : k.commands.Sound
  current : k.currentFont < k.fonts.size
  loaded : ∀ i f, 1 ≤ i → k.fonts.font? i = some f →
    ∃ later, start.LoadedAs requests f.name i later
  marked : ∀ name c, k.commands.get? name = some c → c.code = .setFont →
    ∃ i, 1 ≤ i ∧ k.fonts.IsLast name i ∧ c.payload = .ofIndex i
  selectable : ∀ name i, 1 ≤ i → k.fonts.IsLast name i →
    k.commands.get? name = some ⟨name, .setFont, .ofIndex i⟩ ∨ start.DefinedSince requests name i

namespace FontsBound

variable {request : KernelRequest N}

theorem blank (capacity : Nat) :
    FontsBound (Kernel.blank capacity : Kernel hash N) [] (Kernel.blank capacity) where
  sound := .empty capacity
  current := Nat.succ_pos _
  loaded i f positive found := absurd (FontTable.lt_size_of_font? found) (Nat.not_lt.mpr positive)
  marked name c found := by
    rw [Kernel.blank, CommandTable.get?_empty] at found
    cases found
  selectable name i positive last := by
    obtain ⟨f, found, -⟩ := last.named
    exact absurd (FontTable.lt_size_of_font? found) (Nat.not_lt.mpr positive)

/-- Requests that keep the fonts and the commands. -/
theorem keep {next : Kernel hash N} (b : FontsBound start requests k) (request : KernelRequest N)
    (commands : next.commands = k.commands) (fonts : next.fonts = k.fonts)
    (current : next.currentFont < k.fonts.size) :
    FontsBound start (requests ++ [request]) next where
  sound := by rw [commands]; exact b.sound
  current := by rw [fonts]; exact current
  loaded i f positive found := by
    rw [fonts] at found
    obtain ⟨later, loaded⟩ := b.loaded i f positive found
    exact ⟨_, loaded.concat request⟩
  marked := by rw [commands, fonts]; exact b.marked
  selectable name i positive last := by
    rw [fonts] at last
    rw [commands]
    exact (b.selectable name i positive last).imp_right fun defined => defined.concat request

theorem define (b : FontsBound start requests k) (name : String) {code : CategoryCode}
    (different : code ≠ .setFont) (payload : Word) :
    FontsBound start (requests ++ [.define name code payload]) (k.define name code payload) where
  sound := b.sound.set _
  current := b.current
  loaded i f positive found := by
    obtain ⟨later, loaded⟩ := b.loaded i f positive found
    exact ⟨_, loaded.concat _⟩
  marked other c found selects := by
    rw [Kernel.define, CommandTable.get?_set] at found
    split at found
    case isTrue =>
      cases found
      exact absurd selects different
    case isFalse => exact b.marked other c found selects
  selectable other i positive last := by
    rw [Kernel.define, CommandTable.get?_set]
    split
    case isTrue same =>
      obtain ⟨f, found, named⟩ := last.named
      obtain ⟨later, loaded⟩ := b.loaded i f positive found
      refine .inr ⟨_, named ▸ loaded.concat _, code, payload, ?_⟩
      rw [show other = name from same]
      exact List.mem_append_right _ List.mem_cons_self
    case isFalse => exact (b.selectable other i positive last).imp_right fun defined =>
      defined.concat _

/-- The new font is the last of its name and its command stands for it. -/
theorem load {next : Kernel hash N} {source : FontSource} {request : FontRequest}
    (b : FontsBound start requests (start.after requests))
    (done : (start.after requests).loadFont source request = .ok (i, next)) :
    FontsBound start (requests ++ [.load source request]) next := by
  obtain ⟨stored, commands, current⟩ := loadFont_eq_ok done
  obtain ⟨index, -⟩ := FontTable.load_eq_ok stored
  obtain ⟨metrics, -, fonts⟩ := FontTable.font?_load stored
  have last := FontTable.isLast_load stored
  have positive : 1 ≤ i := by
    rw [index]
    exact Nat.succ_pos _
  refine ⟨?_, ?_, fun j f positive found => ?_, fun name c known selects => ?_,
    fun name j positive isLast => ?_⟩
  · rw [commands]
    exact b.sound.set _
  · rw [current, FontTable.size_load stored]
    exact Nat.lt_succ_of_lt b.current
  · rw [fonts, ← index] at found
    split at found
    case isTrue same =>
      cases found
      exact ⟨[], requests, source, request, next, rfl, rfl, same ▸ done⟩
    case isFalse =>
      obtain ⟨later, loaded⟩ := b.loaded j f positive found
      exact ⟨_, loaded.concat _⟩
  · rw [commands, CommandTable.get?_set] at known
    split at known
    case isTrue same =>
      cases known
      exact ⟨i, positive, same ▸ last, rfl⟩
    case isFalse different =>
      obtain ⟨j, positive, isLast, payload⟩ := b.marked name c known selects
      exact ⟨j, positive, (FontTable.isLast_load_other stored different).mpr isLast, payload⟩
  · rw [commands, CommandTable.get?_set]
    split
    case isTrue same =>
      have same : name = request.name := same
      subst same
      rw [isLast.unique last]
      exact .inl rfl
    case isFalse different =>
      have isLast := (FontTable.isLast_load_other stored different).mp isLast
      exact (b.selectable name j positive isLast).imp_right fun defined => defined.concat _

theorem perform (b : FontsBound start requests (start.after requests)) (request : KernelRequest N)
    (codes : ∀ name code payload, request = .define name code payload → code ≠ .setFont) :
    FontsBound start (requests ++ [request]) (start.after (requests ++ [request])) := by
  rw [after_concat]
  cases request with
  | load source request =>
    cases done : (start.after requests).loadFont source request with
    | ok loaded =>
      have next := b.load done
      simp only [Kernel.perform, done]
      exact next
    | error failure =>
      simp only [Kernel.perform, done]
      exact b.keep _ rfl rfl b.current
  | select index =>
    simp only [Kernel.perform, selectFont]
    split
    case h_1 selected done =>
      split at done
      case isTrue bound =>
        cases done
        exact b.keep _ rfl rfl bound
      case isFalse => cases done
    case h_2 => exact b.keep _ rfl rfl b.current
  | define name code payload => exact b.define name (codes name code payload rfl) payload
  | setCategory point code => exact b.keep _ rfl rfl b.current
  | render request =>
    simp only [Kernel.perform]
    split
    case h_1 => exact b.keep _ rfl rfl b.current
    case h_2 => exact b.keep _ rfl rfl b.current

theorem run (capacity : Nat) (requests : List (KernelRequest N))
    (codes : ∀ name code payload, .define name code payload ∈ requests → code ≠ .setFont) :
    FontsBound (Kernel.blank capacity : Kernel hash N) requests
      ((Kernel.blank capacity).after requests) := by
  induction requests using List.reverseRecOn with
  | nil => exact .blank capacity
  | append_singleton requests request ih =>
    refine (ih fun name code payload member => ?_).perform request fun name code payload same => ?_
    · exact codes name code payload (List.mem_append_left _ member)
    · exact codes name code payload (List.mem_append_right _ (by simp [same]))

end FontsBound

theorem code_of_bootRequests {config : Config} {source : FontSource} {name : String}
    {code : CategoryCode} {payload : Word}
    (member : .define name code payload ∈ (bootRequests config source : List (KernelRequest N))) :
    code ≠ .setFont := by
  rw [bootRequests, List.mem_append, List.mem_map] at member
  rcases member with ⟨request, -, load⟩ | rest
  · cases load
  · rintro rfl
    simp at rest

/-- In every state of a run in which only loads mark a command as selecting a font, the font in use
is one of the table; each command that selects a font stands for the last font of its name; and the
last font of a name is selected by this name, unless the name was defined again after the font was
loaded. Starting the run counts: it loads the fonts of the configuration first and then defines two
commands. -/
theorem fonts_never_dangle {config : Config} {source : FontSource} {k : Kernel hash N}
    (booted : boot config source = .ok k) (requests : List (KernelRequest N))
    (codes : ∀ name code payload, .define name code payload ∈ requests → code ≠ .setFont)
    (few : (k.after requests).fonts.size < UInt32.size) :
    let now := k.after requests
    let start : Kernel hash N := blank config.tableSize
    start.after (bootRequests config source) = k ∧
      now.currentFont < now.fonts.size ∧
      now.fonts.font? now.currentFont = some now.font ∧
      (∀ c ∈ now.commands.toList, c.code = .setFont →
        1 ≤ c.payload.index ∧ c.payload.index < now.fonts.size ∧
          now.fonts.IsLast c.name c.payload.index) ∧
      ∀ name i, 1 ≤ i → now.fonts.IsLast name i →
        (∃ c, now.commands.get? name = some c ∧ c.code = .setFont ∧ c.payload.index = i) ∨
          start.DefinedSince (bootRequests config source ++ requests) name i := by
  intro now start
  have started : start.after (bootRequests config source) = k := after_bootRequests booted
  have history : start.after (bootRequests config source ++ requests) = now := by
    rw [after_append, started]
  have bound : FontsBound start (bootRequests config source ++ requests) now := by
    rw [← history]
    refine .run config.tableSize _ fun name code payload member => ?_
    rcases List.mem_append.mp member with boot | later
    · exact code_of_bootRequests boot
    · exact codes name code payload later
  have index {name : String} {i : Nat} (last : now.fonts.IsLast name i) :
      i < now.fonts.size ∧ (Word.ofIndex i).index = i := by
    obtain ⟨f, found, -⟩ := last.named
    have inside := FontTable.lt_size_of_font? found
    exact ⟨inside, UInt32.toNat_ofNat_of_lt (Nat.lt_trans inside few)⟩
  refine ⟨started, bound.current, ?_, fun c member selects => ?_, fun name i positive last => ?_⟩
  · obtain ⟨f, found⟩ := FontTable.exists_font?_of_lt bound.current
    rw [found, Kernel.font, found, Option.getD_some]
  · have known := bound.sound.mem_toList.mp member
    obtain ⟨i, positive, last, payload⟩ := bound.marked c.name c known selects
    rw [payload, (index last).2]
    exact ⟨positive, (index last).1, last⟩
  · refine (bound.selectable name i positive last).imp_left fun found => ?_
    exact ⟨_, found, rfl, (index last).2⟩

/-- All names in one chain. Two fonts from the start, one of them under a name that the start
defines again; then a name that is loaded and defined again, a load that fails, and an index out of
range. -/
theorem fonts_never_dangle_redefined :
    let hash : NameHash := fun _ => 0
    let contents : Bytes := [0, 6, 0, 0, 0, 1] ++ List.replicate 18 0
    let source := MemoryFonts.source ⟨[("plain", contents)]⟩
    let config : Config := ⟨0, [⟨"plain", "par", 0⟩, ⟨"plain", "rm", -1000⟩]⟩
    let requests : List (KernelRequest Char) :=
      [.load source ⟨"plain", "rm", 0⟩, .define "rm" .other .zero, .load source ⟨"lost", "it", 0⟩,
        .load source ⟨"plain", "it", 0⟩, .select 4, .select 7, .render .push]
    ∃ k : Kernel hash Char, boot config source = .ok k ∧
      (∀ name code payload, .define name code payload ∈ requests → code ≠ .setFont) ∧
      (k.after requests).fonts.size < UInt32.size ∧
      (k.after requests).currentFont < (k.after requests).fonts.size ∧
      ∀ c ∈ (k.after requests).commands.toList, c.code = .setFont →
        (k.after requests).fonts.IsLast c.name c.payload.index := by
  intro hash contents source config requests
  have decodes : FontMetrics.ofBytes contents = .ok .null :=
    FontMetrics.ofBytes_eq_ok_iff.mpr ⟨by decide, rfl⟩
  have booted : ∃ k, (boot config source : Except KernelError (Kernel hash Char)) = .ok k := by
    simp [boot, loadFonts, config, loadFont, FontTable.load, FontTable.metricsOf, Kernel.blank,
      FontTable.empty, source, MemoryFonts.source, FontMetrics.ofFile, decodes, Kernel.define,
      FontTable.remember]
  obtain ⟨k, booted⟩ := booted
  have codes : ∀ name code payload, .define name code payload ∈ requests → code ≠ .setFont := by
    rintro name code payload member rfl
    simp [requests] at member
  have few : (k.after requests).fonts.size < UInt32.size := by
    have size := k.size_fonts_after_le requests
    rw [size_fonts_boot booted] at size
    exact Nat.lt_of_le_of_lt size (by decide)
  obtain ⟨-, current, -, marked, -⟩ := fonts_never_dangle booted requests codes few
  exact ⟨k, booted, codes, few, current, fun c member selects => (marked c member selects).2.2⟩

end Kernel

end TypesetKernel
