import Mathlib.Data.List.Induction
import Mathlib.Data.List.Infix
import TypesetKernel.Proofs.RenderState.Requests

/-!
What a group leaves behind. As long as the requests inside a group leave only groups that they have
entered themselves, the frames around the group stay on the stack as they are, whatever becomes of
the current frame, of the links and of appending that fails. So leaving the group brings back the
frame around it and hands out the one inside; only the mode and the nodes stay (`leave_balanced`).
-/

namespace TypesetKernel

/-! ## Balanced requests -/

namespace Request

variable {N : Type}

def isPush : Request N → Bool
  | .push => true
  | _ => false

def isPop : Request N → Bool
  | .pop => true
  | _ => false

def mode? : Request N → Option Mode
  | .setMode mode => some mode
  | _ => none

/-- The number of groups that some requests enter. -/
def pushes (requests : List (Request N)) : Nat := requests.countP isPush

/-- The number of groups that some requests leave. -/
def pops (requests : List (Request N)) : Nat := requests.countP isPop

/-- The mode that some requests set last, if they set one. -/
def lastMode? (requests : List (Request N)) : Option Mode := (requests.filterMap mode?).getLast?

/-- The requests leave every group that they enter and no others. -/
structure Balanced (requests : List (Request N)) : Prop where
  within : ∀ before, before <+: requests → pops before ≤ pushes before
  settled : pops requests = pushes requests

theorem balanced_iff {requests : List (Request N)} :
    Balanced requests ↔ (∀ before ∈ requests.inits, pops before ≤ pushes before) ∧
      pops requests = pushes requests := by
  simp only [List.mem_inits]
  exact ⟨fun balanced => ⟨balanced.within, balanced.settled⟩, fun ⟨within, settled⟩ =>
    ⟨within, settled⟩⟩

instance (requests : List (Request N)) : Decidable (Balanced requests) :=
  decidable_of_iff' _ balanced_iff

theorem pushes_concat (before : List (Request N)) (request : Request N) :
    pushes (before ++ [request]) = pushes before + if request.isPush then 1 else 0 := by
  rw [pushes, List.countP_append, List.countP_singleton]
  rfl

theorem pops_concat (before : List (Request N)) (request : Request N) :
    pops (before ++ [request]) = pops before + if request.isPop then 1 else 0 := by
  rw [pops, List.countP_append, List.countP_singleton]
  rfl

theorem lastMode?_concat (before : List (Request N)) (request : Request N) :
    lastMode? (before ++ [request]) = request.mode?.or (lastMode? before) := by
  rw [lastMode?, List.filterMap_append]
  cases sets : request.mode? with
  | none => simp [sets, lastMode?]
  | some mode => simp [sets]

end Request

namespace RenderState

variable {N : Type} {r next : RenderState N}

/-! ## One request -/

theorem append_eq_ok {id : NodeId} (done : r.append id = .ok next) :
    next.saved = r.saved ∧ next.mode = r.mode := by
  unfold append at done
  split at done
  case h_1 => cases done
  case h_2 => cases done; exact ⟨rfl, rfl⟩
  case h_3 =>
    split at done
    case h_1 => cases done
    case h_2 => cases done; exact ⟨rfl, rfl⟩

theorem respond_push (r : RenderState N) : r.respond .push = (.ok .done, r.push) :=
  respond_of_ok rfl

/-- Without a group around the current one, nothing changes. -/
theorem respond_pop (r : RenderState N) :
    r.respond .pop = (.ok (.left (r.pop?.map Prod.fst)), r.pop?.elim r Prod.snd) :=
  respond_of_ok rfl

/-- Only entering and leaving groups changes the stack, and only setting it changes the mode. -/
theorem frames_perform {request : Request N} (done : r.perform request = .ok next) :
    next.mode = request.mode?.getD r.mode ∧
      (request.isPush = false → request.isPop = false → next.saved = r.saved) := by
  cases request with
  | append id =>
    obtain ⟨saved, mode⟩ := append_eq_ok done
    exact ⟨mode, fun _ _ => saved⟩
  | pop =>
    cases done
    refine ⟨?_, fun _ leaves => by cases leaves⟩
    rw [pop?]
    cases r.saved <;> rfl
  | push =>
    cases done
    exact ⟨rfl, fun enters => by cases enters⟩
  | setNode id value =>
    cases done
    cases changed : r.nodes.set? id value <;> simp [setNode?, changed, Request.mode?]
  | link id target =>
    cases done
    cases linked : r.nodes.link? id target <;> simp [link?, linked, Request.mode?]
  | _ =>
    cases done
    exact ⟨rfl, fun _ _ => rfl⟩

/-- Appending is the only request that fails. -/
theorem perform_eq_error {request : Request N} {failure : AppendFailure}
    (failed : r.perform request = .error failure) : ∃ id, request = .append id := by
  cases request with
  | append id => exact ⟨id, rfl⟩
  | _ => cases failed

theorem frames_respond (r : RenderState N) (request : Request N) :
    (r.respond request).2.mode = request.mode?.getD r.mode ∧
      (request.isPush = false → request.isPop = false →
        (r.respond request).2.saved = r.saved) := by
  cases done : r.perform request with
  | ok next =>
    rw [respond_of_ok done]
    exact frames_perform done
  | error failure =>
    obtain ⟨id, rfl⟩ := perform_eq_error done
    rw [respond_of_error done]
    exact ⟨rfl, fun _ _ => rfl⟩

/-! ## Runs -/

/-- The mode at the end is the one that was set last. -/
theorem mode_serve (r : RenderState N) (requests : List (Request N)) :
    (serve respond r requests).2.mode = (Request.lastMode? requests).getD r.mode := by
  induction requests using List.reverseRecOn with
  | nil => rfl
  | append_singleton before request ih =>
    rw [serve_concat, (frames_respond _ request).1, ih, Request.lastMode?_concat]
    cases request.mode? <;> rfl

/-- As long as no group is left that was not entered before, the frames that were there at the start
stay at the bottom of the stack. -/
theorem saved_serve (r : RenderState N) {requests : List (Request N)}
    (within : ∀ before, before <+: requests → Request.pops before ≤ Request.pushes before) :
    ∃ entered, (serve respond r requests).2.saved = entered ++ r.saved ∧
      entered.length + Request.pops requests = Request.pushes requests := by
  induction requests using List.reverseRecOn with
  | nil => exact ⟨[], rfl, rfl⟩
  | append_singleton before request ih =>
    obtain ⟨entered, saved, count⟩ :=
      ih fun first initial => within first (initial.trans (List.prefix_append _ _))
    have enough := within _ List.prefix_rfl
    rw [Request.pops_concat, Request.pushes_concat] at enough ⊢
    rw [serve_concat]
    cases request with
    | push =>
      rw [respond_push, push, saved]
      refine ⟨_ :: entered, rfl, ?_⟩
      simp only [Request.isPush, Request.isPop, List.length_cons, if_true, Bool.false_eq_true,
        if_false]
      omega
    | pop =>
      simp only [Request.isPush, Request.isPop, Bool.false_eq_true, if_true, if_false] at enough ⊢
      rw [respond_pop, pop?, saved]
      cases entered with
      | nil =>
        rw [List.length_nil] at count
        omega
      | cons frame entered =>
        rw [List.length_cons] at count
        refine ⟨entered, rfl, ?_⟩
        omega
    | _ =>
      refine ⟨entered, ?_, count⟩
      rw [(frames_respond _ _).2 rfl rfl, saved]

/-- Whatever is requested inside a group, as long as it leaves every group it enters and no others,
leaving the group brings back the frame and the stack from before, hands out the frame inside as it
then is, and keeps the nodes and the mode. Only setting the mode changes it. -/
theorem leave_balanced (r : RenderState N) {requests : List (Request N)}
    (balanced : Request.Balanced requests) :
    let inside := (serve respond r (.push :: requests)).2
    let whole := serve respond r (.push :: requests ++ [.pop])
    whole.1.getLast? = some (.ok (.left (some inside.current))) ∧
      whole.2.current = r.current ∧ whole.2.saved = r.saved ∧ whole.2.depth = r.depth ∧
      whole.2.nodes = inside.nodes ∧
      whole.2.mode = (Request.lastMode? requests).getD r.mode ∧
      ∀ (s : RenderState N) request, request.mode? = none →
        (s.respond request).2.mode = s.mode := by
  intro inside whole
  obtain ⟨entered, saved, count⟩ := saved_serve r.push balanced.within
  have nothing : entered = [] := by
    rw [balanced.settled] at count
    exact List.eq_nil_of_length_eq_zero (by omega)
  have stack : inside.saved = r.current :: r.saved := by
    change (serve respond (r.respond .push).2 requests).2.saved = _
    rw [respond_push, saved, nothing]
    rfl
  have left : inside.respond .pop = (.ok (.left (some inside.current)),
      { inside with current := r.current, saved := r.saved }) := by
    rw [respond_pop, pop?, stack]
    rfl
  have ran : whole = ((serve respond r (.push :: requests)).1 ++ [(inside.respond .pop).1],
      (inside.respond .pop).2) := serve_concat respond r (.push :: requests) .pop
  have mode : inside.mode = (Request.lastMode? requests).getD r.mode := by
    change (serve respond (r.respond .push).2 requests).2.mode = _
    rw [mode_serve, respond_push]
    rfl
  rw [ran, left]
  refine ⟨List.getLast?_concat, rfl, rfl, rfl, rfl, mode, fun s request keeps => ?_⟩
  rw [(frames_respond s request).1, keeps]
  rfl

/-- A group in the group, with a frame that was tampered with and appending that fails for either
reason. -/
theorem leave_balanced_nested :
    let r : RenderState Char :=
      { current := { tail := some ⟨5⟩, prevGraf := 3 }, saved := [{ head := some ⟨2⟩ }],
        mode := .vertical }
    let requests : List (Request Char) :=
      [.alloc 'a', .setMode .horizontal, .append ⟨0⟩, .push, .clear, .append ⟨0⟩, .append ⟨1⟩,
        .setTail (some ⟨9⟩), .append ⟨0⟩, .pop, .setHead none, .link ⟨0⟩ none, .setAux .zero]
    let inside := (serve respond r (.push :: requests)).2
    let whole := serve respond r (.push :: requests ++ [.pop])
    Request.Balanced requests ∧ whole.1.getLast? = some (.ok (.left (some inside.current))) ∧
      whole.2.current = r.current ∧ whole.2.saved = r.saved ∧ whole.2.mode = .horizontal := by
  intro r requests inside whole
  have balanced : Request.Balanced requests := by decide
  obtain ⟨frame, current, saved, -, -, mode, -⟩ := leave_balanced r balanced
  exact ⟨balanced, frame, current, saved, mode⟩

end RenderState

end TypesetKernel
