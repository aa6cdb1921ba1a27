import Mathlib.Data.List.Forall2
import TypesetKernel.Proofs.RenderState.Sequences

/-!
Groups that build lists of their own. When every group starts with clearing the copy of the frame
around it, no two frames share a node: the list under construction, the saved ones and the ones that
leaving a group has handed out stay apart. So nothing that is built later reaches a list that was
handed out, and no list is lost or runs on into another (`run_keeps_lists`).
-/

namespace TypesetKernel

variable {N : Type}

/-! ## Histories -/

/-- The state of a run and the frames that leaving groups has handed out so far, latest first. -/
structure History (N : Type) where
  state : RenderState N := {}
  handedOut : List Frame := []

/-- The frame that a request hands out, if it leaves a group. -/
def RenderState.handOut (r : RenderState N) : Request N → List Frame
  | .pop => (r.pop?.map Prod.fst).toList
  | _ => []

namespace History

def perform (h : History N) (request : Request N) : Except AppendFailure (History N) :=
  (h.state.perform request).map fun state =>
    { state, handedOut := h.state.handOut request ++ h.handedOut }

def run (requests : List (Request N)) : Except AppendFailure (History N) :=
  requests.foldlM perform {}

theorem run_concat {requests : List (Request N)} {h : History N} {request : Request N}
    {next : RenderState N} (before : run requests = .ok h)
    (done : h.state.perform request = .ok next) :
    run (requests ++ [request]) =
      .ok { state := next, handedOut := h.state.handOut request ++ h.handedOut } := by
  unfold run at before ⊢
  rw [List.foldlM_append, before]
  simp only [bind, Except.bind, List.foldlM_cons, List.foldlM_nil, perform, done]
  rfl

end History

/-- The sequences of a run together with those of the frames handed out, latest first. -/
structure Ledger extends Sequences where
  finished : List (List NodeId) := []
  deriving DecidableEq, Repr

namespace Ledger

def step (l : Ledger) (request : Request N) : Ledger where
  toSequences := l.toSequences.step request
  finished :=
    match request, l.saved with
    | .pop, _ :: _ => l.current :: l.finished
    | _, _ => l.finished

def after (requests : List (Request N)) : Ledger := requests.foldl step {}

theorem after_concat (requests : List (Request N)) (request : Request N) :
    after (requests ++ [request]) = (after requests).step request := by
  rw [after, List.foldl_append]
  rfl

/-- The sequences of the frames around the current one and of those handed out. -/
def others (l : Ledger) : List (List NodeId) := l.saved ++ l.finished

def all (l : Ledger) : List (List NodeId) := l.current :: l.others

/-- No two sequences have a node in common. -/
def Apart (l : Ledger) : Prop := l.all.Pairwise List.Disjoint

variable {l : Ledger}

theorem all_pop {ids : List NodeId} {saved : List (List NodeId)} (inside : l.saved = ids :: saved) :
    (l.step (.pop : Request N)).all = ids :: (saved ++ l.current :: l.finished) := by
  simp only [all, others, step, Sequences.step, inside]

theorem all_pop_of_outermost (outermost : l.saved = []) :
    (l.step (.pop : Request N)).all = l.all := by
  simp only [all, others, step, Sequences.step, outermost]

/-- Apart from appending, a request brings up no sequence but the empty one. -/
theorem mem_all_step {request : Request N} (quiet : request.appended? = none) {ids : List NodeId}
    (member : ids ∈ (l.step request).all) : ids ∈ l.all ∨ ids = [] := by
  cases request with
  | append id => cases quiet
  | push =>
    have member : ids ∈ l.current :: l.all := member
    rcases List.mem_cons.mp member with rfl | old
    · exact .inl List.mem_cons_self
    · exact .inl old
  | pop =>
    cases shape : l.saved with
    | nil =>
      rw [all_pop_of_outermost shape] at member
      exact .inl member
    | cons inner saved =>
      rw [all_pop shape] at member
      refine .inl ?_
      simp only [all, others, shape]
      simp only [List.mem_cons, List.mem_append] at member ⊢
      tauto
  | clear =>
    have member : ids ∈ [] :: l.others := member
    rcases List.mem_cons.mp member with empty | old
    · exact .inr empty
    · exact .inl (List.mem_cons_of_mem _ old)
  | _ => exact .inl member

/-- Clearing leaves the current sequence without nodes, whatever it was a copy of. -/
theorem apart_clear (outside : l.others.Pairwise List.Disjoint) :
    (l.step (.clear : Request N)).Apart :=
  List.pairwise_cons.mpr ⟨fun _ _ => List.disjoint_nil_left _, outside⟩

/-- A node that is in no sequence keeps the sequences apart. -/
theorem apart_append (apart : l.Apart) {id : NodeId} (new : ∀ ids ∈ l.all, id ∉ ids) :
    (l.step (.append id : Request N)).Apart := by
  obtain ⟨current, outside⟩ := List.pairwise_cons.mp apart
  refine List.pairwise_cons.mpr ⟨fun ids member => ?_, outside⟩
  have elsewhere : id ∉ ids := new ids (List.mem_cons_of_mem _ member)
  exact List.disjoint_append_left.mpr
    ⟨current ids member, List.singleton_disjoint.mpr elsewhere⟩

/-- Leaving a group only puts the sequences in a different order. -/
theorem apart_pop (apart : l.Apart) : (l.step (.pop : Request N)).Apart := by
  cases shape : l.saved with
  | nil =>
    rw [Apart, all_pop_of_outermost shape]
    exact apart
  | cons ids saved =>
    rw [Apart, all, others, shape] at apart
    have order : l.current :: (ids :: saved ++ l.finished)
        |>.Perm (ids :: (saved ++ l.current :: l.finished)) :=
      (List.Perm.swap _ _ _).trans (List.perm_middle.symm.cons _)
    rw [Apart, all_pop shape]
    exact (order.pairwise_iff List.disjoint_symm).mp apart

end Ledger

/-- Every group starts with clearing the copy of the frame around it. -/
def ClearsGroups (requests : List (Request N)) : Prop :=
  requests.IsChain fun request next => request = .push → next = .clear

/-- What holds of the sequences of a run whose groups start empty. Right after entering a group, the
current sequence is still the one around it. -/
structure Ledger.Separate (requests : List (Request N)) (l : Ledger) : Prop where
  members : ∀ ids ∈ l.all, ids ⊆ Request.appended requests
  outside : l.others.Pairwise List.Disjoint
  apart : requests.getLast? ≠ some .push → l.Apart

namespace Ledger.Separate

variable {requests : List (Request N)} {l : Ledger} {request : Request N}

theorem initial : ({} : Ledger).Separate ([] : List (Request N)) :=
  ⟨by simp [all, others], .nil, fun _ => List.pairwise_singleton _ _⟩

theorem members_step (s : l.Separate requests) :
    ∀ ids ∈ (l.step request).all, ids ⊆ Request.appended (requests ++ [request]) := by
  intro ids member
  rw [Request.appended_append]
  cases append : request.appended? with
  | some id =>
    obtain rfl := Request.eq_append_of_appended? append
    rcases List.mem_cons.mp member with rfl | old
    · have current := s.members l.current List.mem_cons_self
      exact List.append_subset.mpr
        ⟨List.subset_append_of_subset_left _ current, List.subset_append_right _ _⟩
    · exact List.subset_append_of_subset_left _ (s.members ids (List.mem_cons_of_mem _ old))
  | none =>
    rcases mem_all_step append member with old | rfl
    · exact List.subset_append_of_subset_left _ (s.members ids old)
    · exact List.nil_subset _

/-- Between entering a group and clearing there is no other request, so every request but clearing
finds the sequences apart. -/
theorem step (s : l.Separate requests)
    (new : ∀ id, request = .append id → id ∉ Request.appended requests)
    (entered : requests.getLast? = some .push → request = .clear) :
    (l.step request).Separate (requests ++ [request]) := by
  have settled (apart : (l.step request).Apart) :
      (l.step request).Separate (requests ++ [request]) :=
    ⟨s.members_step, (List.pairwise_cons.mp apart).2, fun _ => apart⟩
  by_cases clear : request = .clear
  · subst clear
    exact settled (apart_clear s.outside)
  have apart : l.Apart := s.apart fun last => clear (entered last)
  cases request with
  | append id =>
    exact settled (apart_append apart fun ids member inside =>
      new id rfl (s.members ids member inside))
  | push => exact ⟨s.members_step, apart, fun last => absurd (by simp) last⟩
  | pop => exact settled (apart_pop apart)
  | clear => cases clear rfl
  | _ => exact settled apart

end Ledger.Separate

namespace RenderState

variable {r next : RenderState N} {request : Request N}

/-! ## Links -/

/-- Appending changes no link but that of the tail. -/
theorem successor?_append {new id : NodeId} (done : r.append new = .ok next)
    (apart : r.current.tail ≠ some id) : next.nodes.successor? id = r.nodes.successor? id := by
  unfold append at done
  split at done
  case h_1 => cases done
  case h_2 => cases done; rfl
  case h_3 tail _ same =>
    split at done
    case h_1 => cases done
    case h_2 nodes linked =>
      cases done
      have known := (NodeArena.modify?_eq_some linked).1
      obtain ⟨_, same', -, -, others⟩ := r.nodes.link?_of_has known (some new)
      cases linked.symm.trans same'
      exact others id fun same' => apart (same' ▸ same)

/-- The other ordinary requests change no link at all. -/
theorem successor?_perform (ordinary : request.isOrdinary) (quiet : request.appended? = none)
    (done : r.perform request = .ok next) (id : NodeId) :
    next.nodes.successor? id = r.nodes.successor? id := by
  cases request with
  | append new => cases quiet
  | alloc value => cases done; exact r.nodes.successor?_alloc value id
  | pop => cases done; rw [nodes_pop]
  | setNode target value =>
    cases done
    cases changed : r.nodes.set? target value with
    | none => rw [setNode?, changed]; rfl
    | some nodes =>
      rw [setNode?, changed]
      exact (NodeArena.set?_eq_some changed).2 id
  | push => cases done; rfl
  | clear => cases done; rfl
  | setPrevGraf lines => cases done; rfl
  | setAux aux => cases done; rfl
  | setMode mode => cases done; rfl
  | setHead head => cases ordinary
  | setTail tail => cases ordinary
  | link target next => cases ordinary

end RenderState

/-! ## Lists -/

/-- The list at the head of the frame consists of these nodes and ends at the tail. -/
structure Frame.Holds (nodes : NodeArena N) (frame : Frame) (ids : List NodeId) : Prop where
  tail : frame.tail = ids.getLast?
  nodup : ids.Nodup
  list : nodes.Lists frame.head ids

/-- All frames of a history: the current one, the saved ones and those handed out. -/
def History.frames (h : History N) : List Frame :=
  h.state.current :: (h.state.saved ++ h.handedOut)

/-- What holds all along a run whose groups start empty: every frame has the ends of its sequence,
and every sequence is linked up to its last node, where it stops. -/
structure Intact (used : List NodeId) (h : History N) (l : Ledger) : Prop where
  current : Matches used h.state l.toSequences
  spans : List.Forall₂ Frame.Spans h.handedOut l.finished
  threaded : ∀ ids ∈ l.all, Threaded h.state.nodes used ids
  ends : ∀ ids ∈ l.all, ∀ last ∈ ids.getLast?, h.state.nodes.successor? last = none

namespace Intact

variable {used : List NodeId} {h : History N} {l : Ledger} {request : Request N}

theorem initial : Intact [] ({} : History N) {} where
  current := .initial
  spans := .nil
  threaded := List.forall_mem_singleton.mpr ⟨.nil, .nil, List.nil_subset _⟩
  ends := fun _ _ _ _ => rfl

/-- The frame that is handed out has the ends of the sequence that leaves with it. -/
theorem spans_step (i : Intact used h l) (request : Request N) :
    List.Forall₂ Frame.Spans (h.state.handOut request ++ h.handedOut)
      (l.step request).finished := by
  cases request with
  | pop =>
    obtain ⟨current, saved⟩ := List.forall₂_cons.mp i.current.spans
    cases frames : h.state.saved with
    | nil =>
      rw [frames, List.forall₂_nil_left_iff] at saved
      simp only [RenderState.handOut, RenderState.pop?, frames, Ledger.step, saved]
      exact i.spans
    | cons frame rest =>
      rw [frames] at saved
      obtain ⟨ids, sequences, -, -, shape⟩ := List.forall₂_cons_left_iff.mp saved
      simp only [RenderState.handOut, RenderState.pop?, frames, Ledger.step, shape]
      exact .cons current i.spans
  | _ => exact i.spans

/-- The tail of the current frame is in no other sequence, so appending changes none of them. -/
theorem append (i : Intact used h l) (apart : l.Apart) {id : NodeId} (known : h.state.nodes.Has id)
    (new : id ∉ used) :
    ∃ next, h.state.append id = .ok next ∧ next.nodes.size = h.state.nodes.size ∧
      Intact (used ++ [id]) { h with state := next } (l.step (.append id : Request N)) := by
  obtain ⟨next, done, size, behind, matched⟩ := i.current.append known new
  have tail := (List.forall₂_cons.mp i.current.spans).1.2
  have kept : ∀ ids ∈ l.others, ∀ other ∈ ids,
      next.nodes.successor? other = h.state.nodes.successor? other := by
    intro ids member other inside
    refine RenderState.successor?_append done fun same => ?_
    have last : other ∈ l.current := List.mem_of_getLast? (tail.symm.trans same)
    exact (List.pairwise_cons.mp apart).1 ids member last inside
  refine ⟨next, done, size, matched, i.spans, List.forall_mem_cons.mpr ⟨?_, ?_⟩,
    List.forall_mem_cons.mpr ⟨?_, ?_⟩⟩
  · exact matched.threaded _ List.mem_cons_self
  · intro ids member
    have threaded := i.threaded ids (List.mem_cons_of_mem _ member)
    exact (Threaded.more
      { threaded with
        linked := threaded.linked.congr fun other inside =>
          kept ids member other (List.dropLast_subset _ inside) })
  · intro last isLast
    have isLast : last ∈ (l.current ++ [id]).getLast? := isLast
    rw [List.getLast?_concat, Option.mem_some_iff] at isLast
    rw [← isLast]
    exact behind
  · intro ids member last isLast
    rw [kept ids member last (List.mem_of_getLast? isLast)]
    exact i.ends ids (List.mem_cons_of_mem _ member) last isLast

/-- The other requests keep all links. -/
theorem of_quiet (i : Intact used h l) {next : RenderState N} (quiet : request.appended? = none)
    (links : ∀ id, next.nodes.successor? id = h.state.nodes.successor? id)
    (matched : Matches used next (l.step request).toSequences) :
    Intact used { state := next, handedOut := h.state.handOut request ++ h.handedOut }
      (l.step request) where
  current := matched
  spans := i.spans_step request
  threaded := by
    intro ids member
    rcases Ledger.mem_all_step quiet member with old | rfl
    · have threaded := i.threaded ids old
      exact { threaded with linked := threaded.linked.congr fun id _ => links id }
    · exact ⟨.nil, .nil, List.nil_subset _⟩
  ends := by
    intro ids member last isLast
    rcases Ledger.mem_all_step quiet member with old | rfl
    · exact (links last).trans (i.ends ids old last isLast)
    · cases isLast

theorem perform (i : Intact used h l) (ordinary : request.isOrdinary)
    (apart : request.appended? ≠ none → l.Apart)
    (ready : ∀ id, request = .append id → h.state.nodes.Has id ∧ id ∉ used) :
    ∃ next, h.state.perform request = .ok next ∧
      next.nodes.size = h.state.nodes.size + Request.allocations [request] ∧
      Intact (used ++ Request.appended [request])
        { state := next, handedOut := h.state.handOut request ++ h.handedOut }
        (l.step request) := by
  cases append : request.appended? with
  | some id =>
    obtain rfl := Request.eq_append_of_appended? append
    obtain ⟨known, new⟩ := ready id rfl
    exact i.append (apart (by rw [append]; exact Option.some_ne_none id)) known new
  | none =>
    obtain ⟨next, done, size, matched⟩ := i.current.perform ordinary ready
    have nothing : Request.appended [request] = [] := by
      rw [Request.appended, List.filterMap_cons_none append, List.filterMap_nil]
    rw [nothing, List.append_nil] at matched ⊢
    have links := RenderState.successor?_perform ordinary append done
    exact ⟨next, done, size, i.of_quiet append links matched⟩

/-- A frame with the ends of a sequence holds it. -/
theorem holds_of_spans (i : Intact used h l) {frames : List Frame}
    {sequences : List (List NodeId)} (spans : List.Forall₂ Frame.Spans frames sequences)
    (inside : sequences ⊆ l.all) :
    List.Forall₂ (Frame.Holds h.state.nodes) frames sequences := by
  refine List.forall₂_iff_zip.mpr ⟨spans.length_eq, fun {frame ids} member => ?_⟩
  obtain ⟨head, tail⟩ := List.forall₂_zip spans member
  have inside := inside (List.of_mem_zip member).2
  have threaded := i.threaded ids inside
  have known : ∀ id ∈ ids, h.state.nodes.Has id :=
    fun id used => i.current.known id (threaded.members used)
  refine ⟨tail, threaded.nodup, ?_⟩
  rw [head]
  exact threaded.linked.lists known (i.ends ids inside)

theorem holds (i : Intact used h l) : List.Forall₂ (Frame.Holds h.state.nodes) h.frames l.all :=
  i.holds_of_spans (List.rel_append i.current.spans i.spans) (List.Subset.refl _)

theorem holds_handedOut (i : Intact used h l) :
    List.Forall₂ (Frame.Holds h.state.nodes) h.handedOut l.finished :=
  i.holds_of_spans i.spans
    (List.subset_cons_of_subset _ (List.subset_append_right l.saved l.finished))

end Intact

/-! ## Runs -/

/-- What was handed out stays listed, whatever follows. -/
theorem History.handedOut_suffix {later : List (Request N)} {h next : History N}
    (ran : later.foldlM History.perform h = .ok next) : h.handedOut <:+ next.handedOut := by
  induction later generalizing h with
  | nil =>
    cases ran
    exact List.suffix_rfl
  | cons request later ih =>
    cases done : h.state.perform request with
    | error failure =>
      simp only [List.foldlM_cons, bind, Except.bind, History.perform, done] at ran
      cases ran
    | ok state =>
      simp only [List.foldlM_cons, bind, Except.bind, History.perform, done] at ran
      exact (List.suffix_append _ _).trans (ih ran)

theorem Ledger.finished_suffix (before later : List (Request N)) :
    (after before).finished <:+ (after (before ++ later)).finished := by
  induction later using List.reverseRecOn with
  | nil => simp
  | append_singleton later request ih =>
    rw [← List.append_assoc, after_concat]
    refine ih.trans ?_
    unfold step
    split
    · exact List.suffix_cons _ _
    · exact List.suffix_rfl

theorem Disciplined.beginning {before later : List (Request N)}
    (d : Disciplined (before ++ later)) : Disciplined before := by
  induction later using List.reverseRecOn with
  | nil => rwa [List.append_nil] at d
  | append_singleton later request ih =>
    rw [← List.append_assoc] at d
    exact ih d.initial

namespace RenderState

variable {requests : List (Request N)}

/-- In a disciplined run whose groups start empty, no request ever damages a list. -/
theorem run_intact (disciplined : Disciplined requests) (cleared : ClearsGroups requests) :
    ∃ h, History.run requests = .ok h ∧ run requests = .ok h.state ∧
      h.state.nodes.size = Request.allocations requests ∧
      Intact (Request.appended requests) h (Ledger.after requests) ∧
      (Ledger.after requests).Separate requests := by
  induction requests using List.reverseRecOn with
  | nil => exact ⟨{}, rfl, rfl, rfl, .initial, .initial⟩
  | append_singleton requests request ih =>
    obtain ⟨before, -, entered⟩ := List.isChain_append.mp cleared
    obtain ⟨h, recorded, ran, size, intact, separate⟩ := ih disciplined.initial before
    have entered : requests.getLast? = some .push → request = .clear :=
      fun last => entered .push last request rfl rfl
    have ready : ∀ id, request = .append id →
        h.state.nodes.Has id ∧ id ∉ Request.appended requests := by
      rintro id rfl
      obtain ⟨known, new⟩ := disciplined.ready
      exact ⟨Nat.lt_of_lt_of_eq known size.symm, new⟩
    have apart : request.appended? ≠ none → (Ledger.after requests).Apart := by
      refine fun append => separate.apart fun last => append ?_
      rw [entered last]
      rfl
    obtain ⟨next, done, grown, kept⟩ :=
      intact.perform (disciplined.ordinary request (by simp)) apart ready
    rw [Ledger.after_concat]
    refine ⟨_, History.run_concat recorded done, (run_concat request ran).trans done, ?_, ?_,
      separate.step (fun id same => (ready id same).2) entered⟩
    · rw [grown, size, Request.allocations_append]
    · rw [Request.appended_append]
      exact kept

/-- The frames handed out by the beginning of a run hold the same lists at its end. -/
theorem run_keeps_handedOut {before later : List (Request N)} {earlier h : History N}
    (recorded : History.run before = .ok earlier) (ran : History.run (before ++ later) = .ok h)
    (held : List.Forall₂ (Frame.Holds earlier.state.nodes) earlier.handedOut
      (Ledger.after before).finished)
    (holds : List.Forall₂ (Frame.Holds h.state.nodes) h.handedOut
      (Ledger.after (before ++ later)).finished) :
    List.Forall₂ (Frame.Holds h.state.nodes) earlier.handedOut (Ledger.after before).finished := by
  have frames : earlier.handedOut <:+ h.handedOut := by
    rw [History.run, List.foldlM_append] at ran
    rw [History.run] at recorded
    rw [recorded] at ran
    exact History.handedOut_suffix ran
  have sequences := Ledger.finished_suffix before later
  rw [List.suffix_iff_eq_drop.mp frames, List.suffix_iff_eq_drop.mp sequences, held.length_eq,
    holds.length_eq]
  exact List.forall₂_drop _ holds

/-- In every state that a disciplined run reaches whose groups start empty, every frame, be it
current, saved or handed out, holds exactly the nodes that were appended in it since it was last
cleared. No two frames share a node, except that right after entering a group the current frame is
still a copy of the one around it. And the frames that the beginning of the run had handed out hold
at its end what they held there. -/
theorem run_keeps_lists (disciplined : Disciplined requests) (cleared : ClearsGroups requests) :
    ∃ h, History.run requests = .ok h ∧ run requests = .ok h.state ∧
      List.Forall₂ (Frame.Holds h.state.nodes) h.frames (Ledger.after requests).all ∧
      (Ledger.after requests).others.Pairwise List.Disjoint ∧
      (requests.getLast? ≠ some .push → (Ledger.after requests).all.Pairwise List.Disjoint) ∧
      ∀ before later, requests = before ++ later →
        ∃ earlier, History.run before = .ok earlier ∧
          List.Forall₂ (Frame.Holds earlier.state.nodes) earlier.handedOut
            (Ledger.after before).finished ∧
          List.Forall₂ (Frame.Holds h.state.nodes) earlier.handedOut
            (Ledger.after before).finished := by
  obtain ⟨h, recorded, ran, -, intact, separate⟩ := run_intact disciplined cleared
  refine ⟨h, recorded, ran, intact.holds, separate.outside, separate.apart, ?_⟩
  intro before later split
  subst split
  obtain ⟨earlier, recorded', -, -, intact', -⟩ :=
    run_intact disciplined.beginning cleared.left_of_append
  exact ⟨earlier, recorded', intact'.holds_handedOut,
    run_keeps_handedOut recorded' recorded intact'.holds_handedOut intact.holds_handedOut⟩

/-- A group within a group, both taken up into the list around them. -/
theorem run_keeps_lists_nested :
    let requests : List (Request Char) :=
      [.alloc 'a', .alloc 'b', .alloc 'c', .alloc 'd', .append ⟨0⟩, .push, .clear, .append ⟨1⟩,
        .push, .clear, .append ⟨2⟩, .pop, .pop, .append ⟨3⟩]
    Disciplined requests ∧ ClearsGroups requests ∧ ∃ h, History.run requests = .ok h ∧
      List.Forall₂ (Frame.Holds h.state.nodes) h.frames [[⟨0⟩, ⟨3⟩], [⟨1⟩], [⟨2⟩]] ∧
      ([[⟨0⟩, ⟨3⟩], [⟨1⟩], [⟨2⟩]] : List (List NodeId)).Pairwise List.Disjoint := by
  intro requests
  have disciplined : Disciplined requests :=
    { ordinary := by decide
      known := fun
        | 4, _, found | 7, _, found | 10, _, found | 13, _, found => by
          cases found
          decide
        | 0, _, found | 1, _, found | 2, _, found | 3, _, found | 5, _, found | 6, _, found
        | 8, _, found | 9, _, found | 11, _, found | 12, _, found | _ + 14, _, found => by
          cases found
      once := by decide }
  have cleared : ClearsGroups requests := by
    unfold ClearsGroups
    decide
  obtain ⟨h, recorded, -, lists, -, apart, -⟩ := run_keeps_lists disciplined cleared
  exact ⟨disciplined, cleared, h, recorded, lists, apart (by decide)⟩

end RenderState

end TypesetKernel
