import TypesetKernel.Proofs.RenderState.Requests
import TypesetKernel.Proofs.RenderState.Sequences

/-!
The ends of frames. As long as heads and tails are left to appending, clearing and groups, a frame
has both ends or neither and its ends are nodes, whatever is appended and however nodes are linked
(`Complete`). So the tail that appending links is always a node, and the only append that fails is
that of something that is no node (`frames_stay_complete`).
-/

namespace TypesetKernel

variable {N : Type}

def Request.setsEnds : Request N → Bool
  | .setHead _ | .setTail _ => true
  | _ => false

/-- The frame has both ends or neither, and its ends are nodes. -/
structure Frame.Complete (nodes : NodeArena N) (frame : Frame) : Prop where
  both : frame.head = none ↔ frame.tail = none
  known : ∀ id, frame.head = some id ∨ frame.tail = some id → nodes.Has id

namespace Frame.Complete

variable {nodes more : NodeArena N} {frame : Frame}

theorem empty (noHead : frame.head = none) (noTail : frame.tail = none) :
    frame.Complete nodes where
  both := iff_of_true noHead noTail
  known := by simp [noHead, noTail]

theorem mono (complete : frame.Complete nodes) (size : nodes.size ≤ more.size) :
    frame.Complete more :=
  { complete with known := fun id isEnd => (complete.known id isEnd).mono size }

end Frame.Complete

namespace RenderState

/-- The frame under construction and the saved ones are complete. -/
def Complete (r : RenderState N) : Prop := ∀ frame ∈ r.current :: r.saved, frame.Complete r.nodes

variable {r next : RenderState N} {id : NodeId}

/-! ## Appending -/

theorem append_of_not_has (unknown : ¬ r.nodes.Has id) :
    r.append id = .error (.unknownNode id) := by
  have absent : r.nodes.slot? id = none := by
    cases found : r.nodes.slot? id with
    | none => rfl
    | some slot => exact absurd (NodeArena.has_iff.mpr ⟨slot, found⟩) unknown
  simp only [append, NodeArena.get?, absent, Option.map_none]

/-- A node goes behind the tail, which is a node itself, and no other link changes. -/
theorem append_of_has (complete : r.current.Complete r.nodes) (known : r.nodes.Has id) :
    ∃ next, r.append id = .ok next ∧ next.saved = r.saved ∧ next.nodes.size = r.nodes.size ∧
      next.current.tail = some id ∧ next.current.head = some (r.current.head.getD id) ∧
      ∀ other, next.nodes.successor? other =
        if r.current.tail = some other then some id else r.nodes.successor? other := by
  cases tail : r.current.tail with
  | none =>
    have head : r.current.head = none := complete.both.mpr tail
    refine ⟨_, append_of_no_tail known tail, rfl, rfl, rfl, ?_, ?_⟩
    · rw [head]
      rfl
    · intro other
      rw [if_neg nofun]
      rfl
  | some last =>
    obtain ⟨nodes, linked, size, link, others⟩ :=
      r.nodes.link?_of_has (complete.known last (.inr tail)) (some id)
    have head : r.current.head ≠ none := fun absent => by
      rw [complete.both.mp absent] at tail
      cases tail
    obtain ⟨first, head⟩ := Option.ne_none_iff_exists'.mp head
    refine ⟨_, append_of_tail known tail linked, rfl, size, rfl, ?_, ?_⟩
    · simp [head]
    · intro other
      by_cases same : other = last
      · rw [same, if_pos rfl]
        exact link
      · rw [if_neg fun isTail => same (Option.some.inj isTail).symm]
        exact others other same

/-! ## Runs -/

namespace Complete

theorem initial : ({} : RenderState N).Complete :=
  List.forall_mem_singleton.mpr (.empty rfl rfl)

/-- More nodes do no harm. -/
theorem of_nodes (complete : r.Complete) {nodes : NodeArena N} (size : r.nodes.size ≤ nodes.size) :
    RenderState.Complete { r with nodes } :=
  fun frame member => (complete frame member).mono size

theorem of_current (complete : r.Complete) {frame : Frame} (current : frame.Complete r.nodes) :
    RenderState.Complete { r with current := frame } :=
  List.forall_mem_cons.mpr ⟨current, (List.forall_mem_cons.mp complete).2⟩

theorem pop (complete : r.Complete) : (r.pop?.elim r Prod.snd).Complete := by
  obtain ⟨nodes, current, saved, mode⟩ := r
  cases saved with
  | nil => exact complete
  | cons frame saved => exact (List.forall_mem_cons.mp complete).2

theorem append (complete : r.Complete) (done : r.append id = .ok next) : next.Complete := by
  obtain ⟨current, saved⟩ := List.forall_mem_cons.mp complete
  by_cases known : r.nodes.Has id
  · obtain ⟨after, same, frames, size, tail, head, -⟩ := append_of_has current known
    cases done.symm.trans same
    refine List.forall_mem_cons.mpr ⟨{ both := ?_, known := ?_ }, ?_⟩
    · simp [head, tail]
    · intro other isEnd
      have inside : r.nodes.Has other := by
        rw [head, tail, Option.some.injEq, Option.some.injEq] at isEnd
        rcases isEnd with rfl | rfl
        · cases first : r.current.head with
          | none => exact known
          | some first' => exact current.known _ (.inl first)
        · exact known
      exact inside.mono size.ge
    · intro frame member
      rw [frames] at member
      exact (saved frame member).mono size.ge
  · rw [append_of_not_has known] at done
    cases done

theorem perform (complete : r.Complete) {request : Request N} (apart : request.setsEnds = false)
    (done : r.perform request = .ok next) : next.Complete := by
  obtain ⟨current, saved⟩ := List.forall_mem_cons.mp complete
  cases request with
  | append id => exact complete.append done
  | setHead head => cases apart
  | setTail tail => cases apart
  | alloc value =>
    cases done
    have grown : r.nodes.size ≤ (r.nodes.alloc value).2.size := by
      rw [NodeArena.size_alloc]
      exact Nat.le_succ _
    exact complete.of_nodes grown
  | push =>
    cases done
    exact List.forall_mem_cons.mpr ⟨current, complete⟩
  | pop =>
    cases done
    exact complete.pop
  | clear =>
    cases done
    exact complete.of_current (.empty rfl rfl)
  | setPrevGraf lines =>
    cases done
    exact complete.of_current { current with }
  | setAux aux =>
    cases done
    exact complete.of_current { current with }
  | setMode mode =>
    cases done
    exact complete
  | setNode id value =>
    cases done
    cases changed : r.nodes.set? id value with
    | none => simpa [setNode?, changed] using complete
    | some nodes =>
      have size := (NodeArena.set?_eq_some changed).1
      simpa [setNode?, changed] using complete.of_nodes size.ge
  | link id target =>
    cases done
    cases linked : r.nodes.link? id target with
    | none => simpa [link?, linked] using complete
    | some nodes =>
      have size := (NodeArena.modify?_eq_some linked).2.1
      simpa [link?, linked] using complete.of_nodes size.ge

/-- A request that fails leaves the frames as they are. -/
theorem respond (complete : r.Complete) {request : Request N} (apart : request.setsEnds = false) :
    (r.respond request).2.Complete := by
  cases done : r.perform request with
  | ok next =>
    rw [respond_of_ok done]
    exact complete.perform apart done
  | error failure =>
    rw [respond_of_error done]
    exact complete

theorem serve (complete : r.Complete) {requests : List (Request N)}
    (apart : ∀ request ∈ requests, request.setsEnds = false) :
    (serve RenderState.respond r requests).2.Complete := by
  induction requests generalizing r with
  | nil => exact complete
  | cons request rest ih =>
    obtain ⟨first, later⟩ := List.forall_mem_cons.mp apart
    exact ih (complete.respond first) later

end Complete

/-- Whatever is requested from the start on, short of setting a head or a tail: every frame has both
ends or neither, and its ends are nodes. Appending fails exactly for what is no node and then
changes nothing, so it never fails for the tail. Otherwise the node becomes the tail, and the head
where there was none, and only the link of the old tail changes. -/
theorem frames_stay_complete (requests : List (Request N))
    (apart : ∀ request ∈ requests, request.setsEnds = false) :
    let r := (serve respond ({} : RenderState N) requests).2
    (∀ frame ∈ r.current :: r.saved, (frame.head = none ↔ frame.tail = none) ∧
      ∀ id, frame.head = some id ∨ frame.tail = some id → r.nodes.Has id) ∧
    ∀ id,
      let next := (r.respond (.append id)).2
      (∀ failure, (r.respond (.append id)).1 = .error failure ↔
        ¬ r.nodes.Has id ∧ failure = .unknownNode id) ∧
      (¬ r.nodes.Has id → next = r) ∧
      (r.nodes.Has id → (r.respond (.append id)).1 = .ok .done ∧
        next.current.tail = some id ∧ next.current.head = some (r.current.head.getD id) ∧
        ∀ other, next.nodes.successor? other =
          if r.current.tail = some other then some id else r.nodes.successor? other) := by
  intro r
  have complete : r.Complete := Complete.initial.serve apart
  refine ⟨fun frame member => ⟨(complete frame member).both, (complete frame member).known⟩, ?_⟩
  intro id next
  by_cases known : r.nodes.Has id
  · obtain ⟨after, done, -, -, tail, head, links⟩ :=
      append_of_has (complete _ List.mem_cons_self) known
    have answered : r.respond (.append id) = (.ok .done, after) := respond_of_ok done
    have result : next = after := congrArg Prod.snd answered
    rw [answered, result]
    exact ⟨by simp [known], fun unknown => absurd known unknown, fun _ => ⟨rfl, tail, head, links⟩⟩
  · have answered : r.respond (.append id) = (.error (.unknownNode id), r) :=
      respond_of_error (append_of_not_has known)
    have result : next = r := congrArg Prod.snd answered
    rw [answered, result]
    exact ⟨by simp [known, eq_comm], fun _ => rfl, fun isNode => absurd isNode known⟩

/-- A node that is appended twice, and so linked to itself, a link to nowhere, and a group that is
entered with a copy of the frame; node 3 was never allocated. -/
theorem frames_stay_complete_loop :
    let requests : List (Request Char) :=
      [.append ⟨3⟩, .alloc 'a', .append ⟨0⟩, .append ⟨0⟩, .alloc 'b', .push, .append ⟨1⟩,
        .link ⟨1⟩ (some ⟨9⟩), .append ⟨7⟩, .pop, .pop]
    let r := (serve respond {} requests).2
    (∀ request ∈ requests, request.setsEnds = false) ∧
      (r.respond (.append ⟨3⟩)).1 = .error (.unknownNode ⟨3⟩) ∧
      (r.respond (.append ⟨1⟩)).1 = .ok .done ∧
      (r.respond (.append ⟨1⟩)).2.nodes.successor? ⟨0⟩ = some ⟨1⟩ := by
  intro requests r
  have apart : ∀ request ∈ requests, request.setsEnds = false := by decide
  obtain ⟨-, appends⟩ := frames_stay_complete requests apart
  have unknown : ¬ r.nodes.Has ⟨3⟩ := (by decide : ¬ 3 < r.nodes.size)
  have known : r.nodes.Has ⟨1⟩ := (by decide : 1 < r.nodes.size)
  obtain ⟨done, -, -, links⟩ := (appends ⟨1⟩).2.2 known
  refine ⟨apart, ((appends ⟨3⟩).1 _).mpr ⟨unknown, rfl⟩, done, ?_⟩
  rw [links ⟨0⟩]
  decide

end RenderState

end TypesetKernel
