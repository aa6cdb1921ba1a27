import Mathlib.Data.List.Nodup
import TypesetKernel.Proofs.NodeArena
import TypesetKernel.Proofs.RenderState.Requests

/-!
What the frames of a render state stand for. Each frame stands for a sequence of nodes, and a state
for the sequence under construction and the saved ones (`Sequences`). Entering a group copies a
frame but not its nodes, so the sequences of two frames share a beginning or nothing at all; behind
the shared beginning only the inner frame's links are kept up. That is why a frame's list may go on
behind its tail, but never differs before it (`run_represents`).
-/

namespace TypesetKernel

variable {N : Type}

namespace RenderState

variable {r : RenderState N} {id last : NodeId}

theorem append_of_no_tail (known : r.nodes.Has id) (tail : r.current.tail = none) :
    r.append id =
      .ok (r.mapFrame fun frame => { frame with head := some id, tail := some id }) := by
  obtain ⟨slot, found⟩ := NodeArena.has_iff.mp known
  simp only [append, NodeArena.get?, found, Option.map_some, tail]

theorem append_of_tail {nodes : NodeArena N} (known : r.nodes.Has id)
    (tail : r.current.tail = some last) (linked : r.nodes.link? last (some id) = some nodes) :
    r.append id = .ok { r with nodes, current := { r.current with tail := some id } } := by
  obtain ⟨slot, found⟩ := NodeArena.has_iff.mp known
  simp only [append, NodeArena.get?, found, Option.map_some, tail, linked]

theorem nodes_pop (r : RenderState N) : (r.pop?.elim r Prod.snd).nodes = r.nodes := by
  rw [pop?]
  cases r.saved <;> rfl

end RenderState

/-- The sequence of nodes under construction and the saved ones, innermost first. -/
structure Sequences where
  current : List NodeId := []
  saved : List (List NodeId) := []
  deriving DecidableEq, Repr

namespace Sequences

def all (l : Sequences) : List (List NodeId) := l.current :: l.saved

/-- What a request does to the sequences. -/
def step (l : Sequences) : Request N → Sequences
  | .append id => { l with current := l.current ++ [id] }
  | .push => { l with saved := l.current :: l.saved }
  | .pop =>
    match l.saved with
    | [] => l
    | ids :: saved => { current := ids, saved }
  | .clear => { l with current := [] }
  | _ => l

def after (requests : List (Request N)) : Sequences := requests.foldl step {}

theorem after_concat (requests : List (Request N)) (request : Request N) :
    after (requests ++ [request]) = (after requests).step request := by
  rw [after, List.foldl_append]
  rfl

end Sequences

/-- The frame begins and ends like the sequence. -/
def Frame.Spans (frame : Frame) (ids : List NodeId) : Prop :=
  frame.head = ids.head? ∧ frame.tail = ids.getLast?

/-- The frame begins and ends like the sequence, and the list at its head begins with it. -/
def Frame.Represents (nodes : NodeArena N) (frame : Frame) (ids : List NodeId) : Prop :=
  frame.Spans ids ∧ (nodes.walk frame.head ids.length).map Prod.fst = ids

/-- The nodes of the sequence are linked one to the next. `used` are the nodes that have been
appended so far, in whatever frame. -/
structure Threaded (nodes : NodeArena N) (used : List NodeId) (ids : List NodeId) : Prop where
  linked : nodes.Linked ids
  nodup : ids.Nodup
  members : ids ⊆ used

theorem Threaded.more {nodes : NodeArena N} {used ids new : List NodeId}
    (threaded : Threaded nodes used ids) : Threaded nodes (used ++ new) ids :=
  { threaded with members := fun _ member => List.mem_append_left _ (threaded.members member) }

/-- A new link at a node that is at most the last of a sequence does not touch the sequence. -/
theorem Threaded.relink {nodes next : NodeArena N} {used ids : List NodeId} {last : NodeId}
    (threaded : Threaded nodes used ids) (apart : last ∉ ids.dropLast)
    (others : ∀ other, other ≠ last → next.successor? other = nodes.successor? other) :
    Threaded next used ids :=
  { threaded with
    linked := threaded.linked.congr fun other inside =>
      others other fun same => apart (same ▸ inside) }

theorem Threaded.concat {nodes : NodeArena N} {used front : List NodeId} {last id : NodeId}
    (threaded : Threaded nodes used (front ++ [last])) (new : id ∉ used)
    (link : nodes.successor? last = some id) :
    Threaded nodes (used ++ [id]) (front ++ [last] ++ [id]) where
  linked := threaded.linked.concat link
  nodup := by
    have apart : id ∉ front ++ [last] := fun inside => new (threaded.members inside)
    exact threaded.nodup.append (List.nodup_singleton id) (List.disjoint_singleton.mpr apart)
  members := List.append_subset.mpr ⟨threaded.more.members, List.subset_append_right _ _⟩

/-- What holds of the frames and their sequences all along a run. -/
structure Matches (used : List NodeId) (r : RenderState N) (l : Sequences) : Prop where
  spans : List.Forall₂ Frame.Spans (r.current :: r.saved) l.all
  threaded : ∀ ids ∈ l.all, Threaded r.nodes used ids
  /-- An outer sequence is a beginning of an inner one, or they have nothing in common. -/
  nested : l.all.Pairwise fun inner outer => outer <+: inner ∨ inner.Disjoint outer
  known : ∀ id ∈ used, r.nodes.Has id
  /-- Only appending makes links. -/
  fresh : ∀ id, id ∉ used → r.nodes.successor? id = none

namespace Matches

variable {used : List NodeId} {r : RenderState N} {l : Sequences}

theorem initial : Matches [] ({} : RenderState N) {} where
  spans := .cons ⟨rfl, rfl⟩ .nil
  threaded := List.forall_mem_singleton.mpr ⟨.nil, .nil, List.nil_subset _⟩
  nested := List.pairwise_singleton _ _
  known := by simp
  fresh := fun _ _ => rfl

/-! ## Requests that keep all links -/

/-- Adding nodes and changing their values changes no sequence. -/
theorem of_nodes (m : Matches used r l) {nodes : NodeArena N}
    (successors : ∀ id, nodes.successor? id = r.nodes.successor? id)
    (size : r.nodes.size ≤ nodes.size) : Matches used { r with nodes } l :=
  { m with
    threaded := fun ids member =>
      { m.threaded ids member with
        linked := (m.threaded ids member).linked.congr fun id _ => successors id }
    known := fun id member => (m.known id member).mono size
    fresh := fun id new => (successors id).trans (m.fresh id new) }

/-- What a frame keeps apart from its ends does not matter. -/
theorem of_frame (m : Matches used r l) (change : Frame → Frame)
    (head : (change r.current).head = r.current.head)
    (tail : (change r.current).tail = r.current.tail) : Matches used (r.mapFrame change) l := by
  obtain ⟨⟨first, last⟩, saved⟩ := List.forall₂_cons.mp m.spans
  exact { m with spans := .cons ⟨head.trans first, tail.trans last⟩ saved }

theorem clear (m : Matches used r l) : Matches used r.clear (l.step (.clear : Request N)) where
  spans := .cons ⟨rfl, rfl⟩ (List.forall₂_cons.mp m.spans).2
  threaded := List.forall_mem_cons.mpr
    ⟨⟨.nil, .nil, List.nil_subset _⟩, (List.forall_mem_cons.mp m.threaded).2⟩
  nested := List.pairwise_cons.mpr
    ⟨fun _ _ => .inr (List.disjoint_nil_left _), (List.pairwise_cons.mp m.nested).2⟩
  known := m.known
  fresh := m.fresh

theorem push (m : Matches used r l) : Matches used r.push (l.step (.push : Request N)) where
  spans := .cons (List.forall₂_cons.mp m.spans).1 m.spans
  threaded := List.forall_mem_cons.mpr ⟨m.threaded _ List.mem_cons_self, m.threaded⟩
  nested := List.pairwise_cons.mpr
    ⟨List.forall_mem_cons.mpr ⟨.inl List.prefix_rfl, (List.pairwise_cons.mp m.nested).1⟩, m.nested⟩
  known := m.known
  fresh := m.fresh

theorem pop (m : Matches used r l) :
    Matches used (r.pop?.elim r Prod.snd) (l.step (.pop : Request N)) := by
  obtain ⟨nodes, current, saved, mode⟩ := r
  obtain ⟨ids, rest⟩ := l
  have spans := (List.forall₂_cons.mp m.spans).2
  cases saved with
  | nil =>
    cases spans
    exact m
  | cons frame saved =>
    cases spans with
    | cons span spans =>
      exact
        { spans := .cons span spans
          threaded := (List.forall_mem_cons.mp m.threaded).2
          nested := (List.pairwise_cons.mp m.nested).2
          known := m.known
          fresh := m.fresh }

/-! ## Appending -/

/-- Appending the node succeeds, adds it to the current sequence and leaves it without a link. -/
def Extends (used : List NodeId) (r : RenderState N) (l : Sequences) (id : NodeId) : Prop :=
  ∃ next, r.append id = .ok next ∧ next.nodes.size = r.nodes.size ∧
    next.nodes.successor? id = none ∧ Matches (used ++ [id]) next (l.step (.append id : Request N))

/-- Only the last node of an inner sequence can lie inside an outer one as its last node, so the
link behind it holds no outer sequence together. -/
private theorem last_not_mem_dropLast {front outer : List NodeId} {last : NodeId}
    (nodup : (front ++ [last]).Nodup)
    (nested : outer <+: front ++ [last] ∨ (front ++ [last]).Disjoint outer) :
    last ∉ outer.dropLast := by
  have alone : last ∉ front := by
    rw [List.nodup_append] at nodup
    exact fun member => nodup.2.2 last member last List.mem_cons_self rfl
  rcases nested with shared | apart
  · rcases List.prefix_concat_iff.mp shared with rfl | inside
    · rw [List.dropLast_concat]
      exact alone
    · exact fun member => alone (inside.subset (List.dropLast_subset _ member))
  · exact fun member => apart (by simp) (List.dropLast_subset _ member)

/-- Once a node is linked behind the current sequence, it belongs to that sequence alone. -/
theorem append_nested (m : Matches used r l) {id : NodeId} (new : id ∉ used) :
    (l.step (.append id : Request N)).all.Pairwise
      fun inner outer => outer <+: inner ∨ inner.Disjoint outer := by
  obtain ⟨current, saved⟩ := List.pairwise_cons.mp m.nested
  refine List.pairwise_cons.mpr ⟨fun outer member => ?_, saved⟩
  rcases current outer member with shared | apart
  · exact .inl (shared.trans (List.prefix_append _ _))
  · have elsewhere : id ∉ outer := fun inside =>
      new ((m.threaded outer (List.mem_cons_of_mem _ member)).members inside)
    refine .inr (List.disjoint_append_left.mpr ⟨apart, ?_⟩)
    exact List.singleton_disjoint.mpr elsewhere

/-- A node is appended to an empty sequence without any new link. -/
private theorem append_empty (m : Matches used r l) {id : NodeId} (known : r.nodes.Has id)
    (new : id ∉ used) (empty : l.current = []) :
    Extends used r l id := by
  obtain ⟨⟨-, tail⟩, saved⟩ := List.forall₂_cons.mp m.spans
  rw [empty] at tail
  refine ⟨r.mapFrame fun frame => { frame with head := some id, tail := some id },
    RenderState.append_of_no_tail known tail, rfl, m.fresh id new, ?_⟩
  have appended : (l.step (.append id : Request N)).current = [id] := by
    rw [Sequences.step, empty, List.nil_append]
  exact
    { spans := .cons (by rw [appended]; exact ⟨rfl, rfl⟩) saved
      threaded := List.forall_mem_cons.mpr
        ⟨by rw [appended]; exact ⟨.singleton _, List.nodup_singleton _, by simp⟩,
          fun ids member => (m.threaded ids (List.mem_cons_of_mem _ member)).more⟩
      nested := m.append_nested new
      known := List.forall_mem_append.mpr ⟨m.known, List.forall_mem_singleton.mpr known⟩
      fresh := fun other absent => m.fresh other fun old => absent (by simp [old]) }

/-- A node appended to a sequence becomes the link of the sequence's last node, which holds no
other sequence together. -/
private theorem append_behind (m : Matches used r l) {id last : NodeId} {front : List NodeId}
    (known : r.nodes.Has id) (new : id ∉ used) (shape : l.current = front ++ [last]) :
    Extends used r l id := by
  obtain ⟨⟨head, tail⟩, saved⟩ := List.forall₂_cons.mp m.spans
  obtain ⟨current, outer⟩ := List.forall_mem_cons.mp m.threaded
  have nested := (List.pairwise_cons.mp m.nested).1
  have appended : (l.step (.append id : Request N)).current = front ++ [last] ++ [id] := by
    rw [Sequences.step, shape]
  have lastUsed : last ∈ used := current.members (by simp [shape])
  rw [shape] at head tail current nested
  rw [List.getLast?_concat] at tail
  have unlinked : last ∉ (front ++ [last]).dropLast :=
    last_not_mem_dropLast current.nodup (.inl List.prefix_rfl)
  obtain ⟨nodes, linked, size, link, others⟩ :=
    r.nodes.link?_of_has (m.known last lastUsed) (some id)
  have behind : nodes.successor? id = none := by
    rw [others id fun same => new (same ▸ lastUsed)]
    exact m.fresh id new
  refine ⟨_, RenderState.append_of_tail known tail linked, size, behind, ?_⟩
  exact
    { spans := .cons (by rw [appended]; exact ⟨by simp [head], by simp⟩) saved
      threaded := by
        refine List.forall_mem_cons.mpr ⟨?_, ?_⟩
        · rw [appended]
          exact (current.relink unlinked others).concat new link
        · intro ids member
          have apart := last_not_mem_dropLast current.nodup (nested ids member)
          exact ((outer ids member).relink apart others).more
      nested := m.append_nested new
      known := List.forall_mem_append.mpr
        ⟨fun other old => (m.known other old).mono size.ge,
          List.forall_mem_singleton.mpr (known.mono size.ge)⟩
      fresh := fun other absent => by
        have unused : other ∉ used := fun old => absent (List.mem_append_left _ old)
        rw [others other fun same => unused (same ▸ lastUsed)]
        exact m.fresh other unused }

theorem append (m : Matches used r l) {id : NodeId} (known : r.nodes.Has id) (new : id ∉ used) :
    Extends used r l id := by
  rcases List.eq_nil_or_concat' l.current with empty | ⟨front, last, shape⟩
  · exact m.append_empty known new empty
  · exact m.append_behind known new shape

/-! ## Runs -/

private theorem nothing_appended (m : Matches used r l) : Matches (used ++ []) r l := by
  rwa [List.append_nil]

/-- An ordinary request whose node exists and is in no list yet succeeds. -/
theorem perform (m : Matches used r l) {request : Request N} (ordinary : request.isOrdinary)
    (ready : ∀ id, request = .append id → r.nodes.Has id ∧ id ∉ used) :
    ∃ next, r.perform request = .ok next ∧
      next.nodes.size = r.nodes.size + Request.allocations [request] ∧
      Matches (used ++ Request.appended [request]) next (l.step request) := by
  cases request with
  | append id =>
    obtain ⟨known, new⟩ := ready id rfl
    obtain ⟨next, done, size, -, m⟩ := m.append known new
    exact ⟨next, done, size, m⟩
  | alloc value =>
    have grown : r.nodes.size ≤ (r.nodes.alloc value).2.size := by
      rw [NodeArena.size_alloc]
      exact Nat.le_succ _
    exact ⟨_, rfl, r.nodes.size_alloc value,
      (m.of_nodes (r.nodes.successor?_alloc value) grown).nothing_appended⟩
  | push => exact ⟨_, rfl, rfl, m.push.nothing_appended⟩
  | pop =>
    refine ⟨_, rfl, ?_, m.pop.nothing_appended⟩
    rw [RenderState.nodes_pop]
    rfl
  | clear => exact ⟨_, rfl, rfl, m.clear.nothing_appended⟩
  | setPrevGraf lines => exact ⟨_, rfl, rfl, (m.of_frame _ rfl rfl).nothing_appended⟩
  | setAux aux => exact ⟨_, rfl, rfl, (m.of_frame _ rfl rfl).nothing_appended⟩
  | setMode mode => exact ⟨_, rfl, rfl, Matches.nothing_appended { m with }⟩
  | setNode id value =>
    cases changed : r.nodes.set? id value with
    | none =>
      have same : r.setNode? id value = none := by rw [RenderState.setNode?, changed]; rfl
      exact ⟨r, by rw [RenderState.perform, same]; rfl, rfl, m.nothing_appended⟩
    | some nodes =>
      obtain ⟨size, successors⟩ := NodeArena.set?_eq_some changed
      have next : r.setNode? id value = some { r with nodes } := by
        rw [RenderState.setNode?, changed]
        rfl
      exact ⟨_, by rw [RenderState.perform, next]; rfl, size,
        (m.of_nodes successors size.ge).nothing_appended⟩
  | setHead head => cases ordinary
  | setTail tail => cases ordinary
  | link id target => cases ordinary

/-- The list at the head of a frame begins with the sequence of the frame. -/
theorem represents (m : Matches used r l) :
    List.Forall₂ (Frame.Represents r.nodes) (r.current :: r.saved) l.all := by
  refine List.forall₂_iff_zip.mpr ⟨m.spans.length_eq, fun {frame ids} member => ?_⟩
  have spans := List.forall₂_zip m.spans member
  have threaded := m.threaded ids (List.of_mem_zip member).2
  have walked := NodeArena.map_fst_walk (fun id inside => m.known id (threaded.members inside))
    threaded.linked 0
  refine ⟨spans, ?_⟩
  rw [spans.1, ← Nat.add_zero ids.length, walked, NodeArena.walk_zero, List.map_nil,
    List.append_nil]

end Matches

/-- Requests that leave the building of lists to `append`, `push`, `pop` and `clear`, and append
only nodes that exist, each of them once. Nodes are numbered in the order of their creation. -/
structure Disciplined (requests : List (Request N)) : Prop where
  ordinary : ∀ request ∈ requests, request.isOrdinary
  known : ∀ i id, requests[i]? = some (.append id) →
    id.index.toNat < Request.allocations (requests.take i)
  once : (Request.appended requests).Nodup

namespace Disciplined

variable {before : List (Request N)} {request : Request N}

/-- Discipline is kept from the start of a run on. -/
theorem initial (d : Disciplined (before ++ [request])) : Disciplined before where
  ordinary := fun other member => d.ordinary other (List.mem_append_left _ member)
  known := fun i id found => by
    have inside : i < before.length := (List.getElem?_eq_some_iff.mp found).1
    have known := d.known i id (by rw [List.getElem?_append_left inside, found])
    rwa [List.take_append_of_le_length inside.le] at known
  once := by
    have once := d.once
    rw [Request.appended_append] at once
    exact once.of_append_left

/-- The last node that is appended exists and was not appended before. -/
theorem ready {id : NodeId} (d : Disciplined (before ++ [.append id])) :
    id.index.toNat < Request.allocations before ∧ id ∉ Request.appended before := by
  constructor
  · have known := d.known before.length id (by simp)
    rwa [List.take_left] at known
  · have once := d.once
    rw [Request.appended_append] at once
    exact fun member => (List.nodup_append.mp once).2.2 id member id List.mem_cons_self rfl

end Disciplined

namespace RenderState

/-- A disciplined run never fails, and its frames match their sequences all along. -/
theorem run_matches {requests : List (Request N)} (disciplined : Disciplined requests) :
    ∃ r, run requests = .ok r ∧ r.nodes.size = Request.allocations requests ∧
      Matches (Request.appended requests) r (Sequences.after requests) := by
  induction requests using List.reverseRecOn with
  | nil => exact ⟨{}, rfl, rfl, Matches.initial⟩
  | append_singleton requests request ih =>
    obtain ⟨r, ran, size, m⟩ := ih disciplined.initial
    have ordinary := disciplined.ordinary request (by simp)
    obtain ⟨next, done, grown, matched⟩ := m.perform ordinary fun id same => by
      subst same
      obtain ⟨known, new⟩ := disciplined.ready
      exact ⟨Nat.lt_of_lt_of_eq known size.symm, new⟩
    refine ⟨next, (run_concat request ran).trans done, ?_, ?_⟩
    · rw [grown, size, Request.allocations_append]
    · rw [Sequences.after_concat, Request.appended_append]
      exact matched

/-- A run that ends with appending leaves the appended node without a link. -/
theorem run_append {requests : List (Request N)} {id : NodeId}
    (disciplined : Disciplined (requests ++ [.append id])) :
    ∃ r, run (requests ++ [.append id]) = .ok r ∧ r.nodes.successor? id = none := by
  obtain ⟨r, ran, size, m⟩ := run_matches disciplined.initial
  obtain ⟨known, new⟩ := disciplined.ready
  obtain ⟨next, done, -, behind, -⟩ := m.append (Nat.lt_of_lt_of_eq known size.symm) new
  exact ⟨next, (run_concat _ ran).trans done, behind⟩

/-- In every state that a disciplined run reaches, each frame begins and ends like its sequence and
the list at its head begins with its sequence; directly after appending, the list under
construction is exactly its sequence, however far it is followed. -/
theorem run_represents {requests : List (Request N)} (disciplined : Disciplined requests) :
    ∃ r, run requests = .ok r ∧
      List.Forall₂ (Frame.Represents r.nodes) (r.current :: r.saved)
        (Sequences.after requests).all ∧
      ∀ before id, requests = before ++ [.append id] → ∀ more,
        (r.list ((Sequences.after requests).current.length + more)).map Prod.fst
          = (Sequences.after requests).current := by
  obtain ⟨r, ran, -, m⟩ := run_matches disciplined
  refine ⟨r, ran, m.represents, ?_⟩
  intro before id split more
  subst split
  obtain ⟨next, same, behind⟩ := run_append disciplined
  cases ran.symm.trans same
  have ⟨⟨head, _⟩, _⟩ := List.forall₂_cons.mp m.spans
  have threaded := m.threaded _ List.mem_cons_self
  have last : (Sequences.after (before ++ [.append id])).current.getLast? = some id := by
    rw [Sequences.after_concat, Sequences.step, List.getLast?_concat]
  rw [list, head, NodeArena.map_fst_walk (fun id inside => m.known id (threaded.members inside))
    threaded.linked, last, Option.bind_some, behind, NodeArena.walk_none, List.map_nil,
    List.append_nil]

/-- Two groups, one after the other, go on behind a node of the list around them. -/
theorem run_represents_groups :
    let requests : List (Request Char) :=
      [.alloc 'a', .alloc 'b', .alloc 'c', .append ⟨0⟩, .push, .append ⟨1⟩, .pop, .push,
        .append ⟨2⟩]
    Disciplined requests ∧ ∃ r, run requests = .ok r ∧
      List.Forall₂ (Frame.Represents r.nodes) (r.current :: r.saved) [[⟨0⟩, ⟨2⟩], [⟨0⟩]] ∧
      ∀ more, (r.list (2 + more)).map Prod.fst = [⟨0⟩, ⟨2⟩] := by
  intro requests
  have disciplined : Disciplined requests :=
    { ordinary := by decide
      known := fun
        | 3, _, found | 5, _, found | 8, _, found => by
          cases found
          decide
        | 0, _, found | 1, _, found | 2, _, found | 4, _, found | 6, _, found | 7, _, found
        | _ + 9, _, found => by cases found
      once := by decide }
  obtain ⟨r, ran, frames, whole⟩ := run_represents disciplined
  exact ⟨disciplined, r, ran, frames, whole (requests.take 8) ⟨2⟩ rfl⟩

end RenderState

end TypesetKernel
