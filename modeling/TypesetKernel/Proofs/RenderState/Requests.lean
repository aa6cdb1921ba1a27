import TypesetKernel.Proofs.NodeArena
import TypesetKernel.Proofs.Runs
import TypesetKernel.RenderState

/-!
Runs of a render state: the requests that it is sent one after the other, starting from a state
without nodes. Only appending can fail, and it fails for a reason (`AppendFailure`). A request for
something that is not there, such as leaving a group that was never entered, changes nothing.

The operations can also be done in place, in the order in which the changes are made. Some of them
could stop between two changes: appending has to link the old tail before it moves on, and leaving a
group takes the frame off the stack before it goes into place. They come to the same as the
operations that give a new state only if they succeed (`realizes_operation`).
-/

namespace TypesetKernel

inductive Request (N : Type) where
  | alloc (value : N)
  | append (id : NodeId)
  | push
  | pop
  | clear
  | setHead (head : Option NodeId)
  | setTail (tail : Option NodeId)
  | setPrevGraf (lines : UInt32)
  | setAux (aux : Word)
  | setMode (mode : Mode)
  | setNode (id : NodeId) (value : N)
  | link (id : NodeId) (target : Option NodeId)
  deriving DecidableEq, Repr

namespace Request

variable {N : Type}

/-- Leaves the heads, the tails and the links to the other requests. -/
def isOrdinary : Request N → Bool
  | .setHead _ | .setTail _ | .link _ _ => false
  | _ => true

def appended? : Request N → Option NodeId
  | .append id => some id
  | _ => none

def isAlloc : Request N → Bool
  | .alloc _ => true
  | _ => false

/-- The nodes appended by some requests, in order. -/
def appended (requests : List (Request N)) : List NodeId := requests.filterMap appended?

/-- The number of nodes added by some requests. -/
def allocations (requests : List (Request N)) : Nat := requests.countP isAlloc

theorem eq_append_of_appended? {request : Request N} {id : NodeId}
    (appends : request.appended? = some id) : request = .append id := by
  cases request <;> cases appends
  rfl

theorem appended_append (first second : List (Request N)) :
    appended (first ++ second) = appended first ++ appended second := List.filterMap_append

theorem allocations_append (first second : List (Request N)) :
    allocations (first ++ second) = allocations first + allocations second := List.countP_append

end Request

namespace RenderState

variable {N : Type}

def perform (r : RenderState N) : Request N → Except AppendFailure (RenderState N)
  | .alloc value => .ok (r.alloc value).2
  | .append id => r.append id
  | .push => .ok r.push
  | .pop => .ok (r.pop?.elim r Prod.snd)
  | .clear => .ok r.clear
  | .setHead head => .ok (r.mapFrame fun frame => { frame with head })
  | .setTail tail => .ok (r.mapFrame fun frame => { frame with tail })
  | .setPrevGraf prevGraf => .ok (r.mapFrame fun frame => { frame with prevGraf })
  | .setAux aux => .ok (r.mapFrame fun frame => { frame with aux })
  | .setMode mode => .ok { r with mode }
  | .setNode id value => .ok ((r.setNode? id value).getD r)
  | .link id target => .ok ((r.link? id target).getD r)

/-- The state after some requests, if none of them failed. -/
def run (requests : List (Request N)) : Except AppendFailure (RenderState N) :=
  requests.foldlM perform {}

/-- One more request is done in the state that the requests before it lead to. -/
theorem run_concat {requests : List (Request N)} {r : RenderState N} (request : Request N)
    (before : run requests = .ok r) : run (requests ++ [request]) = r.perform request := by
  unfold run at before ⊢
  rw [List.foldlM_append, before]
  exact bind_pure (m := Except AppendFailure) (r.perform request)

end RenderState

/-! ## In place -/

/-- What a request to a render state answers. -/
inductive RenderAnswer (N : Type) where
  | done
  | allocated (id : NodeId)
  /-- The frame of the group that was left, if there was one. -/
  | left (frame : Option Frame)
  /-- The value of the node before it was changed, if there is such a node. -/
  | replaced (value : Option N)
  /-- Whether there is such a node. -/
  | linked (known : Bool)
  deriving DecidableEq, Repr

/-- The answers of requests that failed. -/
def RenderAnswer.failed {N : Type} : Except AppendFailure (RenderAnswer N) → Bool
  | .error _ | .ok (.left none) | .ok (.linked false) => true
  | _ => false

namespace RenderState

variable {N ε : Type} {r next : RenderState N}

/-! ## Operations -/

def linkInPlace (id : NodeId) (target : Option NodeId) : EStateM ε (RenderState N) Bool := do
  match (← get).nodes.link? id target with
  | some nodes =>
    modify fun r => { r with nodes }
    return true
  | none => return false

/-- The old tail is linked before the tail moves on, and it may turn out not to be a node. -/
def appendInPlace (id : NodeId) : EStateM AppendFailure (RenderState N) Unit := do
  if ((← get).nodes.get? id).isNone then
    throw (.unknownNode id)
  match (← get).current.tail with
  | none => modify fun r => r.mapFrame fun frame => { frame with head := some id }
  | some tail =>
    let known ← linkInPlace tail (some id)
    unless known do
      throw (.unknownTail tail)
  modify fun r => r.mapFrame fun frame => { frame with tail := some id }

/-- The saved frame is off the stack before it replaces the current one. -/
def popInPlace : EStateM ε (RenderState N) (Option Frame) := do
  match (← get).saved with
  | [] => return none
  | frame :: saved =>
    modify fun r => { r with saved }
    let left := (← get).current
    modify fun r => { r with current := frame }
    return some left

def setNodeInPlace (id : NodeId) (value : N) : EStateM ε (RenderState N) (Option N) := do
  let old := (← get).nodes.get? id
  match (← get).nodes.set? id value with
  | some nodes =>
    modify fun r => { r with nodes }
    return old
  | none => return none

/-- A change that is always possible. -/
def change (f : RenderState N → RenderState N) : EStateM ε (RenderState N) (RenderAnswer N) := do
  modify f
  return .done

def operation : Request N → EStateM AppendFailure (RenderState N) (RenderAnswer N)
  | .alloc value => return .allocated (← modifyGet fun r => r.alloc value)
  | .append id => do
    appendInPlace id
    return .done
  | .push => change push
  | .pop => return .left (← popInPlace)
  | .clear => change clear
  | .setHead head => change fun r => r.mapFrame fun frame => { frame with head }
  | .setTail tail => change fun r => r.mapFrame fun frame => { frame with tail }
  | .setPrevGraf prevGraf => change fun r => r.mapFrame fun frame => { frame with prevGraf }
  | .setAux aux => change fun r => r.mapFrame fun frame => { frame with aux }
  | .setMode mode => change fun r => { r with mode }
  | .setNode id value => return .replaced (← setNodeInPlace id value)
  | .link id target => return .linked (← linkInPlace id target)

def respond (r : RenderState N) (request : Request N) :
    Except AppendFailure (RenderAnswer N) × RenderState N :=
  settle (operation request) r

/-! ## Answers -/

/-- What a request answers that does not fail. -/
def answer (r : RenderState N) : Request N → RenderAnswer N
  | .alloc value => .allocated (r.alloc value).1
  | .pop => .left (r.pop?.map Prod.fst)
  | .setNode id _ => .replaced (r.nodes.get? id)
  | .link id target => .linked (r.link? id target).isSome
  | _ => .done

theorem settle_linkInPlace (r : RenderState N) (id : NodeId) (target : Option NodeId) :
    settle (linkInPlace id target : EStateM ε (RenderState N) Bool) r =
      (.ok (r.link? id target).isSome, (r.link? id target).getD r) := by
  cases linked : r.nodes.link? id target <;> simp [linkInPlace, link?, linked, Except.map]

theorem settle_setNodeInPlace (r : RenderState N) (id : NodeId) (value : N) :
    settle (setNodeInPlace id value : EStateM ε (RenderState N) (Option N)) r =
      (.ok (r.nodes.get? id), (r.setNode? id value).getD r) := by
  cases changed : r.nodes.set? id value with
  | none =>
    have absent := NodeArena.get?_of_set?_eq_none changed
    simp [setNodeInPlace, setNode?, changed, absent]
  | some nodes => simp [setNodeInPlace, setNode?, changed, Except.map]

theorem settle_popInPlace (r : RenderState N) :
    settle (popInPlace : EStateM ε (RenderState N) (Option Frame)) r =
      (.ok (r.pop?.map Prod.fst), r.pop?.elim r Prod.snd) := by
  cases saved : r.saved <;> simp [popInPlace, pop?, saved, Except.map]

theorem realizes_appendInPlace (id : NodeId) :
    Realizes (appendInPlace (N := N) id) fun r => (r.append id).map ((), ·) := by
  intro r
  cases known : r.nodes.get? id with
  | none =>
    have failed : r.append id = .error (.unknownNode id) := by simp [append, known]
    simp [appendInPlace, known, attempt, failed, Except.map]
  | some value =>
    cases tail : r.current.tail with
    | none =>
      have done : r.append id =
          .ok (r.mapFrame fun frame => { frame with head := some id, tail := some id }) := by
        simp [append, known, tail]
      simp [appendInPlace, known, tail, attempt, done, Except.map, mapFrame]
    | some last =>
      cases linked : r.nodes.link? last (some id) with
      | none =>
        have failed : r.append id = .error (.unknownTail last) := by
          simp [append, known, tail, linked]
        simp [appendInPlace, known, tail, settle_linkInPlace, link?, linked, attempt, failed,
          Except.map]
      | some nodes =>
        have done : r.append id =
            .ok { r with nodes, current := { r.current with tail := some id } } := by
          simp [append, known, tail, linked]
        simp [appendInPlace, known, tail, settle_linkInPlace, link?, linked, attempt, done,
          Except.map, mapFrame]

/-- Whatever is requested, the operation in place comes to the same as the function. -/
theorem realizes_operation (request : Request N) :
    Realizes (operation request) fun r =>
      (r.perform request).map fun next => (r.answer request, next) := by
  intro r
  cases request with
  | append id =>
    have same := realizes_appendInPlace id r
    cases done : r.append id <;>
      simp [operation, same, attempt, perform, answer, done, Except.map]
  | _ =>
    simp [operation, change, settle_popInPlace, settle_setNodeInPlace, settle_linkInPlace, attempt,
      perform, answer, Except.map]

/-- A request that does not fail gets its answer and leaves the state that follows. -/
theorem respond_of_ok {request : Request N} (done : r.perform request = .ok next) :
    r.respond request = (.ok (r.answer request), next) := by
  rw [respond, realizes_operation request r]
  exact attempt_of_ok (by rw [done]; rfl)

/-- A request that fails leaves nothing behind. -/
theorem respond_of_error {request : Request N} {failure : AppendFailure}
    (failed : r.perform request = .error failure) :
    r.respond request = (.error failure, r) := by
  rw [respond, realizes_operation request r]
  exact attempt_of_error (by rw [failed]; rfl)

/-- The tail is not a node, so the other node is not put behind it and the tail stays. -/
example :
    let r : RenderState Char := { nodes := ⟨#[⟨'a', none⟩]⟩, current := { tail := some ⟨5⟩ } }
    r.respond (.append ⟨0⟩) = (.error (.unknownTail ⟨5⟩), r) := by
  decide

end RenderState

end TypesetKernel
