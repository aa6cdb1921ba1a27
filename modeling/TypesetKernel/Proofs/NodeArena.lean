import Mathlib.Data.List.Chain
import Mathlib.Data.List.Nodup
import TypesetKernel.RenderState

/-!
Links in an arena. Allocating and changing values keep every link, and linking changes one link and
no other. A sequence whose nodes are linked one to the next is what a walk from its first node meets
first (`map_fst_walk`), and the whole list if the last node has no link (`Linked.lists`).

Links may run in a circle, meet each other or lead to nodes that do not exist. A walk is told by its
places: the head, and behind each node whatever the node is linked to. A place that comes again
brings everything behind it again, and a walk that never comes to a place again meets each node at
most once, so a walk ends behind at most as many nodes as there are or goes on forever
(`walk_ends_or_cycles`).
-/

namespace TypesetKernel.NodeArena

variable {N : Type} {a b : NodeArena N}

def Has (a : NodeArena N) (id : NodeId) : Prop := id.index.toNat < a.size

/-- Each node of the sequence has a link to the next one. -/
def Linked (a : NodeArena N) (ids : List NodeId) : Prop :=
  ids.IsChain fun id next => a.successor? id = some next

/-- The list at a head consists of these nodes, in order, and ends behind them. -/
def Lists (a : NodeArena N) (head : Option NodeId) (ids : List NodeId) : Prop :=
  ∀ limit, ids.length ≤ limit → (a.walk head limit).map Prod.fst = ids

theorem has_iff {id : NodeId} : a.Has id ↔ ∃ slot, a.slot? id = some slot := by
  simp [Has, size, slot?, Array.getElem?_eq_some_iff]

theorem Has.mono {id : NodeId} (known : a.Has id) (size : a.size ≤ b.size) : b.Has id :=
  Nat.lt_of_lt_of_le known size

/-! ## Changes -/

@[simp] theorem size_alloc (a : NodeArena N) (value : N) : (a.alloc value).2.size = a.size + 1 := by
  simp [alloc, size]

/-- A new node has no link, just like one that does not exist yet. -/
@[simp] theorem successor?_alloc (a : NodeArena N) (value : N) (id : NodeId) :
    (a.alloc value).2.successor? id = a.successor? id := by
  simp only [successor?, slot?, alloc, Array.getElem?_push]
  split
  · rename_i last
    simp [last]
  · rfl

/-- A change reaches one place and no other. -/
theorem modify?_eq_some {id : NodeId} {change : Slot N → Slot N}
    (changed : a.modify? id change = some b) :
    a.Has id ∧ b.size = a.size ∧ ∀ other, b.slot? other =
      if other = id then (a.slot? other).map change else a.slot? other := by
  unfold modify? at changed
  split at changed
  · rename_i known
    cases changed
    refine ⟨known, by simp [size], ?_⟩
    intro other
    have same : id.index.toNat = other.index.toNat ↔ other = id := by
      rw [UInt32.toNat_inj, eq_comm, NodeId.mk.injEq]
    rw [slot?, slot?, Array.getElem?_modify, if_congr same rfl rfl]
  · cases changed

/-- Only what is not a node cannot be changed. -/
theorem get?_of_set?_eq_none {id : NodeId} {value : N} (refused : a.set? id value = none) :
    a.get? id = none := by
  unfold set? modify? at refused
  split at refused
  case isTrue => cases refused
  case isFalse absent =>
    rw [get?, slot?, Array.getElem?_eq_none (Nat.le_of_not_lt absent), Option.map_none]

/-- Changing a value keeps all links. -/
theorem set?_eq_some {id : NodeId} {value : N} (changed : a.set? id value = some b) :
    b.size = a.size ∧ ∀ other, b.successor? other = a.successor? other := by
  obtain ⟨-, size, slots⟩ := modify?_eq_some changed
  refine ⟨size, ?_⟩
  intro other
  rw [successor?, successor?, slots]
  split
  · cases a.slot? other <;> rfl
  · rfl

/-- A node that exists can be linked, and no other link changes. -/
theorem link?_of_has {id : NodeId} (known : a.Has id) (target : Option NodeId) :
    ∃ b, a.link? id target = some b ∧ b.size = a.size ∧ b.successor? id = target ∧
      ∀ other, other ≠ id → b.successor? other = a.successor? other := by
  obtain ⟨b, linked⟩ : ∃ b, a.link? id target = some b := ⟨_, if_pos known⟩
  obtain ⟨-, size, slots⟩ := modify?_eq_some linked
  refine ⟨b, linked, size, ?_, ?_⟩
  · obtain ⟨slot, found⟩ := has_iff.mp known
    rw [successor?, slots, if_pos rfl, found]
    rfl
  · intro other different
    rw [successor?, slots, if_neg different, successor?]

/-! ## Linked sequences -/

/-- The links that hold a sequence together are those of all its nodes but the last. -/
theorem Linked.congr {ids : List NodeId} (linked : a.Linked ids)
    (same : ∀ id ∈ ids.dropLast, b.successor? id = a.successor? id) : b.Linked ids := by
  induction ids with
  | nil => exact .nil
  | cons id rest ih =>
    cases rest with
    | nil => exact .singleton id
    | cons next rest =>
      obtain ⟨first, below⟩ := List.isChain_cons_cons.mp linked
      rw [List.dropLast_cons_cons] at same
      refine List.isChain_cons_cons.mpr ⟨?_, ih below fun other member => ?_⟩
      · rw [same id List.mem_cons_self]
        exact first
      · exact same other (List.mem_cons_of_mem _ member)

/-- A linked sequence goes on with what its last node is linked to. -/
theorem Linked.concat {front : List NodeId} {last id : NodeId} (linked : a.Linked (front ++ [last]))
    (link : a.successor? last = some id) : a.Linked (front ++ [last] ++ [id]) := by
  refine linked.append (.singleton id) fun x isLast y isHead => ?_
  rw [List.getLast?_concat, Option.mem_some_iff] at isLast
  rw [List.head?_singleton, Option.mem_some_iff] at isHead
  rw [← isLast, ← isHead]
  exact link

/-! ## Walks -/

theorem walk_zero (a : NodeArena N) (head : Option NodeId) : a.walk head 0 = [] := by
  cases head <;> rfl

theorem walk_none (a : NodeArena N) (limit : Nat) : a.walk none limit = [] := by
  cases limit <;> rfl

theorem map_fst_walk_succ {id : NodeId} (known : a.Has id) (limit : Nat) :
    (a.walk (some id) (limit + 1)).map Prod.fst
      = id :: (a.walk (a.successor? id) limit).map Prod.fst := by
  obtain ⟨slot, found⟩ := has_iff.mp known
  simp only [walk, found, successor?, Option.bind_some, List.map_cons]

/-- A walk meets the nodes of a linked sequence in order and goes on behind its last node. -/
theorem map_fst_walk {ids : List NodeId} (known : ∀ id ∈ ids, a.Has id) (linked : a.Linked ids)
    (more : Nat) :
    (a.walk ids.head? (ids.length + more)).map Prod.fst
      = ids ++ (a.walk (ids.getLast?.bind a.successor?) more).map Prod.fst := by
  induction ids with
  | nil => simp [walk_none]
  | cons id rest ih =>
    have length : (id :: rest).length + more = rest.length + more + 1 := by
      rw [List.length_cons]
      omega
    have exists' := known id List.mem_cons_self
    have below := ih (fun other member => known other (List.mem_cons_of_mem _ member)) linked.tail
    rw [List.head?_cons, length, map_fst_walk_succ exists']
    cases rest with
    | nil => simp
    | cons next rest =>
      rw [linked.rel_head? rfl, ← List.head?_cons, below]
      simp

/-- A linked sequence whose last node has no link is a whole list. -/
theorem Linked.lists {ids : List NodeId} (linked : a.Linked ids) (known : ∀ id ∈ ids, a.Has id)
    (ends : ∀ last ∈ ids.getLast?, a.successor? last = none) : a.Lists ids.head? ids := by
  intro limit enough
  have behind : ids.getLast?.bind a.successor? = none := by
    cases last : ids.getLast? with
    | none => rfl
    | some id => exact ends id last
  rw [← Nat.add_sub_cancel' enough, map_fst_walk known linked, behind, walk_none, List.map_nil,
    List.append_nil]

/-! ## Ends of walks -/

variable {head : Option NodeId}

/-- The walk goes on for as many nodes as one asks for. -/
def Endless (a : NodeArena N) (head : Option NodeId) : Prop :=
  ∀ limit, (a.walk head limit).length = limit

/-- The walk meets some node twice. -/
def Revisits (a : NodeArena N) (head : Option NodeId) : Prop :=
  ∃ limit, ¬ ((a.walk head limit).map Prod.fst).Nodup

/-- These are all nodes that the walk meets, no more than there are and each of them once. Behind
the last one there is no node. -/
structure Ends (a : NodeArena N) (head : Option NodeId) (nodes : List (NodeId × N)) : Prop where
  all : ∀ limit, a.walk head limit = nodes.take limit
  few : nodes.length ≤ a.size
  once : (nodes.map Prod.fst).Nodup
  last : ∀ node ∈ nodes.getLast?, ∀ next, a.successor? node.1 = some next → ¬ a.Has next

/-! ## Places -/

/-- Where a walk stands after some steps: what the last node that it met is linked to. -/
def place (a : NodeArena N) (head : Option NodeId) : Nat → Option NodeId
  | 0 => head
  | steps + 1 => (a.place head steps).bind a.successor?

/-- The node at the place that a walk comes to after some steps. -/
def visit? (a : NodeArena N) (head : Option NodeId) (steps : Nat) : Option (NodeId × N) :=
  (a.place head steps).bind fun id => (a.get? id).map (id, ·)

theorem place_add (a : NodeArena N) (head : Option NodeId) (steps more : Nat) :
    a.place head (steps + more) = a.place (a.place head steps) more := by
  induction more with
  | zero => rfl
  | succ more ih => exact congrArg (·.bind a.successor?) ih

theorem place_none (a : NodeArena N) (steps : Nat) : a.place none steps = none := by
  induction steps with
  | zero => rfl
  | succ steps ih => simp only [place, ih, Option.bind_none]

/-- Nothing is linked behind a place without a node. -/
theorem place_succ_of_visit?_eq_none {steps : Nat} (missing : a.visit? head steps = none) :
    a.place head (steps + 1) = none := by
  cases stands : a.place head steps with
  | none => simp only [place, stands, Option.bind_none]
  | some id =>
    simp only [visit?, stands, Option.bind_some, Option.map_eq_none_iff, get?] at missing
    simp only [place, stands, Option.bind_some, successor?, missing, Option.bind_none]

theorem visit?_eq_some {steps : Nat} {node : NodeId × N} (met : a.visit? head steps = some node) :
    a.place head steps = some node.1 ∧ a.get? node.1 = some node.2 := by
  simp only [visit?, Option.bind_eq_some_iff, Option.map_eq_some_iff] at met
  obtain ⟨id, stands, value, found, rfl⟩ := met
  exact ⟨stands, found⟩

/-- Behind a place without a node there are only such places. -/
theorem visit?_eq_none_of_le {steps later : Nat} (missing : a.visit? head steps = none)
    (behind : steps ≤ later) : a.visit? head later = none := by
  obtain rfl | before := Nat.eq_or_lt_of_le behind
  · exact missing
  · have nowhere : a.place head later = none :=
      calc a.place head later = a.place head (steps + 1 + (later - (steps + 1))) := by
            rw [Nat.add_sub_cancel' before]
        _ = a.place (a.place head (steps + 1)) (later - (steps + 1)) := place_add ..
        _ = none := by rw [place_succ_of_visit?_eq_none missing, place_none]
    simp only [visit?, nowhere, Option.bind_none]

/-! ## Walks as sequences of visits -/

theorem length_walk_le (a : NodeArena N) (head : Option NodeId) (limit : Nat) :
    (a.walk head limit).length ≤ limit := by
  fun_induction walk a head limit with
  | case1 id limit slot found ih => exact Nat.succ_le_succ ih
  | case2 id limit absent => exact Nat.zero_le _
  | case3 head limit stopped => exact Nat.zero_le _

/-- Up to its limit a walk consists of the nodes at the places that it comes to. -/
theorem getElem?_walk (a : NodeArena N) (head : Option NodeId) {steps limit : Nat}
    (inside : steps < limit) : (a.walk head limit)[steps]? = a.visit? head steps := by
  -- For every head, since behind a node the walk is one from what the node is linked to.
  induction limit generalizing head steps with
  | zero => cases inside
  | succ limit ih =>
    cases head with
    | none => simp only [walk_none, List.getElem?_nil, visit?, place_none, Option.bind_none]
    | some id =>
      cases found : a.slot? id with
      | none =>
        have missing : a.visit? (some id) 0 = none := by
          simp only [visit?, place, Option.bind_some, get?, found, Option.map_none]
        simp only [walk, found, List.getElem?_nil, visit?_eq_none_of_le missing (Nat.zero_le steps)]
      | some slot =>
        have next : a.place (some id) 1 = slot.link := by
          simp only [place, Option.bind_some, successor?, found]
        cases steps with
        | zero => simp [walk, found, visit?, place, get?]
        | succ steps =>
          have onward : a.place (some id) (steps + 1) = a.place slot.link steps := by
            rw [Nat.add_comm, place_add, next]
          simp only [walk, found, List.getElem?_cons_succ, visit?, onward]
          exact ih slot.link (Nat.lt_of_succ_lt_succ inside)

theorem visit?_of_getElem?_walk {steps limit : Nat} {node : NodeId × N}
    (met : (a.walk head limit)[steps]? = some node) : a.visit? head steps = some node := by
  have short := a.length_walk_le head limit
  obtain ⟨inside, -⟩ := List.getElem?_eq_some_iff.mp met
  rw [← getElem?_walk a head (Nat.lt_of_lt_of_le inside short)]
  exact met

theorem visit?_length_walk {limit : Nat} (short : (a.walk head limit).length < limit) :
    a.visit? head (a.walk head limit).length = none := by
  rw [← getElem?_walk a head short]
  exact List.getElem?_eq_none (Nat.le_refl _)

theorem get?_of_mem_walk {limit : Nat} {node : NodeId × N} (member : node ∈ a.walk head limit) :
    a.get? node.1 = some node.2 := by
  obtain ⟨steps, met⟩ := List.getElem?_of_mem member
  exact (visit?_eq_some (visit?_of_getElem?_walk met)).2

theorem has_of_mem_walk {limit : Nat} {id : NodeId}
    (member : id ∈ (a.walk head limit).map Prod.fst) : a.Has id := by
  obtain ⟨node, met, rfl⟩ := List.mem_map.mp member
  obtain ⟨slot, found, -⟩ := Option.map_eq_some_iff.mp (get?_of_mem_walk met)
  exact has_iff.mpr ⟨slot, found⟩

/-- A walk follows the links. -/
theorem linked_walk (a : NodeArena N) (head : Option NodeId) (limit : Nat) :
    a.Linked ((a.walk head limit).map Prod.fst) := by
  refine List.isChain_iff_getElem.mpr fun steps inside => ?_
  rw [List.length_map] at inside
  have here := visit?_of_getElem?_walk (List.getElem?_eq_getElem (Nat.lt_of_succ_lt inside))
  have next := visit?_of_getElem?_walk (List.getElem?_eq_getElem inside)
  have link := (visit?_eq_some next).1
  rw [place, (visit?_eq_some here).1, Option.bind_some] at link
  rw [List.getElem_map, List.getElem_map]
  exact link

/-- A walk that stops before its limit meets the same nodes however many one asks for. -/
theorem walk_eq_take {limit : Nat} (short : (a.walk head limit).length < limit) (other : Nat) :
    a.walk head other = (a.walk head limit).take other := by
  apply List.ext_getElem?
  intro steps
  rw [List.getElem?_take]
  by_cases inside : steps < other
  · rw [if_pos inside, getElem?_walk a head inside]
    by_cases within : steps < limit
    · exact (getElem?_walk a head within).symm
    · have behind : (a.walk head limit).length ≤ steps := by omega
      rw [List.getElem?_eq_none behind]
      exact visit?_eq_none_of_le (visit?_length_walk short) behind
  · have behind := Nat.le_trans (a.length_walk_le head other) (Nat.le_of_not_lt inside)
    rw [if_neg inside, List.getElem?_eq_none behind]

/-! ## Walks that come back -/

theorem isSome_place_of_le {early late : Nat} (before : early ≤ late)
    (stands : (a.place head late).isSome) : (a.place head early).isSome := by
  by_contra gone
  rw [← Nat.add_sub_cancel' before, place_add, Option.not_isSome_iff_eq_none.mp gone,
    place_none] at stands
  cases stands

/-- A walk that comes to a place again stands somewhere after any number of steps: what is behind
the place the second time is what was behind it the first time. -/
theorem isSome_place_of_repeat {first again : Nat} (before : first < again)
    (same : a.place head again = a.place head first) (stands : (a.place head again).isSome)
    (steps : Nat) : (a.place head steps).isSome := by
  induction steps using Nat.strongRecOn with
  | ind steps ih =>
    by_cases early : steps ≤ again
    · exact isSome_place_of_le early stands
    · -- Behind the second time, go back to where the walk was one round earlier.
      have back : a.place head steps = a.place head (first + (steps - again)) :=
        calc a.place head steps = a.place head (again + (steps - again)) := by
              rw [Nat.add_sub_cancel' (Nat.le_of_not_le early)]
          _ = a.place head (first + (steps - again)) := by rw [place_add, same, place_add]
      rw [back]
      exact ih _ (by omega)

theorem endless_of_isSome_place (always : ∀ steps, (a.place head steps).isSome) :
    a.Endless head := by
  intro limit
  by_contra different
  have short : (a.walk head limit).length < limit :=
    Nat.lt_of_le_of_ne (a.length_walk_le head limit) different
  have stands := always ((a.walk head limit).length + 1)
  rw [place_succ_of_visit?_eq_none (visit?_length_walk short)] at stands
  cases stands

theorem Revisits.endless (revisits : a.Revisits head) : a.Endless head := by
  obtain ⟨limit, repeats⟩ := revisits
  rw [List.nodup_iff_getElem?_ne_getElem?] at repeats
  push Not at repeats
  obtain ⟨first, again, before, inside, same⟩ := repeats
  rw [List.length_map] at inside
  have earlier := visit?_of_getElem?_walk (List.getElem?_eq_getElem (Nat.lt_trans before inside))
  have later := visit?_of_getElem?_walk (List.getElem?_eq_getElem inside)
  have places : a.place head again = a.place head first := by
    rw [(visit?_eq_some earlier).1, (visit?_eq_some later).1]
    rw [List.getElem?_map, List.getElem?_map, List.getElem?_eq_getElem inside,
      List.getElem?_eq_getElem (Nat.lt_trans before inside)] at same
    exact same.symm
  refine endless_of_isSome_place (isSome_place_of_repeat before places ?_)
  rw [(visit?_eq_some later).1]
  rfl

/-! ## Walks that do not come back -/

/-- There are no more different nodes than nodes. -/
theorem length_le_size {ids : List NodeId} (once : ids.Nodup) (known : ∀ id ∈ ids, a.Has id) :
    ids.length ≤ a.size := by
  have injective : Function.Injective fun id : NodeId => id.index.toNat := by
    rintro ⟨x⟩ ⟨y⟩ same
    exact congrArg NodeId.mk (UInt32.toNat_inj.mp same)
  have within : ids.map (fun id => id.index.toNat) ⊆ List.range a.size := by
    intro index member
    obtain ⟨id, listed, rfl⟩ := List.mem_map.mp member
    exact List.mem_range.mpr (known id listed)
  simpa using (once.map injective).length_le_of_subset within

theorem revisits_of_size_lt {limit : Nat} (long : a.size < (a.walk head limit).length) :
    a.Revisits head := by
  refine ⟨limit, fun once => ?_⟩
  have bound := length_le_size once fun id => has_of_mem_walk
  rw [List.length_map] at bound
  omega

theorem Endless.revisits (endless : a.Endless head) : a.Revisits head := by
  have length := endless (a.size + 1)
  exact revisits_of_size_lt (by rw [length]; exact Nat.lt_succ_self _)

/-- A walk that stops does so at a place without a node. -/
theorem not_has_behind_walk {limit : Nat} (short : (a.walk head limit).length < limit)
    {last : NodeId × N} (isLast : last ∈ (a.walk head limit).getLast?) {next : NodeId}
    (link : a.successor? last.1 = some next) : ¬ a.Has next := by
  have stops := visit?_length_walk short
  rw [List.getLast?_eq_getElem?] at isLast
  have stands := (visit?_eq_some (visit?_of_getElem?_walk isLast)).1
  have positive : (a.walk head limit).length - 1 + 1 = (a.walk head limit).length := by
    have := (List.getElem?_eq_some_iff.mp isLast).1
    omega
  have behind : a.place head (a.walk head limit).length = some next := by
    rw [← positive, place, stands, Option.bind_some, link]
  intro known
  obtain ⟨slot, found⟩ := has_iff.mp known
  simp [visit?, behind, get?, found] at stops

/-- A walk that does not come back to a node ends. -/
theorem ends_of_not_revisits (forward : ¬ a.Revisits head) : ∃ nodes, a.Ends head nodes := by
  have few : (a.walk head (a.size + 1)).length ≤ a.size :=
    Nat.le_of_not_lt (mt revisits_of_size_lt forward)
  have short := Nat.lt_succ_of_le few
  refine ⟨a.walk head (a.size + 1), walk_eq_take short, few, ?_, ?_⟩
  · by_contra repeats
    exact forward ⟨_, repeats⟩
  · intro node isLast next link
    exact not_has_behind_walk short isLast link

/-- Whatever the links are, a walk meets the nodes at the places that one comes to by following the
links from the head, as many of them as one asks for. So it meets nodes of the arena only, with
their values, beginning with its head and going from each node to the one that it is linked to. If
it does not come back to a node, it ends behind at most as many nodes as there are, all different,
and the last one is linked to nothing or to no node. It goes on forever exactly if it comes back to
a node, and exactly if it meets one node more than there are. -/
theorem walk_ends_or_cycles (a : NodeArena N) (head : Option NodeId) :
    (∀ limit, (a.walk head limit).length ≤ limit ∧
      (∀ steps < limit, (a.walk head limit)[steps]? = a.visit? head steps) ∧
      (∀ node ∈ a.walk head limit, a.get? node.1 = some node.2) ∧
      (∀ first ∈ (a.walk head limit).head?, head = some first.1) ∧
      a.Linked ((a.walk head limit).map Prod.fst)) ∧
    (¬ a.Revisits head → ∃ nodes, a.Ends head nodes) ∧
    (a.Endless head ↔ a.Revisits head) ∧
    (a.Endless head ↔ (a.walk head (a.size + 1)).length = a.size + 1) := by
  refine ⟨fun limit => ⟨a.length_walk_le head limit, fun steps => getElem?_walk a head,
      fun node => get?_of_mem_walk, ?_, a.linked_walk head limit⟩,
    ends_of_not_revisits, ⟨Endless.revisits, Revisits.endless⟩, ?_⟩
  · intro first isFirst
    rw [List.head?_eq_getElem?] at isFirst
    exact (visit?_eq_some (visit?_of_getElem?_walk isFirst)).1
  · constructor
    · intro endless
      exact endless _
    · intro long
      exact (revisits_of_size_lt (by rw [long]; exact Nat.lt_succ_self _)).endless

/-- A node linked to itself behind one that is linked to it, and a link to a node that is not
there. -/
example : let a : NodeArena Char := ⟨#[⟨'a', some ⟨1⟩⟩, ⟨'b', some ⟨1⟩⟩, ⟨'c', some ⟨7⟩⟩]⟩
    ((a.walk (some ⟨0⟩) 4).map Prod.snd, (a.walk (some ⟨2⟩) 4).map Prod.snd)
      = (['a', 'b', 'b', 'b'], ['c']) := rfl

end TypesetKernel.NodeArena
