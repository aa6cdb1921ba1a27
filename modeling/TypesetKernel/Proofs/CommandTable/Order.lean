import Mathlib.Data.List.Dedup
import TypesetKernel.Proofs.CommandTable.Meanings

/-!
The order of the commands in a table. A name joins its chain at the front when it is defined for the
first time and then keeps its place: a later definition puts the new command where the old one
stood. So each chain holds the names that belong to it by the age of their first definitions, newest
first (`chains_newest_first`), and what is listed is one chain behind the other.
-/

namespace TypesetKernel

/-! ## Names by age -/

namespace CommandRequest

variable {requests : List CommandRequest} {request : CommandRequest} {name : String}

/-- The names that some requests define, newest first. A name is as old as its first definition. -/
def names (requests : List CommandRequest) : List String := (defined requests).reverse.dedup

/-- How many requests came before the first definition of a name. -/
def firstDefined (requests : List CommandRequest) (name : String) : Nat :=
  requests.findIdx fun request => request.defined? = some name

theorem mem_names : name ∈ names requests ↔ ∃ request ∈ requests, request.defined? = some name := by
  rw [names, List.mem_dedup, List.mem_reverse, defined, List.mem_filterMap]

/-- One more request adds a new name in front. -/
theorem names_concat (requests : List CommandRequest) (request : CommandRequest) :
    names (requests ++ [request])
      = request.defined?.elim (names requests) fun name => (names requests).insert name := by
  cases defines : request.defined? with
  | none => simp [names, defined, defines]
  | some name =>
    have added : names (requests ++ [request]) = (name :: (defined requests).reverse).dedup := by
      simp [names, defined, defines]
    rw [added, Option.elim_some]
    by_cases known : name ∈ names requests
    · rw [List.insert_of_mem known]
      exact List.dedup_cons_of_mem (List.mem_dedup.mp known)
    · rw [List.insert_of_not_mem known]
      exact List.dedup_cons_of_notMem (mt List.mem_dedup.mpr known)

theorem firstDefined_lt (known : name ∈ names requests) :
    firstDefined requests name < requests.length := by
  obtain ⟨request, member, defines⟩ := mem_names.mp known
  exact List.findIdx_lt_length_of_exists ⟨request, member, by simpa using defines⟩

theorem firstDefined_append (before later : List CommandRequest) (name : String) :
    firstDefined (before ++ later) name =
      if firstDefined before name < before.length then firstDefined before name
      else firstDefined later name + before.length := List.findIdx_append

/-- A later request does not change when a name was first defined. -/
theorem firstDefined_concat_of_mem (known : name ∈ names requests) (request : CommandRequest) :
    firstDefined (requests ++ [request]) name = firstDefined requests name := by
  rw [firstDefined_append, if_pos (firstDefined_lt known)]

theorem firstDefined_concat_of_not_mem (new : name ∉ names requests)
    (defines : request.defined? = some name) :
    firstDefined (requests ++ [request]) name = requests.length := by
  have absent : firstDefined requests name = requests.length := by
    refine List.findIdx_eq_length.mpr fun earlier member => ?_
    have other : earlier.defined? ≠ some name :=
      fun same => new (mem_names.mpr ⟨earlier, member, same⟩)
    simpa using other
  have atOnce : firstDefined [request] name = 0 := by simp [firstDefined, defines]
  rw [firstDefined_append, absent, if_neg (Nat.lt_irrefl _), atOnce, Nat.zero_add]

/-- Names that stand further behind were first defined earlier. -/
theorem pairwise_names (requests : List CommandRequest) :
    (names requests).Pairwise fun newer older =>
      firstDefined requests older < firstDefined requests newer := by
  -- On the last request: known names keep their ages, and a new one is younger than all of them.
  induction requests using List.reverseRecOn with
  | nil => exact .nil
  | append_singleton requests request ih =>
    have kept : (names requests).Pairwise fun newer older =>
        firstDefined (requests ++ [request]) older < firstDefined (requests ++ [request]) newer := by
      refine ih.imp_of_mem fun newer older before => ?_
      rw [firstDefined_concat_of_mem newer, firstDefined_concat_of_mem older]
      exact before
    rw [names_concat]
    cases defines : request.defined? with
    | none => exact kept
    | some name =>
      rw [Option.elim_some]
      by_cases known : name ∈ names requests
      · rw [List.insert_of_mem known]
        exact kept
      · rw [List.insert_of_not_mem known]
        refine .cons (fun older member => ?_) kept
        rw [firstDefined_concat_of_mem member, firstDefined_concat_of_not_mem known defines]
        exact firstDefined_lt member

end CommandRequest

/-! ## Chains in order -/

namespace Command

/-- A chain without commands of a name stays as it is when those are replaced. -/
theorem map_replace_of_not_mem (c : Command) {chain : List Command}
    (absent : c.name ∉ chain.map Command.name) :
    (chain.map fun d => if d.name = c.name then c else d) = chain := by
  have others : ∀ d ∈ chain, (if d.name = c.name then c else d) = d := by
    refine fun d member => if_neg fun same => absent ?_
    rw [← same]
    exact List.mem_map_of_mem member
  rw [List.map_congr_left others, List.map_id']

/-- Among commands of different names, redefining puts the new command where the old one stood. -/
theorem redefineIn_eq_map (c : Command) {chain : List Command}
    (distinct : (chain.map Command.name).Nodup) :
    c.redefineIn chain = chain.map fun d => if d.name = c.name then c else d := by
  induction chain with
  | nil => rfl
  | cons d chain ih =>
    obtain ⟨once, below⟩ := List.nodup_cons.mp distinct
    rw [redefineIn, List.map_cons]
    split
    case isTrue same =>
      rw [same] at once
      rw [c.map_replace_of_not_mem once]
    case isFalse => rw [ih below]

end Command

namespace CommandTable

variable {hash : NameHash} {t t' : CommandTable hash} {c : Command} {names : List String}
  {name : String}

/-- Each chain holds those of the given names that belong to it, in the order given. -/
def Ordered (t : CommandTable hash) (names : List String) : Prop :=
  ∀ (i : Nat) chain, t.chains[i]? = some chain →
    chain.map Command.name = names.filter fun name => t.bucketOf name = i

theorem chains_bucketOf (t : CommandTable hash) (name : String) :
    t.chains[t.bucketOf name]? = some (t.chain name) :=
  Array.getElem?_eq_getElem (t.bucketOf_lt name)

theorem getElem?_chains_setChain (t : CommandTable hash) (name : String) (chain : List Command)
    (entries i : Nat) : (t.setChain name chain entries).chains[i]? =
      if t.bucketOf name = i then some chain else t.chains[i]? :=
  Array.getElem?_set (t.bucketOf_lt name)

theorem redefine?_of_known (known : (t.get? c.name).isSome) : t.redefine? c = some (t.set c) := by
  cases done : t.redefine? c with
  | some t' => rw [set, done, Option.getD_some]
  | none =>
    rw [redefine?_eq_none_iff.mp done] at known
    cases known

namespace Ordered

theorem empty (capacity : Nat) : (CommandTable.empty capacity : CommandTable hash).Ordered [] := by
  intro i chain found
  rw [CommandTable.empty, Array.getElem?_replicate] at found
  split at found <;> cases found
  rfl

theorem map_name_chain (ordered : t.Ordered names) (name : String) : (t.chain name).map Command.name
    = names.filter fun other => t.bucketOf other = t.bucketOf name :=
  ordered _ _ (t.chains_bucketOf name)

/-- The names of the order are the names that the table knows. -/
theorem known_iff (ordered : t.Ordered names) : (t.get? name).isSome ↔ name ∈ names := by
  have stands : name ∈ (t.chain name).map Command.name ↔ name ∈ names := by
    simp [ordered.map_name_chain]
  rw [← stands, get?, List.find?_isSome, List.mem_map]
  simp only [decide_eq_true_eq]

/-- A chain that is put in place of another one has to hold the names that belong there. -/
theorem setChain {names' : List String} {chain : List Command} {entries : Nat}
    (ordered : t.Ordered names)
    (here : chain.map Command.name
      = names'.filter fun other => t.bucketOf other = t.bucketOf name)
    (elsewhere : ∀ i, t.bucketOf name ≠ i →
      (names'.filter fun other => t.bucketOf other = i)
        = names.filter fun other => t.bucketOf other = i) :
    (t.setChain name chain entries).Ordered names' := by
  intro i other found
  simp only [bucketOf_setChain]
  rw [getElem?_chains_setChain] at found
  split at found
  case isTrue place =>
    cases found
    rw [here, place]
  case isFalse apart => rw [elsewhere i apart, ordered i other found]

theorem redefine? (ordered : t.Ordered names) (done : t.redefine? c = some t') :
    t'.Ordered names := by
  unfold CommandTable.redefine? at done
  split at done
  case isFalse => cases done
  case isTrue =>
    cases done
    refine ordered.setChain ?_ fun _ _ => rfl
    rw [Command.map_name_redefineIn, ordered.map_name_chain]

/-- A new name goes to the front, a known one stays where it is. -/
theorem set (ordered : t.Ordered names) (c : Command) : (t.set c).Ordered (names.insert c.name) := by
  cases done : t.redefine? c with
  | some t' =>
    have known : (t.get? c.name).isSome := by
      rw [Option.isSome_iff_ne_none, ne_eq, ← redefine?_eq_none_iff, done]
      exact Option.some_ne_none t'
    rw [CommandTable.set, done, Option.getD_some, List.insert_of_mem (ordered.known_iff.mp known)]
    exact ordered.redefine? done
  | none =>
    have new : c.name ∉ names := by
      rw [← ordered.known_iff, redefine?_eq_none_iff.mp done]
      exact Bool.false_ne_true
    rw [CommandTable.set, done, Option.getD_none, List.insert_of_not_mem new]
    refine ordered.setChain ?_ fun i apart => List.filter_cons_of_neg (by simpa using apart)
    rw [List.map_cons, ordered.map_name_chain, List.filter_cons_of_pos (by simp)]

/-- Only a definition of a new name changes the order. -/
theorem respond (ordered : t.Ordered names) (request : CommandRequest) :
    (t.respond request).2.Ordered (request.defined?.elim names names.insert) := by
  cases request with
  | set c => exact ordered.set c
  | get name => exact ordered
  | redefine c =>
    change ((t.redefine? c).getD t).Ordered names
    cases done : t.redefine? c with
    | none => exact ordered
    | some t' => exact ordered.redefine? done
  | list => exact ordered

theorem run (hash : NameHash) (capacity : Nat) (requests : List CommandRequest) :
    (serve CommandTable.respond (.empty capacity : CommandTable hash) requests).2.Ordered
      (CommandRequest.names requests) := by
  induction requests using List.reverseRecOn with
  | nil => exact .empty capacity
  | append_singleton requests request ih =>
    rw [serve_concat, CommandRequest.names_concat]
    exact ih.respond request

/-- The older of two names in a chain was defined first. -/
theorem pairwise_chain {requests : List CommandRequest}
    (ordered : t.Ordered (CommandRequest.names requests)) {i : Nat} {chain : List Command}
    (found : t.chains[i]? = some chain) :
    chain.Pairwise fun newer older =>
      CommandRequest.firstDefined requests older.name
        < CommandRequest.firstDefined requests newer.name := by
  have aged := (CommandRequest.pairwise_names requests).filter fun name => t.bucketOf name = i
  rw [← ordered i chain found] at aged
  exact List.pairwise_map.mp aged

end Ordered

/-! ## Redefining and listing -/

/-- Redefining a name puts the new command where the old one stood and leaves all others where they
are. -/
theorem Sound.getElem?_chains_set (s : t.Sound) (known : (t.get? c.name).isSome) (i : Nat) :
    (t.set c).chains[i]?
      = (t.chains[i]?).map (List.map fun d => if d.name = c.name then c else d) := by
  have done : t.set c = t.setChain c.name (c.redefineIn (t.chain c.name)) t.entries := by
    rw [CommandTable.set, CommandTable.redefine?, if_pos known, Option.getD_some]
  have distinct : ((t.chain c.name).map Command.name).Nodup := by
    obtain ⟨front, back, listed, -⟩ := t.exists_toList_eq c.name
    have all := s.distinct
    rw [listed, List.map_append, List.map_append] at all
    exact all.of_append_left.of_append_right
  rw [done, getElem?_chains_setChain]
  split
  case isTrue place =>
    rw [← place, chains_bucketOf, Option.map_some, Command.redefineIn_eq_map c distinct]
  case isFalse apart =>
    cases found : t.chains[i]? with
    | none => rfl
    | some chain =>
      have absent : c.name ∉ chain.map Command.name := by
        intro member
        obtain ⟨d, inside, same⟩ := List.mem_map.mp member
        exact apart (same ▸ s.placed i chain found d inside)
      rw [Option.map_some, c.map_replace_of_not_mem absent]

theorem toList_eq_flatMap (t : CommandTable hash) :
    t.toList = (List.range t.capacity).flatMap fun i => t.chains.getD i [] := by
  have chains : t.chains.toList = (List.range t.capacity).map fun i => t.chains.getD i [] := by
    apply List.ext_getElem
    · simp [capacity]
    · intro i inside _
      rw [Array.length_toList] at inside
      simp [inside]
  rw [toList, chains, List.flatMap_def]

theorem capacity_respond (t : CommandTable hash) (request : CommandRequest) :
    (t.respond request).2.capacity = t.capacity := by
  cases request with
  | set c => exact capacity_set t c
  | get name => rfl
  | redefine c =>
    rw [respond, redefine?]
    split <;> simp [capacity, setChain]
  | list => rfl

theorem capacity_serve (t : CommandTable hash) (requests : List CommandRequest) :
    (serve respond t requests).2.capacity = t.capacity := by
  induction requests generalizing t with
  | nil => rfl
  | cons request rest ih => exact (ih (t.respond request).2).trans (t.capacity_respond request)

/-- Whatever is asked of a table that starts without commands, it keeps its chains. Each command
stands in the chain that the hash gives its name, and each chain holds the names that belong to it
by the age of their first definitions, newest first. A further definition of a known name puts the
new command where the old one stands and moves or changes no other one. What is listed is one chain
behind the other. -/
theorem chains_newest_first (hash : NameHash) (capacity : Nat) (requests : List CommandRequest) :
    let t := (serve respond (.empty capacity : CommandTable hash) requests).2
    t.capacity = max 1 capacity ∧
    (∀ name, t.bucketOf name = (hash name).toNat % t.capacity ∧ t.bucketOf name < t.capacity) ∧
    (∀ (i : Nat) chain, t.chains[i]? = some chain →
      (∀ c ∈ chain, t.bucketOf c.name = i) ∧
      (chain.map Command.name
        = (CommandRequest.names requests).filter fun name => t.bucketOf name = i) ∧
      chain.Pairwise fun newer older =>
        CommandRequest.firstDefined requests older.name
          < CommandRequest.firstDefined requests newer.name) ∧
    (∀ c, (t.get? c.name).isSome → t.redefine? c = some (t.set c) ∧ ∀ i : Nat,
      (t.set c).chains[i]?
        = (t.chains[i]?).map (List.map fun d => if d.name = c.name then c else d)) ∧
    t.toList = (List.range t.capacity).flatMap fun i => t.chains.getD i [] := by
  intro t
  have sound : t.Sound := (Means.run hash capacity requests).2.sound
  have ordered : t.Ordered (CommandRequest.names requests) := .run hash capacity requests
  refine ⟨?_, fun name => ⟨rfl, t.bucketOf_lt name⟩, fun i chain found => ?_, fun c known => ?_,
    t.toList_eq_flatMap⟩
  · exact (capacity_serve _ requests).trans (capacity_empty capacity)
  · exact ⟨sound.placed i chain found, ordered i chain found, ordered.pairwise_chain found⟩
  · exact ⟨redefine?_of_known known, sound.getElem?_chains_set known⟩

end CommandTable

end TypesetKernel
