import Mathlib.Data.Finmap
import TypesetKernel.Proofs.CommandTable.Chains
import TypesetKernel.Proofs.Runs

/-!
A command table as a finite map from names to meanings. Whatever is asked of a table, its answers
are those of the map, and it counts the names of the map (`answers_eq_meanings`). Neither the number
of chains nor the hash nor the names that happen to share a chain can be told from the answers.
-/

namespace TypesetKernel

/-! ## Requests -/

inductive CommandRequest where
  | set (c : Command)
  | get (name : String)
  /-- Looks up a command and gives it the code and the payload of another. -/
  | redefine (c : Command)
  | list
  deriving DecidableEq, Repr

/-- What a table answers. The order of a listing is the table's own business. -/
inductive CommandAnswer where
  | done
  | command (found : Option Command)
  | commands (all : Multiset Command)

namespace CommandRequest

def defined? : CommandRequest → Option String
  | set c => some c.name
  | _ => none

/-- The names that some requests define, in order. -/
def defined (requests : List CommandRequest) : List String := requests.filterMap defined?

end CommandRequest

def CommandTable.respond {hash : NameHash} (t : CommandTable hash) :
    CommandRequest → CommandAnswer × CommandTable hash
  | .set c => (.done, t.set c)
  | .get name => (.command (t.get? name), t)
  | .redefine c => (.command (t.get? c.name), (t.redefine? c).getD t)
  | .list => (.commands t.toList, t)

/-! ## Meanings -/

/-- The code and the payload that each name stands for. -/
abbrev Meanings := Finmap fun _ : String => CategoryCode × Word

namespace Meanings

variable {m : Meanings} {c : Command}

def command? (m : Meanings) (name : String) : Option Command :=
  (m.lookup name).map fun meaning => ⟨name, meaning.1, meaning.2⟩

def commands (m : Meanings) : Multiset Command :=
  m.entries.map fun entry => ⟨entry.1, entry.2.1, entry.2.2⟩

def define (m : Meanings) (c : Command) : Meanings := m.insert c.name (c.code, c.payload)

def respond (m : Meanings) : CommandRequest → CommandAnswer × Meanings
  | .set c => (.done, m.define c)
  | .get name => (.command (m.command? name), m)
  | .redefine c => (.command (m.command? c.name), if c.name ∈ m then m.define c else m)
  | .list => (.commands m.commands, m)

theorem mem_commands : c ∈ m.commands ↔ m.command? c.name = some c := by
  simp only [commands, command?, Multiset.mem_map, Option.map_eq_some_iff]
  constructor
  · rintro ⟨⟨name, meaning⟩, listed, rfl⟩
    exact ⟨meaning, Finmap.lookup_eq_some_iff.mpr listed, rfl⟩
  · rintro ⟨meaning, found, same⟩
    refine ⟨⟨c.name, meaning⟩, Finmap.lookup_eq_some_iff.mp found, same⟩

theorem nodup_commands (m : Meanings) : m.commands.Nodup := by
  refine m.nodup_entries.map ?_
  rintro ⟨name, code, payload⟩ ⟨name', code', payload'⟩ same
  cases same
  rfl

theorem card_commands (m : Meanings) : m.commands.card = m.keys.card := by
  rw [commands, Multiset.card_map]
  exact (Multiset.card_map Sigma.fst m.entries).symm

theorem command?_define (m : Meanings) (c : Command) (name : String) :
    (m.define c).command? name = if name = c.name then some c else m.command? name := by
  by_cases same : name = c.name
  · subst same
    rw [command?, define, Finmap.lookup_insert, if_pos rfl]
    rfl
  · rw [command?, define, Finmap.lookup_insert_of_ne _ same, if_neg same, command?]

theorem command?_eq_none {name : String} : m.command? name = none ↔ name ∉ m := by
  rw [command?, Option.map_eq_none_iff, Finmap.lookup_eq_none]

theorem keys_define (m : Meanings) (c : Command) : (m.define c).keys = insert c.name m.keys := by
  ext name
  rw [Finmap.mem_keys, define, Finmap.mem_insert, Finset.mem_insert, Finmap.mem_keys]

/-- Only defining adds a name. -/
theorem keys_respond (m : Meanings) (request : CommandRequest) :
    (m.respond request).2.keys = (CommandRequest.defined [request]).toFinset ∪ m.keys := by
  cases request with
  | set c => exact m.keys_define c
  | get name => exact (Finset.empty_union _).symm
  | redefine c =>
    rw [respond]
    split
    case isTrue known =>
      rw [keys_define, Finset.insert_eq_of_mem (Finmap.mem_keys.mpr known)]
      exact (Finset.empty_union _).symm
    case isFalse => exact (Finset.empty_union _).symm
  | list => exact (Finset.empty_union _).symm

theorem keys_serve (m : Meanings) (requests : List CommandRequest) :
    (serve respond m requests).2.keys = (CommandRequest.defined requests).toFinset ∪ m.keys := by
  induction requests generalizing m with
  | nil => exact (Finset.empty_union _).symm
  | cons request rest ih =>
    have split : CommandRequest.defined (request :: rest) =
        CommandRequest.defined [request] ++ CommandRequest.defined rest := by
      rw [CommandRequest.defined, ← List.singleton_append, List.filterMap_append]
      rfl
    rw [serve, ih, keys_respond, split, List.toFinset_append, Finset.union_assoc,
      Finset.union_left_comm]

end Meanings

/-! ## Tables as maps -/

/-- The table is sound and finds under each name what the map says. -/
structure CommandTable.Means {hash : NameHash} (t : CommandTable hash) (m : Meanings) : Prop where
  sound : t.Sound
  found : ∀ name, t.get? name = m.command? name

namespace CommandTable.Means

variable {hash : NameHash} {t : CommandTable hash} {m : Meanings}

theorem empty (capacity : Nat) : (CommandTable.empty capacity : CommandTable hash).Means ∅ where
  sound := .empty capacity
  found name := get?_empty capacity name

theorem listed (h : t.Means m) : (t.toList : Multiset Command) = m.commands := by
  have once : (t.toList : Multiset Command).Nodup := h.sound.distinct.of_map Command.name
  refine (once.ext m.nodup_commands).mpr fun c => ?_
  rw [Multiset.mem_coe, h.sound.mem_toList, h.found, Meanings.mem_commands]

theorem entries_eq (h : t.Means m) : t.entries = m.keys.card := by
  rw [h.sound.counted, ← Multiset.coe_card, h.listed, Meanings.card_commands]

theorem set (h : t.Means m) (c : Command) : (t.set c).Means (m.define c) where
  sound := h.sound.set c
  found name := by rw [get?_set, h.found, Meanings.command?_define]

theorem redefine (h : t.Means m) (c : Command) :
    ((t.redefine? c).getD t).Means (if c.name ∈ m then m.define c else m) := by
  have known : t.redefine? c = none ↔ c.name ∉ m := by
    rw [redefine?_eq_none_iff, h.found, Meanings.command?_eq_none]
  cases done : t.redefine? c with
  | none =>
    rw [if_neg (known.mp done)]
    exact h
  | some t' =>
    rw [if_pos (not_not.mp (mt known.mpr (by rw [done]; exact Option.some_ne_none t')))]
    refine ⟨h.sound.redefine? done, fun name => ?_⟩
    rw [Option.getD_some, get?_redefine? done, h.found, Meanings.command?_define]

/-- Every request gets the answer of the map and leaves the table with the meaning of the map. -/
theorem respond (h : t.Means m) (request : CommandRequest) :
    (t.respond request).1 = (m.respond request).1 ∧
      (t.respond request).2.Means (m.respond request).2 := by
  cases request with
  | set c => exact ⟨rfl, h.set c⟩
  | get name => exact ⟨congrArg CommandAnswer.command (h.found name), h⟩
  | redefine c => exact ⟨congrArg CommandAnswer.command (h.found c.name), h.redefine c⟩
  | list => exact ⟨congrArg CommandAnswer.commands h.listed, h⟩

theorem run (hash : NameHash) (capacity : Nat) (requests : List CommandRequest) :
    let start : CommandTable hash := .empty capacity
    (serve CommandTable.respond start requests).1 = (serve Meanings.respond ∅ requests).1 ∧
      (serve CommandTable.respond start requests).2.Means (serve Meanings.respond ∅ requests).2 :=
  serve_simulates (fun _ _ request h => h.respond request) (.empty capacity) requests

end CommandTable.Means

/-- Whatever is asked of a table that starts without commands, and however its names are spread, it
answers like the finite map. It counts the names ever defined and lists every name of the map once,
with its current meaning. So neither the capacity nor the hash makes a difference to the answers and
the count. -/
theorem CommandTable.answers_eq_meanings (hash : NameHash) (capacity : Nat)
    (requests : List CommandRequest) :
    let table := serve respond (.empty capacity : CommandTable hash) requests
    let map := serve Meanings.respond ∅ requests
    table.1 = map.1 ∧
      table.2.entries = (CommandRequest.defined requests).toFinset.card ∧
      (table.2.toList.map Command.name).Nodup ∧
      (∀ c, c ∈ table.2.toList ↔ map.2.command? c.name = some c) ∧
      ∀ (hash' : NameHash) (capacity' : Nat),
        let other := serve respond (.empty capacity' : CommandTable hash') requests
        other.1 = table.1 ∧ other.2.entries = table.2.entries := by
  intro table map
  obtain ⟨same, means⟩ := Means.run hash capacity requests
  have names : map.2.keys = (CommandRequest.defined requests).toFinset := by
    rw [Meanings.keys_serve, Finmap.keys_empty, Finset.union_empty]
  refine ⟨same, ?_, means.sound.distinct, fun c => ?_, fun hash' capacity' => ?_⟩
  · rw [means.entries_eq, names]
  · rw [means.sound.mem_toList, means.found]
  · obtain ⟨same', means'⟩ := Means.run hash' capacity' requests
    exact ⟨same'.trans same.symm, means'.entries_eq.trans means.entries_eq.symm⟩

/-! ## Definitions one after the other -/

namespace CommandTable

variable {hash : NameHash} {before later cs : List Command} {c : Command} {name : String}

/-- Definitions of other names keep what is found under a name. -/
theorem get?_foldl_set_of_not_mem (t : CommandTable hash) (others : name ∉ cs.map Command.name) :
    (cs.foldl set t).get? name = t.get? name := by
  induction cs generalizing t with
  | nil => rfl
  | cons c cs ih =>
    rw [List.map_cons, List.mem_cons, not_or] at others
    rw [List.foldl_cons, ih _ others.2, get?_set, if_neg others.1]

/-- The last definition of a name is what is found under it. -/
theorem get?_foldl_set_of_last (t : CommandTable hash) (last : c.name ∉ later.map Command.name) :
    ((before ++ c :: later).foldl set t).get? c.name = some c := by
  rw [List.foldl_append, List.foldl_cons, get?_foldl_set_of_not_mem _ last, get?_set, if_pos rfl]

theorem capacity_set (t : CommandTable hash) (c : Command) : (t.set c).capacity = t.capacity := by
  rw [set, redefine?]
  split <;> simp [capacity, setChain]

theorem capacity_foldl_set (t : CommandTable hash) (cs : List Command) :
    (cs.foldl set t).capacity = t.capacity := by
  induction cs generalizing t with
  | nil => rfl
  | cons c cs ih => rw [List.foldl_cons, ih, capacity_set]

theorem capacity_empty (capacity : Nat) :
    (empty capacity : CommandTable hash).capacity = max 1 capacity := by
  rw [CommandTable.capacity, empty, Array.size_replicate, Nat.max_comm]

theorem serve_set (t : CommandTable hash) (cs : List Command) :
    (serve respond t (cs.map .set)).2 = cs.foldl set t := by
  induction cs generalizing t with
  | nil => rfl
  | cons c cs ih => exact ih (t.set c)

theorem defined_set (cs : List Command) :
    CommandRequest.defined (cs.map .set) = cs.map Command.name := by
  rw [CommandRequest.defined, List.filterMap_map]
  exact congrFun List.filterMap_eq_map cs

/-- A table counts the names that were defined. -/
theorem entries_foldl_set (capacity : Nat) (cs : List Command) :
    (cs.foldl set (empty capacity : CommandTable hash)).entries
      = (cs.map Command.name).toFinset.card := by
  rw [← serve_set, (Means.run hash capacity _).2.entries_eq, Meanings.keys_serve, Finmap.keys_empty,
    Finset.union_empty, defined_set]

end CommandTable

end TypesetKernel
