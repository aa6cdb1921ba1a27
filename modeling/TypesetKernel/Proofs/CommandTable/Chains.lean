import Mathlib.Data.List.Nodup
import TypesetKernel.CommandTable

/-!
What a command table keeps. A command is found under its name however many names share its chain
(`get?_set`). In a table that was filled by definitions each command stands in the chain of its
name and nowhere else (`Sound`), so looking up finds exactly the commands that are listed
(`Sound.mem_toList`).
-/

namespace TypesetKernel

/-! ## Chains -/

namespace Command

variable {c : Command} {name : String}

theorem map_name_redefineIn (c : Command) (chain : List Command) :
    (c.redefineIn chain).map Command.name = chain.map Command.name := by
  induction chain with
  | nil => rfl
  | cons d chain ih =>
    rw [redefineIn]
    split
    case isTrue same => rw [List.map_cons, List.map_cons, same]
    case isFalse => rw [List.map_cons, List.map_cons, ih]

theorem find?_redefineIn_self {chain : List Command}
    (known : (chain.find? fun d => d.name = c.name).isSome) :
    (c.redefineIn chain).find? (fun d => d.name = c.name) = some c := by
  induction chain with
  | nil => cases known
  | cons d chain ih =>
    rw [redefineIn]
    split
    case isTrue => simp
    case isFalse different =>
      rw [List.find?_cons_of_neg (by simpa using different)] at known ⊢
      exact ih known

theorem find?_redefineIn_other (different : name ≠ c.name) (chain : List Command) :
    (c.redefineIn chain).find? (fun d => d.name = name) = chain.find? fun d => d.name = name := by
  induction chain with
  | nil => rfl
  | cons d chain ih =>
    rw [redefineIn]
    split
    case isTrue same =>
      rw [List.find?_cons_of_neg (by simpa using different.symm),
        List.find?_cons_of_neg (by simpa [same] using different.symm)]
    case isFalse => rw [List.find?_cons, List.find?_cons, ih]

end Command

namespace CommandTable

variable {hash : NameHash} {t t' : CommandTable hash} {c : Command} {name : String}

@[simp] theorem bucketOf_setChain (t : CommandTable hash) (name : String) (chain : List Command)
    (entries : Nat) (other : String) :
    (t.setChain name chain entries).bucketOf other = t.bucketOf other := by
  simp only [bucketOf, setChain, Array.size_set]

theorem chain_setChain (t : CommandTable hash) (name : String) (chain : List Command) (entries : Nat)
    (other : String) :
    (t.setChain name chain entries).chain other =
      if t.bucketOf other = t.bucketOf name then chain else t.chain other := by
  simp only [CommandTable.chain, bucketOf_setChain]
  simp only [setChain, Array.getElem_set, eq_comm (a := t.bucketOf name)]

/-! ## Looking up -/

theorem get?_empty (capacity : Nat) (name : String) :
    (CommandTable.empty capacity : CommandTable hash).get? name = none := by
  simp [get?, CommandTable.chain, CommandTable.empty]

theorem get?_redefine? (done : t.redefine? c = some t') (name : String) :
    t'.get? name = if name = c.name then some c else t.get? name := by
  unfold redefine? at done
  split at done
  case isFalse => cases done
  case isTrue known =>
    cases done
    rw [get?, chain_setChain]
    by_cases same : name = c.name
    · subst same
      rw [if_pos rfl, if_pos rfl]
      exact Command.find?_redefineIn_self known
    · rw [if_neg same]
      split
      case isTrue shared =>
        rw [Command.find?_redefineIn_other same]
        simp only [get?, CommandTable.chain, shared]
      case isFalse => rfl

theorem redefine?_eq_none_iff : t.redefine? c = none ↔ t.get? c.name = none := by
  rw [redefine?]
  split
  case isTrue known => simp [Option.isSome_iff_ne_none.mp known]
  case isFalse unknown => simpa using unknown

/-- Defining a name changes what is found under this name and no other. -/
theorem get?_set (t : CommandTable hash) (c : Command) (name : String) :
    (t.set c).get? name = if name = c.name then some c else t.get? name := by
  cases done : t.redefine? c with
  | some t' =>
    rw [set, done]
    exact get?_redefine? done name
  | none =>
    rw [set, done, Option.getD_none, get?, chain_setChain]
    by_cases same : name = c.name
    · subst same
      simp
    · rw [if_neg same]
      split
      case isTrue shared =>
        rw [List.find?_cons_of_neg (by simpa using Ne.symm same)]
        simp only [get?, CommandTable.chain, shared]
      case isFalse => rfl

/-! ## Listing -/

/-- Replacing the chain of a name leaves what is listed before and behind it. -/
theorem exists_toList_eq (t : CommandTable hash) (name : String) :
    ∃ front back, t.toList = front ++ t.chain name ++ back ∧ ∀ chain entries,
      (t.setChain name chain entries).toList = front ++ chain ++ back := by
  have inside := t.bucketOf_lt name
  refine ⟨(t.chains.toList.take (t.bucketOf name)).flatten,
    (t.chains.toList.drop (t.bucketOf name + 1)).flatten, ?_, fun chain entries => ?_⟩
  · rw [toList, CommandTable.chain, ← Array.getElem_toList]
    conv_lhs => rw [← List.take_append_drop (t.bucketOf name) t.chains.toList]
    rw [List.drop_eq_getElem_cons (by simpa using inside), List.flatten_append, List.flatten_cons,
      List.append_assoc]
  · rw [toList, setChain, Array.toList_set, List.set_eq_take_append_cons_drop,
      if_pos (by simpa using inside), List.flatten_append, List.flatten_cons, List.append_assoc]

/-- Redefining a name lists the same names in the same order. -/
theorem map_name_redefine? (done : t.redefine? c = some t') :
    t'.toList.map Command.name = t.toList.map Command.name := by
  unfold redefine? at done
  split at done
  case isFalse => cases done
  case isTrue =>
    cases done
    obtain ⟨front, back, before, after⟩ := t.exists_toList_eq c.name
    rw [after, before]
    simp only [List.map_append, Command.map_name_redefineIn]

theorem toList_set_of_new (new : t.get? c.name = none) : (t.set c).toList.Perm (c :: t.toList) := by
  obtain ⟨front, back, before, after⟩ := t.exists_toList_eq c.name
  rw [set, redefine?_eq_none_iff.mpr new, Option.getD_none, after, before, List.append_assoc,
    List.append_assoc]
  exact List.perm_middle

/-- What holds of every table that was filled by definitions. -/
structure Sound (t : CommandTable hash) : Prop where
  placed : ∀ i chain, t.chains[i]? = some chain → ∀ c ∈ chain, t.bucketOf c.name = i
  distinct : (t.toList.map Command.name).Nodup
  counted : t.entries = t.toList.length

namespace Sound

theorem empty (capacity : Nat) : (CommandTable.empty capacity : CommandTable hash).Sound := by
  have nothing : (CommandTable.empty capacity : CommandTable hash).toList = [] := by
    rw [toList, CommandTable.empty, Array.toList_replicate, List.flatten_replicate_nil]
  refine ⟨fun i chain found c member => ?_, by rw [nothing]; exact .nil, by rw [nothing]; rfl⟩
  have empty : chain = [] := by
    rw [CommandTable.empty, Array.getElem?_replicate] at found
    split at found <;> cases found
    rfl
  rw [empty] at member
  cases member

theorem mem_toList_iff_mem_chain (s : t.Sound) : c ∈ t.toList ↔ c ∈ t.chain c.name := by
  rw [toList, List.mem_flatten]
  constructor
  · rintro ⟨chain, listed, member⟩
    obtain ⟨i, bound, rfl⟩ := List.getElem_of_mem listed
    rw [Array.getElem_toList] at member
    have place := s.placed i _ (Array.getElem?_eq_getElem _) c member
    simp only [CommandTable.chain, place]
    exact member
  · intro member
    exact ⟨t.chain c.name, Array.getElem_mem_toList _, member⟩

/-- A command is listed if and only if looking up its name finds it. -/
theorem mem_toList (s : t.Sound) : c ∈ t.toList ↔ t.get? c.name = some c := by
  rw [s.mem_toList_iff_mem_chain]
  constructor
  · intro member
    obtain ⟨d, found⟩ : ∃ d, t.get? c.name = some d :=
      Option.isSome_iff_exists.mp (List.find?_isSome.mpr ⟨c, member, by simp⟩)
    have same : d.name = c.name := by simpa using List.find?_some found
    have member' : d ∈ t.chain d.name := by
      rw [same]
      exact List.mem_of_find?_eq_some found
    rw [found, List.inj_on_of_nodup_map s.distinct (s.mem_toList_iff_mem_chain.mpr member')
      (s.mem_toList_iff_mem_chain.mpr member) same]
  · intro found
    exact List.mem_of_find?_eq_some found

theorem placed_setChain (s : t.Sound) {new : List Command} {entries : Nat}
    (names : ∀ d ∈ new, t.bucketOf d.name = t.bucketOf name) (i : Nat) (chain : List Command)
    (found : (t.setChain name new entries).chains[i]? = some chain) :
    ∀ c ∈ chain, (t.setChain name new entries).bucketOf c.name = i := by
  intro c member
  rw [bucketOf_setChain]
  rw [setChain, Array.getElem?_set] at found
  split at found
  case isTrue place =>
    cases found
    exact (names c member).trans place
  case isFalse => exact s.placed i chain found c member

theorem bucketOf_of_mem_chain (s : t.Sound) (member : c ∈ t.chain name) :
    t.bucketOf c.name = t.bucketOf name :=
  s.placed _ _ (Array.getElem?_eq_getElem (t.bucketOf_lt name)) c member

theorem redefine? (s : t.Sound) (done : t.redefine? c = some t') : t'.Sound := by
  have names := map_name_redefine? done
  have length : t'.toList.length = t.toList.length := by
    rw [← List.length_map Command.name, names, List.length_map]
  unfold CommandTable.redefine? at done
  split at done
  case isFalse => cases done
  case isTrue =>
    cases done
    refine ⟨s.placed_setChain fun d member => ?_, by rw [names]; exact s.distinct, ?_⟩
    · have known : d.name ∈ (t.chain c.name).map Command.name := by
        rw [← Command.map_name_redefineIn c]
        exact List.mem_map_of_mem member
      obtain ⟨e, inside, same⟩ := List.mem_map.mp known
      rw [← same]
      exact s.bucketOf_of_mem_chain inside
    · rw [length, ← s.counted]
      rfl

theorem set (s : t.Sound) (c : Command) : (t.set c).Sound := by
  cases done : t.redefine? c with
  | some t' =>
    rw [CommandTable.set, done]
    exact s.redefine? done
  | none =>
    have new := redefine?_eq_none_iff.mp done
    have listed := toList_set_of_new new
    have apart : c.name ∉ t.toList.map Command.name := by
      intro member
      obtain ⟨d, inside, same⟩ := List.mem_map.mp member
      rw [s.mem_toList, same, new] at inside
      cases inside
    refine ⟨?_, ?_, ?_⟩
    · rw [CommandTable.set, done]
      refine s.placed_setChain fun d member => ?_
      rcases List.mem_cons.mp member with rfl | inside
      · rfl
      · exact s.bucketOf_of_mem_chain inside
    · rw [(listed.map Command.name).nodup_iff, List.map_cons, List.nodup_cons]
      exact ⟨apart, s.distinct⟩
    · rw [listed.length_eq, List.length_cons, ← s.counted, CommandTable.set, done]
      rfl

end Sound

end CommandTable

end TypesetKernel
