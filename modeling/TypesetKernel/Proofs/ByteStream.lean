import Mathlib.Data.Nat.Digits.Defs
import TypesetKernel.Bytes
import TypesetKernel.Proofs.Bytes
import TypesetKernel.Proofs.Runs

/-!
Streams of bytes over whole runs of seeks, changes of the byte order and reads. No request changes
the bytes or moves the offset behind their end, and each one is either answered in full or leaves
the stream as it was (`runs_all_or_nothing`). A number is made up of the numbers in its parts, so it
does not matter in which steps it is read.
-/

namespace TypesetKernel

/-! ## Numbers in parts -/

namespace ByteOrder

/-- The number that parts make up, each of them a digit to the given base. -/
def join (order : ByteOrder) (base : Nat) (parts : List Nat) : Nat :=
  match order with
  | .big => Nat.ofDigits base parts.reverse
  | .little => Nat.ofDigits base parts

end ByteOrder

namespace Bytes

theorem value_append (front back : Bytes) :
    value (front ++ back) = value back + 256 ^ back.length * value front := by
  induction back using List.reverseRecOn with
  | nil => simp [value]
  | append_singleton back b ih =>
    rw [← List.append_assoc, value_append_singleton, ih, value_append_singleton,
      List.length_append, List.length_singleton, pow_succ']
    ring

/-- Parts of one width are the digits of what they make up together. -/
theorem value_flatten {width : Nat} {parts : List Bytes}
    (sized : ∀ part ∈ parts, part.length = width) :
    value parts.flatten = Nat.ofDigits (256 ^ width) (parts.map value).reverse := by
  induction parts using List.reverseRecOn with
  | nil => rfl
  | append_singleton parts part ih =>
    obtain ⟨before, last⟩ := List.forall_mem_append.mp sized
    rw [List.flatten_append, List.flatten_singleton, value_append, ih before,
      last part List.mem_cons_self, List.map_append, List.map_singleton, List.reverse_concat,
      Nat.ofDigits_cons]

end Bytes

theorem ByteOrder.value_lt (order : ByteOrder) (bs : Bytes) :
    order.value bs < 256 ^ bs.length := by
  cases order with
  | big => exact Bytes.value_lt bs
  | little =>
    rw [← List.length_reverse]
    exact Bytes.value_lt bs.reverse

theorem ByteOrder.value_flatten (order : ByteOrder) {width : Nat} {parts : List Bytes}
    (sized : ∀ part ∈ parts, part.length = width) :
    order.value parts.flatten = order.join (256 ^ width) (parts.map order.value) := by
  cases order with
  | big => exact Bytes.value_flatten sized
  | little =>
    have turned : ∀ part ∈ (parts.map List.reverse).reverse, part.length = width := by
      intro part member
      obtain ⟨original, known, rfl⟩ := List.mem_map.mp (List.mem_reverse.mp member)
      rw [List.length_reverse, sized original known]
    change Bytes.value parts.flatten.reverse = _
    rw [List.reverse_flatten, Bytes.value_flatten turned, List.map_reverse, List.reverse_reverse,
      List.map_map]
    rfl

/-- The number in the bytes at an offset. -/
def ByteOrder.numberAt (order : ByteOrder) (bs : Bytes) (offset width : Nat) : Nat :=
  order.value ((bs.drop offset).take width)

/-- In either order one byte denotes itself. -/
theorem ByteOrder.numberAt_one (order : ByteOrder) {bs : Bytes} {offset : Nat} {b : UInt8}
    (found : bs[offset]? = some b) : order.numberAt bs offset 1 = b.toNat := by
  obtain ⟨inside, rfl⟩ := List.getElem?_eq_some_iff.mp found
  rw [numberAt, List.drop_eq_getElem_cons inside, List.take_succ_cons, List.take_zero]
  cases order <;> simp [value, Bytes.value]

theorem ByteOrder.numberAt_eq_join (order : ByteOrder) {bs : Bytes} {offset width count : Nat}
    (inside : offset + width * count ≤ bs.length) :
    order.numberAt bs offset (width * count) = order.join (256 ^ width)
      ((List.range count).map fun i => order.numberAt bs (offset + width * i) width) := by
  have sized : ∀ part ∈ (List.range count).map fun i => (bs.drop (offset + width * i)).take width,
      part.length = width := by
    intro part member
    obtain ⟨i, below, rfl⟩ := List.mem_map.mp member
    have next := Nat.mul_le_mul_left width (Nat.succ_le_of_lt (List.mem_range.mp below))
    rw [Nat.mul_succ] at next
    exact Bytes.length_block (by omega)
  rw [numberAt, ← Bytes.flatMap_blocks, List.flatMap_def, order.value_flatten sized, List.map_map]
  rfl

namespace ByteStream

/-! ## Requests -/

/-- The numbers that can be read at once. -/
inductive Width where
  | byte
  | half
  | word
  deriving DecidableEq, Repr

def Width.bytes : Width → Nat
  | .byte => 1
  | .half => 2
  | .word => 4

def Width.read : Width → Reader Nat
  | .byte => return (← ByteStream.byte).toNat
  | .half => return (← ByteStream.half).toNat
  | .word => return (← ByteStream.word).toNat

inductive Request where
  | seek (target : Nat)
  | useOrder (order : ByteOrder)
  | take (n : Nat)
  | number (width : Width)
  deriving DecidableEq, Repr

/-- What a request answers that does not fail. -/
inductive Answer where
  | done
  | bytes (bs : Bytes)
  | number (n : Nat)
  deriving DecidableEq, Repr

def operation : Request → Reader Answer
  | .seek target => do
    seek target
    return .done
  | .useOrder order => do
    modify fun s => { s with order }
    return .done
  | .take n => return .bytes (← take n)
  | .number width => return .number (← width.read)

def respond (s : ByteStream) (request : Request) : Except EndOfStream Answer × ByteStream :=
  settle (operation request) s

def Request.order? : Request → Option ByteOrder
  | .useOrder order => some order
  | _ => none

/-- The byte order that was set last; a stream begins with the big-endian one. -/
def lastOrder (requests : List Request) : ByteOrder :=
  (requests.reverse.findSome? Request.order?).getD .big

/-! ## One request -/

variable (s : ByteStream)

theorem settle_seek (target : Nat) :
    settle (seek target) s = if target ≤ s.contents.length then
      (.ok (), { s with offset := target }) else (.error ⟨target⟩, s) := by
  by_cases inside : target ≤ s.contents.length
  · simp only [settle, seek_apply, if_pos inside]
  · simp only [settle, seek_apply, if_neg inside]

theorem respond_seek (target : Nat) :
    respond s (.seek target) = if target ≤ s.contents.length then
      (.ok .done, { s with offset := target }) else (.error ⟨target⟩, s) := by
  simp only [respond, operation, settle_bind, settle_seek]
  by_cases inside : target ≤ s.contents.length
  · simp only [if_pos inside, settle_pure]
  · simp only [if_neg inside]

theorem respond_useOrder (order : ByteOrder) :
    respond s (.useOrder order) = (.ok .done, { s with order }) := rfl

theorem settle_take (n : Nat) :
    settle (take n) s = if s.offset + n ≤ s.contents.length then
      (.ok ((s.contents.drop s.offset).take n), { s with offset := s.offset + n })
      else (.error ⟨s.offset⟩, s) := by
  by_cases inside : s.offset + n ≤ s.contents.length
  · simp only [settle, take_apply, if_pos inside]
  · simp only [settle, take_apply, if_neg inside]

theorem respond_take (n : Nat) :
    respond s (.take n) = if s.offset + n ≤ s.contents.length then
      (.ok (.bytes ((s.contents.drop s.offset).take n)), { s with offset := s.offset + n })
      else (.error ⟨s.offset⟩, s) := by
  simp only [respond, operation, settle_bind, settle_take]
  by_cases inside : s.offset + n ≤ s.contents.length
  · simp only [if_pos inside, settle_pure]
  · simp only [if_neg inside]

theorem settle_number (width : Nat) :
    settle (number width) s = if s.offset + width ≤ s.contents.length then
      (.ok (s.order.value ((s.contents.drop s.offset).take width)),
        { s with offset := s.offset + width })
      else (.error ⟨s.offset⟩, s) := by
  simp only [number, settle_bind, settle_take]
  by_cases inside : s.offset + width ≤ s.contents.length
  · simp only [if_pos inside, settle_get, settle_pure]
  · simp only [if_neg inside]

theorem Width.read_eq (width : Width) :
    width.read = (· % 256 ^ width.bytes) <$> ByteStream.number width.bytes := by
  cases width <;>
    simp only [read, ByteStream.byte, ByteStream.half, ByteStream.word, bind_assoc, pure_bind,
      map_eq_pure_bind] <;>
    rfl

/-- A number is delivered as it stands in the stream, since it fits into its type. -/
theorem respond_number (width : Width) :
    respond s (.number width) = if s.offset + width.bytes ≤ s.contents.length then
      (.ok (.number (s.order.numberAt s.contents s.offset width.bytes)),
        { s with offset := s.offset + width.bytes })
      else (.error ⟨s.offset⟩, s) := by
  simp only [respond, operation, settle_bind, width.read_eq, settle_map, settle_number]
  by_cases inside : s.offset + width.bytes ≤ s.contents.length
  · have bound := s.order.value_lt ((s.contents.drop s.offset).take width.bytes)
    rw [Bytes.length_block inside] at bound
    simp only [if_pos inside, Except.map, Nat.mod_eq_of_lt bound, settle_pure, ByteOrder.numberAt]
  · simp only [if_neg inside, Except.map]

theorem respond_byte {b : UInt8} (found : s.contents[s.offset]? = some b) :
    respond s (.number .byte) = (.ok (.number b.toNat), { s with offset := s.offset + 1 }) := by
  have inside : s.offset + Width.byte.bytes ≤ s.contents.length :=
    (List.getElem?_eq_some_iff.mp found).1
  rw [respond_number, if_pos inside, ← s.order.numberAt_one found]
  rfl

/-- The bytes stay as they are, and only a request to do so changes the byte order. -/
theorem respond_snd (request : Request) :
    ∃ offset, (respond s request).2 =
        { s with offset, order := request.order?.getD s.order } ∧
      (offset = s.offset ∨ offset ≤ s.contents.length) := by
  cases request with
  | seek target =>
    rw [respond_seek]
    by_cases inside : target ≤ s.contents.length
    · rw [if_pos inside]
      exact ⟨target, rfl, .inr inside⟩
    · rw [if_neg inside]
      exact ⟨s.offset, rfl, .inl rfl⟩
  | useOrder order => exact ⟨s.offset, rfl, .inl rfl⟩
  | take n =>
    rw [respond_take]
    by_cases inside : s.offset + n ≤ s.contents.length
    · rw [if_pos inside]
      exact ⟨s.offset + n, rfl, .inr inside⟩
    · rw [if_neg inside]
      exact ⟨s.offset, rfl, .inl rfl⟩
  | number width =>
    rw [respond_number]
    by_cases inside : s.offset + width.bytes ≤ s.contents.length
    · rw [if_pos inside]
      exact ⟨s.offset + width.bytes, rfl, .inr inside⟩
    · rw [if_neg inside]
      exact ⟨s.offset, rfl, .inl rfl⟩

/-! ## Whole runs -/

/-- What a stream of some bytes is after some requests. -/
structure After (bs : Bytes) (requests : List Request) (s : ByteStream) : Prop where
  contents : s.contents = bs
  size : s.size = bs.length
  within : s.offset ≤ bs.length
  order : s.order = lastOrder requests

theorem lastOrder_concat (requests : List Request) (request : Request) :
    lastOrder (requests ++ [request]) = request.order?.getD (lastOrder requests) := by
  rw [lastOrder, List.reverse_concat, List.findSome?_cons]
  cases request.order? <;> rfl

variable {s} {bs : Bytes} {requests : List Request}

theorem After.respond (after : After bs requests s) (request : Request) :
    After bs (requests ++ [request]) (s.respond request).2 := by
  obtain ⟨rfl, size, within, order⟩ := after
  obtain ⟨offset, next, moved⟩ := s.respond_snd request
  rw [next]
  refine { contents := rfl, size, within := ?_, order := ?_ }
  · rcases moved with rfl | inside
    · exact within
    · exact inside
  · rw [lastOrder_concat, order]

theorem after_serve (bs : Bytes) (requests : List Request) :
    After bs requests (serve ByteStream.respond (ofBytes bs) requests).2 := by
  induction requests using List.reverseRecOn with
  | nil => exact { contents := rfl, size := rfl, within := Nat.zero_le _, order := rfl }
  | append_singleton requests request ih =>
    rw [serve_concat]
    exact ih.respond request

/-! ## Reading in parts -/

section Parts

variable {width : Width} {count : Nat}

theorem serve_numbers (inside : s.offset + width.bytes * count ≤ s.contents.length) :
    serve respond s (List.replicate count (.number width)) =
      (((List.range count).map fun i =>
          s.order.numberAt s.contents (s.offset + width.bytes * i) width.bytes).map
        fun n => .ok (.number n), { s with offset := s.offset + width.bytes * count }) := by
  induction count with
  | zero => rfl
  | succ count ih =>
    rw [Nat.mul_succ, ← Nat.add_assoc] at inside ⊢
    have last := (respond_number { s with offset := s.offset + width.bytes * count } width).trans
      (if_pos inside)
    rw [List.replicate_succ', serve_concat, ih (Nat.le_of_add_right_le inside), last,
      List.range_succ, List.map_append, List.map_append]
    rfl

/-- Reads that pass the end do not all succeed. -/
theorem error_mem_serve_numbers (within : s.offset ≤ s.contents.length)
    (short : s.contents.length < s.offset + width.bytes * count) :
    ∃ e, .error e ∈ (serve respond s (List.replicate count (.number width))).1 := by
  induction count with
  | zero => exact absurd short (Nat.not_lt.mpr within)
  | succ count ih =>
    rw [Nat.mul_succ, ← Nat.add_assoc] at short
    rw [List.replicate_succ', serve_concat]
    by_cases inside : s.offset + width.bytes * count ≤ s.contents.length
    · have last := (respond_number { s with offset := s.offset + width.bytes * count } width).trans
        (if_neg (Nat.not_le.mpr short))
      rw [serve_numbers inside, last]
      exact ⟨_, List.mem_append_right _ (List.mem_singleton_self _)⟩
    · obtain ⟨e, member⟩ := ih (Nat.lt_of_not_le inside)
      exact ⟨e, List.mem_append_left _ member⟩

/-- Reading a number at once is reading its parts one after the other and joining them. -/
theorem respond_number_iff_parts {wide : Width} (within : s.offset ≤ s.contents.length)
    (parts : wide.bytes = width.bytes * count) (n : Nat) (t : ByteStream) :
    respond s (.number wide) = (.ok (.number n), t) ↔
      ∃ ns : List Nat, serve respond s (List.replicate count (.number width))
          = (ns.map fun n => .ok (.number n), t) ∧
        n = s.order.join (256 ^ width.bytes) ns := by
  rw [respond_number, parts]
  by_cases inside : s.offset + width.bytes * count ≤ s.contents.length
  · rw [if_pos inside, s.order.numberAt_eq_join inside, serve_numbers inside]
    constructor
    · intro answered
      cases answered
      exact ⟨_, rfl, rfl⟩
    · rintro ⟨ns, answered, rfl⟩
      obtain ⟨same, rfl⟩ := Prod.mk.inj answered
      have digits : Function.Injective fun n => (Except.ok (.number n) : Except EndOfStream Answer) :=
        fun _ _ equal => Answer.number.inj (Except.ok.inj equal)
      rw [List.map_injective_iff.mpr digits same]
  · rw [if_neg inside]
    constructor
    · intro answered
      cases answered
    · rintro ⟨ns, answered, -⟩
      obtain ⟨e, member⟩ := error_mem_serve_numbers within (Nat.lt_of_not_le inside)
      rw [answered] at member
      obtain ⟨n, -, ok⟩ := List.mem_map.mp member
      cases ok

end Parts

/-- A stream of some bytes after any requests. It still holds the same bytes, stands within them and
reads in the byte order that was set last, so the end of the next read fits into a machine word if
the bytes and the room for what is read fit into the memory of the machine. The next request is
answered in full, or refused if and only if it passes the end of the bytes: a seek that is refused
names its target and a read the offset where it stands, and neither leaves a trace. A read delivers
the bytes behind the offset, or the number in them, and moves past them. The number in one byte is
that byte, and it is all the same whether a number is read at once or in parts of one width that are
joined in the byte order. -/
theorem runs_all_or_nothing (bs : Bytes) (requests : List Request) :
    let s := (serve respond (ofBytes bs) requests).2
    (s.contents = bs ∧ s.size = bs.length ∧ s.offset ≤ s.size ∧ s.order = lastOrder requests) ∧
    (∀ bits n, bs.length < 2 ^ bits → n < 2 ^ bits → s.offset + n < 2 ^ (bits + 1)) ∧
    (∀ target, respond s (.seek target) =
      if target ≤ bs.length then (.ok .done, { s with offset := target })
      else (.error ⟨target⟩, s)) ∧
    (∀ order, respond s (.useOrder order) = (.ok .done, { s with order })) ∧
    (∀ n, respond s (.take n) =
      if s.offset + n ≤ bs.length then
        (.ok (.bytes ((bs.drop s.offset).take n)), { s with offset := s.offset + n })
      else (.error ⟨s.offset⟩, s)) ∧
    (∀ width : Width, respond s (.number width) =
      if s.offset + width.bytes ≤ bs.length then
        (.ok (.number (s.order.numberAt bs s.offset width.bytes)),
          { s with offset := s.offset + width.bytes })
      else (.error ⟨s.offset⟩, s)) ∧
    (∀ b, bs[s.offset]? = some b →
      respond s (.number .byte) = (.ok (.number b.toNat), { s with offset := s.offset + 1 })) ∧
    ∀ (wide narrow : Width) (count : Nat), wide.bytes = narrow.bytes * count → ∀ n t,
      respond s (.number wide) = (.ok (.number n), t) ↔
        ∃ parts : List Nat, serve respond s (List.replicate count (.number narrow))
            = (parts.map fun part => .ok (.number part), t) ∧
          n = s.order.join (256 ^ narrow.bytes) parts := by
  intro s
  obtain ⟨contents, size, within, order⟩ : After bs requests s := after_serve bs requests
  refine ⟨⟨contents, size, size.symm ▸ within, order⟩, ?_, ?_, respond_useOrder s, ?_, ?_, ?_, ?_⟩
  · intro bits n memory room
    rw [Nat.pow_succ]
    omega
  · intro target
    rw [← contents]
    exact respond_seek s target
  · intro n
    rw [← contents]
    exact respond_take s n
  · intro width
    rw [← contents]
    exact respond_number s width
  · intro b found
    rw [← contents] at found
    exact respond_byte s found
  · intro wide narrow count parts n t
    exact respond_number_iff_parts (contents.symm ▸ within) parts n t

/-- Behind the first of five bytes, in the other byte order: the next byte as a number, and a word
made of two halves, lower one first. -/
theorem runs_all_or_nothing_halves :
    let bs : Bytes := [0x12, 0x34, 0x56, 0x78, 0x9A]
    let s := (serve respond (ofBytes bs) [.number .byte, .useOrder .little]).2
    5 < 2 ^ 63 ∧ 4 < 2 ^ 63 ∧ s.offset + 4 < 2 ^ 64 ∧ bs[s.offset]? = some 0x34 ∧
      respond s (.number .byte) = (.ok (.number 0x34), { s with offset := 2 }) ∧
      Width.word.bytes = Width.half.bytes * 2 ∧
      ∃ t, serve respond s [.number .half, .number .half]
          = ([.ok (.number 0x5634), .ok (.number 0x9A78)], t) ∧
        respond s (.number .word) = (.ok (.number 0x9A785634), t) := by
  intro bs s
  obtain ⟨-, room, -, -, -, -, byte, joined⟩ :=
    runs_all_or_nothing bs [.number .byte, .useOrder .little]
  refine ⟨by decide, by decide, room 63 4 (by decide) (by decide), rfl, byte 0x34 rfl, rfl,
    { s with offset := 5 }, rfl, ?_⟩
  exact (joined .word .half 2 rfl _ _).mpr ⟨[0x5634, 0x9A78], rfl, rfl⟩

end ByteStream

end TypesetKernel
