import Patchwork.Proofs.Machine.Image

/-!
# The format of a stream

A stream has no lengths and no tags besides the operation codes, so that a reader must make
the calls that match those of the writer. It then gets back what was written, in either byte
order. The runner knows the calls from the operation codes. It keeps a scale in a signed
word, although a scale is written as an unsigned one.
-/

namespace Patchwork

open Bytes List

variable {c : Command} {cs : List Command} {i : Int} {order : ByteOrder}

/-! ## Writing -/

theorem exists_foldlM_ok {α β : Type} {f : β → α → Except Fault β} {xs : List α}
    (h : ∀ x ∈ xs, ∀ b, ∃ b', f b x = .ok b') (b : β) : ∃ b', xs.foldlM f b = .ok b' := by
  induction xs generalizing b with
  | nil => exact ⟨b, rfl⟩
  | cons x rest ih =>
    obtain ⟨b₁, hx⟩ := h x mem_cons_self b
    obtain ⟨b', hr⟩ := ih (fun y hy => h y (mem_cons_of_mem x hy)) b₁
    rw [foldlM_cons, hx]
    exact ⟨b', hr⟩

namespace Writer

def attempt (w : Writer) (f : Writer → Except Fault Writer) : Writer :=
  match f w with
  | .ok w' => w'
  | .error _ => w

theorem int_ok_iff (w : Writer) (i : Int) (width : Nat) (isSigned : Bool) :
    (∃ w', w.int i width isSigned = .ok w') ↔ Bytes.inRange width isSigned i := by
  constructor
  · rintro ⟨w', h⟩
    obtain ⟨bs, hb, -⟩ := bind_ok h
    exact (ofInt_ok.1 hb).1
  · intro h
    rw [int, labelledInt, ofInt_ok.2 ⟨h, rfl⟩]
    exact ⟨_, rfl⟩

theorem int_error {w : Writer} {width : Nat} {isSigned : Bool}
    (h : ¬ Bytes.inRange width isSigned i) :
    w.int i width isSigned = .error .overflow ∧ w.attempt (·.int i width isSigned) = w := by
  have hint : w.int i width isSigned = .error .overflow := by
    rw [int, labelledInt, Bytes.ofInt, if_neg h]
    rfl
  exact ⟨hint, by simp [attempt, hint]⟩

end Writer

namespace Command

theorem ints_ok_iff {xs : List (Int × Bool)} (w : Writer) :
    (∃ w', xs.foldlM (fun w x => w.int x.1 4 x.2) w = .ok w') ↔
      ∀ x ∈ xs, Bytes.inRange 4 x.2 x.1 := by
  refine ⟨fun ⟨w', h⟩ => (ints_ok h).1, fun h => exists_foldlM_ok (fun x hx w => ?_) w⟩
  exact (w.int_ok_iff x.1 4 x.2).2 (h x hx)

theorem write_ok_iff (w : Writer) : (∃ w', c.write w = .ok w') ↔ c.Encodable := by
  rw [write_eq]
  constructor
  · rintro ⟨w', h⟩
    obtain ⟨w₁, hi, -⟩ := bind_ok h
    exact (ints_ok hi).1
  · intro h
    obtain ⟨w₁, hi⟩ := (ints_ok_iff (w.opcode c.opcode)).2 h
    rw [hi]
    exact ⟨_, rfl⟩

theorem writeAll_ok {w w' : Writer} (h : writeAll w cs = .ok w') : w.Wrote cs w' := by
  induction cs generalizing w with
  | nil =>
    cases h
    exact .refl _
  | cons c rest ih =>
    rw [writeAll, foldlM_cons] at h
    obtain ⟨w₁, hc, h⟩ := bind_ok h
    exact (write_ok hc).trans (ih h)

/-- Commands are written if their numbers are in range. -/
theorem writeAll_ok_iff (w : Writer) : (∃ w', writeAll w cs = .ok w') ↔ ∀ c ∈ cs, c.Encodable := by
  refine ⟨fun ⟨w', h⟩ => (writeAll_ok h).encodable, fun h => exists_foldlM_ok (fun c hc w => ?_) w⟩
  exact (write_ok_iff w).2 (h c hc)

/-! ## Reading -/

/-- The calls that read a command: how its numbers are signed, and the size of its
payload. -/
structure Shape where
  signs : List Bool
  size : Nat

/-- What those calls return. -/
structure Contents where
  opcode : Opcode
  numbers : List Int
  payload : Bytes

def shape (c : Command) : Shape := ⟨c.operands.map Prod.snd, c.payload.length⟩

def contents (c : Command) : Contents := ⟨c.opcode, c.operands.map Prod.fst, c.payload⟩

def readInts : List Bool → Reader → List Int × Reader
  | [], r => ([], r)
  | isSigned :: rest, r =>
    let (i, r) := r.int 4 isSigned
    let (is, r) := readInts rest r
    (i :: is, r)

def Shape.read (s : Shape) (r : Reader) : Except Fault (Contents × Reader) := do
  let (opcode, r) ← r.opcode
  let (numbers, r) := readInts s.signs r
  let (payload, r) := r.raw s.size
  return (⟨opcode, numbers, payload⟩, r)

def readEach {α β : Type} (f : α → Reader → Except Fault (β × Reader)) :
    List α → Reader → Except Fault (List β × Reader)
  | [], r => .ok ([], r)
  | a :: as, r => do
    let (b, r) ← f a r
    let (bs, r) ← readEach f as r
    return (b :: bs, r)

theorem readEach_bytes {α β : Type} (f : α → Reader → Except Fault (β × Reader))
    (call : Command → α) (view : Command → β)
    (h : ∀ c ∈ cs, ∀ behind ahead, f (call c) (.between order behind (c.bytes order ++ ahead)) =
      .ok (view c, .between order (behind ++ c.bytes order) ahead)) (behind : Bytes) :
    readEach f (cs.map call) (.between order behind (cs.flatMap (bytes order))) =
      .ok (cs.map view, .between order (behind ++ cs.flatMap (bytes order)) []) := by
  induction cs generalizing behind with
  | nil => simp [readEach]
  | cons c rest ih =>
    have hr := ih (fun d hd => h d (mem_cons_of_mem c hd)) (behind ++ c.bytes order)
    rw [map_cons, readEach, flatMap_cons, h c mem_cons_self]
    simp only [bind, Except.bind, hr, map_cons, append_assoc]
    rfl

theorem readInts_words (order : ByteOrder) {xs : List (Int × Bool)}
    (h : ∀ x ∈ xs, Bytes.inRange 4 x.2 x.1) (behind ahead : Bytes) :
    readInts (xs.map Prod.snd)
        (.between order behind (xs.flatMap (fun x => word order x.1) ++ ahead)) = (xs.map Prod.fst,
        .between order (behind ++ xs.flatMap (fun x => word order x.1)) ahead) := by
  induction xs generalizing behind with
  | nil => simp [readInts]
  | cons x rest ih =>
    have hr := ih (fun y hy => h y (mem_cons_of_mem x hy)) (behind ++ word order x.1)
    rw [map_cons, readInts, flatMap_cons, append_assoc, Reader.int_between (h x mem_cons_self)]
    simp only [hr, map_cons, append_assoc]

/-- The calls that match a command return its contents. Its payload need not have the size
that the command declares. -/
theorem read_shape (h : c.Encodable) (behind ahead : Bytes) :
    c.shape.read (.between order behind (c.bytes order ++ ahead)) =
      .ok (c.contents, .between order (behind ++ c.bytes order) ahead) := by
  have hi := readInts_words order h
    (behind ++ Bytes.ofNat order Opcode.width c.opcode.code) (c.payload ++ ahead)
  rw [Shape.read, bytes, append_assoc, Reader.opcode_between, append_assoc]
  simp only [bind, Except.bind, shape, hi, Reader.raw_between, append_assoc]
  rfl

theorem readUpTo_bytes (order : ByteOrder) {last : Command}
    (he : ∀ c ∈ cs ++ [last], c.Encodable) (hz : ∀ c ∈ cs ++ [last], c.Sized)
    (hm : ∀ c ∈ cs, c.isLast = false) (hl : last.isLast) {steps : Nat}
    (hs : cs.length < steps) (behind : Bytes) :
    readUpTo steps (.between order behind ((cs ++ [last]).flatMap (bytes order))) =
      .ok (cs ++ [last], .between order (behind ++ (cs ++ [last]).flatMap (bytes order)) []) := by
  obtain ⟨steps, rfl⟩ : ∃ n, steps = n + 1 := ⟨steps - 1, by omega⟩
  induction cs generalizing steps behind with
  | nil =>
    have hr := read_bytes order (he last (by simp)) (hz last (by simp)) behind []
    rw [append_nil] at hr
    simp [readUpTo, hr, hl, bind, Except.bind, pure, Except.pure]
  | cons c rest ih =>
    obtain ⟨n, rfl⟩ : ∃ n, steps = n + 1 := ⟨steps - 1, by simp at hs; omega⟩
    have hr := read_bytes order (he c (by simp)) (hz c (by simp)) behind
      ((rest ++ [last]).flatMap (bytes order))
    have hrs := ih (fun d hd => he d (mem_cons_of_mem c hd))
      (fun d hd => hz d (mem_cons_of_mem c hd))
      (fun d hd => hm d (mem_cons_of_mem c hd)) (behind ++ c.bytes order) n (by simpa using hs)
    rw [append_assoc] at hrs
    rw [cons_append, flatMap_cons, readUpTo, hr]
    simp only [bind, Except.bind, pure, Except.pure, hm c mem_cons_self,
      Bool.false_eq_true, if_false, hrs]

/-- The commands of a stream are read up to its last byte. -/
theorem readAll_bytes {last : Command}
    (he : ∀ c ∈ cs ++ [last], c.Encodable) (hz : ∀ c ∈ cs ++ [last], c.Sized)
    (hm : ∀ c ∈ cs, c.isLast = false) (hls : last.isLast) {stream : Bytes}
    (hs : stream = (cs ++ [last]).flatMap (bytes order)) :
    readAll { order, data := stream } =
      .ok (cs ++ [last], { order, data := stream, index := stream.length }) := by
  have hl := Image.length_le_flatMap_bytes order (cs ++ [last])
  rw [← hs, length_append, length_singleton] at hl
  have ht : cs.length < stream.length + 1 := by omega
  have hr := readUpTo_bytes order he hz hm hls ht []
  rw [← hs] at hr
  simpa [readAll, Reader.between] using hr

/-! ## Running -/

/-- A command with its scale as the runner keeps it: in a signed word. -/
def held : Command → Command
  | patch kind offset mask scale value =>
    patch kind offset mask (Bytes.signed 32 scale.toNat) value
  | c => c

/-- The words in which the runner keeps the numbers of a patch stand for these numbers. -/
def Kept : Command → Prop
  | patch _ _ mask scale value =>
    ((Image.wrapped mask).toNat : Int) = mask ∧ (Int32.ofInt scale).toInt = scale ∧
      (Int32.ofInt value).toInt = value
  | _ => True

/-- The scale of a patch is positive as a signed word. -/
def SmallScale : Command → Prop
  | patch _ _ _ scale _ => scale < 2 ^ 31
  | _ => True

theorem signed_word (hl : 0 ≤ i) (hh : i < 2 ^ 32) :
    Bytes.signed 32 i.toNat = if i < 2 ^ 31 then i else i - 2 ^ 32 := by
  rw [Bytes.signed]
  split <;> split <;> omega

theorem ofInt_signed (hl : 0 ≤ i) (hh : i < 2 ^ 32) :
    Int32.ofInt (Bytes.signed 32 i.toNat) = Int32.ofInt i := by
  rw [signed_word hl hh]
  split
  · rfl
  · apply Int32.toInt_inj.1
    rw [Int32.toInt_ofInt, Int32.toInt_ofInt]
    exact Int.sub_bmod_right i Int32.size

theorem held_eq_iff (h : c.Encodable) : c.held = c ↔ c.SmallScale := by
  cases c with
  | patch kind offset mask scale value =>
    simp only [Encodable, operands, forall_mem_cons, inRange_unsigned] at h
    rw [held, SmallScale, signed_word h.2.2.1.1 h.2.2.1.2]
    split <;> simp <;> omega
  | _ => exact iff_of_true rfl trivial

theorem kept_held (h : c.Encodable) : c.held.Kept := by
  cases c with
  | patch kind offset mask scale value =>
    simp only [Encodable, operands, forall_mem_cons, inRange_unsigned, inRange_signed] at h
    obtain ⟨-, ⟨hm, hm'⟩, ⟨hs, hs'⟩, ⟨hv, hv'⟩, -⟩ := h
    refine ⟨?_, ?_, Int32.toInt_ofInt_of_le hv hv'⟩
    · rw [Image.toNat_wrapped]
      omega
    · have hi := signed_word hs hs'
      apply Int32.toInt_ofInt_of_le <;> rw [hi] <;> split <;> omega
  | _ => trivial

/-- The runner cannot tell a command from the one with the scale that it keeps. -/
theorem execute_held (p : Placement) (i : Image) (h : c.Encodable) :
    i.execute p c.held = i.execute p c := by
  cases c with
  | patch kind offset mask scale value =>
    simp only [Encodable, operands, forall_mem_cons, inRange_unsigned] at h
    have hu := ofInt_signed h.2.2.1.1 h.2.2.1.2
    cases kind <;>
      simp only [held, Image.execute, Image.patched, Image.patchWord, Image.addressPart,
        Image.wrapped, hu]
  | _ => rfl

theorem obey_held (p : Placement) (h : ∀ c ∈ cs, c.Encodable) (i : Image) :
    Image.obey p i (cs.map held) = Image.obey p i cs := by
  induction cs generalizing i with
  | nil => rfl
  | cons c rest ih =>
    have hr := ih fun d hd => h d (mem_cons_of_mem c hd)
    simp only [map_cons, Image.obey, execute_held p i (h c mem_cons_self), hr]

/-! ## Recovery -/

/-- Commands that can be read back from a stream: by the calls of their shapes, by a
reader that goes by the operation codes, and by the runner. All bytes are read. -/
structure Recovered (cs : List Command) (w : Writer) : Prop where
  reread : readEach Shape.read (cs.map shape) { order := w.order, data := w.bytes } =
    .ok (cs.map contents, { order := w.order, data := w.bytes, index := w.bytes.length })
  read : readEach (fun _ => Command.read) cs { order := w.order, data := w.bytes } =
    .ok (cs, { order := w.order, data := w.bytes, index := w.bytes.length })
  run : w.order = .little → ∀ p i, Image.run p i w.bytes = Image.obey p i (cs.map held)

theorem recovered_of_writeAll {w : Writer}
    (hs : ∀ c ∈ cs, c.Sized) (h : writeAll { order } cs = .ok w) : Recovered cs w := by
  obtain ⟨ho, hb, he⟩ := writeAll_ok h
  change w.bytes = cs.flatMap (bytes order) at hb
  change w.order = order at ho
  have ht : ({ order := w.order, data := w.bytes } : Reader) =
      .between order [] (cs.flatMap (bytes order)) := by rw [ho, hb]; rfl
  have hn : ({ order := w.order, data := w.bytes, index := w.bytes.length } : Reader) =
      .between order ([] ++ cs.flatMap (bytes order)) [] := by
    rw [ho, hb]
    simp [Reader.between]
  refine ⟨?_, ?_, ?_⟩
  · rw [ht, hn]
    exact readEach_bytes Shape.read shape contents (fun c hc => read_shape (he c hc)) []
  · have hr := readEach_bytes (fun _ => Command.read) id id
      (fun c hc => read_bytes order (he c hc) (hs c hc)) []
    simp only [map_id] at hr
    rw [ht, hn]
    exact hr
  · intro hl p i
    rw [obey_held p he, hb, ← ho, hl]
    exact Image.run_bytes p i he hs

/-- **Commands that were written are read, and carried out.** The numbers that the runner
goes by are those of the commands, but for a scale that is negative as a signed word. What is
out of range cannot be written, and leaves the writer as it was. -/
theorem stream_recovered {cs : List Command} (henc : ∀ c ∈ cs, c.Encodable)
    (hsized : ∀ c ∈ cs, c.Sized) (order : ByteOrder) :
    (∃ w, writeAll { order } (cs ++ [.endCommands]) = .ok w ∧ Recovered (cs ++ [.endCommands]) w) ∧
      (∀ c ∈ cs, c.held.Kept ∧ (c.held = c ↔ c.SmallScale)) ∧
      ∀ (w : Writer) (i : Int) (width : Nat) (isSigned : Bool), 0 < width →
        ((∃ w', w.int i width isSigned = .ok w') ↔
          if isSigned then -2 ^ (8 * width - 1) ≤ i ∧ i < 2 ^ (8 * width - 1)
          else 0 ≤ i ∧ i < 2 ^ (8 * width)) ∧
        ((¬ ∃ w', w.int i width isSigned = .ok w') →
          w.int i width isSigned = .error .overflow ∧ w.attempt (·.int i width isSigned) = w) := by
  obtain ⟨hencEnd, hsizedEnd⟩ := encodable_of_isLast (c := .endCommands) rfl
  have henc' : ∀ c ∈ cs ++ [.endCommands], c.Encodable :=
    List.forall_mem_append.2 ⟨henc, by simpa using hencEnd⟩
  have hsized' : ∀ c ∈ cs ++ [.endCommands], c.Sized :=
    List.forall_mem_append.2 ⟨hsized, by simpa using hsizedEnd⟩
  obtain ⟨w, hw⟩ := (writeAll_ok_iff { order }).2 henc'
  refine ⟨⟨w, hw, recovered_of_writeAll hsized' hw⟩,
    fun c hc => ⟨kept_held (henc c hc), held_eq_iff (henc c hc)⟩, ?_⟩
  intro w i width isSigned hi
  refine ⟨?_, fun h => Writer.int_error fun hr => h ((w.int_ok_iff i width isSigned).2 hr)⟩
  rw [Writer.int_ok_iff]
  cases isSigned <;> simp [Bytes.inRange, hi.ne']

def largeScale : List Command :=
  [.freeMemory, .allocateData 4, .copyData 1 2 [7, 9], .allocateCode 4,
    .patch .function 0 0xffffffff 0xffffffff 5]

theorem largeScale_recovered :
    (∀ c ∈ largeScale, c.Encodable) ∧ (∀ c ∈ largeScale, c.Sized) ∧
      ∃ w, writeAll { order := .little } (largeScale ++ [.endCommands]) = .ok w ∧
        Recovered (largeScale ++ [.endCommands]) w := by
  have he : ∀ c ∈ largeScale, c.Encodable := by decide
  have hs : ∀ c ∈ largeScale, c.Sized := by decide
  exact ⟨he, hs, (stream_recovered he hs .little).1⟩

/-- The largest scale is kept as minus one, and the quotient that is written changes its
sign instead of being zero. -/
theorem largeScale_negated :
    ∃ w, writeAll { order := .little } (largeScale ++ [.endCommands]) = .ok w ∧
      (Image.run {} {} w.bytes).image.code = some (word .little (Int.tdiv 5 (-1))) ∧
      word .little (Int.tdiv 5 (-1)) ≠ word .little (Int.tdiv 5 0xffffffff) :=
  ⟨_, rfl, by decide +kernel, by decide⟩

end Command

end Patchwork
