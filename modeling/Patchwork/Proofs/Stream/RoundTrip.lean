import Patchwork.Stream.Command
import Mathlib.Tactic.Ring

/-!
# Commands are read as they were written

A command is an operation code, some numbers of four bytes and perhaps a payload. The
writer refuses a number that is out of range, and the reader takes as many bytes of payload
as the command declares. So a command that was written is read again if its payload has the
declared size.
-/

namespace Patchwork

open Bytes List

variable {c : Command} {i : Int} {isSigned : Bool} {order : ByteOrder}

/-! ## Numbers -/

namespace Bytes

theorem littleToNat_littleOfNat (width n : Nat) :
    littleToNat (littleOfNat width n) = n % 256 ^ width := by
  induction width generalizing n with
  | zero => simp [littleOfNat, littleToNat, Nat.mod_one]
  | succ width ih =>
    have hb : (UInt8.ofNat n).toNat = n % 256 := by simp
    rw [littleOfNat, littleToNat, ih, hb, Nat.pow_succ, Nat.mul_comm (256 ^ width) 256, Nat.mod_mul]

theorem toNat_ofNat (order : ByteOrder) (width n : Nat) :
    toNat order (ofNat order width n) = n % 256 ^ width := by
  cases order with
  | little => exact littleToNat_littleOfNat width n
  | big => simp [toNat, ofNat, littleToNat_littleOfNat]

theorem inRange_unsigned {width : Nat} : inRange width false i ↔ 0 ≤ i ∧ i < 2 ^ (8 * width) := by
  simp [inRange]

theorem inRange_signed : inRange 4 true i ↔ -2 ^ 31 ≤ i ∧ i < 2 ^ 31 := by
  simp [inRange]

theorem ofInt_ok {width : Nat} {bs : Bytes} :
    ofInt order width isSigned i = .ok bs ↔
      inRange width isSigned i ∧ bs = ofNat order width (i % 2 ^ (8 * width)).toNat := by
  rw [ofInt]
  by_cases h : inRange width isSigned i
  · rw [if_pos h, Except.ok.injEq, eq_comm]
    exact (and_iff_right h).symm
  · rw [if_neg h]
    exact iff_of_false (fun hf => by cases hf) fun hf => h hf.1

/-- A number of four bytes is read as it was written, signed or not. -/
theorem toInt_ofNat (h : inRange 4 isSigned i) :
    toInt order isSigned (ofNat order 4 (i % 2 ^ 32).toNat) = i := by
  have hn : toNat order (ofNat order 4 (i % 2 ^ 32).toNat) = (i % 2 ^ 32).toNat := by
    rw [toNat_ofNat]
    omega
  cases isSigned with
  | false =>
    obtain ⟨hl, hh⟩ := inRange_unsigned.1 h
    simp only [toInt, hn, Bool.false_eq_true, if_false]
    omega
  | true =>
    obtain ⟨hl, hh⟩ := inRange_signed.1 h
    simp only [toInt, hn, if_true, length_ofNat, signed]
    split <;> omega

end Bytes

/-! ## Commands as bytes -/

namespace Command

def operands : Command → List (Int × Bool)
  | allocateData size | allocateCode size => [(size, false)]
  | copyData offset size _ | copyCode offset size _ | readData offset size =>
    [(offset, false), (size, false)]
  | patch _ offset mask scale value =>
    [(offset, false), (mask, false), (scale, false), (value, true)]
  | entryPoint offset => [(offset, false)]
  | runProgram | endCommands | freeMemory | dumpCode => []

def payload : Command → Bytes
  | copyData _ _ payload | copyCode _ _ payload => payload
  | _ => []

def word (order : ByteOrder) (i : Int) : Bytes := Bytes.ofNat order 4 (i % 2 ^ 32).toNat

def bytes (order : ByteOrder) (c : Command) : Bytes :=
  Bytes.ofNat order Opcode.width c.opcode.code ++
    (c.operands.flatMap (fun x => word order x.1) ++ c.payload)

def Encodable (c : Command) : Prop := ∀ x ∈ c.operands, Bytes.inRange 4 x.2 x.1 = true

def Sized : Command → Prop
  | copyData _ size payload | copyCode _ size payload => size = payload.length
  | _ => True

instance : DecidablePred Encodable := fun c =>
  inferInstanceAs (Decidable (∀ x ∈ c.operands, Bytes.inRange 4 x.2 x.1 = true))

instance : DecidablePred Sized
  | copyData _ size payload | copyCode _ size payload =>
    inferInstanceAs (Decidable (size = payload.length))
  | allocateData _ | allocateCode _ | patch .. | entryPoint _ | runProgram | readData .. |
    endCommands | freeMemory | dumpCode => .isTrue trivial

theorem encodable_of_isLast (h : c.isLast) : c.Encodable ∧ c.Sized := by
  cases c with
  | endCommands => exact ⟨by decide, trivial⟩
  | dumpCode => exact ⟨by decide, trivial⟩
  | _ => cases h

@[simp] theorem length_word (order : ByteOrder) (i : Int) : (word order i).length = 4 := by
  simp [word]

theorem length_bytes (order : ByteOrder) (c : Command) : 4 ≤ (c.bytes order).length := by
  simp [bytes, Opcode.width]

end Command

/-! ## Writing -/

namespace Writer

/-- What some commands add to a stream: their bytes, and nothing that is out of range. -/
structure Wrote (w : Writer) (cs : List Command) (w' : Writer) : Prop where
  order : w'.order = w.order
  bytes : w'.bytes = w.bytes ++ cs.flatMap (Command.bytes w.order)
  encodable : ∀ c ∈ cs, c.Encodable

theorem Wrote.refl (w : Writer) : w.Wrote [] w := ⟨rfl, by simp, by simp⟩

theorem Wrote.trans {w w' w'' : Writer} {cs ds : List Command} (h : w.Wrote cs w')
    (h' : w'.Wrote ds w'') : w.Wrote (cs ++ ds) w'' := by
  refine ⟨h'.order.trans h.order, ?_, ?_⟩
  · rw [h'.bytes, h.bytes, h.order]
    simp
  · intro c hc
    exact (mem_append.1 hc).elim (h.encodable c) (h'.encodable c)

@[simp] theorem order_opcode (w : Writer) (o : Opcode) : (w.opcode o).order = w.order := rfl

@[simp] theorem bytes_opcode (w : Writer) (o : Opcode) :
    (w.opcode o).bytes = w.bytes ++ ofNat w.order Opcode.width o.code := by
  simp [opcode]

theorem Wrote.bytes_closed {cs : List Command} {w : Writer}
    (h : (⟨order, []⟩ : Writer).Wrote cs w) :
    (w.opcode .endCommands).bytes =
      cs.flatMap (Command.bytes order) ++ Command.bytes order .endCommands := by
  rw [bytes_opcode, h.bytes, h.order]
  simp [Writer.bytes, Command.bytes, Command.operands, Command.payload, Command.opcode]

@[simp] theorem order_raw (w : Writer) (bs : Bytes) : (w.raw bs).order = w.order := rfl

@[simp] theorem bytes_raw (w : Writer) (bs : Bytes) : (w.raw bs).bytes = w.bytes ++ bs := by
  simp [raw]

theorem int_ok {w w' : Writer} (h : w.int i 4 isSigned = .ok w') :
    inRange 4 isSigned i ∧ w'.order = w.order ∧
      w'.bytes = w.bytes ++ Command.word w.order i := by
  obtain ⟨bs, hb, h⟩ := bind_ok h
  obtain ⟨hr, rfl⟩ := ofInt_ok.1 hb
  cases h
  exact ⟨hr, rfl, by simp [Command.word]⟩

theorem wrote_one {w w' : Writer} (ho : w'.order = w.order)
    (hb : w'.bytes = w.bytes ++ c.bytes w.order) (h : c.Encodable) : w.Wrote [c] w' :=
  ⟨ho, by simp [hb], by simpa using h⟩

/-- Writes that stop at the first failure add what each of them adds. -/
theorem wrote_foldlM {α : Type} {f : Writer → α → Except Fault Writer} {R : α → List Command → Prop}
    (hf : ∀ x w w', f w x = .ok w' → ∃ cs, R x cs ∧ w.Wrote cs w') {xs : List α} {w w' : Writer}
    (h : xs.foldlM f w = .ok w') : ∃ css, Forall₂ R xs css ∧ w.Wrote css.flatten w' := by
  induction xs generalizing w with
  | nil =>
    cases h
    exact ⟨[], .nil, .refl _⟩
  | cons x rest ih =>
    rw [foldlM_cons] at h
    obtain ⟨w₁, hx, h⟩ := bind_ok h
    obtain ⟨cs, hR, hw⟩ := hf x w w₁ hx
    obtain ⟨css, ha, hr⟩ := ih h
    exact ⟨cs :: css, .cons hR ha, hw.trans hr⟩

end Writer

namespace Command

theorem ints_ok {xs : List (Int × Bool)} {w w' : Writer}
    (h : xs.foldlM (fun w x => w.int x.1 4 x.2) w = .ok w') :
    (∀ x ∈ xs, inRange 4 x.2 x.1) ∧ w'.order = w.order ∧
      w'.bytes = w.bytes ++ xs.flatMap fun x => word w.order x.1 := by
  induction xs generalizing w with
  | nil =>
    cases h
    simp
  | cons x rest ih =>
    rw [foldlM_cons] at h
    obtain ⟨w₁, hx, h⟩ := bind_ok h
    obtain ⟨hr, ho, hb⟩ := Writer.int_ok hx
    obtain ⟨ha, ho', hb'⟩ := ih h
    refine ⟨forall_mem_cons.2 ⟨hr, ha⟩, ho'.trans ho, ?_⟩
    rw [hb', hb, ho]
    simp

theorem write_eq (w : Writer) (c : Command) : c.write w = (do
    let w ← c.operands.foldlM (fun w x => w.int x.1 4 x.2) (w.opcode c.opcode)
    return match c with
      | copyData _ _ payload | copyCode _ _ payload => w.raw payload
      | _ => w) := by
  cases c <;> simp [write, writePayload, operands, opcode] <;> rfl

theorem write_ok {w w' : Writer} (h : c.write w = .ok w') : w.Wrote [c] w' := by
  rw [write_eq] at h
  obtain ⟨w₁, hi, h⟩ := bind_ok h
  obtain ⟨hr, ho, hb⟩ := ints_ok hi
  have he : w'.order = w₁.order ∧ w'.bytes = w₁.bytes ++ c.payload := by
    cases c <;> cases h <;> simp [payload]
  refine Writer.wrote_one (he.1.trans ho) ?_ hr
  rw [he.2, hb, bytes]
  simp

end Command

/-! ## Reading -/

namespace Reader

def between (order : ByteOrder) (behind ahead : Bytes) : Reader :=
  { order, data := behind ++ ahead, index := behind.length }

theorem peek_between (order : ByteOrder) (behind bs ahead : Bytes) :
    (between order behind (bs ++ ahead)).peek bs.length = bs := by
  have hb := Sequence.between_natCast (behind ++ (bs ++ ahead)) behind.length
    (behind.length + bs.length) (by simp)
  rw [Int.natCast_add] at hb
  rw [peek, between, hb]
  simp

theorem skip_between (order : ByteOrder) (behind bs ahead : Bytes) :
    (between order behind (bs ++ ahead)).skip bs.length = between order (behind ++ bs) ahead := by
  simp [skip, between]

theorem int_between (h : inRange 4 isSigned i) (behind ahead : Bytes) :
    (between order behind (Command.word order i ++ ahead)).int 4 isSigned =
      (i, between order (behind ++ Command.word order i) ahead) := by
  have hp := peek_between order behind (Command.word order i) ahead
  have hs := skip_between order behind (Command.word order i) ahead
  rw [Command.length_word] at hp hs
  have hv : toInt order isSigned (Command.word order i) = i := toInt_ofNat h
  exact Prod.ext ((congrArg (toInt order isSigned) hp).trans hv) hs

theorem raw_between (order : ByteOrder) (behind bs ahead : Bytes) :
    (between order behind (bs ++ ahead)).raw bs.length = (bs, between order (behind ++ bs) ahead) :=
  Prod.ext (peek_between order behind bs ahead) (skip_between order behind bs ahead)

theorem opcode_between (order : ByteOrder) (o : Opcode) (behind ahead : Bytes) :
    (between order behind (ofNat order Opcode.width o.code ++ ahead)).opcode =
      .ok (o, between order (behind ++ ofNat order Opcode.width o.code) ahead) := by
  have hp := peek_between order behind (ofNat order Opcode.width o.code) ahead
  have hs := skip_between order behind (ofNat order Opcode.width o.code) ahead
  rw [length_ofNat] at hp hs
  have hc : o.code < 256 ^ Opcode.width := by
    rcases o with _ | _ | _ | _ | k | _ | _ | _ | _ | _ | _ <;> try cases k
    all_goals decide
  have hv : toInt order false (ofNat order Opcode.width o.code) = o.code := by
    simp [toInt, toNat_ofNat, Nat.mod_eq_of_lt hc]
  have ho : (between order behind (ofNat order Opcode.width o.code ++ ahead)).order =
      order := rfl
  rw [Reader.opcode, hp, ho, hv, Opcode.ofCode?_code]
  exact congrArg (fun r => Except.ok (o, r)) hs

end Reader

namespace Command

/-- Reading the bytes of a command gives the command, if its payload has the declared
size. -/
theorem read_bytes (order : ByteOrder) (h : c.Encodable) (hs : c.Sized) (behind ahead : Bytes) :
    read (.between order behind (c.bytes order ++ ahead)) =
      .ok (c, .between order (behind ++ c.bytes order) ahead) := by
  have ho : ∀ behind, readOperands (.between order behind
      (c.operands.flatMap (fun x => word order x.1) ++ (c.payload ++ ahead))) c.opcode =
      (c, .between order (behind ++ (c.operands.flatMap (fun x => word order x.1) ++ c.payload))
        ahead) := by
    intro behind
    cases c <;> simp_all [Encodable, Sized, operands, payload, opcode, readOperands,
      Reader.int_between, Reader.raw_between]
  rw [read, bytes, append_assoc, Reader.opcode_between, ← append_assoc behind, append_assoc]
  exact congrArg Except.ok (ho _)

/-- Beyond the end there is no command: no bytes stand for the code zero, which is not known. -/
theorem read_between_nil (order : ByteOrder) (behind : Bytes) :
    read (.between order behind []) = .error .domain := by
  have hp : (Reader.between order behind []).peek Opcode.width = [] := by
    have hl : ¬ (behind.length : Int) < 0 := by omega
    simp [Reader.peek, Reader.between, Sequence.between, hl]
  have hc : toInt order false [] = 0 := by cases order <;> rfl
  have ho : (Reader.between order behind []).order = order := rfl
  rw [read, Reader.opcode, hp, ho, hc]
  rfl

end Command

end Patchwork
