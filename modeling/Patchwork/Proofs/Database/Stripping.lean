import Patchwork.Proofs.Database.Remembered

/-!
# Stencils without their jump

A stencil ends in a jump, which is cut off. Where the jump begins is inferred from the last
relocation of the function, by the size of the field and the opcode that goes before it, and
whether it ends the section is decided with some tolerance. Relocations are kept by their first
byte. For a function that really ends in a jump the three agree: what is kept of the relocations
are those whose fields lie in the code that is kept.
-/

namespace Patchwork

/-- The bytes of a jump before its field: an opcode, unless the field is narrow. -/
def Relocation.opcodeSize (r : Relocation) : Nat := if r.bits < 32 then 0 else 1

namespace Object

/-- A function at the beginning of its section whose last relocation is that of a jump. -/
structure EndsInJump (o : Object) (s : Symbol) (sec : Section) (last : Relocation) : Prop where
  inSection : o.sectionOf? s = some sec
  inFile : sec.offset + sec.size ≤ o.raw.length
  first : s.offset = 0
  pointed : ∀ r ∈ s.relocations, (o.pointedTo? r).isSome = true
  last_eq : s.relocations.getLast? = some last
  jump : ∀ t, o.pointedTo? last = some t → t.name.startsWith "dummy_" = false
  sorted : s.relocations.Pairwise fun r r' => r.offset ≤ r'.offset
  inside : ∀ r ∈ s.relocations, r.offset + 4 ≤ sec.size
  apart : s.relocations.Pairwise fun r r' => r.offset + 4 ≤ r'.offset ∨ r'.offset + 4 ≤ r.offset
  opcode : last.opcodeSize ≤ last.offset
  /-- The opcode of the jump overlaps no field. -/
  clear : ∀ r ∈ s.relocations.dropLast, r.offset + 4 ≤ last.offset - last.opcodeSize
  /-- Narrow fields are those of halfwords. -/
  even : last.bits < 32 → last.offset % 2 = 0 ∧ sec.size % 2 = 0

/-- How many bytes are kept: those before the jump if it ends the section, and else all. -/
def strippedSize (sec : Section) (last : Relocation) : Nat :=
  if last.offset + 4 = sec.size then last.offset - last.opcodeSize else sec.size

namespace EndsInJump

variable {o : Object} {s : Symbol} {sec : Section} {last : Relocation}

theorem last_mem (h : EndsInJump o s sec last) : last ∈ s.relocations :=
  List.mem_of_getLast? h.last_eq

theorem last_inside (h : EndsInJump o s sec last) : last.offset + 4 ≤ sec.size :=
  h.inside last h.last_mem

theorem strippedSize_le (h : EndsInJump o s sec last) : strippedSize sec last ≤ sec.size := by
  have hi := h.last_inside
  rw [strippedSize]
  split <;> omega

theorem mem_dropLast_or (h : EndsInJump o s sec last) {r : Relocation} (hr : r ∈ s.relocations) :
    r ∈ s.relocations.dropLast ∨ r = last := by
  rw [← List.dropLast_append_getLast? last h.last_eq] at hr
  simpa using hr

theorem begins_iff_ends (h : EndsInJump o s sec last) {r : Relocation} (hr : r ∈ s.relocations) :
    r.offset < strippedSize sec last ↔ r.offset + 4 ≤ strippedSize sec last := by
  have hi := h.inside r hr
  have ho := h.opcode
  rw [strippedSize]
  cases h.mem_dropLast_or hr with
  | inl hb =>
    have hc := h.clear r hb
    split <;> omega
  | inr hl =>
    subst hl
    split <;> omega

theorem last_kept_iff (h : EndsInJump o s sec last) :
    last.offset + 4 ≤ strippedSize sec last ↔ last.offset + 4 ≠ sec.size := by
  have hi := h.last_inside
  rw [strippedSize]
  split <;> omega

theorem strictly_sorted (h : EndsInJump o s sec last) :
    s.relocations.Pairwise fun r r' => r.offset < r'.offset := by
  refine (h.sorted.and h.apart).imp ?_
  intro r r' hb
  have hs := hb.1
  have ha := hb.2
  omega

end EndsInJump

variable {o : Object} {s : Symbol} {sec : Section} {last : Relocation}

/-! ## The range of a stencil -/

theorem lastCall_of_jump (h : EndsInJump o s sec last) :
    o.lastCall s = .ok ((last.offset : Int) - last.opcodeSize) := by
  obtain ⟨t, ht⟩ := Option.isSome_iff_exists.1 (h.pointed last h.last_mem)
  have hn := h.jump t ht
  rw [lastCall, lastRelocation, h.last_eq]
  simp only [bind, Except.bind, pointedTo, ht, hn, h.first, pure, Except.pure,
    Relocation.opcodeSize, Bool.false_eq_true, if_false, Except.ok.injEq]
  split <;> omega

/-- The tolerance in the test for the end of the section does no harm: a wide field lies one byte
behind the beginning of the jump, and behind a narrow one there are two bytes or none. -/
theorem ends_section_iff (h : EndsInJump o s sec last) :
    (sec.size : Int) ≤ (last.offset : Int) - last.opcodeSize + 5 ↔ last.offset + 4 = sec.size := by
  have hi := h.last_inside
  have he := h.even
  unfold Relocation.opcodeSize
  split <;> omega

theorem stencilRange_of_jump (h : EndsInJump o s sec last) :
    o.stencilRange s = .ok (0, (strippedSize sec last : Int)) := by
  have ho := h.opcode
  rw [stencilRange, lastCall_of_jump h, h.inSection]
  simp only [bind, Except.bind, pure, Except.pure, strippedSize, Except.ok.injEq, Prod.mk.injEq,
    true_and]
  by_cases he : last.offset + 4 = sec.size
  · rw [if_pos ((ends_section_iff h).2 he), if_pos he]
    omega
  · rw [if_neg (fun hl => he ((ends_section_iff h).1 hl)), if_neg he]

end Object

namespace Database

variable {db : Database} {o : Object} {s : Symbol} {sec : Section} {last : Relocation}
  {name : String}

/-! ## The code and the relocations of a stencil -/

theorem stencilCode_of_jump (h : db.object.EndsInJump s sec last)
    (hn : db.object.symbol? name = some s) :
    db.stencilCode name =
      .ok ((db.object.sectionData sec).take (Object.strippedSize sec last)) := by
  have hf : db.object.fileOffset s = sec.offset := by
    rw [Object.fileOffset, h.inSection]
    simp [h.first]
  have hl := h.strippedSize_le
  have hinFile := h.inFile
  have hb := Sequence.between_natCast db.object.raw sec.offset
    (sec.offset + Object.strippedSize sec last) (by omega)
  push_cast at hb
  rw [stencilCode, Object.symbol, hn]
  simp only [bind, Except.bind, Object.stencilRange_of_jump h, pure, Except.pure, Object.bytesAt,
    hf, Except.ok.injEq, add_zero, sub_zero, hb]
  rw [Object.sectionData, List.take_take]
  congr 1
  omega

/-- Relocations that all point to symbols are kept by their first byte, and nothing is at
fault. -/
theorem entriesOf_of_pointed {start stop : Int} {rs : List Relocation}
    (hs : ∀ r ∈ rs, (o.pointedTo? r).isSome) :
    (entriesOf o s start stop rs).fault = none ∧
    (entriesOf o s start stop rs).entries.map (·.relocation) =
      rs.filter fun r => decide ((r.offset : Int) - s.offset < stop) := by
  induction rs with
  | nil => exact ⟨rfl, rfl⟩
  | cons r rest ih =>
    obtain ⟨hr, he⟩ := List.forall_mem_cons.1 hs
    obtain ⟨t, ht⟩ := Option.isSome_iff_exists.1 hr
    obtain ⟨hf, hn⟩ := ih he
    rw [entriesOf]
    simp only [sub_lt_sub_iff_right, List.filter_cons]
    by_cases hp : (r.offset : Int) - s.offset < stop
    · simp [hp, Object.pointedTo, ht, hf, hn]
    · simp [hp, hf, hn]

theorem look_of_jump (h : o.EndsInJump s sec last) (hn : o.symbol? name = some s) :
    (look o name true).fault = none ∧ (look o name true).entries.map (·.relocation) =
      s.relocations.filter fun r => decide (r.offset + 4 ≤ Object.strippedSize sec last) := by
  have hl : look o name true = entriesOf o s 0 (Object.strippedSize sec last) s.relocations := by
    simp only [look, Object.symbol, hn, bind, Except.bind, Object.stencilRange_of_jump h, pure,
      Except.pure, if_true]
  rw [hl]
  refine (entriesOf_of_pointed h.pointed).imp_right fun he => he.trans ?_
  refine List.filter_congr fun r hr => ?_
  rw [decide_eq_decide, ← h.begins_iff_ends hr, h.first]
  omega

/-- **Stripping keeps whole fields.** For a function that ends in a jump, with a database that
has not forgotten any of its relocations: the stencil is a part of its section; its code is as
many bytes as that part has, the first ones of the section; the relocations that are handed out
are those whose whole field lies in these bytes, in the order of their offsets; and the last one
is left out exactly if the jump ends the section. -/
theorem stripping_keeps_whole_fields (h : db.object.EndsInJump s sec last)
    (hname : db.object.symbol? name = some s)
    (hhandout : db.handout name true = look db.object name true) :
    ∃ start stop : Int, db.object.stencilRange s = .ok (start, stop) ∧
      0 ≤ start ∧ start ≤ stop ∧ stop ≤ sec.size ∧
      (∃ code, db.stencilCode name = .ok code ∧ (code.length : Int) = stop - start ∧
        code <+: db.object.sectionData sec) ∧
      ∃ entries, (db.relocations name true).1 = .ok entries ∧
        entries.map (·.relocation) = s.relocations.filter (fun r =>
          decide (start ≤ r.offset ∧ (r.offset : Int) + 4 ≤ stop)) ∧
        (entries.map (·.relocation)).Pairwise (fun r r' => r.offset < r'.offset) ∧
        (last ∉ entries.map (·.relocation) ↔ last.offset + 4 = sec.size) := by
  have hl := h.strippedSize_le
  obtain ⟨hf, he⟩ := look_of_jump h hname
  refine ⟨0, Object.strippedSize sec last, Object.stencilRange_of_jump h, le_rfl, by omega,
    by omega, ⟨_, stencilCode_of_jump h hname, ?_, List.take_prefix _ _⟩,
    (look db.object name true).entries, ?_, ?_, ?_, ?_⟩
  · have hinFile := h.inFile
    rw [List.length_take, Object.sectionData, List.length_take, List.length_drop]
    omega
  · rw [relocations_fst, hhandout, Handout.all, hf]
  · rw [he]
    refine List.filter_congr fun r _ => ?_
    rw [decide_eq_decide]
    omega
  · rw [he]
    exact h.strictly_sorted.filter _
  · rw [he, List.mem_filter, decide_eq_true_eq, h.last_kept_iff]
    simp [h.last_mem]

/-! ## An example -/

def sineStencil : Symbol :=
  ⟨2, "sin_float", .function, 3, 0, 16, false,
    [⟨1, "R_X86_64_PLT32", -4, some 4, some 3⟩, ⟨7, "R_X86_64_PLT32", -4, some 5, some 3⟩,
     ⟨12, "R_X86_64_PLT32", -4, some 5, some 3⟩]⟩

theorem sineStencil_endsInJump : Assembly.sineDatabase.object.EndsInJump sineStencil
    ⟨3, ".text.sin", .progbits, 6, 18, 16, 0, 0, 16, 0⟩
    ⟨12, "R_X86_64_PLT32", -4, some 5, some 3⟩ where
  inSection := rfl
  inFile := by decide
  first := rfl
  pointed := by decide
  last_eq := rfl
  jump := by
    intro t ht
    cases ht
    decide +kernel
  sorted := by decide
  inside := by decide
  apart := by decide
  opcode := by decide +kernel
  clear := by decide +kernel
  even := by decide +kernel

/-- The sine jumps to one symbol twice. Only the jump at the end is cut off, with its
relocation. -/
theorem sine_stencil_stripped :
    ∃ entries, (Assembly.sineDatabase.relocations "sin_float" true).1 = .ok entries ∧
      entries.map (·.relocation.offset) = [1, 7] := by
  obtain ⟨start, stop, hr, -, -, -, -, entries, he, hk, -, -⟩ :=
    @stripping_keeps_whole_fields Assembly.sineDatabase _ _ _ "sin_float"
      sineStencil_endsInJump rfl rfl
  refine ⟨entries, he, ?_⟩
  rw [Object.stencilRange_of_jump sineStencil_endsInJump] at hr
  cases hr
  have ho := congrArg (List.map Relocation.offset) hk
  rw [List.map_map] at ho
  exact ho.trans (by decide +kernel)

end Database

end Patchwork
