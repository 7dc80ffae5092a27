import Patchwork.Proofs.Integer.Terms

/-!
# Quotients and remainders

The machine rounds a quotient of integers down, as plain numbers do. A remainder it takes with the
sign of the dividend, while plain numbers take it with the sign of the divisor. So the two fit
together, and the remainder is the plain one, if the exact quotient is whole or not negative.
Otherwise the product of quotient and divisor, plus the remainder, misses the dividend by one
divisor.
-/

namespace Patchwork

open Word (Fits whole)

variable {i j : Int}

/-! ## Results that fit -/

namespace Word

theorem fits_tmod (hi : Fits i) (j : Int) : Fits (i.tmod j) := by
  obtain ⟨hl, hh⟩ := hi
  have ha := Int.natAbs_tmod i j
  have he := Nat.mod_le i.natAbs j.natAbs
  have hg : 0 ≤ i → 0 ≤ i.tmod j := Int.tmod_nonneg j
  have hg' : 0 ≤ -i → 0 ≤ -(i.tmod j) := Int.neg_tmod i j ▸ Int.tmod_nonneg j
  constructor <;> omega

/-- A quotient by a positive divisor fits, unless the dividend is just too large and the divisor
is one. -/
theorem fits_ediv (hl : -2 ^ 31 ≤ i) (hh : i ≤ 2 ^ 31) (hj : 0 < j)
    (ho : i = 2 ^ 31 → 1 < j) : Fits (i / j) := by
  constructor
  · exact (Int.le_ediv_iff_mul_le hj).2 (by nlinarith)
  · refine Int.ediv_lt_of_lt_mul hj ?_
    by_cases hi : i = 2 ^ 31
    · have := ho hi
      nlinarith
    · nlinarith [lt_of_le_of_ne hh hi]

/-- A quotient fits, unless the least integer is divided by minus one. -/
theorem fits_fdiv (hi : Fits i) (hn : j ≠ 0) (hm : ¬ (i = -2 ^ 31 ∧ j = -1)) : Fits (i.fdiv j) := by
  obtain ⟨hl, hh⟩ := hi
  obtain he | hp := Int.lt_or_gt_of_ne hn
  · rw [← Int.neg_fdiv_neg, Int.fdiv_eq_ediv_of_nonneg _ (by omega)]
    exact fits_ediv (by omega) (by omega) (by omega) (by omega)
  · rw [Int.fdiv_eq_ediv_of_nonneg _ hp.le]
    exact fits_ediv hl hh.le hp (by omega)

end Word

/-! ## The machine's remainder -/

/-- The remainder of words has the sign of the dividend. -/
theorem Stencil.mod_ofInt (hi : Fits i) (hj : Fits j) :
    Int32.ofInt i % Int32.ofInt j = Int32.ofInt (i.tmod j) := by
  rw [← Int32.toInt_inj, Int32.toInt_mod, Word.toInt_ofInt hi, Word.toInt_ofInt hj,
    Word.toInt_ofInt (Word.fits_tmod hi j)]

theorem Operation.computes_mod (hi : Fits i) (hj : Fits j) : mod.Computes false i j (i.tmod j) :=
  .ordered rfl (congrArg Word.ofSigned (Stencil.mod_ofInt hi hj)) (Word.fits_tmod hi j)

theorem Number.modulo_whole {a b : Number} (ha : a.whole? = some i) (hb : b.whole? = some j)
    (hn : j ≠ 0) : a.modulo b = .ok (.int (i.fmod j)) := (lift_whole ha hb).trans (if_neg hn)

namespace Integer

/-! ## Rounding -/

/-- Rounding down and rounding towards zero agree: the exact quotient is whole or not
negative. -/
def RoundsAlike (i j : Int) : Prop := j ∣ i ∨ (i < 0 ↔ j < 0)

instance (i j : Int) : Decidable (RoundsAlike i j) := inferInstanceAs (Decidable (_ ∨ _))

/-- The floor of a quotient is one less than the quotient towards zero if they differ. -/
theorem fdiv_eq_tdiv (i : Int) (hn : j ≠ 0) :
    i.fdiv j = i.tdiv j - if RoundsAlike i j then 0 else 1 := by
  rw [Stencil.fdiv_eq_tdiv_sub i hn]
  by_cases hd : j ∣ i <;> by_cases hi : i < 0 <;> by_cases hj : j < 0 <;>
    simp [RoundsAlike, hd, hi, hj]

/-- Quotient and remainder miss the dividend by a divisor where rounding makes a difference. -/
theorem fdiv_mul_add_tmod (i : Int) (hn : j ≠ 0) :
    i.fdiv j * j + i.tmod j = i - if RoundsAlike i j then 0 else j := by
  have he := Int.tdiv_mul_add_tmod i j
  rw [fdiv_eq_tdiv i hn, Int.sub_mul]
  by_cases h : RoundsAlike i j <;> simp only [h, if_true, if_false] <;> omega

/-- The remainders differ by a divisor where rounding makes a difference. -/
theorem fmod_eq_tmod_add (i : Int) (hn : j ≠ 0) :
    i.fmod j = i.tmod j + if RoundsAlike i j then 0 else j := by
  have he := Int.fdiv_mul_add_fmod i j
  have hm := fdiv_mul_add_tmod i hn
  by_cases h : RoundsAlike i j <;> simp only [h, if_true, if_false] at hm ⊢ <;> omega

/-! ## Traced quotients and remainders -/

variable {g : Graph} {given : NodeId → Word} {s t : Scalar}

section

variable (hs : s.Holds (some given) g i) (ht : t.Holds (some given) g j)

include hs ht

theorem gives_quotient (hn : j ≠ 0) (hm : ¬ (i = -2 ^ 31 ∧ j = -1)) :
    (Datum.binary .floorDiv (.scalar s) (.scalar t)).Gives g fun d g' =>
      Holds (some given) g' (i.fdiv j) d :=
  gives_binary .floorDiv hn (Word.fits_fdiv hs.fits hn hm) hs ht

theorem gives_remainder (hr : s.isTraced || t.isTraced) :
    (Datum.binary .modulo (.scalar s) (.scalar t)).Gives g fun d g' =>
      Holds (some given) g' (i.tmod j) d := by
  have ho := Scalar.gives_operation (Operation.computes_mod hs.fits ht.fits) hs ht
  refine gives_scalar (f := Scalar.either Number.modulo .mod false s t) ?_
  cases s with
  | plain a =>
    cases t with
    | plain b => simp [Scalar.isTraced] at hr
    | traced w => exact ho
  | traced v => exact ho

def divided (s t : Scalar) : Trace (Datum × Datum) := do
  let quotient ← Datum.binary .floorDiv (.scalar s) (.scalar t)
  let remainder ← Datum.binary .modulo (.scalar s) (.scalar t)
  return (quotient, remainder)

theorem gives_divided
    (htr : s.isTraced || t.isTraced) (hn : j ≠ 0) (hm : ¬ (i = -2 ^ 31 ∧ j = -1)) :
    (divided s t).Gives g fun p g' => ∃ u v, p = (.scalar u, .scalar v) ∧
      (u.reading given g').whole? = some (i.fdiv j) ∧
      (v.reading given g').whole? = some (i.tmod j) := by
  refine (gives_quotient hs ht hn hm).bind ?_
  intro quotient g₁ he₁ hq
  refine (gives_remainder (hs.mono he₁) (ht.mono he₁) htr).bind ?_
  intro remainder g₂ he₂ hr
  obtain ⟨u, rfl, hu⟩ := hq.mono he₂
  obtain ⟨v, rfl, hv⟩ := hr
  exact .pure ⟨u, v, rfl, hu.whole?_reading, hv.whole?_reading⟩

end

theorem divided_plain (i : Int) (hn : j ≠ 0) :
    divided (.int i) (.int j) = pure (.int (i.fdiv j), .int (i.fmod j)) := by
  have hq := Number.floorDiv_whole (a := .int i) (b := .int j) rfl rfl hn
  have hr := Number.modulo_whole (a := .int i) (b := .int j) rfl rfl hn
  change (Datum.scalar <$> Scalar.arithmetic ((Number.int i).floorDiv (.int j)) >>= fun q =>
    Datum.scalar <$> Scalar.arithmetic ((Number.int i).modulo (.int j)) >>= fun r =>
      pure (q, r)) = _
  rw [hq, hr]
  rfl

/-- **When quotient and remainder fit together.** Plain integers have the quotient rounded down
and the remainder with the divisor's sign. What is read of a traced quotient is the same, and what
is read of a traced remainder has the dividend's sign. So quotient times divisor plus remainder is
the dividend, and the remainder is the plain one, exactly if both directions of rounding agree. -/
theorem division_fits_iff (hs : s.Holds (some given) g i) (ht : t.Holds (some given) g j)
    (htraced : s.isTraced || t.isTraced) (hne : j ≠ 0) (hmin : ¬ (i = -2 ^ 31 ∧ j = -1)) :
    divided (.int i) (.int j) = pure (.int (i.fdiv j), .int (i.fmod j)) ∧
    (divided s t).Gives g fun p g' => ∃ u v q r, p = (.scalar u, .scalar v) ∧
      (u.reading given g').whole? = some q ∧ (v.reading given g').whole? = some r ∧
      q = i.fdiv j ∧ r = i.tmod j ∧
      (q * j + r = i ↔ RoundsAlike i j) ∧ (r = i.fmod j ↔ RoundsAlike i j) := by
  refine ⟨divided_plain i hne, (gives_divided hs ht htraced hne hmin).imp ?_⟩
  rintro _ g' - ⟨u, v, rfl, hu, hv⟩
  refine ⟨u, v, _, _, rfl, hu, hv, rfl, rfl, ?_, ?_⟩
  · rw [fdiv_mul_add_tmod i hne]
    by_cases h : RoundsAlike i j <;> simp [h, hne]
  · rw [fmod_eq_tmod_add i hne]
    by_cases h : RoundsAlike i j <;> simp [h, hne]

def namedInteger (i : Int) : Graph := Graph.empty.push (.constant (.int i) false)

def namedValue : Scalar := .traced ⟨⟨.int, 0⟩, .int⟩

theorem holds_namedValue (h : Fits i) :
    namedValue.Holds (some fun _ => whole i) (namedInteger i) i :=
  Scalar.holds_traced (Value.holds_constant (n := i) rfl rfl h)

/-- The least integer divided by seven leaves minus two, and not five. -/
theorem least_by_seven :
    divided (.int (-2147483648)) (.int 7) = pure (.int (-306783379), .int 5) ∧
    (divided namedValue (.int 7)).Gives (namedInteger (-2147483648)) fun p g' =>
      ∃ u v q r, p = (.scalar u, .scalar v) ∧
        (u.reading (fun _ => whole (-2147483648)) g').whole? = some q ∧
        (v.reading (fun _ => whole (-2147483648)) g').whole? = some r ∧
        q = -306783379 ∧ r = -2 ∧ (q * 7 + r = -2147483648 ↔ RoundsAlike (-2147483648) 7) ∧
        (r = 5 ↔ RoundsAlike (-2147483648) 7) :=
  division_fits_iff (holds_namedValue (by decide)) ⟨rfl, by decide⟩ rfl (by decide) (by decide)

/-- The quotient of minus seven and two is minus four, but the traced remainder is minus one: it is
not the plain one, and the two do not fit together. -/
theorem remainder_has_other_sign :
    divided (.int (-7)) (.int 2) = pure (.int (-4), .int 1) ∧
    ((divided namedValue (.int 2)).Gives (namedInteger (-7)) fun p g' =>
      ∃ u v, p = (.scalar u, .scalar v) ∧
        (u.reading (fun _ => whole (-7)) g').whole? = some (-4) ∧
        (v.reading (fun _ => whole (-7)) g').whole? = some (-1)) ∧
    (-4 : Int) * 2 + -1 ≠ -7 :=
  ⟨divided_plain (-7) (by decide), gives_divided (i := -7) (j := 2) (t := .int 2)
    (holds_namedValue (by decide)) ⟨rfl, by decide⟩ rfl (by decide) (by decide), by decide⟩

end Integer

end Patchwork
