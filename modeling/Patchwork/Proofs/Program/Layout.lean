import Patchwork.Program.Layout
import Patchwork.Proofs.Stream.RoundTrip
import Mathlib.Data.List.Forall2
import Mathlib.Data.List.Nodup
import Mathlib.Data.List.Pairwise

/-!
# Things that are laid out do not overlap

Each thing is placed at or after the end of the one before it, so their places lie apart and
inside the range that the layout takes. A function is placed by placing its section, which
happens once.
-/

namespace Patchwork

open List

variable {db : Database} {name : String} {names : List String} {offset stop : Int}

namespace Layout

variable {α : Type}

/-- Places one after the other in a range: they do not overlap. -/
structure Laid (offset : Int) (ps : List (Placed α)) (stop : Int) : Prop where
  le : offset ≤ stop
  inside : ∀ q ∈ ps, offset ≤ q.start ∧ 0 ≤ q.length ∧ q.start + q.length ≤ stop
  apart : ps.Pairwise fun q r => q.start + q.length ≤ r.start

theorem laid_nil (offset : Int) : Laid offset ([] : List (Placed α)) offset :=
  ⟨Int.le_refl offset, by simp, .nil⟩

theorem Laid.snoc {ps : List (Placed α)} (h : Laid offset ps stop)
    {q : Placed α} (hs : stop ≤ q.start) (hl : 0 ≤ q.length) :
    Laid offset (ps ++ [q]) (q.start + q.length) := by
  refine ⟨by have := h.le; omega, ?_, ?_⟩
  · intro r hr
    obtain hr | hr := mem_append.1 hr
    · have := h.inside r hr
      omega
    · obtain rfl := mem_singleton.1 hr
      have := h.le
      omega
  · refine pairwise_append.2 ⟨h.apart, pairwise_singleton _ _, ?_⟩
    intro r hr q' hq'
    obtain rfl := mem_singleton.1 hq'
    have := h.inside r hr
    omega

theorem Laid.disjoint {ps : List (Placed α)} (h : Laid offset ps stop)
    {q r : Placed α} (hq : q ∈ ps) (hr : r ∈ ps) (hn : q ≠ r) :
    q.start + q.length ≤ r.start ∨ r.start + r.length ≤ q.start := by
  have hp : ps.Pairwise fun q r =>
      q.start + q.length ≤ r.start ∨ r.start + r.length ≤ q.start := h.apart.imp Or.inl
  have : Std.Symm fun q r : Placed α =>
      q.start + q.length ≤ r.start ∨ r.start + r.length ≤ q.start := ⟨fun _ _ => Or.symm⟩
  exact hp.forall hq hr hn

theorem align_ok {alignment start : Int} (h : align offset alignment = .ok start)
    (hp : 0 ≤ alignment) : offset ≤ start ∧ 0 < alignment ∧ alignment ∣ start := by
  rw [align] at h
  split at h
  · cases h
  · next hn =>
    cases h
    have hd : (offset + alignment - 1).fdiv alignment = (offset + alignment - 1) / alignment :=
      Int.fdiv_eq_ediv_of_nonneg _ hp
    have hm := Int.emod_lt_of_pos (offset + alignment - 1) (by omega : 0 < alignment)
    have heq := Int.emod_add_mul_ediv (offset + alignment - 1) alignment
    rw [hd]
    refine ⟨?_, by omega, Int.dvd_mul_left _ _⟩
    rw [Int.mul_comm]
    omega

theorem place_ok {content : α} {length alignment : Int} {state state' : List (Placed α) × Int}
    (h : place content length alignment state = .ok state') (ha : 0 ≤ alignment) :
    ∃ start, state.2 ≤ start ∧ (0 < alignment ∧ alignment ∣ start) ∧
      state' = (state.1 ++ [⟨content, start, length⟩], start + length) := by
  obtain ⟨start, hs, h⟩ := bind_ok h
  cases h
  obtain ⟨he, hl⟩ := align_ok hs ha
  exact ⟨start, he, hl, rfl⟩

/-! ## Sections and variables -/

theorem laid_foldlM {β : Type} {f : List (Placed α) × Int → β → Except Fault (List (Placed α) × Int)}
    {R : β → Placed α → Prop}
    (hf : ∀ state x state', f state x = .ok state' → ∃ q : Placed α, R x q ∧ state.2 ≤ q.start ∧
      0 ≤ q.length ∧ state' = (state.1 ++ [q], q.start + q.length))
    {xs : List β} {ps : List (Placed α)} (h : xs.foldlM f ([], offset) = .ok (ps, stop)) :
    Forall₂ R xs ps ∧ Laid offset ps stop := by
  have hr : ∀ (xs : List β) (state : List (Placed α) × Int), xs.foldlM f state = .ok (ps, stop) →
      Laid offset state.1 state.2 →
        ∃ new, ps = state.1 ++ new ∧ Forall₂ R xs new ∧ Laid offset ps stop := by
    intro xs
    induction xs with
    | nil =>
      intro state h hl
      cases h
      exact ⟨[], by simp, .nil, hl⟩
    | cons x rest ih =>
      intro state h hl
      rw [foldlM_cons] at h
      obtain ⟨state', hx, h⟩ := bind_ok h
      obtain ⟨q, hR, hs, hlen, rfl⟩ := hf state x state' hx
      obtain ⟨new, hp, hn, he⟩ := ih _ h (hl.snoc hs hlen)
      exact ⟨q :: new, by simp [hp], .cons hR hn, he⟩
  obtain ⟨new, hp, hn, he⟩ := hr xs _ h (laid_nil offset)
  exact ⟨by simpa [hp] using hn, he⟩

/-- A place that fits a section: of its size, and at a multiple of its alignment. -/
structure FitsSection (q : Placed Int) (s : Section) : Prop where
  length : q.length = (s.size : Int)
  positive : 0 < s.alignment
  aligned : (s.alignment : Int) ∣ q.start

/-- Sections are laid out with their sizes and alignments. -/
theorem sections_laid {indices : List Int}
    {ps : List (Placed Int)} (h : sections db indices offset = .ok (ps, stop)) :
    Forall₂ (fun index q => ∃ s, db.sectionAt index = .ok s ∧ q.content = index ∧
      FitsSection q s) indices ps ∧ Laid offset ps stop := by
  refine laid_foldlM ?_ h
  intro state index state' ht
  obtain ⟨s, hs, ht⟩ := bind_ok ht
  obtain ⟨start, hst, ⟨hp, ha⟩, rfl⟩ := place_ok ht (by omega)
  exact ⟨⟨index, start, s.size⟩, ⟨s, hs, rfl, rfl, by omega, ha⟩, hst, by simp, rfl⟩

/-- Variables are laid out in four bytes each, at multiples of four. -/
theorem slots_laid {nets : List Net} {ps : List (Placed Net)}
    (h : slots nets offset = .ok (ps, stop)) :
    Forall₂ (fun n q => q.content = n ∧ q.length = 4 ∧ q.length ∣ q.start) nets ps ∧
      Laid offset ps stop := by
  refine laid_foldlM ?_ h
  intro state n state' hs
  obtain ⟨size, hz, hs⟩ := bind_ok hs
  obtain rfl : size = 4 := by
    cases hc : n.cell <;> rw [hc] at hz <;> cases hz <;> rfl
  obtain ⟨start, ht, ⟨-, ha⟩, rfl⟩ := place_ok hs (by omega)
  exact ⟨⟨n, start, 4⟩, ⟨rfl, rfl, ha⟩, ht, by simp, rfl⟩

/-! ## Functions -/

/-- Where functions lie: each in the one place of its section, and the places apart. -/
structure FunctionsLaid (db : Database) (offset : Int) (names : List String) (f : Functions) :
    Prop where
  laid : Laid offset f.sections f.stop
  fits : ∀ q ∈ f.sections, ∃ s, db.sectionAt q.content = .ok s ∧ FitsSection q s
  used : ∀ q ∈ f.sections, ∃ name ∈ names, ∃ t, db.object.symbol name = .ok t ∧
    q.content = (t.sectionIndex : Int)
  once : (f.sections.map Placed.content).Nodup
  address : ∀ a ∈ f.addresses, a.1 ∈ names ∧ ∃ t, db.object.symbol a.1 = .ok t ∧
    ∃ q ∈ f.sections, q.content = (t.sectionIndex : Int) ∧ a.2 = q.start + t.offset
  placed : ∀ name ∈ names, ∃ address, (name, address) ∈ f.addresses

theorem FunctionsLaid.unique {f : Functions}
    (h : FunctionsLaid db offset names f) {q r : Placed Int} (hq : q ∈ f.sections)
    (hr : r ∈ f.sections) (hc : q.content = r.content) : q = r :=
  inj_on_of_nodup_map h.once hq hr hc

theorem mem_assign {addresses : List (String × Int)} {address : Int}
    {a : String × Int} (h : a ∈ assign addresses name address) :
    a = (name, address) ∨ a ∈ addresses := by
  rw [assign] at h
  split at h
  · obtain ⟨b, hb, rfl⟩ := mem_map.1 h
    split
    · exact .inl rfl
    · exact .inr hb
  · simpa [or_comm] using h

theorem exists_mem_assign {addresses : List (String × Int)} {name' : String} {address : Int}
    (h : name' = name ∨ ∃ address', (name', address') ∈ addresses) :
    ∃ address', (name', address') ∈ assign addresses name address := by
  rw [assign]
  split
  · next ha =>
    obtain ⟨b, hb, hn⟩ : ∃ b ∈ addresses, b.1 = name' := by
      obtain rfl | ⟨address', hm⟩ := h
      · simpa using ha
      · exact ⟨_, hm, rfl⟩
    refine ⟨if b.1 == name then address else b.2, mem_map.2 ⟨b, hb, ?_⟩⟩
    split
    · next heq => rw [← hn, beq_iff_eq.1 heq]
    · rw [← hn]
  · obtain rfl | ⟨address', hm⟩ := h
    · exact ⟨address, by simp⟩
    · exact ⟨address', mem_append_left _ hm⟩

theorem FunctionsLaid.add {f f' : Functions}
    (h : FunctionsLaid db offset names f) (he : addFunction db f name = .ok f') :
    FunctionsLaid db offset (names ++ [name]) f' := by
  obtain ⟨t, ht, he⟩ := bind_ok he
  have hd : ∀ (sections : List (Placed Int)) (address : Int), f.sections ⊆ sections →
      (∃ q ∈ sections, q.content = (t.sectionIndex : Int) ∧ address = q.start + t.offset) →
      ∀ a ∈ assign f.addresses name address, a.1 ∈ names ++ [name] ∧
        ∃ t, db.object.symbol a.1 = .ok t ∧
          ∃ q ∈ sections, q.content = (t.sectionIndex : Int) ∧ a.2 = q.start + t.offset := by
    intro sections address hb hp a ha
    obtain rfl | ha := mem_assign ha
    · exact ⟨by simp, t, ht, hp⟩
    · obtain ⟨hn, t', ht', q, hq, hp'⟩ := h.address a ha
      exact ⟨mem_append_left _ hn, t', ht', q, hb hq, hp'⟩
  have hu : ∀ q ∈ f.sections, ∃ name' ∈ names ++ [name], ∃ t, db.object.symbol name' = .ok t ∧
      q.content = (t.sectionIndex : Int) := by
    intro q hq
    obtain ⟨name', hn, ht'⟩ := h.used q hq
    exact ⟨name', mem_append_left _ hn, ht'⟩
  have hl : ∀ address, ∀ name' ∈ names ++ [name], ∃ address',
      (name', address') ∈ assign f.addresses name address := by
    intro address name' hn'
    refine exists_mem_assign ?_
    obtain hn' | hn' := mem_append.1 hn'
    · exact .inr (h.placed name' hn')
    · exact .inl (mem_singleton.1 hn')
  dsimp only at he
  split at he
  · next q hf =>
    cases he
    have hc : q.content = (t.sectionIndex : Int) := by simpa using find?_some hf
    exact ⟨h.laid, h.fits, hu, h.once, hd f.sections _ (List.Subset.refl _)
      ⟨q, mem_of_find?_eq_some hf, hc, rfl⟩, hl _⟩
  · next hf =>
    obtain ⟨s, hs, he⟩ := bind_ok he
    obtain ⟨start, hst, he⟩ := bind_ok he
    cases he
    have hw : ∀ q ∈ f.sections, q.content ≠ (t.sectionIndex : Int) := by
      simpa using find?_eq_none.1 hf
    obtain ⟨hle, ho, hali⟩ := align_ok hst (by omega)
    refine ⟨h.laid.snoc hle (by simp), ?_, ?_, ?_, hd _ _ (subset_append_left _ _)
        ⟨⟨t.sectionIndex, start, s.size⟩, by simp, rfl, rfl⟩, hl _⟩
    · intro q hq
      obtain hq | hq := mem_append.1 hq
      · exact h.fits q hq
      · obtain rfl := mem_singleton.1 hq
        exact ⟨s, hs, rfl, by omega, hali⟩
    · intro q hq
      obtain hq | hq := mem_append.1 hq
      · exact hu q hq
      · obtain rfl := mem_singleton.1 hq
        exact ⟨name, by simp, t, ht, rfl⟩
    · rw [map_append, nodup_append]
      refine ⟨h.once, nodup_singleton _, ?_⟩
      rintro index hi index' hi' rfl
      obtain ⟨q, hq, rfl⟩ := mem_map.1 hi
      exact hw q hq (by simpa using hi')

theorem functions_laid {f : Functions}
    (h : functions db names offset = .ok f) : FunctionsLaid db offset names f := by
  have hr : ∀ (rest done : List String) (f₀ : Functions), FunctionsLaid db offset done f₀ →
      rest.foldlM (addFunction db) f₀ = .ok f → FunctionsLaid db offset (done ++ rest) f := by
    intro rest
    induction rest with
    | nil =>
      intro done f₀ hl h
      cases h
      simpa using hl
    | cons name rest ih =>
      intro done f₀ hl h
      rw [foldlM_cons] at h
      obtain ⟨f₁, hs, h⟩ := bind_ok h
      simpa using ih (done ++ [name]) f₁ (hl.add hs) h
  exact hr names [] _ ⟨laid_nil offset, by simp, by simp, by simp, by simp, by simp⟩ h

end Layout

end Patchwork
