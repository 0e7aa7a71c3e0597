import Potts.Energy.Index
import Potts.Proofs.Energy.Spectrum
import Potts.Proofs.Graph.DegreeClass

/-!
# Indices by degree class

`Covers` says that an index has exactly the degree classes of a list, and that the spectrum of every
class has a property that may depend on its degree. A change that is made to all classes is
described by what it does to one spectrum.
-/

namespace Potts.EnergyIndex

open Checked

variable {F : Type} [Scalar F] {index : EnergyIndex F} {degrees : List Nat}
  {P Q : Nat → Spectrum F → Prop} {c degree : Nat}

/-- The index has these degree classes, and the spectrum of every class has the property. -/
structure Covers (index : EnergyIndex F) (degrees : List Nat) (P : Nat → Spectrum F → Prop) :
    Prop where
  degrees_eq : index.degrees = degrees.toArray
  classOf_eq : index.classOf = classNumbers degrees
  size_spectra : index.spectra.size = degrees.length
  spectrum : ∀ c degree : Nat, degrees[c]? = some degree →
    ∃ s, index.spectra[c]? = some s ∧ P degree s

theorem covers_build (degrees : List Nat) (n : Nat) (energy : Nat → Nat → F) :
    Covers (build degrees n energy) degrees fun degree s =>
      s.Files (Set.Iio n) (energy degree) where
  degrees_eq := rfl
  classOf_eq := rfl
  size_spectra := by simp [build]
  spectrum c degree hc := by
    refine ⟨Spectrum.ofLabels n (energy degree), ?_, Spectrum.files_ofLabels n (energy degree)⟩
    simp [build, hc]

theorem Covers.yields_spectrum (h : Covers index degrees P) (hc : degrees[c]? = some degree) :
    Yields (index.spectrum c) (P degree) := by
  obtain ⟨s, hs, hP⟩ := h.spectrum c degree hc
  exact yields_fetch hs hP

theorem Covers.setSpectrum (h : Covers index degrees P) {s : Spectrum F}
    (hs : ∀ degree, degrees[c]? = some degree → P degree s) :
    Covers (index.setSpectrum c s) degrees P where
  degrees_eq := h.degrees_eq
  classOf_eq := h.classOf_eq
  size_spectra := by rw [EnergyIndex.setSpectrum, Array.size_setIfInBounds, h.size_spectra]
  spectrum c' degree hc' := by
    change ∃ s', (index.spectra.setIfInBounds c s)[c']? = some s' ∧ P degree s'
    rw [Array.getElem?_setIfInBounds]
    by_cases hcc : c = c'
    · subst hcc
      obtain ⟨hlt, -⟩ := List.getElem?_eq_some_iff.1 hc'
      rw [if_pos rfl, if_pos (by rwa [h.size_spectra])]
      exact ⟨s, rfl, hs degree hc'⟩
    · rw [if_neg hcc]
      exact h.spectrum c' degree hc'

/-- The classes that are done have one property, and the others still have another one. -/
structure CoversPartly (index : EnergyIndex F) (degrees done : List Nat)
    (P Q : Nat → Spectrum F → Prop) : Prop where
  degrees_eq : index.degrees = degrees.toArray
  classOf_eq : index.classOf = classNumbers degrees
  size_spectra : index.spectra.size = degrees.length
  spectrum : ∀ c degree : Nat, degrees[c]? = some degree →
    ∃ s, index.spectra[c]? = some s ∧ (c ∈ done → Q degree s) ∧ (c ∉ done → P degree s)

theorem Covers.partly (h : Covers index degrees P) (Q : Nat → Spectrum F → Prop) :
    CoversPartly index degrees [] P Q where
  degrees_eq := h.degrees_eq
  classOf_eq := h.classOf_eq
  size_spectra := h.size_spectra
  spectrum c degree hc := by
    obtain ⟨s, hs, hP⟩ := h.spectrum c degree hc
    exact ⟨s, hs, fun hmem => absurd hmem List.not_mem_nil, fun _ => hP⟩

theorem CoversPartly.covers {done : List Nat} (h : CoversPartly index degrees done P Q)
    (hdone : ∀ c < degrees.length, c ∈ done) : Covers index degrees Q where
  degrees_eq := h.degrees_eq
  classOf_eq := h.classOf_eq
  size_spectra := h.size_spectra
  spectrum c degree hc := by
    obtain ⟨s, hs, hQ, -⟩ := h.spectrum c degree hc
    exact ⟨s, hs, hQ (hdone c (List.getElem?_eq_some_iff.1 hc).1)⟩

theorem CoversPartly.yields_modify {done : List Nat} (h : CoversPartly index degrees done P Q)
    (hc : degrees[c]? = some degree) (hnew : c ∉ done)
    {f : Nat → Spectrum F → Checked F (Spectrum F)}
    (hf : ∀ s, P degree s → Yields (f degree s) (Q degree)) :
    Yields (do
      let degree ← Checked.fetch index.degrees c
      index.modifyM c (f degree)) (CoversPartly · degrees (done ++ [c]) P Q) := by
  obtain ⟨s, hs, -, hP⟩ := h.spectrum c degree hc
  refine (yields_fetch (P := (· = degree)) (by rw [h.degrees_eq, List.getElem?_toArray, hc])
    rfl).bind fun degree' hd => ?_
  refine (yields_fetch (P := (· = s)) hs rfl).bind fun s' hs' => ?_
  subst hd hs'
  refine (hf s' (hP hnew)).bind fun t hQ => yields_pure ?_
  refine ⟨h.degrees_eq, h.classOf_eq, ?_, fun c' degree hc' => ?_⟩
  · rw [EnergyIndex.setSpectrum, Array.size_setIfInBounds, h.size_spectra]
  · change ∃ t', (index.spectra.setIfInBounds c t)[c']? = some t' ∧ _
    rw [Array.getElem?_setIfInBounds]
    by_cases hcc : c = c'
    · subst hcc
      obtain ⟨hlt, -⟩ := List.getElem?_eq_some_iff.1 hc
      rw [hc] at hc'
      cases hc'
      rw [if_pos rfl, if_pos (by rwa [h.size_spectra])]
      exact ⟨t, rfl, fun _ => hQ, fun hnot => absurd (by simp) hnot⟩
    · obtain ⟨t', ht', hQt, hPt⟩ := h.spectrum c' degree hc'
      have hiff : c' ∈ done ++ [c] ↔ c' ∈ done := by simp [Ne.symm hcc]
      rw [if_neg hcc, hiff]
      exact ⟨t', ht', hQt, hPt⟩

theorem Covers.yields_foldlM (h : Covers index degrees P)
    {f : Nat → Spectrum F → Checked F (Spectrum F)}
    (hf : ∀ degree ∈ degrees, ∀ s, P degree s → Yields (f degree s) (Q degree)) :
    Yields ((List.range index.classCount).foldlM
      (fun index c => do
        let degree ← Checked.fetch index.degrees c
        index.modifyM c (f degree)) index) (Covers · degrees Q) := by
  rw [classCount, h.size_spectra]
  have hloop : Yields ((List.range degrees.length).foldlM
      (fun index c => do
        let degree ← Checked.fetch index.degrees c
        index.modifyM c (f degree)) index)
      (CoversPartly · degrees (List.range degrees.length) P Q) := by
    refine Yields.foldlM (fun done (index' : EnergyIndex F) =>
      CoversPartly index' degrees done P Q) (h.partly Q) ?_
    intro done c rest index' hrange hindex'
    have hmem : c ∈ List.range degrees.length := by
      rw [hrange]
      simp
    have hlt := List.mem_range.1 hmem
    have hnew : c ∉ done := by
      have hnodup := List.nodup_range (n := degrees.length)
      rw [hrange, List.nodup_append] at hnodup
      exact fun hmem => hnodup.2.2 c hmem c List.mem_cons_self rfl
    exact hindex'.yields_modify (List.getElem?_eq_getElem hlt) hnew (hf _ (List.getElem_mem hlt))
  exact hloop.mono fun index' hindex' => hindex'.covers fun c hc => List.mem_range.2 hc

/-! ## Indices with the same levels -/

/-- Two indices have the same degree classes, and in every class the same labels at every energy. -/
structure Agrees (index index' : EnergyIndex F) : Prop where
  degrees_eq : index.degrees = index'.degrees
  classOf_eq : index.classOf = index'.classOf
  size_spectra : index.spectra.size = index'.spectra.size
  level?_eq : ∀ (c : Nat) (s s' : Spectrum F), index.spectra[c]? = some s →
    index'.spectra[c]? = some s' → ∀ e, s.level? e = s'.level? e

theorem Covers.agrees {index' : EnergyIndex F} (h : Covers index degrees P)
    (h' : Covers index' degrees P)
    (hP : ∀ degree s s', P degree s → P degree s' → ∀ e, s.level? e = s'.level? e) :
    Agrees index index' where
  degrees_eq := by rw [h.degrees_eq, h'.degrees_eq]
  classOf_eq := by rw [h.classOf_eq, h'.classOf_eq]
  size_spectra := by rw [h.size_spectra, h'.size_spectra]
  level?_eq c s s' hs hs' := by
    obtain ⟨hlt, -⟩ := Array.getElem?_eq_some_iff.1 hs
    rw [h.size_spectra] at hlt
    have hc : degrees[c]? = some degrees[c] := List.getElem?_eq_getElem hlt
    obtain ⟨t, ht, hPt⟩ := h.spectrum c degrees[c] hc
    obtain ⟨t', ht', hPt'⟩ := h'.spectrum c degrees[c] hc
    rw [hs] at ht
    rw [hs'] at ht'
    cases ht
    cases ht'
    exact hP degrees[c] s s' hPt hPt'

end Potts.EnergyIndex
