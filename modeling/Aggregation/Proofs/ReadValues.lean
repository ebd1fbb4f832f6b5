import Aggregation.Json.Reader
import Aggregation.Proofs.ReadNumbers

/-!
# What is read is well-formed

The reader gives no value outside the bounds of JSON: its integers have 64 bits, its floats
are finite, and repeated keys of an object are written into one place.
-/

namespace Aggregation.Json

variable {readItem : Reader Json} {bound : ℕ} {text rest : List Char}

theorem eq_of_readWord {value j : Json} {word : List Char}
    (h : readWord value word text = .ok (j, rest)) : j = value := by
  induction word generalizing text with
  | nil =>
    cases h
    rfl
  | cons c word ih =>
    cases text with
    | nil => cases h
    | cons d text =>
      rw [readWord] at h
      split at h
      · exact ih h
      · cases h

section Items
variable (hitem : ∀ {text j rest}, readItem text = .ok (j, rest) → WellFormed j)
include hitem

theorem wellFormed_of_readItems {items : List Json}
    (h : readItems readItem bound text = .ok (items, rest)) :
    ∀ item ∈ items, item.WellFormed := by
  induction bound generalizing text items with
  | zero => cases h
  | succ bound ih =>
    unfold readItems at h
    split at h
    · cases h
    · cases h
      simp
    · split at h
      · cases h
      · obtain ⟨⟨item, rest'⟩, hfirst, h⟩ := Fault.bind_eq_ok.mp h
        obtain ⟨⟨others, rest''⟩, hothers, h⟩ := Fault.bind_eq_ok.mp h
        cases h
        exact List.forall_mem_cons.mpr ⟨hitem hfirst, ih hothers⟩
    · cases h

theorem wellFormed_of_readArray {items : List Json}
    (h : readArray readItem bound text = .ok (items, rest)) :
    ∀ item ∈ items, item.WellFormed := by
  unfold readArray at h
  split at h
  · cases h
  · cases h
    simp
  · obtain ⟨⟨item, rest'⟩, hfirst, h⟩ := Fault.bind_eq_ok.mp h
    obtain ⟨⟨others, rest''⟩, hothers, h⟩ := Fault.bind_eq_ok.mp h
    cases h
    exact List.forall_mem_cons.mpr ⟨hitem hfirst, wellFormed_of_readItems hitem hothers⟩

theorem wellFormed_of_readEntry {entry : String × Json}
    (h : readEntry readItem text = .ok (entry, rest)) : entry.2.WellFormed := by
  unfold readEntry at h
  obtain ⟨⟨key, rest'⟩, -, h⟩ := Fault.bind_eq_ok.mp h
  dsimp only at h
  split at h
  · cases h
  · obtain ⟨⟨value, rest''⟩, hvalue, h⟩ := Fault.bind_eq_ok.mp h
    cases h
    exact hitem hvalue
  · cases h

theorem wellFormed_of_readEntries {entries : Entries Json}
    (h : readEntries readItem bound text = .ok (entries, rest)) :
    ∀ entry ∈ entries, entry.2.WellFormed := by
  induction bound generalizing text entries with
  | zero => cases h
  | succ bound ih =>
    unfold readEntries at h
    split at h
    · cases h
    · cases h
      simp
    · split at h
      · cases h
      · obtain ⟨⟨entry, rest'⟩, hfirst, h⟩ := Fault.bind_eq_ok.mp h
        obtain ⟨⟨others, rest''⟩, hothers, h⟩ := Fault.bind_eq_ok.mp h
        cases h
        exact List.forall_mem_cons.mpr ⟨wellFormed_of_readEntry hitem hfirst, ih hothers⟩
      · cases h
      · cases h
    · cases h

theorem wellFormed_of_readObject {entries : Entries Json}
    (h : readObject readItem bound text = .ok (entries, rest)) :
    ∀ entry ∈ entries, entry.2.WellFormed := by
  unfold readObject at h
  split at h
  · cases h
  · cases h
    simp
  · obtain ⟨⟨entry, rest'⟩, hfirst, h⟩ := Fault.bind_eq_ok.mp h
    obtain ⟨⟨others, rest''⟩, hothers, h⟩ := Fault.bind_eq_ok.mp h
    cases h
    exact List.forall_mem_cons.mpr
      ⟨wellFormed_of_readEntry hitem hfirst, wellFormed_of_readEntries hitem hothers⟩
  · cases h

end Items

/-- A value is well-formed if those on the level below are. -/
theorem wellFormed_of_readValue_of_below {levels : ℕ} {j : Json}
    (hbelow : ∀ below, levels = below + 1 → ∀ {text j rest},
      readValue bound below text = .ok (j, rest) → j.WellFormed)
    (h : readValue bound levels text = .ok (j, rest)) : j.WellFormed := by
  unfold readValue at h
  split at h
  · cases h
  · exact eq_of_readWord h ▸ .null
  · exact eq_of_readWord h ▸ .bool true
  · exact eq_of_readWord h ▸ .bool false
  · obtain ⟨⟨s, rest'⟩, -, h⟩ := Fault.bind_eq_ok.mp h
    cases h
    exact .string s
  · split at h
    · cases h
    · obtain ⟨⟨items, rest'⟩, hitems, h⟩ := Fault.bind_eq_ok.mp h
      cases h
      exact .array (wellFormed_of_readArray (hbelow _ rfl) hitems)
  · split at h
    · cases h
    · obtain ⟨⟨entries, rest'⟩, hentries, h⟩ := Fault.bind_eq_ok.mp h
      cases h
      refine .object (Entries.names_collapse_nodup entries) fun entry hmem => ?_
      exact wellFormed_of_readObject (hbelow _ rfl) hentries entry
        (Entries.mem_of_mem_collapse hmem)
  · exact wellFormed_of_readNumeral h
  · split at h
    · exact wellFormed_of_readNumeral h
    · cases h

/-- Values on every level are well-formed; the induction is on the levels still allowed. -/
theorem wellFormed_of_readValue {levels : ℕ} {j : Json}
    (h : readValue bound levels text = .ok (j, rest)) : j.WellFormed := by
  induction levels generalizing text rest j with
  | zero => exact wellFormed_of_readValue_of_below (fun below hzero => by contradiction) h
  | succ levels ih =>
    refine wellFormed_of_readValue_of_below (fun below hsucc => ?_) h
    cases hsucc
    exact ih

/-- **Every value that is read is well-formed.** -/
theorem wellFormed_of_read {text : String} {j : Json} (h : read text = .ok j) :
    j.WellFormed := by
  obtain ⟨⟨value, rest⟩, hvalue, h⟩ := Fault.bind_eq_ok.mp h
  dsimp only at h
  split at h
  · cases h
    exact wellFormed_of_readValue hvalue
  · cases h

end Aggregation.Json
