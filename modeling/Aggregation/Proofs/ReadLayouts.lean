import Aggregation.Proofs.DigitTexts
import Aggregation.Proofs.Layouts
import Aggregation.Proofs.QuotedTexts

/-!
# Texts in any layout are read

Whatever the blanks of a text are, it is read as the value it was written from, provided that
it nests no deeper than the reader goes and holds no float, whose literal need not be read as
the same float. Part by part: what is read ends where the text of the part ends, because what
stands behind it ends a numeral and opens no further item or entry.

## Main results

* `Json.readValue_layOut` - a text in any layout is read.
* `Json.read_compact`, `Json.read_pretty` - so are the two texts that are printed.
-/

namespace Aggregation.Json

/-! ## Blanks -/

variable {blanks text rest : List Char} {c : Char}

theorem skipBlanks_append (h : ∀ c ∈ blanks, isBlank c = true) (text : List Char) :
    skipBlanks (blanks ++ text) = skipBlanks text :=
  List.dropWhile_append_of_pos h

theorem skipBlanks_cons (h : isBlank c = false) (text : List Char) :
    skipBlanks (c :: text) = c :: text := by
  rw [skipBlanks, List.dropWhile_cons_of_neg]
  simp [h]

/-- What is read as a value does not depend on the blanks in front of it. -/
theorem readValue_skipBlanks (bound levels : ℕ) (h : ∀ c ∈ blanks, isBlank c = true)
    (text : List Char) : readValue bound levels (blanks ++ text) = readValue bound levels text := by
  rw [readValue, skipBlanks_append h]
  conv_rhs => rw [readValue]

/-! ## The reader by the first character -/

section Dispatch
variable (bound levels : ℕ) (text : List Char)

theorem readValue_string : readValue bound levels ('"' :: text) =
    readQuoted text >>= fun read => .ok (.string read.1, read.2) := by
  rw [readValue, skipBlanks_cons rfl]
  rfl

theorem readValue_array : readValue bound (levels + 1) ('[' :: text) =
    readArray (readValue bound levels) bound text >>= fun read => .ok (.array read.1, read.2) := by
  rw [readValue, skipBlanks_cons rfl]
  rfl

theorem readValue_object : readValue bound (levels + 1) ('{' :: text) =
    readObject (readValue bound levels) bound text >>= fun read =>
      .ok (.object (Entries.collapse read.1), read.2) := by
  rw [readValue, skipBlanks_cons rfl]
  rfl

theorem readValue_minus : readValue bound levels ('-' :: text) = readNumeral true text := by
  rw [readValue, skipBlanks_cons rfl]
  rfl

theorem not_isBlank_of_isDigit (h : c.isDigit = true) : isBlank c = false := by
  by_contra hblank
  rw [Bool.not_eq_false] at hblank
  simp only [isBlank, Bool.or_eq_true, beq_iff_eq] at hblank
  rcases hblank with ((rfl | rfl) | rfl) | rfl <;> contradiction

/-- A digit opens a numeral. -/
theorem readValue_digit (h : c.isDigit = true) :
    readValue bound levels (c :: text) = readNumeral false (c :: text) := by
  rw [readValue, skipBlanks_cons (not_isBlank_of_isDigit h)]
  split <;> simp_all

theorem readWord_append (value : Json) (word rest : List Char) :
    readWord value word (word ++ rest) = .ok (value, rest) := by
  induction word with
  | nil => rfl
  | cons c word ih => rw [List.cons_append, readWord, if_pos rfl, ih]

end Dispatch

/-! ## Leaves -/

variable {layout : Layout} {level bound levels : ℕ}

theorem readValue_integerText {n : ℤ} (hn : Word.Holds n) (hrest : EndsNumeral rest) :
    readValue bound levels (integerText n ++ rest) = .ok (.integer n, rest) := by
  have hlt : n.natAbs < 2 ^ 64 := by
    obtain ⟨hlow, hhigh⟩ := hn
    omega
  have hread := readNumeral_text (decide (n < 0)) hlt hrest
  rw [integerNumeral_natAbs hn.1] at hread
  rw [integerText]
  split
  · rename_i hneg
    rw [decide_eq_true hneg] at hread
    rw [List.cons_append, readValue_minus, hread]
  · rename_i hpos
    obtain ⟨c, digits, hdigits, hc⟩ := Digits.exists_text_cons n.natAbs
    rw [decide_eq_false hpos] at hread
    rw [hdigits, List.cons_append] at hread ⊢
    rw [readValue_digit bound levels _ hc, hread]

theorem quote_append (s : String) (rest : List Char) :
    quote s ++ rest = '"' :: (s.toList.flatMap escape ++ '"' :: rest) := by
  rw [quote, List.append_assoc, List.cons_append, List.singleton_append]

theorem readValue_quote (s : String) (rest : List Char) :
    readValue bound levels (quote s ++ rest) = .ok (.string s, rest) := by
  rw [quote_append, readValue_string, readQuoted_quote]
  rfl

/-! ## What stands around a part -/

/-- Blanks end a numeral, and so does what sets parts apart. -/
theorem endsNumeral_append (h : ∀ c ∈ blanks, isBlank c = true) (hrest : EndsNumeral rest) :
    EndsNumeral (blanks ++ rest) := by
  cases blanks with
  | nil => exact hrest
  | cons c blanks =>
    have hc := h c List.mem_cons_self
    simp only [isBlank, Bool.or_eq_true, beq_iff_eq] at hc
    rcases hc with ((rfl | rfl) | rfl) | rfl <;> simp [EndsNumeral]

theorem endsNumeral_cons (h : c ∈ [',', ']', '}']) (text : List Char) :
    EndsNumeral (c :: text) := by
  simp only [List.mem_cons, List.not_mem_nil, or_false] at h
  rcases h with rfl | rfl | rfl <;> simp [EndsNumeral]

theorem endsNumeral_layOutItems (layout : Layout) (level : ℕ) (items : List Json)
    (rest : List Char) : EndsNumeral (layOutItems layout level items ++ rest) := by
  cases items with
  | nil =>
    rw [layOutItems, List.append_assoc]
    exact endsNumeral_append (layout.gap_blank level) (endsNumeral_cons (by simp) _)
  | cons item items =>
    rw [layOutItems, List.cons_append]
    exact endsNumeral_cons (by simp) _

theorem endsNumeral_layOutEntries (layout : Layout) (level : ℕ) (entries : Entries Json)
    (rest : List Char) : EndsNumeral (layOutEntries layout level entries ++ rest) := by
  cases entries with
  | nil =>
    rw [layOutEntries, List.append_assoc]
    exact endsNumeral_append (layout.gap_blank level) (endsNumeral_cons (by simp) _)
  | cons entry entries =>
    rw [layOutEntries, List.cons_append]
    exact endsNumeral_cons (by simp) _

/-- The texts of the value on this level are read, with blanks in front of them. -/
def ReadsAt (readItem : Reader Json) (layout : Layout) (level : ℕ) (j : Json) : Prop :=
  ∀ blanks rest : List Char, (∀ c ∈ blanks, isBlank c = true) → EndsNumeral rest →
    readItem (blanks ++ (layOut layout level j ++ rest)) = .ok (j, rest)

theorem ReadsAt.nil {readItem : Reader Json} {j : Json} (h : ReadsAt readItem layout level j)
    (hrest : EndsNumeral rest) :
    readItem (layOut layout level j ++ rest) = .ok (j, rest) :=
  h [] rest (fun _ hmem => absurd hmem List.not_mem_nil) hrest

/-- The text of a value opens with neither a blank nor a closing bracket. -/
theorem exists_layOut_cons (layout : Layout) (level : ℕ) {j : Json} (h : ∀ x, j ≠ .float x) :
    ∃ c text, layOut layout level j = c :: text ∧ isBlank c = false ∧ c ≠ ']' := by
  cases j with
  | null => exact ⟨_, _, by rw [layOut], rfl, by decide⟩
  | bool b => cases b <;> exact ⟨_, _, by rw [layOut], rfl, by decide⟩
  | integer n =>
    rw [layOut, integerText]
    split
    · exact ⟨_, _, rfl, rfl, by decide⟩
    · obtain ⟨c, digits, hdigits, hc⟩ := Digits.exists_text_cons n.natAbs
      refine ⟨c, digits, hdigits, not_isBlank_of_isDigit hc, ?_⟩
      rintro rfl
      contradiction
  | float x => exact absurd rfl (h x)
  | string s => exact ⟨_, _, by rw [layOut, quote, List.cons_append], rfl, by decide⟩
  | array items => cases items <;> exact ⟨_, _, by rw [layOut], rfl, by decide⟩
  | object entries => cases entries <;> exact ⟨_, _, by rw [layOut], rfl, by decide⟩

/-! ## Arrays and objects -/

section Parts

variable {readItem : Reader Json} {items : List Json} {entries : Entries Json}

theorem readItems_comma (h : skipBlanks text = c :: rest) (hc : c ≠ ']') :
    readItems readItem (bound + 1) (',' :: text) = readItem (c :: rest) >>= fun first =>
      readItems readItem bound first.2 >>= fun others =>
        .ok (first.1 :: others.1, others.2) := by
  rw [readItems, skipBlanks_cons rfl]
  simp only [h]
  split
  · rename_i hclose
    exact absurd (List.cons.inj hclose).1 hc
  · rfl

theorem readArray_cons (h : skipBlanks text = c :: rest) (hc : c ≠ ']') :
    readArray readItem bound text = readItem (c :: rest) >>= fun first =>
      readItems readItem bound first.2 >>= fun others =>
        .ok (first.1 :: others.1, others.2) := by
  rw [readArray, h]
  split
  · contradiction
  · rename_i hclose
    exact absurd (List.cons.inj hclose).1 hc
  · rfl

theorem readEntry_colon {key : String} (h : readQuoted text = .ok (key, ':' :: rest)) :
    readEntry readItem text = readItem rest >>= fun value => .ok ((key, value.1), value.2) := by
  rw [readEntry, h, Fault.ok_bind]
  dsimp only
  rw [skipBlanks_cons rfl]
  rfl

theorem readEntries_comma (h : skipBlanks text = '"' :: rest) :
    readEntries readItem (bound + 1) (',' :: text) = readEntry readItem rest >>= fun first =>
      readEntries readItem bound first.2 >>= fun others =>
        .ok (first.1 :: others.1, others.2) := by
  rw [readEntries, skipBlanks_cons rfl]
  simp only [h]
  rfl

theorem readObject_quote (h : skipBlanks text = '"' :: rest) :
    readObject readItem bound text = readEntry readItem rest >>= fun first =>
      readEntries readItem bound first.2 >>= fun others =>
        .ok (first.1 :: others.1, others.2) := by
  rw [readObject, h]
  rfl

/-- Behind the blanks of a level the text of an item is left. -/
theorem exists_skipBlanks_gap (layout : Layout) (level : ℕ) {item : Json}
    (h : ∀ x, item ≠ .float x) (rest : List Char) :
    ∃ c text, skipBlanks (layout.gap level ++ (layOut layout level item ++ rest)) = c :: text ∧
      layOut layout level item ++ rest = c :: text ∧ c ≠ ']' := by
  obtain ⟨c, text, htext, hc, hne⟩ := exists_layOut_cons layout level h
  refine ⟨c, text ++ rest, ?_, by rw [htext, List.cons_append], hne⟩
  rw [skipBlanks_append (layout.gap_blank level), htext, List.cons_append, skipBlanks_cons hc]

theorem readItems_layOutItems (hitems : ∀ item ∈ items, ReadsAt readItem layout (level + 1) item)
    (hfloat : ∀ item ∈ items, ∀ x, item ≠ .float x) (hbound : items.length < bound)
    (rest : List Char) :
    readItems readItem bound (layOutItems layout level items ++ rest) = .ok (items, rest) := by
  induction items generalizing bound with
  | nil =>
    obtain ⟨bound, rfl⟩ := Nat.exists_eq_succ_of_ne_zero (Nat.ne_of_gt hbound)
    rw [layOutItems, List.append_assoc, readItems, skipBlanks_append (layout.gap_blank level)]
    rfl
  | cons item items ih =>
    obtain ⟨bound, rfl⟩ := Nat.exists_eq_succ_of_ne_zero (Nat.ne_zero_of_lt hbound)
    obtain ⟨hitem, hitems⟩ := List.forall_mem_cons.mp hitems
    obtain ⟨hfirst, hothers⟩ := List.forall_mem_cons.mp hfloat
    obtain ⟨c, text, hskip, htext, hne⟩ := exists_skipBlanks_gap layout (level + 1) hfirst
      (layOutItems layout level items ++ rest)
    rw [layOutItems, List.cons_append, List.append_assoc, List.append_assoc,
      readItems_comma hskip hne, ← htext, hitem.nil (endsNumeral_layOutItems _ _ _ _),
      Fault.ok_bind, ih hitems hothers (by simpa using hbound)]
    rfl

/-- The items of an array are read behind its opening bracket. -/
theorem readArray_layOut {item : Json}
    (hitems : ∀ item' ∈ item :: items, ReadsAt readItem layout (level + 1) item')
    (hfloat : ∀ item' ∈ item :: items, ∀ x, item' ≠ .float x) (hbound : items.length < bound)
    (rest : List Char) :
    readArray readItem bound (layout.gap (level + 1) ++
      (layOut layout (level + 1) item ++ (layOutItems layout level items ++ rest))) =
        .ok (item :: items, rest) := by
  obtain ⟨hitem, hitems⟩ := List.forall_mem_cons.mp hitems
  obtain ⟨hfirst, hothers⟩ := List.forall_mem_cons.mp hfloat
  obtain ⟨c, text, hskip, htext, hne⟩ := exists_skipBlanks_gap layout (level + 1) hfirst
    (layOutItems layout level items ++ rest)
  rw [readArray_cons hskip hne, ← htext, hitem.nil (endsNumeral_layOutItems _ _ _ _),
    Fault.ok_bind, readItems_layOutItems hitems hothers hbound]
  rfl

/-- The text of an entry behind the opening quote of its key. -/
def entryTail (layout : Layout) (level : ℕ) (entry : String × Json) : List Char :=
  entry.1.toList.flatMap escape ++ '"' :: ':' :: (layout.space ++ layOut layout level entry.2)

theorem readEntry_entryTail {entry : String × Json} (h : ReadsAt readItem layout level entry.2)
    (hrest : EndsNumeral rest) :
    readEntry readItem (entryTail layout level entry ++ rest) = .ok (entry, rest) := by
  have hkey := readQuoted_quote entry.1
    (':' :: (layout.space ++ (layOut layout level entry.2 ++ rest)))
  rw [entryTail, List.append_assoc, List.cons_append, List.cons_append, List.append_assoc,
    readEntry_colon hkey, h _ _ layout.space_blank hrest]
  rfl

/-- An entry is its key between quotes, a colon and its value. -/
theorem layOut_entry (layout : Layout) (level : ℕ) (entry : String × Json) (rest : List Char) :
    quote entry.1 ++ ':' :: (layout.space ++ (layOut layout level entry.2 ++ rest)) =
      '"' :: (entryTail layout level entry ++ rest) := by
  rw [quote_append, entryTail]
  simp

theorem skipBlanks_gap_quote (layout : Layout) (level : ℕ) (text : List Char) :
    skipBlanks (layout.gap level ++ '"' :: text) = '"' :: text := by
  rw [skipBlanks_append (layout.gap_blank level), skipBlanks_cons rfl]

theorem readEntries_layOutEntries
    (hentries : ∀ entry ∈ entries, ReadsAt readItem layout (level + 1) entry.2)
    (hbound : entries.length < bound) (rest : List Char) :
    readEntries readItem bound (layOutEntries layout level entries ++ rest) =
      .ok (entries, rest) := by
  induction entries generalizing bound with
  | nil =>
    obtain ⟨bound, rfl⟩ := Nat.exists_eq_succ_of_ne_zero (Nat.ne_of_gt hbound)
    rw [layOutEntries, List.append_assoc, readEntries, skipBlanks_append (layout.gap_blank level)]
    rfl
  | cons entry entries ih =>
    obtain ⟨bound, rfl⟩ := Nat.exists_eq_succ_of_ne_zero (Nat.ne_zero_of_lt hbound)
    obtain ⟨hentry, hentries⟩ := List.forall_mem_cons.mp hentries
    rw [layOutEntries, layOut_entry, List.cons_append, List.append_assoc, List.cons_append,
      List.append_assoc, readEntries_comma (skipBlanks_gap_quote _ _ _),
      readEntry_entryTail hentry (endsNumeral_layOutEntries _ _ _ _), Fault.ok_bind,
      ih hentries (by simpa using hbound)]
    rfl

/-- The entries of an object are read behind its opening brace. -/
theorem readObject_layOut {entry : String × Json}
    (hentries : ∀ entry' ∈ entry :: entries, ReadsAt readItem layout (level + 1) entry'.2)
    (hbound : entries.length < bound) (rest : List Char) :
    readObject readItem bound (layout.gap (level + 1) ++
      '"' :: (entryTail layout (level + 1) entry ++ (layOutEntries layout level entries ++ rest))) =
        .ok (entry :: entries, rest) := by
  obtain ⟨hentry, hentries⟩ := List.forall_mem_cons.mp hentries
  rw [readObject_quote (skipBlanks_gap_quote _ _ _),
    readEntry_entryTail hentry (endsNumeral_layOutEntries _ _ _ _), Fault.ok_bind,
    readEntries_layOutEntries hentries hbound]
  rfl

end Parts

/-! ## Values -/

/-- Each item takes a character, and so does the closing bracket. -/
theorem length_lt_layOutItems (layout : Layout) (level : ℕ) (items : List Json) :
    items.length < (layOutItems layout level items).length := by
  induction items with
  | nil => simp [layOutItems]
  | cons item items ih =>
    simp only [layOutItems, List.length_cons, List.length_append]
    omega

theorem length_lt_layOutEntries (layout : Layout) (level : ℕ) (entries : Entries Json) :
    entries.length < (layOutEntries layout level entries).length := by
  induction entries with
  | nil => simp [layOutEntries]
  | cons entry entries ih =>
    simp only [layOutEntries, List.length_cons, List.length_append]
    omega

theorem length_le_layOutItems (layout : Layout) (level : ℕ) {items : List Json} {item : Json}
    (h : item ∈ items) :
    (layOut layout (level + 1) item).length ≤ (layOutItems layout level items).length := by
  induction items with
  | nil => contradiction
  | cons first items ih =>
    simp only [layOutItems, List.length_cons, List.length_append]
    rcases List.mem_cons.mp h with rfl | h
    · omega
    · have := ih h
      omega

theorem length_le_layOutEntries (layout : Layout) (level : ℕ) {entries : Entries Json}
    {entry : String × Json} (h : entry ∈ entries) :
    (layOut layout (level + 1) entry.2).length ≤ (layOutEntries layout level entries).length := by
  induction entries with
  | nil => contradiction
  | cons first entries ih =>
    simp only [layOutEntries, List.length_cons, List.length_append]
    rcases List.mem_cons.mp h with rfl | h
    · omega
    · have := ih h
      omega

/-- An array is written longer than each of its items, and than they are many. -/
theorem length_lt_layOut_array (layout : Layout) (level : ℕ) (item : Json) (items : List Json) :
    items.length < (layOut layout level (.array (item :: items))).length ∧
      ∀ item' ∈ item :: items, (layOut layout (level + 1) item').length ≤
        (layOut layout level (.array (item :: items))).length := by
  have hlength := length_lt_layOutItems layout level items
  simp only [layOut, List.length_cons, List.length_append]
  refine ⟨by omega, List.forall_mem_cons.mpr ⟨by omega, fun item' hmem => ?_⟩⟩
  have := length_le_layOutItems layout level hmem
  omega

theorem length_lt_layOut_object (layout : Layout) (level : ℕ) (entry : String × Json)
    (entries : Entries Json) :
    entries.length < (layOut layout level (.object (entry :: entries))).length ∧
      ∀ entry' ∈ entry :: entries, (layOut layout (level + 1) entry'.2).length ≤
        (layOut layout level (.object (entry :: entries))).length := by
  have hlength := length_lt_layOutEntries layout level entries
  simp only [layOut, List.length_cons, List.length_append]
  refine ⟨by omega, List.forall_mem_cons.mpr ⟨by omega, fun entry' hmem => ?_⟩⟩
  have := length_le_layOutEntries layout level hmem
  omega

/-- **A text in any layout is read** as the value that was written, with blanks in front of it
and up to the first character that is no part of it. -/
theorem readValue_layOut {j : Json} (hwf : j.WellFormed) (hfloat : ¬ j.HasFloat)
    (hdepth : j.depth ≤ levels) (hbound : (layOut layout level j).length ≤ bound) :
    ReadsAt (readValue bound levels) layout level j := by
  induction j generalizing level levels with
  | null =>
    intro blanks rest hblanks _
    rw [readValue_skipBlanks bound levels hblanks, layOut, readValue, List.cons_append,
      skipBlanks_cons rfl]
    exact readWord_append .null ['u', 'l', 'l'] rest
  | bool b =>
    intro blanks rest hblanks _
    rw [readValue_skipBlanks bound levels hblanks]
    cases b with
    | true =>
      rw [layOut, readValue, List.cons_append, skipBlanks_cons rfl]
      exact readWord_append (.bool true) ['r', 'u', 'e'] rest
    | false =>
      rw [layOut, readValue, List.cons_append, skipBlanks_cons rfl]
      exact readWord_append (.bool false) ['a', 'l', 's', 'e'] rest
  | integer n =>
    intro blanks rest hblanks hrest
    cases hwf with
    | integer hn =>
      rw [readValue_skipBlanks bound levels hblanks, layOut, readValue_integerText hn hrest]
  | float x => exact absurd rfl (ne_float_of_not_hasFloat hfloat x)
  | string s =>
    intro blanks rest hblanks _
    rw [readValue_skipBlanks bound levels hblanks, layOut, readValue_quote]
  | array items ih =>
    intro blanks rest hblanks _
    rw [readValue_skipBlanks bound levels hblanks]
    rw [depth] at hdepth
    obtain ⟨levels, rfl⟩ := Nat.exists_eq_succ_of_ne_zero (Nat.ne_zero_of_lt hdepth)
    have hnone : ∀ item ∈ items, ¬ item.HasFloat :=
      fun item hmem hitem => hfloat (hasFloat_array_iff.mpr ⟨item, hmem, hitem⟩)
    cases hwf with
    | array hparts =>
    cases items with
    | nil =>
      rw [layOut, List.cons_append, readValue_array]
      rfl
    | cons item items =>
      obtain ⟨hlength, hshorter⟩ := length_lt_layOut_array layout level item items
      have hitems : ∀ item' ∈ item :: items,
          ReadsAt (readValue bound levels) layout (level + 1) item' := by
        intro item' hmem
        refine ih item' hmem (hparts item' hmem) (hnone item' hmem) ?_
          ((hshorter item' hmem).trans hbound)
        exact (depth_le_of_mem_items hmem).trans (Nat.le_of_succ_le_succ hdepth)
      rw [layOut, List.cons_append, List.append_assoc, List.append_assoc, readValue_array,
        readArray_layOut hitems (fun item' hmem => ne_float_of_not_hasFloat (hnone item' hmem))
          (hlength.trans_le hbound)]
      rfl
  | object entries ih =>
    intro blanks rest hblanks _
    rw [readValue_skipBlanks bound levels hblanks]
    rw [depth] at hdepth
    obtain ⟨levels, rfl⟩ := Nat.exists_eq_succ_of_ne_zero (Nat.ne_zero_of_lt hdepth)
    have hnone : ∀ entry ∈ entries, ¬ entry.2.HasFloat :=
      fun entry hmem hentry => hfloat (hasFloat_object_iff.mpr ⟨entry, hmem, hentry⟩)
    cases hwf with
    | object hnames hparts =>
    cases entries with
    | nil =>
      rw [layOut, List.cons_append, readValue_object]
      rfl
    | cons entry entries =>
      obtain ⟨hlength, hshorter⟩ := length_lt_layOut_object layout level entry entries
      have hentries : ∀ entry' ∈ entry :: entries,
          ReadsAt (readValue bound levels) layout (level + 1) entry'.2 := by
        intro entry' hmem
        refine ih entry' hmem (hparts entry' hmem) (hnone entry' hmem) ?_
          ((hshorter entry' hmem).trans hbound)
        exact (depth_le_of_mem_entries hmem).trans (Nat.le_of_succ_le_succ hdepth)
      rw [layOut, layOut_entry, List.cons_append, List.append_assoc, List.cons_append,
        List.append_assoc, readValue_object, readObject_layOut hentries (hlength.trans_le hbound),
        Fault.ok_bind]
      -- The keys are distinct, so writing the entries that were read gives the object.
      rw [Entries.collapse_of_nodup hnames]

/-! ## Texts -/

/-- A text in any layout is read to its end. -/
theorem read_layOut (layout : Layout) {j : Json} (hwf : j.WellFormed) (hfloat : ¬ j.HasFloat)
    (hdepth : j.depth ≤ maxDepth) : read (String.ofList (layOut layout 0 j)) = .ok j := by
  have hreads : ReadsAt (readValue (layOut layout 0 j).length maxDepth) layout 0 j :=
    readValue_layOut hwf hfloat hdepth (Nat.le_refl _)
  have hread := hreads.nil endsNumeral_nil
  rw [List.append_nil] at hread
  rw [read, String.toList_ofList, hread, Fault.ok_bind]
  rfl

/-- **The compact text of a value is read as the value.** -/
theorem read_compact {j : Json} (hwf : j.WellFormed) (hfloat : ¬ j.HasFloat)
    (hdepth : j.depth ≤ maxDepth) : read j.compact = .ok j := by
  rw [compact, compactText_eq_layOut j 0]
  exact read_layOut .compact hwf hfloat hdepth

/-- **So is the pretty text.** -/
theorem read_pretty {j : Json} (hwf : j.WellFormed) (hfloat : ¬ j.HasFloat)
    (hdepth : j.depth ≤ maxDepth) : read j.pretty = .ok j := by
  rw [pretty, prettyText_eq_layOut]
  exact read_layOut .pretty hwf hfloat hdepth

end Aggregation.Json
