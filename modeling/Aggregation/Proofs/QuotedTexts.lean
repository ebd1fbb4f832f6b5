import Aggregation.Json.Quoted
import Aggregation.Proofs.Faults

/-!
# Strings that are written are read

Each character is written in a form that the reader takes back for that character, be it by a
short escape, by its number or as itself. So a quoted string is read as the string, whatever
characters it holds, up to the quote that ends it.
-/

namespace Aggregation.Json

variable {before text rest : List Char} {c : Char}

/-! ## Escapes by number -/

theorem hexValue?_hexDigit {n : ℕ} (h : n < 16) : hexValue? (hexDigit n) = some n := by
  have hall : ∀ n : Fin 16, hexValue? (hexDigit n) = some n.val := by decide
  exact hall ⟨n, h⟩

/-- A control character is read from the number that it is written by. -/
theorem unicodeEscape_control (h : c.toNat < 0x20) (text : List Char) :
    unicodeEscape ('0' :: '0' :: hexDigit (c.toNat / 16) :: hexDigit (c.toNat % 16) :: text) =
      .ok (c, 4) := by
  have hzero : hexValue? '0' = some 0 := by decide
  have hunit : c.toNat / 16 * 16 + c.toNat % 16 = c.toNat := Nat.div_add_mod' c.toNat 16
  have hhex : hexUnit ('0' :: '0' :: hexDigit (c.toNat / 16) :: hexDigit (c.toNat % 16) :: text) =
      .ok c.toNat := by
    simp [hexUnit, hzero, hexValue?_hexDigit (show c.toNat / 16 < 16 by omega),
      hexValue?_hexDigit (show c.toNat % 16 < 16 by omega), hunit]
  have htrailing : isTrailingUnit c.toNat = false := by
    simp only [isTrailingUnit, Bool.and_eq_false_imp, decide_eq_true_eq, decide_eq_false_iff_not]
    omega
  have hleading : isLeadingUnit c.toNat = false := by
    simp only [isLeadingUnit, Bool.and_eq_false_imp, decide_eq_true_eq, decide_eq_false_iff_not]
    omega
  rw [unicodeEscape, hhex, Fault.ok_bind, htrailing, hleading]
  simp [Char.ofNat_toNat]

/-! ## Characters -/

/-- What follows a backslash is read as an escape. -/
theorem readCharacters_escape {written : List Char}
    (h : readEscape (written ++ text) = .ok (c, written.length)) :
    readCharacters before ('\\' :: (written ++ text)) = readCharacters (c :: before) text := by
  rw [readCharacters, if_neg (by decide), if_pos rfl, h]
  dsimp only
  rw [List.drop_left]

/-- **A character is read from what it is written as.** -/
theorem readCharacters_append_escape (before : List Char) (c : Char) (text : List Char) :
    readCharacters before (escape c ++ text) = readCharacters (c :: before) text := by
  by_cases hshort : c ∈ ['"', '\\', '\x08', '\x0c', '\n', '\r', '\t']
  · -- One of the characters with a short escape.
    simp only [List.mem_cons, List.not_mem_nil, or_false] at hshort
    rcases hshort with rfl | rfl | rfl | rfl | rfl | rfl | rfl <;>
      simp [escape, readCharacters, readEscape]
  · simp only [List.mem_cons, List.not_mem_nil, or_false, not_or] at hshort
    obtain ⟨hquote, hbackslash, hb, hf, hn, hr, ht⟩ := hshort
    rw [escape, if_neg hquote, if_neg hbackslash, if_neg hb, if_neg hf, if_neg hn, if_neg hr,
      if_neg ht]
    by_cases hcontrol : c.toNat < 0x20
    · rw [if_pos hcontrol, List.cons_append]
      apply readCharacters_escape
      rw [List.cons_append, readEscape]
      simp only [List.cons_append, List.nil_append, unicodeEscape_control hcontrol]
      rfl
    · rw [if_neg hcontrol, List.singleton_append, readCharacters, if_neg hquote,
        if_neg hbackslash, if_neg hcontrol]

/-- So are all characters up to the closing quote. -/
theorem readCharacters_flatMap_escape (before characters rest : List Char) :
    readCharacters before (characters.flatMap escape ++ '"' :: rest) =
      .ok (before.reverse ++ characters, rest) := by
  induction characters generalizing before with
  | nil =>
    rw [List.flatMap_nil, List.nil_append, readCharacters, if_pos rfl, List.append_nil]
  | cons c characters ih =>
    rw [List.flatMap_cons, List.append_assoc, readCharacters_append_escape, ih,
      List.reverse_cons, List.append_assoc, List.singleton_append]

/-- **A quoted string is read**, up to the quote that ends it. -/
theorem readQuoted_quote (s : String) (rest : List Char) :
    readQuoted (s.toList.flatMap escape ++ '"' :: rest) = .ok (s, rest) := by
  rw [readQuoted, readCharacters_flatMap_escape, Fault.ok_bind, List.reverse_nil, List.nil_append]
  exact congrArg (fun s => Except.ok (s, rest)) String.ofList_toList

end Aggregation.Json
