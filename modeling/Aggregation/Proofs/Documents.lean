import Aggregation.Pipeline.Decode
import Aggregation.Proofs.Chain

/-!
# Stage documents

A stage document is an object with one key, the symbol of a keyword, and a payload that the
keyword accepts. What is none has a fault, and exactly one: that of the first check it
fails. An array of documents is a pipeline when all of them are stages; its fault is that
of the first one that is none.
-/

namespace Aggregation

theorem Keyword.ofSymbol?_eq_some_iff {symbol : String} {keyword : Keyword} :
    ofSymbol? symbol = some keyword ↔ keyword.symbol = symbol := by
  constructor
  · intro h
    simpa using List.find?_some h
  · rintro rfl
    exact ofSymbol?_symbol keyword

/-- A stage document determines the keyword and the payload. -/
theorem Keyword.document_inj {keyword keyword' : Keyword} {payload payload' : Json}
    (h : Json.object [(keyword.symbol, payload)] = .object [(keyword'.symbol, payload')]) :
    keyword = keyword' ∧ payload = payload' := by
  obtain ⟨hsymbol, hpayload⟩ : keyword.symbol = keyword'.symbol ∧ payload = payload' := by
    simpa using h
  exact ⟨symbol_inj hsymbol, hpayload⟩

namespace Stage

/-- The fault of a document that is no stage. The checks are those for an object, for one
key, for a keyword and for its payload, and each presupposes the ones before. -/
inductive DocumentFault : Json → DecodeError → Prop
  | notObject {document : Json} : (∀ entries, document ≠ .object entries) →
    DocumentFault document .stageNotObject
  | keyCount {entries : Entries Json} : entries.length ≠ 1 →
    DocumentFault (.object entries) (.keyCount entries.length)
  | unknownKeyword {symbol : String} {payload : Json} :
    (∀ keyword : Keyword, keyword.symbol ≠ symbol) →
      DocumentFault (.object [(symbol, payload)]) (.unknownKeyword symbol)
  | payloadNotObject {keyword : Keyword} {payload : Json} : keyword ≠ .matching →
    (∀ entries, payload ≠ .object entries) →
      DocumentFault (.object [(keyword.symbol, payload)]) (.payloadNotObject keyword)

variable {keyword : Keyword} {payload document : Json} {stage : Stage} {e : DecodeError}

/-! ## Payloads -/

@[simp] theorem ofPayload_matching (payload : Json) :
    ofPayload .matching payload = .ok (ofQuery (.ofJson payload)) := by
  rw [ofPayload]

@[simp] theorem ofPayload_object (keyword : Keyword) (entries : Entries Json) :
    ofPayload keyword (.object entries) = .ok (ofEntries keyword entries) := by
  cases keyword <;> rfl

theorem ofPayload_of_not_object (hkeyword : keyword ≠ .matching)
    (hpayload : ∀ entries, payload ≠ .object entries) :
    ofPayload keyword payload = .error (.payloadNotObject keyword) := by
  rw [ofPayload]
  · exact hkeyword
  · exact hpayload

/-- A query may be anything; every other payload is an object. -/
theorem ofPayload_eq_ok_iff : ofPayload keyword payload = .ok stage ↔
    (keyword = .matching ∧ stage = ofQuery (.ofJson payload)) ∨
      ∃ entries, payload = .object entries ∧ stage = ofEntries keyword entries := by
  constructor
  · intro h
    by_cases hkeyword : keyword = .matching
    · subst hkeyword
      cases h
      exact .inl ⟨rfl, rfl⟩
    · by_cases hpayload : ∃ entries, payload = .object entries
      · obtain ⟨entries, rfl⟩ := hpayload
        rw [ofPayload_object] at h
        cases h
        exact .inr ⟨entries, rfl, rfl⟩
      · push Not at hpayload
        rw [ofPayload_of_not_object hkeyword hpayload] at h
        contradiction
  · rintro (⟨rfl, rfl⟩ | ⟨entries, rfl, rfl⟩)
    · exact ofPayload_matching payload
    · exact ofPayload_object keyword entries

/-- A stage is one of the keyword it was decoded for. -/
theorem keyword_of_ofPayload (h : ofPayload keyword payload = .ok stage) :
    stage.keyword = keyword := by
  obtain ⟨rfl, rfl⟩ | ⟨entries, rfl, rfl⟩ := ofPayload_eq_ok_iff.mp h
  · rfl
  · cases keyword <;> rfl

/-! ## Documents -/

@[simp] theorem ofJson_keyword (keyword : Keyword) (payload : Json) :
    ofJson (.object [(keyword.symbol, payload)]) = ofPayload keyword payload := by
  rw [ofJson, Keyword.ofSymbol?_symbol]

/-- Each fault is the one reported. -/
theorem DocumentFault.ofJson_eq (h : DocumentFault document e) : ofJson document = .error e := by
  cases h with
  | notObject hdocument =>
    rw [ofJson]
    · intro symbol payload
      exact hdocument _
    · exact hdocument
  | keyCount hcount =>
    rw [ofJson]
    rintro symbol payload rfl
    exact hcount rfl
  | unknownKeyword hsymbol =>
    rename_i symbol payload
    have hnone : Keyword.ofSymbol? symbol = none := by
      rw [Option.eq_none_iff_forall_ne_some]
      intro keyword h
      exact hsymbol keyword (Keyword.ofSymbol?_eq_some_iff.mp h)
    rw [ofJson, hnone]
  | payloadNotObject hkeyword hpayload =>
    rw [ofJson_keyword, ofPayload_of_not_object hkeyword hpayload]

/-- A document is that of a stage, or it has a fault. -/
theorem stage_or_fault (document : Json) :
    (∃ keyword payload stage, document = .object [(Keyword.symbol keyword, payload)] ∧
      ofPayload keyword payload = .ok stage) ∨ ∃ e, DocumentFault document e := by
  by_cases hobject : ∃ entries, document = .object entries
  · obtain ⟨entries, rfl⟩ := hobject
    by_cases hcount : entries.length = 1
    · obtain ⟨⟨symbol, payload⟩, rfl⟩ := List.length_eq_one_iff.mp hcount
      by_cases hsymbol : ∃ keyword : Keyword, keyword.symbol = symbol
      · obtain ⟨keyword, rfl⟩ := hsymbol
        by_cases hmatch : keyword = .matching
        · exact .inl ⟨keyword, payload, _, rfl, hmatch ▸ ofPayload_matching payload⟩
        · by_cases hpayload : ∃ entries, payload = .object entries
          · obtain ⟨entries, rfl⟩ := hpayload
            exact .inl ⟨keyword, _, _, rfl, ofPayload_object keyword entries⟩
          · push Not at hpayload
            exact .inr ⟨_, .payloadNotObject hmatch hpayload⟩
      · push Not at hsymbol
        exact .inr ⟨_, .unknownKeyword hsymbol⟩
    · exact .inr ⟨_, .keyCount hcount⟩
  · push Not at hobject
    exact .inr ⟨_, .notObject hobject⟩

/-- A stage stands under the symbol of its keyword, which takes the payload. -/
theorem ofJson_eq_ok_iff : ofJson document = .ok stage ↔
    ∃ keyword payload, document = .object [(Keyword.symbol keyword, payload)] ∧
      ofPayload keyword payload = .ok stage := by
  constructor
  · intro h
    obtain ⟨keyword, payload, -, rfl, -⟩ | ⟨e, he⟩ := stage_or_fault document
    · rw [ofJson_keyword] at h
      exact ⟨keyword, payload, rfl, h⟩
    · rw [he.ofJson_eq] at h
      contradiction
  · rintro ⟨keyword, payload, rfl, h⟩
    rw [ofJson_keyword, h]

/-- **Decoding a document fails exactly with its fault.** -/
theorem ofJson_eq_error_iff : ofJson document = .error e ↔ DocumentFault document e := by
  refine ⟨fun h => ?_, DocumentFault.ofJson_eq⟩
  obtain ⟨keyword, payload, stage, rfl, hstage⟩ | ⟨e', he'⟩ := stage_or_fault document
  · rw [ofJson_keyword, hstage] at h
    contradiction
  · rw [he'.ofJson_eq] at h
    cases h
    exact he'

/-- A document without a fault is a stage. -/
theorem exists_stage_iff : (∃ stage, ofJson document = .ok stage) ↔
    ∀ e, ¬ DocumentFault document e := by
  simp only [← ofJson_eq_error_iff]
  cases ofJson document <;> simp

end Stage

/-! ## Pipelines -/

namespace Pipeline

/-- All documents are decoded, then their stages are appended. -/
theorem ofJson_array (documents : List Json) : ofJson (.array documents) =
    documents.mapM Stage.ofJson >>= fun stages => .ok (stages.foldl append empty) := by
  rw [ofJson]
  generalize empty = p
  induction documents generalizing p with
  | nil => rfl
  | cons document documents ih =>
    rw [List.foldlM_cons, List.mapM_cons]
    cases Stage.ofJson document with
    | error e => rfl
    | ok stage =>
      simp only [Fault.ok_bind, bind_assoc]
      exact ih (p.append stage)

/-- Documents that are all stages make the pipeline that chains them. -/
theorem exists_ofJson_array {documents : List Json} {stages : List Stage}
    (h : documents.mapM Stage.ofJson = .ok stages) :
    ∃ p, ofJson (.array documents) = .ok p ∧ p.Chains stages := by
  rw [ofJson_array, h]
  exact ⟨_, rfl, chains_empty.foldl_append stages⟩

/-- A pipeline chains the stages of its documents. -/
theorem chains_of_ofJson {documents : List Json} {p : Pipeline}
    (h : ofJson (.array documents) = .ok p) :
    ∃ stages, documents.mapM Stage.ofJson = .ok stages ∧ p.Chains stages := by
  rw [ofJson_array] at h
  obtain ⟨stages, hstages, hp⟩ := Fault.bind_eq_ok.mp h
  cases hp
  exact ⟨stages, hstages, chains_empty.foldl_append stages⟩

theorem ofJson_of_not_array {j : Json} (h : ∀ documents, j ≠ .array documents) :
    ofJson j = .error .pipelineNotArray := by
  rw [ofJson]
  exact h

end Pipeline
end Aggregation
