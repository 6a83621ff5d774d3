import Alexandria.Embedding.Bulk
import Alexandria.Foundations.Keyed
import Mathlib.Algebra.Order.BigOperators.Group.List
import Mathlib.Algebra.Order.Group.Nat

/-! # Batches and vectors

The batches of a preparation are the documents in their order, cut behind every full batch, so that the vectors of the batches
belong to the documents one by one.
-/

namespace Alexandria.Embedding
set_option autoImplicit false
open Text (isPythonWhitespace trimBy pythonStrip)

/-! ## Bytes -/

section Bytes

theorem byteLength_ofList (text : List Char) : byteLength (String.ofList text) = Utf8.size text := by
  unfold byteLength
  rw [String.toList_ofList]

theorem byteLength_append (left right : String) : byteLength (left ++ right) = byteLength left + byteLength right := by
  unfold byteLength Utf8.size
  rw [String.toList_append, List.map_append, List.sum_append]

theorem size_sublist {part text : List Char} (h : part.Sublist text) : Utf8.size part ≤ Utf8.size text :=
  (h.map Char.utf8Size).sum_le_sum fun _ _ => Nat.zero_le _

theorem byteLength_pythonStrip (text : String) : byteLength (pythonStrip text) ≤ byteLength text := by
  unfold pythonStrip
  rw [byteLength_ofList]
  exact size_sublist ((List.rdropWhile_prefix _ _).sublist.trans (List.dropWhile_suffix _).sublist)

/-- A pending separator takes no more than the blank it stands for. -/
theorem size_collapse (text : List Char) (state : List Char × Bool) :
    Utf8.size (text.foldl collapseCharacter state).1 + (text.foldl collapseCharacter state).2.toNat ≤
      Utf8.size state.1 + state.2.toNat + Utf8.size text := by
  induction text generalizing state with
  | nil => exact Nat.le_refl _
  | cons c text ih =>
    rw [List.foldl_cons, Utf8.size_cons]
    have hstep : Utf8.size (collapseCharacter state c).1 + (collapseCharacter state c).2.toNat ≤
        Utf8.size state.1 + state.2.toNat + c.utf8Size := by
      have hpositive := c.utf8Size_pos
      have hpending := Bool.toNat_le (!state.1.isEmpty)
      unfold collapseCharacter
      split_ifs with hblank hseparator
      · simp only
        omega
      · have hspace : Utf8.size [' ', c] = 1 + c.utf8Size := rfl
        simp only [Utf8.size_append, hspace, hseparator, Bool.toNat_true, Bool.toNat_false]
        omega
      · have hone : Utf8.size [c] = c.utf8Size := rfl
        simp only [Utf8.size_append, hone, Bool.toNat_false]
        omega
    have hrest := ih (collapseCharacter state c)
    omega

theorem byteLength_normalizeOptionalText (value : Option String) :
    ((normalizeOptionalText value).map byteLength).getD 0 ≤ (value.map byteLength).getD 0 := by
  cases value with
  | none => exact Nat.le_refl 0
  | some text =>
    have hcollapsed : byteLength (collapsePythonWhitespace text) ≤ byteLength text := by
      have hfold := size_collapse text.toList ([], false)
      unfold collapsePythonWhitespace
      rw [byteLength_ofList]
      simp only [Utf8.size, List.map_nil, List.sum_nil, Bool.toNat_false] at hfold
      unfold byteLength Utf8.size
      omega
    unfold normalizeOptionalText
    rw [Option.map_some, Option.filter_some]
    split_ifs
    · exact hcollapsed
    · exact Nat.zero_le _

theorem byteLength_lines (lines : List String) :
    byteLength (String.intercalate "\n" lines) ≤ (lines.map fun line => byteLength line + 1).sum := by
  have hbreak : byteLength "\n" = 1 := by decide
  induction lines with
  | nil =>
    rw [String.intercalate_nil]
    exact Nat.le_refl 0
  | cons line lines ih =>
    cases lines with
    | nil =>
      rw [String.intercalate_singleton]
      simp
    | cons next lines =>
      rw [String.intercalate_cons_cons, byteLength_append, byteLength_append, hbreak, List.map_cons, List.sum_cons]
      omega

/-- A line that may be missing. -/
theorem sum_optional_line {mark : String} (line : Option String) :
    ((line.toList.map fun text => mark ++ text).map fun line => byteLength line + 1).sum ≤
      (line.map byteLength).getD 0 + byteLength mark + 1 := by
  cases line with
  | none => exact Nat.zero_le _
  | some text =>
    simp only [Option.toList_some, List.map_cons, List.map_nil, List.sum_cons, List.sum_nil, byteLength_append,
      Option.map_some, Option.getD_some]
    omega

theorem byteLength_buildDocumentText (document : EmbeddingDocumentInput) :
    byteLength (buildDocumentText document.content document.title document.heading) ≤ document.byteCount + 20 := by
  have hcontent := byteLength_pythonStrip document.content
  have htitle := (@sum_optional_line "Title: " (normalizeOptionalText document.title)).trans
    (Nat.add_le_add_right (Nat.add_le_add_right (byteLength_normalizeOptionalText document.title) _) _)
  have hheading : ∀ p, ((((normalizeOptionalText document.heading).filter p).toList.map fun heading =>
      "Heading: " ++ heading).map fun line => byteLength line + 1).sum ≤ (document.heading.map byteLength).getD 0 + 9 + 1 := by
    intro p
    have hmark : byteLength "Heading: " = 9 := by decide
    have hkept : (((normalizeOptionalText document.heading).filter p).map byteLength).getD 0 ≤
        ((normalizeOptionalText document.heading).map byteLength).getD 0 := by
      cases normalizeOptionalText document.heading with
      | none => exact Nat.le_refl 0
      | some heading =>
        rw [Option.filter_some]
        split_ifs
        · exact Nat.le_refl _
        · exact Nat.zero_le _
    have hline := @sum_optional_line "Heading: " ((normalizeOptionalText document.heading).filter p)
    have hnormalized := byteLength_normalizeOptionalText document.heading
    omega
  have hmark : byteLength "Title: " = 7 := by decide
  have hempty : byteLength "" = 0 := by decide
  have hcount : document.byteCount = byteLength document.content + (document.title.map byteLength).getD 0 +
      (document.heading.map byteLength).getD 0 := rfl
  unfold buildDocumentText
  simp only
  split_ifs
  · omega
  · refine (byteLength_lines _).trans ?_
    have hheading := hheading fun heading => decide (normalizeOptionalText document.title ≠ some heading)
    rw [List.map_append, List.map_append, List.sum_append, List.sum_append]
    simp only [List.map_cons, List.map_nil, List.sum_cons, List.sum_nil, hempty]
    omega

theorem byteLength_prepareItem (inputKind : EmbeddingInputKind) (i : ℕ) (document : EmbeddingDocumentInput) :
    byteLength (prepareItem inputKind i document).documentText ≤ document.byteCount + 29 ∧
      byteLength (prepareItem inputKind i document).modelInput ≤ document.byteCount + 29 := by
  have htext := byteLength_buildDocumentText document
  refine ⟨htext.trans (by omega), ?_⟩
  cases inputKind with
  | plain => exact htext.trans (by omega)
  | e5Passage =>
    show byteLength (e5PassagePrefix ++ pythonStrip (buildDocumentText _ _ _)) ≤ _
    have hmark : byteLength e5PassagePrefix = 9 := by decide
    have hstripped := byteLength_pythonStrip (buildDocumentText document.content document.title document.heading)
    rw [byteLength_append, hmark]
    omega

end Bytes

/-! ## What a request keeps within -/

theorem totalBytes_eq_ok {message : String} {documents : List EmbeddingDocumentInput} {total : ℕ}
    (h : totalBytes message documents = .ok total) : total = (documents.map (·.byteCount)).sum := by
  have hrun : ∀ (documents : List EmbeddingDocumentInput) (before total : ℕ),
      documents.foldlM (fun total document => checkedAdd message total document.byteCount) before = .ok total →
        total = before + (documents.map (·.byteCount)).sum := by
    intro documents
    induction documents with
    | nil =>
      intro before total hrun
      cases hrun
      simp
    | cons document documents ih =>
      intro before total hrun
      rw [List.foldlM_cons] at hrun
      obtain ⟨next, hnext, hrun⟩ := Keyed.bind_eq_ok hrun
      unfold checkedAdd at hnext
      split_ifs at hnext
      cases hnext
      rw [ih _ _ hrun, List.map_cons, List.sum_cons, Nat.add_assoc]
  have htotal := hrun documents 0 total h
  rwa [Nat.zero_add] at htotal

theorem totalBytes_ok {documents : List EmbeddingDocumentInput} (message : String)
    (h : (documents.map (·.byteCount)).sum ≤ usizeMax) :
    totalBytes message documents = .ok (documents.map (·.byteCount)).sum := by
  have hrun : ∀ (documents : List EmbeddingDocumentInput) (before : ℕ),
      before + (documents.map (·.byteCount)).sum ≤ usizeMax →
        documents.foldlM (fun total document => checkedAdd message total document.byteCount) before =
          .ok (before + (documents.map (·.byteCount)).sum) := by
    intro documents
    induction documents with
    | nil => exact fun _ _ => rfl
    | cons document documents ih =>
      intro before hbound
      rw [List.map_cons, List.sum_cons] at hbound ⊢
      rw [List.foldlM_cons, checkedAdd, if_neg (by omega)]
      show documents.foldlM _ _ = _
      rw [ih _ (by omega), Nat.add_assoc]
  have htotal := hrun documents 0 (by omega)
  rwa [Nat.zero_add] at htotal

namespace BulkEmbeddingRequest
variable (request : BulkEmbeddingRequest)

theorem bounds : 0 < request.model.dimensions ∧ request.model.dimensions ≤ maxVectorDimensions ∧
    request.documents.length ≤ maxItemsPerRequest ∧ (request.documents.map (·.byteCount)).sum ≤ maxRequestBytes := by
  obtain ⟨_, hmodel, hvalid⟩ := Keyed.bind_eq_ok request.valid
  obtain ⟨_, -, hdimensions⟩ := Keyed.bind_eq_ok hmodel
  split_ifs at hdimensions with hrange
  split_ifs at hvalid with hitems
  obtain ⟨total, htotal, hvalid⟩ := Keyed.bind_eq_ok hvalid
  split_ifs at hvalid with hbytes
  have hsum := totalBytes_eq_ok htotal
  exact ⟨by omega, by omega, by omega, by omega⟩

/-- The items of the documents, each with its place. -/
def items : List PreparedEmbeddingItem :=
  request.documents.zipIdx.map fun document => prepareItem request.model.inputKind document.2 document.1

end BulkEmbeddingRequest

/-! ## Cutting the batches -/

/-- The batches so far are full, and with the items of the next one they have those of the documents. -/
structure CutInto (inputKind : EmbeddingInputKind) (batchSize : ℕ) (documents : List (EmbeddingDocumentInput × ℕ))
    (state : PreparationState) : Prop where
  items : (state.batches.flatMap (·.items)) ++ state.currentItems =
    documents.map fun document => prepareItem inputKind document.2 document.1
  full : ∀ batch ∈ state.batches, batch.items.length = batchSize
  indexed : state.batches.map (·.batchIndex) = List.range state.batches.length
  room : state.currentItems.length < batchSize
  textBytes : state.documentTextBytes ≤ (documents.map fun document => document.1.byteCount + 29).sum
  inputBytes : state.modelInputBytes ≤ (documents.map fun document => document.1.byteCount + 29).sum

section Cut
variable {inputKind : EmbeddingInputKind} {batchSize : ℕ} {documents : List (EmbeddingDocumentInput × ℕ)}
  {state : PreparationState}

theorem prepareDocument_ok (h : CutInto inputKind batchSize documents state) (document : EmbeddingDocumentInput × ℕ)
    (hbytes : ((documents ++ [document]).map fun document => document.1.byteCount + 29).sum ≤ usizeMax) :
    ∃ next, prepareDocument inputKind batchSize state document = .ok next ∧
      CutInto inputKind batchSize (documents ++ [document]) next := by
  obtain ⟨htext, hinput⟩ := byteLength_prepareItem inputKind document.2 document.1
  have htextBytes := h.textBytes
  have hinputBytes := h.inputBytes
  rw [List.map_append, List.sum_append] at hbytes
  simp only [List.map_cons, List.map_nil, List.sum_cons, List.sum_nil] at hbytes
  have hsum : ((documents ++ [document]).map fun document => document.1.byteCount + 29).sum =
      (documents.map fun document => document.1.byteCount + 29).sum + (document.1.byteCount + 29) := by
    rw [List.map_append, List.sum_append]
    rfl
  unfold prepareDocument checkedAdd
  simp only
  rw [if_neg (by omega), if_neg (by omega)]
  refine ⟨_, rfl, ?_⟩
  have hitems := h.items
  have hroom := h.room
  split_ifs with hfull
  · refine ⟨?_, ?_, ?_, Nat.zero_lt_of_lt hroom, ?_, ?_⟩
    · rw [List.map_append, ← hitems]
      simp [PreparationState.pushBatch]
    · intro batch hbatch
      obtain hbatch | hbatch := List.mem_append.mp hbatch
      · exact h.full batch hbatch
      · rw [List.mem_singleton.mp hbatch]
        exact hfull
    · simp only [PreparationState.pushBatch, List.map_append, h.indexed, List.length_append, List.length_singleton,
        List.range_succ, List.map_cons, List.map_nil]
    · rw [hsum]
      simp only [PreparationState.pushBatch]
      omega
    · rw [hsum]
      simp only [PreparationState.pushBatch]
      omega
  · refine ⟨?_, h.full, h.indexed, ?_, ?_, ?_⟩
    · rw [List.map_append, ← hitems, List.append_assoc]
      rfl
    · rw [List.length_append, List.length_singleton] at hfull ⊢
      omega
    · rw [hsum]
      simp only
      omega
    · rw [hsum]
      simp only
      omega

theorem prepareDocuments_ok (h : CutInto inputKind batchSize documents state) (rest : List (EmbeddingDocumentInput × ℕ))
    (hbytes : ((documents ++ rest).map fun document => document.1.byteCount + 29).sum ≤ usizeMax) :
    ∃ next, rest.foldlM (prepareDocument inputKind batchSize) state = .ok next ∧
      CutInto inputKind batchSize (documents ++ rest) next := by
  induction rest generalizing documents state with
  | nil => exact ⟨state, rfl, by rwa [List.append_nil]⟩
  | cons document rest ih =>
    have hsplit : documents ++ document :: rest = (documents ++ [document]) ++ rest := by simp
    rw [hsplit] at hbytes ⊢
    have hfirst : ((documents ++ [document]).map fun document => document.1.byteCount + 29).sum ≤ usizeMax := by
      rw [List.map_append, List.sum_append] at hbytes
      omega
    obtain ⟨next, hnext, hcut⟩ := prepareDocument_ok h document hfirst
    rw [List.foldlM_cons, hnext]
    exact ih hcut hbytes

end Cut

/-- The batches have the items of the documents in order, none is empty or too large, and all but the last are full. -/
structure Tiles (request : BulkEmbeddingRequest) (batches : List PreparedEmbeddingBatch) : Prop where
  items : batches.flatMap (·.items) = request.items
  within : ∀ batch ∈ batches, 0 < batch.items.length ∧ batch.items.length ≤ request.policy.batchSize
  full : ∀ batch ∈ batches.dropLast, batch.items.length = request.policy.batchSize
  indexed : batches.map (·.batchIndex) = List.range batches.length

theorem sum_add_const (documents : List EmbeddingDocumentInput) (n : ℕ) :
    (documents.map fun document => document.byteCount + n).sum =
      (documents.map (·.byteCount)).sum + documents.length * n := by
  induction documents with
  | nil => simp
  | cons document documents ih =>
    simp only [List.map_cons, List.sum_cons, ih, List.length_cons, Nat.add_mul, Nat.one_mul]
    omega

theorem prepareEmbeddingBatch_ok (request : BulkEmbeddingRequest) :
    ∃ preparation, prepareEmbeddingBatch request = .ok preparation ∧ preparation.model = request.model ∧
      Tiles request preparation.batches := by
  obtain ⟨-, -, hlength, hbytes⟩ := request.bounds
  have hpositive := request.policy.positive
  have hmax : maxRequestBytes + maxItemsPerRequest * 29 ≤ usizeMax := by decide
  have hprepared : (request.documents.zipIdx.map fun document => document.1.byteCount + 29).sum ≤ usizeMax := by
    have hsum : (request.documents.zipIdx.map fun document => document.1.byteCount + 29).sum =
        (request.documents.map (·.byteCount)).sum + request.documents.length * 29 := by
      have hplaces : request.documents.zipIdx.map (fun document => document.1.byteCount + 29) =
          (request.documents.zipIdx.map Prod.fst).map fun document => document.byteCount + 29 := by
        rw [List.map_map]
        rfl
      rw [hplaces, List.zipIdx_map_fst]
      exact sum_add_const _ _
    rw [hsum]
    have hmul := Nat.mul_le_mul_right 29 hlength
    omega
  have hstart : CutInto request.model.inputKind request.policy.batchSize [] ⟨[], [], 0, 0⟩ :=
    ⟨rfl, by simp, rfl, hpositive, Nat.le_refl 0, Nat.le_refl 0⟩
  obtain ⟨state, hstate, hcut⟩ := prepareDocuments_ok hstart request.documents.zipIdx (by rwa [List.nil_append])
  have htotal := totalBytes_ok "embedding preparation source byte overflow" (hbytes.trans (by decide : _ ≤ usizeMax))
  unfold prepareEmbeddingBatch
  rw [htotal]
  simp only [bind, Except.bind]
  rw [hstate]
  refine ⟨_, rfl, rfl, ?_⟩
  have hitems := hcut.items
  have hroom := hcut.room
  simp only
  split_ifs with hempty
  · rw [List.isEmpty_iff] at hempty
    rw [hempty, List.append_nil] at hitems
    refine ⟨hitems, fun batch hbatch => ?_, fun batch hbatch => hcut.full batch (List.dropLast_subset _ hbatch), hcut.indexed⟩
    rw [hcut.full batch hbatch]
    exact ⟨hpositive, le_rfl⟩
  · refine ⟨?_, fun batch hbatch => ?_, fun batch hbatch => ?_, ?_⟩
    · show (state.batches ++ [_]).flatMap _ = _
      rw [List.flatMap_append, List.flatMap_singleton]
      exact hitems
    · obtain hbatch | hbatch := List.mem_append.mp hbatch
      · rw [hcut.full batch hbatch]
        exact ⟨hpositive, le_rfl⟩
      · rw [List.mem_singleton.mp hbatch]
        exact ⟨List.length_pos_iff.mpr (by simpa using hempty), hroom.le⟩
    · have hlast : state.pushBatch.batches.dropLast = state.batches := List.dropLast_concat
      exact hcut.full batch (hlast ▸ hbatch)
    · simp only [PreparationState.pushBatch, List.map_append, hcut.indexed, List.length_append, List.length_singleton,
        List.range_succ, List.map_cons, List.map_nil]

/-! ## Vectors in place -/

/-- What the runtime returned fits the batches, and all its values are finite. -/
def Fits (preparation : BulkEmbeddingPreparation) (outputs : List InferenceBatchOutput) : Prop :=
  List.Forall₂ (fun batch output => output.batchIndex = batch.batchIndex ∧ output.vectors.length = batch.items.length ∧
    ∀ vector ∈ output.vectors, vector.length = preparation.model.dimensions ∧ ∀ value ∈ vector, isFinite value = true)
    preparation.batches outputs

/-- The record of an item and its vector. -/
def recordOf (item : PreparedEmbeddingItem) (vector : EmbeddingVector) : EmbeddingRecord :=
  ⟨item.inputIndex, item.itemId, vector, vector.length⟩

section Finalize
variable {dimensions : ℕ}

theorem finalizeItem_eq_ok {batchIndex : ℕ} {item : PreparedEmbeddingItem} {vector : EmbeddingVector}
    {record : EmbeddingRecord} : finalizeItem batchIndex dimensions (item, vector) = .ok record ↔
      (vector.length = dimensions ∧ ∀ value ∈ vector, isFinite value = true) ∧ record = recordOf item vector := by
  unfold finalizeItem validateVector
  simp only
  split_ifs with hlength hfinite
  · constructor
    · intro h
      cases h
    · rintro ⟨⟨hsame, -⟩, -⟩
      exact absurd hsame hlength
  · constructor
    · intro h
      cases h
    · rintro ⟨⟨-, hall⟩, -⟩
      obtain ⟨value, hvalue, hbad⟩ := List.any_eq_true.mp hfinite
      rw [hall value hvalue] at hbad
      cases hbad
  · rw [not_not] at hlength
    have hall : ∀ value ∈ vector, isFinite value = true := by
      intro value hvalue
      by_contra hbad
      exact hfinite (List.any_eq_true.mpr ⟨value, hvalue, by simpa using hbad⟩)
    constructor
    · intro h
      cases h
      exact ⟨⟨hlength, hall⟩, rfl⟩
    · rintro ⟨-, rfl⟩
      rfl

theorem finalizeBatch_eq_ok {pair : PreparedEmbeddingBatch × InferenceBatchOutput} {records : List EmbeddingRecord} :
    finalizeBatch dimensions pair = .ok records ↔
      (pair.2.batchIndex = pair.1.batchIndex ∧ pair.2.vectors.length = pair.1.items.length ∧
        ∀ vector ∈ pair.2.vectors, vector.length = dimensions ∧ ∀ value ∈ vector, isFinite value = true) ∧
      records = List.zipWith recordOf pair.1.items pair.2.vectors := by
  obtain ⟨batch, output⟩ := pair
  unfold finalizeBatch validateBatchIdentity
  simp only
  by_cases hindex : output.batchIndex = batch.batchIndex
  · rw [if_neg (not_not_intro hindex)]
    by_cases hlength : output.vectors.length = batch.items.length
    · have hvectors : (batch.items.zip output.vectors).map Prod.snd = output.vectors :=
        List.map_snd_zip (Nat.le_of_eq hlength)
      have hchecked : (batch.items.zip output.vectors).mapM (finalizeItem batch.batchIndex dimensions) = .ok records ↔ _ :=
        Keyed.mapM_ok_iff fun pair record => finalizeItem_eq_ok
      show (if output.vectors.length ≠ batch.items.length then _ else _) = _ ↔ _
      have hrecords : (batch.items.zip output.vectors).map (fun pair => recordOf pair.1 pair.2) =
          List.zipWith recordOf batch.items output.vectors := by
        rw [List.zip_eq_zipWith, List.map_zipWith]
      have hall : (∀ vector ∈ output.vectors, vector.length = dimensions ∧ ∀ value ∈ vector, isFinite value = true) ↔
          ∀ pair ∈ batch.items.zip output.vectors, pair.2.length = dimensions ∧ ∀ value ∈ pair.2, isFinite value = true := by
        constructor
        · intro hvector pair hpair
          exact hvector pair.2 (hvectors ▸ List.mem_map_of_mem hpair)
        · intro hpair vector hvector
          rw [← hvectors] at hvector
          obtain ⟨pair, hmem, rfl⟩ := List.mem_map.mp hvector
          exact hpair pair hmem
      rw [if_neg (not_not_intro hlength), hchecked, hrecords, hall]
      simp only [hindex, hlength, true_and]
    · show (if output.vectors.length ≠ batch.items.length then _ else _) = _ ↔ _
      rw [if_pos hlength]
      constructor
      · intro h
        cases h
      · rintro ⟨⟨-, hsame, -⟩, -⟩
        exact absurd hsame hlength
  · rw [if_pos hindex]
    constructor
    · intro h
      cases h
    · rintro ⟨⟨hsame, -⟩, -⟩
      exact absurd hsame hindex

theorem flatten_zipWith {batches : List PreparedEmbeddingBatch} {outputs : List InferenceBatchOutput}
    (h : List.Forall₂ (fun batch output => output.vectors.length = batch.items.length) batches outputs) :
    ((batches.zip outputs).map fun pair => List.zipWith recordOf pair.1.items pair.2.vectors).flatten =
      List.zipWith recordOf (batches.flatMap (·.items)) (outputs.flatMap (·.vectors)) := by
  induction h with
  | nil => rfl
  | cons hlength _ ih =>
    rw [List.zip_cons_cons, List.map_cons, List.flatten_cons, List.flatMap_cons, List.flatMap_cons,
      List.zipWith_append hlength.symm, ih]

theorem validateContiguousOrder_ok {records : List EmbeddingRecord}
    (h : records.map (·.inputIndex) = List.range records.length) : validateContiguousOrder records = .ok () := by
  have hforM : ∀ (places : List (EmbeddingRecord × ℕ)) (f : EmbeddingRecord × ℕ → Except BulkEmbeddingError Unit),
      (∀ place ∈ places, f place = .ok ()) → places.forM f = .ok () := by
    intro places f
    induction places with
    | nil => exact fun _ => rfl
    | cons place places ih =>
      intro hall
      show (f place >>= fun _ => places.forM f) = _
      rw [hall place List.mem_cons_self]
      exact ih fun place hplace => hall place (.tail _ hplace)
  refine hforM _ _ fun place hplace => ?_
  obtain ⟨record, i⟩ := place
  have hget := List.mk_mem_zipIdx_iff_getElem?.mp hplace
  have hindex : (records.map (·.inputIndex))[i]? = some record.inputIndex := by rw [List.getElem?_map, hget]; rfl
  rw [h] at hindex
  obtain ⟨hlt, hsame⟩ := List.getElem?_eq_some_iff.mp hindex
  rw [List.getElem_range] at hsame
  exact if_neg (not_not_intro hsame.symm)

end Finalize

/-- Each record has the place, the identity and the vector of one document. -/
structure InPlace (request : BulkEmbeddingRequest) (vectors : List EmbeddingVector) (records : List EmbeddingRecord) :
    Prop where
  vectorCount : vectors.length = request.documents.length
  recordCount : records.length = request.documents.length
  each : ∀ (i : ℕ) (document : EmbeddingDocumentInput) (vector : EmbeddingVector),
    request.documents[i]? = some document → vectors[i]? = some vector →
      records[i]? = some (⟨i, document.itemId, vector, request.model.dimensions⟩ : EmbeddingRecord)

section Result
variable {request : BulkEmbeddingRequest} {preparation : BulkEmbeddingPreparation} {outputs : List InferenceBatchOutput}

theorem BulkEmbeddingRequest.items_inputIndex (request : BulkEmbeddingRequest) :
    request.items.map (·.inputIndex) = List.range request.documents.length := by
  unfold items
  rw [List.map_map, List.range_eq_range', ← List.zipIdx_map_snd 0 request.documents]
  rfl

theorem BulkEmbeddingRequest.length_items (request : BulkEmbeddingRequest) :
    request.items.length = request.documents.length := by
  rw [← List.length_range (n := request.documents.length), ← request.items_inputIndex, List.length_map]

/-- Where the output fits, there is a vector for each item. -/
theorem Fits.vectors (h : Fits preparation outputs) :
    (outputs.flatMap (·.vectors)).length = (preparation.batches.flatMap (·.items)).length := by
  unfold Fits at h
  generalize preparation.batches = batches at h
  induction h with
  | nil => rfl
  | cons hfits _ ih => rw [List.flatMap_cons, List.flatMap_cons, List.length_append, List.length_append, hfits.2.1, ih]

theorem Fits.dimensions (h : Fits preparation outputs) :
    ∀ vector ∈ outputs.flatMap (·.vectors), vector.length = preparation.model.dimensions := by
  intro vector hvector
  obtain ⟨output, houtput, hmem⟩ := List.mem_flatMap.mp hvector
  obtain ⟨batch, -, -, -, hvectors⟩ := Keyed.forall₂_image h.flip houtput
  exact (hvectors vector hmem).1

theorem finalizeEmbeddingBatch_eq_ok {result : BulkEmbeddingResult} (h : finalizeEmbeddingBatch preparation outputs = .ok result) :
    Fits preparation outputs := by
  unfold finalizeEmbeddingBatch at h
  split_ifs at h with hlength
  obtain ⟨parts, hparts, -⟩ := Keyed.bind_eq_ok h
  have hchecked := (Keyed.mapM_ok_iff (fun pair records => finalizeBatch_eq_ok)).mp hparts
  exact List.forall₂_iff_zip.mpr ⟨(not_not.mp hlength).symm, fun hpair => hchecked.1 _ hpair⟩

theorem finalizeEmbeddingBatch_ok (htiles : Tiles request preparation.batches) (hmodel : preparation.model = request.model)
    (hfits : Fits preparation outputs) :
    ∃ result, finalizeEmbeddingBatch preparation outputs = .ok result ∧
      InPlace request (outputs.flatMap (·.vectors)) result.records := by
  obtain ⟨hlength, hpairs⟩ := List.forall₂_iff_zip.mp hfits
  obtain ⟨-, hdimensions, hdocuments, -⟩ := request.bounds
  have hparts : (preparation.batches.zip outputs).mapM (finalizeBatch preparation.model.dimensions) = .ok _ :=
    (Keyed.mapM_ok_iff (fun pair records => finalizeBatch_eq_ok)).mpr ⟨fun pair hpair => hpairs hpair, rfl⟩
  have hflatten := flatten_zipWith (hfits.imp fun _ _ hbatch => hbatch.2.1)
  rw [htiles.items] at hflatten
  set vectors := outputs.flatMap (·.vectors) with hvectors
  have hcount : vectors.length = request.documents.length := by
    rw [hvectors, hfits.vectors, htiles.items, request.length_items]
  have hrecordCount : (List.zipWith recordOf request.items vectors).length = request.documents.length := by
    rw [List.length_zipWith, request.length_items, hcount, min_self]
  have hplaces : (List.zipWith recordOf request.items vectors).map (·.inputIndex) = List.range request.documents.length := by
    rw [List.map_zipWith, ← request.items_inputIndex]
    refine List.ext_getElem ?_ fun i _ _ => ?_
    · rw [List.length_zipWith, List.length_map, request.length_items, hcount, min_self]
    · rw [List.getElem_zipWith, List.getElem_map]
      rfl
  have hsorted : (List.zipWith recordOf request.items vectors).insertionSort
      (fun left right => left.inputIndex ≤ right.inputIndex) = List.zipWith recordOf request.items vectors := by
    refine List.Pairwise.insertionSort_eq ?_
    have hrange : (List.range request.documents.length).Pairwise (· ≤ ·) := List.pairwise_le_range
    rw [← hplaces] at hrange
    exact List.pairwise_map.mp hrange
  have hmul : ¬ usizeMax < (List.zipWith recordOf request.items vectors).length * preparation.model.dimensions := by
    have hproduct := Nat.mul_le_mul hdocuments hdimensions
    have hmax : maxItemsPerRequest * maxVectorDimensions ≤ usizeMax := by decide
    rw [hrecordCount, hmodel]
    omega
  have hcontiguous := validateContiguousOrder_ok (hrecordCount.symm ▸ hplaces)
  obtain ⟨result, hresult, hrecords⟩ : ∃ result, finalizeEmbeddingBatch preparation outputs = .ok result ∧
      result.records = List.zipWith recordOf request.items vectors := by
    unfold finalizeEmbeddingBatch
    rw [if_neg (not_not_intro hlength.symm), hparts]
    simp only [bind, Except.bind]
    rw [hflatten, hsorted, hcontiguous, checkedMul, if_neg hmul]
    exact ⟨_, rfl, rfl⟩
  refine ⟨result, hresult, ?_⟩
  rw [hrecords]
  refine ⟨hcount, hrecordCount, fun i document vector hdocument hvector => ?_⟩
  · have hitem : request.items[i]? = some (prepareItem request.model.inputKind i document) := by
      unfold BulkEmbeddingRequest.items
      rw [List.getElem?_map, List.getElem?_zipIdx, hdocument, Nat.zero_add]
      rfl
    have hsize : vector.length = request.model.dimensions := by
      rw [← hmodel]
      exact hfits.dimensions vector (List.mem_of_getElem? hvector)
    rw [List.getElem?_zipWith, hitem, hvector, ← hsize]
    rfl

end Result

/-- The batches tile the documents, and just the outputs that fit them become records, each in the place of its document. -/
theorem bulk_embedding_in_place (request : BulkEmbeddingRequest) :
    ∃ preparation, prepareEmbeddingBatch request = .ok preparation ∧ Tiles request preparation.batches ∧
      ∀ outputs, ((∃ result, finalizeEmbeddingBatch preparation outputs = .ok result) ↔ Fits preparation outputs) ∧
        ∀ result, finalizeEmbeddingBatch preparation outputs = .ok result →
          InPlace request (outputs.flatMap (·.vectors)) result.records := by
  obtain ⟨preparation, hprepared, hmodel, htiles⟩ := prepareEmbeddingBatch_ok request
  refine ⟨preparation, hprepared, htiles, fun outputs => ⟨⟨?_, ?_⟩, ?_⟩⟩
  · rintro ⟨result, hresult⟩
    exact finalizeEmbeddingBatch_eq_ok hresult
  · intro hfits
    obtain ⟨result, hresult, -⟩ := finalizeEmbeddingBatch_ok htiles hmodel hfits
    exact ⟨result, hresult⟩
  · intro result hresult
    obtain ⟨found, hfound, hplaces⟩ := finalizeEmbeddingBatch_ok htiles hmodel (finalizeEmbeddingBatch_eq_ok hresult)
    cases hresult.symm.trans hfound
    exact hplaces

end Alexandria.Embedding
