import Alexandria.Compacts.Creation
import Alexandria.Markdown.Scalars

/-! # Properties of a note, line by line

A property that is written on one line, or a list on a line for each item, is read as one more field. A text in brackets
is written as it is and read as a list, unless another bracket or a brace follows the first.
-/

namespace Alexandria.Compacts
set_option autoImplicit false
open Text
open Reconciliation (Instant)
open Notes (JsonValue JsonObject universalNewlines)
open Markdown (doubleQuotes)

variable {φ : Type}

/-! ## Texts -/

attribute [local simp] universalNewlines

theorem universalNewlines_return {rest : List Char} (h : rest.head? ≠ some '\n') :
    universalNewlines ('\r' :: rest) = '\n' :: universalNewlines rest := by
  rw [universalNewlines]
  rintro tail rfl
  exact h rfl

theorem universalNewlines_cons {c : Char} (h : c ≠ '\r') (rest : List Char) :
    universalNewlines (c :: rest) = c :: universalNewlines rest := by
  rw [universalNewlines]
  · intro tail hc
    exact absurd hc h
  · exact h

theorem splitlines_universalNewlines (text : List Char) : splitlines (universalNewlines text) = splitlines text := by
  induction text using Notes.universalNewlines.induct with
  | case1 rest ih => rw [universalNewlines, splitlines_newline, splitlines, ih]
  | case2 rest hnone ih =>
    have hhead : rest.head? ≠ some '\n' := by
      intro hhead
      cases rest with
      | nil => cases hhead
      | cons c rest =>
        cases hhead
        exact hnone rest rfl
    rw [universalNewlines_return hhead, splitlines_newline, splitlines_break (by decide) fun _ => hhead, ih]
  | case3 c rest _ hcr ih =>
    rw [universalNewlines_cons hcr]
    by_cases hc : isPythonLineBreak c = true
    · rw [splitlines_break hc fun h => absurd h hcr, splitlines_break hc fun h => absurd h hcr, ih]
    · rw [splitlines_cons (by simpa using hc), splitlines_cons (by simpa using hc), ih]
  | case4 => rfl

/-! ## One property -/

def propertyKeyChars : List Char := "abcdefghijklmnopqrstuvwxyz_".toList

/-- A name of small letters and underscores. -/
def isPropertyKey (key : String) : Bool := key ≠ "" && key.toList.all fun c => propertyKeyChars.contains c

def LineValue : CompactFrontmatterValue → Prop
  | .text value => Unbroken value.toList
  | .texts values => ∀ value ∈ values, Unbroken value.toList
  | _ => True

/-- What the reader makes of a value that was written. -/
def reread : CompactFrontmatterValue → CompactFrontmatterValue
  | .text value => if isBracketed value.toList then parseYamlValue value.toList else .text value
  | value => value

theorem isPropertyKey_chars {key : String} (h : isPropertyKey key = true) : key ≠ "" ∧ ∀ c ∈ key.toList,
    isPythonWhitespace c = false ∧ isPythonLineBreak c = false ∧ c ≠ ':' ∧ c ≠ '#' ∧ c ≠ '-' := by
  have hplain : ∀ c ∈ propertyKeyChars,
      isPythonWhitespace c = false ∧ isPythonLineBreak c = false ∧ c ≠ ':' ∧ c ≠ '#' ∧ c ≠ '-' :=
    forall_mem_of_all (by decide)
  unfold isPropertyKey at h
  obtain ⟨hne, hchars⟩ := (Bool.and_eq_true _ _).mp h
  exact ⟨by simpa using hne, fun c hc => hplain c (by simpa using List.all_eq_true.mp hchars c hc)⟩

/-- A line that opens with a key is a property. -/
theorem line_property {reading : FrontmatterReading} {key : String} (h : isPropertyKey key = true) (raw : List Char) :
    reading.line (key.toList ++ ':' :: raw) =
      if trimBy isPythonWhitespace raw = [] then ⟨Keyed.put Prod.fst (key, .texts []) reading.fields, some key⟩
      else ⟨Keyed.put Prod.fst (key, parseYamlValue (trimBy isPythonWhitespace raw)) reading.fields, none⟩ := by
  obtain ⟨hne, hchars⟩ := isPropertyKey_chars h
  obtain ⟨c, rest, hkey⟩ := List.exists_cons_of_ne_nil (fun hnil => hne (String.toList_eq_nil_iff.mp hnil))
  have hc := hchars c (hkey ▸ List.mem_cons_self)
  have hstripped : (trimBy isPythonWhitespace (key.toList ++ ':' :: raw)).head? = some c := by
    rw [hkey, List.cons_append, trimBy_cons_neg hc.1]
    rfl
  have hproperty : reading.line (key.toList ++ ':' :: raw) = reading.property (key.toList ++ ':' :: raw) := by
    have hnone : (reading.activeListKey.filter fun _ => decide (some c = some '-')) = none := by
      cases reading.activeListKey <;> simp [hc.2.2.2.2]
    unfold FrontmatterReading.line
    simp only [hstripped, hnone]
    rw [if_neg]
    rw [not_or]
    refine ⟨fun hnil => ?_, by simpa using hc.2.2.2.1⟩
    rw [hnil] at hstripped
    cases hstripped
  have hcolon : ∀ d ∈ key.toList, (decide (d ≠ ':')) = true := by
    intro d hd
    simpa using (hchars d hd).2.2.1
  have htrim : trimBy isPythonWhitespace key.toList = key.toList := trimBy_eq_self fun d hd => (hchars d hd).1
  have hhead : (key.toList ++ ':' :: raw).head?.any isPythonWhitespace = false := by
    rw [hkey]
    exact hc.1
  rw [hproperty]
  unfold FrontmatterReading.property
  rw [List.dropWhile_append_of_pos hcolon, List.takeWhile_append_of_pos hcolon, List.dropWhile_cons_of_neg (by simp),
    List.takeWhile_cons_of_neg (by simp)]
  simp only [hhead, List.append_nil, htrim, String.ofList_toList, hne, decide_false, Bool.or_self, Bool.false_eq_true, if_false]

/-! ## Scalars -/

theorem isBracketed_quoted (value : String) : isBracketed (quotedYamlString value) = false := by
  simp [isBracketed, quotedYamlString]

/-- A scalar that opens like none of the words is quoted or a text. -/
theorem parseYamlScalar_text {value : List Char} {c : Char} (h : value.head? = some c)
    (hc : c ∉ ['n', 'N', '~', 't', 'T', 'f', 'F']) : parseYamlScalar value =
      match Markdown.Native.quotedBy '\'' value, Markdown.Native.quotedBy '"' value with
      | some inner, _ => .text (String.ofList (Markdown.Native.undoubleQuotes inner))
      | none, some inner => .text (String.ofList inner)
      | none, none => .text (String.ofList value) := by
  have hwords : ∀ word ∈ ["", "null", "Null", "NULL", "~", "true", "True", "TRUE", "false", "False", "FALSE"],
      value ≠ word.toList := by
    intro word hword hvalue
    have hopens : ∀ word ∈ ["", "null", "Null", "NULL", "~", "true", "True", "TRUE", "false", "False", "FALSE"],
        (word.toList.head?.all fun c => decide (c ∈ ['n', 'N', '~', 't', 'T', 'f', 'F'])) = true := by decide
    have hopen := hopens word hword
    rw [← hvalue, h] at hopen
    exact hc (of_decide_eq_true hopen)
  simp only [List.forall_mem_cons, List.not_mem_nil, false_implies, implies_true, and_true] at hwords
  obtain ⟨h1, h2, h3, h4, h5, h6, h7, h8, h9, h10, h11⟩ := hwords
  unfold parseYamlScalar
  refine (if_neg ?_).trans ((if_neg ?_).trans (if_neg ?_))
  · simp only [not_or]
    exact ⟨h1, h2, h3, h4, h5⟩
  · simp only [not_or]
    exact ⟨h6, h7, h8⟩
  · simp only [not_or]
    exact ⟨h9, h10, h11⟩

theorem parseYamlScalar_quoted (value : String) : parseYamlScalar (quotedYamlString value) = .text value := by
  have hquoted : Markdown.Native.quotedBy '\'' (quotedYamlString value) = some (doubleQuotes value.toList) := by
    unfold Markdown.Native.quotedBy quotedYamlString
    rw [if_pos]
    · rw [List.cons_append, List.tail_cons, List.dropLast_concat]
    · refine ⟨by simp, rfl, ?_⟩
      rw [List.getLast?_concat]
  rw [parseYamlScalar_text rfl (by decide), hquoted]
  simp only [Markdown.undoubleQuotes_doubleQuotes, String.ofList_toList]

theorem trim_quoted (value : String) : trimBy isPythonWhitespace (quotedYamlString value) = quotedYamlString value :=
  trimBy_between (by decide) (by decide)

theorem trim_bracketed {value : List Char} (h : isBracketed value = true) : trimBy isPythonWhitespace value = value := by
  obtain ⟨hopen, hclose⟩ := of_decide_eq_true h
  refine trimBy_of_ends ?_ ?_
  · intro c hc
    rw [hopen] at hc
    cases hc
    decide
  · intro c hc
    rw [hclose] at hc
    cases hc
    decide

theorem trim_yamlText (value : String) : trimBy isPythonWhitespace (yamlText value) = yamlText value := by
  unfold yamlText
  split
  · rename_i h
    exact trim_bracketed h
  · exact trim_quoted value

theorem parseYamlValue_yamlText (value : String) : parseYamlValue (yamlText value) = reread (.text value) := by
  simp only [yamlText, reread]
  split
  · rfl
  · unfold parseYamlValue
    simp only [isBracketed_quoted, Bool.false_and, Bool.false_eq_true, if_false, parseYamlScalar_quoted]

theorem quotedBy_open {quote : Char} {value : List Char} (h : value.head? = some '[') (hquote : quote ≠ '[') :
    Markdown.Native.quotedBy quote value = none := by
  unfold Markdown.Native.quotedBy
  rw [if_neg]
  rintro ⟨-, hopen, -⟩
  rw [h] at hopen
  exact hquote (Option.some.inj hopen).symm

theorem parseYamlScalar_open {value : List Char} (h : value.head? = some '[') :
    parseYamlScalar value = .text (String.ofList value) := by
  rw [parseYamlScalar_text h (by decide), quotedBy_open h (by decide), quotedBy_open h (by decide)]

/-- A text in brackets that the reader takes for a list. -/
def isListText (value : List Char) : Bool :=
  isBracketed value && (trimBy isPythonWhitespace value.tail.dropLast = [] ||
    isFlatList (trimBy isPythonWhitespace value.tail.dropLast))

theorem parseYamlValue_list {value : List Char} (h : isListText value = true) :
    ∃ values, parseYamlValue value = .texts values := by
  obtain ⟨hbracketed, hlist⟩ := (Bool.and_eq_true _ _).mp h
  unfold parseYamlValue
  simp only [hbracketed, Bool.true_and]
  split
  · exact ⟨_, rfl⟩
  · rename_i hne
    rw [Bool.or_eq_true] at hlist
    rw [if_pos (hlist.resolve_left hne)]
    exact ⟨_, rfl⟩

theorem parseYamlValue_scalar {value : List Char} (h : isListText value = false) :
    parseYamlValue value = parseYamlScalar value := by
  unfold isListText at h
  unfold parseYamlValue
  cases hbracketed : isBracketed value with
  | false => simp only [Bool.false_and, Bool.false_eq_true, if_false]
  | true =>
    rw [hbracketed, Bool.true_and, Bool.or_eq_false_iff] at h
    simp only [Bool.true_and, h.1, h.2, Bool.false_eq_true, if_false]

/-- A text is read back unless it is a list. -/
theorem reread_text_iff (value : String) : (reread (.text value)).text? = some value ↔ isListText value.toList = false := by
  simp only [reread]
  cases hlist : isListText value.toList with
  | true =>
    obtain ⟨values, hvalues⟩ := parseYamlValue_list hlist
    have hbracketed := ((Bool.and_eq_true _ _).mp hlist).1
    simp [hbracketed, hvalues, CompactFrontmatterValue.text?]
  | false =>
    cases hbracketed : isBracketed value.toList with
    | false => simp [CompactFrontmatterValue.text?]
    | true =>
      rw [if_pos rfl, parseYamlValue_scalar hlist, parseYamlScalar_open (of_decide_eq_true hbracketed).1]
      simp [CompactFrontmatterValue.text?]

/-- What opens with a bracket and a brace is no list. -/
theorem parseYamlValue_nested (rest : List Char) :
    parseYamlValue ('[' :: '\x7b' :: rest) = .text (String.ofList ('[' :: '\x7b' :: rest)) := by
  have hlist : isListText ('[' :: '\x7b' :: rest) = false := by
    cases hbracketed : isBracketed ('[' :: '\x7b' :: rest) with
    | false => simp [isListText, hbracketed]
    | true =>
      have hrest : rest ≠ [] := by
        rintro rfl
        exact absurd hbracketed (by decide)
      have hinner : (trimBy isPythonWhitespace ('\x7b' :: rest).dropLast).head? = some '\x7b' := by
        rw [List.dropLast_cons_of_ne_nil hrest, trimBy_cons_neg (by decide)]
        rfl
      have hne : trimBy isPythonWhitespace ('\x7b' :: rest).dropLast ≠ [] := by
        intro hnil
        rw [hnil] at hinner
        cases hinner
      simp [isListText, isFlatList, hinner, hne]
  rw [parseYamlValue_scalar hlist, parseYamlScalar_open rfl]

/-! ## The lines of the frontmatter -/

section Lines
variable {reading : FrontmatterReading} {key : String} {fields : CompactFrontmatter}

theorem appendItem_last (hkey : key ∉ fields.map Prod.fst) (values : List String) (value : String) :
    appendItem (fields ++ [(key, .texts values)]) key (.text value) = fields ++ [(key, .texts (values ++ [value]))] := by
  unfold appendItem
  rw [Keyed.lookup_concat (x := (key, _)) hkey]
  exact Keyed.put_concat (x := (key, _)) (y := (key, _)) hkey rfl

theorem trim_item (item : String) :
    trimBy isPythonWhitespace ("  - ".toList ++ quotedYamlString item) = '-' :: ' ' :: quotedYamlString item := by
  have hindent : "  - ".toList = [' ', ' ', '-', ' '] := by decide
  rw [hindent, List.cons_append, trimBy_cons_pos (by decide), List.cons_append, trimBy_cons_pos (by decide)]
  exact trimBy_between (m := ' ' :: '\'' :: doubleQuotes item.toList) (by decide) (by decide)

/-- An item is added to the list of the active key. -/
theorem line_item (hkey : key ∉ fields.map Prod.fst) (values : List String) (value : String) :
    FrontmatterReading.line ⟨fields ++ [(key, .texts values)], some key⟩ ("  - ".toList ++ quotedYamlString value) =
      ⟨fields ++ [(key, .texts (values ++ [value]))], some key⟩ := by
  have hitem : trimBy isPythonWhitespace (' ' :: quotedYamlString value) = quotedYamlString value := by
    rw [trimBy_cons_pos (by decide), trim_quoted]
  unfold FrontmatterReading.line
  simp only [trim_item, List.head?_cons, List.tail_cons, hitem, parseYamlScalar_quoted]
  rw [if_neg (by simp), Option.filter_some_pos (by simp)]
  simp only [appendItem_last hkey]

theorem readList (hkey : key ∉ fields.map Prod.fst) (values items : List String) :
    (items.map fun value => "  - ".toList ++ quotedYamlString value).foldl FrontmatterReading.line
        ⟨fields ++ [(key, .texts values)], some key⟩ =
      ⟨fields ++ [(key, .texts (values ++ items))], some key⟩ := by
  induction items generalizing values with
  | nil => simp
  | cons item items ih =>
    rw [List.map_cons, List.foldl_cons, line_item hkey, ih, List.append_assoc, List.singleton_append]

/-- A property with a value on its line. -/
theorem readValue (hproperty : isPropertyKey key = true) (hkey : key ∉ reading.fields.map Prod.fst) {text : List Char}
    (htext : trimBy isPythonWhitespace text = text) (hne : text ≠ []) :
    reading.line (key.toList ++ ':' :: ' ' :: text) = ⟨reading.fields ++ [(key, parseYamlValue text)], none⟩ := by
  rw [line_property hproperty, trimBy_cons_pos (by decide), htext, if_neg hne, Keyed.put_absent (x := (key, _)) hkey]

theorem yamlText_ne_nil (value : String) : yamlText value ≠ [] := by
  unfold yamlText
  split
  · rename_i h
    rintro hnil
    rw [hnil] at h
    cases h
  · exact List.cons_ne_nil _ _

/-- A property that is written is read as one more field. -/
theorem readProperty (hproperty : isPropertyKey key = true) (hkey : key ∉ reading.fields.map Prod.fst)
    (value : CompactFrontmatterValue) :
    ((yamlPropertyLines key value).foldl FrontmatterReading.line reading).fields =
      reading.fields ++ [(key, reread value)] := by
  have hword : ∀ word : String, ∀ text, word.toList = ':' :: ' ' :: text → trimBy isPythonWhitespace text = text →
      text ≠ [] → reading.line (key.toList ++ word.toList) = ⟨reading.fields ++ [(key, parseYamlValue text)], none⟩ := by
    intro word text hword htrim hne
    rw [hword]
    exact readValue hproperty hkey htrim hne
  cases value with
  | null =>
    simp only [yamlPropertyLines, List.foldl_cons, List.foldl_nil]
    rw [hword ": null" ['n', 'u', 'l', 'l'] (by decide) (by decide) (by decide)]
    congr 3
  | bool flag =>
    simp only [yamlPropertyLines, List.foldl_cons, List.foldl_nil]
    cases flag
    · rw [if_neg (by decide), hword ": false" ['f', 'a', 'l', 's', 'e'] (by decide) (by decide) (by decide)]
      congr 3
    · rw [if_pos rfl, hword ": true" ['t', 'r', 'u', 'e'] (by decide) (by decide) (by decide)]
      congr 3
  | text value =>
    simp only [yamlPropertyLines, List.foldl_cons, List.foldl_nil, List.append_assoc]
    have hcolon : ": ".toList = [':', ' '] := by decide
    rw [hcolon]
    have hread := readValue hproperty hkey (trim_yamlText value) (yamlText_ne_nil value)
    rw [parseYamlValue_yamlText] at hread
    exact congrArg FrontmatterReading.fields hread
  | texts values =>
    cases values with
    | nil =>
      simp only [yamlPropertyLines, List.foldl_cons, List.foldl_nil]
      rw [hword ": []" ['[', ']'] (by decide) (by decide) (by decide)]
      congr 3
    | cons first rest =>
      simp only [yamlPropertyLines, List.foldl_cons]
      rw [line_property hproperty, if_pos (by decide), Keyed.put_absent (x := (key, _)) hkey]
      have hlist := readList hkey [] (first :: rest)
      rw [List.map_cons, List.foldl_cons, List.nil_append] at hlist
      exact congrArg FrontmatterReading.fields hlist

theorem readProperties (reading : FrontmatterReading) {properties : CompactFrontmatter}
    (hproperties : ∀ property ∈ properties, isPropertyKey property.1 = true)
    (hdistinct : ((reading.fields ++ properties).map Prod.fst).Nodup) :
    ((properties.flatMap fun property => yamlPropertyLines property.1 property.2).foldl FrontmatterReading.line reading).fields =
      reading.fields ++ properties.map fun property => (property.1, reread property.2) := by
  induction properties generalizing reading with
  | nil => simp
  | cons property properties ih =>
    obtain ⟨key, value⟩ := property
    have hkey : key ∉ reading.fields.map Prod.fst := by
      intro hmem
      rw [List.map_append, List.map_cons, List.nodup_append] at hdistinct
      exact hdistinct.2.2 key hmem key List.mem_cons_self rfl
    have hread := readProperty (hproperties (key, value) List.mem_cons_self) hkey value
    rw [List.flatMap_cons, List.foldl_append, ih _ (fun other hother => hproperties other (List.mem_cons_of_mem _ hother)), hread]
    · simp
    · rw [hread]
      simpa using hdistinct

/-! ## Lines of a property -/

theorem unbroken_key (hproperty : isPropertyKey key = true) : Unbroken key.toList :=
  fun c hc => ((isPropertyKey_chars hproperty).2 c hc).2.1

theorem unbroken_quoted {value : String} (h : Unbroken value.toList) : Unbroken (quotedYamlString value) := by
  have hquote : isPythonLineBreak '\'' = false := by decide
  have hdoubled : Unbroken (doubleQuotes value.toList) := by
    intro c hc
    obtain ⟨d, hd, hcd⟩ := List.mem_flatMap.mp hc
    split at hcd
    · rename_i hsame
      simp only [List.mem_cons, List.not_mem_nil, or_false, or_self] at hcd
      rw [hcd]
      exact hquote
    · rw [List.mem_singleton.mp hcd]
      exact h d hd
  simp [quotedYamlString, hquote, hdoubled]

theorem unbroken_yamlText {value : String} (h : Unbroken value.toList) : Unbroken (yamlText value) := by
  unfold yamlText
  split
  · exact h
  · exact unbroken_quoted h

theorem yamlPropertyLines_unbroken (hproperty : isPropertyKey key = true) {value : CompactFrontmatterValue}
    (hvalue : LineValue value) : ∀ line ∈ yamlPropertyLines key value, Unbroken line := by
  have hkey := unbroken_key hproperty
  cases value with
  | null => simp [yamlPropertyLines, hkey]; decide
  | bool flag => cases flag <;> (simp [yamlPropertyLines, hkey]; decide)
  | text value =>
    simp only [yamlPropertyLines, List.mem_singleton, forall_eq, unbroken_append]
    exact ⟨⟨hkey, by decide⟩, unbroken_yamlText hvalue⟩
  | texts values =>
    cases values with
    | nil => simp [yamlPropertyLines, hkey]; decide
    | cons first rest =>
      simp only [yamlPropertyLines, List.forall_mem_cons, unbroken_append, List.forall_mem_map]
      exact ⟨⟨hkey, by decide⟩, ⟨by decide, unbroken_quoted (hvalue first List.mem_cons_self)⟩,
        fun item hitem => ⟨by decide, unbroken_quoted (hvalue item (List.mem_cons_of_mem first hitem))⟩⟩

theorem notDelimiter_property (hproperty : isPropertyKey key = true) (raw : List Char) :
    isDelimiter (key.toList ++ raw) = false := by
  obtain ⟨hne, hchars⟩ := isPropertyKey_chars hproperty
  obtain ⟨c, rest, hkey⟩ := List.exists_cons_of_ne_nil (fun hnil => hne (String.toList_eq_nil_iff.mp hnil))
  have hc := hchars c (hkey ▸ List.mem_cons_self)
  unfold isDelimiter
  rw [decide_eq_false_iff_not, hkey, List.cons_append, trimBy_cons_neg hc.1]
  intro hsame
  exact hc.2.2.2.2 (List.cons.inj hsame).1

/-- A line of a property opens with the key, or it is an item. -/
theorem mem_yamlPropertyLines {value : CompactFrontmatterValue} {line : List Char}
    (h : line ∈ yamlPropertyLines key value) :
    (∃ raw, line = key.toList ++ raw) ∨ ∃ item, line = "  - ".toList ++ quotedYamlString item := by
  cases value with
  | null => exact .inl ⟨_, List.mem_singleton.mp h⟩
  | bool flag => exact .inl ⟨_, List.mem_singleton.mp h⟩
  | text value => exact .inl ⟨_, (List.mem_singleton.mp h).trans (List.append_assoc _ _ _)⟩
  | texts values =>
    cases values with
    | nil => exact .inl ⟨_, List.mem_singleton.mp h⟩
    | cons first rest =>
      obtain hline | hline := List.mem_cons.mp h
      · exact .inl ⟨_, hline⟩
      · obtain ⟨item, -, rfl⟩ := List.mem_map.mp hline
        exact .inr ⟨item, rfl⟩

theorem yamlPropertyLines_notDelimiter (hproperty : isPropertyKey key = true) {value : CompactFrontmatterValue} :
    ∀ line ∈ yamlPropertyLines key value, isDelimiter line = false := by
  intro line hline
  obtain ⟨raw, rfl⟩ | ⟨item, rfl⟩ := mem_yamlPropertyLines hline
  · exact notDelimiter_property hproperty raw
  · unfold isDelimiter
    rw [trim_item, decide_eq_false_iff_not]
    intro hsame
    have hdelimiter : delimiter = ['-', '-', '-'] := by decide
    rw [hdelimiter] at hsame
    exact absurd (List.cons.inj (List.cons.inj hsame).2).1 (by decide)

end Lines

end Alexandria.Compacts
