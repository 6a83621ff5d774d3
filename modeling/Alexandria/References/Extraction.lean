import Alexandria.Compile.Plan
import Alexandria.Foundations.Utf8
import Mathlib.Data.List.Infix

/-! # Reference extraction

`reference_extraction.rs`. A text is the list of its characters, offsets count its UTF-8 bytes. The four regexes are
parameters: what they find in a text, from left to right. The digest of an edge's identity is one too.
-/

namespace Alexandria.References
set_option autoImplicit false

open Text Compile

def maxDocumentBytes : ℕ := 16 * 1024 * 1024

def maxFrontmatterEdgesPerDocument : ℕ := 100000

def maxReferencesPerDocument : ℕ := 1000000

/-! ## Inputs -/

/-- A relation that `FrontmatterEdgeInput::new` accepts. -/
structure FrontmatterEdgeInput where
  targetPath : Option String
  targetNoteId : Option String
  relation : String
  sourceField : String
  related : isBlank isPythonWhitespace relation = false
  named : isBlank isPythonWhitespace sourceField = false

def FrontmatterEdgeInput.new (targetPath targetNoteId : Option String) (relation sourceField : String) :
    Except String FrontmatterEdgeInput :=
  if related : isBlank isPythonWhitespace relation = true then .error "frontmatter relation must not be blank"
  else if named : isBlank isPythonWhitespace sourceField = true then .error "frontmatter source field must not be blank"
  else .ok ⟨targetPath, targetNoteId, relation, sourceField, by simpa using related, by simpa using named⟩

/-- A document that `ReferenceDocumentInput::new` accepts. -/
structure ReferenceDocumentInput where
  noteId : String
  relativePath : String
  alexandriaRoot : List Char
  body : List Char
  frontmatterEdges : List FrontmatterEdgeInput
  bounded : Utf8.size body ≤ maxDocumentBytes
  few : frontmatterEdges.length ≤ maxFrontmatterEdgesPerDocument

def ReferenceDocumentInput.new (noteId relativePath : String) (alexandriaRoot body : List Char)
    (frontmatterEdges : List FrontmatterEdgeInput) : Except String ReferenceDocumentInput :=
  if bounded : Utf8.size body > maxDocumentBytes then
    .error s!"document {noteId} exceeds the {maxDocumentBytes} byte reference limit"
  else if few : frontmatterEdges.length > maxFrontmatterEdgesPerDocument then
    .error s!"document {noteId} exceeds the {maxFrontmatterEdgesPerDocument} frontmatter edge limit"
  else .ok ⟨noteId, relativePath, alexandriaRoot, body, frontmatterEdges, by omega, by omega⟩

/-! ## Results -/

/-- The errors of `ReferenceBatchError`. The last four come from the map back to the source. -/
inductive ReferenceBatchError
  | referenceLimit (noteId : String)
  | inlineCode (error : String)
  | visibleRange
  | startMapping
  | endMapping
  | boundary (byteOffset : ℕ)
deriving DecidableEq

def ReferenceBatchError.message : ReferenceBatchError → String
  | .referenceLimit noteId => s!"document {noteId} exceeds the {maxReferencesPerDocument} reference limit"
  | .inlineCode error => s!"inline-code regex execution failed: {error}"
  | .visibleRange => "invalid visible reference range"
  | .startMapping => "reference start is missing source mapping"
  | .endMapping => "reference end is missing source mapping"
  | .boundary byteOffset => s!"reference range is not on an original character boundary: {byteOffset}"

def ReferenceBatchError.IsMapping : ReferenceBatchError → Prop
  | .referenceLimit _ => False
  | .inlineCode _ => False
  | _ => True

inductive ReferenceKind
  | wikilink
  | embed
deriving DecidableEq

structure ReferenceSourceRange where
  charStart : ℕ
  charEnd : ℕ
  byteStart : ℕ
  byteEnd : ℕ
deriving DecidableEq

structure ReferenceCandidate where
  referenceIndex : ℕ
  kind : ReferenceKind
  rawSyntax : List Char
  targetText : List Char
  heading : Option (List Char)
  aliasText : Option (List Char)
  normalizedTargetPath : Option (List Char)
  sourceRange : ReferenceSourceRange
deriving DecidableEq

inductive ExtractionWarningCode
  | rejectedTarget
deriving DecidableEq

structure ExtractionWarning where
  code : ExtractionWarningCode
  message : String
  sourceRange : Option ReferenceSourceRange
  sourceField : Option String
deriving DecidableEq

structure ReferenceDocumentResult where
  noteId : String
  relativePath : String
  references : List ReferenceCandidate
  edges : List EdgeCandidate
  warnings : List ExtractionWarning

/-! ## What the regexes find -/

/-- The byte ranges lie one behind the other at characters of the text. -/
structure Matches (text : List Char) (ranges : List (ℕ × ℕ)) : Prop where
  ordered : ranges.Pairwise fun a b => a.2 ≤ b.1
  boundaries : ∀ range ∈ ranges, ∃ i j, i ≤ j ∧ j ≤ text.length ∧
    range = (Utf8.size (text.take i), Utf8.size (text.take j))

/-- One match of the wikilink regex and its target group. -/
structure LinkCapture where
  complete : ℕ × ℕ
  target : ℕ × ℕ

/-- What the regexes find in each text. Each match of a wikilink stands in its brackets. The engine of the inline code regex
may fail. -/
structure ExtractionPatterns where
  htmlComment : List Char → List (ℕ × ℕ)
  obsidianComment : List Char → List (ℕ × ℕ)
  inlineCode : List Char → Except String (List (ℕ × ℕ))
  wikilink : List Char → List LinkCapture
  htmlComment_matches : ∀ text, Matches text (htmlComment text)
  obsidianComment_matches : ∀ text, Matches text (obsidianComment text)
  inlineCode_matches : ∀ text ranges, inlineCode text = .ok ranges → Matches text ranges
  wikilink_matches : ∀ text, Matches text ((wikilink text).map (·.complete))
  wikilink_brackets : ∀ text, ∀ capture ∈ wikilink text, ∃ inner,
    Utf8.slice text capture.complete.1 capture.complete.2 = ['[', '['] ++ inner ++ [']', ']']

/-! ## Target paths -/

def normalizeRoot (root : List Char) : List Char :=
  let normalized := trimBy (· == '/') (trimBy isPythonWhitespace root)
  if normalized.isEmpty then ['.'] else normalized

/-- `split_once(separator).map_or(text, |parts| parts.0)`. -/
def beforeFirst (separator : Char) (text : List Char) : List Char := text.takeWhile (· ≠ separator)

/-- The text behind the first separator. -/
def afterFirst (separator : Char) (text : List Char) : Option (List Char) :=
  if separator ∈ text then some (text.dropWhile (· ≠ separator)).tail else none

def startsWith (start text : List Char) : Bool := start.isPrefixOf text

def endsWith (stop text : List Char) : Bool := stop.isSuffixOf text

def segments (path : List Char) : List (List Char) := path.splitOn '/'

def normalizeTargetPath (path root : List Char) : Option (List Char) :=
  let trimmed := trimBy isPythonWhitespace path
  let unlinked :=
    if startsWith "[[".toList trimmed && endsWith "]]".toList trimmed then
      beforeFirst '#' (beforeFirst '|' (trimmed.drop 2).dropLast.dropLast)
    else trimmed
  let normalized := if startsWith "./".toList unlinked then unlinked.drop 2 else unlinked
  let lower := normalized.map Char.toLower
  if normalized.isEmpty || decide ("://".toList <:+: normalized) || startsWith ['#'] normalized ||
      startsWith "artifact:".toList lower || startsWith "evidence:".toList lower then none
  else
    let withoutSuffix := if endsWith ".md".toList normalized then normalized.take (normalized.length - 3) else normalized
    let normalizedPath := withoutSuffix ++ ".md".toList
    if startsWith ['/'] normalizedPath || (segments normalizedPath).contains "..".toList then none
    else if root = ['.'] || startsWith (root ++ ['/']) normalizedPath then some normalizedPath
    else some (root ++ ['/'] ++ normalizedPath)

def referenceFragments (rawWikilink : List Char) : Option (List Char) × Option (List Char) :=
  let inner := (rawWikilink.drop 2).dropLast.dropLast
  (afterFirst '#' (beforeFirst '|' inner), afterFirst '|' inner)

/-! ## Edges -/

structure EdgeCandidateInput where
  targetNoteId : Option String
  targetPath : String
  relation : String
  sourceKind : EdgeSourceKind
  confidence : BitVec 64
  referenceIndex : Option ℕ

/-- The bits of `1.0` and of `0.5`. -/
def fullConfidence : BitVec 64 := 0x3FF0000000000000

def halfConfidence : BitVec 64 := 0x3FE0000000000000

/-- What an edge is told apart by. -/
abbrev EdgeKey := String × String × EdgeSourceKind × Option String

structure EdgePlanState where
  sourceNoteId : String
  sourcePath : String
  normalizedRoot : List Char
  seen : List EdgeKey
  edges : List EdgeCandidate
  warnings : List ExtractionWarning

def EdgePlanState.new (sourceNoteId sourcePath : String) (normalizedRoot : List Char) : EdgePlanState :=
  ⟨sourceNoteId, sourcePath, normalizedRoot, [], [], []⟩

section Edges
variable (sha256 : String → String)

def identityMaterial (sourceNoteId sourcePath : String) (input : EdgeCandidateInput) : String :=
  String.intercalate "|"
    [sourceNoteId, sourcePath, input.targetNoteId.getD "", input.targetPath, input.relation, input.sourceKind.tag]

def edgeCandidate (sourceNoteId sourcePath : String) (input : EdgeCandidateInput) : EdgeCandidate where
  sourceNoteId := sourceNoteId
  sourcePath := sourcePath
  targetNoteId := input.targetNoteId
  targetPath := input.targetPath
  relation := input.relation
  sourceKind := input.sourceKind
  confidence := input.confidence
  edgeId := sha256 (identityMaterial sourceNoteId sourcePath input)
  identityMaterial := identityMaterial sourceNoteId sourcePath input
  referenceIndex := input.referenceIndex

def EdgeCandidateInput.key (input : EdgeCandidateInput) : EdgeKey :=
  (input.targetPath, input.relation, input.sourceKind, input.targetNoteId)

def EdgePlanState.pushEdge (state : EdgePlanState) (input : EdgeCandidateInput) : EdgePlanState :=
  if input.key ∈ state.seen then state
  else
    { state with
      seen := input.key :: state.seen
      edges := state.edges ++ [edgeCandidate sha256 state.sourceNoteId state.sourcePath input] }

def EdgePlanState.warn (state : EdgePlanState) (warning : ExtractionWarning) : EdgePlanState :=
  { state with warnings := state.warnings ++ [warning] }

def frontmatterEdge (frontmatter : FrontmatterEdgeInput) (targetPath : List Char) : EdgeCandidateInput :=
  ⟨frontmatter.targetNoteId, String.ofList targetPath, frontmatter.relation, .frontmatter, fullConfidence, none⟩

/-- The body of the loop of `append_frontmatter`. -/
def EdgePlanState.appendFrontmatterEdge (state : EdgePlanState) (frontmatter : FrontmatterEdgeInput) : EdgePlanState :=
  match frontmatter.targetPath with
  | none => state
  | some rawTargetPath =>
    match normalizeTargetPath rawTargetPath.toList state.normalizedRoot with
    | none =>
      state.warn ⟨.rejectedTarget, "frontmatter target is not a valid internal note path", none,
        some frontmatter.sourceField⟩
    | some targetPath => state.pushEdge sha256 (frontmatterEdge frontmatter targetPath)

def EdgePlanState.appendFrontmatter (state : EdgePlanState) (frontmatterEdges : List FrontmatterEdgeInput) : EdgePlanState :=
  frontmatterEdges.foldl (EdgePlanState.appendFrontmatterEdge sha256) state

def bodyEdge (targetPath : List Char) (referenceIndex : ℕ) : EdgeCandidateInput :=
  ⟨none, String.ofList targetPath, "wikilink", .wikilink, halfConfidence, some referenceIndex⟩

def EdgePlanState.appendBodyEdge (state : EdgePlanState) (normalizedTargetPath : Option (List Char))
    (sourceRange : ReferenceSourceRange) (referenceIndex : ℕ) : EdgePlanState :=
  match normalizedTargetPath with
  | none =>
    state.warn ⟨.rejectedTarget, "wikilink target is not a valid internal note path", some sourceRange, none⟩
  | some targetPath =>
    if String.ofList targetPath = state.sourcePath then state
    else state.pushEdge sha256 (bodyEdge targetPath referenceIndex)

end Edges

/-! ## The map back to the source -/

structure OriginalTextIndex where
  byteOffsets : List ℕ

def OriginalTextIndex.new (text : List Char) : OriginalTextIndex := ⟨Utf8.offsets 0 text⟩

/-- The binary search over the offsets, which increase. -/
def OriginalTextIndex.byteToChar (index : OriginalTextIndex) (byteOffset : ℕ) : Except ReferenceBatchError ℕ :=
  match index.byteOffsets.idxOf? byteOffset with
  | some charOffset => .ok charOffset
  | none => .error (.boundary byteOffset)

/-- A text with the place of each of its bytes in the original. -/
structure MappedText where
  text : List Char
  originStarts : List ℕ
  originEnds : List ℕ
deriving DecidableEq

def MappedText.empty : MappedText := ⟨[], [], []⟩

def MappedText.appendOriginalRange (mapped : MappedText) (original : List Char) (start stop : ℕ) : MappedText :=
  ⟨mapped.text ++ Utf8.slice original start stop, mapped.originStarts ++ List.range' start (stop - start),
    mapped.originEnds ++ List.range' (start + 1) (stop - start)⟩

def MappedText.appendSyntheticNewline (mapped : MappedText) (originalNewlineByte : ℕ) : MappedText :=
  ⟨mapped.text ++ ['\n'], mapped.originStarts ++ [originalNewlineByte], mapped.originEnds ++ [originalNewlineByte + 1]⟩

def MappedText.appendMappedRange (mapped source : MappedText) (start stop : ℕ) : MappedText :=
  if start ≥ stop then mapped
  else
    ⟨mapped.text ++ Utf8.slice source.text start stop,
      mapped.originStarts ++ (source.originStarts.drop start).take (stop - start),
      mapped.originEnds ++ (source.originEnds.drop start).take (stop - start)⟩

/-- The loop of `without_ranges` from a cursor on. -/
def MappedText.withoutFrom (source : MappedText) (cursor : ℕ) (result : MappedText) : List (ℕ × ℕ) → MappedText
  | [] => result.appendMappedRange source cursor (Utf8.size source.text)
  | range :: rest => source.withoutFrom range.2 (result.appendMappedRange source cursor range.1) rest

def MappedText.withoutRanges (source : MappedText) (ranges : List (ℕ × ℕ)) : MappedText :=
  source.withoutFrom 0 .empty ranges

def MappedText.sourceRange (mapped : MappedText) (visibleStart visibleEnd : ℕ) (original : OriginalTextIndex) :
    Except ReferenceBatchError ReferenceSourceRange :=
  if visibleStart ≥ visibleEnd ∨ visibleEnd > Utf8.size mapped.text then .error .visibleRange
  else do
    let some byteStart := mapped.originStarts[visibleStart]? | .error .startMapping
    let some byteEnd := mapped.originEnds[visibleEnd - 1]? | .error .endMapping
    let charStart ← original.byteToChar byteStart
    let charEnd ← original.byteToChar byteEnd
    return ⟨charStart, charEnd, byteStart, byteEnd⟩

/-! ## The linkable text -/

structure LogicalLine where
  start : ℕ
  endWithEnding : ℕ
deriving DecidableEq

def isLineEnding (c : Char) : Bool :=
  c == '\r' || c == '\n' || c == '\x0b' || c == '\x0c' || c == '\x1c' || c == '\x1d' || c == '\x1e' ||
    c == '\u0085' || c == '\u2028' || c == '\u2029'

/-- The lines of what is left, the first of which began at `lineStart`. -/
def logicalLinesFrom (lineStart index : ℕ) : List Char → List LogicalLine
  | [] => if lineStart < index then [⟨lineStart, index⟩] else []
  | '\r' :: '\n' :: rest => ⟨lineStart, index + 2⟩ :: logicalLinesFrom (index + 2) (index + 2) rest
  | c :: rest =>
    if isLineEnding c then
      ⟨lineStart, index + c.utf8Size⟩ :: logicalLinesFrom (index + c.utf8Size) (index + c.utf8Size) rest
    else logicalLinesFrom lineStart (index + c.utf8Size) rest

def logicalLines (text : List Char) : List LogicalLine := logicalLinesFrom 0 0 text

def isIndent (c : Char) : Bool := c == ' ' || c == '\t'

/-- The marker of a fence and how many of them open it. -/
structure LinkFence where
  character : Char
  length : ℕ
deriving DecidableEq

def openingFence (line : List Char) : Option LinkFence :=
  match line.drop ((line.take 3).takeWhile isIndent).length with
  | [] => none
  | marker :: rest =>
    let length := ((marker :: rest).takeWhile (· = marker)).length
    if (marker = '`' ∨ marker = '~') ∧ 3 ≤ length then some ⟨marker, length⟩ else none

def closesFence (line : List Char) (fence : LinkFence) : Bool :=
  let stripped := line.dropWhile isIndent
  let closing := trimBy isPythonWhitespace (stripped.rdropWhile fun c => c == '\r' || c == '\n')
  !closing.isEmpty && closing.all (· = fence.character) && fence.length ≤ closing.length

def isIndentedCode (line : List Char) : Bool := startsWith "    ".toList line || startsWith ['\t'] line

def appendHiddenLine (visible : MappedText) (body : List Char) (line : LogicalLine) : MappedText :=
  if (Utf8.slice body line.start line.endWithEnding).getLast? = some '\n' then
    visible.appendSyntheticNewline (line.endWithEnding - 1)
  else visible

/-- The loop of `linkable_markdown` between two lines: the text so far and the open fence. -/
structure LinkScan where
  visible : MappedText
  fence : Option LinkFence
deriving DecidableEq

def LinkScan.line (body : List Char) (scan : LinkScan) (line : LogicalLine) : LinkScan :=
  let lineText := Utf8.slice body line.start line.endWithEnding
  match scan.fence with
  | some fence => ⟨appendHiddenLine scan.visible body line, if closesFence lineText fence then none else some fence⟩
  | none =>
    match openingFence lineText with
    | some fence => ⟨appendHiddenLine scan.visible body line, some fence⟩
    | none =>
      if isIndentedCode lineText then ⟨appendHiddenLine scan.visible body line, none⟩
      else ⟨scan.visible.appendOriginalRange body line.start line.endWithEnding, none⟩

def visibleLines (body : List Char) : MappedText :=
  ((logicalLines body).foldl (LinkScan.line body) ⟨.empty, none⟩).visible

def linkableMarkdown (body : List Char) (patterns : ExtractionPatterns) : Except ReferenceBatchError MappedText :=
  let lines := visibleLines body
  let uncommented := lines.withoutRanges (patterns.htmlComment lines.text)
  let visible := uncommented.withoutRanges (patterns.obsidianComment uncommented.text)
  match patterns.inlineCode visible.text with
  | .error error => .error (.inlineCode error)
  | .ok ranges => .ok (visible.withoutRanges ranges)

/-! ## The references of a body -/

/-- The byte before an offset is the mark of an embed. -/
def isEmbed (text : List Char) (start : ℕ) : Bool := 0 < start && (Utf8.takeBytes start text).getLast? == some '!'

section Body
variable (sha256 : String → String)

/-- The reference of a match, without its number. -/
def referenceCandidate (linkable : MappedText) (original : OriginalTextIndex) (normalizedRoot : List Char)
    (referenceIndex : ℕ) (capture : LinkCapture) : Except ReferenceBatchError ReferenceCandidate := do
  let embed := isEmbed linkable.text capture.complete.1
  let visibleStart := capture.complete.1 - if embed then 1 else 0
  let sourceRange ← linkable.sourceRange visibleStart capture.complete.2 original
  let rawWikilink := Utf8.slice linkable.text capture.complete.1 capture.complete.2
  let targetText := Utf8.slice linkable.text capture.target.1 capture.target.2
  let fragments := referenceFragments rawWikilink
  return {
    referenceIndex := referenceIndex
    kind := if embed then .embed else .wikilink
    rawSyntax := Utf8.slice linkable.text visibleStart capture.complete.2
    targetText := targetText
    heading := fragments.1
    aliasText := fragments.2
    normalizedTargetPath := normalizeTargetPath targetText normalizedRoot
    sourceRange := sourceRange }

/-- The loop of `extract_body` over the matches that are left. -/
def EdgePlanState.extractFrom (linkable : MappedText) (original : OriginalTextIndex) (state : EdgePlanState)
    (references : List ReferenceCandidate) :
    List LinkCapture → Except ReferenceBatchError (EdgePlanState × List ReferenceCandidate)
  | [] => .ok (state, references)
  | capture :: rest =>
    if references.length ≥ maxReferencesPerDocument then .error (.referenceLimit state.sourceNoteId)
    else
      match referenceCandidate linkable original state.normalizedRoot references.length capture with
      | .error error => .error error
      | .ok reference =>
        (state.appendBodyEdge sha256 reference.normalizedTargetPath reference.sourceRange references.length).extractFrom
          linkable original (references ++ [reference]) rest

def EdgePlanState.extractBody (state : EdgePlanState) (body : List Char) (patterns : ExtractionPatterns) :
    Except ReferenceBatchError (EdgePlanState × List ReferenceCandidate) :=
  match linkableMarkdown body patterns with
  | .error error => .error error
  | .ok linkable => state.extractFrom sha256 linkable (.new body) [] (patterns.wikilink linkable.text)

def extractDocument (document : ReferenceDocumentInput) (patterns : ExtractionPatterns) :
    Except ReferenceBatchError ReferenceDocumentResult :=
  let state := (EdgePlanState.new document.noteId document.relativePath (normalizeRoot document.alexandriaRoot)).appendFrontmatter
    sha256 document.frontmatterEdges
  match state.extractBody sha256 document.body patterns with
  | .error error => .error error
  | .ok (state, references) => .ok ⟨document.noteId, document.relativePath, references, state.edges, state.warnings⟩

end Body

end Alexandria.References
