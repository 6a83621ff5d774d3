import Alexandria.Foundations.Text
import Alexandria.Foundations.Utf8

/-! # The Markdown chunker

`markdown_chunking.rs`. A string is the list of its characters. The heading regex is a parameter: what `captures_iter`
returns for a text. Loops count down a fuel that their caller sets; `none` says that it ran out.
-/

namespace Alexandria.Chunking
set_option autoImplicit false

open Text

def maxDocumentBytes : ℕ := 16 * 1024 * 1024

def maxChunksPerDocument : ℕ := 1000000

def usizeMax : ℕ := 2 ^ 64 - 1

def checkedAdd (a b : ℕ) : Option ℕ := if a + b ≤ usizeMax then some (a + b) else none

def saturatingAdd (a b : ℕ) : ℕ := min (a + b) usizeMax

/-! ## Requests -/

/-- A policy that `ChunkPolicy::new` accepts. -/
structure ChunkPolicy where
  maxChars : ℕ
  overlapChars : ℕ
  positive : maxChars ≠ 0
  bounded : overlapChars ≤ maxDocumentBytes

def ChunkPolicy.new (maxChars overlapChars : ℕ) : Except String ChunkPolicy :=
  if positive : maxChars = 0 then .error "max_chars must be greater than zero"
  else if bounded : overlapChars > maxDocumentBytes then
    .error s!"overlap_chars exceeds the {maxDocumentBytes} character safety bound"
  else .ok ⟨maxChars, overlapChars, positive, by omega⟩

/-- A document that `ChunkDocumentInput::new` accepts. -/
structure ChunkDocumentInput where
  documentId : String
  relativePath : String
  title : List Char
  content : List Char
  bounded : Utf8.size title + Utf8.size content ≤ maxDocumentBytes

def ChunkDocumentInput.new (documentId relativePath : String) (title content : List Char) :
    Except String ChunkDocumentInput :=
  if bounded : Utf8.size title + Utf8.size content > maxDocumentBytes then
    .error s!"document {documentId} exceeds the {maxDocumentBytes} byte chunking limit"
  else .ok ⟨documentId, relativePath, title, content, by omega⟩

/-! ## Results -/

inductive ChunkSourceKind
  | content
  | titleFallback
deriving DecidableEq

structure ChunkSourceRange where
  charStart : ℕ
  charEnd : ℕ
  byteStart : ℕ
  byteEnd : ℕ
deriving DecidableEq

structure ChunkRecord where
  chunkIndex : ℕ
  heading : Option (List Char)
  headingPath : List (List Char)
  content : List Char
  sourceKind : ChunkSourceKind
  sourceRange : ChunkSourceRange
deriving DecidableEq

inductive ChunkingErrorCode
  | capacityExceeded
deriving DecidableEq

structure ChunkingFailure where
  code : ChunkingErrorCode
  message : String
  recoverable : Bool
deriving DecidableEq

inductive ChunkDocumentOutcome
  | success (documentId relativePath : String) (chunks : List ChunkRecord)
  | error (documentId relativePath : String) (error : ChunkingFailure)
deriving DecidableEq

def capacityFailure : ChunkingFailure :=
  ⟨.capacityExceeded, s!"document exceeds the {maxChunksPerDocument} chunk output limit", true⟩

def chunkRangeFailure : ChunkingFailure := ⟨.capacityExceeded, "chunk source range overflow", false⟩

/-! ## Texts with their byte offsets -/

structure IndexedText where
  text : List Char
  characters : List Char
  byteOffsets : List ℕ

def IndexedText.new (text : List Char) : IndexedText := ⟨text, text, Utf8.offsets 0 text⟩

def IndexedText.byteOffset (indexed : IndexedText) (charOffset : ℕ) : ℕ := indexed.byteOffsets.getD charOffset 0

/-- The binary search over the offsets, which increase. -/
def IndexedText.byteToChar (indexed : IndexedText) (byteOffset : ℕ) : Except String ℕ :=
  match indexed.byteOffsets.idxOf? byteOffset with
  | some charOffset => .ok charOffset
  | none => .error s!"regex returned a non-character-boundary byte offset: {byteOffset}"

def IndexedText.slice (indexed : IndexedText) (charStart charEnd : ℕ) : List Char :=
  Utf8.slice indexed.text (indexed.byteOffset charStart) (indexed.byteOffset charEnd)

/-! ## Trimming -/

def blankAt (characters : List Char) (i : ℕ) : Bool := characters[i]?.any isPythonWhitespace

/-- Step over whitespace from the left, at most `n` characters. -/
def trimFront (characters : List Char) : ℕ → ℕ → ℕ
  | 0, i => i
  | n + 1, i => if blankAt characters i then trimFront characters n (i + 1) else i

/-- Step over whitespace from the right, at most `n` characters. -/
def trimBack (characters : List Char) : ℕ → ℕ → ℕ
  | 0, i => i
  | n + 1, i => if blankAt characters (i - 1) then trimBack characters n (i - 1) else i

def trimmedBounds (characters : List Char) (start stop : ℕ) : ℕ × ℕ :=
  let trimmedStart := trimFront characters (stop - start) start
  (trimmedStart, trimBack characters (stop - trimmedStart) stop)

/-! ## The selected source -/

structure SelectedSource where
  sourceKind : ChunkSourceKind
  original : IndexedText
  normalizedCharStart : ℕ
  normalizedCharEnd : ℕ

def SelectedSource.select (title content : List Char) : SelectedSource :=
  let contentIndex := IndexedText.new content
  let contentBounds := trimmedBounds contentIndex.characters 0 contentIndex.characters.length
  if contentBounds.1 < contentBounds.2 then ⟨.content, contentIndex, contentBounds.1, contentBounds.2⟩
  else
    let titleIndex := IndexedText.new title
    let titleBounds := trimmedBounds titleIndex.characters 0 titleIndex.characters.length
    ⟨.titleFallback, titleIndex, titleBounds.1, titleBounds.2⟩

def SelectedSource.normalizedText (source : SelectedSource) : List Char :=
  source.original.slice source.normalizedCharStart source.normalizedCharEnd

/-! ## Sections -/

/-- One match of the heading regex: its byte offset, the `#` markers and the heading text. -/
structure HeadingCapture where
  start : ℕ
  markers : List Char
  heading : List Char

/-- What the heading regex finds in each text. Matches come from left to right and begin at characters. -/
structure HeadingPattern where
  capturesIter : List Char → List HeadingCapture
  increasing : ∀ text, ((capturesIter text).map (·.start)).Pairwise (· < ·)
  boundaries : ∀ text, ∀ found ∈ capturesIter text, ∃ i < text.length, found.start = Utf8.size (text.take i)

structure HeadingMatch where
  startChar : ℕ
  level : ℕ
  heading : List Char

structure Section where
  heading : Option (List Char)
  headingPath : List (List Char)
  charStart : ℕ
  charEnd : ℕ

def fallbackHeadingPath (title : List Char) : List (List Char) := if title.isEmpty then [] else [title]

def headingMatches (normalized : IndexedText) : List HeadingCapture → Except String (List HeadingMatch)
  | [] => .ok []
  | found :: rest =>
    match normalized.byteToChar found.start with
    | .error message => .error message
    | .ok startChar =>
      match headingMatches normalized rest with
      | .error message => .error message
      | .ok found' =>
        .ok (⟨startChar, found.markers.length, trimBy isPythonWhitespace found.heading⟩ :: found')

/-- The sections of the headings, each up to the next one, under the open hierarchy. -/
def headingSections (normalized : IndexedText) (hierarchy : List (List Char)) : List HeadingMatch → List Section
  | [] => []
  | found :: rest =>
    let hierarchy' := hierarchy.take (min (found.level - 1) hierarchy.length) ++ [found.heading]
    let sectionEnd := match rest with
      | [] => normalized.characters.length
      | next :: _ => next.startChar
    let bounds := trimmedBounds normalized.characters found.startChar sectionEnd
    ⟨some found.heading, hierarchy', bounds.1, bounds.2⟩ :: headingSections normalized hierarchy' rest

def sectionsForText (normalized : IndexedText) (title : List Char) (pattern : HeadingPattern) :
    Except String (List Section) :=
  match headingMatches normalized (pattern.capturesIter normalized.text) with
  | .error message => .error message
  | .ok [] => .ok [⟨some title, fallbackHeadingPath title, 0, normalized.characters.length⟩]
  | .ok (first :: rest) =>
    let leading :=
      if first.startChar > 0 then
        let bounds := trimmedBounds normalized.characters 0 first.startChar
        [⟨some title, fallbackHeadingPath title, bounds.1, bounds.2⟩]
      else []
    .ok (leading ++ headingSections normalized [] (first :: rest))

/-! ## Splitting a section -/

/-- The last position in `minimumStart ..= exclusiveEnd - separator.len()` where the separator stands. -/
def rfindSeparator (characters separator : List Char) (minimumStart exclusiveEnd : ℕ) : Option ℕ :=
  if separator.isEmpty || exclusiveEnd < separator.length then none
  else
    let latestStart := exclusiveEnd - separator.length
    if latestStart < minimumStart then none
    else
      (List.range' minimumStart (latestStart + 1 - minimumStart)).reverse.find? fun start =>
        (characters.drop start).take separator.length = separator

/-- The separators in the order of preference, with what of each stays in the chunk it ends. -/
def separators : List (List Char × ℕ) := [(['\n', '\n'], 2), (['\n'], 1), (['.', ' '], 1), ([' '], 1)]

def preferredChunkEnd (characters : List Char) (start hardEnd : ℕ) : ℕ :=
  if hardEnd ≥ characters.length then characters.length
  else
    let minimumEnd := start + (hardEnd - start) / 2
    let boundary := separators.findSome? fun separator =>
      (rfindSeparator characters separator.1 minimumEnd hardEnd).map (· + separator.2)
    boundary.getD hardEnd

/-- Move the next start behind whitespace, at most `n` characters and never past `stop`. -/
def wordStart (characters : List Char) : ℕ → ℕ → ℕ
  | 0, next => next
  | n + 1, next => if blankAt characters (next - 1) then next else wordStart characters n (saturatingAdd next 1)

def nextStart (characters : List Char) (policy : ChunkPolicy) (start stop : ℕ) : ℕ :=
  let next := max (saturatingAdd start 1) (stop - policy.overlapChars)
  wordStart characters (stop - next) next

/-- The chunk at a trimmed range of the section, numbered by how many there are. -/
def chunkAt (source : SelectedSource) (normalized : IndexedText) (sec : Section) (index trimmedStart trimmedEnd : ℕ) :
    Except ChunkingFailure ChunkRecord := do
  let some normalizedCharStart := checkedAdd sec.charStart trimmedStart | .error chunkRangeFailure
  let some normalizedCharEnd := checkedAdd sec.charStart trimmedEnd | .error chunkRangeFailure
  let some sourceCharStart := checkedAdd source.normalizedCharStart normalizedCharStart | .error chunkRangeFailure
  let some sourceCharEnd := checkedAdd source.normalizedCharStart normalizedCharEnd | .error chunkRangeFailure
  return {
    chunkIndex := index
    heading := sec.heading
    headingPath := sec.headingPath
    content := normalized.slice normalizedCharStart normalizedCharEnd
    sourceKind := source.sourceKind
    sourceRange := ⟨sourceCharStart, sourceCharEnd, source.original.byteOffset sourceCharStart,
      source.original.byteOffset sourceCharEnd⟩ }

/-- One round of the loop: the chunk of a window, unless it is blank. -/
def emit (source : SelectedSource) (normalized : IndexedText) (sec : Section) (characters : List Char)
    (start stop : ℕ) (chunks : List ChunkRecord) : Except ChunkingFailure (List ChunkRecord) :=
  let bounds := trimmedBounds characters start stop
  if bounds.1 < bounds.2 then
    if chunks.length ≥ maxChunksPerDocument then .error capacityFailure
    else
      match chunkAt source normalized sec chunks.length bounds.1 bounds.2 with
      | .error failure => .error failure
      | .ok chunk => .ok (chunks ++ [chunk])
  else .ok chunks

def hardEnd (policy : ChunkPolicy) (characters : List Char) (start : ℕ) : ℕ :=
  match checkedAdd start policy.maxChars with
  | none => characters.length
  | some candidate => min candidate characters.length

def splitLoop (source : SelectedSource) (normalized : IndexedText) (sec : Section) (policy : ChunkPolicy)
    (characters : List Char) : ℕ → ℕ → List ChunkRecord → Option (Except ChunkingFailure (List ChunkRecord))
  | 0, _, _ => none
  | fuel + 1, start, chunks =>
    if start < characters.length then
      let stop := preferredChunkEnd characters start (hardEnd policy characters start)
      match emit source normalized sec characters start stop chunks with
      | .error failure => some (.error failure)
      | .ok chunks' =>
        if stop ≥ characters.length then some (.ok chunks')
        else splitLoop source normalized sec policy characters fuel (nextStart characters policy start stop) chunks'
    else some (.ok chunks)

def splitSection (source : SelectedSource) (normalized : IndexedText) (sec : Section) (policy : ChunkPolicy)
    (chunks : List ChunkRecord) : Option (Except ChunkingFailure (List ChunkRecord)) :=
  if sec.charStart ≥ sec.charEnd then some (.ok chunks)
  else
    let characters := (normalized.characters.drop sec.charStart).take (sec.charEnd - sec.charStart)
    splitLoop source normalized sec policy characters (characters.length + 1) 0 chunks

def splitSections (source : SelectedSource) (normalized : IndexedText) (policy : ChunkPolicy) :
    List Section → List ChunkRecord → Option (Except ChunkingFailure (List ChunkRecord))
  | [], chunks => some (.ok chunks)
  | sec :: rest, chunks =>
    match splitSection source normalized sec policy chunks with
    | none => none
    | some (.error failure) => some (.error failure)
    | some (.ok chunks') => splitSections source normalized policy rest chunks'

def splitSelectedSource (source : SelectedSource) (title : List Char) (policy : ChunkPolicy)
    (pattern : HeadingPattern) : Option (Except ChunkingFailure (List ChunkRecord)) :=
  let normalized := IndexedText.new source.normalizedText
  match sectionsForText normalized title pattern with
  | .error message => some (.error ⟨.capacityExceeded, message, false⟩)
  | .ok sections => splitSections source normalized policy sections []

def chunkDocument (document : ChunkDocumentInput) (policy : ChunkPolicy) (pattern : HeadingPattern) :
    Option ChunkDocumentOutcome :=
  let source := SelectedSource.select document.title document.content
  match splitSelectedSource source document.title policy pattern with
  | none => none
  | some (.ok chunks) => some (.success document.documentId document.relativePath chunks)
  | some (.error failure) => some (.error document.documentId document.relativePath failure)

end Alexandria.Chunking
