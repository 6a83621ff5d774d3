import Alexandria.Foundations.Text
import Mathlib.Algebra.Ring.Nat
import Mathlib.Data.Nat.Notation
import Mathlib.Tactic.Common

/-! # Native document analysis

`document_analysis.rs`: logical lines, frontmatter, scalars, headings. A text is the list of its characters, offsets
count its UTF-8 bytes. Numbers keep their lexeme.
-/

namespace Alexandria.Markdown.Native
set_option autoImplicit false

open Text

def maxDocumentBytes : ℕ := 16 * 1024 * 1024

def byteLength (text : List Char) : ℕ := (text.map Char.utf8Size).sum

def trimmed (text : List Char) : List Char := trimBy isWhitespace text

/-- `split_once`: before and after the first separator. -/
def splitOnce (sep : Char) (text : List Char) : Option (List Char × List Char) :=
  if sep ∈ text then some (text.takeWhile (· ≠ sep), (text.dropWhile (· ≠ sep)).tail) else none

/-! ## Logical lines -/

def isLineBreak (c : Char) : Bool :=
  c == '\n' || c == '\r' || c == '\x0b' || c == '\x0c' || c == '\x1c' || c == '\x1d' || c == '\x1e' ||
    c == '\u0085' || c == '\u2028' || c == '\u2029'

structure LogicalLine where
  text : List Char
  start : ℕ
  stop : ℕ
  endingEnd : ℕ
deriving DecidableEq

/-- The lines from `lineStart` on, of which `line` has been read up to `index`. -/
def splitFrom (lineStart index : ℕ) (line : List Char) : List Char → List LogicalLine
  | [] => if line = [] then [] else [⟨line, lineStart, index, index⟩]
  | '\r' :: '\n' :: rest => ⟨line, lineStart, index, index + 2⟩ :: splitFrom (index + 2) (index + 2) [] rest
  | c :: rest =>
    if isLineBreak c then
      ⟨line, lineStart, index, index + c.utf8Size⟩ :: splitFrom (index + c.utf8Size) (index + c.utf8Size) [] rest
    else splitFrom lineStart (index + c.utf8Size) (line ++ [c]) rest

def splitLogicalLines (text : List Char) : List LogicalLine := splitFrom 0 0 [] text

/-! ## Scalars -/

inductive FrontmatterScalar
  | string (text : String)
  | integer (lexeme : String)
  | float (lexeme : String)
  | boolean (value : Bool)
  | null
deriving DecidableEq

/-- A scalar, or a flat sequence of scalars. -/
inductive FrontmatterValue
  | scalar (value : FrontmatterScalar)
  | sequence (items : List FrontmatterScalar)
deriving DecidableEq

structure FrontmatterEntry where
  key : String
  value : FrontmatterValue
deriving DecidableEq

def stripNumericSign : List Char → List Char
  | '+' :: rest => rest
  | '-' :: rest => rest
  | text => text

def canonicalUnsignedInteger (text : List Char) : Bool :=
  text = ['0'] ||
    match text with
    | [] => false
    | first :: rest => ('1' ≤ first && first ≤ '9') && rest.all Char.isDigit

def isIntegerLexeme (text : List Char) : Bool := canonicalUnsignedInteger (stripNumericSign text)

def isExponentMark (c : Char) : Bool := c == 'e' || c == 'E'

def isFloatLexeme (text : List Char) : Bool :=
  let unsigned := stripNumericSign text
  match splitOnce '.' unsigned with
  | some (whole, fraction) =>
    fraction ≠ [] && !(fraction.any fun c => c == '.' || isExponentMark c) && canonicalUnsignedInteger whole &&
      fraction.all Char.isDigit
  | none =>
    if unsigned.any isExponentMark then
      let mantissa := unsigned.takeWhile fun c => !isExponentMark c
      let exponent := (unsigned.dropWhile fun c => !isExponentMark c).tail
      if exponent.any isExponentMark then false
      else
        canonicalUnsignedInteger mantissa && stripNumericSign exponent ≠ [] &&
          (stripNumericSign exponent).all Char.isDigit
    else false

/-- The text between two quotation marks. -/
def quotedBy (quote : Char) (text : List Char) : Option (List Char) :=
  if 2 ≤ text.length ∧ text.head? = some quote ∧ text.getLast? = some quote then some text.tail.dropLast else none

/-- `replace("''", "'")`. -/
def undoubleQuotes : List Char → List Char
  | [] => []
  | '\'' :: '\'' :: rest => '\'' :: undoubleQuotes rest
  | c :: rest => c :: undoubleQuotes rest

def parseScalar (raw : List Char) : FrontmatterScalar :=
  let value := trimmed raw
  match quotedBy '\'' value, quotedBy '"' value with
  | some inner, _ => .string (String.ofList (undoubleQuotes inner))
  | none, some inner => .string (String.ofList inner)
  | none, none =>
    let lower := value.map Char.toLower
    if value = [] ∨ lower = "null".toList ∨ lower = "~".toList then .null
    else if lower = "true".toList then .boolean true
    else if lower = "false".toList then .boolean false
    else if isIntegerLexeme value then .integer (String.ofList value)
    else if isFloatLexeme value then .float (String.ofList value)
    else .string (String.ofList value)

/-- The scanner of an inline list: the quotation it is in, the open brackets, and the text since the last comma. -/
structure InlineList where
  quote : Option Char
  escaped : Bool
  depth : ℕ
  current : List Char
  items : List FrontmatterScalar
deriving DecidableEq

def InlineList.scan (l : InlineList) (c : Char) : InlineList :=
  let next := { l with current := l.current ++ [c] }
  match l.quote with
  | some active =>
    { next with
      quote := if c = active ∧ l.escaped = false then none else some active
      escaped := c = '\\' && !l.escaped }
  | none =>
    if c = '\'' ∨ c = '"' then { next with quote := some c, escaped := false }
    else if c = '[' ∨ c = '\x7b' ∨ c = '(' then { next with depth := l.depth + 1 }
    else if c = ']' ∨ c = '\x7d' ∨ c = ')' then { next with depth := l.depth - 1 }
    else if c = ',' ∧ l.depth = 0 then { l with current := [], items := l.items ++ [parseScalar (trimmed l.current)] }
    else next

def parseInlineList (value : List Char) : List FrontmatterScalar :=
  let inner := value.tail.dropLast
  if trimmed inner = [] then []
  else
    let scanned := inner.foldl InlineList.scan ⟨none, false, 0, [], []⟩
    scanned.items ++ [parseScalar (trimmed scanned.current)]

/-! ## Frontmatter -/

/-- The loop of `parse_frontmatter_lines` between two lines. -/
structure FrontmatterState where
  entries : List FrontmatterEntry
  keys : List String
  activeListIndex : Option ℕ
deriving DecidableEq

def FrontmatterEntry.push (item : FrontmatterScalar) (e : FrontmatterEntry) : FrontmatterEntry :=
  match e.value with
  | .sequence items => { e with value := .sequence (items ++ [item]) }
  | .scalar _ => e

def parseValue (valueText : List Char) : FrontmatterValue :=
  if valueText = [] then .sequence []
  else if valueText.head? = some '[' ∧ valueText.getLast? = some ']' then .sequence (parseInlineList valueText)
  else .scalar (parseScalar valueText)

/-- A line `key: value` at the margin. -/
def FrontmatterState.entry (s : FrontmatterState) (line : List Char) : Except String FrontmatterState :=
  match splitOnce ':' line with
  | none => .ok { s with activeListIndex := none }
  | some (rawKey, rawValue) =>
    let key := String.ofList (trimmed rawKey)
    if key = "" then .ok { s with activeListIndex := none }
    else if key ∈ s.keys then .error ("FRONTMATTER_PARSE_ERROR: duplicate top-level key: " ++ key)
    else
      let valueText := trimmed rawValue
      .ok
        { entries := s.entries ++ [⟨key, parseValue valueText⟩]
          keys := key :: s.keys
          activeListIndex := if valueText = [] then some s.entries.length else none }

def FrontmatterState.line (s : FrontmatterState) (text : List Char) : Except String FrontmatterState :=
  let stripped := trimmed text
  if stripped = [] ∨ stripped.head? = some '#' then .ok s
  else
    match s.activeListIndex, stripped with
    | some index, '-' :: rawItem =>
      .ok { s with entries := s.entries.modify index (FrontmatterEntry.push (parseScalar (trimmed rawItem))) }
    | _, _ => if text ≠ text.dropWhile isWhitespace then .ok s else s.entry text

/-- The loop of `parse_frontmatter_lines` from a state on. -/
def parseLinesFrom (s : FrontmatterState) : List (List Char) → Except String FrontmatterState
  | [] => .ok s
  | line :: lines =>
    match s.line line with
    | .error e => .error e
    | .ok s' => parseLinesFrom s' lines

def parseFrontmatterLines (lines : List LogicalLine) : Except String (List FrontmatterEntry) :=
  (parseLinesFrom ⟨[], [], none⟩ (lines.map LogicalLine.text)).map FrontmatterState.entries

/-! ## Headings -/

structure SourceRange where
  start : ℕ
  stop : ℕ
deriving DecidableEq

structure HeadingEvent where
  level : ℕ
  text : String
  lineNumber : ℕ
  sourceRange : SourceRange
deriving DecidableEq

structure Fence where
  marker : Char
  minimumLength : ℕ
deriving DecidableEq

def stripUpToThreeSpaces (line : List Char) : Option (List Char) :=
  if 3 < (line.takeWhile (· = ' ')).length then none else some (line.dropWhile (· = ' '))

def openingFence (line : List Char) : Option Fence :=
  match stripUpToThreeSpaces line with
  | none => none
  | some [] => none
  | some (marker :: content) =>
    let length := ((marker :: content).takeWhile (· = marker)).length
    if (marker = '`' ∨ marker = '~') ∧ 3 ≤ length then some ⟨marker, length⟩ else none

def closesFence (line : List Char) (fence : Fence) : Bool :=
  match stripUpToThreeSpaces line with
  | none => false
  | some content =>
    fence.minimumLength ≤ (content.takeWhile (· = fence.marker)).length &&
      (content.dropWhile (· = fence.marker)).all isWhitespace

def parseAtxHeading (line : List Char) : Option (ℕ × List Char) :=
  match stripUpToThreeSpaces line with
  | none => none
  | some content =>
    let markerCount := (content.takeWhile (· = '#')).length
    if 1 ≤ markerCount ∧ markerCount ≤ 6 then
      match content.dropWhile (· = '#') with
      | [] => some (markerCount, [])
      | first :: remainder =>
        if isWhitespace first then some (markerCount, trimmed (first :: remainder)) else none
    else none

def extractHeadings (lineNumber : ℕ) (fence : Option Fence) : List LogicalLine → List HeadingEvent
  | [] => []
  | line :: lines =>
    match fence with
    | some active =>
      extractHeadings (lineNumber + 1) (if closesFence line.text active then none else some active) lines
    | none =>
      match openingFence line.text, parseAtxHeading line.text with
      | some opened, _ => extractHeadings (lineNumber + 1) (some opened) lines
      | none, some (level, text) =>
        ⟨level, String.ofList text, lineNumber, ⟨line.start, line.stop⟩⟩ :: extractHeadings (lineNumber + 1) none lines
      | none, none => extractHeadings (lineNumber + 1) none lines

/-! ## Documents -/

structure DocumentAnalysis where
  hasFrontmatter : Bool
  frontmatter : List FrontmatterEntry
  body : List Char
  frontmatterSourceRange : Option SourceRange
  frontmatterContentRange : Option SourceRange
  bodySourceRange : SourceRange
  headings : List HeadingEvent
deriving DecidableEq

def delimiter : List Char := ['-', '-', '-']

def isDelimiter (line : LogicalLine) : Bool := trimmed line.text = delimiter

/-- The lines of the body, joined by line feeds. -/
def normalizedBody (text : List Char) (lines : List LogicalLine) : List Char :=
  let body := ['\n'].intercalate (lines.map LogicalLine.text)
  if text.getLast? = some '\n' ∧ body ≠ [] then body ++ ['\n'] else body

def unterminated : String := "FRONTMATTER_PARSE_ERROR: unterminated frontmatter"

def withoutFrontmatter (text : List Char) (lines : List LogicalLine) : DocumentAnalysis where
  hasFrontmatter := false
  frontmatter := []
  body := text
  frontmatterSourceRange := none
  frontmatterContentRange := none
  bodySourceRange := ⟨0, byteLength text⟩
  headings := extractHeadings 1 none lines

def analyzeDocument (text : List Char) : Except String DocumentAnalysis :=
  match splitLogicalLines text with
  | [] => .ok (withoutFrontmatter text [])
  | opening :: rest =>
    if isDelimiter opening then
      let content := rest.takeWhile fun line => !isDelimiter line
      match rest.dropWhile fun line => !isDelimiter line with
      | [] => .error unterminated
      | closing :: bodyLines =>
        match parseFrontmatterLines content with
        | .error e => .error e
        | .ok entries =>
          .ok
            { hasFrontmatter := true
              frontmatter := entries
              body := normalizedBody text bodyLines
              frontmatterSourceRange := some ⟨0, closing.endingEnd⟩
              frontmatterContentRange := some ⟨opening.endingEnd, closing.start⟩
              bodySourceRange := ⟨closing.endingEnd, byteLength text⟩
              headings := extractHeadings (content.length + 3) none bodyLines }
    else .ok (withoutFrontmatter text (opening :: rest))

def tooLarge (documentId : String) : String :=
  "NATIVE_DOCUMENT_ANALYSIS_INPUT_ERROR: document " ++ documentId ++ " exceeds the " ++ toString maxDocumentBytes ++
    " byte native analysis limit"

/-- A batch of one document. -/
def analyzeInput (documentId : String) (text : List Char) : Except String DocumentAnalysis :=
  if maxDocumentBytes < byteLength text then .error (tooLarge documentId) else analyzeDocument text

end Alexandria.Markdown.Native
