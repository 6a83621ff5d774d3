import Alexandria.Markdown.Analysis
import Mathlib.Computability.RegularExpressions
import Mathlib.Data.Nat.Digits.Defs

/-! # Rendering and reading frontmatter

`frontmatter.py` renders a mapping and a body to one document; `native_frontmatter.py` hands a document to the native
analysis and turns the tagged entries into values again. A mapping is the list of its items. Floating-point numbers
are a parameter: their type, `str` and `float`.
-/

namespace Alexandria.Markdown
set_option autoImplicit false

open Native (trimmed delimiter)

/-! ## Values -/

inductive FrontmatterScalar (φ : Type)
  | none
  | bool (value : Bool)
  | int (value : ℤ)
  | float (value : φ)
  | str (text : String)
deriving DecidableEq

inductive FrontmatterValue (φ : Type)
  | scalar (value : FrontmatterScalar φ)
  | list (items : List (FrontmatterScalar φ))
deriving DecidableEq

abbrev Mapping (φ : Type) := List (String × FrontmatterValue φ)

structure Floats (φ : Type) where
  str : φ → String
  float : String → φ

structure MarkdownDocument (φ : Type) where
  frontmatter : Mapping φ
  body : String
deriving DecidableEq

/-! ## Integers -/

def digitOf (n : ℕ) : Char := Char.ofNat ('0'.toNat + n)

/-- `str` of an integer. -/
def intText : ℤ → List Char
  | .ofNat 0 => ['0']
  | .ofNat (n + 1) => ((Nat.digits 10 (n + 1)).reverse).map digitOf
  | .negSucc n => '-' :: ((Nat.digits 10 (n + 1)).reverse).map digitOf

/-- `int` of an unsigned decimal lexeme. -/
def naturalOf (digits : List Char) : ℕ := digits.foldl (fun n c => 10 * n + (c.toNat - '0'.toNat)) 0

/-- `int` of a decimal lexeme. -/
def intOf : List Char → ℤ
  | '-' :: digits => -(naturalOf digits : ℤ)
  | '+' :: digits => naturalOf digits
  | digits => naturalOf digits

/-! ## Rendering -/

open RegularExpression in
/-- A character class. -/
def oneOf (cs : List Char) : RegularExpression Char := (cs.map char).foldr (· + ·) 0

def optionally (r : RegularExpression Char) : RegularExpression Char := 1 + r

def oneOrMore (r : RegularExpression Char) : RegularExpression Char := r * r.star

def signs : List Char := ['-', '+']

def nonzeroDigits : List Char := ['1', '2', '3', '4', '5', '6', '7', '8', '9']

def decimalDigits : List Char := '0' :: nonzeroDigits

/-- `(?:0|[1-9][0-9]*)` -/
def wholePattern : RegularExpression Char := .char '0' + oneOf nonzeroDigits * (oneOf decimalDigits).star

/-- `[-+]?(?:0|[1-9][0-9]*)` -/
def integerScalar : RegularExpression Char := optionally (oneOf signs) * wholePattern

/-- `[-+]?(?:(?:0|[1-9][0-9]*)\.[0-9]+|(?:0|[1-9][0-9]*)[eE][-+]?[0-9]+)` -/
def floatScalar : RegularExpression Char :=
  optionally (oneOf signs) *
    (wholePattern * (.char '.' * oneOrMore (oneOf decimalDigits)) +
      wholePattern * (oneOf ['e', 'E'] * (optionally (oneOf signs) * oneOrMore (oneOf decimalDigits))))

def blocked : List Char := [':', '#', '[', ']', '\x7b', '\x7d', '\n', '\'', '"']

def blockedFirst : List Char := ['-', '@', '`', '!', '&', '*']

/-- `_can_render_plain`. No letter outside ASCII has one of `true`, `false`, `null` in its lower case. -/
def canRenderPlain (value : List Char) : Bool :=
  if value = [] then false
  else if value = ['~'] ∨ value.map Char.toLower ∈ ["true".toList, "false".toList, "null".toList] then false
  else if integerScalar.rmatch value || floatScalar.rmatch value then false
  else if value.any fun c => c ∈ blocked then false
  else
    match value.head? with
    | some first => first ∉ blockedFirst
    | none => true

def doubleQuotes (value : List Char) : List Char := value.flatMap fun c => if c = '\'' then ['\'', '\''] else [c]

def yamlText (value : List Char) : List Char :=
  if canRenderPlain value then value else '\'' :: (doubleQuotes value ++ ['\''])

section Floats
variable {φ : Type} (floats : Floats φ)

def yamlScalar : FrontmatterScalar φ → List Char
  | .none => "null".toList
  | .bool value => if value then "true".toList else "false".toList
  | .int value => intText value
  | .float value => (floats.str value).toList
  | .str text => yamlText text.toList

def renderFrontmatterValue (key : String) : FrontmatterValue φ → List (List Char)
  | .list [] => [key.toList ++ ": []".toList]
  | .list (item :: items) =>
    (key.toList ++ [':']) :: (item :: items).map fun item => "  - ".toList ++ yamlScalar floats item
  | .scalar value => [key.toList ++ (": ".toList ++ yamlScalar floats value)]

def renderMarkdownDocument (frontmatter : Mapping φ) (body : String) : List Char :=
  let lines := delimiter :: (frontmatter.flatMap (fun item => renderFrontmatterValue floats item.1 item.2) ++ [delimiter])
  ['\n'].intercalate lines ++ ('\n' :: '\n' :: (body.toList.rdropWhile (· = '\n') ++ ['\n']))

/-! ## Reading -/

def scalarFromTag : Native.FrontmatterScalar → FrontmatterScalar φ
  | .null => .none
  | .string text => .str text
  | .integer lexeme => .int (intOf lexeme.toList)
  | .float lexeme => .float (floats.float lexeme)
  | .boolean value => .bool value

def valueFromTag : Native.FrontmatterValue → FrontmatterValue φ
  | .scalar value => .scalar (scalarFromTag floats value)
  | .sequence items => .list (items.map (scalarFromTag floats))

def outputError (detail : String) : String := "NATIVE_DOCUMENT_ANALYSIS_OUTPUT_ERROR: " ++ detail

def decodeNativeFrontmatterEntries (frontmatter : Mapping φ) :
    List Native.FrontmatterEntry → Except String (Mapping φ)
  | [] => .ok frontmatter
  | entry :: entries =>
    if entry.key = "" then .error (outputError "invalid frontmatter key")
    else if entry.key ∈ frontmatter.map Prod.fst then .error (outputError "duplicate frontmatter key")
    else decodeNativeFrontmatterEntries (frontmatter ++ [(entry.key, valueFromTag floats entry.value)]) entries

def documentId : String := "obsidian-markdown-document"

def parseMarkdownDocument (text : List Char) : Except String (MarkdownDocument φ) :=
  match Native.analyzeInput documentId text with
  | .error e => .error e
  | .ok analysis =>
    match decodeNativeFrontmatterEntries floats [] analysis.frontmatter with
    | .error e => .error e
    | .ok frontmatter => .ok ⟨frontmatter, String.ofList analysis.body⟩

end Floats

end Alexandria.Markdown
