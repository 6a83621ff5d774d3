import Alexandria.Foundations.Delimited
import Alexandria.Foundations.ReplacementTemplate
import Alexandria.Graph.RelationTargets

/-! # The managed links section

The links of a note are rendered as a block between two comments of its body. A block that is there is replaced by a
regular-expression substitution, whose replacement is a template; otherwise the block is put after the body.
-/

namespace Alexandria.Graph
set_option autoImplicit false
open Text
open Delimited (Markers)
open Notes (JsonValue JsonObject)

variable {φ : Type}

def linksStart : List Char := "<!-- ALEXANDRIA-LINKS:START -->".toList

def linksEnd : List Char := "<!-- ALEXANDRIA-LINKS:END -->".toList

/-- `ALEXANDRIA_LINKS_START` and `ALEXANDRIA_LINKS_END` -/
def alexandriaLinks : Markers Char where
  start := linksStart
  stop := linksEnd
  startSharp := ⟨'<', "!-- ALEXANDRIA-LINKS:START -->".toList, by decide, by decide⟩
  stopSharp := ⟨'<', "!-- ALEXANDRIA-LINKS:END -->".toList, by decide, by decide⟩

/-- `_FRONTMATTER_RELATIONS` -/
def frontmatterRelations : List (String × ObsidianRelationType) :=
  [("source_ref_links", .cites), ("source_refs", .cites), ("derived_from", .derivedFrom), ("related", .related),
    ("supersedes", .supersedes), ("duplicates", .duplicates), ("supports", .supports), ("extends", .extends),
    ("contradicts", .contradicts), ("contains", .contains), ("promotes_to", .promotesTo), ("blocks", .blocks),
    ("resolves", .resolves)]

/-- `_RELATION_HEADINGS` -/
def relationHeading : ObsidianRelationType → String
  | .cites => "Sources"
  | .related => "Related"
  | .derivedFrom => "Derived From"
  | .supersedes => "Supersedes"
  | .promotesTo => "Promotes To"
  | .blocks => "Blocks"
  | .resolves => "Resolves"
  | .duplicates => "Duplicates"
  | .supports => "Supports"
  | .extends => "Extends"
  | .contradicts => "Contradicts"
  | .contains => "Contains"
  | .wikilink => ""

/-- `path.strip().removesuffix(".md")` -/
def linkTarget (path : String) : List Char :=
  let stripped := trimBy isPythonWhitespace path.toList
  if ".md".toList.isSuffixOf stripped then stripped.take (stripped.length - 3) else stripped

def linkLine (link : List Char) (relation : ObsidianRelationType) : List Char :=
  "- [[".toList ++ (link ++ ("]] — ".toList ++ relation.value.toList))

section Section
variable (structured : StructuredText φ) (frontmatter : JsonObject φ)

/-- The targets of a field that have a path, each with its relation. -/
def pathTargets (field : String × ObsidianRelationType) : List (List Char × ObsidianRelationType) :=
  (relationTargets structured (frontmatter.get field.1)).filterMap fun target =>
    target.path.map fun path => (linkTarget path, target.relation.getD field.2)

/-- The lines of a field: none when no target has a path. -/
def fieldLines (field : String × ObsidianRelationType) : List (List Char) :=
  match pathTargets structured frontmatter field with
  | [] => []
  | targets => [] :: ("### ".toList ++ (relationHeading field.2).toList) :: targets.map fun target => linkLine target.1 target.2

/-- `_render_links_section` -/
def renderLinksSection : List Char :=
  let lines := frontmatterRelations.flatMap (fieldLines structured frontmatter)
  if lines = [] then [] else ['\n'].intercalate ("## Alexandria Links".toList :: lines)

end Section

/-- The rendered section between the markers. -/
def linksBlock (rendered : List Char) : List Char := alexandriaLinks.enclose ('\n' :: (rendered ++ ['\n']))

/-- What is made of a body and a rendered section; `none` where the replacement template raises. -/
def updateSection (rendered body : List Char) : Option (List Char) :=
  if rendered = [] then some body
  else
    match alexandriaLinks.find body with
    | some _ => do
      let pieces ← ReplacementTemplate.parse ('\n' :: '\n' :: linksBlock rendered)
      return trimBy isPythonWhitespace (alexandriaLinks.replaceAll '\n' (ReplacementTemplate.expand pieces) body) ++ ['\n']
    | none =>
      if trimBy isPythonWhitespace body ≠ [] then
        some (body.rdropWhile isPythonWhitespace ++ ('\n' :: '\n' :: (linksBlock rendered ++ ['\n'])))
      else some (linksBlock rendered ++ ['\n'])

/-- `add_or_update_alexandria_links_section` -/
def addOrUpdateAlexandriaLinksSection (structured : StructuredText φ) (body : List Char) (frontmatter : JsonObject φ) :
    Option (List Char) :=
  updateSection (renderLinksSection structured frontmatter) body

end Alexandria.Graph
