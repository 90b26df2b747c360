import PassTuner.Text.Blank
import PassTuner.Text.Lines
import PassTuner.Text.Search
import PassTuner.Json.Record

/-!
# The passes in an optimizer's help text

The help text has a section of passes under a header line, one pass a line, its flag in front. The
section ends with the first line that is indented no deeper than its header, or before the flag at
which the vocabulary is cut off. Flags whose names start in certain ways are left out: passes of one
architecture, diagnostics and printers.
-/

namespace PassTuner

structure ListingRules where
  sectionHeader : String
  /-- Beginnings of the names of passes to leave out, without dashes. -/
  excluded : List String
  cutoff : Option String
  deriving DecidableEq, Repr

namespace ListingRules

def standard : ListingRules where
  sectionHeader := "Optimizations available"
  excluded := ["amd", "aarch", "arm", "avr", "dot", "falkor", "function-import", "gcn", "help",
    "hexagon", "internalize", "instruction-select", "nvptx", "machine", "metarenamer", "mips",
    "objc", "packets", "ppc", "print", "r600", "regbank", "riscv", "si", "slotindexes", "target",
    "view", "wasm", "x86", "X86"]
  cutoff := some "--bounds-checking-single-trap"

/-- Whether a pass is left out because of how its name starts. -/
def excludes (rules : ListingRules) (flag : List Char) : Bool :=
  let name := flag.dropWhile (· == '-')
  rules.excluded.any fun start => start.toList.isPrefixOf name

def isFlag (token : List Char) : Bool :=
  ['-', '-'].isPrefixOf token && 2 < token.length

/-- The flags of the lines of a section, in order. -/
def collect (rules : ListingRules) (headerIndent : Nat) : List (List Char) → List (List Char)
  | [] => []
  | line :: rest =>
    if Text.isBlankLine line then collect rules headerIndent rest
    else if Text.indentation line ≤ headerIndent then []
    else match Text.fields line with
      | [] => collect rules headerIndent rest
      | token :: _ =>
        if !isFlag token then collect rules headerIndent rest
        else if rules.cutoff.any (·.toList == token) then []
        else if rules.excludes token then collect rules headerIndent rest
        else token :: collect rules headerIndent rest

/-- The part of a text behind its last line feed. -/
def lastLine (text : List Char) : List Char := (text.reverse.takeWhile (· ≠ '\n')).reverse

/-- The flags listed under the header; there are none if the header is missing. -/
def flags? (rules : ListingRules) (listing : String) : Option (List String) :=
  let header := rules.sectionHeader.toList
  match Text.cut? header listing.toList with
  | none => none
  | some (before, after) =>
    let headerIndent := Text.indentation (lastLine before ++ header ++ after)
    some ((rules.collect headerIndent ((Text.lines after).drop 1)).map String.ofList)

def toJson (rules : ListingRules) : Json :=
  .ofFields [("section_header", .ofText rules.sectionHeader),
    ("excluded_prefixes", .array (rules.excluded.map Json.ofText)),
    ("cutoff", .ofOption Json.ofText rules.cutoff)]

def ofJson? (j : Json) : Option ListingRules := do
  let r ← j.record? ["section_header", "excluded_prefixes", "cutoff"]
  return {
    sectionHeader := ← r.withDefault "section_header" standard.sectionHeader Json.text?
    excluded := ← r.withDefault "excluded_prefixes" standard.excluded (Json.list? Json.text?)
    cutoff := ← r.withDefault "cutoff" standard.cutoff (Json.option? Json.text?) }

end ListingRules

end PassTuner
