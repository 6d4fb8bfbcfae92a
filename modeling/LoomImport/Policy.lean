import LoomImport.Netlist
import LoomImport.Lib.Words

/-!
# Unknown bits: sites, policy rules and blocking records

An unknown bit of the source gets a concrete value only where one rule of a four-state policy claims its site. A site is a digest
of what it is about, so that it survives a change elsewhere in the source. Whatever is not claimed exactly once is recorded as a
blocker.
-/

namespace LoomImport

/-! ## Canonical JSON of a site -/

/-- A digit in base sixteen, in lower case. -/
def hexDigit (n : Nat) : Char := if n < 10 then Char.ofNat ('0'.toNat + n) else Char.ofNat ('a'.toNat + (n - 10))

/-- Four digits in base sixteen. -/
def hex4 (n : Nat) : List Char :=
  [hexDigit (n / 4096 % 16), hexDigit (n / 256 % 16), hexDigit (n / 16 % 16), hexDigit (n % 16)]

/-- An escaped code unit, `\uXXXX`. -/
def escapeUnit (n : Nat) : List Char := '\\' :: 'u' :: hex4 n

/-- A character of a JSON string, as `json.dumps` writes it: ASCII only, with surrogate pairs beyond the basic plane. -/
def jsonChar (c : Char) : List Char :=
  if c = '"' then ['\\', '"']
  else if c = '\\' then ['\\', '\\']
  else if c = '\n' then ['\\', 'n']
  else if c = '\r' then ['\\', 'r']
  else if c = '\t' then ['\\', 't']
  else if c.toNat = 12 then ['\\', 'f']
  else if c.toNat = 8 then ['\\', 'b']
  else if 32 ≤ c.toNat ∧ c.toNat ≤ 126 then [c]
  else if c.toNat < 65536 then escapeUnit c.toNat
  else escapeUnit (55296 + (c.toNat - 65536) / 1024) ++ escapeUnit (56320 + (c.toNat - 65536) % 1024)

/-- `json.dumps` of a string. -/
def jsonString (s : String) : String := String.ofList ('"' :: s.toList.flatMap jsonChar ++ ['"'])

/-- `json.dumps` of an object whose fields are already dumped and come in the order of their names, without white space. -/
def jsonObject (fields : List (String × String)) : String :=
  "\x7b" ++ String.intercalate "," (fields.map fun field => jsonString field.1 ++ ":" ++ field.2) ++ "\x7d"

/-- `json.dumps` of an array of dumped items, without white space. -/
def jsonArray (items : List String) : String := "[" ++ String.intercalate "," items ++ "]"

namespace SourceLocation

/-- The canonical JSON of a position. -/
def json (source : SourceLocation) : String :=
  jsonObject [("end_column", toString source.endColumn), ("end_line", toString source.endLine),
    ("file", jsonString source.file), ("start_column", toString source.startColumn),
    ("start_line", toString source.startLine)]

end SourceLocation

/-- A constant bit as Yosys writes it. -/
def Bit.text : Bit → String
  | .net id => toString id
  | .const value => String.ofList [value]

/-- What a site stands for. -/
inductive SitePayload where
  /-- A constant with unknown bits. -/
  | constant (module : String) (bits : List Bit) (source : SourceLocation)
  /-- A choice made for a cell: what lies outside the vector a `$shiftx` selects from, or outside a memory. -/
  | cell (module cellName kind : String) (source : SourceLocation)
  deriving Repr, DecidableEq

/-- The canonical JSON of a payload: its keys in order, without white space. -/
def SitePayload.json : SitePayload → String
  | .constant module bits source =>
    jsonObject [("bits", jsonArray (bits.map fun bit => jsonString bit.text)), ("module", jsonString module),
      ("source", source.json)]
  | .cell module cellName kind source =>
    jsonObject [("cell", jsonString cellName), ("kind", jsonString kind), ("module", jsonString module), ("source", source.json)]

/-- The first characters of a string. -/
def takeChars (n : Nat) (s : String) : String := String.ofList (s.toList.take n)

/-- The identifier of a site: a prefix of the digest of its payload. -/
def siteOf (sha256 : String → String) (payload : SitePayload) : String :=
  "four_state_" ++ takeChars 24 (sha256 payload.json)

/-! ## Policies -/

/-- What an unknown bit is filled with. -/
inductive Fill where
  | zero
  | one
  deriving Repr, DecidableEq

/-- A rule of a four-state policy. The checks on a rule are fields, so a rule with invalid metadata cannot be built. -/
structure PolicyRule where
  name : String
  module : String
  file : String
  lineStart : Nat
  lineEnd : Nat
  classification : PartialValueClass
  fill : Fill
  rationale : String
  site : Option String
  name_ne : name ≠ ""
  rationale_ne : rationale ≠ ""
  lines_le : lineStart ≤ lineEnd
  deriving DecidableEq

/-- A four-state policy: at least one rule, and no two rules of one name. -/
structure FourStatePolicy where
  rules : List PolicyRule
  rules_ne : rules ≠ []
  names_nodup : (rules.map PolicyRule.name).Nodup

namespace FourStatePolicy

/-- A rule claims a site of a module at a source position. -/
def claims (rule : PolicyRule) (site module : String) (source : SourceLocation) : Bool :=
  rule.site.getD site = site && (rule.module = "*" || rule.module = module) &&
    (rule.file = "*" || rule.file = source.file) &&
    (rule.lineStart ≤ source.startLine && source.startLine ≤ rule.lineEnd)

/-- The rules that claim a site. -/
def matching (policy : FourStatePolicy) (site module : String) (source : SourceLocation) : List PolicyRule :=
  policy.rules.filter fun rule => claims rule site module source

end FourStatePolicy

/-- The rationale of a choice names the rule it comes from. -/
def PolicyRule.reason (rule : PolicyRule) : String := rule.name ++ ": " ++ rule.rationale

/-! ## Blocking records -/

/-- What a record says about a partial value. -/
structure RecordMetadata where
  site : String
  pattern : String
  width : Nat
  unknownBits : Nat
  deriving Repr, DecidableEq

/-- A blocker: a construct of the source that is not translated. -/
structure UnsupportedRecord where
  kind : String
  detail : String
  source : SourceLocation
  metadata : Option RecordMetadata
  deriving Repr, DecidableEq

/-- A bounded rendering of a constant with unknown bits. -/
def partialPattern (sha256 : String → String) (bits : List Bit) : String :=
  let msbFirst := String.join (bits.reverse.map Bit.text)
  if bits.dedup.length = 1 then toString bits.length ++ "'" ++ ((bits.head?.map Bit.text).getD "")
  else if bits.length ≤ 64 then toString bits.length ++ "'" ++ msbFirst
  else
    "width=" ++ toString bits.length ++ " unknown=" ++ toString (bits.countP Bit.isUnknown) ++ " pattern_sha256=" ++
      takeChars 16 (sha256 msbFirst)

/-! ## Numbers of bit vectors -/

/-- The number with the given bits, least significant first. -/
def natOfBits : List Bool → Nat
  | [] => 0
  | b :: bs => b.toNat + 2 * natOfBits bs

/-- The bits of a constant that are one. -/
def Bit.isOne (bit : Bit) : Bool := bit = .const '1'

/-- The choice a rule makes for a constant with unknown bits. -/
def partialConstant (site : String) (rule : PolicyRule) (bits : List Bit) : PartialValue :=
  let knownMask := natOfBits (bits.map Bit.isKnown)
  let knownValue := natOfBits (bits.map Bit.isOne)
  let unknownMask := (2 ^ bits.length - 1) ^^^ knownMask
  { site := site
    classification := rule.classification
    knownMask := knownMask
    knownValue := knownValue
    implementationValue := match rule.fill with
      | .zero => knownValue
      | .one => knownValue ||| unknownMask
    rationale := rule.reason }

/-- The choice a rule makes for a value of which no bit is known. -/
def partialUnknown (site : String) (rule : PolicyRule) (width : Nat) : PartialValue where
  site := site
  classification := rule.classification
  knownMask := 0
  knownValue := 0
  implementationValue := match rule.fill with
    | .zero => 0
    | .one => 2 ^ width - 1
  rationale := rule.reason

/-- A slice of a choice. -/
def PartialValue.slice (choice : PartialValue) (offset width : Nat) : PartialValue :=
  let mask := 2 ^ width - 1
  { choice with
    knownMask := (choice.knownMask >>> offset) &&& mask
    knownValue := (choice.knownValue >>> offset) &&& mask
    implementationValue := (choice.implementationValue >>> offset) &&& mask }

end LoomImport
